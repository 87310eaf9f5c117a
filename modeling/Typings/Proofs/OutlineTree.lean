import Typings.Answer
import Typings.Proofs.BelowBase
import Typings.Proofs.JsonText
import Typings.Proofs.Nodes
import Typings.Proofs.OutlineText
import Typings.Proofs.QuotedText
import Typings.Proofs.TokenText

/-!
# What an outline was written from

Each node of an expression has one line, indented by its depth.  The line tells at which place the
node stands and what it is, and the lines of a part end where the indentation is that of the next
part.  So an outline tells the types it was written from:
`Resolved.respelled_eq_of_writeOutline`.
-/

namespace Typings

/-! ## Texts of leaves -/

theorem Text.tight_cons_concat {c d : Char} (hc : isSpace c = false) (hd : isSpace d = false)
    (s : List Char) : Tight (c :: (s ++ [d])) := by
  refine ⟨List.cons_ne_nil _ _, hc, ?_⟩
  rw [← List.cons_append, List.getLast?_concat]
  exact hd

theorem Identity.legible_displayRelative {a : Identity} (ha : a.Showable) (base : Path) :
    OutlineLine.Legible (a.displayRelative base).toList := by
  refine ⟨newline_not_mem_displayRelative ha base, ?_⟩
  rw [toList_displayRelative]
  exact Text.tight_cons_concat rfl rfl _

def Literal.Showable : Literal → Prop
  | .number _ => False
  | _ => True

theorem Literal.eq_of_write {a b : Literal} (ha : a.Showable) (hb : b.Showable)
    (h : a.write = b.write) : a = b := by
  have hword : ∀ (s : List Char) (value : Bool), Text.quote s ≠ (Literal.boolean value).write := by
    rintro s (_ | _) h <;> cases (List.cons.inj h).1
  cases a with
  | number _ => cases ha
  | string s =>
      cases b with
      | number _ => cases hb
      | string t => rw [String.toList_inj.1 (Text.quote_inj h)]
      | boolean value => exact absurd h (hword _ value)
  | boolean value =>
      cases b with
      | number _ => cases hb
      | string t => exact absurd h.symm (hword _ value)
      | boolean value' =>
          cases value <;> cases value' <;> first | rfl | cases (List.cons.inj h).1

theorem Literal.legible_write {a : Literal} (ha : a.Showable) : OutlineLine.Legible a.write := by
  cases a with
  | number _ => cases ha
  | string s =>
      exact ⟨Text.newline_not_mem_quote _, Text.tight_cons_concat rfl rfl _⟩
  | boolean value =>
      refine OutlineLine.legible_of_isIdentifier ?_
      cases value <;> decide

theorem Joiner.eq_of_heading {a b : Joiner} (h : a.heading = b.heading) : a = b := by
  cases a <;> cases b <;> simp_all [Joiner.heading]

namespace Expr

/-! ## Lines of nodes -/

def Place.label : Place → String
  | .inner => ""
  | .argument => "argument: "
  | .property key optional => propertyLabel key optional
  | .dynamic => "[key]: "

namespace Node

def kind : Node → String
  | .reference _ => "reference"
  | .literal _ => "literal"
  | .primitive _ => "primitive"
  | .array => "array"
  | .object => "object"
  | .promise => "promise"
  | .compound joiner => joiner.heading
  | .generic => "generic"
  | .unknown => "unknown"

def detail (base : Path) : Node → List Char
  | .reference target => ' ' :: (target.displayRelative base).toList
  | .literal value => ' ' :: value.write
  | .primitive kind => ' ' :: kind.keyword.toList
  | _ => []

def text (base : Path) (n : Node) : List Char := n.kind.toList ++ n.detail base

end Node

def Spot.line (base : Path) (s : Spot) : OutlineLine :=
  ⟨s.depth, s.place.label.toList ++ s.node.text base⟩

variable {base : Path}

theorem heading_eq (e : Expr) : e.heading base = e.node.text base := by
  have hblank : ∀ (word : String) (s : List Char),
      (word ++ " ").toList ++ s = word.toList ++ ' ' :: s := by
    intro word s
    rw [String.toList_append, List.append_assoc]
    rfl
  cases e with
  | reference target argument => exact String.toList_append.trans (hblank "reference" _)
  | literal value => exact hblank "literal" _
  | primitive kind => exact String.toList_append.trans (hblank "primitive" _)
  | _ => exact (List.append_nil _).symm

theorem outlineProperties_eq (depth : Nat) (properties : List (Property Expr)) :
    outlineProperties base depth properties =
      (properties.map propertyPart).flatMap fun part => part.2.outline base depth part.1.label := by
  induction properties with
  | nil => rfl
  | cons p properties ih =>
      rw [outlineProperties, ih]
      rfl

theorem outlineMembers_eq (depth : Nat) (members : List Expr) :
    outlineMembers base depth members =
      (members.map (Place.inner, ·)).flatMap fun part => part.2.outline base depth part.1.label := by
  induction members with
  | nil => rfl
  | cons e members ih =>
      rw [outlineMembers, ih]
      rfl

theorem outline_eq (depth : Nat) (label : String) (e : Expr) : e.outline base depth label =
    ⟨depth, label.toList ++ e.node.text base⟩ ::
      e.parts.flatMap fun part => part.2.outline base (depth + 1) part.1.label := by
  rw [← heading_eq]
  cases e with
  | reference target argument =>
      cases argument with
      | none => rfl
      | some argument => simp [outline, parts, Place.label]
  | object properties dynamic =>
      cases dynamic with
      | none => simp [outline, parts, outlineProperties_eq]
      | some dynamic => simp [outline, parts, outlineProperties_eq, Place.label]
  | compound joiner members => rw [outline, outlineMembers_eq]; rfl
  | array element | promise element => simp [outline, parts, Place.label]
  | _ => rfl

theorem outline_eq_map_spots (depth : Nat) (place : Place) (e : Expr) :
    e.outline base depth place.label = (e.spots depth place).map (Spot.line base) := by
  induction depth, place, e using spots.induct with
  | case1 depth place e ih =>
      rw [outline_eq, spots_eq, List.map_cons, List.map_flatMap]
      congr 1
      exact List.flatMap_congr fun part hpart => ih part hpart

theorem le_depth_of_mem_spots {depth : Nat} {place : Place} {e : Expr} :
    ∀ spot ∈ e.spots depth place, depth ≤ spot.depth := by
  induction depth, place, e using spots.induct with
  | case1 depth place e ih =>
      rw [spots_eq, List.forall_mem_cons]
      refine ⟨Nat.le_refl depth, fun spot hspot => ?_⟩
      obtain ⟨part, hpart, hspot⟩ := List.mem_flatMap.1 hspot
      exact Nat.le_of_succ_le (ih part hpart spot hspot)

theorem isBlock_outline (depth : Nat) (label : String) (e : Expr) :
    IsBlock (fun l => depth < l.depth) (e.outline base depth label) := by
  refine ⟨_, _, outline_eq depth label e, by simp, fun l hl => ?_⟩
  obtain ⟨part, hpart, hl⟩ := List.mem_flatMap.1 hl
  rw [outline_eq_map_spots] at hl
  obtain ⟨spot, hspot, rfl⟩ := List.mem_map.1 hl
  exact decide_eq_true (le_depth_of_mem_spots spot hspot)

/-! ## Expressions that can be read from their outline -/

def Node.Showable : Node → Prop
  | .reference target => target.Showable
  | .literal value => value.Showable
  | _ => True

def Place.Showable : Place → Prop
  | .property key _ => Text.isIdentifier key.toList = true
  | _ => True

/-- An expression whose nodes and places, down to the innermost, can be read from their lines. -/
inductive Showable : Expr → Prop
  | intro {e : Expr} (hnode : e.node.Showable) (hplaces : ∀ part ∈ e.parts, part.1.Showable)
      (hparts : ∀ part ∈ e.parts, Showable part.2) : Showable e

theorem Showable.spots {e : Expr} (h : e.Showable) {depth : Nat} {place : Place}
    (hplace : place.Showable) :
    ∀ spot ∈ e.spots depth place, spot.node.Showable ∧ spot.place.Showable := by
  induction h generalizing depth place with
  | intro hnode hplaces hparts ih =>
      rw [spots_eq, List.forall_mem_cons]
      refine ⟨⟨hnode, hplace⟩, fun spot hspot => ?_⟩
      obtain ⟨part, hpart, hspot⟩ := List.mem_flatMap.1 hspot
      exact ih part hpart (hplaces part hpart) spot hspot

/-! ## Labels -/

inductive Node.Holds : Node → Place → Prop
  | argument (target : Identity) : Holds (.reference target) .argument
  | element : Holds .array .inner
  | property (key : String) (optional : Bool) : Holds .object (.property key optional)
  | dynamic : Holds .object .dynamic
  | value : Holds .promise .inner
  | member (joiner : Joiner) : Holds (.compound joiner) .inner

theorem holds_of_mem_parts {e : Expr} {part : Place × Expr} (h : part ∈ e.parts) :
    e.node.Holds part.1 := by
  cases e with
  | reference target argument =>
      obtain ⟨e, -, rfl⟩ := List.mem_map.1 h
      exact .argument target
  | object properties dynamic =>
      rcases List.mem_append.1 h with h | h
      · obtain ⟨p, -, rfl⟩ := List.mem_map.1 h
        exact .property p.key p.optional
      · obtain ⟨e, -, rfl⟩ := List.mem_map.1 h
        exact .dynamic
  | compound joiner members =>
      obtain ⟨e, -, rfl⟩ := List.mem_map.1 h
      exact .member joiner
  | array element =>
      obtain rfl := List.mem_singleton.1 h
      exact .element
  | promise inner =>
      obtain rfl := List.mem_singleton.1 h
      exact .value
  | _ => cases h

def optionalMark (optional : Bool) : List Char := if optional then ['?', ':', ' '] else [':', ' ']

theorem Place.toList_label_property (key : String) (optional : Bool) :
    (Place.property key optional).label.toList = key.toList ++ optionalMark optional := by
  cases optional <;> exact String.toList_append

theorem eq_of_propertyLabel {key key' : String} (hkey : Text.isIdentifier key.toList = true)
    (hkey' : Text.isIdentifier key'.toList = true) {optional optional' : Bool} {s t : List Char}
    (h : key.toList ++ optionalMark optional ++ s = key'.toList ++ optionalMark optional' ++ t) :
    key = key' ∧ optional = optional' ∧ s = t := by
  have hmark : ∀ (optional : Bool) (s : List Char),
      (optionalMark optional ++ s).head?.any Text.isWord = false := by
    rintro (_ | _) s <;> rfl
  rw [List.append_assoc, List.append_assoc] at h
  obtain ⟨hchars, hbehind⟩ := eq_of_append_of_all (Text.isWord_of_isIdentifier hkey)
    (Text.isWord_of_isIdentifier hkey') (hmark _ _) (hmark _ _) h
  refine ⟨String.toList_inj.1 hchars, ?_⟩
  cases optional <;> cases optional' <;> simp_all [optionalMark]

theorem propertyLabel_ne_dynamic {key : String} (hkey : Text.isIdentifier key.toList = true)
    (optional : Bool) (s t : List Char) :
    (Place.property key optional).label.toList ++ s ≠ Place.dynamic.label.toList ++ t := by
  obtain ⟨c, tail, hchars, hc⟩ := Text.exists_cons_of_isIdentifier hkey
  rw [Place.toList_label_property, hchars]
  rintro h
  obtain rfl : c = '[' := (List.cons.inj h).1
  exact absurd hc (by decide)

/-- A label shows where it ends, and tells the place among those that a node can hold. -/
theorem Place.eq_of_label {n : Node} {p q : Place} (hp : n.Holds p) (hq : n.Holds q)
    (hp' : p.Showable) (hq' : q.Showable) {s t : List Char}
    (h : p.label.toList ++ s = q.label.toList ++ t) : p = q ∧ s = t := by
  cases hp with
  | property key optional =>
      cases hq with
      | property key' optional' =>
          rw [toList_label_property, toList_label_property] at h
          obtain ⟨rfl, rfl, hrest⟩ := eq_of_propertyLabel hp' hq' h
          exact ⟨rfl, hrest⟩
      | dynamic => exact absurd h (propertyLabel_ne_dynamic hp' optional s t)
  | dynamic =>
      cases hq with
      | property key' optional' => exact absurd h.symm (propertyLabel_ne_dynamic hq' optional' t s)
      | dynamic => exact ⟨rfl, List.append_cancel_left h⟩
  | _ =>
      cases hq
      exact ⟨rfl, List.append_cancel_left h⟩

/-! ## Nodes -/

def Node.respelled : Node → Node
  | .reference target => .reference target.respelled
  | n => n

theorem Node.Holds.respelled {n : Node} {place : Place} (h : n.Holds place) :
    n.respelled.Holds place := by
  cases h with
  | argument target => exact .argument target.respelled
  | element => exact .element
  | property key optional => exact .property key optional
  | dynamic => exact .dynamic
  | value => exact .value
  | member joiner => exact .member joiner

def Node.kinds : List String :=
  ["reference", "literal", "primitive", "array", "object", "promise", "union", "intersection",
    "generic", "unknown"]

theorem Node.kind_mem_kinds (n : Node) : n.kind ∈ kinds := by
  rcases n with _ | _ | _ | _ | _ | _ | (_ | _) | _ | _ <;> simp [kind, kinds, Joiner.heading]

theorem Node.isIdentifier_kind (n : Node) : Text.isIdentifier n.kind.toList = true := by
  have hall : ∀ word ∈ kinds, Text.isIdentifier word.toList = true := by decide
  exact hall n.kind n.kind_mem_kinds

theorem Node.ctorIdx_eq_of_kind {n m : Node} (h : n.kind = m.kind) : n.ctorIdx = m.ctorIdx := by
  have hindex : ∀ n : Node, [("reference", 0), ("literal", 1), ("primitive", 2), ("array", 3),
      ("object", 4), ("promise", 5), ("union", 6), ("intersection", 6), ("generic", 7),
      ("unknown", 8)].lookup n.kind = some n.ctorIdx := by
    rintro (_ | _ | _ | _ | _ | _ | (_ | _) | _ | _) <;> rfl
  exact Option.some.inj ((hindex n).symm.trans (h ▸ hindex m))

theorem Node.respelled_eq_of_text {n m : Node} (hn : n.Showable) (hm : m.Showable)
    (h : n.text base = m.text base) : n.respelled = m.respelled := by
  have hdetail : ∀ n : Node, (n.detail base).head?.any Text.isWord = false := by
    rintro (_ | _ | _ | _ | _ | _ | _ | _ | _) <;> rfl
  obtain ⟨hkind, hrest⟩ := eq_of_append_of_all
    (Text.isWord_of_isIdentifier n.isIdentifier_kind)
    (Text.isWord_of_isIdentifier m.isIdentifier_kind) (hdetail n) (hdetail m) h
  have hindex := ctorIdx_eq_of_kind (String.toList_inj.1 hkind)
  cases n with
  | reference target =>
      cases m with
      | reference target' =>
          have hsame := Identity.same_of_displayRelative hn hm
            (String.toList_inj.1 (List.cons.inj hrest).2)
          exact congrArg reference ((Identity.respelled_eq_iff hn hm).2 hsame)
      | _ => cases hindex
  | literal value =>
      cases m with
      | literal value' =>
          exact congrArg literal (Literal.eq_of_write hn hm (List.cons.inj hrest).2)
      | _ => cases hindex
  | primitive kind =>
      cases m with
      | primitive kind' =>
          exact congrArg primitive
            (Primitive.keyword_inj (String.toList_inj.1 (List.cons.inj hrest).2))
      | _ => cases hindex
  | compound joiner =>
      cases m with
      | compound joiner' =>
          exact congrArg compound (Joiner.eq_of_heading (String.toList_inj.1 hkind))
      | _ => cases hindex
  | _ => cases m <;> first | rfl | cases hindex

/-! ## Legible lines -/

theorem Node.legible_text {n : Node} (hn : n.Showable) : OutlineLine.Legible (n.text base) := by
  have hkind := OutlineLine.legible_of_isIdentifier n.isIdentifier_kind
  have hdetail : ∀ {rest : List Char}, OutlineLine.Legible rest →
      OutlineLine.Legible (n.kind.toList ++ ' ' :: rest) := by
    intro rest hrest
    have hline := hkind.append hrest (by decide : '\n' ∉ [' '])
    rwa [List.append_assoc] at hline
  cases n with
  | reference target => exact hdetail (Identity.legible_displayRelative hn base)
  | literal value => exact hdetail (Literal.legible_write hn)
  | primitive kind =>
      refine hdetail (OutlineLine.legible_of_isIdentifier ?_)
      cases kind <;> decide
  | _ =>
      rw [text, detail, List.append_nil]
      · exact hkind
      all_goals simp

theorem Spot.legible_text {spot : Spot} (hnode : spot.node.Showable)
    (hplace : spot.place.Showable) : OutlineLine.Legible (spot.line base).text := by
  have htext : OutlineLine.Legible (spot.node.text base) := Node.legible_text hnode
  obtain ⟨depth, place, node⟩ := spot
  have hlabel : ∀ front between : String, OutlineLine.Legible front.toList →
      '\n' ∉ between.toList → (front ++ between) = place.label →
        OutlineLine.Legible (place.label.toList ++ node.text base) := by
    intro front between hfront hbetween h
    rw [← h, String.toList_append]
    exact hfront.append htext hbetween
  cases place with
  | inner => exact htext
  | argument => exact hlabel "argument" ": " ⟨by decide, by decide, rfl, rfl⟩ (by decide) rfl
  | property key optional =>
      refine hlabel key (if optional then "?: " else ": ")
        (OutlineLine.legible_of_isIdentifier hplace) ?_ rfl
      cases optional <;> decide
  | dynamic => exact hlabel "[key]" ": " ⟨by decide, by decide, rfl, rfl⟩ (by decide) rfl

/-! ## Expressions -/

mutual

/-- The same expression with the shortest spelling of each file. -/
def respelled : Expr → Expr
  | .reference target none => .reference target.respelled none
  | .reference target (some argument) => .reference target.respelled (some argument.respelled)
  | .array element => .array element.respelled
  | .object properties none => .object (respelledProperties properties) none
  | .object properties (some dynamic) =>
      .object (respelledProperties properties) (some dynamic.respelled)
  | .promise inner => .promise inner.respelled
  | .compound joiner members => .compound joiner (respelledMembers members)
  | e => e

def respelledProperties : List (Property Expr) → List (Property Expr)
  | [] => []
  | ⟨key, optional, value⟩ :: properties =>
      ⟨key, optional, value.respelled⟩ :: respelledProperties properties

def respelledMembers : List Expr → List Expr
  | [] => []
  | member :: members => member.respelled :: respelledMembers members

end

theorem node_respelled (e : Expr) : e.respelled.node = e.node.respelled := by
  cases e with
  | reference target argument => cases argument <;> rfl
  | object properties dynamic => cases dynamic <;> rfl
  | _ => rfl

theorem respelledProperties_eq (properties : List (Property Expr)) :
    (respelledProperties properties).map propertyPart =
      (properties.map propertyPart).map fun part => (part.1, part.2.respelled) := by
  induction properties with
  | nil => rfl
  | cons p properties ih =>
      rw [respelledProperties, List.map_cons, ih]
      rfl

theorem respelledMembers_eq (members : List Expr) :
    respelledMembers members = members.map respelled := by
  induction members with
  | nil => rfl
  | cons e members ih => rw [respelledMembers, ih, List.map_cons]

theorem parts_respelled (e : Expr) :
    e.respelled.parts = e.parts.map fun part => (part.1, part.2.respelled) := by
  cases e with
  | reference target argument => cases argument <;> rfl
  | object properties dynamic =>
      cases dynamic <;> simp [respelled, parts, respelledProperties_eq]
  | compound joiner members => simp [respelled, parts, respelledMembers_eq]
  | _ => rfl

theorem respelled_eq_of_outline {e e' : Expr} (he : e.Showable) (he' : e'.Showable) {depth : Nat}
    {label : String} (h : e.outline base depth label = e'.outline base depth label) :
    e.respelled = e'.respelled := by
  induction he generalizing e' depth label with
  | @intro e hnode hplaces hparts ih =>
      obtain ⟨hnode', hplaces', hparts'⟩ := he'
      rw [outline_eq, outline_eq] at h
      obtain ⟨hline, hbelow⟩ := List.cons.inj h
      have hnodes : e.node.respelled = e'.node.respelled := Node.respelled_eq_of_text hnode hnode'
        (List.append_cancel_left (OutlineLine.mk.inj hline).2)
      have hblocks := map_eq_of_flatMap_eq
        (fun part : Place × Expr => isBlock_outline _ part.1.label part.2) hbelow
      refine eq_of_parts (by rw [node_respelled, hnodes, node_respelled]) ?_
      rw [parts_respelled, parts_respelled]
      refine map_eq_of_map_eq (fun part hpart part' hpart' hsame => ?_) hblocks
      have hfirst := hsame
      rw [outline_eq, outline_eq] at hfirst
      obtain ⟨hplace, -⟩ := Place.eq_of_label (holds_of_mem_parts hpart).respelled
        (hnodes ▸ (holds_of_mem_parts hpart').respelled) (hplaces part hpart)
        (hplaces' part' hpart') (OutlineLine.mk.inj (List.cons.inj hfirst).1).2
      rw [hplace] at hsame ⊢
      rw [ih part hpart (hparts' part' hpart') hsame]

end Expr

/-! ## Main statement -/

namespace Resolved

structure Showable (r : Resolved) : Prop where
  identity : r.identity.Showable
  type : r.type.Showable

def respelled (r : Resolved) : Resolved := ⟨r.identity.respelled, r.type.respelled⟩

theorem outline_eq (base : Path) (r : Resolved) : r.outline base =
    ⟨0, (r.identity.displayRelative base).toList⟩ ::
      (r.type.spots 1 .inner).map (Expr.Spot.line base) :=
  congrArg _ (Expr.outline_eq_map_spots 1 .inner r.type)

theorem isBlock_outline (base : Path) (r : Resolved) :
    IsBlock (fun l => 0 < l.depth) (r.outline base) := by
  refine ⟨_, _, outline_eq base r, rfl, fun l hl => ?_⟩
  obtain ⟨spot, hspot, rfl⟩ := List.mem_map.1 hl
  exact decide_eq_true (Expr.le_depth_of_mem_spots spot hspot)

theorem Showable.legible {base : Path} {r : Resolved} (h : r.Showable) :
    ∀ l ∈ r.outline base, OutlineLine.Legible l.text := by
  rw [outline_eq, List.forall_mem_cons]
  refine ⟨Identity.legible_displayRelative h.identity base, List.forall_mem_map.2 ?_⟩
  have hinner : Expr.Place.inner.Showable := trivial
  intro spot hspot
  obtain ⟨hnode, hplace⟩ := h.type.spots hinner spot hspot
  exact Expr.Spot.legible_text hnode hplace

theorem respelled_eq_of_outline {base : Path} {r r' : Resolved} (h : r.Showable)
    (h' : r'.Showable) (heq : r.outline base = r'.outline base) : r.respelled = r'.respelled := by
  obtain ⟨hline, htype⟩ := List.cons.inj heq
  have hidentity := Identity.same_of_displayRelative h.identity h'.identity
    (String.toList_inj.1 (OutlineLine.mk.inj hline).2)
  rw [respelled, respelled, (Identity.respelled_eq_iff h.identity h'.identity).2 hidentity,
    Expr.respelled_eq_of_outline h.type h'.type htype]

/--
The text of an outline tells the types it was written from, where two spellings of a file count as
one file, as in `Identity.same`.  It has one line for each identity and one for each node, which is
indented by the depth of the node.
-/
theorem respelled_eq_of_writeOutline (base : Path) {as bs : List Resolved}
    (has : ∀ r ∈ as, r.Showable) (hbs : ∀ r ∈ bs, r.Showable) :
    (writeOutline ((Answer.types as).outline base) =
        writeOutline ((Answer.types bs).outline base) →
      as.map respelled = bs.map respelled) ∧
    (as ≠ [] → Text.cut (· == '\n') (writeOutline ((Answer.types as).outline base)).toList =
      as.flatMap fun r => (r.identity.displayRelative base).toList ::
        (r.type.spots 1 .inner).map fun spot =>
          List.replicate (2 * spot.depth) ' ' ++ (spot.line base).text) ∧
    ∀ r ∈ as, ∀ spot ∈ r.type.spots 1 .inner, (spot.line base).text.head?.any (· == ' ') = false := by
  have hlegible : ∀ {as : List Resolved}, (∀ r ∈ as, r.Showable) →
      ∀ l ∈ as.flatMap (outline base), OutlineLine.Legible l.text := by
    intro as has l hl
    obtain ⟨r, hr, hl⟩ := List.mem_flatMap.1 hl
    exact (has r hr).legible l hl
  refine ⟨fun heq => ?_, fun hne => ?_, fun r hr spot hspot => ?_⟩
  · have hlines := OutlineLine.eq_of_writeOutline (hlegible has) (hlegible hbs) heq
    refine map_eq_of_map_eq (fun r hr r' hr' => ?_)
      (map_eq_of_flatMap_eq (isBlock_outline base) hlines)
    exact respelled_eq_of_outline (has r hr) (hbs r' hr')
  · have hlines : as.flatMap (outline base) ≠ [] := by
      obtain ⟨r, rs, rfl⟩ := List.exists_cons_of_ne_nil hne
      exact List.cons_ne_nil _ _
    refine (OutlineLine.cut_writeOutline hlines (hlegible has)).trans ?_
    rw [List.map_flatMap]
    refine List.flatMap_congr fun r _ => ?_
    rw [outline_eq, List.map_cons, List.map_map]
    rfl
  · have hline : spot.line base ∈ r.outline base := by
      rw [outline_eq]
      exact List.mem_cons_of_mem _ (List.mem_map_of_mem hspot)
    exact ((has r hr).legible _ hline).begins

theorem respelled_eq_of_writeOutline_spelled :
    writeOutline ((Answer.types [⟨⟨⟨"/w//a.d.ts"⟩, "A", false⟩,
        .object [⟨"key", true, .generic⟩] none⟩]).outline ⟨"/w"⟩) =
      writeOutline ((Answer.types [⟨⟨⟨"/w/./a.d.ts"⟩, "A", false⟩,
        .object [⟨"key", true, .generic⟩] none⟩]).outline ⟨"/w"⟩) ∧
    [⟨⟨⟨"/w//a.d.ts"⟩, "A", false⟩, .object [⟨"key", true, .generic⟩] none⟩].map respelled =
      [⟨⟨⟨"/w/./a.d.ts"⟩, "A", false⟩, .object [⟨"key", true, .generic⟩] none⟩].map respelled ∧
    Text.cut (· == '\n') (writeOutline ((Answer.types [⟨⟨⟨"/w//a.d.ts"⟩, "A", false⟩,
        .object [⟨"key", true, .generic⟩] none⟩]).outline ⟨"/w"⟩)).toList =
      ["<./a.d.ts -> A>".toList, "  object".toList, "    key?: generic".toList] := by
  have hkey : Expr.Place.Showable (.property "key" true) := by
    rw [Expr.Place.Showable]
    decide
  have hgeneric : Expr.generic.Showable :=
    .intro trivial (by simp [Expr.parts]) (by simp [Expr.parts])
  have htype : (Expr.object [⟨"key", true, .generic⟩] none).Showable :=
    .intro trivial (by simpa [Expr.parts, Expr.propertyPart] using hkey)
      (by simpa [Expr.parts, Expr.propertyPart] using hgeneric)
  have hfirst : ∀ r ∈ [(⟨⟨⟨"/w//a.d.ts"⟩, "A", false⟩,
      .object [⟨"key", true, .generic⟩] none⟩ : Resolved)], r.Showable :=
    List.forall_mem_singleton.2 ⟨⟨by decide, by decide, by decide⟩, htype⟩
  have hsecond : ∀ r ∈ [(⟨⟨⟨"/w/./a.d.ts"⟩, "A", false⟩,
      .object [⟨"key", true, .generic⟩] none⟩ : Resolved)], r.Showable :=
    List.forall_mem_singleton.2 ⟨⟨by decide, by decide, by decide⟩, htype⟩
  have hspots : (Expr.object [⟨"key", true, .generic⟩] none).spots 1 .inner =
      [⟨1, .inner, .object⟩, ⟨2, .property "key" true, .generic⟩] := by
    rw [Expr.spots_eq]
    change _ :: (Expr.generic.spots 2 (.property "key" true) ++ []) = _
    rw [Expr.spots_eq]
    rfl
  obtain ⟨htells, hcut, -⟩ := respelled_eq_of_writeOutline ⟨"/w"⟩ hfirst hsecond
  refine ⟨?same, htells ?same, (hcut (List.cons_ne_nil _ _)).trans ?lines⟩
  case same => decide
  case lines =>
    rw [List.flatMap_singleton, hspots]
    decide

end Resolved

end Typings
