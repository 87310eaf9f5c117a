import Typings.Expr.Json
import Typings.Json.Printer
import Typings.Json.Token
import Typings.Proofs.Decoding

/-!
# What a JSON text was written from

A written string is read back in front of any text, and a value without numbers shows where it ends.
So the compact text of an expression without numerals determines the expression, with the order of
its properties: `Expr.compactText_toJson_inj`.
-/

namespace Typings

namespace Json

/-! ## Strings -/

def isCoded (c : Char) : Bool :=
  c.toNat < 0x20 && !(['\x08', '\x0c', '\n', '\r', '\t'].contains c)

def unitOf (c : Char) : StringUnit := if isCoded c then .code c.toNat else .plain c

theorem takeString?_escape {c d : Char} (h : escaped? c = some d) (s : List Char) :
    takeString? ('\\' :: c :: s) =
      (takeString? s).map fun found => (.plain d :: found.1, found.2) := by
  have hu : c ≠ 'u' := by
    rintro rfl
    cases h
  rw [takeString?]
  · rw [h]
    rcases takeString? s with _ | ⟨units, rest⟩ <;> rfl
  · simp [hu]

theorem takeString?_plain {c : Char} (hquote : c ≠ '"') (hslash : c ≠ '\\')
    (hc : ¬ c.toNat < 0x20) (s : List Char) :
    takeString? (c :: s) = (takeString? s).map fun found => (.plain c :: found.1, found.2) := by
  rw [takeString?, if_neg hc] <;> simp [hquote, hslash]

theorem hexCode?_digits : ∀ n < 0x20,
    hexCode? ['0', '0', Nat.digitChar (n / 16), Nat.digitChar (n % 16)] = some n := by
  decide

theorem takeString?_escapeChar (c : Char) (s : List Char) :
    takeString? (escapeChar c ++ s) =
      (takeString? s).map fun found => (unitOf c :: found.1, found.2) := by
  unfold escapeChar
  split
  any_goals exact takeString?_escape rfl s
  next hquote hslash h8 hc hn hr ht =>
    have hnamed : ['\x08', '\x0c', '\n', '\r', '\t'].contains c = false := by
      simpa using ⟨h8, hc, hn, hr, ht⟩
    split
    next hlt =>
      have hcode := hexCode?_digits c.toNat hlt
      have hunit : unitOf c = .code c.toNat := by
        rw [unitOf, isCoded, hnamed, decide_eq_true hlt]
        rfl
      simp only [List.cons_append, List.nil_append, takeString?, hcode, hunit]
      rcases takeString? s with _ | ⟨units, rest⟩ <;> rfl
    next hlt =>
      have hunit : unitOf c = .plain c := by
        rw [unitOf, isCoded, decide_eq_false hlt]
        rfl
      rw [hunit]
      exact takeString?_plain hquote hslash hlt s

theorem textOfUnits_code {u : Nat} (h : (isHighSurrogate u || isLowSurrogate u) = false)
    (units : List StringUnit) :
    textOfUnits (.code u :: units) = (textOfUnits units).map (Char.ofNat u :: ·) := by
  rw [Bool.or_eq_false_iff] at h
  rcases units with _ | ⟨_ | _, units⟩
  all_goals simp [textOfUnits, h]

theorem textOfUnits_map_unitOf (s : List Char) : textOfUnits (s.map unitOf) = some s := by
  induction s with
  | nil => rfl
  | cons c s ih =>
      rw [List.map_cons, unitOf]
      split
      next hcoded =>
        have hlow : c.toNat < 0x20 := by
          rw [isCoded, Bool.and_eq_true, decide_eq_true_eq] at hcoded
          exact hcoded.1
        have hsurrogate : (isHighSurrogate c.toNat || isLowSurrogate c.toNat) = false := by
          simp only [isHighSurrogate, isLowSurrogate, Bool.or_eq_false_iff, Bool.and_eq_false_iff,
            decide_eq_false_iff_not]
          omega
        rw [textOfUnits_code hsurrogate, ih, Option.map_some, Char.ofNat_toNat]
      next => rw [textOfUnits, ih, Option.map_some]

theorem takeString?_flatMap (s rest : List Char) :
    takeString? (s.flatMap escapeChar ++ '"' :: rest) = some (s.map unitOf, rest) := by
  induction s with
  | nil => rfl
  | cons c s ih =>
      rw [List.flatMap_cons, List.append_assoc, takeString?_escapeChar, ih, Option.map_some,
        List.map_cons]

/-- A written string is read back in front of any text. -/
theorem take?_writeString (s : String) (rest : List Char) :
    Token.take? (writeString s ++ rest) = some (.string (some s), rest) := by
  have htext : writeString s ++ rest =
      '"' :: (s.toList.flatMap escapeChar ++ '"' :: rest) := by
    simp [writeString]
  rw [htext, Token.take?, takeString?_flatMap]
  simp [textOfUnits_map_unitOf]

theorem eq_of_writeString {a b : String} {s t : List Char}
    (h : writeString a ++ s = writeString b ++ t) : a = b ∧ s = t := by
  have htake := take?_writeString a s
  rw [h, take?_writeString] at htake
  simp only [Option.some.injEq, Prod.mk.injEq, Token.string.injEq] at htake
  exact ⟨htake.1.symm, htake.2.symm⟩

/-! ## Texts joined by commas -/

section Joined

variable {α : Type} {P : α → Prop} {write : α → List Char} {closer : Char}

/-- Among the values with `P`, only `a` has a text that begins like the text of `a`. -/
def Tells (P : α → Prop) (write : α → List Char) (a : α) : Prop :=
  ∀ b, P b → ∀ s t, write a ++ s = write b ++ t → a = b ∧ s = t

def joined (write : α → List Char) : List α → List Char
  | [] => []
  | [a] => write a
  | a :: as => write a ++ ',' :: joined write as

def behindFirst (write : α → List Char) (as : List α) (s : List Char) : List Char :=
  if as.isEmpty then s else ',' :: (joined write as ++ s)

theorem joined_cons_append (a : α) (as : List α) (s : List Char) :
    joined write (a :: as) ++ s = write a ++ behindFirst write as s := by
  cases as with
  | nil => rfl
  | cons b as => simp [joined, behindFirst]

/-- Values joined by commas are told from the text up to the closer behind them. -/
theorem eq_of_joined (hcomma : closer ≠ ',')
    (hfirst : ∀ a, P a → ∀ s t, write a ++ s ≠ closer :: t) {as bs : List α}
    (has : ∀ a ∈ as, P a ∧ Tells P write a) (hbs : ∀ b ∈ bs, P b) {s t : List Char}
    (h : joined write as ++ closer :: s = joined write bs ++ closer :: t) : as = bs ∧ s = t := by
  induction as generalizing bs with
  | nil =>
      cases bs with
      | nil => exact ⟨rfl, (List.cons.inj h).2⟩
      | cons b bs =>
          rw [joined_cons_append] at h
          exact absurd h.symm (hfirst b (hbs b (List.mem_cons_self ..)) _ _)
  | cons a as ih =>
      rw [List.forall_mem_cons] at has
      cases bs with
      | nil =>
          rw [joined_cons_append] at h
          exact absurd h (hfirst a has.1.1 _ _)
      | cons b bs =>
          rw [List.forall_mem_cons] at hbs
          rw [joined_cons_append, joined_cons_append] at h
          obtain ⟨rfl, hbehind⟩ := has.1.2 b hbs.1 _ _ h
          have hrest : joined write as ++ closer :: s = joined write bs ++ closer :: t := by
            cases as <;> cases bs <;>
              simp_all [behindFirst, joined, Ne.symm hcomma]
          obtain ⟨rfl, hst⟩ := ih has.2 hbs.2 hrest
          exact ⟨rfl, hst⟩

end Joined

/-! ## Values -/

inductive NumberFree : Json → Prop
  | null : NumberFree .null
  | bool (value : Bool) : NumberFree (.bool value)
  | string (value : String) : NumberFree (.string value)
  | array {items : List Json} (hitems : ∀ j ∈ items, NumberFree j) : NumberFree (.array items)
  | object {fields : List (String × Json)} (hfields : ∀ f ∈ fields, NumberFree f.2) :
      NumberFree (.object fields)

def writeField (f : String × Json) : List Char := writeString f.1 ++ ':' :: f.2.compact

theorem compactItems_eq (items : List Json) : compactItems items = joined compact items := by
  induction items with
  | nil => rfl
  | cons j items ih => cases items <;> simp_all [compactItems, joined]

theorem compactFields_eq (fields : List (String × Json)) :
    compactFields fields = joined writeField fields := by
  induction fields with
  | nil => rfl
  | cons f fields ih => cases fields <;> simp_all [compactFields, joined, writeField]

theorem compact_ne_bracket {j : Json} (h : j.NumberFree) (s t : List Char) :
    j.compact ++ s ≠ ']' :: t := by
  cases h with
  | bool value => cases value <;> simp [compact, writeBool]
  | _ => simp [compact, writeString]

theorem writeField_ne_brace (f : String × Json) (s t : List Char) :
    writeField f ++ s ≠ '\x7d' :: t := by
  simp [writeField, writeString]

theorem tells_writeField {f : String × Json} (h : Tells NumberFree compact f.2) :
    Tells (fun f => NumberFree f.2) writeField f := by
  obtain ⟨key, value⟩ := f
  rintro ⟨key', value'⟩ hfree s t heq
  simp only [writeField, List.append_assoc, List.cons_append] at heq
  obtain ⟨rfl, hvalue⟩ := eq_of_writeString heq
  obtain ⟨rfl, hst⟩ := h value' hfree s t (List.cons.inj hvalue).2
  exact ⟨rfl, hst⟩

theorem ctorIdx_eq_of_compact {j j' : Json} (hj : j.NumberFree) (hj' : j'.NumberFree)
    {s t : List Char} (h : j.compact ++ s = j'.compact ++ t) : j.ctorIdx = j'.ctorIdx := by
  have hindex : ∀ j : Json, j.NumberFree → ∀ s, ((j.compact ++ s).head?.bind fun c =>
      [('n', 0), ('t', 1), ('f', 1), ('"', 3), ('[', 4), ('\x7b', 5)].lookup c) =
        some j.ctorIdx := by
    intro j hj s
    cases hj with
    | bool value => cases value <;> rfl
    | _ => rfl
  exact Option.some.inj ((hindex j hj s).symm.trans (h ▸ hindex j' hj' t))

theorem tells_compact {j : Json} (h : j.NumberFree) : Tells NumberFree compact j := by
  induction h with
  | null =>
      intro j' hj' s t heq
      have hindex := ctorIdx_eq_of_compact .null hj' heq
      cases hj' with
      | null => exact ⟨rfl, List.append_cancel_left heq⟩
      | _ => cases hindex
  | bool value =>
      intro j' hj' s t heq
      have hindex := ctorIdx_eq_of_compact (.bool value) hj' heq
      cases hj' with
      | bool value' =>
          obtain rfl : value = value' := by
            cases value <;> cases value' <;> first | rfl | simp [compact, writeBool] at heq
          exact ⟨rfl, List.append_cancel_left heq⟩
      | _ => cases hindex
  | string value =>
      intro j' hj' s t heq
      have hindex := ctorIdx_eq_of_compact (.string value) hj' heq
      cases hj' with
      | string value' =>
          obtain ⟨rfl, hst⟩ := eq_of_writeString heq
          exact ⟨rfl, hst⟩
      | _ => cases hindex
  | array hitems ih =>
      intro j' hj' s t heq
      have hindex := ctorIdx_eq_of_compact (.array hitems) hj' heq
      cases hj' with
      | array hitems' =>
          simp only [compact, compactItems_eq, List.append_assoc, List.cons_append] at heq
          obtain ⟨rfl, hst⟩ := eq_of_joined (by decide) (fun _ => compact_ne_bracket)
            (fun j hj => ⟨hitems j hj, ih j hj⟩) hitems' (List.cons.inj heq).2
          exact ⟨rfl, hst⟩
      | _ => cases hindex
  | object hfields ih =>
      intro j' hj' s t heq
      have hindex := ctorIdx_eq_of_compact (.object hfields) hj' heq
      cases hj' with
      | object hfields' =>
          simp only [compact, compactFields_eq, List.append_assoc, List.cons_append] at heq
          obtain ⟨rfl, hst⟩ := eq_of_joined (by decide) (fun f _ => writeField_ne_brace f)
            (fun f hf => ⟨hfields f hf, tells_writeField (ih f hf)⟩) hfields'
            (List.cons.inj heq).2
          exact ⟨rfl, hst⟩
      | _ => cases hindex

end Json

/-! ## Expressions -/

theorem Identity.eq_of_toJson {a b : Identity} (h : a.toJson = b.toJson) : a = b := by
  obtain ⟨⟨file⟩, name, isDefault⟩ := a
  obtain ⟨⟨file'⟩, name', isDefault'⟩ := b
  simpa [Identity.toJson] using h

theorem Primitive.keyword_inj {p q : Primitive} (h : p.keyword = q.keyword) : p = q :=
  Option.some.inj (ofKeyword?_keyword p ▸ h ▸ ofKeyword?_keyword q)

namespace Expr

/-- Expressions without numerals. -/
inductive NumberFree : Expr → Prop
  | reference (target : Identity) : NumberFree (.reference target none)
  | applied (target : Identity) {argument : Expr} (hargument : NumberFree argument) :
      NumberFree (.reference target (some argument))
  | string (value : String) : NumberFree (.literal (.string value))
  | boolean (value : Bool) : NumberFree (.literal (.boolean value))
  | primitive (kind : Primitive) : NumberFree (.primitive kind)
  | array {element : Expr} (helement : NumberFree element) : NumberFree (.array element)
  | object {properties : List (Property Expr)} {dynamic : Option Expr}
      (hproperties : ∀ p ∈ properties, NumberFree p.value)
      (hdynamic : ∀ e ∈ dynamic, NumberFree e) : NumberFree (.object properties dynamic)
  | promise {inner : Expr} (hinner : NumberFree inner) : NumberFree (.promise inner)
  | compound (joiner : Joiner) {members : List Expr} (hmembers : ∀ e ∈ members, NumberFree e) :
      NumberFree (.compound joiner members)
  | generic : NumberFree .generic
  | unknown : NumberFree .unknown

def propertyField (p : Property Expr) : String × Json :=
  (p.key, .object (("value", p.value.toJson) ::
    if p.optional then [("optional", .bool true)] else []))

theorem propertyFields_eq (properties : List (Property Expr)) :
    propertyFields properties = properties.map propertyField := by
  induction properties with
  | nil => rfl
  | cons p properties ih => rw [propertyFields, ih, List.map_cons, propertyField]

theorem memberItems_eq (members : List Expr) : memberItems members = members.map toJson := by
  induction members with
  | nil => rfl
  | cons e members ih => rw [memberItems, ih, List.map_cons]

theorem numberFree_tagged {tag : String} {fields : List (String × Json)}
    (h : ∀ f ∈ fields, f.2.NumberFree) :
    (Json.object (("type", .string tag) :: fields)).NumberFree :=
  .object (List.forall_mem_cons.2 ⟨.string tag, h⟩)

theorem numberFree_toJson {e : Expr} (he : e.NumberFree) : e.toJson.NumberFree := by
  have hidentity : ∀ target : Identity, target.toJson.NumberFree := fun target =>
    .object (by simp [Json.NumberFree.string, Json.NumberFree.bool])
  induction he with
  | reference target => exact numberFree_tagged (by simpa using hidentity target)
  | applied target _ ih => exact numberFree_tagged (by simpa using ⟨hidentity target, ih⟩)
  | string value => exact numberFree_tagged (by simpa using .string value)
  | boolean value => exact numberFree_tagged (by simpa using .bool value)
  | primitive kind => exact numberFree_tagged (by simpa using .string kind.keyword)
  | array _ ih => exact numberFree_tagged (by simpa using ih)
  | promise _ ih => exact numberFree_tagged (by simpa using ⟨.string "Promise", ih⟩)
  | compound joiner _ ih =>
      refine numberFree_tagged (List.forall_mem_singleton.2 (.array ?_))
      rw [memberItems_eq]
      exact List.forall_mem_map.2 ih
  | generic => exact numberFree_tagged (by simp)
  | unknown => exact numberFree_tagged (by simp)
  | @object properties dynamic _ _ ihproperties ihdynamic =>
      have hfields : (Json.object (propertyFields properties)).NumberFree := by
        refine .object ?_
        rw [propertyFields_eq]
        refine List.forall_mem_map.2 fun p hp => .object ?_
        refine List.forall_mem_cons.2 ⟨ihproperties p hp, ?_⟩
        split
        · simpa using .bool true
        · simp
      cases dynamic with
      | none => exact numberFree_tagged (by simpa using hfields)
      | some e => exact numberFree_tagged (by simpa using ⟨hfields, ihdynamic e rfl⟩)

theorem Literal.eq_of_toJson {a b : Literal} (h : a.toJson = b.toJson) : a = b := by
  cases a <;> cases b <;> simp_all [Literal.toJson]

theorem Joiner.eq_of_tag {a b : Joiner} (h : a.tag = b.tag) : a = b := by
  cases a <;> cases b <;> simp_all [Joiner.tag]

theorem eq_of_propertyField {p q : Property Expr}
    (hvalue : p.value.toJson = q.value.toJson → p.value = q.value)
    (h : propertyField p = propertyField q) : p = q := by
  obtain ⟨key, optional, value⟩ := p
  obtain ⟨key', optional', value'⟩ := q
  simp only [propertyField, Prod.mk.injEq, Json.object.injEq, List.cons.injEq, true_and] at h
  obtain ⟨rfl, hjson, hmark⟩ := h
  obtain rfl : value = value' := hvalue hjson
  obtain rfl : optional = optional' := by
    cases optional <;> cases optional' <;> first | rfl | cases hmark
  rfl

def typeName : Expr → String
  | .reference _ _ => "reference"
  | .literal _ => "literal"
  | .primitive _ => "primitive"
  | .array _ => "array"
  | .object _ _ => "object"
  | .promise _ => "wrapped"
  | .compound joiner _ => joiner.tag
  | .generic => "generic"
  | .unknown => "unknown"

theorem exists_fields (e : Expr) :
    ∃ fields, e.toJson = .object (("type", .string e.typeName) :: fields) := by
  cases e with
  | reference _ argument => cases argument <;> exact ⟨_, rfl⟩
  | object _ dynamic => cases dynamic <;> exact ⟨_, rfl⟩
  | _ => exact ⟨_, rfl⟩

theorem ctorIdx_eq_of_toJson {e e' : Expr} (h : e.toJson = e'.toJson) :
    e.ctorIdx = e'.ctorIdx := by
  obtain ⟨fields, hfields⟩ := exists_fields e
  obtain ⟨fields', hfields'⟩ := exists_fields e'
  have htype : e.typeName = e'.typeName := by
    rw [hfields, hfields'] at h
    simp only [Json.object.injEq, List.cons.injEq, Prod.mk.injEq, Json.string.injEq, true_and] at h
    exact h.1
  have hindex : ∀ e : Expr, [("reference", 0), ("literal", 1), ("primitive", 2), ("array", 3),
      ("object", 4), ("wrapped", 5), ("union", 6), ("intersection", 6), ("generic", 7),
      ("unknown", 8)].lookup e.typeName = some e.ctorIdx := by
    rintro (_ | _ | _ | _ | _ | _ | ⟨_ | _⟩ | _ | _) <;> rfl
  exact Option.some.inj ((hindex e).symm.trans (htype ▸ hindex e'))

theorem fields_eq_of_toJson {properties properties' : List (Property Expr)}
    {dynamic dynamic' : Option Expr}
    (h : (object properties dynamic).toJson = (object properties' dynamic').toJson) :
    properties.map propertyField = properties'.map propertyField ∧
      dynamic.map toJson = dynamic'.map toJson := by
  cases dynamic <;> cases dynamic' <;> simp_all [toJson, propertyFields_eq]

theorem eq_of_toJson {e e' : Expr} (he : e.NumberFree) (h : e.toJson = e'.toJson) : e = e' := by
  induction he generalizing e' with
  | reference target =>
      cases e' with
      | reference target' argument' =>
          cases argument' with
          | none =>
              exact congrArg (reference · none) (Identity.eq_of_toJson (by simpa [toJson] using h))
          | some argument' => simp [toJson] at h
      | _ => cases ctorIdx_eq_of_toJson h
  | @applied target argument _ ih =>
      cases e' with
      | reference target' argument' =>
          cases argument' with
          | none => simp [toJson] at h
          | some argument' =>
              obtain ⟨htarget, hargument⟩ : target.toJson = target'.toJson ∧
                argument.toJson = argument'.toJson := by simpa [toJson] using h
              rw [Identity.eq_of_toJson htarget, ih hargument]
      | _ => cases ctorIdx_eq_of_toJson h
  | string value =>
      cases e' with
      | literal value' =>
          exact congrArg literal (Literal.eq_of_toJson (by simpa [toJson] using h))
      | _ => cases ctorIdx_eq_of_toJson h
  | boolean value =>
      cases e' with
      | literal value' =>
          exact congrArg literal (Literal.eq_of_toJson (by simpa [toJson] using h))
      | _ => cases ctorIdx_eq_of_toJson h
  | primitive kind =>
      cases e' with
      | primitive kind' =>
          exact congrArg primitive (Primitive.keyword_inj (by simpa [toJson] using h))
      | _ => cases ctorIdx_eq_of_toJson h
  | array _ ih =>
      cases e' with
      | array element' => exact congrArg array (ih (by simpa [toJson] using h))
      | _ => cases ctorIdx_eq_of_toJson h
  | promise _ ih =>
      cases e' with
      | promise inner' => exact congrArg promise (ih (by simpa [toJson] using h))
      | _ => cases ctorIdx_eq_of_toJson h
  | @compound joiner members _ ih =>
      cases e' with
      | compound joiner' members' =>
          obtain ⟨htag, hmembers⟩ : joiner.tag = joiner'.tag ∧
            members.map toJson = members'.map toJson := by
              simpa [toJson, memberItems_eq] using h
          rw [Joiner.eq_of_tag htag, eq_of_map_eq (fun e he e' _ => ih e he) hmembers]
      | _ => cases ctorIdx_eq_of_toJson h
  | generic =>
      cases e' with
      | generic => rfl
      | _ => cases ctorIdx_eq_of_toJson h
  | unknown =>
      cases e' with
      | unknown => rfl
      | _ => cases ctorIdx_eq_of_toJson h
  | @object properties dynamic _ _ ihproperties ihdynamic =>
      cases e' with
      | object properties' dynamic' =>
          obtain ⟨hproperties, hdynamic⟩ := fields_eq_of_toJson h
          have hsame : dynamic = dynamic' := by
            match dynamic, dynamic', hdynamic with
            | none, none, _ => rfl
            | some e, some e', h => exact congrArg some (ihdynamic e rfl (Option.some.inj h))
          rw [hsame,
            eq_of_map_eq (fun p hp q _ => eq_of_propertyField (ihproperties p hp)) hproperties]
      | _ => cases ctorIdx_eq_of_toJson h

/-! ## Texts of expressions -/

/-- The compact text of an expression without numerals is the text of no other such expression. -/
theorem compactText_toJson_inj {e e' : Expr} (he : e.NumberFree) (he' : e'.NumberFree) :
    Json.compactText e.toJson = Json.compactText e'.toJson ↔ e = e' := by
  constructor
  · intro h
    have hcompact : e.toJson.compact ++ [] = e'.toJson.compact ++ [] := by
      rw [List.append_nil, List.append_nil]
      exact String.ofList_inj.1 h
    have hjson := Json.tells_compact (numberFree_toJson he) _ (numberFree_toJson he') [] [] hcompact
    exact eq_of_toJson he hjson.1
  · rintro rfl
    rfl

/-- The order of properties shows, also where the keys are escaped. -/
theorem compactText_of_swapped :
    Json.compactText (object [⟨"a\"", false, .generic⟩, ⟨"\u0001", true, .unknown⟩] none).toJson ≠
      Json.compactText
        (object [⟨"\u0001", true, .unknown⟩, ⟨"a\"", false, .generic⟩] none).toJson := by
  have hleft : (object [⟨"a\"", false, .generic⟩, ⟨"\u0001", true, .unknown⟩] none).NumberFree :=
    .object (by simp [NumberFree.generic, NumberFree.unknown]) (by simp)
  have hright : (object [⟨"\u0001", true, .unknown⟩, ⟨"a\"", false, .generic⟩] none).NumberFree :=
    .object (by simp [NumberFree.generic, NumberFree.unknown]) (by simp)
  exact mt (compactText_toJson_inj hleft hright).1 (by simp)

end Expr

end Typings
