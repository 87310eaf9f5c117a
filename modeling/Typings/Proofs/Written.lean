import Typings.Expr.Display
import Typings.Proofs.TokenText
import Typings.Term.Parser

/-!
# Reading what an expression is written as

The text of a structural expression is one level of tokens: the members of a compound, or one token
for anything else.  Its brackets match, so that it can stand inside the brackets of another one.
-/

namespace Typings

open Typings.Span (Neutral)
open Tokens (Adjoined Atom)

namespace Expr

/--
Expressions without numerals, strings and the type parameter.  A compound does not stand directly in
a compound, and a key is a word and occurs once.
-/
inductive Structural (known : Identity → Prop) : Expr → Prop
  | primitive (kind : Primitive) : Structural known (.primitive kind)
  | boolean (value : Bool) : Structural known (.literal (.boolean value))
  | unknown : Structural known .unknown
  | reference {target : Identity} (htarget : known target) :
      Structural known (.reference target none)
  | applied {target : Identity} {argument : Expr} (htarget : known target)
      (hargument : Structural known argument) : Structural known (.reference target (some argument))
  | array {element : Expr} (helement : Structural known element) : Structural known (.array element)
  | promise {inner : Expr} (hinner : Structural known inner) : Structural known (.promise inner)
  | object {properties : List (Property Expr)} {dynamic : Option Expr}
      (hkeys : ∀ p ∈ properties, Text.isIdentifier p.key.toList = true)
      (hdistinct : (properties.map Property.key).Nodup)
      (hvalues : ∀ p ∈ properties, Structural known p.value)
      (hdynamic : ∀ e ∈ dynamic, Structural known e) :
      Structural known (.object properties dynamic)
  | compound {joiner : Joiner} {members : List Expr} (hseveral : 2 ≤ members.length)
      (hflat : ∀ e ∈ members, e.isCompound = false) (hmembers : ∀ e ∈ members, Structural known e) :
      Structural known (.compound joiner members)

/-- An expression as the element of an array: a compound is put in parentheses. -/
def writeElement (e : Expr) : List Char :=
  if e.isCompound then '(' :: e.write ++ [')'] else e.write

theorem write_array (element : Expr) :
    (array element).write = element.writeElement ++ ['[', ']'] := by
  have hwrite : (array element).write = if element.isCompound then
      '(' :: element.write ++ [')', '[', ']'] else element.write ++ ['[', ']'] := rfl
  rw [hwrite, writeElement]
  split <;> simp

def inside (properties : List (Property Expr)) : Option Expr → List Char
  | none => if properties = [] then [] else ' ' :: writeProperties properties
  | some dynamic =>
      ' ' :: writeProperties properties ++
        '[' :: "key: string".toList ++ ']' :: ':' :: ' ' :: dynamic.write ++ [';', ' ']

theorem write_object (properties : List (Property Expr)) (dynamic : Option Expr) :
    (object properties dynamic).write = '\x7b' :: inside properties dynamic ++ ['\x7d'] := by
  cases dynamic with
  | none => cases properties <;> rfl
  | some e =>
      have hwrite : (object properties (some e)).write =
          '\x7b' :: ' ' :: writeProperties properties ++
            "[key: string]: ".toList ++ e.write ++ [';', ' ', '\x7d'] := by
        cases properties <;> rfl
      rw [hwrite, inside]
      simp

theorem writeProperties_cons (p : Property Expr) (ps : List (Property Expr)) :
    writeProperties (p :: ps) =
      p.key.toList ++ ((if p.optional then ['?'] else []) ++ ':' :: ' ' :: p.value.write ++
        ';' :: ' ' :: writeProperties ps) := by
  obtain ⟨key, optional, value⟩ := p
  cases optional <;> simp [writeProperties]

theorem writeMembers_cons (joiner : Joiner) (e e' : Expr) (es : List Expr) :
    writeMembers joiner (e :: e' :: es) =
      e.write ++ (joiner.separator ++ writeMembers joiner (e' :: es)) := by
  rw [writeMembers, List.append_assoc]
  simp

/-! ## Brackets match -/

theorem atom_writeElement {e : Expr} (hneutral : Neutral e.write)
    (hatom : e.isCompound = false → Atom e.write) : Atom e.writeElement := by
  rw [writeElement]
  split
  · exact .groups (.cons rfl rfl hneutral .nil) (by simp)
  next hflat => exact hatom (by simpa using hflat)

theorem neutral_writeProperties {properties : List (Property Expr)}
    (hkeys : ∀ p ∈ properties, Text.isIdentifier p.key.toList = true)
    (hvalues : ∀ p ∈ properties, Neutral p.value.write) : Neutral (writeProperties properties) := by
  induction properties with
  | nil => exact .nil
  | cons p ps ih =>
      rw [List.forall_mem_cons] at hkeys hvalues
      have hmark : Neutral (if p.optional then ['?'] else []) := by
        split
        · exact Span.neutral_of_plain rfl
        · exact .nil
      have hcolon : Neutral [':', ' '] := Span.neutral_of_plain rfl
      have hend : Neutral [';', ' '] := Span.neutral_of_plain rfl
      rw [writeProperties_cons]
      exact (Tokens.neutral_of_isIdentifier hkeys.1).append
        ((hmark.append (hcolon.append hvalues.1)).append (hend.append (ih hkeys.2 hvalues.2)))

theorem neutral_writeMembers (joiner : Joiner) {members : List Expr}
    (h : ∀ e ∈ members, Neutral e.write) : Neutral (writeMembers joiner members) := by
  have hseparator : Neutral joiner.separator := by
    cases joiner <;> exact Span.neutral_of_plain rfl
  induction members with
  | nil => exact .nil
  | cons e es ih =>
      rw [List.forall_mem_cons] at h
      cases es with
      | nil => exact h.1
      | cons e' es =>
          rw [writeMembers_cons]
          exact h.1.append (hseparator.append (ih h.2))

theorem neutral_inside {properties : List (Property Expr)} {dynamic : Option Expr}
    (hproperties : Neutral (writeProperties properties))
    (hdynamic : ∀ e ∈ dynamic, Neutral e.write) : Neutral (inside properties dynamic) := by
  have hspace : Neutral (' ' :: writeProperties properties) :=
    (Span.neutral_of_plain (s := [' ']) rfl).append hproperties
  cases dynamic with
  | none =>
      rw [inside]
      split
      · exact .nil
      · exact hspace
  | some e =>
      have hkey : Neutral ('[' :: "key: string".toList ++ [']']) :=
        Neutral.enclosed rfl rfl (Span.neutral_of_plain rfl)
      have hcolon : Neutral [':', ' '] := Span.neutral_of_plain rfl
      have hend : Neutral [';', ' '] := Span.neutral_of_plain rfl
      have h := hspace.append (hkey.append ((hcolon.append (hdynamic e rfl)).append hend))
      simpa [inside] using h

section Written

variable {known : Identity → Prop}
  (hnames : ∀ target, known target → Text.isIdentifier target.name.toList = true)

include hnames

theorem neutral_and_atom {e : Expr} (he : e.Structural known) :
    Neutral e.write ∧ (e.isCompound = false → Atom e.write) := by
  have hatom : ∀ {e : Expr}, Atom e.write →
      Neutral e.write ∧ (e.isCompound = false → Atom e.write) := fun h => ⟨h.neutral, fun _ => h⟩
  have hword : ∀ {word : List Char}, Text.isIdentifier word = true → Atom word := fun h => by
    simpa using Atom.name h .nil
  have happlied : ∀ {name body : List Char}, Text.isIdentifier name = true → Neutral body →
      Atom (name ++ '<' :: body ++ ['>']) := fun h hbody => by
    simpa using Atom.name h (.cons rfl rfl hbody .nil)
  induction he with
  | primitive kind => exact hatom (hword (by cases kind <;> decide))
  | boolean value => exact hatom (hword (by cases value <;> decide))
  | unknown => exact hatom (hword (by decide))
  | reference htarget => exact hatom (hword (hnames _ htarget))
  | applied htarget _ ih => exact hatom (happlied (hnames _ htarget) ih.1)
  | @array element _ ih =>
      have hpair : Adjoined ['[', ']'] := .cons rfl rfl .nil .nil
      refine hatom ?_
      rw [write_array]
      exact (atom_writeElement ih.1 ih.2).append hpair
  | promise _ ih =>
      have hpromise : Text.isIdentifier "Promise".toList = true := by decide
      exact hatom (happlied hpromise ih.1)
  | object hkeys _ _ _ ihvalues ihdynamic =>
      have hproperties := neutral_writeProperties hkeys fun p hp => (ihvalues p hp).1
      have hinside := neutral_inside hproperties fun e he => (ihdynamic e he).1
      refine hatom ?_
      rw [write_object]
      exact .groups (.cons rfl rfl hinside .nil) (by simp)
  | compound _ _ _ ih =>
      exact ⟨neutral_writeMembers _ fun e he => (ih e he).1, fun h => by simp [isCompound] at h⟩

end Written

/-! ## The text is one level -/

def level : Expr → Tokens
  | .compound joiner members => ⟨members.map write, some joiner⟩
  | e => ⟨[e.write], none⟩

theorem level_of_atom {e : Expr} (h : e.isCompound = false) : e.level = ⟨[e.write], none⟩ := by
  cases e <;> first | rfl | cases h

section Members

variable {joiner : Joiner} {members : List Expr} (h : ∀ e ∈ members, Atom e.write)

theorem scan_separator (start s : List Char) {found : Option Joiner}
    (hfound : found.all (· == joiner) = true) :
    Tokens.scan start (joiner.separator ++ s) found = Tokens.scan start s (some joiner) := by
  have hlook : Tokens.look (Text.skipBlanks (joiner.separator ++ s)) =
      .joiner joiner (' ' :: s) := by
    cases joiner <;> rfl
  rw [Tokens.scan_eq, hlook]
  simp only [hfound, if_true]
  exact Tokens.scan_blank rfl start s _

include h

theorem scan_writeMembers (start : List Char) {s rest : List Char} (hs : Tokens.Stops s rest)
    {found : Option Joiner} (hfound : found.all (· == joiner) = true)
    (hjoined : 2 ≤ members.length ∨ found = some joiner ∧ members ≠ []) :
    Tokens.scan start (writeMembers joiner members ++ s) found =
      (.ok ⟨members.map write, some joiner⟩, rest) := by
  induction members generalizing found with
  | nil => simp at hjoined
  | cons e es ih =>
      rw [List.forall_mem_cons] at h
      cases es with
      | nil =>
          obtain ⟨rfl, -⟩ : found = some joiner ∧ [e] ≠ [] := by simpa using hjoined
          rw [show writeMembers joiner [e] = e.write from rfl, Tokens.scan_atom h.1 start hs.ends,
            hs.scan]
          rfl
      | cons e' es =>
          have hends : ∀ t, Tokens.endsToken (joiner.separator ++ t) = true := fun t => by
            cases joiner <;> rfl
          rw [writeMembers_cons, List.append_assoc, List.append_assoc,
            Tokens.scan_atom h.1 start (hends _), scan_separator start _ hfound,
            ih h.2 (show (some joiner).all (· == joiner) = true by simp)
              (.inr ⟨rfl, List.cons_ne_nil e' es⟩)]
          rfl

theorem tight_writeMembers (hne : members ≠ []) : Text.Tight (writeMembers joiner members) := by
  induction members with
  | nil => exact absurd rfl hne
  | cons e es ih =>
      rw [List.forall_mem_cons] at h
      cases es with
      | nil => exact h.1.tight
      | cons e' es =>
          rw [writeMembers_cons, ← List.append_assoc]
          exact h.1.tight.append (ih h.2 (List.cons_ne_nil e' es)) joiner.separator

theorem takeArgument_writeMembers :
    Span.takeArgument (writeMembers joiner members) =
      .ok (writeMembers joiner members, none) := by
  have hseparator : ∀ c ∈ joiner.separator, c ≠ ',' ∧ Span.closer? c = none := by
    cases joiner <;> simp [Joiner.separator, Span.closer?]
  induction members with
  | nil => exact Span.takeArgument_nil
  | cons e es ih =>
      rw [List.forall_mem_cons] at h
      cases es with
      | nil =>
          have hatom := Span.takeArgument_atom h.1 []
          rw [List.append_nil, Span.takeArgument_nil] at hatom
          simpa [writeMembers, Except.map] using hatom
      | cons e' es =>
          rw [writeMembers_cons, Span.takeArgument_atom h.1, Span.takeArgument_plain hseparator,
            ih h.2]
          rfl

end Members

section Written

variable {known : Identity → Prop}
  (hnames : ∀ target, known target → Text.isIdentifier target.name.toList = true)

include hnames

/-- The text is that of members that are atoms: its own, or those of a compound. -/
theorem exists_members {e : Expr} (he : e.Structural known) :
    ∃ joiner members, e.write = writeMembers joiner members ∧ members ≠ [] ∧
      ∀ m ∈ members, Atom m.write := by
  by_cases hflat : e.isCompound = false
  · exact ⟨.union, [e], rfl, by simp, by simpa using (neutral_and_atom hnames he).2 hflat⟩
  · cases he with
    | @compound joiner members hseveral hmember hmembers =>
        refine ⟨joiner, members, rfl, by rintro rfl; simp at hseveral, fun m hm => ?_⟩
        exact (neutral_and_atom hnames (hmembers m hm)).2 (hmember m hm)
    | _ => exact absurd rfl hflat

theorem scan_write {e : Expr} (he : e.Structural known) (start : List Char) {s rest : List Char}
    (hs : Tokens.Stops s rest) :
    Tokens.scan start (e.write ++ s) none = (.ok e.level, rest) := by
  by_cases hflat : e.isCompound = false
  · rw [level_of_atom hflat, Tokens.scan_atom ((neutral_and_atom hnames he).2 hflat) start hs.ends,
      hs.scan]
    rfl
  · cases he with
    | compound hseveral hmember hmembers =>
        have hatoms := fun m hm => (neutral_and_atom hnames (hmembers m hm)).2 (hmember m hm)
        exact scan_writeMembers hatoms start hs rfl (.inl hseveral)
    | _ => exact absurd rfl hflat

theorem take_write {e : Expr} (he : e.Structural known) :
    Tokens.take e.write = (.ok e.level, []) := by
  have h := scan_write hnames he e.write Tokens.stops_nil
  rwa [List.append_nil] at h

theorem arguments_write {e : Expr} (he : e.Structural known) :
    Span.arguments e.write = .ok [e.write] := by
  obtain ⟨joiner, members, hwrite, hne, hatoms⟩ := exists_members hnames he
  rw [hwrite]
  exact Span.arguments_of_single (takeArgument_writeMembers hatoms) (tight_writeMembers hatoms hne)

end Written

end Expr

end Typings
