import Typings.Proofs.NestingLimit
import Typings.Proofs.WrittenToken

/-!
# Writing and reading back

A structural expression is read back from its text, if its names are looked up to what they were
written for and the limit on nesting allows for it.
-/

namespace Typings

open Typings.Expr (Structural)
open Typings.Span (Neutral)

/-! ## Actions with one value -/

namespace Action

variable {σ α β : Type}

def Yields (x : Action σ α) (a : α) : Prop := ∀ s, (x.eval s).1 = .ok a

theorem Yields.pure (a : α) : Yields (pure a : Action σ α) a := fun _ => rfl

theorem Yields.bind {x : Action σ α} {f : α → Action σ β} {a : α} {b : β} (hx : x.Yields a)
    (hf : (f a).Yields b) : (x >>= f).Yields b := by
  intro s
  have hxs : x.eval s = (.ok a, (x.eval s).2) := Prod.ext (hx s) rfl
  rw [eval_bind_ok hxs]
  exact hf _

theorem Yields.nested {x : Action (Reading σ) α} {a : α} (hx : x.Yields a) :
    (Reading.nested none x).Yields a := by
  intro r
  rw [eval_nested, if_neg (by simp)]
  exact hx _

theorem Yields.lookup {scope : Scope σ} {name : String} {found : Option Identity}
    (h : (scope.lookup name).Yields found) : (Reading.lookup scope name).Yields found := by
  intro r
  rw [eval_lookup]
  exact h r.names

end Action

open Typings.Action (Yields)

/-- The scope finds the type under its own name, which is read as the name of a type. -/
structure Scope.Knows {σ : Type} (scope : Scope σ) (target : Identity) : Prop where
  typeName : IsTypeName target.name
  found : (scope.lookup target.name).Yields (some target)

theorem Property.insert_of_not_mem {α : Type} {p : Property α} {ps : List (Property α)}
    (h : p.key ∉ ps.map Property.key) : Property.insert p ps = ps ++ [p] := by
  induction ps with
  | nil => rfl
  | cons q qs ih =>
      rw [List.map_cons, List.mem_cons, not_or] at h
      rw [Property.insert, if_neg (Ne.symm h.1), ih h.2, List.cons_append]

namespace Reading

variable {σ : Type}

/-! ## One level -/

theorem yields_inOrder {es : List Expr} {f : Expr → Action σ Expr}
    (h : ∀ e ∈ es, (f e).Yields e) : (inOrder (es.map f)).Yields es := by
  induction es with
  | nil => exact .pure []
  | cons e es ih =>
      rw [List.forall_mem_cons] at h
      exact h.1.bind ((ih h.2).bind (.pure _))

theorem yields_object {value : Except Error Tokens → Action σ Expr} {rest : List Char}
    {properties : List (Property Expr)} {dynamic : Option Expr} (before : List (Property Expr))
    (hvalues : ∀ p ∈ properties, (value (.ok p.value.level)).Yields p.value)
    (hdynamic : ∀ e ∈ dynamic, (value (.ok e.level)).Yields e)
    (hdistinct : ((before ++ properties).map Property.key).Nodup) :
    (object (.ok rest) before none
      ((properties.map Expr.entry ++ dynamic.toList.map Expr.dynamicEntry).map
        fun entry => (entry.slot, value entry.value))).Yields
          (.object (before ++ properties) dynamic) := by
  induction properties generalizing before with
  | nil =>
      rw [List.append_nil]
      cases dynamic with
      | none => exact .pure _
      | some e => exact (hdynamic e rfl).bind (.pure _)
  | cons p ps ih =>
      rw [List.forall_mem_cons] at hvalues
      have hkey : p.key ∉ before.map Property.key := by
        rw [List.map_append, List.map_cons, List.nodup_append] at hdistinct
        exact fun h => hdistinct.2.2 p.key h p.key (List.mem_cons_self ..) rfl
      have hinsert := Property.insert_of_not_mem hkey
      refine hvalues.1.bind ?_
      rw [hinsert]
      have hrest := ih (before ++ [p]) hvalues.2 (by simpa using hdistinct)
      rwa [List.append_assoc, List.singleton_append] at hrest

/-! ## Each kind of expression -/

def ReadsBack (scope : Scope σ) (e : Expr) : Prop := (level none none scope (.ok e.level)).Yields e

section Kinds

variable {scope : Scope σ}

theorem ReadsBack.of_step {e : Expr} (hflat : e.isCompound = false)
    (h : (step none (lookup scope) scope.forms
      (fun text => level none none scope (Tokens.take text).1)
      (fun text => nested none (objectOf (level none none scope) text))
      (.ok ⟨[e.write], none⟩)).Yields e) : ReadsBack scope e := by
  rw [ReadsBack, level_eq, Expr.level_of_atom hflat]
  exact h.nested

theorem names_of_knows :
    ∀ target, scope.Knows target → Text.isIdentifier target.name.toList = true :=
  fun _ h => h.typeName.identifier

theorem readsBack_primitive (kind : Primitive) : ReadsBack scope (.primitive kind) := by
  have hshape : Term.shape none kind.keyword.toList = .primitive kind := by
    cases kind <;> decide +kernel
  refine .of_step rfl ?_
  rw [step, show (Expr.primitive kind).write = kind.keyword.toList from rfl, hshape]
  exact .pure _

theorem readsBack_boolean (value : Bool) : ReadsBack scope (.literal (.boolean value)) := by
  have hshape : Term.shape none (Literal.boolean value).write = .literal (.boolean value) := by
    cases value <;> decide +kernel
  refine .of_step rfl ?_
  rw [step, show (Expr.literal (.boolean value)).write = (Literal.boolean value).write from rfl,
    hshape]
  exact .pure _

theorem readsBack_unknown (hunknown : (scope.lookup "unknown").Yields none) :
    ReadsBack scope .unknown := by
  have hshape : Term.shape none "unknown".toList = .named "unknown" none := by decide +kernel
  refine .of_step rfl ?_
  rw [step, show Expr.unknown.write = "unknown".toList from rfl, hshape]
  exact (Yields.lookup hunknown).bind (.pure _)

theorem readsBack_name {target : Identity} (htarget : scope.Knows target) :
    ReadsBack scope (.reference target none) := by
  refine .of_step rfl ?_
  rw [step, show (Expr.reference target none).write = target.name.toList from rfl,
    Term.shape_name htarget.typeName]
  exact (Yields.lookup htarget.found).bind (.pure _)

section Parts

variable {e : Expr} (he : e.Structural scope.Knows)

include he

theorem neutral_of_structural : Neutral e.write := (Expr.neutral_and_atom names_of_knows he).1

variable (h : ReadsBack scope e)

include h

/-- The text of a part is read wherever it is the whole text inside a token. -/
theorem ReadsBack.inside : (level none none scope (Tokens.take e.write).1).Yields e := by
  rw [Expr.take_write names_of_knows he]
  exact h

theorem readsBack_applied {target : Identity} (htarget : scope.Knows target) :
    ReadsBack scope (.reference target (some e)) := by
  have hwrite : (Expr.reference target (some e)).write =
      target.name.toList ++ '<' :: e.write ++ ['>'] := rfl
  refine .of_step rfl ?_
  rw [step, hwrite, Term.shape_applied htarget.typeName (neutral_of_structural he)
    (Expr.arguments_write names_of_knows he)]
  exact (Yields.lookup htarget.found).bind ((ReadsBack.inside he h).bind (.pure _))

theorem readsBack_promise (hforms : scope.forms = .standard)
    (hpromise : (scope.lookup "Promise").Yields none) : ReadsBack scope (.promise e) := by
  have hname : IsTypeName "Promise" := ⟨by decide, by decide, by decide, by decide⟩
  have hwrite : (Expr.promise e).write = "Promise".toList ++ '<' :: e.write ++ ['>'] := rfl
  refine .of_step rfl ?_
  rw [step, hwrite, Term.shape_applied hname (neutral_of_structural he)
    (Expr.arguments_write names_of_knows he), hforms]
  exact (Yields.lookup hpromise).bind ((ReadsBack.inside he h).bind (.pure _))

theorem yields_group :
    (level none none scope (Tokens.take ('(' :: e.write ++ [')'])).1).Yields e := by
  have hneutral := neutral_of_structural he
  have hatom : Tokens.Atom ('(' :: e.write ++ [')']) :=
    .groups (.cons rfl rfl hneutral .nil) (by simp)
  rw [Tokens.take_atom hatom, level_eq, step, Term.shape_group hneutral]
  exact (ReadsBack.inside he h).nested

theorem readsBack_array : ReadsBack scope (.array e) := by
  have hwritten := Expr.neutral_and_atom names_of_knows he
  have hne : e.writeElement ≠ [] := (Expr.atom_writeElement hwritten.1 hwritten.2).tight.1
  have helement : (level none none scope (Tokens.take e.writeElement).1).Yields e := by
    rw [Expr.writeElement]
    split
    · exact yields_group he h
    · exact ReadsBack.inside he h
  refine .of_step rfl ?_
  rw [step, Expr.write_array, Term.shape_array hne]
  exact helement.bind (.pure _)

end Parts

theorem readsBack_object {properties : List (Property Expr)} {dynamic : Option Expr}
    (he : (Expr.object properties dynamic).Structural scope.Knows)
    (hvalues : ∀ p ∈ properties, ReadsBack scope p.value)
    (hdynamic : ∀ e ∈ dynamic, ReadsBack scope e) :
    ReadsBack scope (.object properties dynamic) := by
  have hscan := Expr.scan_object names_of_knows he
  cases he with
  | object hkeys hdistinct hvalue hindex =>
      have hneutral : Neutral (Expr.inside properties dynamic) :=
        Expr.neutral_inside
          (Expr.neutral_writeProperties hkeys fun p hp => neutral_of_structural (hvalue p hp))
          fun e he => neutral_of_structural (hindex e he)
      refine .of_step rfl ?_
      rw [step, Expr.write_object, Term.shape_braces hneutral, ← Expr.write_object]
      refine Yields.nested ?_
      rw [objectOf, hscan]
      exact yields_object [] hvalues hdynamic hdistinct

theorem readsBack_compound {joiner : Joiner} {members : List Expr}
    (he : ∀ e ∈ members, e.Structural scope.Knows) (h : ∀ e ∈ members, ReadsBack scope e) :
    ReadsBack scope (.compound joiner members) := by
  have hlevel : (Expr.compound joiner members).level = ⟨members.map Expr.write, some joiner⟩ := rfl
  rw [ReadsBack, level_eq, hlevel, step, List.map_map]
  refine Yields.nested (Yields.bind (yields_inOrder fun e hmember => ?_) (.pure _))
  exact ReadsBack.inside (he e hmember) (h e hmember)

end Kinds

variable {scope : Scope σ}

theorem readsBack_of_structural (hforms : scope.forms = .standard)
    (hunknown : (scope.lookup "unknown").Yields none)
    (hpromise : (scope.lookup "Promise").Yields none) {e : Expr}
    (he : e.Structural scope.Knows) : ReadsBack scope e := by
  induction he with
  | primitive kind => exact readsBack_primitive kind
  | boolean value => exact readsBack_boolean value
  | unknown => exact readsBack_unknown hunknown
  | reference htarget => exact readsBack_name htarget
  | applied htarget hargument ih => exact readsBack_applied hargument ih htarget
  | promise hinner ih => exact readsBack_promise hinner ih hforms hpromise
  | array helement ih => exact readsBack_array helement ih
  | object hkeys hdistinct hvalues hdynamic ihvalues ihdynamic =>
      exact readsBack_object (.object hkeys hdistinct hvalues hdynamic) ihvalues ihdynamic
  | compound _ _ hmembers ih => exact readsBack_compound hmembers ih

/-! ## Whole texts -/

/-- A structural expression is given back, and its text is read to the last byte. -/
theorem parse_display (hforms : scope.forms = .standard)
    (hunknown : (scope.lookup "unknown").Yields none)
    (hpromise : (scope.lookup "Promise").Yields none) {e : Expr} (he : e.Structural scope.Knows)
    (r : Reading σ) :
    let answer := ((parse (some maxNesting) none scope e.display.toList).eval r).1
    answer = .error .nestingTooDeep ∨ answer = .ok (e, Text.byteLength e.display.toList) := by
  intro answer
  have hwrite : e.display.toList = e.write := String.toList_ofList
  have htake : Tokens.take e.write = (.ok e.level, []) :=
    Expr.take_write names_of_knows he
  have hunlimited : (parse none none scope e.write).Yields (e, Text.byteLength e.write) := by
    rw [parse, htake]
    exact (readsBack_of_structural hforms hunknown hpromise he).bind (.pure _)
  refine (gaveUp_or_unlimited _ r).imp_right fun h => ?_
  rw [show answer = _ from congrArg Prod.fst h, hwrite]
  exact hunlimited r

/-- An object whose first key is called like a modifier, in a scope that knows one name. -/
theorem parse_display_object : ∃ e,
    e.display =
        "\x7b readonly?: (A<true> | string)[]; p: Promise<unknown>; [key: string]: A; \x7d" ∧
      ((parse (some maxNesting) none (.single ⟨⟨"a.d.ts"⟩, "A", false⟩) e.display.toList).eval
        ⟨0, ()⟩).1 = .ok (e, 75) := by
  let target : Identity := ⟨⟨"a.d.ts"⟩, "A", false⟩
  let members : List Expr :=
    [.reference target (some (.literal (.boolean true))), .primitive .string]
  let e : Expr := .object
    [⟨"readonly", true, .array (.compound .union members)⟩, ⟨"p", false, .promise .unknown⟩]
    (some (.reference target none))
  have hknown : (Scope.single target).Knows target :=
    ⟨⟨by decide, by decide, by decide, by decide⟩, fun _ => rfl⟩
  have hmembers : ∀ m ∈ members, m.Structural (Scope.single target).Knows := by
    simpa [members] using ⟨.applied hknown (.boolean true), .primitive .string⟩
  have he : e.Structural (Scope.single target).Knows := by
    refine .object (by decide) (by decide) ?_ ?_
    · refine List.forall_mem_cons.2 ⟨?_, by simpa using .promise .unknown⟩
      exact .array (.compound (by decide) (by simp [members, Expr.isCompound]) hmembers)
    · rintro _ ⟨rfl⟩
      exact .reference hknown
  have hparse := parse_display rfl (fun _ => rfl) (fun _ => rfl) he ⟨0, ()⟩
  have hdisplay : e.display =
      "\x7b readonly?: (A<true> | string)[]; p: Promise<unknown>; [key: string]: A; \x7d" := by
    decide +kernel
  have hdone : ((parse (some maxNesting) none (.single target) e.display.toList).eval
      ⟨0, ()⟩).1.toOption.isSome := by
    decide +kernel
  have hlength : Text.byteLength e.display.toList = 75 := by
    rw [hdisplay]
    decide +kernel
  refine ⟨e, hdisplay, ?_⟩
  rcases hparse with h | h
  · rw [h] at hdone
    cases hdone
  · rw [h, hlength]

end Reading

end Typings
