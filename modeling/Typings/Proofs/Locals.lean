import Typings.Proofs.Advance

/-!
# The declarations found by a scan

What a scan knows about the declarations of its module is what its steps so far say, and whether
a step about the module alone succeeds depends on nothing else.
-/

namespace Typings

namespace ScanStep

def declares? (name : String) : ScanStep → Option (Statement × Head)
  | .own (.declare s h) => if h.name = name then some (s, h) else none
  | _ => none

def declared? (steps : List ScanStep) (name : String) : Option (Statement × Head) :=
  steps.reverse.findSome? (declares? name)

@[simp] theorem declared?_nil (name : String) : declared? [] name = none := rfl

theorem declared?_append (done : List ScanStep) (i : ScanStep) (name : String) :
    declared? (done ++ [i]) name = (i.declares? name).or (declared? done name) := by
  rw [declared?, List.reverse_append, List.findSome?_append]
  simp [declared?]

theorem declared?_of_not_declares {i : ScanStep} (hi : ∀ s h, i ≠ .own (.declare s h))
    (done : List ScanStep) (name : String) : declared? (done ++ [i]) name = declared? done name := by
  rw [declared?_append]
  cases i with
  | own l =>
      cases l with
      | declare s h => exact absurd rfl (hi s h)
      | fail cause => rfl
      | remark s r => rfl
      | promote s name => rfl
      | list b => rfl
  | visit file => rfl
  | merge target => rfl
  | take target b => rfl

theorem mem_of_declared? {steps : List ScanStep} {name : String} {s : Statement} {h : Head}
    (hd : declared? steps name = some (s, h)) : .own (.declare s h) ∈ steps ∧ h.name = name := by
  obtain ⟨i, hi, hdeclares⟩ := List.exists_of_findSome?_eq_some hd
  rw [List.mem_reverse] at hi
  unfold declares? at hdeclares
  split at hdeclares
  · split at hdeclares
    · next hname =>
        simp only [Option.some.injEq, Prod.mk.injEq] at hdeclares
        rcases hdeclares with ⟨rfl, rfl⟩
        exact ⟨hi, hname⟩
    · cases hdeclares
  · cases hdeclares

theorem isSome_declared? {steps : List ScanStep} {s : Statement} {h : Head}
    (hd : .own (.declare s h) ∈ steps) : (declared? steps h.name).isSome := by
  rw [declared?, List.findSome?_isSome_iff]
  exact ⟨_, List.mem_reverse.2 hd, by simp [declares?]⟩

end ScanStep

open ScanStep

/-- The module at `p` knows the declarations of the steps `done`. -/
def Module.LocalsOf (p : Path) (done : List ScanStep) (m : Module) : Prop :=
  ∀ name, m.locals.get? name = (declared? done name).map fun (s, h) => h.declaration p s

def LocalStep.Valid (done : List ScanStep) : LocalStep → Prop
  | .fail _ => False
  | .remark _ _ => True
  | .declare _ _ => True
  | .promote _ name => ∃ s h, declared? done name = some (s, h) ∧ h.exported = false
  | .list b => (declared? done b.name).isSome

namespace Module.LocalsOf

variable {p : Path} {done : List ScanStep} {m : Module}

theorem localIdentity? (h : m.LocalsOf p done) (name : String) :
    m.localIdentity? name = (declared? done name).map fun d => d.2.identity p := by
  rw [Module.localIdentity?, h name, Option.map_map]
  rfl

theorem unexported (h : m.LocalsOf p done) (name : String) :
    (m.locals.get? name).filter (!·.exported) =
      ((declared? done name).filter (!·.2.exported)).map fun d => d.2.declaration p d.1 := by
  rw [h name]
  cases declared? done name with
  | none => rfl
  | some d =>
      rcases d with ⟨st, hd⟩
      cases hexp : hd.exported <;> simp [Head.declaration, Option.filter_some, hexp]

theorem change_ok_iff (h : m.LocalsOf p done) (l : LocalStep) :
    (∃ f, l.change p m = .ok f) ↔ l.Valid done := by
  cases l with
  | fail e => simp [LocalStep.change, LocalStep.Valid]
  | remark s r => simp [LocalStep.change, LocalStep.Valid]
  | declare s hd => simp [LocalStep.change, LocalStep.Valid]
  | promote s name =>
      simp only [LocalStep.change, h.unexported, LocalStep.Valid]
      cases hd : declared? done name with
      | none => simp
      | some d =>
          rcases d with ⟨s', hd'⟩
          cases hexp : hd'.exported <;> simp [Option.filter_some, hexp]
  | list b =>
      simp only [LocalStep.change, h.localIdentity?, LocalStep.Valid]
      cases declared? done b.name <;> simp

theorem rename (h : m.LocalsOf p done) (b : Binding) (found : Identity) :
    (m.rename b found).LocalsOf p done := by
  unfold Module.rename
  split <;> exact h

theorem addTaken (h : m.LocalsOf p done) (b : Binding) (found : Identity) :
    (m.addTaken b found).LocalsOf p done := h.rename b found

theorem next_of_not_declares (h : m.LocalsOf p done) {i : ScanStep}
    (hi : ∀ s hd, i ≠ .own (.declare s hd)) : m.LocalsOf p (done ++ [i]) := by
  intro name
  rw [declared?_of_not_declares hi]
  exact h name

theorem declare (h : m.LocalsOf p done) (s : Statement) (hd : Head) :
    (m.declare p s hd).LocalsOf p (done ++ [.own (.declare s hd)]) := by
  have hlocals : (m.declare p s hd).locals = m.locals.insert hd.name (hd.declaration p s) := by
    unfold Module.declare
    split <;> rfl
  intro name
  rw [hlocals, OrderedMap.get?_insert, declared?_append, h name]
  by_cases hname : name = hd.name
  · simp [declares?, hname]
  · simp [declares?, hname, Ne.symm hname]

theorem change (h : m.LocalsOf p done) {l : LocalStep} {f : Module → Module}
    (hf : l.change p m = .ok f) : (f m).LocalsOf p (done ++ [.own l]) := by
  cases l with
  | fail e => simp [LocalStep.change] at hf
  | remark s r =>
      obtain rfl := Except.ok.inj hf
      exact h.next_of_not_declares (by simp)
  | declare s hd =>
      obtain rfl := Except.ok.inj hf
      exact h.declare s hd
  | promote s name =>
      simp only [LocalStep.change] at hf
      split at hf
      · simp at hf
      · obtain rfl := Except.ok.inj hf
        exact h.next_of_not_declares (by simp)
  | list b =>
      simp only [LocalStep.change] at hf
      split at hf
      · simp at hf
      · next found _ =>
          obtain rfl := Except.ok.inj hf
          exact (h.rename b found).next_of_not_declares (by simp)

end Module.LocalsOf

variable {files : FileTree} {options : ResolverOptions} {T : TableOf} {stack : List Path}
  {p : Path} {s s' : Store}

theorem Module.locals_beginScan (m : Module) (d : Nat) : (m.beginScan d).LocalsOf p [] :=
  fun _ => rfl

theorem ScanStep.Advances.locals {i : ScanStep} {m m' : Module} {done : List ScanStep}
    (h : Advances files T p i s m s' m') (hlocals : m.LocalsOf p done) :
    m'.LocalsOf p (done ++ [i]) := by
  cases h with
  | own hf => exact hlocals.change hf
  | visit => exact hlocals.next_of_not_declares (by simp)
  | merge => exact Module.LocalsOf.next_of_not_declares hlocals (by simp)
  | take => exact (hlocals.addTaken _ _).next_of_not_declares (by simp)

end Typings
