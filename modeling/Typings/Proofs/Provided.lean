import Typings.Proofs.Locals

/-!
# The types that a file may provide

Everything that a table or an alias of a module names is provided by the steps of its file: it is
declared there, or in a file whose exports are taken over.  The owner of a type is therefore always
within reach.
-/

namespace Typings

open ScanStep

/-- A place for a type in a module: under its own name, as the default, or under a new name. -/
inductive Slot where
  | name (n : String)
  | default
  | renamed (n : String)
  deriving DecidableEq, Repr

def Identity.Fills (a : Identity) : Slot → Prop
  | .name n => n = a.name
  | .default => a.isDefault = true
  | .renamed _ => False

def Binding.Fills (b : Binding) (a : Identity) : Slot → Prop
  | .name n => n = a.name
  | .default => a.isDefault = true ∨ (b.name = "default" ∧ b.newName = none)
  | .renamed n => b.newName = some n

/--
Whether a slot may answer for a name.  The new names that imports have introduced in the file at
`q` may stand for anything in its table.
-/
def Slot.Answers (imported : Path → String → Prop) (q : Path) (name : String) : Slot → Prop
  | .name n => (n = name ∧ name ≠ "default") ∨ imported q name
  | .default => name = "default" ∨ imported q name
  | .renamed n => n = name

/-- The types that a step about the module at `p` alone provides, behind the steps `done`. -/
def LocalStep.Provides (p : Path) (done : List ScanStep) (slot : Slot) (a : Identity) :
    LocalStep → Prop
  | .fail _ => False
  | .remark _ _ => False
  | .declare _ h => h.exported = true ∧ a = h.identity p ∧ a.Fills slot
  | .promote _ name => slot = .default ∧
      ∃ st h, declared? done name = some (st, h) ∧ h.exported = false ∧ a = h.identity p
  | .list b => ∃ st h, declared? done b.name = some (st, h) ∧ a = h.identity p ∧
      (a.Fills slot ∨ ∃ n, slot = .renamed n ∧ b.newName = some n)

def ProvidesItself (files : FileTree) (options : ResolverOptions) (p : Path) (slot : Slot)
    (a : Identity) : Prop :=
  ∃ done l rest, files.scanSteps options p = done ++ .own l :: rest ∧ l.Provides p done slot a

/-- Behind the steps `done`, the step gives the file at `p` a default export of its own. -/
def ScanStep.GivesDefault (p : Path) (done : List ScanStep) : ScanStep → Prop
  | .own l => ∃ a, l.Provides p done .default a
  | .take _ b => b.name = "default" ∧ b.newName = none
  | _ => False

def ScanStep.DefaultGiven (p : Path) (steps : List ScanStep) : Prop :=
  ∃ before i after, steps = before ++ i :: after ∧ i.GivesDefault p before

/--
What the file at `q` has in the slot goes over to the file at `p`.  A default export does not when
`p` has been given one before.
-/
def FileTree.TakesOver (files : FileTree) (options : ResolverOptions) (p q : Path) (slot : Slot) :
    Prop :=
  ∃ done rest, files.scanSteps options p = done ++ .merge q :: rest ∧
    (∀ n, slot ≠ .renamed n) ∧ (slot = .default → ¬ DefaultGiven p done)

/-- The file at `p` may provide a type in a slot; `imported` tells the new names of imports. -/
inductive Provides (files : FileTree) (options : ResolverOptions)
    (imported : Path → String → Prop) : Path → Slot → Identity → Prop
  | itself {p : Path} {slot : Slot} {a : Identity} (h : ProvidesItself files options p slot a) :
      Provides files options imported p slot a
  | merged {p q : Path} {slot : Slot} {a : Identity} (hover : files.TakesOver options p q slot)
      (hq : Provides files options imported q slot a) : Provides files options imported p slot a
  | taken {p q : Path} {b : Binding} {asked slot : Slot} {a : Identity}
      (htakes : files.Takes options p q b) (hq : Provides files options imported q asked a)
      (hasked : asked.Answers imported q b.name) (hfills : b.Fills a slot) :
      Provides files options imported p slot a

def ProvidesOne (files : FileTree) (options : ResolverOptions) (imported : Path → String → Prop)
    (p : Path) (slot : Slot) : Prop :=
  ∀ a b, Provides files options imported p slot a → Provides files options imported p slot b → a = b

def FileTree.Ahead (files : FileTree) (options : ResolverOptions) (p : Path)
    (steps : List ScanStep) : Prop :=
  ∀ i ∈ steps, ∀ q, i.asked? = some q → ¬ files.Leads options q p

/--
A complete scan of the file at `p` performs the step behind the steps `done`; if `ahead`, it does so
before it asks a file that leads back to `p`.
-/
def FileTree.HasStep (files : FileTree) (options : ResolverOptions) (ahead : Bool) (p : Path)
    (done : List ScanStep) (i : ScanStep) : Prop :=
  (∃ rest, files.scanSteps options p = done ++ i :: rest) ∧
    (ahead = true → files.Ahead options p (done ++ [i]))

/--
Every complete scan of the file at `p` lists a type in the slot.  If `ahead`, so does every scan
that asks a file leading back to `p`.  New names of other files do not count.
-/
inductive Lists (files : FileTree) (options : ResolverOptions) : Bool → Path → Slot → Prop
  | itself {ahead : Bool} {p : Path} {done : List ScanStep} {l : LocalStep} {slot : Slot}
      {a : Identity} (hstep : files.HasStep options ahead p done (.own l))
      (hl : l.Provides p done slot a) : Lists files options ahead p slot
  | merged {ahead : Bool} {p q : Path} {done : List ScanStep} {slot : Slot}
      (hstep : files.HasStep options ahead p done (.merge q))
      (hq : Lists files options false q slot) : Lists files options ahead p slot
  | taken {ahead back : Bool} {p q : Path} {done : List ScanStep} {b : Binding}
      (hstep : files.HasStep options ahead p done (.take q b)) (hname : b.name ≠ "default")
      (hback : files.Leads options q p → back = true)
      (hq : Lists files options back q (.name b.name)) : Lists files options ahead p (.name b.name)
  | takenDefault {ahead : Bool} {p q : Path} {done : List ScanStep} {b : Binding}
      (hstep : files.HasStep options ahead p done (.take q b)) (hname : b.name = "default")
      (hnew : b.newName = none) : Lists files options ahead p .default

variable {files : FileTree} {options : ResolverOptions} {imported : Path → String → Prop}

namespace ProvidesItself

variable {p : Path} {slot : Slot} {a : Identity}

theorem name_eq {n : String} (h : ProvidesItself files options p (.name n) a) : n = a.name := by
  rcases h with ⟨done, l, rest, -, hl⟩
  cases l with
  | fail => cases hl
  | remark => cases hl
  | declare s hd => exact hl.2.2
  | promote s name => cases hl.1
  | list b =>
      rcases hl with ⟨st, hd, -, -, hfills | ⟨n', heq, -⟩⟩
      · exact hfills
      · cases heq

theorem owner (h : ProvidesItself files options p slot a) : a.file = p ∧
    ∃ st hd, .own (.declare st hd) ∈ files.scanSteps options p ∧ hd.identity p = a := by
  rcases h with ⟨done, l, rest, hsteps, hl⟩
  have hdone : ∀ i ∈ done, i ∈ files.scanSteps options p := by
    intro i hi
    rw [hsteps]
    exact List.mem_append_left _ hi
  cases l with
  | fail => cases hl
  | remark => cases hl
  | declare s hd =>
      rcases hl with ⟨-, rfl, -⟩
      exact ⟨rfl, s, hd, FileTree.mem_scanSteps_of_eq hsteps, rfl⟩
  | promote s name =>
      rcases hl with ⟨-, st, hd, hdecl, -, rfl⟩
      exact ⟨rfl, st, hd, hdone _ (mem_of_declared? hdecl).1, rfl⟩
  | list b =>
      rcases hl with ⟨st, hd, hdecl, rfl, -⟩
      exact ⟨rfl, st, hd, hdone _ (mem_of_declared? hdecl).1, rfl⟩

end ProvidesItself

namespace ScanStep

theorem DefaultGiven.append {p : Path} {done : List ScanStep} (h : DefaultGiven p done)
    (steps : List ScanStep) : DefaultGiven p (done ++ steps) := by
  rcases h with ⟨before, i, after, rfl, hgives⟩
  exact ⟨before, i, after ++ steps, by simp, hgives⟩

theorem defaultGiven_concat {p : Path} {done : List ScanStep} {i : ScanStep} :
    DefaultGiven p (done ++ [i]) ↔ DefaultGiven p done ∨ i.GivesDefault p done := by
  constructor
  · rintro ⟨before, j, after, heq, hgives⟩
    rcases List.eq_nil_or_concat after with rfl | ⟨after, k, rfl⟩
    · obtain ⟨rfl, hlast⟩ := List.append_inj' heq rfl
      obtain rfl := (List.cons.inj hlast).1
      exact .inr hgives
    · rw [List.concat_eq_append, ← List.cons_append, ← List.append_assoc] at heq
      exact .inl ⟨before, j, after, (List.append_inj' heq rfl).1, hgives⟩
  · rintro (h | h)
    · exact h.append [i]
    · exact ⟨done, i, [], rfl, h⟩

end ScanStep

theorem FileTree.TakesOver.merges {p q : Path} {slot : Slot} (h : files.TakesOver options p q slot) :
    files.Merges options p q := by
  rcases h with ⟨done, rest, hsteps, -⟩
  exact FileTree.mem_scanSteps_of_eq hsteps

theorem FileTree.HasStep.mem {ahead : Bool} {p : Path} {done : List ScanStep} {i : ScanStep}
    (h : files.HasStep options ahead p done i) : i ∈ files.scanSteps options p := by
  rcases h with ⟨⟨rest, hsteps⟩, -⟩
  exact FileTree.mem_scanSteps_of_eq hsteps

namespace Provides

variable {p : Path} {slot : Slot} {a : Identity}

theorem name_eq {n : String} (h : Provides files options imported p (.name n) a) : n = a.name := by
  generalize hslot : Slot.name n = slot at h
  induction h with
  | itself h =>
      subst hslot
      exact h.name_eq
  | merged _ _ ih => exact ih hslot
  | taken _ _ _ hfills _ =>
      subst hslot
      exact hfills

/-- The owner of a provided type is within reach, and declares it. -/
theorem owner (h : Provides files options imported p slot a) :
    files.Leads options p a.file ∧
      ∃ st hd, .own (.declare st hd) ∈ files.scanSteps options a.file ∧ hd.identity a.file = a := by
  induction h with
  | itself h =>
      rcases h.owner with ⟨rfl, hdeclared⟩
      exact ⟨.refl _, hdeclared⟩
  | merged hover _ ih => exact ⟨.of_asks (.inl hover.merges) ih.1, ih.2⟩
  | taken htakes _ _ _ ih => exact ⟨.of_asks (.inr ⟨_, htakes⟩) ih.1, ih.2⟩

end Provides

end Typings
