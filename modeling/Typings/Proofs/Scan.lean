import Typings.Proofs.ScanStep

/-!
# Export scans as lists of steps

The scan of a module performs the steps of its statements one after the other.  `Answered` lists
what asking a module for its export table can come to; every proof about scans goes by its cases.
-/

namespace Typings

namespace Store

structure Grows (s s' : Store) : Prop where
  options_eq : s'.options = s.options
  isSome_module? : ∀ p, (s.module? p).isSome → (s'.module? p).isSome

theorem Grows.refl (s : Store) : s.Grows s := ⟨rfl, fun _ h => h⟩

theorem Grows.trans {s₁ s₂ s₃ : Store} (h₁ : s₁.Grows s₂) (h₂ : s₂.Grows s₃) : s₁.Grows s₃ :=
  ⟨h₂.options_eq.trans h₁.options_eq, fun p h => h₂.isSome_module? p (h₁.isSome_module? p h)⟩

theorem grows_updateModule (s : Store) (p : Path) (f : Module → Module) :
    s.Grows (s.updateModule p f) := by
  refine ⟨rfl, fun q h => ?_⟩
  rw [module?_updateModule]
  split
  · next heq =>
      subst heq
      simpa using h
  · exact h

theorem grows_addModule (s : Store) (p : Path) (m : Module) : s.Grows (s.addModule p m) := by
  refine ⟨rfl, fun q h => ?_⟩
  rw [module?_addModule]
  split
  · rfl
  · exact h

end Store

theorem FileTree.Loads.grows {files : FileTree} {p : Path} {s s' : Store} {r : Except Error Path}
    (h : files.Loads p s r s') : s.Grows s' := by
  cases h with
  | missing => exact .refl s
  | present => exact .refl s
  | unreadable => exact .refl s
  | read => exact s.grows_addModule _ _

def TableOf.Grows (tableOf : TableOf) : Prop :=
  ∀ q s s' r, (tableOf q).eval s = (r, s') → s.Grows s'

namespace ScanStep

open ExportScan Query

variable {files : FileTree} {tableOf : TableOf} {p : Path}

/-! ## A list of steps -/

inductive Performs (files : FileTree) (tableOf : TableOf) (p : Path) :
    List ScanStep → Store → Except Error Unit → Store → Prop
  | done (s : Store) : Performs files tableOf p [] s (.ok ()) s
  | step {i : ScanStep} {is : List ScanStep} {s s₁ s₂ : Store} {r : Except Error Unit}
      (head : Effect files tableOf p i s (.ok ()) s₁)
      (tail : Performs files tableOf p is s₁ r s₂) : Performs files tableOf p (i :: is) s r s₂
  | stop {i : ScanStep} {is : List ScanStep} {s s₁ : Store} {e : Error}
      (head : Effect files tableOf p i s (.error e) s₁) :
      Performs files tableOf p (i :: is) s (.error e) s₁

theorem Effect.grows (htable : tableOf.Grows) {i : ScanStep}
    {s s' : Store} {r : Except Error Unit} (h : Effect files tableOf p i s r s') : s.Grows s' := by
  cases h with
  | changed => exact s.grows_updateModule _ _
  | refused => exact .refl s
  | visited h => exact (FileTree.loads h).grows
  | unvisited h => exact (FileTree.loads h).grows
  | merged h => exact (htable _ _ _ _ h).trans (Store.grows_updateModule _ _ _)
  | unmerged h => exact htable _ _ _ _ h
  | taken h => exact (htable _ _ _ _ h).trans (Store.grows_updateModule _ _ _)
  | notFound h => exact htable _ _ _ _ h
  | lost h => exact htable _ _ _ _ h
  | untaken h => exact htable _ _ _ _ h

theorem Performs.grows (htable : tableOf.Grows) {is : List ScanStep}
    {s s' : Store} {r : Except Error Unit} (h : Performs files tableOf p is s r s') :
    s.Grows s' := by
  induction h with
  | done s => exact .refl s
  | step head _ ih => exact (head.grows htable).trans ih
  | stop head => exact head.grows htable

theorem performs (htable : tableOf.Grows) (is : List ScanStep) {s : Store}
    (hp : (s.module? p).isSome) :
    Performs files tableOf p is s ((forM is (perform files tableOf p)).eval s).1
      ((forM is (perform files tableOf p)).eval s).2 := by
  induction is generalizing s with
  | nil =>
      rw [List.forM_nil, eval_pure]
      exact .done s
  | cons i is ih =>
      obtain ⟨m, hm⟩ := Option.isSome_iff_exists.1 hp
      have heffect := @effect files tableOf p i s m hm
      rw [eval_forM_cons]
      rcases h : (perform files tableOf p i).eval s with ⟨e | u, s'⟩
      · rw [h] at heffect
        exact .stop heffect
      · rw [h] at heffect
        exact .step heffect (ih ((heffect.grows htable).isSome_module? p hp))

theorem Effect.unique {T : TableOf} {i : ScanStep} {s s₁ s₂ : Store} {r₁ r₂ : Except Error Unit}
    (h₁ : Effect files T p i s r₁ s₁) (h₂ : Effect files T p i s r₂ s₂) : r₁ = r₂ ∧ s₁ = s₂ := by
  cases h₁ <;> cases h₂ <;> simp_all

theorem Performs.unique {T : TableOf} {is : List ScanStep} {s s₁ s₂ : Store} {r₁ r₂ : Except Error Unit}
    (h₁ : Performs files T p is s r₁ s₁) (h₂ : Performs files T p is s r₂ s₂) :
    r₁ = r₂ ∧ s₁ = s₂ := by
  induction h₁ with
  | done s =>
      cases h₂ with
      | done => exact ⟨rfl, rfl⟩
  | step head _ ih =>
      cases h₂ with
      | step head' tail' =>
          obtain ⟨-, rfl⟩ := head.unique head'
          exact ih tail'
      | stop head' => exact absurd (head.unique head').1 (by simp)
  | stop head =>
      cases h₂ with
      | step head' _ => exact absurd (head.unique head').1 (by simp)
      | stop head' => exact head.unique head'

theorem Performs.of_append {T : TableOf} {before after : List ScanStep} {s s' : Store} {r : Except Error Unit}
    (h : Performs files T p (before ++ after) s r s') :
    (∃ s₁, Performs files T p before s (.ok ()) s₁ ∧ Performs files T p after s₁ r s') ∨
      ∃ e, r = .error e ∧ Performs files T p before s (.error e) s' := by
  induction before generalizing s with
  | nil => exact .inl ⟨s, .done s, h⟩
  | cons i before ih =>
      cases h with
      | step head tail =>
          rcases ih tail with ⟨s₁, hbefore, hafter⟩ | ⟨e, rfl, hbefore⟩
          · exact .inl ⟨s₁, .step head hbefore, hafter⟩
          · exact .inr ⟨e, rfl, .step head hbefore⟩
      | stop head => exact .inr ⟨_, rfl, .stop head⟩

theorem Performs.at_cons {T : TableOf} {before after : List ScanStep} {i : ScanStep}
    {s s₁ s' : Store} {r : Except Error Unit} (h : Performs files T p (before ++ i :: after) s r s')
    (hbefore : Performs files T p before s (.ok ()) s₁) :
    ∃ r₁ s₂, Effect files T p i s₁ r₁ s₂ ∧ (Performs files T p after s₂ r s' ∨ s₂ = s') := by
  rcases h.of_append with ⟨s₁', hbefore', hrest⟩ | ⟨e, -, hbefore'⟩
  · obtain ⟨-, rfl⟩ := hbefore.unique hbefore'
    cases hrest with
    | step head tail => exact ⟨_, _, head, .inl tail⟩
    | stop head => exact ⟨_, _, head, .inr rfl⟩
  · exact absurd (hbefore.unique hbefore').1 (by simp)

theorem Performs.append {T : TableOf} {before after : List ScanStep} {s s₁ s' : Store} {r : Except Error Unit}
    (h : Performs files T p before s (.ok ()) s₁) (h' : Performs files T p after s₁ r s') :
    Performs files T p (before ++ after) s r s' := by
  generalize hr : Except.ok () = r₁ at h
  induction h with
  | done => exact h'
  | step head _ ih => exact .step head (ih h' hr)
  | stop => cases hr

theorem Performs.of_error {T : TableOf} {is : List ScanStep} {s s' : Store} {e : Error}
    (h : Performs files T p is s (.error e) s') :
    ∃ before i after s₁, is = before ++ i :: after ∧ Performs files T p before s (.ok ()) s₁ ∧
      Effect files T p i s₁ (.error e) s' := by
  generalize hr : Except.error e = r at h
  induction h with
  | done => cases hr
  | @step i is s s₁ s₂ r head _ ih =>
      obtain ⟨before, j, after, s₃, rfl, hbefore, heffect⟩ := ih hr
      exact ⟨i :: before, j, after, s₃, rfl, .step head hbefore, heffect⟩
  | @stop i is s s₁ e' head =>
      obtain rfl := Except.error.inj hr
      exact ⟨[], i, is, s, rfl, .done s, head⟩

theorem eval_forM_takeStatement (htable : tableOf.Grows)
    (statements : List Statement) {s : Store} (hp : (s.module? p).isSome) :
    (forM statements (takeStatement files tableOf p)).eval s =
      (forM (statements.flatMap (·.scanSteps files s.options p))
        (perform files tableOf p)).eval s := by
  induction statements generalizing s with
  | nil => rfl
  | cons st rest ih =>
      rw [List.flatMap_cons, List.forM_append, eval_forM_cons, eval_takeStatement, eval_bind]
      have hhead := @performs files _ p htable (st.scanSteps files s.options p) s hp
      rcases h : (forM (st.scanSteps files s.options p) (perform files tableOf p)).eval s
        with ⟨e | u, s'⟩
      · rfl
      · rw [h] at hhead
        have hgrows := hhead.grows htable
        simp only
        rw [ih (hgrows.isSome_module? p hp), hgrows.options_eq]

end ScanStep

/-! ## The scan of a module -/

namespace Module

def scanSteps (files : FileTree) (options : ResolverOptions) (m : Module) (p : Path) :
    List ScanStep :=
  (m.statements.filter (!·.isImport)).flatMap (·.scanSteps files options p)

def beginScan (m : Module) (depth : Nat) : Module :=
  { m with pending := some ⟨depth, .empty⟩, locals := .empty, exportNotes := [] }

def endScan (m : Module) : Module := { m with pending := none }

def keep (m : Module) (table : ExportTable) : Module := { m with exports := some table }

def table (m : Module) : ExportTable := (m.pending.map Pending.table).getD .empty

end Module

namespace Store

def beginScan (s : Store) (p : Path) : Store :=
  s.enterScan.updateModule p (·.beginScan s.depth)

def endScan (s : Store) (p : Path) (d : Nat) : Store :=
  (s.updateModule p Module.endScan).exitScan d

theorem module?_beginScan_self {s : Store} {p : Path} {m : Module} (h : s.module? p = some m) :
    (s.beginScan p).module? p = some (m.beginScan s.depth) :=
  module?_updateModule_self _ h

theorem module?_beginScan_of_ne (s : Store) {p q : Path} (h : q ≠ p) :
    (s.beginScan p).module? q = s.module? q :=
  module?_updateModule_of_ne _ h

theorem module?_endScan_self {s : Store} {p : Path} {m : Module} (h : s.module? p = some m)
    (d : Nat) : (s.endScan p d).module? p = some m.endScan :=
  module?_updateModule_self _ h

theorem module?_endScan_of_ne (s : Store) {p q : Path} (h : q ≠ p) (d : Nat) :
    (s.endScan p d).module? q = s.module? q :=
  module?_updateModule_of_ne _ h

theorem NotedBelow.endScan {s : Store} {d e : Nat} (h : s.NotedBelow e) (p : Path) (hed : e ≤ d) :
    (s.endScan p d).NotedBelow e :=
  NotedBelow.exitScan (s := s.updateModule p Module.endScan) h hed

end Store

namespace ExportScan

open Query ScanStep

variable {files : FileTree}

/-- What asking the module at `p` for its table, with at most `n` nested scans, comes to. -/
inductive Answered (files : FileTree) :
    Nat → Path → Store → Except Error ExportTable → Store → Prop
  | unloaded {n : Nat} {p : Path} {s : Store} (hm : s.module? p = none) :
      Answered files n p s (.error (.fileNotFound p)) s
  | kept {n : Nat} {p : Path} {s : Store} {m : Module} {t : ExportTable}
      (hm : s.module? p = some m) (ht : m.exports = some t) : Answered files n p s (.ok t) s
  | unfinished {n : Nat} {p : Path} {s : Store} {m : Module} {w : Pending}
      (hm : s.module? p = some m) (ht : m.exports = none) (hw : m.pending = some w) :
      Answered files n p s (.ok w.table) (s.notePartialRead w.depth)
  | exhausted {p : Path} {s : Store} {m : Module} (hm : s.module? p = some m)
      (ht : m.exports = none) (hw : m.pending = none) :
      Answered files 0 p s (.error (m.unresolved "*")) s
  | failed {n : Nat} {p : Path} {s s₁ : Store} {m : Module} {e : Error}
      (hm : s.module? p = some m) (ht : m.exports = none) (hw : m.pending = none)
      (steps : Performs files (tableOf files n) p (m.scanSteps files s.options p) (s.beginScan p)
        (.error e) s₁) :
      Answered files (n + 1) p s (.error (.inFile p e)) (s₁.endScan p s.depth)
  | incomplete {n : Nat} {p : Path} {s s₁ : Store} {m m₁ : Module}
      (hm : s.module? p = some m) (ht : m.exports = none) (hw : m.pending = none)
      (steps : Performs files (tableOf files n) p (m.scanSteps files s.options p) (s.beginScan p)
        (.ok ()) s₁)
      (hm₁ : s₁.module? p = some m₁) (hnoted : s₁.NotedBelow s.depth) :
      Answered files (n + 1) p s (.ok m₁.table) (s₁.endScan p s.depth)
  | completed {n : Nat} {p : Path} {s s₁ : Store} {m m₁ : Module}
      (hm : s.module? p = some m) (ht : m.exports = none) (hw : m.pending = none)
      (steps : Performs files (tableOf files n) p (m.scanSteps files s.options p) (s.beginScan p)
        (.ok ()) s₁)
      (hm₁ : s₁.module? p = some m₁) (hnoted : ¬ s₁.NotedBelow s.depth) :
      Answered files (n + 1) p s (.ok m₁.table)
        ((s₁.endScan p s.depth).updateModule p (·.keep m₁.table))

theorem grows_beginScan (s : Store) (p : Path) : s.Grows (s.beginScan p) :=
  have henter : s.Grows s.enterScan := ⟨rfl, fun _ h => h⟩
  henter.trans (Store.grows_updateModule _ _ _)

theorem grows_endScan (s : Store) (p : Path) (d : Nat) : s.Grows (s.endScan p d) :=
  have hexit : (s.updateModule p Module.endScan).Grows (s.endScan p d) := ⟨rfl, fun _ h => h⟩
  (Store.grows_updateModule _ _ _).trans hexit

theorem Answered.grows {n : Nat} (htable : ∀ k < n, (tableOf files k).Grows) {p : Path}
    {s s' : Store} {r : Except Error ExportTable} (h : Answered files n p s r s') :
    s.Grows s' := by
  cases h with
  | unloaded => exact .refl s
  | kept => exact .refl s
  | unfinished => exact ⟨rfl, fun _ h => h⟩
  | exhausted => exact .refl s
  | failed _ _ _ steps =>
      have hsteps := steps.grows (htable _ (Nat.lt_succ_self _))
      exact ((grows_beginScan s p).trans hsteps).trans (grows_endScan _ _ _)
  | incomplete _ _ _ steps =>
      have hsteps := steps.grows (htable _ (Nat.lt_succ_self _))
      exact ((grows_beginScan s p).trans hsteps).trans (grows_endScan _ _ _)
  | completed _ _ _ steps =>
      have hsteps := steps.grows (htable _ (Nat.lt_succ_self _))
      exact (((grows_beginScan s p).trans hsteps).trans (grows_endScan _ _ _)).trans
        (Store.grows_updateModule _ _ _)

theorem eval_begin (p : Path) (s : Store) : (begin p s.depth).eval s = (.ok (), s.beginScan p) := by
  unfold begin
  rw [eval_bind_ok (eval_modify _ s), eval_update]
  rfl

theorem eval_finish {p : Path} {s : Store} {m : Module} (hm : s.module? p = some m) (d : Nat) :
    (finish p d).eval s = (.ok (m.table, s.isComplete d), s.endScan p d) := by
  unfold finish
  rw [eval_bind_ok (eval_current_of_some hm), eval_bind_ok (eval_get s),
    eval_bind_ok (eval_update p _ s), eval_bind_ok (eval_modify _ _), eval_pure]
  rfl

theorem eval_scan {T : TableOf} (htable : T.Grows) {p : Path} {s : Store} {m : Module}
    (hm : s.module? p = some m) :
    ∃ r s₁ m₁, Performs files T p (m.scanSteps files s.options p) (s.beginScan p) r s₁ ∧
      s₁.module? p = some m₁ ∧
      (scan files T p).eval s =
        match r with
        | .error e => (.error (.inFile p e), s₁.endScan p s.depth)
        | .ok _ =>
            if s₁.isComplete s.depth then
              (.ok (m₁.table, true), (s₁.endScan p s.depth).updateModule p (·.keep m₁.table))
            else (.ok (m₁.table, false), s₁.endScan p s.depth) := by
  have hm₀ := Store.module?_beginScan_self hm
  have hp : ((s.beginScan p).module? p).isSome := by rw [hm₀]; rfl
  have hsteps := @performs files _ p htable (m.scanSteps files s.options p) _ hp
  have heval := @eval_forM_takeStatement files _ p htable
    (m.statements.filter (!·.isImport)) _ hp
  obtain ⟨r, s₁, hrun⟩ : ∃ r s₁, (forM (m.scanSteps files s.options p)
      (perform files T p)).eval (s.beginScan p) = (r, s₁) := ⟨_, _, rfl⟩
  rw [hrun] at hsteps
  obtain ⟨m₁, hm₁⟩ := Option.isSome_iff_exists.1 ((hsteps.grows htable).isSome_module? p hp)
  have houtcome : (Query.observe ((m.statements.filter (!·.isImport)).forM
      (takeStatement files T p))).eval (s.beginScan p) = (.ok r, s₁) := by
    rw [eval_observe, List.forM_eq_forM, heval]
    exact congrArg (fun x => (Except.ok x.1, x.2)) hrun
  refine ⟨r, s₁, m₁, hsteps, hm₁, ?_⟩
  unfold scan
  rw [eval_bind_ok (eval_get s), eval_bind_ok (eval_begin p s),
    eval_bind_ok (eval_current_of_some hm₀)]
  refine (eval_bind_ok houtcome).trans ((eval_bind_ok (eval_finish hm₁ s.depth)).trans ?_)
  cases r with
  | error e => exact eval_throw _ _
  | ok u =>
      cases hc : s₁.isComplete s.depth with
      | false => exact eval_pure _ _
      | true =>
          simp only [if_true]
          rw [eval_bind_ok (eval_update p _ _), eval_pure]
          rfl

theorem eval_tableOf_of_idle {n : Nat} (htable : (tableOf files n).Grows) {p : Path} {s : Store}
    {m : Module} (hm : s.module? p = some m) (ht : m.exports = none) (hw : m.pending = none) :
    Answered files (n + 1) p s ((tableOf files (n + 1) p).eval s).1
      ((tableOf files (n + 1) p).eval s).2 := by
  obtain ⟨r, s₁, m₁, steps, hm₁, hscan⟩ := @eval_scan files _ htable p s m hm
  unfold tableOf
  rw [eval_bind_ok (eval_current_of_some hm), ht, hw]
  cases r with
  | error e =>
      rw [eval_bind_error hscan]
      exact .failed hm ht hw steps
  | ok u =>
      by_cases hc : s₁.isComplete s.depth = true
      · simp only [hc, if_true] at hscan
        rw [eval_bind_ok hscan, eval_pure]
        exact .completed hm ht hw steps hm₁ ((s₁.isComplete_iff _).1 hc)
      · simp only [hc] at hscan
        rw [eval_bind_ok hscan, eval_pure]
        rw [Store.isComplete_iff, Classical.not_not] at hc
        exact .incomplete hm ht hw steps hm₁ hc

theorem eval_tableOf_of_kept {n : Nat} {p : Path} {s : Store} {m : Module} {t : ExportTable}
    (hm : s.module? p = some m) (ht : m.exports = some t) :
    (tableOf files n p).eval s = (.ok t, s) := by
  unfold tableOf
  rw [eval_bind_ok (eval_current_of_some hm), ht, eval_pure]

theorem eval_tableOf {n : Nat} (htable : ∀ k < n, (tableOf files k).Grows) (p : Path) (s : Store) :
    Answered files n p s ((tableOf files n p).eval s).1 ((tableOf files n p).eval s).2 := by
  cases hm : s.module? p with
  | none =>
      unfold tableOf
      rw [eval_bind_error (eval_current_of_none hm)]
      exact .unloaded hm
  | some m =>
      cases ht : m.exports with
      | some t =>
          rw [eval_tableOf_of_kept hm ht]
          exact .kept hm ht
      | none =>
          cases hw : m.pending with
          | some w =>
              unfold tableOf
              rw [eval_bind_ok (eval_current_of_some hm), ht, hw,
                eval_bind_ok (eval_modify _ s), eval_pure]
              exact .unfinished hm ht hw
          | none =>
              cases n with
              | zero =>
                  unfold tableOf
                  rw [eval_bind_ok (eval_current_of_some hm), ht, hw, eval_throw]
                  exact .exhausted hm ht hw
              | succ n => exact eval_tableOf_of_idle (htable n (Nat.lt_succ_self n)) hm ht hw

theorem grows_tableOf (n : Nat) : (tableOf files n).Grows := by
  induction n using Nat.strongRecOn with
  | ind n ih =>
      intro p s s' r h
      have hanswered := eval_tableOf ih p s
      rw [h] at hanswered
      exact hanswered.grows ih

theorem answered {n : Nat} {p : Path} {s s' : Store} {r : Except Error ExportTable}
    (h : (tableOf files n p).eval s = (r, s')) : Answered files n p s r s' := by
  have hanswered := @eval_tableOf files n (fun k _ => grows_tableOf k) p s
  rwa [h] at hanswered

end ExportScan

end Typings
