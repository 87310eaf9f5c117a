import Mathlib.Data.List.Induction
import Typings.Proofs.Reached
import Typings.Proofs.Registered

/-!
# Scans under way

The moments of a run are the stores between queries and those that a scan reaches after some of its
steps.  `Scanning` ties such a moment to the begin of the scan, and `Outcome` lists how asking for
a table at a moment can end; the proofs about runs go by its cases.
-/

namespace Typings

open ExportScan ScanStep

/--
While the scans of `stack` run, a file is asked.  Each of the scans waits for the answer to a step
that asks the next file.
-/
inductive Store.Asking (files : FileTree) (options : ResolverOptions)
    (imported : Path → String → Prop) : List Path → Path → Store → Prop
  | rest {s : Store} (h : s.Reached files options imported) (q : Path) :
      Asking files options imported [] q s
  | next {n : Nat} {stack : List Path} {p q : Path} {s s' : Store} {m : Module}
      {before after : List ScanStep} {i : ScanStep}
      (h : Asking files options imported stack p s) (hm : s.module? p = some m)
      (ht : m.exports = none) (hw : m.pending = none)
      (hsteps : files.scanSteps options p = before ++ i :: after) (hq : i.asked? = some q)
      (hperforms : Performs files (tableOf files n) p before (s.beginScan p) (.ok ()) s') :
      Asking files options imported (p :: stack) q s'

/-- The stores that a run goes through, with the stack of the scans that are running. -/
inductive Store.Moment (files : FileTree) (options : ResolverOptions)
    (imported : Path → String → Prop) : List Path → Store → Prop
  | rest {s : Store} (h : s.Reached files options imported) : Moment files options imported [] s
  | scan {n : Nat} {stack : List Path} {p : Path} {s s' : Store} {m : Module}
      {before after : List ScanStep} {r : Except Error Unit}
      (h : s.Asking files options imported stack p) (hm : s.module? p = some m)
      (ht : m.exports = none) (hw : m.pending = none)
      (hsteps : files.scanSteps options p = before ++ after)
      (hperforms : Performs files (tableOf files n) p before (s.beginScan p) r s') :
      Moment files options imported (p :: stack) s'

variable {files : FileTree} {options : ResolverOptions} {imported : Path → String → Prop}
  {stack : List Path} {s s' : Store}

namespace Store

theorem Asking.running_leads {p : Path} (h : s.Asking files options imported stack p) :
    s.Running files options stack ∧ ∀ q ∈ stack, files.Leads options q p := by
  induction h with
  | rest h q => exact ⟨h.running, by simp⟩
  | @next n _ p q _ _ _ before i after _ hm ht hw hsteps hq hperforms ih =>
      have hbegun := ih.1.beginScan hm ht hw ih.2
      have hrunning := (hperforms.running (tame_tableOf n) hbegun fun j hj => by
        rw [hsteps]
        exact List.mem_append_left _ hj).1
      have hi := FileTree.mem_scanSteps_of_eq hsteps
      exact ⟨hrunning, hrunning.leads_of_asks (FileTree.asks_of_asked? hi hq)⟩

theorem Asking.running {p : Path} (h : s.Asking files options imported stack p) :
    s.Running files options stack := h.running_leads.1

theorem Asking.leads {p : Path} (h : s.Asking files options imported stack p) :
    ∀ q ∈ stack, files.Leads options q p := h.running_leads.2

theorem Asking.moment {p : Path} (h : s.Asking files options imported stack p) :
    s.Moment files options imported stack := by
  cases h with
  | rest h => exact .rest h
  | next h hm ht hw hsteps _ hperforms => exact .scan h hm ht hw hsteps hperforms

theorem Moment.running (h : s.Moment files options imported stack) :
    s.Running files options stack := by
  cases h with
  | rest h => exact h.running
  | scan h hm ht hw hsteps hperforms =>
      refine (hperforms.running (tame_tableOf _) (h.running.beginScan hm ht hw h.leads) ?_).1
      intro i hi
      rw [hsteps]
      exact List.mem_append_left _ hi

end Store

/--
The scan of the module at `p`, begun in `s₀`, has performed the steps `done`.  The store is `s`, and
the module is `m`.
-/
structure Scanning (files : FileTree) (options : ResolverOptions)
    (imported : Path → String → Prop) (n : Nat) (stack : List Path) (p : Path) (s₀ : Store)
    (done : List ScanStep) (s : Store) (m : Module) : Prop where
  asking : s₀.Asking files options imported stack p
  idle : ∃ m₀, s₀.module? p = some m₀ ∧ m₀.exports = none ∧ m₀.pending = none
  steps : ∃ rest, files.scanSteps options p = done ++ rest
  performs : Performs files (tableOf files n) p done (s₀.beginScan p) (.ok ()) s
  module : s.module? p = some m

namespace Scanning

variable {n : Nat} {p : Path} {s₀ : Store} {done : List ScanStep} {m : Module}

theorem here (h : Scanning files options imported n stack p s₀ done s m) :
    s.Moment files options imported (p :: stack) := by
  rcases h.idle with ⟨m₀, hm₀, ht, hw⟩
  rcases h.steps with ⟨rest, hsteps⟩
  exact .scan h.asking hm₀ ht hw hsteps h.performs

theorem running (h : Scanning files options imported n stack p s₀ done s m) :
    s.Running files options (p :: stack) := h.here.running

theorem exists_scanning (hasking : s₀.Asking files options imported stack p) {m₀ : Module}
    (hm₀ : s₀.module? p = some m₀) (ht : m₀.exports = none) (hw : m₀.pending = none)
    {rest : List ScanStep} (hsteps : files.scanSteps options p = done ++ rest)
    (hperforms : Performs files (tableOf files n) p done (s₀.beginScan p) (.ok ()) s) :
    ∃ m, Scanning files options imported n stack p s₀ done s m := by
  have hmoment := Store.Moment.scan hasking hm₀ ht hw hsteps hperforms
  obtain ⟨m, hm⟩ := Option.isSome_iff_exists.1
    (hmoment.running.isSome_of_mem p (List.mem_cons_self ..))
  exact ⟨m, hasking, ⟨m₀, hm₀, ht, hw⟩, ⟨rest, hsteps⟩, hperforms, hm⟩

theorem mem_scanSteps (h : Scanning files options imported n stack p s₀ done s m) :
    ∀ i ∈ done, i ∈ files.scanSteps options p := by
  rcases h.steps with ⟨rest, hsteps⟩
  intro i hi
  rw [hsteps]
  exact List.mem_append_left _ hi

theorem steps_of_next {i : ScanStep} {m' : Module}
    (h : Scanning files options imported n stack p s₀ (done ++ [i]) s' m') :
    ∃ rest, files.scanSteps options p = done ++ i :: rest := by
  rcases h.steps with ⟨rest, hsteps⟩
  exact ⟨rest, by rw [hsteps, List.append_assoc]; rfl⟩

theorem advance (h : Scanning files options imported n stack p s₀ done s m) {i : ScanStep}
    {rest : List ScanStep} (hsteps : files.scanSteps options p = done ++ i :: rest)
    (heffect : Effect files (tableOf files n) p i s (.ok ()) s') :
    ∃ m', Scanning files options imported n stack p s₀ (done ++ [i]) s' m' ∧
      Advances files (tableOf files n) p i s m s' m' := by
  have hi := FileTree.mem_scanSteps_of_eq hsteps
  obtain ⟨m', hm', hadvance⟩ := heffect.advances (tame_tableOf n) h.running h.module hi
  refine ⟨m', ⟨h.asking, h.idle, ⟨rest, ?_⟩, ?_, hm'⟩, hadvance⟩
  · rw [hsteps, List.append_assoc]
    rfl
  · exact h.performs.append (.step heffect (.done s'))

theorem eq_beginScan (h : Scanning files options imported n stack p s₀ [] s m) :
    ∃ m₀ : Module, m = m₀.beginScan s₀.depth := by
  rcases h.idle with ⟨m₀, hm₀, -, -⟩
  cases h.performs
  exact ⟨m₀, Option.some.inj (h.module.symm.trans (Store.module?_beginScan_self hm₀))⟩

theorem of_next {i : ScanStep} {m' : Module}
    (h : Scanning files options imported n stack p s₀ (done ++ [i]) s' m') :
    ∃ s m, Scanning files options imported n stack p s₀ done s m ∧
      Advances files (tableOf files n) p i s m s' m' := by
  rcases h.idle with ⟨m₀, hm₀, ht, hw⟩
  rcases h.steps_of_next with ⟨rest, hsteps⟩
  rcases h.performs.of_append with ⟨s₁, hdone, hlast⟩ | ⟨e, hr, -⟩
  · obtain ⟨m₁, hscan⟩ := exists_scanning h.asking hm₀ ht hw hsteps hdone
    cases hlast with
    | step heffect htail =>
        cases htail
        obtain ⟨m₂, hnext, hstep⟩ := hscan.advance hsteps heffect
        obtain rfl := Option.some.inj (hnext.module.symm.trans h.module)
        exact ⟨s₁, m₁, hscan, hstep⟩
  · cases hr

theorem induct {motive : List ScanStep → Store → Module → Prop}
    (hbegun : ∀ m₀, s₀.module? p = some m₀ → m₀.exports = none → m₀.pending = none →
      motive [] (s₀.beginScan p) (m₀.beginScan s₀.depth))
    (hadvance : ∀ done i s m s' m', Scanning files options imported n stack p s₀ done s m →
      Scanning files options imported n stack p s₀ (done ++ [i]) s' m' →
      i ∈ files.scanSteps options p → Advances files (tableOf files n) p i s m s' m' →
      motive done s m → motive (done ++ [i]) s' m')
    (h : Scanning files options imported n stack p s₀ done s m) : motive done s m := by
  induction done using List.reverseRecOn generalizing s m with
  | nil =>
      rcases h.idle with ⟨m₀, hm₀, ht, hw⟩
      cases h.performs
      obtain rfl := Option.some.inj ((Store.module?_beginScan_self hm₀).symm.trans h.module)
      exact hbegun m₀ hm₀ ht hw
  | append_singleton done i ih =>
      rcases h.steps_of_next with ⟨rest, hsteps⟩
      rcases h.of_next with ⟨s₁, m₁, hscan, hstep⟩
      exact hadvance done i _ _ _ _ hscan h (FileTree.mem_scanSteps_of_eq hsteps) hstep (ih hscan)

theorem locals (h : Scanning files options imported n stack p s₀ done s m) :
    m.LocalsOf p done :=
  h.induct (motive := fun done _ m => m.LocalsOf p done) (fun m₀ _ _ _ => m₀.locals_beginScan _)
    fun _ _ _ _ _ _ _ _ _ hadvance hlocals => hadvance.locals hlocals

theorem evolves (h : Scanning files options imported n stack p s₀ done s m) {i : ScanStep}
    (hi : i ∈ files.scanSteps options p) (hadvance : Advances files (tableOf files n) p i s m s' m')
    (hm' : s'.module? p = some m') : m.table.Grows m'.table ∧ ∀ d, s.NotedBelow d → s'.NotedBelow d := by
  obtain ⟨-, hevolves⟩ := (hadvance.effect h.module).running (tame_tableOf n) h.running hi
  obtain ⟨m₁, hm₁, he⟩ := hevolves.loaded p m h.module
  obtain rfl := Option.some.inj (hm₁.symm.trans hm')
  exact ⟨he.table_grows, hevolves.notedBelow⟩

/-- Every step of a scan has been performed at some moment of it. -/
theorem at_step (h : Scanning files options imported n stack p s₀ done s m)
    {before after : List ScanStep} {i : ScanStep} (hdone : done = before ++ i :: after) :
    ∃ s₁ m₁ s₂ m₂, Scanning files options imported n stack p s₀ before s₁ m₁ ∧
      Scanning files options imported n stack p s₀ (before ++ [i]) s₂ m₂ ∧
      Advances files (tableOf files n) p i s₁ m₁ s₂ m₂ ∧ m₂.table.Grows m.table := by
  refine h.induct (motive := fun done _ m => ∀ before i after, done = before ++ i :: after →
    ∃ s₁ m₁ s₂ m₂, Scanning files options imported n stack p s₀ before s₁ m₁ ∧
      Scanning files options imported n stack p s₀ (before ++ [i]) s₂ m₂ ∧
      Advances files (tableOf files n) p i s₁ m₁ s₂ m₂ ∧ m₂.table.Grows m.table)
    (fun m₀ _ _ _ before i after heq => by simp at heq) ?_ before i after hdone
  intro done j s m s' m' hscan hnext hj hadvance ih before i after heq
  rcases List.eq_nil_or_concat after with rfl | ⟨after, j', rfl⟩
  · obtain ⟨rfl, hlast⟩ := List.append_inj' heq rfl
    obtain rfl := (List.cons.inj hlast).1
    exact ⟨s, m, s', m', hscan, hnext, hadvance, .refl _⟩
  · rw [List.concat_eq_append, ← List.cons_append, ← List.append_assoc] at heq
    obtain ⟨s₁, m₁, s₂, m₂, hbefore, hafter, hstep, hgrows⟩ :=
      ih before i after (List.append_inj' heq rfl).1
    exact ⟨s₁, m₁, s₂, m₂, hbefore, hafter, hstep,
      hgrows.trans (hscan.evolves hj hadvance hnext.module).1⟩

theorem has_itself (h : Scanning files options imported n stack p s₀ done s m)
    {before after : List ScanStep} {l : LocalStep} (hdone : done = before ++ .own l :: after)
    {slot : Slot} {a : Identity} (hl : l.Provides p before slot a) : m.table.Has slot := by
  obtain ⟨s₁, m₁, s₂, m₂, hbefore, -, hadvance, hgrows⟩ := h.at_step hdone
  have hpending := (hbefore.running.pending_iff_mem hbefore.module).2 (List.mem_cons_self ..)
  cases hadvance with
  | own hf =>
      apply hgrows.has
      rcases slot.renamed_or with ⟨n, rfl⟩ | hslot
      · trivial
      · have hvalid := (hbefore.locals.change_ok_iff l).1 ⟨_, hf⟩
        rw [hbefore.locals.table_change hpending hf, LocalStep.has_register_iff hvalid _ hslot]
        exact .inr ⟨a, hl⟩

/-- While a file is asked, it is so in turn by all scans that run. -/
theorem asking_next (h : Scanning files options imported n stack p s₀ done s m) {i : ScanStep}
    {rest : List ScanStep} (hsteps : files.scanSteps options p = done ++ i :: rest) {q : Path}
    (hq : i.asked? = some q) : s.Asking files options imported (p :: stack) q := by
  rcases h.idle with ⟨m₀, hm₀, ht, hw⟩
  exact .next h.asking hm₀ ht hw hsteps hq h.performs

theorem grows_outer (h : Scanning files options imported n stack p s₀ done s m) {r : Path}
    (hr : r ∈ stack) {m₀ m' : Module} (hm₀ : s₀.module? r = some m₀) (hm' : s.module? r = some m') :
    m₀.table.Grows m'.table := by
  rcases h.idle with ⟨mp, hmp, ht, hw⟩
  have hbegun := h.asking.running.beginScan hmp ht hw h.asking.leads
  have hevolves := (h.performs.running (tame_tableOf n) hbegun h.mem_scanSteps).2
  have hne : r ≠ p := by
    rintro rfl
    exact h.asking.running.not_mem_of_idle hmp hw hr
  obtain ⟨m₁, hm₁, hgrows⟩ :=
    hevolves.loaded r m₀ ((s₀.module?_beginScan_of_ne hne).trans hm₀)
  obtain rfl := Option.some.inj (hm₁.symm.trans hm')
  exact hgrows.table_grows

end Scanning

theorem ScanStep.append_cons_cases {done done' rest rest' : List ScanStep} {i i' : ScanStep}
    (h : done ++ i :: rest = done' ++ i' :: rest') :
    (done = done' ∧ i = i') ∨ (∃ after, done' = done ++ i :: after) ∨
      ∃ after, done = done' ++ i' :: after := by
  rcases List.append_eq_append_iff.1 h with ⟨between, rfl, hrest⟩ | ⟨between, rfl, hrest⟩
  · cases between with
    | nil => exact .inl ⟨(List.append_nil done).symm, (List.cons.inj hrest).1⟩
    | cons j between => exact .inr (.inl ⟨between, by rw [(List.cons.inj hrest).1]⟩)
  · cases between with
    | nil => exact .inl ⟨List.append_nil done', (List.cons.inj hrest).1.symm⟩
    | cons j between => exact .inr (.inr ⟨between, by rw [(List.cons.inj hrest).1]⟩)

/-- A running scan that the asked file leads back to waits for a file that leads back to it. -/
theorem Store.Asking.exists_waiting {p q : Path} (h : s.Asking files options imported stack q)
    (hp : p ∈ stack) (hback : files.Leads options q p) {m : Module} (hm : s.module? p = some m) :
    ∃ n outer s₀ done s₁ m₁ i after r,
      Scanning files options imported n outer p s₀ done s₁ m₁ ∧
      files.scanSteps options p = done ++ i :: after ∧ i.asked? = some r ∧
      files.Leads options r p ∧ m₁.table.Grows m.table := by
  induction h generalizing m with
  | rest => cases hp
  | @next n stack p' q s₀ s mp before after i hasking hmp ht hw hsteps hq hperforms ih =>
      obtain ⟨m₁, hscan⟩ := Scanning.exists_scanning hasking hmp ht hw hsteps hperforms
      rcases List.mem_cons.1 hp with rfl | houter
      · obtain rfl := Option.some.inj (hscan.module.symm.trans hm)
        exact ⟨n, stack, s₀, before, s, m₁, i, after, q, hscan, hsteps, hq, hback, .refl _⟩
      · have hasks := FileTree.asks_of_asked? (FileTree.mem_scanSteps_of_eq hsteps) hq
        obtain ⟨m₀, hm₀⟩ := Option.isSome_iff_exists.1 (hasking.running.isSome_of_mem p houter)
        obtain ⟨n', outer, s', done, s₁, m₂, j, after', r, hwaiting, hsteps', hr, hback', hgrows⟩ :=
          ih houter (.of_asks hasks hback) hm₀
        exact ⟨n', outer, s', done, s₁, m₂, j, after', r, hwaiting, hsteps', hr, hback',
          hgrows.trans (hscan.grows_outer houter hm₀ hm)⟩

section Induction

variable {I : Store → Prop} (hreached : ∀ s, s.Reached files options imported → I s)
  (hscanning : ∀ n stack p s₀ done s m,
    Scanning files options imported n stack p s₀ done s m → I s₀ → I s)

include hreached hscanning

theorem Store.Asking.induct {p : Path} (h : s.Asking files options imported stack p) : I s := by
  induction h with
  | rest h => exact hreached _ h
  | next h hm ht hw hsteps _ hperforms ih =>
      obtain ⟨m₁, hscan⟩ := Scanning.exists_scanning h hm ht hw hsteps hperforms
      exact hscanning _ _ _ _ _ _ _ hscan ih

theorem Store.Moment.induct (heffect : ∀ n stack p s₀ done i rest s m s' r,
      Scanning files options imported n stack p s₀ done s m →
      files.scanSteps options p = done ++ i :: rest → Effect files (tableOf files n) p i s r s' →
      I s → I s')
    (h : s.Moment files options imported stack) : I s := by
  cases h with
  | rest h => exact hreached s h
  | @scan n stack p s₀ _ m before after r hasking hm ht hw hsteps hperforms =>
      have hs₀ := hasking.induct hreached hscanning
      cases r with
      | ok u =>
          obtain ⟨m₁, hscan⟩ := Scanning.exists_scanning hasking hm ht hw hsteps hperforms
          exact hscanning _ _ _ _ _ _ _ hscan hs₀
      | error e =>
          rcases hperforms.of_error with ⟨done, i, rest, s₁, rfl, hdone, hlast⟩
          rw [List.append_assoc] at hsteps
          obtain ⟨m₁, hscan⟩ := Scanning.exists_scanning hasking hm ht hw hsteps hdone
          exact heffect _ _ _ _ _ _ _ _ _ _ _ hscan hsteps hlast
            (hscanning _ _ _ _ _ _ _ hscan hs₀)

end Induction

def Scanned (files : FileTree) (options : ResolverOptions) (imported : Path → String → Prop)
    (p : Path) (m : Module) : Prop :=
  ∃ n stack s₀ s, Scanning files options imported n stack p s₀ (files.scanSteps options p) s m

theorem Scanned.locals {p : Path} {m : Module} (h : Scanned files options imported p m) :
    m.LocalsOf p (files.scanSteps options p) := by
  rcases h with ⟨n, stack, s₀, s, hscan⟩
  exact hscan.locals

/-! ## How asking for a table ends -/

namespace ExportScan

/-- What asking for the table of `p` comes to, while the scans of `stack` run. -/
inductive Outcome (files : FileTree) (options : ResolverOptions)
    (imported : Path → String → Prop) :
    Nat → List Path → Path → Store → Except Error ExportTable → Store → Prop
  | unloaded {n : Nat} {stack : List Path} {p : Path} {s : Store} (hm : s.module? p = none) :
      Outcome files options imported n stack p s (.error (.fileNotFound p)) s
  | kept {n : Nat} {stack : List Path} {p : Path} {s : Store} {m : Module} {t : ExportTable}
      (hm : s.module? p = some m) (ht : m.exports = some t) :
      Outcome files options imported n stack p s (.ok t) s
  | unfinished {n : Nat} {stack : List Path} {p : Path} {s : Store} {m : Module} {w : Pending}
      (hm : s.module? p = some m) (ht : m.exports = none) (hw : m.pending = some w) :
      Outcome files options imported n stack p s (.ok m.table) (s.notePartialRead w.depth)
  | exhausted {stack : List Path} {p : Path} {s : Store} {m : Module}
      (hm : s.module? p = some m) (ht : m.exports = none) (hw : m.pending = none) :
      Outcome files options imported 0 stack p s (.error (m.unresolved "*")) s
  | failed {n : Nat} {stack : List Path} {p : Path} {s s₁ s₂ : Store} {m₁ : Module}
      {done rest : List ScanStep} {i : ScanStep} {e : Error}
      (hscan : Scanning files options imported n stack p s done s₁ m₁)
      (hsteps : files.scanSteps options p = done ++ i :: rest)
      (heffect : Effect files (tableOf files n) p i s₁ (.error e) s₂) :
      Outcome files options imported (n + 1) stack p s (.error (.inFile p e))
        (s₂.endScan p stack.length)
  | incomplete {n : Nat} {stack : List Path} {p : Path} {s s₁ : Store} {m₁ : Module}
      (hscan : Scanning files options imported n stack p s (files.scanSteps options p) s₁ m₁)
      (hnoted : s₁.NotedBelow stack.length) :
      Outcome files options imported (n + 1) stack p s (.ok m₁.table) (s₁.endScan p stack.length)
  | completed {n : Nat} {stack : List Path} {p : Path} {s s₁ : Store} {m₁ : Module}
      (hscan : Scanning files options imported n stack p s (files.scanSteps options p) s₁ m₁)
      (hnoted : ¬ s₁.NotedBelow stack.length) :
      Outcome files options imported (n + 1) stack p s (.ok m₁.table)
        ((s₁.endScan p stack.length).updateModule p (·.keep m₁.table))

theorem outcome {n : Nat} {p : Path} {r : Except Error ExportTable}
    (h : s.Asking files options imported stack p) (heval : (tableOf files n p).eval s = (r, s')) :
    Outcome files options imported n stack p s r s' := by
  have hrunning := h.running
  have hperforms : ∀ {k m r s₁}, s.module? p = some m →
      Performs files (tableOf files k) p (m.scanSteps files s.options p) (s.beginScan p) r s₁ →
      Performs files (tableOf files k) p (files.scanSteps options p) (s.beginScan p) r s₁ := by
    intro k m r s₁ hm steps
    rwa [hrunning.scanSteps_eq hm] at steps
  cases answered heval with
  | unloaded hm => exact .unloaded hm
  | kept hm ht => exact .kept hm ht
  | @unfinished _ _ _ m w hm ht hw =>
      have htable : w.table = m.table := by simp [Module.table, hw]
      rw [htable]
      exact .unfinished hm ht hw
  | exhausted hm ht hw => exact .exhausted hm ht hw
  | @failed n _ _ _ _ _ hm ht hw steps =>
      obtain ⟨done, i, rest, s₂, hsteps, hdone, heffect⟩ := (hperforms hm steps).of_error
      obtain ⟨m₂, hscan⟩ := Scanning.exists_scanning h hm ht hw hsteps hdone
      rw [hrunning.depth_eq]
      exact .failed hscan hsteps heffect
  | incomplete hm ht hw steps hm₁ hnoted =>
      rw [hrunning.depth_eq] at hnoted ⊢
      exact .incomplete ⟨h, ⟨_, hm, ht, hw⟩, ⟨[], by simp⟩, hperforms hm steps, hm₁⟩ hnoted
  | completed hm ht hw steps hm₁ hnoted =>
      rw [hrunning.depth_eq] at hnoted ⊢
      exact .completed ⟨h, ⟨_, hm, ht, hw⟩, ⟨[], by simp⟩, hperforms hm steps, hm₁⟩ hnoted

end ExportScan

/-- During the scan of `p`, the module `m` at `q` has answered with the table `t`. -/
def Answers (files : FileTree) (options : ResolverOptions) (imported : Path → String → Prop)
    (p q : Path) (m : Module) (t : ExportTable) : Prop :=
  ∃ n stack s s', s.Asking files options imported (p :: stack) q ∧
    (tableOf files n q).eval s = (.ok t, s') ∧ s'.module? q = some m

theorem Store.Asking.exists_answers {n : Nat} {p q : Path} {t : ExportTable}
    (h : s.Asking files options imported (p :: stack) q)
    (heval : (tableOf files n q).eval s = (.ok t, s')) :
    ∃ mq, s'.module? q = some mq ∧ Answers files options imported p q mq t := by
  have hloaded : (s'.module? q).isSome := by
    cases outcome h heval with
    | kept hm _ => rw [hm]; rfl
    | unfinished hm _ _ => rw [Store.module?_notePartialRead, hm]; rfl
    | incomplete hscan _ => rw [Store.module?_endScan_self hscan.module]; rfl
    | completed hscan _ =>
        rw [Store.module?_updateModule_self _ (Store.module?_endScan_self hscan.module _)]
        rfl
  obtain ⟨mq, hmq⟩ := Option.isSome_iff_exists.1 hloaded
  exact ⟨mq, hmq, n, stack, s, s', h, heval, hmq⟩

/-! ## What a scan has listed -/

namespace Scanning

variable {n : Nat} {p q : Path} {s₀ : Store} {done before after : List ScanStep} {m : Module}

theorem steps_of_append {i : ScanStep} (h : Scanning files options imported n stack p s₀ done s m)
    (hdone : done = before ++ i :: after) :
    ∃ rest, files.scanSteps options p = before ++ i :: rest := by
  rcases h.steps with ⟨rest, hsteps⟩
  exact ⟨after ++ rest, by rw [hsteps, hdone, List.append_assoc, List.cons_append]⟩

theorem merged (h : Scanning files options imported n stack p s₀ done s m)
    (hdone : done = before ++ .merge q :: after) :
    ∃ mq t, Answers files options imported p q mq t ∧ ∀ slot, t.Has slot → m.table.Has slot := by
  obtain ⟨rest, hsteps⟩ := h.steps_of_append hdone
  obtain ⟨s₁, m₁, s₂, m₂, hbefore, -, hadvance, hgrows⟩ := h.at_step hdone
  have hpending := (hbefore.running.pending_iff_mem hbefore.module).2 (List.mem_cons_self ..)
  cases hadvance with
  | merge heval =>
      obtain ⟨mq, -, hanswers⟩ := (hbefore.asking_next hsteps rfl).exists_answers heval
      refine ⟨mq, _, hanswers, fun slot hslot => hgrows.has ?_⟩
      rw [Module.table_updatePending hpending, ExportTable.has_merge_iff]
      exact .inr hslot

theorem taken (h : Scanning files options imported n stack p s₀ done s m) {b : Binding}
    (hdone : done = before ++ .take q b :: after) :
    ∃ mq t found, Answers files options imported p q mq t ∧
      mq.lookupExport t b.name = .ok found ∧ ∀ slot, b.Fills found slot → m.table.Has slot := by
  obtain ⟨rest, hsteps⟩ := h.steps_of_append hdone
  obtain ⟨s₁, m₁, s₂, m₂, hbefore, -, hadvance, hgrows⟩ := h.at_step hdone
  have hpending := (hbefore.running.pending_iff_mem hbefore.module).2 (List.mem_cons_self ..)
  cases hadvance with
  | @take _ _ _ s₃ _ mq table found heval hmq hfound =>
      refine ⟨mq, table, found, ⟨n, stack, s₁, s₃, hbefore.asking_next hsteps rfl, heval, hmq⟩,
        hfound, fun slot hfills => hgrows.has ?_⟩
      rcases slot.renamed_or with ⟨n, rfl⟩ | hslot
      · trivial
      · rw [Module.table_addTaken hpending, ExportTable.has_addBinding_iff _ _ _ hslot]
        exact .inr hfills

theorem has_default (h : Scanning files options imported n stack p s₀ done s m)
    (hgiven : DefaultGiven p done) : m.table.Has .default := by
  rcases hgiven with ⟨before, i, after, hdone, hgives⟩
  cases i with
  | own l =>
      obtain ⟨a, ha⟩ := hgives
      exact h.has_itself hdone ha
  | visit file => cases hgives
  | merge q => cases hgives
  | take q b =>
      obtain ⟨mq, t, found, -, -, hfills⟩ := h.taken hdone
      exact hfills .default (.inr hgives)

end Scanning

end Typings
