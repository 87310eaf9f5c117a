import Typings.Proofs.Session
import Typings.Proofs.Unrenamed

/-!
# Failed scans repeated

A scan that fails leaves more modules loaded and more tables kept than it found.  Where nothing is
renamed, a second scan does the same steps and fails in the same way: a module whose table was kept
meanwhile answers with the very table that its scan gave the first time, and a module whose table
was not kept is scanned once more.
-/

namespace Typings

open ExportScan ScanStep

variable {files : FileTree} {options : ResolverOptions} {stack : List Path} {f s s' s₁ : Store}

/-! ## Results determine the run -/

theorem FileTree.Loads.eval_eq {p : Path} {r : Except Error Path} (h : files.Loads p s r s') :
    (files.load p).eval s = (r, s') := by
  rcases heval : (files.load p).eval s with ⟨r', s''⟩
  cases h <;> cases loads heval <;> simp_all

namespace ExportScan

theorem Answered.unique {n : Nat} {p : Path} {r r' : Except Error ExportTable}
    (h : Answered files n p s r s₁) (h' : Answered files n p s r' s') : r = r' ∧ s₁ = s' := by
  have hidle : ∀ {m m' : Module}, s.module? p = some m → s.module? p = some m' → m = m' :=
    fun hm hm' => Option.some.inj (hm.symm.trans hm')
  cases h with
  | unloaded hm => cases h' <;> simp_all
  | kept hm ht => cases h' <;> simp_all
  | unfinished hm ht hw => cases h' <;> simp_all
  | exhausted hm ht hw => cases h' <;> simp_all
  | failed hm ht hw steps =>
      cases h' with
      | failed hm' _ _ steps' =>
          obtain rfl := hidle hm hm'
          obtain ⟨hr, rfl⟩ := steps.unique steps'
          simp_all
      | incomplete hm' _ _ steps' | completed hm' _ _ steps' =>
          obtain rfl := hidle hm hm'
          exact absurd (steps.unique steps').1 (by simp)
      | unloaded | kept | unfinished => simp_all
  | incomplete hm ht hw steps hm₁ hnoted =>
      cases h' with
      | incomplete hm' _ _ steps' hm₁' _ | completed hm' _ _ steps' hm₁' hclean =>
          obtain rfl := hidle hm hm'
          obtain ⟨-, rfl⟩ := steps.unique steps'
          simp_all
      | failed hm' _ _ steps' =>
          obtain rfl := hidle hm hm'
          exact absurd (steps.unique steps').1 (by simp)
      | unloaded | kept | unfinished => simp_all
  | completed hm ht hw steps hm₁ hclean =>
      cases h' with
      | incomplete hm' _ _ steps' hm₁' _ | completed hm' _ _ steps' hm₁' _ =>
          obtain rfl := hidle hm hm'
          obtain ⟨-, rfl⟩ := steps.unique steps'
          simp_all
      | failed hm' _ _ steps' =>
          obtain rfl := hidle hm hm'
          exact absurd (steps.unique steps').1 (by simp)
      | unloaded | kept | unfinished => simp_all

theorem Answered.eval_eq {n : Nat} {p : Path} {r : Except Error ExportTable}
    (h : Answered files n p s r s') : (tableOf files n p).eval s = (r, s') := by
  rcases heval : (tableOf files n p).eval s with ⟨r', s''⟩
  obtain ⟨rfl, rfl⟩ := h.unique (answered heval)
  rfl

end ExportScan

/-! ## A run beside an earlier one -/

namespace Store

def EndsIn {α : Type} (f : Store) : Except Error α → Store → Prop
  | .ok _, s => s.Before f
  | .error _, s => ∀ q, f.bare? q = s.bare? q ∧ f.kept? q = s.kept? q

theorem EndsIn.before {α : Type} {r : Except Error α} (h : f.EndsIn r s) : s.Before f := by
  cases r with
  | ok a => exact h
  | error e => exact .of_eq (fun q => (h q).1) fun q => (h q).2

/--
The store `s'` is that of a run which has got as far as another one in the store `s`, but knows
from the beginning what the other one knows in the end, in `f`.
-/
structure Ahead (f s s' : Store) : Prop where
  bare : ∀ q, s'.bare? q = f.bare? q
  kept : ∀ q, s'.kept? q = f.kept? q
  floor_eq : s'.partialFloor = s.partialFloor
  scanning : ∀ q m, s.module? q = some m → m.pending.isSome → s'.module? q = some m

theorem Before.of_updateModule {p : Path} {g : Module → Module}
    (hg : ∀ m, (g m).bare = m.bare ∧ (g m).exports = m.exports)
    (h : (s.updateModule p g).Before f) : s.Before f :=
  (s.before_updateModule fun m _ => hg m).trans id h

theorem Ahead.updateModule (h : f.Ahead s s') {p : Path} {m : Module} (hm : s.module? p = some m)
    (hw : m.pending.isSome) {g : Module → Module}
    (hg : (g m).bare = m.bare ∧ (g m).exports = m.exports) :
    f.Ahead (s.updateModule p g) (s'.updateModule p g) := by
  have hm' := h.scanning p m hm hw
  have hsame : ∀ m', s'.module? p = some m' → m' = m := fun m' hm'' =>
    Option.some.inj (hm''.symm.trans hm')
  refine ⟨fun q => ?_, fun q => ?_, h.floor_eq, fun q m₁ hm₁ hw₁ => ?_⟩
  · rw [s'.bare?_updateModule fun m' hm'' => hsame m' hm'' ▸ hg.1, h.bare]
  · rw [s'.kept?_updateModule fun m' hm'' => hsame m' hm'' ▸ hg.2, h.kept]
  · by_cases hq : q = p
    · subst hq
      rw [module?_updateModule_self g hm] at hm₁
      rw [module?_updateModule_self g hm', hm₁]
    · rw [module?_updateModule_of_ne g hq] at hm₁ ⊢
      exact h.scanning q m₁ hm₁ hw₁

theorem Ahead.module? (h : f.Ahead s s') (hbefore : s.Before f) {q : Path} {m : Module}
    (hm : s.module? q = some m) : ∃ m', s'.module? q = some m' ∧ m'.bare = m.bare := by
  have hbare := hbefore.bare q m.bare (by rw [bare?, hm, Option.map_some])
  rw [← h.bare] at hbare
  exact Option.map_eq_some_iff.1 hbare

theorem Ahead.isSome_module? (h : f.Ahead s s') (hbefore : s.Before f) {q : Path}
    (hq : (s.module? q).isSome) : (s'.module? q).isSome := by
  obtain ⟨m, hm⟩ := Option.isSome_iff_exists.1 hq
  obtain ⟨m', hm', -⟩ := h.module? hbefore hm
  rw [hm']
  rfl

theorem Ahead.module?_eq_none (h : f.Ahead s s') {α : Type} {e : Error}
    (hends : f.EndsIn (.error e : Except Error α) s) {q : Path} (hq : s.module? q = none) :
    s'.module? q = none := by
  rw [← bare?_eq_none, h.bare, (hends q).1, bare?_eq_none, hq]

theorem Ahead.beginScan (h : f.Ahead s s') (hs : s.Running files options stack)
    (hs' : s'.Running files options stack) {p : Path} {m m' : Module} (hm : s.module? p = some m)
    (hm' : s'.module? p = some m') (ht : m.exports = none) (ht' : m'.exports = none)
    (hbare : m'.bare = m.bare) : f.Ahead (s.beginScan p) (s'.beginScan p) := by
  have hbegun : m'.beginScan s'.depth = m.beginScan s.depth := by
    rw [hs'.depth_eq, ← hs.depth_eq]
    cases m
    cases m'
    simp_all [Module.bare, Module.beginScan]
  refine ⟨fun q => ?_, fun q => ?_, h.floor_eq, fun q m₁ hm₁ hw₁ => ?_⟩
  · rw [bare?_beginScan, h.bare]
  · rw [kept?_beginScan, h.kept]
  · by_cases hq : q = p
    · subst hq
      rw [module?_beginScan_self hm']
      rw [module?_beginScan_self hm] at hm₁
      rw [hbegun, hm₁]
    · rw [module?_beginScan_of_ne _ hq] at hm₁ ⊢
      exact h.scanning q m₁ hm₁ hw₁

/-- A module that is to be scanned and not kept in the end is to be scanned in the later run too. -/
theorem Ahead.idle (h : f.Ahead s s') (hs : s.Running files options stack)
    (hs' : s'.Running files options stack) (hbefore : s.Before f) {p : Path} {m : Module}
    (hm : s.module? p = some m) (hw : m.pending = none) (hunkept : f.kept? p = none) :
    ∃ m', s'.module? p = some m' ∧ m'.exports = none ∧ m'.pending = none ∧ m'.bare = m.bare := by
  obtain ⟨m', hm', hbare⟩ := h.module? hbefore hm
  refine ⟨m', hm', ?_, ?_, hbare⟩
  · rw [← Store.kept?_of_module? hm', h.kept, hunkept]
  · rw [← Option.not_isSome_iff_eq_none, hs'.pending_iff_mem hm']
    exact hs.not_mem_of_idle hm hw

theorem Ahead.endScan (h : f.Ahead s s') {p : Path} {m : Module} (hm : s.module? p = some m)
    (d : Nat) : f.Ahead (s.endScan p d) (s'.endScan p d) := by
  refine ⟨fun q => ?_, fun q => ?_, ?_, fun q m₁ hm₁ hw₁ => ?_⟩
  · rw [bare?_endScan, h.bare]
  · rw [kept?_endScan, h.kept]
  · have hfloor : ∀ s : Store, (s.endScan p d).partialFloor =
        if s.isComplete d then none else s.partialFloor := fun _ => rfl
    rw [hfloor, hfloor, isComplete, isComplete, h.floor_eq]
  · by_cases hq : q = p
    · subst hq
      obtain rfl : m.endScan = m₁ := Option.some.inj ((module?_endScan_self hm d).symm.trans hm₁)
      cases hw₁
    · rw [module?_endScan_of_ne _ hq] at hm₁ ⊢
      exact h.scanning q m₁ hm₁ hw₁

theorem Ahead.of_evolves (h : f.Ahead s s') (hs : s.Running files options stack)
    (hs₁ : s₁.Running files options stack) (he : s.Evolves [] s₁)
    (hfloor : s₁.partialFloor = s.partialFloor) : f.Ahead s₁ s' where
  bare := h.bare
  kept := h.kept
  floor_eq := h.floor_eq.trans hfloor.symm
  scanning q m hm hw := by
    obtain ⟨m₀, hm₀, hw₀⟩ := hs.exists_pending ((hs₁.pending_iff_mem hm).1 hw)
    obtain rfl := Option.some.inj ((he.busy q m₀ (by simp) hm₀ (.inr hw₀)).symm.trans hm)
    exact h.scanning q m₀ hm₀ hw₀

end Store

/-! ## Steps repeated -/

def TableOf.Repeats (files : FileTree) (options : ResolverOptions) (f : Store) (T : TableOf) :
    Prop :=
  ∀ {q stack s s' s₁ r}, Store.Running files options stack s →
    Store.Running files options stack s' → (∀ p ∈ stack, files.Leads options p q) →
    f.Ahead s s' → (T q).eval s = (r, s₁) → f.EndsIn r s₁ →
    ∃ s₁', (T q).eval s' = (r, s₁') ∧ f.Ahead s₁ s₁'

theorem FileTree.load_again {p : Path} {r : Except Error Path} (hl : files.Loads p s r s₁)
    (h : f.Ahead s s') (hends : f.EndsIn r s₁) :
    (files.load p).eval s' = (r, s') ∧ f.Ahead s₁ s' := by
  cases hl with
  | missing hkey => exact ⟨(FileTree.Loads.missing hkey).eval_eq, h⟩
  | present hkey hm => exact ⟨load_of_loaded hkey (h.isSome_module? hends hm), h⟩
  | unreadable hkey hm hread =>
      exact ⟨(FileTree.Loads.unreadable hkey (h.module?_eq_none hends hm) hread).eval_eq, h⟩
  | @read key text hkey hnone hread =>
      have hadded : f.Ahead (s.addModule key (.ofText key text s.options.stripComments)) s' := by
        refine ⟨h.bare, h.kept, h.floor_eq, fun q m hm hw => ?_⟩
        rw [Store.module?_addModule] at hm
        split at hm
        · obtain rfl := Option.some.inj hm
          cases hw
        · exact h.scanning q m hm hw
      refine ⟨load_of_loaded hkey (hadded.isSome_module? hends ?_), hadded⟩
      rw [Store.module?_addModule, if_pos rfl]
      rfl

namespace ScanStep

theorem Effect.again {T : TableOf} (htame : T.Tame files options) (hT : T.Repeats files options f)
    {p : Path} {i : ScanStep} {r : Except Error Unit} (hs : s.Running files options (p :: stack))
    (hs' : s'.Running files options (p :: stack)) (hi : i ∈ files.scanSteps options p)
    (hname : i.newName? = none) (he : Effect files T p i s r s₁) (h : f.Ahead s s')
    (hends : f.EndsIn r s₁) : ∃ s₁', Effect files T p i s' r s₁' ∧ f.Ahead s₁ s₁' := by
  obtain ⟨mp, hmp, hwp⟩ := hs.exists_pending (List.mem_cons_self ..)
  have hask : ∀ {q r s₁}, files.Asks options p q → (T q).eval s = (r, s₁) → f.EndsIn r s₁ →
      ∃ s₁', (T q).eval s' = (r, s₁') ∧ f.Ahead s₁ s₁' := fun hasks heval hends =>
    hT hs hs' (hs.leads_of_asks hasks) h heval hends
  have hown : ∀ {q r s₁}, files.Asks options p q → (T q).eval s = (r, s₁) →
      ∃ m, s₁.module? p = some m ∧ m.pending.isSome := fun hasks heval =>
    (htame hs (hs.leads_of_asks hasks) heval).1.exists_pending (List.mem_cons_self ..)
  cases he with
  | changed hm hf =>
      obtain rfl := Option.some.inj (hm.symm.trans hmp)
      exact ⟨_, .changed (h.scanning p _ hm hwp) hf,
        h.updateModule hm hwp ⟨LocalStep.bare_change hf hname, (LocalStep.evolves_change hf).2⟩⟩
  | refused hm hf =>
      obtain rfl := Option.some.inj (hm.symm.trans hmp)
      exact ⟨s', .refused (h.scanning p _ hm hwp) hf, h⟩
  | visited hl =>
      obtain ⟨hload, hahead⟩ := FileTree.load_again (FileTree.loads hl) h hends
      exact ⟨s', .visited hload, hahead⟩
  | unvisited hl =>
      obtain ⟨hload, hahead⟩ := FileTree.load_again (FileTree.loads hl) h hends
      exact ⟨s', .unvisited hload, hahead⟩
  | merged hl =>
      have hasks := FileTree.asks_of_merge hi
      obtain ⟨s₁', hl', hahead⟩ := hask hasks hl
        (Store.Before.of_updateModule (fun m => ⟨m.bare_updatePending _, rfl⟩) hends)
      obtain ⟨m, hm, hw⟩ := hown hasks hl
      exact ⟨_, .merged hl', hahead.updateModule hm hw ⟨rfl, rfl⟩⟩
  | unmerged hl =>
      obtain ⟨s₁', hl', hahead⟩ := hask (FileTree.asks_of_merge hi) hl hends
      exact ⟨s₁', .unmerged hl', hahead⟩
  | @taken q b _ s₁ t mq found hl hmq hfound =>
      have hasks := FileTree.asks_of_take hi
      have hsame : ∀ m : Module, (m.addTaken b found).bare = m.bare ∧
          (m.addTaken b found).exports = m.exports := fun m =>
        ⟨m.bare_addTaken hname found, (m.evolves_addTaken b found).2⟩
      have hbefore : s₁.Before f := Store.Before.of_updateModule hsame hends
      obtain ⟨s₁', hl', hahead⟩ := hask hasks hl hbefore
      obtain ⟨m, hm, hw⟩ := hown hasks hl
      obtain ⟨mq', hmq', hbare⟩ := hahead.module? hbefore hmq
      rw [← Module.lookupExport_congr_bare hbare] at hfound
      exact ⟨_, .taken hl' hmq' hfound, hahead.updateModule hm hw (hsame m)⟩
  | notFound hl hmq hfound =>
      have hbefore := hends.before
      obtain ⟨s₁', hl', hahead⟩ := hask (FileTree.asks_of_take hi) hl hbefore
      obtain ⟨mq', hmq', hbare⟩ := hahead.module? hbefore hmq
      rw [← Module.lookupExport_congr_bare hbare] at hfound
      exact ⟨s₁', .notFound hl' hmq' hfound, hahead⟩
  | lost hl hmq =>
      obtain ⟨s₁', hl', hahead⟩ := hask (FileTree.asks_of_take hi) hl hends.before
      exact ⟨s₁', .lost hl' (hahead.module?_eq_none hends hmq), hahead⟩
  | untaken hl =>
      obtain ⟨s₁', hl', hahead⟩ := hask (FileTree.asks_of_take hi) hl hends
      exact ⟨s₁', .untaken hl', hahead⟩

theorem Performs.again {T : TableOf} (htame : T.Tame files options)
    (hsteady : T.Steady files options) (hT : T.Repeats files options f) {p : Path}
    {is : List ScanStep} {r : Except Error Unit} (he : Performs files T p is s r s₁)
    (hs : s.Running files options (p :: stack)) (hs' : s'.Running files options (p :: stack))
    (his : ∀ i ∈ is, i ∈ files.scanSteps options p) (hnames : ∀ i ∈ is, i.newName? = none)
    (h : f.Ahead s s') (hends : f.EndsIn r s₁) :
    ∃ s₁', Performs files T p is s' r s₁' ∧ f.Ahead s₁ s₁' := by
  induction he generalizing s' with
  | done s => exact ⟨s', .done s', h⟩
  | step head tail ih =>
      rw [List.forall_mem_cons] at his hnames
      obtain ⟨hrunning, -⟩ := head.running htame hs his.1
      have hbefore := tail.before htame hsteady hrunning his.2 hnames.2
      have hfloor := hrunning.floor_of_evolves (tail.running htame hrunning his.2).2
      obtain ⟨s₂, head', hahead⟩ := head.again htame hT hs hs' his.1 hnames.1 h
        (hbefore.trans hfloor hends.before)
      obtain ⟨hrunning', -⟩ := head'.running htame hs' his.1
      obtain ⟨s₁', tail', hahead'⟩ := ih hrunning hrunning' his.2 hnames.2 hahead hends
      exact ⟨s₁', .step head' tail', hahead'⟩
  | stop head =>
      rw [List.forall_mem_cons] at his hnames
      obtain ⟨s₁', head', hahead⟩ := head.again htame hT hs hs' his.1 hnames.1 h hends
      exact ⟨s₁', .stop head', hahead⟩

end ScanStep

namespace ExportScan

/-- The scan of a module that is not kept in the end is done once more. -/
theorem scan_again (hnames : files.Unrenamed options) {n : Nat}
    (hT : (tableOf files n).Repeats files options f) {p : Path} {m : Module}
    {r : Except Error Unit} (hs : s.Running files options stack)
    (hs' : s'.Running files options stack) (hleads : ∀ q ∈ stack, files.Leads options q p)
    (hm : s.module? p = some m) (ht : m.exports = none) (hw : m.pending = none)
    (steps : Performs files (tableOf files n) p (m.scanSteps files s.options p) (s.beginScan p) r s₁)
    (h : f.Ahead s s') (hbefore : s.Before f) (hends : f.EndsIn r s₁)
    (hkept : f.kept? p = s₁.kept? p) :
    ∃ m' s₁', s'.module? p = some m' ∧ m'.exports = none ∧ m'.pending = none ∧
      Performs files (tableOf files n) p (m'.scanSteps files s'.options p) (s'.beginScan p) r s₁' ∧
      f.Ahead s₁ s₁' := by
  have hscanned := (running_scan hs hleads hm ht hw steps).1
  obtain ⟨m₁, hm₁, -⟩ := hscanned.exists_pending (List.mem_cons_self ..)
  rw [Store.kept?_of_module? hm₁, hscanned.exports_eq_none hm₁] at hkept
  obtain ⟨m', hm', ht', hw', hbare⟩ := h.idle hs hs' hbefore hm hw hkept
  have hfile := hs.isFile p m hm
  rw [hs.scanSteps_eq hm] at steps
  obtain ⟨s₁', steps', hahead⟩ := steps.again (tame_tableOf n) (steady_tableOf hnames n) hT
    (hs.beginScan hm ht hw hleads) (hs'.beginScan hm' ht' hw' hleads) (fun i hi => hi)
    (hnames p hfile.isKey) (h.beginScan hs hs' hm hm' ht ht' hbare) hends
  refine ⟨m', s₁', hm', ht', hw', ?_, hahead⟩
  rwa [hs'.scanSteps_eq hm']

theorem Answered.again (hnames : files.Unrenamed options) {n : Nat}
    (hT : ∀ k < n, (tableOf files k).Repeats files options f) {p : Path}
    {r : Except Error ExportTable} (he : Answered files n p s r s₁)
    (hs : s.Running files options stack) (hs' : s'.Running files options stack)
    (hleads : ∀ q ∈ stack, files.Leads options q p) (h : f.Ahead s s') (hends : f.EndsIn r s₁) :
    ∃ s₁', Answered files n p s' r s₁' ∧ f.Ahead s₁ s₁' := by
  have hdepth : s'.depth = s.depth := hs'.depth_eq.trans hs.depth_eq.symm
  obtain ⟨hrunning, hevolves⟩ := he.running (fun k _ => tame_tableOf k) hs hleads
  have hbefore := (he.before hnames (fun k _ => steady_tableOf hnames k) hs hleads).trans
    (hs.floor_of_evolves hevolves) hends.before
  cases he with
  | unloaded hm => exact ⟨s', .unloaded (h.module?_eq_none hends hm), h⟩
  | kept hm ht =>
      have hkept := (h.kept p).trans (hbefore.kept p _ ((Store.kept?_of_module? hm).trans ht))
      obtain ⟨m', hm', ht'⟩ := Option.bind_eq_some_iff.1 hkept
      exact ⟨s', .kept hm' ht', h⟩
  | unfinished hm ht hw =>
      have hm' := h.scanning p _ hm (by rw [hw]; rfl)
      refine ⟨_, .unfinished hm' ht hw, h.bare, h.kept, ?_, h.scanning⟩
      simp only [Store.notePartialRead, h.floor_eq]
  | @exhausted _ _ m hm ht hw =>
      have hunkept := (hends p).2.trans ((Store.kept?_of_module? hm).trans ht)
      obtain ⟨m', hm', ht', hw', -⟩ := h.idle hs hs' hbefore hm hw hunkept
      have hsame : m.unresolved "*" = m'.unresolved "*" := by
        rw [Module.unresolved, Module.unresolved, (hs.isFile p m hm).path_eq,
          (hs'.isFile p m' hm').path_eq]
      rw [hsame]
      exact ⟨s', .exhausted hm' ht' hw', h⟩
  | failed hm ht hw steps =>
      have hends' : ∀ q, f.bare? q = _ ∧ f.kept? q = _ := hends
      simp only [Store.bare?_endScan, Store.kept?_endScan] at hends'
      obtain ⟨m₂, hm₂, -⟩ := (running_scan hs hleads hm ht hw steps).1.exists_pending
        (List.mem_cons_self ..)
      obtain ⟨m', s₂', hm', ht', hw', steps', hahead⟩ := scan_again hnames
        (hT _ (Nat.lt_succ_self _)) hs hs' hleads hm ht hw steps h hbefore hends' (hends' p).2
      refine ⟨_, .failed hm' ht' hw' steps', ?_⟩
      rw [hdepth]
      exact hahead.endScan hm₂ _
  | @incomplete _ _ _ s₂ m m₂ hm ht hw steps hm₂ hnoted =>
      -- The unfinished table that was read stays on record, so nothing more is kept in the end.
      obtain ⟨d, hfloor, -⟩ := hnoted.endScan p (Nat.le_refl s.depth)
      have hfrozen := Store.Before.frozen hends (by rw [hfloor]; rfl)
      have hends' : s₂.Before f := ⟨fun q m hm => hends.bare q m (by rwa [Store.bare?_endScan]),
        fun q t ht => hends.kept q t (by rwa [Store.kept?_endScan]),
        fun _ q => by rw [hfrozen, Store.kept?_endScan]⟩
      obtain ⟨m', s₂', hm', ht', hw', steps', hahead⟩ := scan_again hnames
        (hT _ (Nat.lt_succ_self _)) hs hs' hleads hm ht hw steps h hbefore hends'
        (by rw [hfrozen, Store.kept?_endScan])
      have hscanned := (running_scan hs hleads hm ht hw steps).1
      have hw₂ := (hscanned.pending_iff_mem hm₂).2 (List.mem_cons_self ..)
      have hnoted' : s₂'.NotedBelow s'.depth := by
        rwa [Store.NotedBelow, hahead.floor_eq, hdepth]
      refine ⟨_, .incomplete hm' ht' hw' steps' (hahead.scanning p m₂ hm₂ hw₂) hnoted', ?_⟩
      rw [hdepth]
      exact hahead.endScan hm₂ _
  | @completed _ _ _ s₂ m m₂ hm ht hw steps hm₂ hclean =>
      have hkept := hends.kept p m₂.table
        (Store.kept?_of_module? (Store.module?_updateModule_self _ (Store.module?_endScan_self hm₂ _)))
      rw [← h.kept] at hkept
      obtain ⟨m', hm', ht'⟩ := Option.bind_eq_some_iff.1 hkept
      refine ⟨s', .kept hm' ht', h.of_evolves hs hrunning hevolves ?_⟩
      have hfloor : s.partialFloor = none := by
        rw [← Option.not_isSome_iff_eq_none]
        exact fun hread => hclean
          (hs.notedBelow_of_scan (running_scan hs hleads hm ht hw steps).2 hread)
      have hended : (s₂.endScan p s.depth).partialFloor = none :=
        if_pos ((s₂.isComplete_iff _).2 hclean)
      rw [hfloor, Store.partialFloor_updateModule, hended]

theorem repeats_tableOf (hnames : files.Unrenamed options) (f : Store) (n : Nat) :
    (tableOf files n).Repeats files options f := by
  induction n using Nat.strongRecOn with
  | ind n ih =>
      intro q stack s s' s₁ r hs hs' hleads h heval hends
      obtain ⟨s₁', hanswered, hahead⟩ := (answered heval).again hnames ih hs hs' hleads h hends
      exact ⟨s₁', hanswered.eval_eq, hahead⟩

end ExportScan

/-! ## A failed request repeated -/

theorem exports_again (hnames : files.Unrenamed options) (hs : s.Running files options [])
    {u : Path} {e : Error} (h : (files.exports u).eval s = (.error e, s₁)) :
    ∃ s₂, (files.exports u).eval s₁ = (.error e, s₂) := by
  rw [FileTree.eval_exports hs] at h
  have hs₁ := (tame_tableOf _ hs (by simp) h).1
  -- The second request knows from the beginning what the first one knows in the end.
  have hahead : s₁.Ahead s s₁ := by
    refine ⟨fun _ => rfl, fun _ => rfl, ?_, fun q m hm hw => ?_⟩
    · rw [hs₁.floor_eq_none, hs.floor_eq_none]
    · cases (hs.pending_iff_mem hm).1 hw
  obtain ⟨s₂, hagain, -⟩ := repeats_tableOf hnames s₁ _ hs hs₁ (by simp) hahead h
    fun _ => ⟨rfl, rfl⟩
  exact ⟨s₂, by rw [FileTree.eval_exports hs₁, hagain]⟩

/--
Where export statements rename nothing, a failed request for the exports of a file fails once more
when it is repeated at once, with the very same error.
-/
theorem exports_fail_again (hproper : files.Proper) (hnames : files.RenamesNothing options)
    (hs : s.Session files options) {u : Path} {e : Error}
    (h : (files.exports u).eval s = (.error e, s₁)) :
    ∃ s₂, (files.exports u).eval s₁ = (.error e, s₂) :=
  exports_again hnames.unrenamed (hs.atRest hproper).running h

def namingCircle : FileTree := .ofTexts
  [("a.d.ts", "export \x7b X \x7d from './b.js';\n"),
   ("b.d.ts", "export * from './c.js';\nexport \x7b X \x7d from './a.js';\n"),
   ("c.d.ts", "export type C = string;\n")]

set_option maxRecDepth 100000 in
theorem exports_fail_again_namingCircle : ∃ s s₁ s₂ : Store,
    s.Session namingCircle .standard ∧
    (namingCircle.exports ⟨"/w/a.d.ts"⟩).eval s = (.error (.inFile ⟨"/w/a.d.ts"⟩
      (.inFile ⟨"/w/b.d.ts"⟩ (.unresolvedImport "X" ⟨"/w/a.d.ts"⟩))), s₁) ∧
    s.kept? ⟨"/w/c.d.ts"⟩ = none ∧ (s₁.kept? ⟨"/w/c.d.ts"⟩).isSome ∧
    (namingCircle.exports ⟨"/w/a.d.ts"⟩).eval s₁ = (.error (.inFile ⟨"/w/a.d.ts"⟩
      (.inFile ⟨"/w/b.d.ts"⟩ (.unresolvedImport "X" ⟨"/w/a.d.ts"⟩))), s₂) := by
  let s := (((Request.load ⟨"a.d.ts"⟩).perform namingCircle).eval (.ofOptions .standard)).2
  have hs : s.Session namingCircle .standard := .request .here _
  have hproper : namingCircle.Proper := FileTree.proper_ofTexts _
  have hnames : namingCircle.RenamesNothing .standard := .of_locations hproper (by decide +kernel)
  have hfails : (namingCircle.exports ⟨"/w/a.d.ts"⟩).eval s = (.error (.inFile ⟨"/w/a.d.ts"⟩
      (.inFile ⟨"/w/b.d.ts"⟩ (.unresolvedImport "X" ⟨"/w/a.d.ts"⟩))), _) :=
    Prod.ext (by decide +kernel) rfl
  obtain ⟨s₂, hagain⟩ := exports_fail_again hproper hnames hs hfails
  exact ⟨s, _, s₂, hs, hfails, by decide +kernel, by decide +kernel, hagain⟩

end Typings
