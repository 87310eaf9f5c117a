import Typings.Proofs.Remarks

/-!
# Invariants of scans

A property of single modules that neither a step of a scan nor the bookkeeping of imports breaks
holds of all modules at all moments.  What it says about tables is then true of every table that is
answered with.
-/

namespace Typings

open ExportScan ScanStep

def Store.All (P : Path → Module → Prop) (s : Store) : Prop :=
  ∀ q m, s.module? q = some m → P q m

/-- `P` is kept by all changes that scans make, and gives `A` for the tables that are answered with. -/
structure ScanKept (files : FileTree) (options : ResolverOptions)
    (imported : Path → String → Prop) (P : Path → Module → Prop)
    (A : Path → ExportTable → Prop) : Prop where
  loaded : ∀ p text, files.IsKey p → P p (.ofText p text options.stripComments)
  begun : ∀ p m d, m.exports = none → P p m → P p (m.beginScan d)
  own : ∀ p m l f done rest, files.scanSteps options p = done ++ .own l :: rest →
    m.LocalsOf p done → m.NotesOf p done → l.change p m = .ok f → m.pending.isSome →
    m.exports = none → P p m → P p (f m)
  merged : ∀ p q m taken done rest, files.scanSteps options p = done ++ .merge q :: rest →
    (DefaultGiven p done → m.table.Has .default) → A q taken → m.pending.isSome →
    m.exports = none → P p m → P p (m.updatePending (·.merge taken))
  taken : ∀ p q m mq b table found, files.Takes options p q b →
    Answers files options imported p q mq table → A q table → P q mq →
    mq.lookupExport table b.name = .ok found → m.pending.isSome → m.exports = none → P p m →
    P p (m.addTaken b found)
  ended : ∀ p m, P p m → P p m.endScan
  keep : ∀ p m, Scanned files options imported p m → P p m → P p (m.endScan.keep m.table)
  answer_of_kept : ∀ p m t, P p m → m.exports = some t → A p t
  answer_of_scan : ∀ p m, P p m → m.pending.isSome → A p m.table

/-- `P` is kept by the changes between queries, too. -/
structure ScanInvariant (files : FileTree) (options : ResolverOptions)
    (imported : Path → String → Prop) (P : Path → Module → Prop)
    (A : Path → ExportTable → Prop) : Prop extends ScanKept files options imported P A where
  edited : ∀ p m m', m.Edited files imported p m' → P p m → P p m'

variable {files : FileTree} {options : ResolverOptions} {imported : Path → String → Prop}
  {P : Path → Module → Prop} {A : Path → ExportTable → Prop} {stack : List Path} {s s' : Store}

namespace Store.All

theorem updateModule (h : s.All P) {p : Path} {f : Module → Module}
    (hf : ∀ m, s.module? p = some m → P p (f m)) : (s.updateModule p f).All P := by
  intro q m hm
  rw [module?_updateModule] at hm
  split at hm
  · next heq =>
      subst heq
      obtain ⟨m₀, hm₀, rfl⟩ := Option.map_eq_some_iff.1 hm
      exact hf m₀ hm₀
  · exact h q m hm

theorem load (hI : ScanKept files options imported P A) (hs : s.options = options)
    (h : s.All P) {p : Path} {r : Except Error Path} (hl : files.Loads p s r s') : s'.All P := by
  cases hl with
  | missing => exact h
  | present => exact h
  | unreadable => exact h
  | read hkey =>
      intro q m hm
      rw [module?_addModule] at hm
      split at hm
      · next heq =>
          subst heq
          obtain rfl := Option.some.inj hm
          rw [hs]
          exact hI.loaded _ _ ⟨p, hkey⟩
      · exact h q m hm

end Store.All

def TableOf.Respects (files : FileTree) (options : ResolverOptions)
    (imported : Path → String → Prop) (P : Path → Module → Prop) (A : Path → ExportTable → Prop)
    (T : TableOf) : Prop :=
  ∀ {q stack s s' r}, Store.Asking files options imported stack q s → s.All P →
    (T q).eval s = (r, s') → s'.All P ∧ ∀ t, r = .ok t → A q t

namespace ScanKept

variable {n : Nat} {p : Path} {s₀ : Store} {done : List ScanStep} {m : Module}

theorem effect (hI : ScanKept files options imported P A)
    (hT : (ExportScan.tableOf files n).Respects files options imported P A)
    (h : Scanning files options imported n stack p s₀ done s m) {i : ScanStep}
    {rest : List ScanStep} (hsteps : files.scanSteps options p = done ++ i :: rest) (hs : s.All P)
    {r : Except Error Unit} (he : Effect files (ExportScan.tableOf files n) p i s r s') :
    s'.All P := by
  have hi := FileTree.mem_scanSteps_of_eq hsteps
  have hrunning := h.running
  have hunkept := hrunning.exports_eq_none h.module
  have hpending := (hrunning.pending_iff_mem h.module).2 (List.mem_cons_self ..)
  cases he with
  | changed hm' hf =>
      obtain rfl := Option.some.inj (h.module.symm.trans hm')
      refine hs.updateModule fun m' hm' => ?_
      obtain rfl := Option.some.inj (h.module.symm.trans hm')
      exact hI.own p m _ _ done rest hsteps h.locals h.notes hf hpending hunkept (hs p m h.module)
  | refused => exact hs
  | visited hl => exact hs.load hI hrunning.options_eq (FileTree.loads hl)
  | unvisited hl => exact hs.load hI hrunning.options_eq (FileTree.loads hl)
  | merged heval =>
      obtain ⟨hs₁, hanswer⟩ := hT (h.asking_next hsteps rfl) hs heval
      refine hs₁.updateModule fun m' hm' => ?_
      have hm₁ := module?_of_ask (tame_tableOf n) hrunning h.module (FileTree.asks_of_merge hi) heval
      obtain rfl := Option.some.inj (hm₁.symm.trans hm')
      exact hI.merged p _ m _ done rest hsteps h.has_default (hanswer _ rfl) hpending hunkept
        (hs₁ p m hm₁)
  | unmerged heval => exact (hT (h.asking_next hsteps rfl) hs heval).1
  | taken heval hmt hfound =>
      obtain ⟨hs₁, hanswer⟩ := hT (h.asking_next hsteps rfl) hs heval
      refine hs₁.updateModule fun m' hm' => ?_
      have hm₁ := module?_of_ask (tame_tableOf n) hrunning h.module (FileTree.asks_of_take hi) heval
      obtain rfl := Option.some.inj (hm₁.symm.trans hm')
      exact hI.taken p _ m _ _ _ _ hi ⟨n, stack, s, _, h.asking_next hsteps rfl, heval, hmt⟩ (hanswer _ rfl)
        (hs₁ _ _ hmt) hfound hpending hunkept (hs₁ p m hm₁)
  | notFound heval _ _ =>
      exact (hT (h.asking_next hsteps rfl) hs heval).1
  | lost heval _ => exact (hT (h.asking_next hsteps rfl) hs heval).1
  | untaken heval => exact (hT (h.asking_next hsteps rfl) hs heval).1

theorem beginScan (hI : ScanKept files options imported P A) {m₀ : Module}
    (hm₀ : s₀.module? p = some m₀) (ht : m₀.exports = none) (hs : s₀.All P) :
    (s₀.beginScan p).All P := by
  refine Store.All.updateModule (s := s₀.enterScan) hs fun m' hm' => ?_
  obtain rfl := Option.some.inj (hm₀.symm.trans hm')
  exact hI.begun p m₀ _ ht (hs p m₀ hm₀)

theorem endScan (hI : ScanKept files options imported P A) (hs : s.All P) (p : Path) (d : Nat) :
    (s.endScan p d).All P :=
  Store.All.updateModule hs fun m hm => hI.ended p m (hs p m hm)

theorem scanning (hI : ScanKept files options imported P A)
    (hT : (ExportScan.tableOf files n).Respects files options imported P A) (hs : s₀.All P)
    (h : Scanning files options imported n stack p s₀ done s m) : s.All P := by
  refine h.induct (motive := fun _ s _ => s.All P) (fun m₀ hm₀ ht _ => hI.beginScan hm₀ ht hs) ?_
  intro done i s m s' m' hscan hnext _ hadvance hs
  rcases hnext.steps_of_next with ⟨rest, hsteps⟩
  exact hI.effect hT hscan hsteps hs (hadvance.effect hscan.module)

theorem outcome (hI : ScanKept files options imported P A)
    (hT : ∀ k < n, (ExportScan.tableOf files k).Respects files options imported P A)
    (hs : s.All P) {r : Except Error ExportTable}
    (h : ExportScan.Outcome files options imported n stack p s r s') :
    s'.All P ∧ ∀ t, r = .ok t → A p t := by
  have hanswer : ∀ {k done s₁ m₁}, Scanning files options imported k stack p s done s₁ m₁ →
      s₁.All P → A p m₁.table := fun hscan hs₁ =>
    hI.answer_of_scan p _ (hs₁ p _ hscan.module)
      ((hscan.running.pending_iff_mem hscan.module).2 (List.mem_cons_self ..))
  cases h with
  | unloaded => exact ⟨hs, fun t ht => by cases ht⟩
  | kept hm ht =>
      refine ⟨hs, fun t' ht' => ?_⟩
      obtain rfl := Except.ok.inj ht'
      exact hI.answer_of_kept p _ _ (hs p _ hm) ht
  | unfinished hm _ hw =>
      refine ⟨hs, fun t' ht' => ?_⟩
      obtain rfl := Except.ok.inj ht'
      exact hI.answer_of_scan p _ (hs p _ hm) (by rw [hw]; rfl)
  | exhausted => exact ⟨hs, fun t ht => by cases ht⟩
  | failed hscan hsteps heffect =>
      have hs₁ := hI.scanning (hT _ (Nat.lt_succ_self _)) hs hscan
      have hs₂ := hI.effect (hT _ (Nat.lt_succ_self _)) hscan hsteps hs₁ heffect
      exact ⟨hI.endScan hs₂ p _, fun t ht => by cases ht⟩
  | incomplete hscan _ =>
      have hs₁ := hI.scanning (hT _ (Nat.lt_succ_self _)) hs hscan
      refine ⟨hI.endScan hs₁ p _, fun t' ht' => ?_⟩
      obtain rfl := Except.ok.inj ht'
      exact hanswer hscan hs₁
  | completed hscan _ =>
      have hs₁ := hI.scanning (hT _ (Nat.lt_succ_self _)) hs hscan
      refine ⟨Store.All.updateModule (hI.endScan hs₁ p _) fun m' hm' => ?_, fun t' ht' => ?_⟩
      · obtain rfl := Option.some.inj ((Store.module?_endScan_self hscan.module _).symm.trans hm')
        exact hI.keep p _ ⟨_, _, _, _, hscan⟩ (hs₁ p _ hscan.module)
      · obtain rfl := Except.ok.inj ht'
        exact hanswer hscan hs₁

theorem tableOf (hI : ScanKept files options imported P A) (n : Nat) :
    (ExportScan.tableOf files n).Respects files options imported P A := by
  induction n using Nat.strongRecOn with
  | ind n ih =>
      intro q stack s s' r h hs heval
      exact hI.outcome (fun k hk => ih k hk) hs (ExportScan.outcome h heval)

end ScanKept

/-! ## All moments -/

namespace ScanInvariant

variable {p : Path}

theorem reached (hI : ScanInvariant files options imported P A)
    (h : s.Reached files options imported) : s.All P := by
  induction h with
  | fresh =>
      intro q m hm
      cases hm
  | load h p ih => exact ih.load hI.toScanKept h.running.options_eq (files.eval_load p _)
  | ask h _ p ih => exact (hI.tableOf _ (.rest h p) ih rfl).1
  | edit _ p f hf ih => exact ih.updateModule fun m hm => hI.edited p m _ (hf m hm) (ih p m hm)

theorem moment (hI : ScanInvariant files options imported P A)
    (h : s.Moment files options imported stack) : s.All P :=
  h.induct (I := Store.All P) (fun _ hs => hI.reached hs)
    (fun n _ _ _ _ _ _ hscan hs => hI.scanning (hI.tableOf n) hs hscan)
    fun n _ _ _ _ _ _ _ _ _ _ hscan hsteps heffect hs => hI.effect (hI.tableOf n) hscan hsteps hs heffect

theorem answers (hI : ScanInvariant files options imported P A) {q : Path} {mq : Module}
    {t : ExportTable} (h : Answers files options imported p q mq t) : P q mq ∧ A q t := by
  rcases h with ⟨n, stack, s, s', hasking, heval, hmq⟩
  obtain ⟨hs', hanswer⟩ := hI.tableOf n hasking (hI.moment hasking.moment) heval
  exact ⟨hs' q mq hmq, hanswer t rfl⟩

end ScanInvariant

/-! ## The declarations of kept modules -/

def Module.LocalsKept (files : FileTree) (options : ResolverOptions) (p : Path) (m : Module) :
    Prop :=
  m.exports.isSome → ∀ name, (m.locals.get? name).map Declaration.unparsed =
    (declared? (files.scanSteps options p) name).map fun (st, hd) => hd.declaration p st

theorem Module.LocalsOf.unparsed {p : Path} {steps : List ScanStep} {m : Module}
    (h : m.LocalsOf p steps) (name : String) : (m.locals.get? name).map Declaration.unparsed =
      (declared? steps name).map fun (st, hd) => hd.declaration p st := by
  rw [h name, Option.map_map]
  rfl

theorem scanInvariant_localsKept :
    ScanInvariant files options imported (Module.LocalsKept files options) (fun _ _ => True) where
  loaded p text _ hkept := by cases hkept
  edited p m m' he hm hkept name := by
    rw [he.locals_eq name]
    exact hm (by rwa [← he.exports_eq]) name
  begun p m d hnone _ hkept := by
    simp [Module.beginScan, hnone] at hkept
  own p m l f done _ _ _ _ hf _ hnone _ hkept := by
    rw [(LocalStep.evolves_change hf).2, hnone] at hkept
    cases hkept
  merged p q m taken _ _ _ _ _ _ hnone _ hkept := by
    simp [Module.updatePending, hnone] at hkept
  taken p q m mq b table found _ _ _ _ _ _ hnone _ hkept := by
    rw [(m.evolves_addTaken b found).2, hnone] at hkept
    cases hkept
  ended p m h := h
  keep p m hscanned _ _ := hscanned.locals.unparsed
  answer_of_kept _ _ _ _ _ := trivial
  answer_of_scan _ _ _ _ := trivial

end Typings
