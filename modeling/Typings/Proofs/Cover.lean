import Typings.Proofs.Scanning

/-!
# What a table covers

A file is scanned when it is asked, and so are the files that it leads to, except behind modules
whose scan is running already.  If the unfinished table of such a module was read, this is on
record.  A table that is kept therefore covers everything that its file leads to.
-/

namespace Typings

open ExportScan ScanStep

/-! ## Paths that avoid some files -/

/-- A path all of whose files, the first one included, avoid the files in `inner`. -/
inductive Avoiding (E : Path → Path → Prop) (inner : List Path) : Path → Path → Prop
  | refl {q : Path} (hq : q ∉ inner) : Avoiding E inner q q
  | head {q g r : Path} (hq : q ∉ inner) (hedge : E q g) (hrest : Avoiding E inner g r) :
      Avoiding E inner q r

namespace Avoiding

variable {E : Path → Path → Prop} {inner : List Path} {q r : Path}

theorem start_not_mem (h : Avoiding E inner q r) : q ∉ inner := by
  cases h with
  | refl hq => exact hq
  | head hq _ _ => exact hq

theorem reflTransGen (h : Avoiding E inner q r) : Relation.ReflTransGen E q r := by
  induction h with
  | refl => exact .refl
  | head _ hedge _ ih => exact .head hedge ih

theorem of_reflTransGen (h : Relation.ReflTransGen E q r) (havoids : ∀ g, Relation.ReflTransGen E q g → g ∉ inner) :
    Avoiding E inner q r := by
  induction h using Relation.ReflTransGen.head_induction_on with
  | refl => exact .refl (havoids r .refl)
  | @head q g hedge _ ih =>
      exact .head (havoids q .refl) hedge (ih fun g' hg' => havoids g' (.head hedge hg'))

theorem cut (p : Path) (h : Avoiding E inner q r) :
    Avoiding E (p :: inner) q r ∨ r = p ∨ ∃ g, E p g ∧ Avoiding E (p :: inner) g r := by
  induction h with
  | @refl q hq =>
      by_cases heq : q = p
      · exact .inr (.inl heq)
      · exact .inl (.refl (by simp [heq, hq]))
  | @head q g r hq hedge _ ih =>
      rcases ih with ih | ih | ih
      · by_cases heq : q = p
        · subst heq
          exact .inr (.inr ⟨g, hedge, ih⟩)
        · exact .inl (.head (by simp [heq, hq]) hedge ih)
      · exact .inr (.inl ih)
      · exact .inr (.inr ih)

theorem cut_start (h : Avoiding E inner q r) :
    r = q ∨ ∃ g, E q g ∧ Avoiding E (q :: inner) g r := by
  rcases h.cut q with h | h
  · exact absurd (List.mem_cons_self ..) h.start_not_mem
  · exact h

end Avoiding

variable {files : FileTree} {options : ResolverOptions} {imported : Path → String → Prop}
  {stack : List Path} {s s' : Store}

/--
Facts about files that tables carry: a scan of a file gives the fact about the file, and every edge
is a step that takes the facts of the answer over.
-/
structure Carried (files : FileTree) (options : ResolverOptions) (imported : Path → String → Prop)
    (E : Path → Path → Prop) (F : Path → ExportTable → Prop) : Prop where
  self : ∀ p m, Scanned files options imported p m → F p m.table
  grows : ∀ p t u, t.Grows u → F p t → F p u
  edge : ∀ p q, E p q → ∃ i ∈ files.scanSteps options p, i.asked? = some q ∧
    ∀ {n s m s' m' t s₁ r}, m.pending.isSome → Advances files (tableOf files n) p i s m s' m' →
      (tableOf files n q).eval s = (.ok t, s₁) → F r t → F r m'.table

def Store.KeptCovers (E : Path → Path → Prop) (F : Path → ExportTable → Prop) (s : Store) : Prop :=
  ∀ q m t, s.module? q = some m → m.exports = some t → ∀ r, Relation.ReflTransGen E q r → F r t

/--
An answer carries the facts about the files on paths that avoid the running scans `inner`, unless
the unfinished table of a scan further out has been read.
-/
def TableOf.Covers (files : FileTree) (options : ResolverOptions)
    (imported : Path → String → Prop) (E : Path → Path → Prop) (F : Path → ExportTable → Prop)
    (T : TableOf) : Prop :=
  ∀ {q stack s s' r}, Store.Asking files options imported stack q s → s.KeptCovers E F →
    (T q).eval s = (r, s') →
    s'.KeptCovers E F ∧ ∀ t, r = .ok t → ∀ inner outer, stack = inner ++ outer →
      ∀ g, Avoiding E inner q g → F g t ∨ s'.NotedBelow outer.length

namespace Store.KeptCovers

variable {E : Path → Path → Prop} {F : Path → ExportTable → Prop}

theorem updateModule (h : s.KeptCovers E F) {p : Path} {f : Module → Module}
    (hf : ∀ m, s.module? p = some m → (f m).exports = m.exports) :
    (s.updateModule p f).KeptCovers E F := by
  intro q m t hm ht
  rw [module?_updateModule] at hm
  split at hm
  · next heq =>
      subst heq
      obtain ⟨m₀, hm₀, rfl⟩ := Option.map_eq_some_iff.1 hm
      rw [hf m₀ hm₀] at ht
      exact h q m₀ t hm₀ ht
  · exact h q m t hm ht

theorem load (h : s.KeptCovers E F) {p : Path} {r : Except Error Path}
    (hl : files.Loads p s r s') : s'.KeptCovers E F := by
  cases hl with
  | missing => exact h
  | present => exact h
  | unreadable => exact h
  | read =>
      intro q m t hm ht
      rw [module?_addModule] at hm
      split at hm
      · obtain rfl := Option.some.inj hm
        cases ht
      · exact h q m t hm ht

theorem effect (h : s.KeptCovers E F) {n : Nat}
    (hT : (ExportScan.tableOf files n).Covers files options imported E F) {p : Path} {s₀ : Store}
    {done : List ScanStep} {m : Module}
    (hscan : Scanning files options imported n stack p s₀ done s m) {i : ScanStep}
    {rest : List ScanStep} (hsteps : files.scanSteps options p = done ++ i :: rest)
    {r : Except Error Unit} (he : Effect files (ExportScan.tableOf files n) p i s r s') : s'.KeptCovers E F := by
  have hask : ∀ {q r s'}, i.asked? = some q →
      (ExportScan.tableOf files n q).eval s = (r, s') → s'.KeptCovers E F := fun hq heval =>
    (hT (hscan.asking_next hsteps hq) h heval).1
  cases he with
  | changed hm' hf =>
      refine h.updateModule fun m' hm => ?_
      obtain rfl := Option.some.inj (hm'.symm.trans hm)
      exact (LocalStep.evolves_change hf).2
  | refused => exact h
  | visited hl => exact h.load (FileTree.loads hl)
  | unvisited hl => exact h.load (FileTree.loads hl)
  | merged heval =>
      exact (hask rfl heval).updateModule fun _ _ => rfl
  | unmerged heval => exact hask rfl heval
  | taken heval _ _ =>
      exact (hask rfl heval).updateModule fun m' _ =>
        (m'.evolves_addTaken _ _).2
  | notFound heval _ _ => exact hask rfl heval
  | lost heval _ => exact hask rfl heval
  | untaken heval => exact hask rfl heval

theorem scanning {n : Nat} {p : Path} {s₀ : Store} {done : List ScanStep} {m : Module}
    (h : s₀.KeptCovers E F) (hT : (ExportScan.tableOf files n).Covers files options imported E F)
    (hscan : Scanning files options imported n stack p s₀ done s m) : s.KeptCovers E F := by
  refine hscan.induct (motive := fun _ s _ => s.KeptCovers E F) (fun m₀ _ _ _ => ?_) ?_
  · exact KeptCovers.updateModule (s := s₀.enterScan) h fun _ _ => rfl
  · intro done i s m s' m' hscan hnext _ hadvance hs
    rcases hnext.steps_of_next with ⟨rest, hsteps⟩
    exact hs.effect hT hscan hsteps (hadvance.effect hscan.module)

end Store.KeptCovers

namespace Carried

variable {E : Path → Path → Prop} {F : Path → ExportTable → Prop} {n : Nat} {p : Path}
  {s₀ : Store} {done : List ScanStep} {m : Module}

theorem asked (hC : Carried files options imported E F)
    (hT : (ExportScan.tableOf files n).Covers files options imported E F)
    (hs : s₀.KeptCovers E F) (h : Scanning files options imported n stack p s₀ done s m)
    {inner outer : List Path} (hstack : stack = inner ++ outer) {i : ScanStep} {g r : Path}
    (hi : i ∈ done) (hg : i.asked? = some g)
    (hpasses : ∀ {s m s' m' t s₁}, m.pending.isSome →
      Advances files (ExportScan.tableOf files n) p i s m s' m' →
      (ExportScan.tableOf files n g).eval s = (.ok t, s₁) → F r t → F r m'.table)
    (hpath : Avoiding E (p :: inner) g r) : F r m.table ∨ s.NotedBelow outer.length := by
  refine h.induct (motive := fun done s m => i ∈ done → F r m.table ∨ s.NotedBelow outer.length)
    (fun m₀ _ _ _ hi => by cases hi) ?_ hi
  intro done j s m s' m' hscan hnext hj hadvance ih hi
  rcases List.mem_append.1 hi with hi | hi
  · obtain ⟨hgrows, hnoted⟩ := hscan.evolves hj hadvance hnext.module
    exact (ih hi).imp (hC.grows r _ _ hgrows) (hnoted _)
  · obtain rfl := List.mem_singleton.1 hi
    obtain ⟨t, s₁, heval, hnoted⟩ := hadvance.ask hg
    rcases hnext.steps_of_next with ⟨rest, hsteps⟩
    have hasking := hscan.asking_next hsteps hg
    have hanswer := (hT hasking (hs.scanning hT hscan) heval).2 t rfl (p :: inner) outer
      (by rw [hstack, List.cons_append]) r hpath
    have hpending := (hscan.running.pending_iff_mem hscan.module).2 (List.mem_cons_self ..)
    exact hanswer.imp (hpasses hpending hadvance heval) (hnoted _)

theorem scanned (hC : Carried files options imported E F)
    (hT : (ExportScan.tableOf files n).Covers files options imported E F)
    (hs : s₀.KeptCovers E F)
    (h : Scanning files options imported n stack p s₀ (files.scanSteps options p) s m)
    {inner outer : List Path} (hstack : stack = inner ++ outer) {r : Path}
    (hpath : Avoiding E inner p r) : F r m.table ∨ s.NotedBelow outer.length := by
  rcases hpath.cut_start with rfl | ⟨g, hedge, hrest⟩
  · exact .inl (hC.self r m ⟨n, stack, s₀, s, h⟩)
  · obtain ⟨i, hi, hg, hpasses⟩ := hC.edge p g hedge
    exact hC.asked hT hs h hstack hi hg hpasses hrest

theorem outcome (hC : Carried files options imported E F)
    (hT : ∀ k < n, (ExportScan.tableOf files k).Covers files options imported E F)
    (hm : s.Asking files options imported stack p) (hs : s.KeptCovers E F)
    {r : Except Error ExportTable}
    (h : ExportScan.Outcome files options imported n stack p s r s') :
    s'.KeptCovers E F ∧ ∀ t, r = .ok t → ∀ inner outer, stack = inner ++ outer →
      ∀ g, Avoiding E inner p g → F g t ∨ s'.NotedBelow outer.length := by
  have hended : ∀ {s₁ : Store}, s₁.KeptCovers E F → (s₁.endScan p stack.length).KeptCovers E F :=
    fun hs₁ => Store.KeptCovers.updateModule hs₁ fun _ _ => rfl
  cases h with
  | unloaded => exact ⟨hs, fun t ht => by cases ht⟩
  | kept hq ht =>
      refine ⟨hs, fun t' ht' inner outer _ g hpath => ?_⟩
      obtain rfl := Except.ok.inj ht'
      exact .inl (hs p _ _ hq ht g hpath.reflTransGen)
  | unfinished hq _ hw =>
      refine ⟨hs, fun t' ht' inner outer hstack g hpath => .inr ?_⟩
      have hmem := (hm.running.pending_iff_mem hq).1 (by rw [hw]; rfl)
      rw [hstack] at hmem
      obtain ⟨above, below, rfl⟩ :=
        List.append_of_mem ((List.mem_append.1 hmem).resolve_left hpath.start_not_mem)
      have hdepth := hm.running.depth_of_append
        (hstack.trans (List.append_assoc inner above (p :: below)).symm) hq hw
      refine (Store.notedBelow_notePartialRead s _ _).2 (.inl ?_)
      rw [hdepth, List.length_append, List.length_cons]
      omega
  | exhausted => exact ⟨hs, fun t ht => by cases ht⟩
  | failed hscan hsteps heffect =>
      have hs₁ := hs.scanning (hT _ (Nat.lt_succ_self _)) hscan
      have hs₂ := hs₁.effect (hT _ (Nat.lt_succ_self _)) hscan hsteps heffect
      exact ⟨hended hs₂, fun t ht => by cases ht⟩
  | incomplete hscan _ =>
      have hs₁ := hs.scanning (hT _ (Nat.lt_succ_self _)) hscan
      refine ⟨hended hs₁, fun t' ht' inner outer hstack g hpath => ?_⟩
      obtain rfl := Except.ok.inj ht'
      refine (hC.scanned (hT _ (Nat.lt_succ_self _)) hs hscan hstack hpath).imp_right fun hnoted => ?_
      exact hnoted.endScan p (by rw [hstack, List.length_append]; omega)
  | @completed _ _ _ _ s₁ m₁ hscan hcomplete =>
      have hs₁ := hs.scanning (hT _ (Nat.lt_succ_self _)) hscan
      have hall : ∀ g, Relation.ReflTransGen E p g → F g m₁.table := by
        intro g hg
        have hpath : Avoiding E [] p g := .of_reflTransGen hg (by simp)
        exact (hC.scanned (hT _ (Nat.lt_succ_self _)) hs hscan rfl hpath).resolve_right hcomplete
      refine ⟨fun q m t hq ht => ?_, fun t' ht' inner outer _ g hpath => ?_⟩
      · by_cases heq : q = p
        · subst heq
          rw [Store.module?_updateModule_self _ (Store.module?_endScan_self hscan.module _)] at hq
          obtain rfl := Option.some.inj hq
          obtain rfl := Option.some.inj ht
          exact hall
        · rw [Store.module?_updateModule_of_ne _ heq] at hq
          exact hended hs₁ q m t hq ht
      · obtain rfl := Except.ok.inj ht'
        exact .inl (hall g hpath.reflTransGen)

theorem tableOf (hC : Carried files options imported E F) (n : Nat) :
    (ExportScan.tableOf files n).Covers files options imported E F := by
  induction n using Nat.strongRecOn with
  | ind n ih =>
      intro q stack s s' r h hs heval
      exact hC.outcome (fun k hk => ih k hk) h hs (ExportScan.outcome h heval)

/-! ## All moments -/

theorem reached (hC : Carried files options imported E F) (h : s.Reached files options imported) :
    s.KeptCovers E F := by
  induction h with
  | fresh =>
      intro q m t hm
      cases hm
  | load h p ih => exact ih.load (files.eval_load p _)
  | ask h _ p ih => exact (hC.tableOf _ (.rest h p) ih rfl).1
  | edit _ p f hf ih => exact ih.updateModule fun m hm => (hf m hm).exports_eq

theorem moment (hC : Carried files options imported E F)
    (h : s.Moment files options imported stack) : s.KeptCovers E F :=
  h.induct (I := Store.KeptCovers E F) (fun _ hs => hC.reached hs)
    (fun n _ _ _ _ _ _ hscan hs => hs.scanning (hC.tableOf n) hscan)
    fun n _ _ _ _ _ _ _ _ _ _ hscan hsteps heffect hs => hs.effect (hC.tableOf n) hscan hsteps heffect

/-- A file that leads to none of the running scans answers with a table that covers all it leads to. -/
theorem answer (hC : Carried files options imported E F)
    (h : s.Asking files options imported stack p)
    (hoff : ∀ q ∈ stack, ¬ Relation.ReflTransGen E p q) {t : ExportTable}
    (heval : (ExportScan.tableOf files n p).eval s = (.ok t, s')) {g : Path}
    (hg : Relation.ReflTransGen E p g) : F g t := by
  have hpath : Avoiding E stack p g := .of_reflTransGen hg fun q hq hmem => hoff q hmem hq
  have hcovers := (hC.tableOf n h (hC.moment h.moment) heval).2 t rfl stack []
    (List.append_nil stack).symm g hpath
  exact hcovers.resolve_right (Store.not_notedBelow_zero s')

end Carried

end Typings
