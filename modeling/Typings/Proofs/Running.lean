import Typings.Proofs.Evolves

/-!
# The stack of running scans

While scans run, the modules with an unfinished table are those on the stack, each of which knows
how many scans run further out.  Asking for a table leaves the stack as it was.
-/

namespace Typings

open ExportScan ScanStep

/-- The scans of the modules in `stack` are running, the innermost first. -/
structure Store.Running (files : FileTree) (options : ResolverOptions) (stack : List Path)
    (s : Store) : Prop where
  options_eq : s.options = options
  depth_eq : s.depth = stack.length
  pending_iff : ∀ q m, s.module? q = some m → ∀ d,
    m.pending.map Pending.depth = some d ↔ ∃ below, (q :: below) <:+ stack ∧ below.length = d
  isSome_of_mem : ∀ q ∈ stack, (s.module? q).isSome
  floor_lt : ∀ f, s.partialFloor = some f → f < s.depth
  pending_of_kept : ∀ q m, s.module? q = some m → m.exports.isSome → m.pending = none
  isFile : ∀ q m, s.module? q = some m → m.IsFile files options q
  leads : stack.Pairwise fun p r => files.Leads options r p

variable {files : FileTree} {options : ResolverOptions} {stack : List Path} {s s' : Store}

namespace Store

theorem running_ofOptions (files : FileTree) (options : ResolverOptions) :
    (ofOptions options).Running files options [] := by
  refine ⟨rfl, rfl, ?_, ?_, ?_, ?_, ?_, List.Pairwise.nil⟩ <;> simp [ofOptions, module?]

theorem Running.scanSteps_eq (h : s.Running files options stack) {p : Path} {m : Module}
    (hm : s.module? p = some m) : m.scanSteps files s.options p = files.scanSteps options p := by
  rw [h.options_eq, (h.isFile p m hm).scanSteps_eq]

/-! ## Members of the stack -/

theorem Running.pending_iff_mem (h : s.Running files options stack) {q : Path} {m : Module}
    (hm : s.module? q = some m) : m.pending.isSome ↔ q ∈ stack := by
  constructor
  · intro hw
    obtain ⟨w, hw⟩ := Option.isSome_iff_exists.1 hw
    obtain ⟨below, hsuffix, -⟩ := (h.pending_iff q m hm w.depth).1 (by rw [hw]; rfl)
    exact hsuffix.subset (List.mem_cons_self ..)
  · intro hq
    obtain ⟨above, below, rfl⟩ := List.append_of_mem hq
    have hdepth := (h.pending_iff q m hm below.length).2 ⟨below, List.suffix_append _ _, rfl⟩
    cases hw : m.pending with
    | none => simp [hw] at hdepth
    | some w => rfl

theorem Running.exists_pending (h : s.Running files options stack) {q : Path} (hq : q ∈ stack) :
    ∃ m, s.module? q = some m ∧ m.pending.isSome := by
  obtain ⟨m, hm⟩ := Option.isSome_iff_exists.1 (h.isSome_of_mem q hq)
  exact ⟨m, hm, (h.pending_iff_mem hm).2 hq⟩

theorem Running.depth_lt (h : s.Running files options stack) {q : Path} {m : Module} {w : Pending}
    (hm : s.module? q = some m) (hw : m.pending = some w) : w.depth < s.depth := by
  obtain ⟨below, hsuffix, hlength⟩ := (h.pending_iff q m hm w.depth).1 (by rw [hw]; rfl)
  have hle := hsuffix.length_le
  rw [h.depth_eq]
  simp only [List.length_cons] at hle
  omega

theorem Running.depth_of_append (h : s.Running files options stack) {q : Path} {m : Module}
    {w : Pending} {above below : List Path} (hstack : stack = above ++ q :: below)
    (hm : s.module? q = some m) (hw : m.pending = some w) : w.depth = below.length := by
  have hdepth := (h.pending_iff q m hm below.length).2
    ⟨below, hstack ▸ List.suffix_append _ _, rfl⟩
  simpa [hw] using hdepth

theorem Running.not_mem_of_idle (h : s.Running files options stack) {q : Path} {m : Module}
    (hm : s.module? q = some m) (hw : m.pending = none) : q ∉ stack := by
  rw [← h.pending_iff_mem hm, hw]
  simp

theorem Running.exports_eq_none {p : Path} (h : s.Running files options (p :: stack)) {m : Module}
    (hm : s.module? p = some m) : m.exports = none := by
  have hpending := (h.pending_iff_mem hm).2 (List.mem_cons_self ..)
  cases hx : m.exports with
  | none => rfl
  | some t =>
      rw [h.pending_of_kept p m hm (by rw [hx]; rfl)] at hpending
      cases hpending

theorem Running.floor_eq_none (h : s.Running files options []) : s.partialFloor = none := by
  cases hfloor : s.partialFloor with
  | none => rfl
  | some f =>
      have hlt := h.floor_lt f hfloor
      rw [h.depth_eq] at hlt
      exact absurd hlt (Nat.not_lt_zero f)

theorem Running.nodup (h : s.Running files options stack) : stack.Nodup := by
  have hall : ∀ inner, inner <:+ stack → inner.Nodup := by
    intro inner
    induction inner with
    | nil => intro _; exact List.nodup_nil
    | cons q below ih =>
        intro hsuffix
        refine List.nodup_cons.2 ⟨fun hq => ?_, ih ((List.suffix_cons q below).trans hsuffix)⟩
        obtain ⟨m, hm⟩ := Option.isSome_iff_exists.1
          (h.isSome_of_mem q (hsuffix.subset (List.mem_cons_self ..)))
        obtain ⟨above, below', rfl⟩ := List.append_of_mem hq
        have hsuffix' : (q :: below') <:+ stack :=
          ((List.suffix_append above _).trans (List.suffix_cons q _)).trans hsuffix
        have houter := (h.pending_iff q m hm _).2 ⟨_, hsuffix, rfl⟩
        have hinner := (h.pending_iff q m hm _).2 ⟨_, hsuffix', rfl⟩
        rw [houter] at hinner
        simp only [List.length_append, List.length_cons, Option.some.injEq] at hinner
        omega
  exact hall stack List.suffix_rfl

/-! ## Changes that keep the stack -/

theorem Running.updateModule (h : s.Running files options stack) {p : Path} {f : Module → Module}
    (hf : ∀ m, s.module? p = some m → (f m).pending.map Pending.depth = m.pending.map Pending.depth ∧
      ((f m).exports.isSome → (f m).pending = none) ∧ (f m).IsFile files options p) :
    (s.updateModule p f).Running files options stack := by
  have hcases : ∀ q m', (s.updateModule p f).module? q = some m' →
      s.module? q = some m' ∨ (q = p ∧ ∃ m, s.module? p = some m ∧ m' = f m) := by
    intro q m' hm'
    rw [module?_updateModule] at hm'
    split at hm'
    · next heq =>
        obtain ⟨m, hm, hfm⟩ := Option.map_eq_some_iff.1 hm'
        exact .inr ⟨heq, m, hm, hfm.symm⟩
    · exact .inl hm'
  refine { h with
    pending_iff := fun q m' hm' d => ?_
    isSome_of_mem := fun q hq =>
      (grows_updateModule s p f).isSome_module? q (h.isSome_of_mem q hq)
    pending_of_kept := fun q m' hm' hkept => ?_
    isFile := fun q m' hm' => ?_ }
  · rcases hcases q m' hm' with hm | ⟨rfl, m, hm, rfl⟩
    · exact h.pending_iff q m' hm d
    · rw [(hf m hm).1]
      exact h.pending_iff q m hm d
  · rcases hcases q m' hm' with hm | ⟨rfl, m, hm, rfl⟩
    · exact h.pending_of_kept q m' hm hkept
    · exact (hf m hm).2.1 hkept
  · rcases hcases q m' hm' with hm | ⟨rfl, m, hm, rfl⟩
    · exact h.isFile q m' hm
    · exact (hf m hm).2.2

theorem Running.updateModule_of_evolves (h : s.Running files options stack) {p : Path}
    {f : Module → Module}
    (hf : ∀ m, s.module? p = some m → m.Evolves (f m) ∧ (f m).exports = m.exports) :
    (s.updateModule p f).Running files options stack ∧ s.Evolves [p] (s.updateModule p f) := by
  refine ⟨h.updateModule fun m hm => ?_, s.evolves_updateModule fun m hm => (hf m hm).1⟩
  obtain ⟨he, hx⟩ := hf m hm
  refine ⟨he.depth_eq, fun hkept => ?_, (h.isFile p m hm).evolves he⟩
  have hnone := h.pending_of_kept p m hm (by rwa [← hx])
  have hdepth := he.depth_eq
  rw [hnone] at hdepth
  exact Option.map_eq_none_iff.1 hdepth

theorem Running.keep (h : s.Running files options stack) {p : Path} {t : ExportTable}
    (hidle : ∀ m, s.module? p = some m → m.pending = none) :
    (s.updateModule p (·.keep t)).Running files options stack := by
  refine h.updateModule fun m hm => ⟨rfl, fun _ => hidle m hm, ?_⟩
  have hfile := h.isFile p m hm
  exact ⟨hfile.path_eq, hfile.isKey, hfile.read_eq, hfile.statements_eq⟩

theorem Running.notePartialRead (h : s.Running files options stack) {d : Nat} (hd : d < s.depth) :
    (s.notePartialRead d).Running files options stack := by
  refine { h with floor_lt := fun f hf => ?_ }
  simp only [Store.notePartialRead, Option.some.injEq] at hf
  subst hf
  cases hfloor : s.partialFloor with
  | none => exact hd
  | some floor =>
      have := h.floor_lt floor hfloor
      exact Nat.lt_of_le_of_lt (Nat.min_le_left ..) this

theorem Running.load (h : s.Running files options stack) {p : Path} {r : Except Error Path}
    (hl : files.Loads p s r s') : s'.Running files options stack := by
  cases hl with
  | missing => exact h
  | present => exact h
  | unreadable => exact h
  | @read key text hkey hnone hread =>
      have hcases : ∀ q m, (s.addModule key
          (.ofText key text s.options.stripComments)).module? q = some m →
          s.module? q = some m ∨ (q = key ∧ m = .ofText key text s.options.stripComments) := by
        intro q m hm
        rw [module?_addModule] at hm
        split at hm
        · next heq => exact .inr ⟨heq, (Option.some.inj hm).symm⟩
        · exact .inl hm
      have hnew : key ∉ stack := by
        intro hmem
        have := h.isSome_of_mem key hmem
        rw [hnone] at this
        cases this
      refine { h with
        pending_iff := fun q m hm d => ?_
        isSome_of_mem := fun q hq =>
          (grows_addModule s key _).isSome_module? q (h.isSome_of_mem q hq)
        pending_of_kept := fun q m hm hkept => ?_
        isFile := fun q m hm => ?_ }
      · rcases hcases q m hm with hm | ⟨rfl, rfl⟩
        · exact h.pending_iff q m hm d
        · constructor
          · intro hd
            cases hd
          · rintro ⟨below, hsuffix, -⟩
            exact absurd (hsuffix.subset (List.mem_cons_self ..)) hnew
      · rcases hcases q m hm with hm | ⟨rfl, rfl⟩
        · exact h.pending_of_kept q m hm hkept
        · rfl
      · rcases hcases q m hm with hm | ⟨rfl, rfl⟩
        · exact h.isFile q m hm
        · exact ⟨rfl, ⟨p, hkey⟩, hread, by rw [← h.options_eq]; rfl⟩

/-! ## A scan begins and ends -/

theorem Running.beginScan (h : s.Running files options stack) {p : Path} {m : Module}
    (hm : s.module? p = some m) (ht : m.exports = none) (hw : m.pending = none)
    (hleads : ∀ r ∈ stack, files.Leads options r p) :
    (s.beginScan p).Running files options (p :: stack) := by
  have hp := h.not_mem_of_idle hm hw
  have hbegun := module?_beginScan_self hm
  have hother : ∀ {q}, q ≠ p → (s.beginScan p).module? q = s.module? q :=
    s.module?_beginScan_of_ne
  refine ⟨h.options_eq, ?_, ?_, ?_, ?_, ?_, ?_, List.pairwise_cons.2 ⟨hleads, h.leads⟩⟩
  · rw [List.length_cons, ← h.depth_eq]
    rfl
  · intro q m' hm' d
    by_cases hq : q = p
    · subst hq
      obtain rfl : m.beginScan s.depth = m' := Option.some.inj (hbegun.symm.trans hm')
      simp only [Module.beginScan, Option.map_some, Option.some.injEq, List.suffix_cons_iff,
        List.cons.injEq, true_and]
      constructor
      · rintro rfl
        exact ⟨stack, .inl rfl, h.depth_eq.symm⟩
      · rintro ⟨below, rfl | hsuffix, rfl⟩
        · exact h.depth_eq
        · exact absurd (hsuffix.subset (List.mem_cons_self ..)) hp
    · rw [hother hq] at hm'
      rw [h.pending_iff q m' hm' d]
      simp only [List.suffix_cons_iff, List.cons.injEq, hq, false_and, false_or]
  · intro q hq
    by_cases hqp : q = p
    · rw [hqp, hbegun]
      rfl
    · rw [hother hqp]
      exact h.isSome_of_mem q ((List.mem_cons.1 hq).resolve_left hqp)
  · intro f hf
    exact Nat.lt_succ_of_lt (h.floor_lt f hf)
  · intro q m' hm' hkept
    by_cases hq : q = p
    · subst hq
      obtain rfl : m.beginScan s.depth = m' := Option.some.inj (hbegun.symm.trans hm')
      simp [Module.beginScan, ht] at hkept
    · rw [hother hq] at hm'
      exact h.pending_of_kept q m' hm' hkept
  · intro q m' hm'
    by_cases hq : q = p
    · subst hq
      obtain rfl : m.beginScan s.depth = m' := Option.some.inj (hbegun.symm.trans hm')
      have hfile := h.isFile q m hm
      exact ⟨hfile.path_eq, hfile.isKey, hfile.read_eq, hfile.statements_eq⟩
    · rw [hother hq] at hm'
      exact h.isFile q m' hm'

theorem Running.endScan {p : Path} (h : s.Running files options (p :: stack)) :
    (s.endScan p stack.length).Running files options stack := by
  have hp := (List.nodup_cons.1 h.nodup).1
  obtain ⟨m, hm⟩ := Option.isSome_iff_exists.1 (h.isSome_of_mem p (List.mem_cons_self ..))
  have hended := module?_endScan_self hm stack.length
  have hother : ∀ {q}, q ≠ p → (s.endScan p stack.length).module? q = s.module? q := fun hq =>
    s.module?_endScan_of_ne hq _
  refine ⟨h.options_eq, rfl, ?_, ?_, fun f hf => floor_lt_of_exitScan hf, ?_, ?_,
    (List.pairwise_cons.1 h.leads).2⟩
  · intro q m' hm' d
    by_cases hq : q = p
    · subst hq
      obtain rfl : m.endScan = m' := Option.some.inj (hended.symm.trans hm')
      simp only [Module.endScan, Option.map_none, reduceCtorEq, false_iff, not_exists, not_and]
      intro below hsuffix
      exact absurd (hsuffix.subset (List.mem_cons_self ..)) hp
    · rw [hother hq] at hm'
      rw [h.pending_iff q m' hm' d]
      simp only [List.suffix_cons_iff, List.cons.injEq, hq, false_and, false_or]
  · intro q hq
    have hqp : q ≠ p := fun heq => hp (heq ▸ hq)
    rw [hother hqp]
    exact h.isSome_of_mem q (List.mem_cons_of_mem p hq)
  · intro q m' hm' hkept
    by_cases hq : q = p
    · subst hq
      obtain rfl : m.endScan = m' := Option.some.inj (hended.symm.trans hm')
      rfl
    · rw [hother hq] at hm'
      exact h.pending_of_kept q m' hm' hkept
  · intro q m' hm'
    by_cases hq : q = p
    · subst hq
      obtain rfl : m.endScan = m' := Option.some.inj (hended.symm.trans hm')
      have hfile := h.isFile q m hm
      exact ⟨hfile.path_eq, hfile.isKey, hfile.read_eq, hfile.statements_eq⟩
    · rw [hother hq] at hm'
      exact h.isFile q m' hm'

theorem Running.evolves_scan (h : s.Running files options stack) {p : Path} {m : Module}
    (hm : s.module? p = some m) (ht : m.exports = none) (hw : m.pending = none)
    (he : (s.beginScan p).Evolves [p] s') : s.Evolves [] (s'.endScan p s.depth) := by
  have hbegun := module?_beginScan_self hm
  have hother : ∀ {q}, q ≠ p → (s'.endScan p s.depth).module? q = s'.module? q := fun hq =>
    s'.module?_endScan_of_ne hq _
  refine ⟨he.options_eq, rfl, fun d hd => ?_, fun q m' hm' => ?_, fun q m' _ hm' hbusy => ?_⟩
  · rcases hd with ⟨f, hf, hlt⟩
    have hnoted : s'.NotedBelow (f + 1) := he.notedBelow (f + 1) ⟨f, hf, Nat.lt_succ_self f⟩
    exact (hnoted.exitScan (h.floor_lt f hf)).mono hlt
  · by_cases hq : q = p
    · subst hq
      obtain rfl : m = m' := Option.some.inj (hm.symm.trans hm')
      obtain ⟨m₁, hm₁, he₁⟩ := he.loaded q _ hbegun
      refine ⟨m₁.endScan, module?_endScan_self hm₁ _, he₁.path_eq, he₁.text_eq,
        he₁.statements_eq, he₁.imports_eq, he₁.importNotes_eq, ?_, ?_, ?_⟩
      · simp [ht]
      · simp [hw, Module.endScan]
      · simpa [Module.table, hw, Module.endScan] using ExportTable.Grows.refl _
    · rw [hother hq]
      exact he.loaded q m' ((s.module?_beginScan_of_ne hq).trans hm')
  · have hq : q ≠ p := by
      rintro rfl
      obtain rfl : m = m' := Option.some.inj (hm.symm.trans hm')
      simp [Module.Busy, ht, hw] at hbusy
    rw [hother hq]
    exact he.busy q m' (by simpa using hq) ((s.module?_beginScan_of_ne hq).trans hm') hbusy

theorem Evolves.keep {p : Path} {m : Module} {t : ExportTable} (hm : s.module? p = some m)
    (ht : m.exports = none) (hw : m.pending = none) (he : s.Evolves [] s')
    (hidle : ∀ m', s'.module? p = some m' → m'.pending = none) :
    s.Evolves [] (s'.updateModule p (·.keep t)) := by
  refine ⟨he.options_eq, he.depth_eq, he.notedBelow, fun q m' hm' => ?_,
    fun q m' _ hm' hbusy => ?_⟩
  · by_cases hq : q = p
    · subst hq
      obtain rfl : m = m' := Option.some.inj (hm.symm.trans hm')
      obtain ⟨m₁, hm₁, he₁⟩ := he.loaded q m hm
      exact ⟨m₁.keep t, module?_updateModule_self _ hm₁,
        { he₁ with exports_eq := by simp [ht] }⟩
    · rw [module?_updateModule_of_ne _ hq]
      exact he.loaded q m' hm'
  · have hq : q ≠ p := by
      rintro rfl
      obtain rfl : m = m' := Option.some.inj (hm.symm.trans hm')
      simp [Module.Busy, ht, hw] at hbusy
    rw [module?_updateModule_of_ne _ hq]
    exact he.busy q m' (by simp) hm' hbusy

end Store

/-! ## Asking for a table -/

/-- Asking a file that all running scans lead to keeps the stack. -/
def TableOf.Tame (files : FileTree) (options : ResolverOptions) (T : TableOf) : Prop :=
  ∀ {q stack s s' r}, Store.Running files options stack s → (∀ p ∈ stack, files.Leads options p q) →
    (T q).eval s = (r, s') → s'.Running files options stack ∧ s.Evolves [] s'

theorem Store.Running.leads_of_asks {p q : Path} (h : s.Running files options (p :: stack))
    (hasks : files.Asks options p q) : ∀ r ∈ p :: stack, files.Leads options r q := by
  intro r hr
  rcases List.mem_cons.1 hr with rfl | hr
  · exact hasks.leads
  · exact ((List.pairwise_cons.1 h.leads).1 r hr).ask hasks

namespace ScanStep

theorem Effect.running {T : TableOf} (hT : T.Tame files options) {p : Path} {i : ScanStep}
    {r : Except Error Unit} (h : s.Running files options (p :: stack))
    (hi : i ∈ files.scanSteps options p) (he : Effect files T p i s r s') :
    s'.Running files options (p :: stack) ∧ s.Evolves [p] s' := by
  have hload : ∀ {file r s'}, (files.load file).eval s = (r, s') →
      s'.Running files options (p :: stack) ∧ s.Evolves [p] s' := fun hl =>
    ⟨h.load (FileTree.loads hl), (FileTree.loads hl).evolves.mono (by simp)⟩
  have hask : ∀ {q r s'}, files.Asks options p q → (T q).eval s = (r, s') →
      s'.Running files options (p :: stack) ∧ s.Evolves [p] s' := by
    intro q r s' hasks heval
    obtain ⟨hrunning, hevolves⟩ := hT h (h.leads_of_asks hasks) heval
    exact ⟨hrunning, hevolves.mono (by simp)⟩
  cases he with
  | changed hm hf =>
      refine h.updateModule_of_evolves fun m' hm' => ?_
      obtain rfl := Option.some.inj (hm.symm.trans hm')
      exact LocalStep.evolves_change hf
  | refused => exact ⟨h, .refl _ s⟩
  | visited hl => exact hload hl
  | unvisited hl => exact hload hl
  | merged hl =>
      obtain ⟨hrunning, hevolves⟩ := hask (FileTree.asks_of_merge hi) hl
      obtain ⟨hrunning', hevolves'⟩ := hrunning.updateModule_of_evolves (p := p)
        fun m _ => ⟨m.evolves_merge _, rfl⟩
      exact ⟨hrunning', hevolves.trans hevolves'⟩
  | unmerged hl => exact hask (FileTree.asks_of_merge hi) hl
  | taken hl _ _ =>
      obtain ⟨hrunning, hevolves⟩ := hask (FileTree.asks_of_take hi) hl
      obtain ⟨hrunning', hevolves'⟩ := hrunning.updateModule_of_evolves (p := p)
        fun m _ => m.evolves_addTaken _ _
      exact ⟨hrunning', hevolves.trans hevolves'⟩
  | notFound hl _ _ => exact hask (FileTree.asks_of_take hi) hl
  | lost hl _ => exact hask (FileTree.asks_of_take hi) hl
  | untaken hl => exact hask (FileTree.asks_of_take hi) hl

theorem Performs.running {T : TableOf} (hT : T.Tame files options) {p : Path}
    {is : List ScanStep} {r : Except Error Unit} (he : Performs files T p is s r s')
    (h : s.Running files options (p :: stack)) (his : ∀ i ∈ is, i ∈ files.scanSteps options p) :
    s'.Running files options (p :: stack) ∧ s.Evolves [p] s' := by
  induction he with
  | done s => exact ⟨h, .refl _ s⟩
  | step head _ ih =>
      obtain ⟨hrunning, hevolves⟩ := head.running hT h (his _ (List.mem_cons_self ..))
      obtain ⟨hrunning', hevolves'⟩ := ih hrunning fun i hi => his i (List.mem_cons_of_mem _ hi)
      exact ⟨hrunning', hevolves.trans hevolves'⟩
  | stop head => exact head.running hT h (his _ (List.mem_cons_self ..))

end ScanStep

namespace ExportScan

theorem Answered.running {n : Nat} (hT : ∀ k < n, (tableOf files k).Tame files options) {p : Path}
    {r : Except Error ExportTable} (he : Answered files n p s r s')
    (h : s.Running files options stack) (hleads : ∀ q ∈ stack, files.Leads options q p) :
    s'.Running files options stack ∧ s.Evolves [] s' := by
  have hscan : ∀ {k m s₁ r}, k < n → s.module? p = some m → m.exports = none →
      m.pending = none →
      Performs files (tableOf files k) p (m.scanSteps files s.options p) (s.beginScan p) r s₁ →
      (s₁.endScan p s.depth).Running files options stack ∧
        s.Evolves [] (s₁.endScan p s.depth) := by
    intro k m s₁ r hk hm ht hw steps
    rw [h.scanSteps_eq hm] at steps
    obtain ⟨hrunning, hevolves⟩ := steps.running (hT k hk) (h.beginScan hm ht hw hleads)
      fun i hi => hi
    exact ⟨h.depth_eq ▸ hrunning.endScan, h.evolves_scan hm ht hw hevolves⟩
  cases he with
  | unloaded => exact ⟨h, .refl _ s⟩
  | kept => exact ⟨h, .refl _ s⟩
  | unfinished hm _ hw => exact ⟨h.notePartialRead (h.depth_lt hm hw), s.evolves_notePartialRead _⟩
  | exhausted => exact ⟨h, .refl _ s⟩
  | failed hm ht hw steps => exact hscan (Nat.lt_succ_self _) hm ht hw steps
  | incomplete hm ht hw steps _ _ => exact hscan (Nat.lt_succ_self _) hm ht hw steps
  | @completed _ _ _ s₁ _ _ hm ht hw steps hm₁ _ =>
      obtain ⟨hrunning, hevolves⟩ := hscan (Nat.lt_succ_self _) hm ht hw steps
      have hidle : ∀ m', (s₁.endScan p s.depth).module? p = some m' → m'.pending = none := by
        intro m' hm'
        obtain rfl := Option.some.inj ((Store.module?_endScan_self hm₁ _).symm.trans hm')
        rfl
      exact ⟨hrunning.keep hidle, hevolves.keep hm ht hw hidle⟩

theorem tame_tableOf (n : Nat) : (tableOf files n).Tame files options := by
  induction n using Nat.strongRecOn with
  | ind n ih =>
      intro q stack s s' r h hleads heval
      exact (answered heval).running (fun k hk => ih k hk) h hleads

theorem running_scan (h : s.Running files options stack) {p : Path}
    (hleads : ∀ q ∈ stack, files.Leads options q p) {m : Module} (hm : s.module? p = some m)
    (ht : m.exports = none) (hw : m.pending = none) {n : Nat} {r : Except Error Unit}
    (steps : Performs files (tableOf files n) p (m.scanSteps files s.options p) (s.beginScan p)
      r s') :
    s'.Running files options (p :: stack) ∧ (s.beginScan p).Evolves [p] s' := by
  rw [h.scanSteps_eq hm] at steps
  exact steps.running (tame_tableOf n) (h.beginScan hm ht hw hleads) fun i hi => hi

end ExportScan

end Typings
