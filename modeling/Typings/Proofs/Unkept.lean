import Typings.Proofs.PartialRead
import Typings.Proofs.Unrenamed

/-!
# Scans that end well and are not kept

The table of a scan that ends well is thrown away if the unfinished table of a scan further out has
been read.  The file of that scan leads back to itself.  So everything that a kept file leads to is
kept as well, except behind files on circles.
-/

namespace Typings

open ExportScan ScanStep

variable {files : FileTree} {options : ResolverOptions} {imported : Path → String → Prop}
  {stack : List Path} {s s' : Store}

namespace Store

def Settles (s : Store) (q : Path) : Prop := (s.kept? q).isSome ∨ s.partialFloor.isSome

/--
The scan whose unfinished table is on record is that of a file on a circle, and files that are kept
without being on circles have asked kept files only.
-/
structure TracksCircles (files : FileTree) (options : ResolverOptions) (stack : List Path)
    (s : Store) : Prop where
  floor : ∀ p below, (p :: below) <:+ stack → s.partialFloor = some below.length →
    files.OnCircle options p
  asked : ∀ p q, (s.kept? p).isSome → files.Asks options p q →
    files.OnCircle options p ∨ (s.kept? q).isSome

theorem Evolves.isSome_kept? {own : List Path} (h : s.Evolves own s') {q : Path}
    (hq : (s.kept? q).isSome) : (s'.kept? q).isSome := by
  cases hm : s.module? q with
  | none => simp [kept?, hm] at hq
  | some m =>
      obtain ⟨m', hm', he⟩ := h.loaded q m hm
      rw [kept?_of_module? hm] at hq
      rwa [kept?_of_module? hm', he.exports_eq hq]

theorem Settles.evolves {q : Path} (h : s.Settles q) (hs : s.Running files options stack)
    {own : List Path} (he : s.Evolves own s') : s'.Settles q :=
  h.imp he.isSome_kept? (hs.floor_of_evolves he)

namespace TracksCircles

theorem of_eq (h : s.TracksCircles files options stack) (hfloor : s'.partialFloor = s.partialFloor)
    (hkept : ∀ q, s'.kept? q = s.kept? q) : s'.TracksCircles files options stack where
  floor p below hp := by
    rw [hfloor]
    exact h.floor p below hp
  asked p q := by
    rw [hkept, hkept]
    exact h.asked p q

theorem updateModule (h : s.TracksCircles files options stack) (p : Path) {f : Module → Module}
    (hf : ∀ m, s.module? p = some m → (f m).exports = m.exports) :
    (s.updateModule p f).TracksCircles files options stack :=
  h.of_eq rfl (s.kept?_updateModule hf)

theorem load (h : s.TracksCircles files options stack) {p : Path} {r : Except Error Path}
    (hl : files.Loads p s r s') : s'.TracksCircles files options stack :=
  h.of_eq hl.partialFloor_eq hl.kept?_eq

theorem beginScan (h : s.TracksCircles files options stack) (hs : s.Running files options stack)
    (p : Path) : (s.beginScan p).TracksCircles files options (p :: stack) := by
  refine ⟨fun q below hsuffix hfloor => ?_, fun q r => ?_⟩
  · rcases List.suffix_cons_iff.1 hsuffix with heq | hsuffix
    · obtain ⟨-, rfl⟩ := List.cons.inj heq
      have hlt := hs.floor_lt _ hfloor
      rw [hs.depth_eq] at hlt
      exact absurd hlt (Nat.lt_irrefl _)
    · exact h.floor q below hsuffix hfloor
  · rw [kept?_beginScan, kept?_beginScan]
    exact h.asked q r

theorem endScan {p : Path} (h : s.TracksCircles files options (p :: stack)) (d : Nat) :
    (s.endScan p d).TracksCircles files options stack := by
  refine ⟨fun q below hsuffix hfloor => ?_, fun q r => ?_⟩
  · refine h.floor q below (hsuffix.trans (List.suffix_cons p stack)) ?_
    simp only [Store.endScan, Store.exitScan] at hfloor
    split at hfloor
    · cases hfloor
    · exact hfloor
  · rw [kept?_endScan, kept?_endScan]
    exact h.asked q r

theorem notePartialRead (h : s.TracksCircles files options stack)
    (hs : s.Running files options stack) {q : Path} {m : Module} {w : Pending}
    (hm : s.module? q = some m) (hw : m.pending = some w) (hcircle : files.OnCircle options q) :
    (s.notePartialRead w.depth).TracksCircles files options stack := by
  refine ⟨fun p below hsuffix hfloor => ?_, h.asked⟩
  have hread : below.length = w.depth → files.OnCircle options p := by
    intro hlength
    obtain ⟨below', hsuffix', hlength'⟩ := (hs.pending_iff q m hm w.depth).1 (by rw [hw]; rfl)
    have hinner := List.suffix_of_suffix_length_le hsuffix hsuffix' (by simp; omega)
    obtain ⟨rfl, -⟩ := List.cons.inj (hinner.eq_of_length (by simp; omega))
    exact hcircle
  simp only [Store.notePartialRead, Option.some.injEq] at hfloor
  cases hold : s.partialFloor with
  | none => exact hread (by simpa [hold] using hfloor.symm)
  | some f =>
      have hmin : min f w.depth = below.length := by simpa only [hold] using hfloor
      rcases Nat.le_total f w.depth with hle | hle
      · exact h.floor p below hsuffix (by rw [hold, ← hmin, Nat.min_eq_left hle])
      · exact hread (by rw [← hmin, Nat.min_eq_right hle])

/-- A table is kept when everything that its file asks is, or the file is on a circle. -/
theorem keep (h : s.TracksCircles files options stack) {p : Path} (t : ExportTable)
    (hloaded : (s.module? p).isSome)
    (hasked : ∀ q, files.Asks options p q → files.OnCircle options p ∨ (s.kept? q).isSome) :
    (s.updateModule p (·.keep t)).TracksCircles files options stack := by
  have hmono : ∀ {q}, (s.kept? q).isSome → ((s.updateModule p (·.keep t)).kept? q).isSome := by
    intro q hq
    rw [kept?, module?_updateModule]
    split
    · obtain ⟨m, hm⟩ := Option.isSome_iff_exists.1 hloaded
      rw [hm]
      rfl
    · exact hq
  refine ⟨h.floor, fun q r hq hasks => ?_⟩
  by_cases heq : q = p
  · subst heq
    exact (hasked r hasks).imp_right hmono
  · rw [kept?, module?_updateModule_of_ne _ heq] at hq
    exact (h.asked q r hq hasks).imp_right hmono

end TracksCircles

end Store

/-! ## Asking for a table -/

def TableOf.TracksCircles (files : FileTree) (options : ResolverOptions) (T : TableOf) : Prop :=
  ∀ {q stack s s' r}, Store.Running files options stack s →
    (∀ p ∈ stack.head?, files.Asks options p q) → s.TracksCircles files options stack →
    (T q).eval s = (r, s') →
    s'.TracksCircles files options stack ∧ ∀ t, r = .ok t → s'.Settles q

namespace ScanStep

theorem Effect.tracksCircles {T : TableOf} (hT : T.TracksCircles files options) {p : Path}
    {i : ScanStep} {r : Except Error Unit} (hs : s.Running files options (p :: stack))
    (hi : i ∈ files.scanSteps options p) (h : s.TracksCircles files options (p :: stack))
    (he : Effect files T p i s r s') : s'.TracksCircles files options (p :: stack) ∧
      (r = .ok () → ∀ q, i.asked? = some q → s'.Settles q) := by
  cases hasked : i.asked? with
  | none =>
      refine ⟨?_, fun _ q hq => (by cases hq)⟩
      cases he with
      | changed hm hf =>
          refine h.updateModule p fun m' hm' => ?_
          obtain rfl := Option.some.inj (hm.symm.trans hm')
          exact (LocalStep.evolves_change hf).2
      | refused => exact h
      | visited hl => exact h.load (FileTree.loads hl)
      | unvisited hl => exact h.load (FileTree.loads hl)
      | merged | unmerged | taken | notFound | lost | untaken => cases hasked
  | some q =>
      obtain ⟨a, s₁, f, heval, rfl, hf, hok⟩ := he.ask hasked
      obtain ⟨htracks, hsettles⟩ := hT hs (fun p' hp' => by
        obtain rfl := Option.some.inj hp'
        exact FileTree.asks_of_asked? hi hasked) h heval
      have hkept := s₁.kept?_updateModule (p := p) fun m _ => hf m
      refine ⟨htracks.updateModule p fun m _ => hf m, fun hr q' hq' => ?_⟩
      obtain rfl := Option.some.inj hq'
      obtain ⟨t, rfl⟩ := hok hr
      exact (hsettles t rfl).imp_left fun hq => by rwa [hkept]

theorem Performs.tracksCircles {T : TableOf} (htame : T.Tame files options)
    (hT : T.TracksCircles files options) {p : Path} {is : List ScanStep} {r : Except Error Unit}
    (he : Performs files T p is s r s') (hs : s.Running files options (p :: stack))
    (his : ∀ i ∈ is, i ∈ files.scanSteps options p)
    (h : s.TracksCircles files options (p :: stack)) :
    s'.TracksCircles files options (p :: stack) ∧
      (r = .ok () → ∀ i ∈ is, ∀ q, i.asked? = some q → s'.Settles q) := by
  induction he with
  | done s => exact ⟨h, by simp⟩
  | step head tail ih =>
      rw [List.forall_mem_cons] at his
      obtain ⟨htracks, hsettles⟩ := head.tracksCircles hT hs his.1 h
      obtain ⟨hrunning, -⟩ := head.running htame hs his.1
      obtain ⟨htracks', hsettles'⟩ := ih hrunning his.2 htracks
      refine ⟨htracks', fun hr => List.forall_mem_cons.2 ⟨fun q hq => ?_, hsettles' hr⟩⟩
      exact (hsettles rfl q hq).evolves hrunning (tail.running htame hrunning his.2).2
  | stop head =>
      rw [List.forall_mem_cons] at his
      exact ⟨(head.tracksCircles hT hs his.1 h).1, fun hr => by cases hr⟩

end ScanStep

namespace ExportScan

theorem Answered.tracksCircles {n : Nat}
    (hT : ∀ k < n, (tableOf files k).TracksCircles files options) {p : Path}
    {r : Except Error ExportTable} (he : Answered files n p s r s')
    (hs : s.Running files options stack) (hasks : ∀ q ∈ stack.head?, files.Asks options q p)
    (h : s.TracksCircles files options stack) :
    s'.TracksCircles files options stack ∧ ∀ t, r = .ok t → s'.Settles p := by
  have hleads : ∀ q ∈ stack, files.Leads options q p := by
    cases stack with
    | nil => simp
    | cons q stack => exact hs.leads_of_asks (hasks q rfl)
  have hscan : ∀ {k m s₁ r}, k < n → s.module? p = some m → m.exports = none → m.pending = none →
      Performs files (tableOf files k) p (m.scanSteps files s.options p) (s.beginScan p) r s₁ →
      s₁.Running files options (p :: stack) ∧ s₁.TracksCircles files options (p :: stack) ∧
        (r = .ok () → ∀ q, files.Asks options p q → s₁.Settles q) := by
    intro k m s₁ r hk hm ht hw steps
    rw [hs.scanSteps_eq hm] at steps
    have hbegun := hs.beginScan hm ht hw hleads
    obtain ⟨htracks, hsettles⟩ := steps.tracksCircles (tame_tableOf k) (hT k hk) hbegun
      (fun i hi => hi) (h.beginScan hs p)
    refine ⟨(steps.running (tame_tableOf k) hbegun fun i hi => hi).1, htracks, fun hr q hq => ?_⟩
    obtain ⟨i, hi, hasked⟩ := hq.exists_asked?
    exact hsettles hr i hi q hasked
  cases he with
  | unloaded => exact ⟨h, fun t ht => by cases ht⟩
  | kept hm ht =>
      refine ⟨h, fun _ _ => .inl ?_⟩
      rw [Store.kept?_of_module? hm, ht]
      rfl
  | @unfinished _ _ _ m w hm ht hw =>
      have hmem := (hs.pending_iff_mem hm).1 (by rw [hw]; rfl)
      refine ⟨h.notePartialRead hs hm hw ?_, fun _ _ => .inr rfl⟩
      cases stack with
      | nil => cases hmem
      | cons q stack =>
          refine .of_asks (hasks q rfl) ?_
          rcases List.mem_cons.1 hmem with rfl | hmem
          · exact .refl _
          · exact (List.pairwise_cons.1 hs.leads).1 p hmem
  | exhausted => exact ⟨h, fun t ht => by cases ht⟩
  | failed hm ht hw steps =>
      exact ⟨(hscan (Nat.lt_succ_self _) hm ht hw steps).2.1.endScan _, fun t ht => by cases ht⟩
  | incomplete hm ht hw steps _ hnoted =>
      refine ⟨(hscan (Nat.lt_succ_self _) hm ht hw steps).2.1.endScan _, fun _ _ => .inr ?_⟩
      obtain ⟨f, hf, -⟩ := hnoted.endScan p (Nat.le_refl s.depth)
      rw [hf]
      rfl
  | @completed _ _ _ s₁ _ m₁ hm ht hw steps hm₁ hclean =>
      obtain ⟨hrunning, htracks, hsettles⟩ := hscan (Nat.lt_succ_self _) hm ht hw steps
      have hended := Store.module?_endScan_self hm₁ s.depth
      refine ⟨(htracks.endScan s.depth).keep m₁.table (by rw [hended]; rfl) fun q hq => ?_,
        fun _ _ => .inl ?_⟩
      · rw [Store.kept?_endScan]
        rcases hsettles rfl q hq with hkept | hread
        · exact .inr hkept
        · -- What is on record when nothing further out is, is this scan itself.
          obtain ⟨f, hf⟩ := Option.isSome_iff_exists.1 hread
          have hlt := hrunning.floor_lt f hf
          have hle : ¬ f < s.depth := fun hlt => hclean ⟨f, hf, hlt⟩
          rw [hrunning.depth_eq, List.length_cons] at hlt
          rw [hs.depth_eq] at hle
          obtain rfl : f = stack.length := by omega
          exact .inl (htracks.floor p stack List.suffix_rfl hf)
      · rw [Store.kept?_of_module? (Store.module?_updateModule_self _ hended)]
        rfl

theorem tracksCircles_tableOf (n : Nat) : (tableOf files n).TracksCircles files options := by
  induction n using Nat.strongRecOn with
  | ind n ih =>
      intro q stack s s' r hs hasks h heval
      exact (answered heval).tracksCircles ih hs hasks h

end ExportScan

/-! ## Between queries -/

theorem ExportScan.eval_tableOf_of_isSome_kept? {n : Nat} {p : Path} (h : (s.kept? p).isSome) :
    ∃ t, (tableOf files n p).eval s = (.ok t, s) := by
  obtain ⟨t, ht⟩ := Option.isSome_iff_exists.1 h
  obtain ⟨m, hm, hkept⟩ := Option.bind_eq_some_iff.1 ht
  exact ⟨t, eval_tableOf_of_kept hm hkept⟩

theorem Store.Reached.tracksCircles (h : s.Reached files options imported) :
    s.TracksCircles files options [] := by
  induction h with
  | fresh => exact ⟨by simp, fun p q hp => (by cases hp)⟩
  | load _ p ih => exact ih.load (files.eval_load p _)
  | ask h _ p ih => exact (tracksCircles_tableOf _ h.running (by simp) ih rfl).1
  | edit _ p f hf ih => exact ih.updateModule p fun m hm => (hf m hm).exports_eq

/-- A file that a kept one leads to is kept, unless there is a circle on the way to it. -/
theorem Store.Reached.isSome_kept? (h : s.Reached files options imported) {p q : Path}
    (hp : (s.kept? p).isSome) (hleads : files.Leads options p q) :
    files.LeadsByCircle options p q ∨ (s.kept? q).isSome := by
  induction hleads with
  | refl => exact .inr hp
  | @tail q r hq hasks ih =>
      rcases ih with ⟨g, hg, hcircle, hback⟩ | hkept
      · exact .inl ⟨g, hg, hcircle, hback.ask hasks⟩
      · refine (h.tracksCircles.asked q r hkept hasks).imp_left fun hcircle => ?_
        exact ⟨q, hq, hcircle, hasks.leads⟩

end Typings
