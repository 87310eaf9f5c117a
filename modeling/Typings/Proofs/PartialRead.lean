import Typings.Proofs.Location
import Typings.Proofs.Reached

/-!
# Reads of unfinished tables

While a scan runs, other tables are asked for.  A read of the unfinished table of a scan further
out stays on record until that scan ends, so no scan that comes after it in the stack is kept.
-/

namespace Typings

namespace ExportScan

open ScanStep

variable {files : FileTree} {options : ResolverOptions}

/--
While the table of `v` is asked for in `s`, with at most `n` nested scans, the table of `w` is
asked for in `s'`, with at most `k`.
-/
inductive Lookup (files : FileTree) : Nat → Path → Store → Nat → Path → Store → Prop
  | here (n : Nat) (v : Path) (s : Store) : Lookup files n v s n v s
  | inside {n k : Nat} {v q w : Path} {s s₁ s' : Store} {m : Module} {i : ScanStep}
      {before after : List ScanStep} (hm : s.module? v = some m) (ht : m.exports = none)
      (hw : m.pending = none) (hsteps : m.scanSteps files s.options v = before ++ i :: after)
      (hbefore : Performs files (tableOf files n) v before (s.beginScan v) (.ok ()) s₁)
      (hi : i.asked? = some q) (hlookup : Lookup files n q s₁ k w s') :
      Lookup files (n + 1) v s k w s'

def ReadsUnfinished (s : Store) (w : Path) : Prop :=
  ∃ m, s.module? w = some m ∧ m.exports = none ∧ m.pending.isSome

def IsScanning (s : Store) (w : Path) : Prop := ∃ m, s.module? w = some m ∧ m.pending.isSome

end ExportScan

namespace ScanStep

open ExportScan Store

variable {files : FileTree} {options : ResolverOptions} {stack : List Path} {s s' : Store}

theorem Effect.ask {T : TableOf} {p q : Path} {i : ScanStep} {r : Except Error Unit}
    (h : Effect files T p i s r s') (hq : i.asked? = some q) :
    ∃ a s₁ f, (T q).eval s = (a, s₁) ∧ s' = s₁.updateModule p f ∧
      (∀ m, (f m).exports = m.exports) ∧ (r = .ok () → ∃ t, a = .ok t) := by
  cases h with
  | changed | refused | visited | unvisited => cases hq
  | merged h =>
      obtain rfl := Option.some.inj hq
      exact ⟨_, _, _, h, rfl, fun _ => rfl, fun _ => ⟨_, rfl⟩⟩
  | taken h =>
      obtain rfl := Option.some.inj hq
      exact ⟨_, _, _, h, rfl, fun m => (m.evolves_addTaken _ _).2, fun _ => ⟨_, rfl⟩⟩
  | unmerged h | notFound h | lost h | untaken h =>
      obtain rfl := Option.some.inj hq
      exact ⟨_, _, _, h, (updateModule_id _ p).symm, fun _ => rfl, fun hr => by cases hr⟩

end ScanStep

namespace ExportScan

open ScanStep

variable {files : FileTree} {options : ResolverOptions} {stack : List Path} {s s' : Store}

/-! ## Where lookups happen -/

theorem running_before {n : Nat} {v : Path} {m : Module} {before after : List ScanStep}
    {s₁ : Store} {i : ScanStep} (h : s.Running files options stack)
    (hleads : ∀ r ∈ stack, files.Leads options r v) (hm : s.module? v = some m)
    (ht : m.exports = none) (hw : m.pending = none)
    (hsteps : m.scanSteps files s.options v = before ++ i :: after)
    (hbefore : Performs files (tableOf files n) v before (s.beginScan v) (.ok ()) s₁) :
    s₁.Running files options (v :: stack) ∧ (s.beginScan v).Evolves [v] s₁ ∧
      ∀ j ∈ before ++ i :: after, j ∈ files.scanSteps options v := by
  rw [h.scanSteps_eq hm] at hsteps
  have hall : ∀ j ∈ before ++ i :: after, j ∈ files.scanSteps options v := by
    intro j hj
    rw [hsteps]
    exact hj
  obtain ⟨hrunning, hevolves⟩ := hbefore.running (tame_tableOf n) (h.beginScan hm ht hw hleads)
    fun j hj => hall j (List.mem_append_left _ hj)
  exact ⟨hrunning, hevolves, hall⟩

theorem Lookup.running {n k : Nat} {v w : Path} (hl : Lookup files n v s k w s')
    (h : s.Running files options stack) (hleads : ∀ r ∈ stack, files.Leads options r v) :
    ∃ inner, s'.Running files options (inner ++ stack) ∧
      ∀ r ∈ inner ++ stack, files.Leads options r w := by
  induction hl generalizing stack with
  | here n v s => exact ⟨[], h, hleads⟩
  | @inside n k v q w s s₁ s' m i before after hm ht hw hsteps hbefore hi _ ih =>
      obtain ⟨hrunning, -, hall⟩ := running_before h hleads hm ht hw hsteps hbefore
      have hasks := FileTree.asks_of_asked? (hall i (by simp)) hi
      obtain ⟨inner, hinner, hleads'⟩ := ih hrunning (hrunning.leads_of_asks hasks)
      refine ⟨inner ++ [v], ?_⟩
      rw [List.append_assoc]
      exact ⟨hinner, hleads'⟩

/-! ## Reads stay on record -/

theorem notedBelow_keep {d : Nat} (p : Path) (t : ExportTable) :
    (s.updateModule p (·.keep t)).NotedBelow d ↔ s.NotedBelow d := Iff.rfl

theorem Answered.notedBelow {n d : Nat} {v : Path} {m : Module} {r : Except Error ExportTable}
    (h : Answered files (n + 1) v s r s') (hm : s.module? v = some m) (ht : m.exports = none)
    (hw : m.pending = none) (hd : d ≤ s.depth)
    (hsteps : ∀ {r s₁}, Performs files (tableOf files n) v (m.scanSteps files s.options v)
      (s.beginScan v) r s₁ → s₁.NotedBelow d) : s'.NotedBelow d := by
  cases h with
  | unloaded hm' => simp [hm] at hm'
  | kept hm' ht' => simp_all
  | unfinished hm' _ hw' => simp_all
  | failed hm' _ _ steps =>
      obtain rfl := Option.some.inj (hm.symm.trans hm')
      exact (hsteps steps).endScan v hd
  | incomplete hm' _ _ steps _ _ =>
      obtain rfl := Option.some.inj (hm.symm.trans hm')
      exact (hsteps steps).endScan v hd
  | completed hm' _ _ steps _ _ =>
      obtain rfl := Option.some.inj (hm.symm.trans hm')
      rw [notedBelow_keep]
      exact (hsteps steps).endScan v hd

/--
If a lookup reads the unfinished table of one of the scans `outer`, this is on record when the
table asked for is there.
-/
theorem Lookup.notedBelow {n k : Nat} {v w : Path} {s₁ : Store} (hl : Lookup files n v s k w s₁)
    {inner outer : List Path} (h : s.Running files options (inner ++ outer))
    (hleads : ∀ r ∈ inner ++ outer, files.Leads options r v) (hread : ReadsUnfinished s₁ w)
    (hw : w ∈ outer) {r : Except Error ExportTable}
    (heval : (tableOf files n v).eval s = (r, s')) : s'.NotedBelow outer.length := by
  induction hl generalizing inner r s' with
  | here n v s =>
      rcases hread with ⟨m, hm, ht, hpending⟩
      obtain ⟨p, hp⟩ := Option.isSome_iff_exists.1 hpending
      cases answered heval with
      | unfinished hm' ht' hp' =>
          obtain rfl := Option.some.inj (hm.symm.trans hm')
          obtain rfl := Option.some.inj (hp.symm.trans hp')
          obtain ⟨above, below, rfl⟩ := List.append_of_mem hw
          have hdepth := h.depth_of_append (List.append_assoc inner above (v :: below)).symm hm hp
          refine (Store.notedBelow_notePartialRead s _ _).2 (.inl ?_)
          rw [hdepth, List.length_append, List.length_cons]
          omega
      | unloaded hm' => simp_all
      | kept hm' ht' => simp_all
      | exhausted hm' _ hp' => simp_all
      | failed hm' _ hp' => simp_all
      | incomplete hm' _ hp' => simp_all
      | completed hm' _ hp' => simp_all
  | @inside n k v q w s s₁ s₂ m i before after hm ht hidle hsteps hbefore hi _ ih =>
      obtain ⟨hrunning, -, hall⟩ := running_before h hleads hm ht hidle hsteps hbefore
      have hasks := FileTree.asks_of_asked? (hall i (by simp)) hi
      refine (answered heval).notedBelow hm ht hidle ?_ ?_
      · rw [h.depth_eq, List.length_append]
        omega
      · intro r' s₃ hperforms
        rw [hsteps] at hperforms
        -- The steps up to the lookup are the same ones, so the scan gets that far.
        obtain ⟨r₁, s₂, heffect, hafter⟩ := hperforms.at_cons hbefore
        obtain ⟨a, s₄, f, hask, rfl, -⟩ := heffect.ask hi
        have hinside : s₁.Running files options ((v :: inner) ++ outer) := hrunning
        have hnoted : s₄.NotedBelow outer.length :=
          ih hinside (hrunning.leads_of_asks hasks) hread hw hask
        rcases hafter with tail | rfl
        · obtain ⟨hrunning', -⟩ := heffect.running (tame_tableOf n) hrunning (hall i (by simp))
          have hevolves := (tail.running (tame_tableOf n) hrunning'
            fun j hj => hall j (by simp [hj])).2
          exact hevolves.notedBelow _ hnoted
        · exact hnoted

theorem Answered.not_notedBelow_of_kept {n : Nat} {v : Path} {m m' : Module}
    {r : Except Error ExportTable} (he : Answered files n v s r s')
    (h : s.Running files options stack) (hleads : ∀ q ∈ stack, files.Leads options q v)
    (hm : s.module? v = some m) (ht : m.exports = none) (hw : m.pending = none)
    (hm' : s'.module? v = some m') (hkept : m'.exports.isSome) : ¬ s'.NotedBelow s.depth := by
  have hunkept : ∀ {k r s₁}, Performs files (tableOf files k) v
      (m.scanSteps files s.options v) (s.beginScan v) r s₁ →
      (s₁.endScan v s.depth).module? v = some m' → False := by
    intro k r s₁ steps hend
    rw [h.scanSteps_eq hm] at steps
    obtain ⟨hrunning, -⟩ := steps.running (tame_tableOf k) (h.beginScan hm ht hw hleads)
      fun i hi => hi
    obtain ⟨m₁, hm₁⟩ := Option.isSome_iff_exists.1
      (hrunning.isSome_of_mem v (List.mem_cons_self ..))
    obtain rfl : m₁.endScan = m' :=
      Option.some.inj ((Store.module?_endScan_self hm₁ _).symm.trans hend)
    have hunkept := hrunning.exports_eq_none hm₁
    simp [Module.endScan, hunkept] at hkept
  cases he with
  | unloaded hm₀ => simp_all
  | kept hm₀ ht₀ => simp_all
  | unfinished hm₀ _ hw₀ => simp_all
  | exhausted hm₀ _ _ => simp_all
  | failed hm₀ _ _ steps =>
      obtain rfl := Option.some.inj (hm.symm.trans hm₀)
      exact (hunkept steps hm').elim
  | incomplete hm₀ _ _ steps _ _ =>
      obtain rfl := Option.some.inj (hm.symm.trans hm₀)
      exact (hunkept steps hm').elim
  | completed _ _ _ _ _ hnoted =>
      rw [notedBelow_keep]
      intro hnoted'
      exact hnoted (Store.notedBelow_of_exitScan hnoted')

/--
No table that was built on an unfinished table is kept.  Whenever the scan of `v` keeps its table,
no lookup made during the scan was answered from the unfinished table of a module whose scan was
running before.
-/
theorem kept_scan_reads_no_outer_table {imported : Path → String → Prop} {s₀ s₁ : Store}
    (h₀ : s₀.Reached files options imported) {N n k : Nat} {q v w : Path}
    (hv : Lookup files N q s₀ n v s) {m : Module} (hm : s.module? v = some m)
    (ht : m.exports = none) (hidle : m.pending = none) {r : Except Error ExportTable}
    (hend : (tableOf files n v).eval s = (r, s'))
    (hkept : ∃ m', s'.module? v = some m' ∧ m'.exports.isSome) (hw : Lookup files n v s k w s₁)
    (hread : ReadsUnfinished s₁ w) : ¬ IsScanning s w := by
  rintro ⟨mw, hmw, hscanning⟩
  obtain ⟨stack, hrunning, hleads⟩ := hv.running h₀.running (by simp)
  rw [List.append_nil] at hrunning hleads
  have houter : s.Running files options ([] ++ stack) := hrunning
  have hmem := (hrunning.pending_iff_mem hmw).1 hscanning
  have hnoted := hw.notedBelow houter hleads hread hmem hend
  rcases hkept with ⟨m', hm', hkept⟩
  have hclean := (answered hend).not_notedBelow_of_kept hrunning hleads hm ht hidle hm' hkept
  rw [hrunning.depth_eq] at hclean
  exact hclean hnoted

def selfWildcard : FileTree := .ofTexts [("a.d.ts", "export * from './a.js';\n")]

set_option maxRecDepth 100000 in
theorem selfWildcard_kept : ∃ s s' s₁ : Store, ∃ r,
    (tableOf selfWildcard 1 ⟨"/w/a.d.ts"⟩).eval s = (r, s') ∧
      (∃ m', s'.module? ⟨"/w/a.d.ts"⟩ = some m' ∧ m'.exports.isSome) ∧
      Lookup selfWildcard 1 ⟨"/w/a.d.ts"⟩ s 0 ⟨"/w/a.d.ts"⟩ s₁ ∧
      ReadsUnfinished s₁ ⟨"/w/a.d.ts"⟩ ∧ ¬ IsScanning s ⟨"/w/a.d.ts"⟩ := by
  let s := ((selfWildcard.load ⟨"a.d.ts"⟩).eval (.ofOptions .standard)).2
  have hs : s.Reached selfWildcard .standard (fun _ _ => True) := .load .fresh _
  have hloaded : (s.module? ⟨"/w/a.d.ts"⟩).isSome := by decide +kernel
  obtain ⟨m, hm⟩ := Option.isSome_iff_exists.1 hloaded
  obtain ⟨ht, hidle⟩ : m.exports = none ∧ m.pending = none := by
    have hfresh : (s.module? ⟨"/w/a.d.ts"⟩).all (fun m => m.exports.isNone ∧ m.pending.isNone) := by
      decide +kernel
    simpa [hm] using hfresh
  have hsteps : m.scanSteps selfWildcard s.options ⟨"/w/a.d.ts"⟩ =
      [.visit ⟨"/w/a.d.ts"⟩] ++ .merge ⟨"/w/a.d.ts"⟩ :: [] := by
    rw [hs.running.options_eq, (hs.running.isFile _ m hm).scanSteps_eq]
    decide +kernel
  have hbegun := Store.module?_beginScan_self hm
  have hvisit : (selfWildcard.load ⟨"/w/a.d.ts"⟩).eval (s.beginScan ⟨"/w/a.d.ts"⟩) =
      (.ok ⟨"/w/a.d.ts"⟩, s.beginScan ⟨"/w/a.d.ts"⟩) :=
    FileTree.load_of_loaded (by decide +kernel) (by rw [hbegun]; rfl)
  have hlookup : Lookup selfWildcard 1 ⟨"/w/a.d.ts"⟩ s 0 ⟨"/w/a.d.ts"⟩ (s.beginScan ⟨"/w/a.d.ts"⟩) :=
    .inside hm ht hidle hsteps (.step (.visited hvisit) (.done _)) rfl (.here 0 _ _)
  have hread : ReadsUnfinished (s.beginScan ⟨"/w/a.d.ts"⟩) ⟨"/w/a.d.ts"⟩ := ⟨_, hbegun, ht, rfl⟩
  have hkept : ∃ m', ((tableOf selfWildcard 1 ⟨"/w/a.d.ts"⟩).eval s).2.module? ⟨"/w/a.d.ts"⟩ =
      some m' ∧ m'.exports.isSome := by
    have hexports : ((((tableOf selfWildcard 1 ⟨"/w/a.d.ts"⟩).eval s).2.module?
        ⟨"/w/a.d.ts"⟩).bind Module.exports).isSome := by
      decide +kernel
    obtain ⟨t, ht'⟩ := Option.isSome_iff_exists.1 hexports
    obtain ⟨m', hm', hm't⟩ := Option.bind_eq_some_iff.1 ht'
    exact ⟨m', hm', by rw [hm't]; rfl⟩
  exact ⟨s, _, _, _, rfl, hkept, hlookup, hread,
    kept_scan_reads_no_outer_table hs (.here 1 _ s) hm ht hidle rfl hkept hlookup hread⟩

end ExportScan

end Typings
