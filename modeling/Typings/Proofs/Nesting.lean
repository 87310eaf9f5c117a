import Typings.Proofs.PartialRead
import Typings.Proofs.Reached

/-!
# Nested scans

While the table of one module is asked for, scans run inside each other.  `During` lists the
moments of such a run together with the modules whose scans are running.  They are different
files, so a bound on the nesting that allows for every file is never met, and the answer does not
depend on it.
-/

namespace Typings

/-- What modules and store say about the running scans of the modules in `stack`. -/
structure Store.Tracks (s : Store) (stack : List Path) : Prop where
  depth_eq : s.depth = stack.length
  nodup : stack.Nodup
  isSome_of_mem : ∀ q ∈ stack, (s.module? q).isSome
  pending_iff : ∀ q m, s.module? q = some m → (m.pending.isSome ↔ q ∈ stack)
  pending_depth : ∀ above q below m w, stack = above ++ q :: below → s.module? q = some m →
    m.pending = some w → w.depth = below.length

variable {files : FileTree} {options : ResolverOptions} {stack : List Path} {s s' : Store}

theorem Store.Running.tracks (h : s.Running files options stack) : s.Tracks stack where
  depth_eq := h.depth_eq
  nodup := h.nodup
  isSome_of_mem := h.isSome_of_mem
  pending_iff _ _ hm := h.pending_iff_mem hm
  pending_depth _ _ _ _ _ hstack hm hw := h.depth_of_append hstack hm hw

namespace ExportScan

open ScanStep

/-! ## Moments -/

/--
The store is `s'` at a moment while the table of `v` is asked for in `s`, with at most `n` nested
scans; the scans of the modules in `stack`, the innermost first, have begun since and not ended.
-/
inductive During (files : FileTree) : Nat → Path → Store → List Path → Store → Prop
  | asked (n : Nat) (v : Path) (s : Store) : During files n v s [] s
  | answered (n : Nat) (v : Path) (s : Store) :
      During files n v s [] ((tableOf files n v).eval s).2
  | scanning {n : Nat} {v : Path} {s s₁ : Store} {m : Module} {before after : List ScanStep}
      {r : Except Error Unit} (hm : s.module? v = some m) (ht : m.exports = none)
      (hw : m.pending = none) (hsteps : m.scanSteps files s.options v = before ++ after)
      (hbefore : Performs files (tableOf files n) v before (s.beginScan v) r s₁) :
      During files (n + 1) v s [v] s₁
  | inside {n : Nat} {v q : Path} {s s₁ s' : Store} {m : Module} {i : ScanStep}
      {before after : List ScanStep} {stack : List Path} (hm : s.module? v = some m)
      (ht : m.exports = none) (hw : m.pending = none)
      (hsteps : m.scanSteps files s.options v = before ++ i :: after)
      (hbefore : Performs files (tableOf files n) v before (s.beginScan v) (.ok ()) s₁)
      (hi : i.asked? = some q) (h : During files n q s₁ stack s') :
      During files (n + 1) v s (stack ++ [v]) s'

theorem During.running {n : Nat} {v : Path} {inner : List Path} (hd : During files n v s inner s')
    (h : s.Running files options stack) (hleads : ∀ r ∈ stack, files.Leads options r v) :
    s'.Running files options (inner ++ stack) := by
  induction hd generalizing stack with
  | asked => exact h
  | answered n v s => exact (tame_tableOf n h hleads rfl).1
  | scanning hm ht hw hsteps hbefore =>
      rw [h.scanSteps_eq hm] at hsteps
      refine (hbefore.running (tame_tableOf _) (h.beginScan hm ht hw hleads) fun i hi => ?_).1
      rw [hsteps]
      exact List.mem_append_left _ hi
  | @inside n v q s s₁ s' m i before after inner hm ht hw hsteps hbefore hi _ ih =>
      obtain ⟨hrunning, -, hall⟩ := running_before h hleads hm ht hw hsteps hbefore
      have hasks := FileTree.asks_of_asked? (hall i (by simp)) hi
      rw [List.append_assoc]
      exact ih hrunning (hrunning.leads_of_asks hasks)

/--
A property of stores holds at every moment when asking for a table keeps it, and so do the steps of
a scan from its beginning on, however far they have come.
-/
theorem During.keeps {X : Store → Prop}
    (hask : ∀ {n q stack s}, s.Running files options stack →
      (∀ r ∈ stack, files.Leads options r q) → X s → X ((tableOf files n q).eval s).2)
    (hscan : ∀ {n v m done stack s s' r}, s.Running files options stack →
      (∀ r ∈ stack, files.Leads options r v) → s.module? v = some m → m.exports = none →
      m.pending = none → (∀ i ∈ done, i ∈ files.scanSteps options v) →
      Performs files (tableOf files n) v done (s.beginScan v) r s' → X s → X s')
    {n : Nat} {v : Path} {inner : List Path} (hd : During files n v s inner s')
    (h : s.Running files options stack) (hleads : ∀ r ∈ stack, files.Leads options r v)
    (hs : X s) : X s' := by
  induction hd generalizing stack with
  | asked => exact hs
  | answered => exact hask h hleads hs
  | scanning hm ht hw hsteps hbefore =>
      rw [h.scanSteps_eq hm] at hsteps
      refine hscan h hleads hm ht hw (fun i hi => ?_) hbefore hs
      rw [hsteps]
      exact List.mem_append_left _ hi
  | inside hm ht hw hsteps hbefore hi _ ih =>
      obtain ⟨hrunning, -, hall⟩ := running_before h hleads hm ht hw hsteps hbefore
      have hasks := FileTree.asks_of_asked? (hall _ (by simp)) hi
      exact ih hrunning (hrunning.leads_of_asks hasks)
        (hscan h hleads hm ht hw (fun j hj => hall j (List.mem_append_left _ hj)) hbefore hs)

/-! ## Bounds -/

end ExportScan

namespace ScanStep

open ExportScan

theorem Effect.congr {T T' : TableOf} {p : Path} {i : ScanStep} {r : Except Error Unit}
    (he : Effect files T p i s r s')
    (hT : ∀ q, i.asked? = some q → (T q).eval s = (T' q).eval s) : Effect files T' p i s r s' := by
  cases he with
  | changed hm hf => exact .changed hm hf
  | refused hm hf => exact .refused hm hf
  | visited hl => exact .visited hl
  | unvisited hl => exact .unvisited hl
  | merged hl => exact .merged ((hT _ rfl).symm.trans hl)
  | unmerged hl => exact .unmerged ((hT _ rfl).symm.trans hl)
  | taken hl hm hfound => exact .taken ((hT _ rfl).symm.trans hl) hm hfound
  | notFound hl hm hfound => exact .notFound ((hT _ rfl).symm.trans hl) hm hfound
  | lost hl hm => exact .lost ((hT _ rfl).symm.trans hl) hm
  | untaken hl => exact .untaken ((hT _ rfl).symm.trans hl)

theorem Performs.congr {T T' : TableOf} (htame : T.Tame files options) {p : Path}
    {is : List ScanStep} {r : Except Error Unit} (hp : Performs files T p is s r s')
    (h : s.Running files options (p :: stack)) (his : ∀ i ∈ is, i ∈ files.scanSteps options p)
    (hT : ∀ q s, s.Running files options (p :: stack) →
      (∀ r ∈ p :: stack, files.Leads options r q) → (T q).eval s = (T' q).eval s) :
    Performs files T' p is s r s' := by
  have heffect : ∀ {i s r s'}, s.Running files options (p :: stack) →
      i ∈ files.scanSteps options p → Effect files T p i s r s' → Effect files T' p i s r s' :=
    fun h hi he => he.congr fun q hq =>
      hT q _ h (h.leads_of_asks (FileTree.asks_of_asked? hi hq))
  induction hp with
  | done s => exact .done s
  | @step i is s s₁ s₂ r head tail ih =>
      have hi := his i (List.mem_cons_self ..)
      have hrunning := (head.running htame h hi).1
      exact .step (heffect h hi head) (ih hrunning fun j hj => his j (List.mem_cons_of_mem _ hj))
  | stop head => exact .stop (heffect h (his _ (List.mem_cons_self ..)) head)

end ScanStep

namespace ExportScan

open ScanStep

theorem eval_scan_congr {T T' : TableOf} (htame : T.Tame files options) (hgrows : T.Grows)
    (hgrows' : T'.Grows) {p : Path} {m : Module} (h : s.Running files options stack)
    (hleads : ∀ r ∈ stack, files.Leads options r p) (hm : s.module? p = some m)
    (ht : m.exports = none) (hw : m.pending = none)
    (hT : ∀ q s, s.Running files options (p :: stack) →
      (∀ r ∈ p :: stack, files.Leads options r q) → (T q).eval s = (T' q).eval s) :
    (scan files T p).eval s = (scan files T' p).eval s := by
  obtain ⟨r, s₁, m₁, hsteps, hm₁, hscan⟩ := eval_scan hgrows hm
  obtain ⟨r', s₂, m₂, hsteps', hm₂, hscan'⟩ := eval_scan hgrows' hm
  have hall : ∀ i ∈ m.scanSteps files s.options p, i ∈ files.scanSteps options p := by
    rw [h.scanSteps_eq hm]
    exact fun i hi => hi
  have hsame := hsteps.congr htame (h.beginScan hm ht hw hleads) hall hT
  obtain ⟨rfl, rfl⟩ := hsame.unique hsteps'
  obtain rfl := Option.some.inj (hm₁.symm.trans hm₂)
  rw [hscan, hscan']

theorem eval_tableOf_of_not_idle {p : Path}
    (h : ∀ m, s.module? p = some m → m.exports = none → m.pending ≠ none) (n k : Nat) :
    (tableOf files n p).eval s = (tableOf files k p).eval s := by
  unfold tableOf
  cases hm : s.module? p with
  | none =>
      have hcurrent := Query.eval_current_of_none hm
      rw [Query.eval_bind_error hcurrent, Query.eval_bind_error hcurrent]
  | some m =>
      have hcurrent := Query.eval_current_of_some hm
      rw [Query.eval_bind_ok hcurrent, Query.eval_bind_ok hcurrent]
      cases ht : m.exports with
      | some t => rfl
      | none =>
          obtain ⟨w, hw⟩ := Option.ne_none_iff_exists'.1 (h m hm ht)
          rw [hw]

theorem eval_tableOf_succ {n : Nat} {p : Path} {m : Module} (hm : s.module? p = some m)
    (ht : m.exports = none) (hw : m.pending = none) :
    (tableOf files (n + 1) p).eval s =
      (Prod.fst <$> scan files (tableOf files n) p).eval s := by
  rw [tableOf, Query.eval_bind_ok (Query.eval_current_of_some hm), ht, hw]
  rfl

/-- Bounds that leave room for every file lead to the same answer. -/
theorem eval_tableOf_congr (hproper : files.Proper) {n k : Nat} {p : Path}
    (h : s.Running files options stack) (hleads : ∀ r ∈ stack, files.Leads options r p)
    (hn : files.filePaths.card ≤ n + stack.length) (hk : files.filePaths.card ≤ k + stack.length) :
    (tableOf files n p).eval s = (tableOf files k p).eval s := by
  induction n generalizing k p stack s with
  | zero =>
      refine eval_tableOf_of_not_idle (fun m hm _ hw => ?_) 0 k
      have hlt := h.length_lt hproper hm hw
      omega
  | succ n ih =>
      by_cases hidle : ∀ m, s.module? p = some m → m.exports = none → m.pending ≠ none
      · exact eval_tableOf_of_not_idle hidle _ _
      · push Not at hidle
        obtain ⟨m, hm, ht, hw⟩ := hidle
        obtain ⟨k, rfl⟩ : ∃ j, k = j + 1 := by
          have hlt := h.length_lt hproper hm hw
          exact ⟨k - 1, by omega⟩
        have hscan := eval_scan_congr (tame_tableOf n) (grows_tableOf n) (grows_tableOf k) h hleads
          hm ht hw fun q s hs hq => ih hs hq (by rw [List.length_cons]; omega)
            (by rw [List.length_cons]; omega)
        rw [eval_tableOf_succ hm ht hw, eval_tableOf_succ hm ht hw, Query.eval_map, Query.eval_map,
          hscan]

theorem Lookup.pos (hproper : files.Proper) {n k : Nat} {v w : Path}
    (hl : Lookup files n v s k w s') (h : s.Running files options stack)
    (hleads : ∀ r ∈ stack, files.Leads options r v)
    (hn : files.filePaths.card ≤ n + stack.length) {m : Module} (hm : s'.module? w = some m)
    (hw : m.pending = none) : 0 < k := by
  induction hl generalizing stack with
  | here n v s =>
      have hlt := h.length_lt hproper hm hw
      omega
  | @inside n k v q w s s₁ s' m' i before after hm' ht hw' hsteps hbefore hi _ ih =>
      obtain ⟨hrunning, -, hall⟩ := running_before h hleads hm' ht hw' hsteps hbefore
      have hasks := FileTree.asks_of_asked? (hall i (by simp)) hi
      refine ih hrunning (hrunning.leads_of_asks hasks) ?_ hm
      rw [List.length_cons]
      omega

end ExportScan

/-- Between queries, asking for a table is the same as asking for the exports. -/
theorem FileTree.eval_exports_eq (hproper : files.Proper) (h : s.Running files options [])
    (p : Path) : (files.exports p).eval s = (files.tableOf p).eval s := by
  have hcard := files.card_filePaths_le
  rw [FileTree.eval_exports h]
  exact ExportScan.eval_tableOf_congr hproper h (by simp) (by rw [List.length_nil]; omega)
    (by rw [List.length_nil]; omega)

end Typings
