import Typings.Proofs.Bookkeeping

/-!
# Requests end

The bound on nested scans is there for the definition of a scan alone.  Whatever the re-exports
are, the scans that run at one time are of different files, so a bound that allows for every file
is never met, and all such bounds lead to the same outcome.
-/

namespace Typings

open ExportScan

variable {files : FileTree} {options : ResolverOptions} {s s' : Store}

theorem Request.eval_performBy (hproper : files.Proper) (hs : s.AtRest files options) {n : Nat}
    (hn : files.filePaths.card ≤ n) (r : Request) :
    (r.performBy files (ExportScan.tableOf files n)).eval s = (r.perform files).eval s := by
  have hcard := files.card_filePaths_le
  refine (r.alike_perform closed_atRest (fun s p hs => ?_) hproper s hs).1
  exact eval_tableOf_congr hproper hs.running (by simp) hn hcard

theorem Request.Moment.subset_filePaths (hproper : files.Proper) {r : Request} {stack : List Path}
    (h : r.Moment files s stack s') (hs : s.AtRest files options) :
    ∀ q ∈ stack, q ∈ files.filePaths := by
  have hrunning := h.running hproper hs
  exact fun q hq => hrunning.mem_filePaths hproper (hrunning.isSome_of_mem q hq)

/--
Every request ends.  With a bound that is at least the number of files, its outcome is that of the
library, no scan is ever refused for the bound, and the scans that run at one time are of different
files, so there are not more of them than files.
-/
theorem requests_end (hproper : files.Proper) (hs : s.AtRest files options) {n : Nat}
    (hn : files.filePaths.card ≤ n) (r : Request) :
    (r.performBy files (ExportScan.tableOf files n)).eval s = (r.perform files).eval s ∧
      (∀ p s₁ k w s₂ m, r.Asks files s p s₁ → Lookup files n p s₁ k w s₂ →
        s₂.module? w = some m → m.pending = none → 0 < k) ∧
      ∀ stack s', r.Moment files s stack s' →
        stack.Nodup ∧ (∀ q ∈ stack, q ∈ files.filePaths) ∧
          stack.length ≤ files.filePaths.card := by
  refine ⟨r.eval_performBy hproper hs hn, ?_, fun stack s' hmoment => ?_⟩
  · intro p s₁ k w s₂ m hasks hlookup hm hw
    exact hlookup.pos hproper (hasks.atRest hproper hs).running (by simp) hn hm hw
  · have hrunning := hmoment.running hproper hs
    exact ⟨hrunning.nodup, hmoment.subset_filePaths hproper hs, hrunning.length_le hproper⟩

def mixedCircle : FileTree := .ofTexts
  [("a.d.ts", "export type A = string;\nexport * from './b.js';\n"),
    ("b.d.ts", "export \x7b A \x7d from './a.js';\nexport * from './b.js';\n")]

set_option maxRecDepth 100000 in
theorem requests_end_mixedCircle : ∃ s s' : Store, s.AtRest mixedCircle .standard ∧
    mixedCircle.filePaths.card = 2 ∧
    ((Request.exports ⟨"a.d.ts"⟩).performBy mixedCircle (ExportScan.tableOf mixedCircle 2)).eval s =
      (.ok (), s') ∧
    ((Request.exports ⟨"a.d.ts"⟩).perform mixedCircle).eval s = (.ok (), s') ∧
    ∀ stack s', (Request.exports ⟨"a.d.ts"⟩).Moment mixedCircle s stack s' → stack.length ≤ 2 := by
  let s := ((mixedCircle.load ⟨"a.d.ts"⟩).eval (.ofOptions .standard)).2
  have hs : s.AtRest mixedCircle .standard := .load .fresh _
  have hcard : mixedCircle.filePaths.card = 2 := by decide +kernel
  have hproper : mixedCircle.Proper := FileTree.proper_ofTexts _
  obtain ⟨hsame, -, hmoments⟩ := requests_end hproper hs hcard.le (.exports ⟨"a.d.ts"⟩)
  have hok : (((Request.exports ⟨"a.d.ts"⟩).perform mixedCircle).eval s).1 = .ok () := by
    decide +kernel
  refine ⟨s, _, hs, hcard, hsame.trans (Prod.ext hok rfl), Prod.ext hok rfl, fun stack s' h => ?_⟩
  exact hcard ▸ (hmoments stack s' h).2.2

end Typings
