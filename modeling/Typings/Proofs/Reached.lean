import Typings.Proofs.Running

/-!
# Stores between queries

The stores that loading files, asking for tables and the bookkeeping of imports lead to.  No scan
runs in them, so every scan that ends well there is kept.
-/

namespace Typings

open ExportScan ScanStep

def Declaration.unparsed (d : Declaration) : Declaration := { d with parsed := none }

/-- What the bookkeeping of imports and of parsed types may change in the module at `p`. -/
structure Module.Edited (files : FileTree) (imported : Path → String → Prop) (p : Path)
    (m m' : Module) : Prop where
  path_eq : m'.path = m.path
  text_eq : m'.text = m.text
  statements_eq : m'.statements = m.statements
  exports_eq : m'.exports = m.exports
  pending_eq : m'.pending = m.pending
  locals_eq : ∀ name, (m'.locals.get? name).map Declaration.unparsed =
    (m.locals.get? name).map Declaration.unparsed
  aliases : ∀ n, m'.aliases.get? n = m.aliases.get? n ∨
    (imported p n ∧ ∃ a, m'.aliases.get? n = some a ∧ files.IsKey a.file)

/-- The stores between queries; `imported` tells the new names that imports may introduce. -/
inductive Store.Reached (files : FileTree) (options : ResolverOptions)
    (imported : Path → String → Prop) : Store → Prop
  | fresh : Reached files options imported (.ofOptions options)
  | load {s : Store} (h : Reached files options imported s) (p : Path) :
      Reached files options imported ((files.load p).eval s).2
  | ask {s : Store} (h : Reached files options imported s) {n : Nat} (hn : files.size ≤ n)
      (p : Path) : Reached files options imported ((tableOf files n p).eval s).2
  | edit {s : Store} (h : Reached files options imported s) (p : Path) (f : Module → Module)
      (hf : ∀ m, s.module? p = some m → m.Edited files imported p (f m)) :
      Reached files options imported (s.updateModule p f)

variable {files : FileTree} {options : ResolverOptions} {imported : Path → String → Prop}
  {s s' : Store}

namespace Store.Reached

theorem running (h : s.Reached files options imported) : s.Running files options [] := by
  induction h with
  | fresh => exact running_ofOptions files options
  | load _ p ih => exact ih.load (files.eval_load p _)
  | ask _ _ p ih => exact (tame_tableOf _ ih (by simp) rfl).1
  | edit _ p f hf ih =>
      refine ih.updateModule fun m hm => ?_
      have he := hf m hm
      have hfile := ih.isFile p m hm
      refine ⟨by rw [he.pending_eq], fun hkept => ?_, he.path_eq.trans hfile.path_eq, hfile.isKey, ?_, ?_⟩
      · rw [he.pending_eq]
        exact ih.pending_of_kept p m hm (by rwa [← he.exports_eq])
      · rw [he.text_eq, hfile.read_eq]
      · rw [he.statements_eq, he.text_eq, hfile.statements_eq]

theorem of_load (h : s.Reached files options imported) {p : Path} {r : Except Error Path}
    (heval : (files.load p).eval s = (r, s')) : s'.Reached files options imported := by
  have hloaded := h.load p
  rwa [heval] at hloaded

theorem of_ask (h : s.Reached files options imported) {n : Nat} (hn : files.size ≤ n) {p : Path}
    {r : Except Error ExportTable} (heval : (tableOf files n p).eval s = (r, s')) :
    s'.Reached files options imported := by
  have hasked := h.ask hn p
  rwa [heval] at hasked

end Store.Reached

/-! ## Scans that start between queries -/

theorem Store.not_notedBelow_zero (s : Store) : ¬ s.NotedBelow 0 := by
  rintro ⟨f, -, hlt⟩
  exact absurd hlt (Nat.not_lt_zero f)

theorem ExportScan.kept_of_answered (h : s.Running files options []) {n : Nat} {p : Path}
    {t : ExportTable} (heval : (tableOf files n p).eval s = (.ok t, s')) :
    ∃ m, s'.module? p = some m ∧ m.exports = some t := by
  cases answered heval with
  | kept hm ht => exact ⟨_, hm, ht⟩
  | unfinished hm _ hw =>
      have hmem := (h.pending_iff_mem hm).1 (by rw [hw]; rfl)
      cases hmem
  | incomplete _ _ _ _ _ hnoted =>
      rw [h.depth_eq] at hnoted
      exact absurd hnoted (Store.not_notedBelow_zero _)
  | completed _ _ _ _ hm₁ _ =>
      exact ⟨_, Store.module?_updateModule_self _ (Store.module?_endScan_self hm₁ _), rfl⟩

theorem FileTree.eval_exports (h : s.Running files options []) (p : Path) :
    (files.exports p).eval s = (ExportScan.tableOf files (files.size + 1) p).eval s := by
  unfold exports ExportScan.tableOf
  cases hm : s.module? p with
  | none =>
      have hcurrent := Query.eval_current_of_none hm
      rw [Query.eval_bind_error hcurrent, Query.eval_bind_error hcurrent]
  | some m =>
      rw [Query.eval_bind_ok (Query.eval_current_of_some hm),
        Query.eval_bind_ok (Query.eval_current_of_some hm)]
      cases ht : m.exports with
      | some t => rfl
      | none =>
          have hw : m.pending = none := by
            rw [← Option.not_isSome_iff_eq_none, h.pending_iff_mem hm]
            simp
          rw [hw]
          simp only [Option.isSome_none, Bool.false_eq_true, if_false]
          obtain ⟨r, s₁, m₁, -, -, hscan⟩ := @eval_scan files files.tableOf
            (grows_tableOf _) p s m hm
          cases r with
          | error e =>
              rw [Query.eval_bind_error hscan]
              exact (Query.eval_bind_error hscan).symm
          | ok u =>
              have hcomplete : s₁.isComplete s.depth = true := by
                rw [Store.isComplete_iff, h.depth_eq]
                exact Store.not_notedBelow_zero s₁
              simp only [hcomplete, if_true] at hscan
              have hscan' : (scan files (ExportScan.tableOf files files.size) p).eval s =
                  (.ok (m₁.table, true), (s₁.endScan p s.depth).updateModule p (·.keep m₁.table)) :=
                hscan
              rw [Query.eval_bind_ok hscan, Query.eval_bind_ok hscan']
              rfl

end Typings
