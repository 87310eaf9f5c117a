import Typings.Proofs.Upkeep

/-!
# Sequences of requests

Whatever is asked of a store and in whichever order, failures included, the stores in between are
among those of `Store.Reached`.
-/

namespace Typings

section Queries

open Query ExportScan ScanStep

variable {files : FileTree} {options : ResolverOptions}

/-- A property of the stores between queries that what a query consists of does not break. -/
structure Store.Closed (files : FileTree) (options : ResolverOptions) (I : Store → Prop) :
    Prop where
  atRest : ∀ s, I s → s.AtRest files options
  load : ∀ s p, I s → I ((files.load p).eval s).2
  ask : ∀ s n p, files.size ≤ n → I s → I ((ExportScan.tableOf files n p).eval s).2
  edit : ∀ s p f, (∀ m, s.module? p = some m → m.Edited files (files.ImportsAs options) p (f m)) →
    I s → I (s.updateModule p f)

theorem closed_atRest : Store.Closed files options (Store.AtRest files options) where
  atRest _ h := h
  load _ p h := h.load p
  ask _ _ p hn h := h.ask hn p
  edit _ p f hf h := h.edit p f hf

/-- The stores between queries that `s` may become. -/
inductive Store.Later (files : FileTree) (options : ResolverOptions) (s : Store) : Store → Prop
  | here : Later files options s s
  | load {s' : Store} (h : Later files options s s') (p : Path) :
      Later files options s ((files.load p).eval s').2
  | ask {s' : Store} (h : Later files options s s') {n : Nat} (hn : files.size ≤ n) (p : Path) :
      Later files options s ((ExportScan.tableOf files n p).eval s').2
  | edit {s' : Store} (h : Later files options s s') (p : Path) (f : Module → Module)
      (hf : ∀ m, s'.module? p = some m → m.Edited files (files.ImportsAs options) p (f m)) :
      Later files options s (s'.updateModule p f)

theorem Store.Later.keeps {I : Store → Prop} (hI : Store.Closed files options I) {s s' : Store}
    (h : s.Later files options s') (hs : I s) : I s' := by
  induction h with
  | here => exact hs
  | load _ p ih => exact hI.load _ p ih
  | ask _ hn p ih => exact hI.ask _ _ p hn ih
  | edit _ p f hf ih => exact hI.edit _ p f hf ih

theorem Store.Later.grows {s s' : Store} (h : s.Later files options s') : s.Grows s' := by
  induction h with
  | here => exact .refl s
  | load _ p ih => exact ih.trans (files.eval_load p _).grows
  | ask _ _ p ih => exact ih.trans (grows_tableOf _ p _ _ _ rfl)
  | edit _ p f _ ih => exact ih.trans (Store.grows_updateModule _ p f)

theorem closed_later {s : Store} (hs : s.AtRest files options) :
    Store.Closed files options (s.Later files options) where
  atRest _ h := h.keeps closed_atRest hs
  load _ p h := h.load p
  ask _ _ p hn h := h.ask hn p
  edit _ p f hf h := h.edit p f hf

theorem Store.Closed.congr {I J : Store → Prop} (hI : Store.Closed files options I)
    (h : ∀ s, I s ↔ J s) : Store.Closed files options J := by
  obtain rfl : I = J := funext fun s => propext (h s)
  exact hI

theorem closed_kept_and (u : Path) (t : ExportTable) {P : Module → Prop}
    (hP : ∀ m m', m.Edited files (files.ImportsAs options) u m' → P m → P m') :
    Store.Closed files options fun s =>
      s.AtRest files options ∧ ∃ m, s.module? u = some m ∧ m.exports = some t ∧ P m where
  atRest _ h := h.1
  load s p h := by
    rcases h with ⟨hs, m, hm, ht, hPm⟩
    refine ⟨hs.load p, m, ?_, ht, hPm⟩
    exact (files.eval_load p s).evolves.busy u m (by simp) hm (.inl (by rw [ht]; rfl))
  ask s n p hn h := by
    rcases h with ⟨hs, m, hm, ht, hPm⟩
    refine ⟨hs.ask hn p, m, ?_, ht, hPm⟩
    exact (tame_tableOf n hs.running (by simp) rfl).2.busy u m (by simp) hm (.inl (by rw [ht]; rfl))
  edit s p f hf h := by
    rcases h with ⟨hs, m, hm, ht, hPm⟩
    refine ⟨hs.edit p f hf, ?_⟩
    rw [Store.module?_updateModule]
    split
    · next heq =>
        subst heq
        exact ⟨f m, by rw [hm]; rfl, by rw [(hf m hm).exports_eq, ht], hP m _ (hf m hm) hPm⟩
    · exact ⟨m, hm, ht, hPm⟩

theorem closed_kept (u : Path) (t : ExportTable) : Store.Closed files options fun s =>
    s.AtRest files options ∧ ∃ m, s.module? u = some m ∧ m.exports = some t :=
  (closed_kept_and u t (P := fun _ => True) fun _ _ _ _ => trivial).congr (by simp)

/-! ## Exports that are kept -/

theorem FileTree.eval_exportNamed_of_kept {s : Store} {u : Path} {m : Module} {t : ExportTable}
    (hm : s.module? u = some m) (ht : m.exports = some t) (name : String) :
    (files.exportNamed u name).eval s = (m.lookupExport t name, s) :=
  eval_exportedBy (eval_tableOf_of_kept hm ht) hm

/-- Once the table of a file is kept, only its imports may give a name another meaning. -/
theorem Store.Later.eval_exportNamed {s s' : Store} (h : s.Later files options s')
    (hs : s.AtRest files options) {u : Path} {m : Module} {t : ExportTable}
    (hm : s.module? u = some m) (ht : m.exports = some t) {name : String}
    (hname : files.ImportsAs options u name → (t.get? name).isSome) :
    (files.exportNamed u name).eval s' = (m.lookupExport t name, s') := by
  have hclosed : Store.Closed files options fun s => s.AtRest files options ∧
      ∃ m', s.module? u = some m' ∧ m'.exports = some t ∧ m'.path = m.path ∧
        (¬ files.ImportsAs options u name → m'.aliases.get? name = m.aliases.get? name) := by
    refine closed_kept_and u t fun m₁ m₂ he ⟨hpath, halias⟩ => ?_
    refine ⟨he.path_eq.trans hpath, fun hno => ?_⟩
    rcases he.aliases name with heq | ⟨himported, -⟩
    · rw [heq, halias hno]
    · exact absurd himported hno
  obtain ⟨-, m', hm', ht', hpath, halias⟩ := h.keeps hclosed ⟨hs, m, hm, ht, rfl, fun _ => rfl⟩
  rw [FileTree.eval_exportNamed_of_kept hm' ht']
  by_cases himported : files.ImportsAs options u name
  · obtain ⟨a, ha⟩ := Option.isSome_iff_exists.1 (hname himported)
    rw [m.lookupExport_of_get? ha, m'.lookupExport_of_get? ha]
  · simp only [Module.lookupExport, Module.unresolved, halias himported, hpath]

/-! ## Requests -/

theorem Store.Closed.requests {I : Store → Prop} (hI : Store.Closed files options I)
    (hproper : files.Proper) : Store.KeptByRequests files options I where
  load p _ h := hI.load _ p h
  ask p hn _ h := hI.ask _ _ p hn h
  note notes _ _ h := hI.edit _ _ _ (fun m _ => edited_imports _ m m.imports (notes m)) h
  rename _ hi hb hs _ heval _ h := hI.edit _ _ _ (fun m _ =>
    edited_addAlias m (hi.importsAs hb) (isKey_of_exportedBy hproper hs heval)) h
  imports _ _ _ _ _ _ h _ := hI.edit _ _ _ (fun m _ => edited_imports _ m _ m.importNotes) h
  parsed _ _ _ _ _ _ _ h _ := hI.edit _ _ _ (fun m _ => edited_setParsed _ m _ _) h

theorem Request.alike_perform {I : Store → Prop} (hI : Store.Closed files options I) {T : TableOf}
    (hT : ∀ s p, I s → (T p).eval s = (files.tableOf p).eval s) (hproper : files.Proper)
    (r : Request) : Query.Alike I (r.performBy files T) (r.perform files) := by
  intro s hs
  obtain ⟨heval, hs'⟩ := ((hI.requests hproper).queriesAlike hproper fun s p _ h => hT s p h).perform
    hproper r s ⟨hI.atRest s hs, hs⟩
  exact ⟨heval, hs'.2⟩

theorem Store.After.keeps {I : Store → Prop} (hI : Store.Closed files options I)
    (hproper : files.Proper) {s s' : Store} (h : s.After files s') (hs : I s) : I s' :=
  ((hI.requests hproper).after hproper h ⟨hI.atRest s hs, hs⟩).2

theorem Store.After.later (hproper : files.Proper) {s s' : Store} (h : s.After files s')
    (hs : s.AtRest files options) : s.Later files options s' :=
  h.keeps (closed_later hs) hproper .here

theorem Store.AtRest.later_imports (hproper : files.Proper) {s : Store}
    (hs : s.AtRest files options) {p : Path} :
    s.Later files options ((files.imports p).eval s).2 :=
  (((closed_later hs).requests hproper).keeps_imports hproper trivial s ⟨hs, .here⟩).2

theorem Store.later_exportNamed (s : Store) (p : Path) (name : String) :
    s.Later files options ((files.exportNamed p name).eval s).2 := by
  rw [FileTree.exportNamed, ScanStep.state_exportedBy]
  exact .ask .here (Nat.le_refl files.size) p

theorem FileTree.kept_of_imports (hproper : files.Proper) {s s' : Store}
    (hs : s.AtRest files options) {p : Path} {found : OrderedMap String Identity}
    (heval : (files.imports p).eval s = (.ok found, s')) : s'.At p (·.imports = some found) := by
  have hlater := hs.later_imports hproper (p := p)
  rw [heval] at hlater
  rw [← FileTree.importsBy_tableOf] at heval
  cases hm : s.module? p with
  | none => simp [FileTree.eval_importsBy_of_unloaded hm] at heval
  | some m =>
      cases himports : m.imports with
      | some kept =>
          rw [FileTree.eval_importsBy_of_some hm himports, Prod.mk.injEq, Except.ok.injEq] at heval
          obtain ⟨rfl, rfl⟩ := heval
          exact ⟨m, hm, himports⟩
      | none =>
          rcases hscan : ((m.statements.filter (·.isImport)).foldlM
            (ImportScan.takeStatementBy files files.tableOf p) .empty).eval (s.beginImports p)
            with ⟨r, s₁⟩
          rw [FileTree.eval_importsBy_of_none hm himports hscan] at heval
          cases r with
          | error e => simp [Store.endImports] at heval
          | ok kept =>
              simp only [Store.endImports, Prod.mk.injEq, Except.ok.injEq] at heval
              obtain ⟨rfl, rfl⟩ := heval
              have hloaded := hlater.grows.isSome_module? p (by rw [hm]; rfl)
              rw [Store.keepImports, Store.module?_updateModule, if_pos rfl, Option.isSome_map]
                at hloaded
              obtain ⟨m₁, hm₁⟩ := Option.isSome_iff_exists.1 hloaded
              exact ⟨_, Store.module?_updateModule_self _ hm₁, rfl⟩

theorem Store.Session.atRest (hproper : files.Proper) {s : Store}
    (h : s.Session files options) : s.AtRest files options :=
  Store.After.keeps closed_atRest hproper h .fresh

end Queries

def FileTree.loaded (files : FileTree) (file : Path) : Store :=
  ((files.load file).eval (.ofOptions .standard)).2

theorem FileTree.atRest_loaded (files : FileTree) (file : Path) :
    (files.loaded file).AtRest files .standard := .load .fresh file

end Typings
