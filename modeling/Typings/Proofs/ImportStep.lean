import Typings.Proofs.Keeps
import Typings.Proofs.Operations
import Typings.Proofs.Reached

/-!
# Import statements and their steps

An import statement stands for a list of steps, as an export statement does.  An import scan
performs the steps of all import statements one after the other, and each step that takes a type
adds it to the imports found so far.
-/

namespace Typings

namespace FileTree

variable (files : FileTree) (options : ResolverOptions)

def importStatements (p : Path) : List Statement :=
  match files.read p with
  | .ok text => (Statement.ofSource text options.stripComments).filter (·.isImport)
  | .error _ => []

/-- An import of the file at `p` gives a type the name that it has there. -/
def ImportsAs (p : Path) (name : String) : Prop :=
  ∃ st ∈ files.importStatements options p, ∃ i, Import.parse st.text = .ok i ∧
    (i.defaultName = some name ∨ ∃ b ∈ i.named, b.newName = some name)

instance (p : Path) (name : String) : Decidable (files.ImportsAs options p name) :=
  decidable_of_iff (∃ st ∈ files.importStatements options p, ∃ i ∈ (Import.parse st.text).toOption,
      i.defaultName = some name ∨ ∃ b ∈ i.named, b.newName = some name) <| by
    have hok : ∀ (x : Except Error Import) i, i ∈ x.toOption ↔ x = .ok i := by
      intro x i
      cases x <;> simp [Except.toOption]
    simp only [hok, ImportsAs]

end FileTree

/-- The stores between requests, as far as loading, asking and the bookkeeping of imports go. -/
abbrev Store.AtRest (files : FileTree) (options : ResolverOptions) : Store → Prop :=
  Store.Reached files options (files.ImportsAs options)

/-! ## Steps -/

inductive ImportStep where
  | fail (cause : Error)
  | remark (s : Statement) (r : Remark)
  | visit (file : Path)
  | take (target : Path) (b : Binding)
  deriving DecidableEq, Repr

def Import.bindings (i : Import) : List Binding :=
  (i.defaultName.map fun name => ⟨"default", some name⟩).toList ++ i.named

def Import.visiting (files : FileTree) (options : ResolverOptions) (p : Path) (i : Import) :
    List ImportStep :=
  .visit (Specifier.resolve options p i.specifier) ::
    match files.key (Specifier.resolve options p i.specifier) with
    | .ok target => i.bindings.map (.take target)
    | .error _ => []

def Statement.importSteps (files : FileTree) (options : ResolverOptions) (p : Path)
    (s : Statement) : List ImportStep :=
  match Import.parse s.text with
  | .error e => [.fail e]
  | .ok i =>
      (i.remark?.map (ImportStep.remark s)).toList ++
        if i.bindsTypes then i.visiting files options p else []

theorem Statement.take_mem_importSteps {files : FileTree} {options : ResolverOptions} {p q : Path}
    {b : Binding} {s : Statement} : .take q b ∈ s.importSteps files options p ↔
      ∃ i, Import.parse s.text = .ok i ∧ i.bindsTypes = true ∧
        files.key (Specifier.resolve options p i.specifier) = .ok q ∧ b ∈ i.bindings := by
  unfold importSteps Import.visiting
  split
  · next hparse => simp [hparse]
  · next i hparse =>
      simp only [hparse, Except.ok.injEq, exists_eq_left']
      by_cases hbinds : i.bindsTypes = true
      · cases files.key (Specifier.resolve options p i.specifier) with
        | error e => simp [hbinds]
        | ok target => simp [hbinds, and_comm]
      · simp [hbinds]

namespace FileTree

variable (files : FileTree) (options : ResolverOptions)

def importSteps (p : Path) : List ImportStep :=
  (files.importStatements options p).flatMap (·.importSteps files options p)

def Imports (p q : Path) (b : Binding) : Prop := .take q b ∈ files.importSteps options p

variable {files options} {p q : Path} {b : Binding}

theorem imports_iff : files.Imports options p q b ↔
    ∃ st ∈ files.importStatements options p, ∃ i, Import.parse st.text = .ok i ∧
      i.bindsTypes = true ∧ files.key (Specifier.resolve options p i.specifier) = .ok q ∧
      b ∈ i.bindings := by
  simp only [Imports, importSteps, List.mem_flatMap, Statement.take_mem_importSteps]

theorem Imports.importsAs (h : files.Imports options p q b) {name : String}
    (hname : b.newName = some name) : files.ImportsAs options p name := by
  obtain ⟨st, hst, i, hparse, -, -, hb⟩ := imports_iff.1 h
  refine ⟨st, hst, i, hparse, ?_⟩
  rcases List.mem_append.1 hb with hb | hb
  · obtain ⟨name', hdefault, rfl⟩ := Option.map_eq_some_iff.1 (Option.mem_toList.1 hb)
    exact .inl (hdefault.trans hname)
  · exact .inr ⟨b, hb, hname⟩

end FileTree

/-! ## Performing a step -/

namespace ImportStep

open Query

variable {files : FileTree} {T : TableOf} {p : Path}

def perform (files : FileTree) (tableOf : TableOf) (p : Path)
    (found : OrderedMap String Identity) : ImportStep → Query (OrderedMap String Identity)
  | .fail cause => throw cause
  | .remark s r => do
      Query.update p (·.addImportNote s r)
      return found
  | .visit file => do
      let _ ← files.load file
      return found
  | .take target b => do
      let identity ← ExportScan.bind tableOf p target b
      return found.insert b.introduced identity

abbrev performAll (files : FileTree) (tableOf : TableOf) (p : Path) (steps : List ImportStep)
    (found : OrderedMap String Identity) : Query (OrderedMap String Identity) :=
  steps.foldlM (perform files tableOf p) found

theorem eval_performAll_cons (i : ImportStep) (steps : List ImportStep)
    (found : OrderedMap String Identity) (s : Store) :
    (performAll files T p (i :: steps) found).eval s =
      match (perform files T p found i).eval s with
      | (.ok found', s') => (performAll files T p steps found').eval s'
      | (.error e, s') => (.error e, s') := by
  rw [performAll, List.foldlM_cons, eval_bind]
  rcases (perform files T p found i).eval s with ⟨_ | _, _⟩ <;> rfl

theorem perform_eq_ok {i : ImportStep} {found found' : OrderedMap String Identity} {s s' : Store}
    (h : (perform files T p found i).eval s = (.ok found', s')) :
    (found' = found ∧ ∀ q b, i ≠ .take q b) ∨ ∃ q b a s₁, i = .take q b ∧
      (ExportScan.exportedBy T q b.name).eval s = (.ok a, s₁) ∧
      s' = s₁.updateModule p (·.rename b a) ∧ found' = found.insert b.introduced a := by
  cases i with
  | fail cause => simp [perform] at h
  | remark st r =>
      obtain ⟨_, s₁, -, h⟩ := eval_bind_eq_ok h
      rw [eval_pure, Prod.mk.injEq, Except.ok.injEq] at h
      exact .inl ⟨h.1.symm, by simp⟩
  | visit file =>
      obtain ⟨_, s₁, -, h⟩ := eval_bind_eq_ok h
      rw [eval_pure, Prod.mk.injEq, Except.ok.injEq] at h
      exact .inl ⟨h.1.symm, by simp⟩
  | take q b =>
      obtain ⟨a, s₂, hbind, h⟩ := eval_bind_eq_ok h
      obtain ⟨a', s₁, hexported, -⟩ := eval_bind_eq_ok hbind
      rw [ScanStep.eval_bind_found hexported, Prod.mk.injEq, Except.ok.injEq] at hbind
      obtain ⟨rfl, rfl⟩ := hbind
      rw [eval_pure, Prod.mk.injEq, Except.ok.injEq] at h
      exact .inr ⟨q, b, a', s₁, rfl, hexported, h.2.symm, h.1.symm⟩

theorem eval_takeImport (i : Import) (found : OrderedMap String Identity) (s : Store) :
    (ImportScan.takeImportBy files T p found i).eval s =
      (performAll files T p (i.visiting files s.options p) found).eval s := by
  unfold ImportScan.takeImportBy Import.visiting
  rw [eval_bind_ok (eval_get s), eval_performAll_cons, perform]
  rcases hload : (files.load (Specifier.resolve s.options p i.specifier)).eval s with ⟨e | key, s'⟩
  · rw [eval_bind_error hload, eval_bind_error hload]
  · rw [eval_bind_ok hload, eval_bind_ok hload, eval_pure, FileTree.key_of_load hload]
    dsimp only
    rw [Import.bindings, performAll, List.foldlM_map]
    cases i.defaultName with
    | none => rfl
    | some name =>
        simp only [Option.map_some, Option.toList_some, List.cons_append, List.nil_append,
          List.foldlM_cons, perform, ExportScan.bind, bind_assoc, pure_bind]
        rfl

theorem eval_takeStatement (st : Statement) (found : OrderedMap String Identity) (s : Store) :
    (ImportScan.takeStatementBy files T p found st).eval s =
      (performAll files T p (st.importSteps files s.options p) found).eval s := by
  have hrest : ∀ (i : Import) (s : Store), (if i.bindsTypes then
        ImportScan.takeImportBy files T p found i else pure found).eval s =
      (performAll files T p (if i.bindsTypes then i.visiting files s.options p else [])
        found).eval s := by
    intro i s
    split
    · exact eval_takeImport i found s
    · rfl
  unfold ImportScan.takeStatementBy Statement.importSteps
  cases hparse : Import.parse st.text with
  | error e =>
      rw [eval_bind_error (eval_ofExcept _ s), eval_performAll_cons, perform, eval_throw]
  | ok i =>
      rw [eval_bind_ok (eval_ofExcept _ s)]
      dsimp only
      cases i.remark? with
      | none => exact hrest i s
      | some r =>
          have hremark : (perform files T p found (.remark st r)).eval s = (.ok found, _) :=
            (eval_bind_ok (eval_update p _ s)).trans (eval_pure found _)
          rw [Option.map_some, Option.toList_some, List.singleton_append, eval_performAll_cons,
            hremark]
          exact (eval_bind_ok (eval_update p _ s)).trans (hrest i _)

end ImportStep

/-! ## The import scan of a module -/

namespace Store

def beginImports (s : Store) (p : Path) : Store :=
  s.updateModule p fun m => { m with importNotes := [] }

def keepImports (s : Store) (p : Path) (found : OrderedMap String Identity) : Store :=
  s.updateModule p fun m => { m with imports := some found }

def endImports (s : Store) (p : Path) : Except Error (OrderedMap String Identity) →
    Except Error (OrderedMap String Identity) × Store
  | .error e => (.error (.inFile p e), s)
  | .ok found => (.ok found, s.keepImports p found)

end Store

namespace FileTree

open Query

variable {files : FileTree} {T : TableOf} {s s' : Store} {p : Path} {m : Module}

theorem eval_importsBy_of_unloaded (hm : s.module? p = none) :
    (files.importsBy T p).eval s = (.error (.fileNotFound p), s) := by
  rw [importsBy, eval_bind_error (eval_current_of_none hm)]

theorem eval_importsBy_of_some {found : OrderedMap String Identity} (hm : s.module? p = some m)
    (hfound : m.imports = some found) : (files.importsBy T p).eval s = (.ok found, s) := by
  rw [importsBy, eval_bind_ok (eval_current_of_some hm), hfound, eval_pure]

theorem eval_importsBy_of_none (hm : s.module? p = some m) (hnone : m.imports = none)
    {r : Except Error (OrderedMap String Identity)}
    (hscan : ((m.statements.filter (·.isImport)).foldlM
      (ImportScan.takeStatementBy files T p) .empty).eval (s.beginImports p) = (r, s')) :
    (files.importsBy T p).eval s = s'.endImports p r := by
  have houtcome := (eval_observe ((m.statements.filter (·.isImport)).foldlM
    (ImportScan.takeStatementBy files T p) .empty) (s.beginImports p)).trans
      (by rw [hscan] : _ = (Except.ok r, s'))
  rw [importsBy, eval_bind_ok (eval_current_of_some hm), hnone]
  refine (eval_bind_ok (eval_update p _ s)).trans ((eval_bind_ok houtcome).trans ?_)
  cases r with
  | error e => exact eval_throw _ _
  | ok found => exact (eval_bind_ok (eval_update p _ s')).trans (eval_pure found _)

theorem importsBy_tableOf (files : FileTree) : files.importsBy files.tableOf = files.imports := rfl

end FileTree

end Typings
