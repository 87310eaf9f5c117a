import Typings.Proofs.ImportStep
import Typings.Proofs.Nesting
import Typings.Proofs.Request
import Typings.Proofs.Sound

/-!
# What requests keep

A request consists of a few kinds of changes: files are loaded, tables are asked for, imports are
noted and found, and types are worked out.  A property of stores that none of these breaks, in the
circumstances in which they happen, holds before and after every request.
-/

namespace Typings

open Query ExportScan ScanStep

variable {files : FileTree} {options : ResolverOptions} {s s' : Store}

/-! ## One module of a store -/

def Store.At (p : Path) (P : Module → Prop) (s : Store) : Prop := ∃ m, s.module? p = some m ∧ P m

namespace Store.At

variable {p q : Path} {P : Module → Prop}

theorem updateModule (h : s.At p P) {f : Module → Module} (hf : ∀ m, P m → P (f m)) :
    (s.updateModule q f).At p P := by
  rcases h with ⟨m, hm, hP⟩
  rw [Store.At, Store.module?_updateModule]
  split
  · next heq =>
      subst heq
      exact ⟨f m, by rw [hm]; rfl, hf m hP⟩
  · exact ⟨m, hm, hP⟩

theorem evolves (h : s.At p P) {own : List Path} (he : s.Evolves own s')
    (hP : ∀ m m', m.Evolves m' → P m → P m') : s'.At p P := by
  rcases h with ⟨m, hm, hPm⟩
  obtain ⟨m', hm', hevolves⟩ := he.loaded p m hm
  exact ⟨m', hm', hP m m' hevolves hPm⟩

theorem kept (h : s.At p P) (he : s.Evolves [] s') (hP : ∀ m, P m → m.exports.isSome) :
    s'.At p P := by
  rcases h with ⟨m, hm, hPm⟩
  exact ⟨m, he.busy p m (by simp) hm (.inl (hP m hPm)), hPm⟩

end Store.At

/-! ## The changes that requests make -/

namespace Store

structure KeptByBindings (files : FileTree) (options : ResolverOptions) (P : Path → Prop)
    (X : Store → Prop) : Prop where
  load : ∀ {s} (p : Path), s.AtRest files options → X s → X ((files.load p).eval s).2
  ask : ∀ {s} {n : Nat} (p : Path), files.size ≤ n → s.AtRest files options → X s →
    X ((ExportScan.tableOf files n p).eval s).2
  note : ∀ {s} {p : Path} (notes : Module → List Diagnostic), P p → s.AtRest files options → X s →
    X (s.updateModule p fun m => { m with importNotes := notes m })
  rename : ∀ {s s'} {p q : Path} {b : Binding} {name : String} {found : Identity}, P p →
    files.Imports options p q b → b.newName = some name → s.AtRest files options → X s →
    (files.exportNamed q b.name).eval s = (.ok found, s') → s'.AtRest files options → X s' →
    X (s'.updateModule p (·.addAlias name found))

/-- What import scans of the files in `P` do not break. -/
structure KeptByImports (files : FileTree) (options : ResolverOptions) (P : Path → Prop)
    (X : Store → Prop) : Prop extends KeptByBindings files options P X where
  imports : ∀ {s s'} {p : Path} {found : OrderedMap String Identity}, P p →
    s.AtRest files options → X s → s.At p (·.imports = none) →
    (ImportStep.performAll files files.tableOf p (files.importSteps options p) .empty).eval s =
      (.ok found, s') →
    s'.AtRest files options → X s' → s'.At p (·.imports = none) →
    X (s'.keepImports p found)

def Keeping (d : Declaration) (m : Module) : Prop :=
  m.exports.isSome ∧ m.locals.get? d.name = some d

/-- What requests do not break. -/
structure KeptByRequests (files : FileTree) (options : ResolverOptions) (X : Store → Prop) : Prop
    extends KeptByImports files options (fun _ => True) X where
  parsed : ∀ {s s'} {p : Path} {d : Declaration} {w : Declaration.Written} {e : Expr},
    s.AtRest files options → X s → s.At p (Keeping d) → d.parsed = none → d.written = .ok w →
    Query.eval (w.resolve (files.scope p)) s = (.ok e, s') →
    s'.AtRest files options → X s' → s'.At p (Keeping d) →
    X (s'.updateModule p (·.setParsed d.name e))

def AtRestWith (files : FileTree) (options : ResolverOptions) (X : Store → Prop) (s : Store) :
    Prop :=
  s.AtRest files options ∧ X s

variable {P : Path → Prop}

theorem KeptByBindings.and {X Y : Store → Prop} (hX : KeptByBindings files options P X)
    (hY : KeptByBindings files options P Y) :
    KeptByBindings files options P fun s => X s ∧ Y s where
  load p hs h := ⟨hX.load p hs h.1, hY.load p hs h.2⟩
  ask p hn hs h := ⟨hX.ask p hn hs h.1, hY.ask p hn hs h.2⟩
  note notes hp hs h := ⟨hX.note notes hp hs h.1, hY.note notes hp hs h.2⟩
  rename hp hi hb hs h heval hs' h' :=
    ⟨hX.rename hp hi hb hs h.1 heval hs' h'.1, hY.rename hp hi hb hs h.2 heval hs' h'.2⟩

theorem KeptByImports.and {X Y : Store → Prop} (hX : KeptByImports files options P X)
    (hY : KeptByImports files options P Y) :
    KeptByImports files options P fun s => X s ∧ Y s where
  toKeptByBindings := hX.toKeptByBindings.and hY.toKeptByBindings
  imports hp hs h hnone heval hs' h' hnone' := ⟨hX.imports hp hs h.1 hnone heval hs' h'.1 hnone',
    hY.imports hp hs h.2 hnone heval hs' h'.2 hnone'⟩

theorem keptByBindings_unimported (p : Path) :
    KeptByBindings files options P fun s => s.At p (·.imports = none) where
  load q _ h := h.evolves (files.eval_load q _).evolves fun _ _ he hm => he.imports_eq.trans hm
  ask q _ hs h := h.evolves (tame_tableOf _ hs.running (by simp) rfl).2 fun _ _ he hm =>
    he.imports_eq.trans hm
  note _ _ _ h := h.updateModule fun _ hm => hm
  rename _ _ _ _ _ _ _ h := h.updateModule fun _ hm => hm

theorem keptByImports_keeping (p : Path) (d : Declaration) :
    KeptByImports files options P fun s => s.At p (Keeping d) where
  load q _ h := h.kept (files.eval_load q _).evolves fun _ hm => hm.1
  ask q _ hs h := h.kept (tame_tableOf _ hs.running (by simp) rfl).2 fun _ hm => hm.1
  note _ _ _ h := h.updateModule fun _ hm => hm
  rename _ _ _ _ _ _ _ h := h.updateModule fun _ hm => hm
  imports _ _ _ _ _ _ h _ := h.updateModule fun _ hm => hm

end Store

/-! ## Changes of modules between requests -/

theorem isKey_of_exportedBy (hproper : files.Proper) {s s' : Store}
    (h : s.AtRest files options) {p : Path} {name : String} {found : Identity}
    (heval : (exportedBy files.tableOf p name).eval s = (.ok found, s')) :
    files.IsKey found.file := by
  rcases htable : (files.tableOf p).eval s with ⟨e | table, s₁⟩
  · rw [exportedBy, eval_bind_error htable] at heval
    cases heval
  · have hs₁ := h.of_ask (Nat.le_refl files.size) htable
    obtain ⟨m, hm, hkept⟩ := kept_of_answered h.running htable
    rw [eval_exportedBy htable hm] at heval
    have hsound := (scanInvariant_sound hproper).reached hs₁ p m hm
    obtain ⟨slot, -, hprovides⟩ := hsound.lookupExport hproper (hsound.kept table hkept)
      (Prod.mk.inj heval).1
    exact hprovides.owner.1.isKey hsound.isKey

theorem edited_imports (p : Path) (m : Module) (imports : Option (OrderedMap String Identity))
    (importNotes : List Diagnostic) : m.Edited files (files.ImportsAs options) p
      { m with imports := imports, importNotes := importNotes } :=
  ⟨rfl, rfl, rfl, rfl, rfl, fun _ => rfl, fun _ => .inl rfl⟩

theorem edited_addAlias {p : Path} (m : Module) {newName : String} {found : Identity}
    (hname : files.ImportsAs options p newName) (hkey : files.IsKey found.file) :
    m.Edited files (files.ImportsAs options) p (m.addAlias newName found) := by
  refine ⟨rfl, rfl, rfl, rfl, rfl, fun _ => rfl, fun n => ?_⟩
  simp only [Module.addAlias, OrderedMap.get?_insert]
  split
  · next heq => exact .inr ⟨heq ▸ hname, found, rfl, hkey⟩
  · exact .inl rfl

theorem edited_setParsed (p : Path) (m : Module) (name : String) (e : Expr) :
    m.Edited files (files.ImportsAs options) p (m.setParsed name e) := by
  refine ⟨rfl, rfl, rfl, rfl, rfl, fun n => ?_, fun _ => .inl rfl⟩
  simp only [Module.setParsed, OrderedMap.get?_modify]
  split
  · rw [Option.map_map]
    rfl
  · rfl

theorem Store.AtRest.addAlias (hproper : files.Proper) {p q : Path} {b : Binding} {name : String}
    {found : Identity} (hi : files.Imports options p q b) (hb : b.newName = some name)
    (hs : s.AtRest files options) (heval : (files.exportNamed q b.name).eval s = (.ok found, s'))
    (hs' : s'.AtRest files options) :
    (s'.updateModule p (·.addAlias name found)).AtRest files options :=
  hs'.edit p _ fun m _ => edited_addAlias m (hi.importsAs hb) (isKey_of_exportedBy hproper hs heval)

theorem Store.AtRest.importStatements_eq (hs : s.AtRest files options) {p : Path} {m : Module}
    (hm : s.module? p = some m) :
    m.statements.filter (·.isImport) = files.importStatements options p := by
  have hfile := hs.running.isFile p m hm
  rw [FileTree.importStatements, hfile.read_eq, hfile.statements_eq]

theorem Store.AtRest.keeping (hs : s.AtRest files options) {p : Path} {m : Module} {name : String}
    {d : Declaration} (hm : s.module? p = some m) (hkept : m.exports.isSome)
    (hd : m.locals.get? name = some d) :
    Store.Keeping d m ∧ d.name = name ∧ d.identity.file = p := by
  have hlocals := scanInvariant_localsKept.reached hs p m hm hkept name
  rw [hd, Option.map_some] at hlocals
  obtain ⟨⟨st, h⟩, hdeclared, hunparsed⟩ := Option.map_eq_some_iff.1 hlocals.symm
  have hidentity : d.identity = h.identity p := (congrArg Declaration.identity hunparsed).symm
  have hname : d.name = name :=
    (congrArg Identity.name hidentity).trans (mem_of_declared? hdeclared).2
  exact ⟨⟨hkept, by rw [hname, hd]⟩, hname, congrArg Identity.file hidentity⟩

theorem Query.module?_of_current {p : Path} {m : Module}
    (h : (Query.current p).eval s = (.ok m, s')) : s.module? p = some m ∧ s = s' := by
  rw [eval_current] at h
  cases hm : s.module? p with
  | none => simp [hm] at h
  | some m' => simpa [hm] using h

theorem Query.Alike.exportNamed {I : Store → Prop} {T : TableOf} {p : Path}
    (h : Query.Alike I (T p) (files.tableOf p)) (name : String) :
    Query.Alike I (exportedBy T p name) (files.exportNamed p name) :=
  h.bind fun _ => ((keeps_current p).bind fun _ => keeps_ofExcept _).alike

/-! ## Import scans -/

namespace Store.KeptByBindings

variable {P : Path → Prop} {X : Store → Prop} (hX : Store.KeptByBindings files options P X) {p : Path}

include hX

theorem keeps_load (p : Path) : Query.Keeps (AtRestWith files options X) (files.load p) :=
  fun _ h => ⟨h.1.load p, hX.load p h.1 h.2⟩

theorem keeps_note (hp : P p) (notes : Module → List Diagnostic) :
    Query.Keeps (AtRestWith files options X)
      (Query.update p fun m => { m with importNotes := notes m }) := by
  intro s h
  rw [eval_update]
  exact ⟨h.1.edit p _ fun m _ => edited_imports p m m.imports (notes m), hX.note notes hp h.1 h.2⟩

theorem beginImports (hp : P p) (h : s.AtRestWith files options X) :
    (s.beginImports p).AtRestWith files options X := by
  have hnoted := hX.keeps_note hp (fun _ => []) s h
  rwa [eval_update] at hnoted

variable {T : TableOf} (hT : ∀ s p, s.AtRest files options → X s →
  (T p).eval s = (files.tableOf p).eval s)

include hT

theorem alike_tableOf (p : Path) :
    Query.Alike (AtRestWith files options X) (T p) (files.tableOf p) := fun s h =>
  ⟨hT s p h.1 h.2, h.1.ask (Nat.le_refl files.size) p, hX.ask p (Nat.le_refl files.size) h.1 h.2⟩

theorem alike_exportNamed (p : Path) (name : String) :
    Query.Alike (AtRestWith files options X) (exportedBy T p name) (files.exportNamed p name) :=
  (hX.alike_tableOf hT p).exportNamed name

omit hT in
theorem keeps_exportNamed (p : Path) (name : String) :
    Query.Keeps (AtRestWith files options X) (files.exportNamed p name) :=
  (hX.alike_exportNamed (fun _ _ _ _ => rfl) p name).keeps

theorem alike_bind (hproper : files.Proper) (hp : P p) {q : Path} {b : Binding}
    (hb : files.Imports options p q b) :
    Query.Alike (AtRestWith files options X) (ExportScan.bind T p q b)
      (ExportScan.bind files.tableOf p q b) := by
  refine (hX.alike_exportNamed hT q b.name).bind_of fun found s s' hs heval hs' => ?_
  cases hname : b.newName with
  | none => exact (keeps_pure found).alike s' hs'
  | some name =>
      have hrenamed : ((do Query.update p (·.addAlias name found); pure found) :
          Query Identity).eval s' = (.ok found, s'.updateModule p (·.addAlias name found)) :=
        (eval_bind_ok (eval_update p _ s')).trans (eval_pure found _)
      refine ⟨rfl, ?_⟩
      dsimp only
      rw [hrenamed]
      exact ⟨hs.1.addAlias hproper hb hname heval hs'.1,
        hX.rename hp hb hname hs.1 hs.2 heval hs'.1 hs'.2⟩

theorem alike_perform (hproper : files.Proper) (hp : P p) {i : ImportStep}
    (hi : i ∈ files.importSteps options p) (found : OrderedMap String Identity) :
    Query.Alike (AtRestWith files options X) (i.perform files T p found)
      (i.perform files files.tableOf p found) := by
  cases i with
  | fail cause => exact (keeps_throw cause).alike
  | remark st r =>
      exact ((hX.keeps_note hp fun m => m.importNotes ++ [m.note st r]).bind
        fun _ => keeps_pure found).alike
  | visit file => exact ((hX.keeps_load file).bind fun _ => keeps_pure found).alike
  | take q b => exact (hX.alike_bind hT hproper hp hi).bind fun _ => (keeps_pure _).alike

/-- Scanning import statements comes to performing their steps. -/
theorem alike_takeStatements (hproper : files.Proper) (hp : P p) {sts : List Statement}
    (hsts : ∀ st ∈ sts, st ∈ files.importStatements options p)
    (found : OrderedMap String Identity) :
    Query.Alike (AtRestWith files options X)
      (sts.foldlM (ImportScan.takeStatementBy files T p) found)
      (ImportStep.performAll files files.tableOf p
        (sts.flatMap (·.importSteps files options p)) found) := by
  induction sts generalizing found with
  | nil => exact (keeps_pure found).alike
  | cons st sts ih =>
      rw [List.forall_mem_cons] at hsts
      rw [List.foldlM_cons, List.flatMap_cons, ImportStep.performAll, List.foldlM_append]
      refine Alike.bind (fun s hs => ?_) fun found => ih hsts.2 found
      rw [ImportStep.eval_takeStatement, hs.1.running.options_eq]
      refine alike_foldlM (fun i hi found => hX.alike_perform hT hproper hp ?_ found) found s hs
      exact List.mem_flatMap.2 ⟨st, hsts.1, hi⟩

theorem alike_importStatements (hproper : files.Proper) (hp : P p) :
    Query.Alike (AtRestWith files options X)
      ((files.importStatements options p).foldlM (ImportScan.takeStatementBy files T p) .empty)
      (ImportStep.performAll files files.tableOf p (files.importSteps options p) .empty) :=
  hX.alike_takeStatements hT hproper hp (fun _ hst => hst) .empty

omit hT in
theorem keeps_step (hproper : files.Proper) (hp : P p) {i : ImportStep}
    (hi : i ∈ files.importSteps options p) (found : OrderedMap String Identity) :
    Query.Keeps (AtRestWith files options X) (i.perform files files.tableOf p found) :=
  (hX.alike_perform (fun _ _ _ _ => rfl) hproper hp hi found).keeps

omit hT in
theorem keeps_performAll (hproper : files.Proper) (hp : P p) {steps : List ImportStep}
    (hsteps : ∀ i ∈ steps, i ∈ files.importSteps options p)
    (found : OrderedMap String Identity) :
    Query.Keeps (AtRestWith files options X)
      (ImportStep.performAll files files.tableOf p steps found) :=
  (alike_foldlM (fun i hi found => (hX.keeps_step hproper hp (hsteps i hi) found).alike) found).keeps

end Store.KeptByBindings

namespace Store.KeptByImports

variable {P : Path → Prop} {X : Store → Prop} (hX : Store.KeptByImports files options P X)
  {p : Path} {T : TableOf} (hT : ∀ s p, s.AtRest files options → X s → (T p).eval s = (files.tableOf p).eval s)

include hX hT

theorem alike_imports (hproper : files.Proper) (hp : P p) :
    Query.Alike (AtRestWith files options X) (files.importsBy T p) (files.imports p) := by
  intro s hs
  rw [← FileTree.importsBy_tableOf]
  cases hm : s.module? p with
  | none =>
      rw [FileTree.eval_importsBy_of_unloaded hm, FileTree.eval_importsBy_of_unloaded hm]
      exact ⟨rfl, hs⟩
  | some m =>
      cases himports : m.imports with
      | some found =>
          rw [FileTree.eval_importsBy_of_some hm himports,
            FileTree.eval_importsBy_of_some hm himports]
          exact ⟨rfl, hs⟩
      | none =>
          -- Until the imports are found, there are none.
          have hunimported := hX.toKeptByBindings.and (keptByBindings_unimported p)
          have hbegun : (s.beginImports p).AtRestWith files options
              fun s => X s ∧ s.At p (·.imports = none) :=
            hunimported.beginImports hp ⟨hs.1, hs.2, m, hm, himports⟩
          obtain ⟨heval, hs₂, hX₂, hnone₂⟩ := hunimported.alike_importStatements (T := T)
            (fun s p hs hX' => hT s p hs hX'.1) hproper hp _ hbegun
          obtain ⟨heval', -⟩ := hunimported.alike_importStatements (T := files.tableOf)
            (fun _ _ _ _ => rfl) hproper hp _ hbegun
          rcases hsteps : (ImportStep.performAll files files.tableOf p (files.importSteps options p)
            .empty).eval (s.beginImports p) with ⟨r, s₂⟩
          rw [hsteps] at heval heval' hs₂ hX₂ hnone₂
          rw [← hs.1.importStatements_eq hm] at heval heval'
          rw [FileTree.eval_importsBy_of_none hm himports heval,
            FileTree.eval_importsBy_of_none hm himports heval']
          refine ⟨rfl, ?_⟩
          cases r with
          | error e => exact ⟨hs₂, hX₂⟩
          | ok found =>
              exact ⟨hs₂.edit p _ fun m _ => edited_imports p m (some found) m.importNotes,
                hX.imports hp hbegun.1 hbegun.2.1 hbegun.2.2 hsteps hs₂ hX₂ hnone₂⟩

omit hT in
theorem keeps_imports (hproper : files.Proper) (hp : P p) :
    Query.Keeps (AtRestWith files options X) (files.imports p) :=
  (hX.alike_imports (fun _ _ _ _ => rfl) hproper hp).keeps

end Store.KeptByImports

/-! ## Lookups -/

/-- The queries that all others consist of do alike with either way to find tables. -/
structure Store.PartsAlike (files : FileTree) (options : ResolverOptions) (X : Store → Prop)
    (T : TableOf) : Prop where
  load : ∀ p, Query.Keeps (AtRestWith files options X) (files.load p)
  tableOf : ∀ p, Query.Alike (AtRestWith files options X) (T p) (files.tableOf p)
  imports : ∀ p, Query.Alike (AtRestWith files options X) (files.importsBy T p) (files.imports p)

namespace Store.PartsAlike

variable {X : Store → Prop} {T : TableOf} (h : Store.PartsAlike files options X T)

include h

theorem exports (hproper : files.Proper) (p : Path) :
    Query.Alike (AtRestWith files options X) (T p) (files.exports p) := by
  intro s hs
  rw [files.eval_exports_eq hproper hs.1.running]
  exact h.tableOf p s hs

theorem lookup (p : Path) (name : String) :
    Query.Alike (AtRestWith files options X) (files.lookupBy T p name) (files.lookup p name) := by
  refine (keeps_current p).alike.bind fun m => ?_
  cases m.localIdentity? name with
  | some found => exact (keeps_pure _).alike
  | none =>
      refine (h.imports p).bind fun found => ?_
      cases found.get? name with
      | some found => exact (keeps_pure _).alike
      | none => exact (h.tableOf p).bind fun _ => (keeps_pure _).alike

theorem written (p : Path) (w : Declaration.Written) :
    Query.Alike (AtRestWith files options X) (w.resolve (files.scopeBy T p))
      (w.resolve (files.scope p)) :=
  @Declaration.Written.alike_resolve _ (files.scopeBy T p) (files.scope p) rfl (h.lookup p) w

theorem declaration? (p : Path) (name : String) :
    Query.Alike (AtRestWith files options X) (FileTree.declarationBy? T p name)
      (files.declaration? p name) :=
  (h.tableOf p).bind fun _ => ((keeps_current p).bind fun _ => keeps_pure _).alike

theorem declarations (p : Path) :
    Query.Alike (AtRestWith files options X) (FileTree.declarationsBy T p)
      (files.declarations p) :=
  (h.tableOf p).bind fun _ => ((keeps_current p).bind fun _ => keeps_pure _).alike

theorem declarationOf (a : Identity) :
    Query.Alike (AtRestWith files options X) (files.declarationOfBy T a)
      (files.declarationOf a) := by
  refine (h.load a.file).alike.bind fun p => (h.declaration? p a.name).bind fun d => ?_
  split
  · exact (keeps_pure _).alike
  · exact (keeps_throw _).alike

end Store.PartsAlike

namespace Store.KeptByImports

variable {X : Store → Prop} (hX : Store.KeptByImports files options (fun _ => True) X)

include hX

theorem partsAlike (hproper : files.Proper) {T : TableOf}
    (hT : ∀ s p, s.AtRest files options → X s → (T p).eval s = (files.tableOf p).eval s) :
    Store.PartsAlike files options X T where
  load := hX.keeps_load
  tableOf := hX.alike_tableOf hT
  imports _ := hX.alike_imports hT hproper trivial

theorem keeps_lookup (hproper : files.Proper) (p : Path) (name : String) :
    Query.Keeps (AtRestWith files options X) (files.lookup p name) :=
  ((hX.partsAlike hproper fun _ _ _ _ => rfl).lookup p name).keeps

theorem keeps_written (hproper : files.Proper) (p : Path) (w : Declaration.Written) :
    Query.Keeps (AtRestWith files options X) (w.resolve (files.scope p)) :=
  ((hX.partsAlike hproper fun _ _ _ _ => rfl).written p w).keeps

theorem keeps_declarationOf (hproper : files.Proper) (a : Identity) :
    Query.Keeps (AtRestWith files options X) (files.declarationOf a) :=
  ((hX.partsAlike hproper fun _ _ _ _ => rfl).declarationOf a).keeps

end Store.KeptByImports

/-! ## Working out types -/

theorem Store.AtRest.keeping_declaration? (hs : s.AtRest files options) {p : Path} {name : String}
    {d : Declaration} (heval : (files.declaration? p name).eval s = (.ok (some d), s')) :
    s'.At p (Store.Keeping d) ∧ d.name = name := by
  obtain ⟨t, s₁, htable, heval⟩ := eval_bind_eq_ok heval
  obtain ⟨m, hm, hkept⟩ := kept_of_answered hs.running htable
  rw [eval_bind_ok (eval_current_of_some hm), eval_pure, Prod.mk.injEq, Except.ok.injEq] at heval
  rcases heval with ⟨hd, rfl⟩
  have hs₁ : s₁.AtRest files options := hs.of_ask (Nat.le_refl files.size) htable
  obtain ⟨hkeeping, hname, -⟩ := hs₁.keeping hm (by rw [hkept]; rfl) hd
  exact ⟨⟨m, hm, hkeeping⟩, hname⟩

theorem Store.AtRest.keeping_declarationOf (hs : s.AtRest files options) {a : Identity} {p : Path}
    {d : Declaration} (hkey : files.key a.file = .ok p)
    (heval : (files.declarationOf a).eval s = (.ok d, s')) :
    s'.At p (Store.Keeping d) ∧ d.name = a.name := by
  obtain ⟨q, s₁, hload, heval⟩ := eval_bind_eq_ok heval
  obtain rfl := Except.ok.inj (hkey.symm.trans (FileTree.key_of_load hload))
  have hs₁ : s₁.AtRest files options := hs.of_load hload
  obtain ⟨d', s₂, hdecl, heval⟩ := eval_bind_eq_ok heval
  cases d' with
  | none => simp at heval
  | some d' =>
      simp only [eval_pure, Prod.mk.injEq, Except.ok.injEq] at heval
      rcases heval with ⟨rfl, rfl⟩
      exact hs₁.keeping_declaration? hdecl

def Store.endTyping (s : Store) (p : Path) (d : Declaration) :
    Except Error Expr → Except Error Expr × Store
  | .error e => (.error (.inDeclaration d.identity e), s)
  | .ok e => (.ok e, s.updateModule p (·.setParsed d.name e))

namespace FileTree

variable {T : TableOf} {p : Path} {d : Declaration}

theorem eval_typeOfBy_of_some {e : Expr} (h : d.parsed = some e) (s : Store) :
    (files.typeOfBy T p d).eval s = (.ok e, s) := by
  rw [typeOfBy, h, eval_pure]

theorem eval_typeOfBy_of_none (h : d.parsed = none) {r : Except Error Expr}
    (hwork : Query.eval (Query.ofExcept d.written >>= fun w => w.resolve (files.scopeBy T p)) s =
      (r, s')) : (files.typeOfBy T p d).eval s = s'.endTyping p d r := by
  have houtcome := (eval_observe (Query.ofExcept d.written >>= fun w =>
    w.resolve (files.scopeBy T p)) s).trans (by rw [hwork] : _ = (Except.ok r, s'))
  rw [typeOfBy, h]
  refine (eval_bind_ok houtcome).trans ?_
  cases r with
  | error e => exact eval_throw _ _
  | ok e => exact (eval_bind_ok (eval_update p _ s')).trans (eval_pure e _)

theorem typeOfBy_tableOf (files : FileTree) : files.typeOfBy files.tableOf = files.typeOf := rfl

end FileTree

structure Store.QueriesAlike (files : FileTree) (options : ResolverOptions) (X : Store → Prop)
    (T : TableOf) : Prop extends Store.PartsAlike files options X T where
  typeOf : ∀ {s p d}, s.AtRestWith files options X → s.At p (Keeping d) →
    (files.typeOfBy T p d).eval s = (files.typeOf p d).eval s ∧
      ((files.typeOf p d).eval s).2.AtRestWith files options X

namespace Store.QueriesAlike

variable {X : Store → Prop} {T : TableOf} (h : Store.QueriesAlike files options X T)

include h

theorem resolve (p : Path) (name : String) :
    Query.Alike (AtRestWith files options X) (files.resolveBy T p name) (files.resolve p name) := by
  unfold FileTree.resolveBy FileTree.resolve
  refine (h.load p).alike.bind fun key => ?_
  refine ((h.tableOf key).exportNamed name).bind fun a => ?_
  refine (h.load a.file).alike.bind_of fun owner s s' hs hload hs' => ?_
  have hkey := FileTree.key_of_load hload
  refine (h.declarationOf a).bind_of (fun d s₁ s₂ hs₁ heval hs₂ => ?_) s' hs'
  obtain ⟨htype, hs₃⟩ := h.typeOf hs₂ (hs₁.1.keeping_declarationOf hkey heval).1
  rw [eval_bind, eval_bind, htype]
  rcases hresult : (files.typeOf owner d).eval s₂ with ⟨e | e, s₃⟩
  · rw [hresult] at hs₃
    exact ⟨rfl, hs₃⟩
  · rw [hresult] at hs₃
    exact ⟨rfl, by simpa only [eval_pure] using hs₃⟩

theorem perform (hproper : files.Proper) (r : Request) :
    Query.Alike (AtRestWith files options X) (r.performBy files T) (r.perform files) := by
  have hasking : ∀ {α : Type} {q q' : Path → Query α} (p : Path),
      (∀ key, Query.Alike (AtRestWith files options X) (q key) (q' key)) →
      Query.Alike (AtRestWith files options X) (Request.asking files p q)
        (Request.asking files p q') := fun p hq =>
    (h.load p).alike.bind fun key => (hq key).bind fun _ => (keeps_pure _).alike
  cases r with
  | load p => exact hasking p fun key => (keeps_pure key).alike
  | exports p => exact hasking p (h.exports hproper)
  | exportNamed p name => exact hasking p fun key => (h.tableOf key).exportNamed name
  | declaration p name => exact hasking p fun key => h.declaration? key name
  | declarations p => exact hasking p h.declarations
  | imports p => exact hasking p h.imports
  | lookup p name => exact hasking p fun key => h.lookup key name
  | typeOf p name =>
      refine hasking p fun key => (h.declaration? key name).bind_of fun d s s' hs heval hs' => ?_
      cases d with
      | none => exact (keeps_pure none).alike s' hs'
      | some d =>
          obtain ⟨htype, hs₁⟩ := h.typeOf hs' (hs.1.keeping_declaration? heval).1
          dsimp only
          rw [eval_map, eval_map, htype]
          exact ⟨rfl, hs₁⟩
  | resolveTerm p term =>
      exact hasking p fun key =>
        @Term.alike_resolve _ (files.scopeBy T key) (files.scope key) rfl (h.lookup key) term
  | declarationOf a => exact (h.declarationOf a).bind fun _ => (keeps_pure _).alike
  | resolve p name => exact (h.resolve p name).bind fun _ => (keeps_pure _).alike

end Store.QueriesAlike

theorem Store.QueriesAlike.after {X : Store → Prop}
    (h : Store.QueriesAlike files options X files.tableOf) (hproper : files.Proper)
    (hafter : s.After files s') (hs : s.AtRestWith files options X) :
    s'.AtRestWith files options X := by
  induction hafter with
  | here => exact hs
  | request _ r ih => exact (h.perform hproper r).keeps _ ih

namespace Store.KeptByRequests

variable {X : Store → Prop} (hX : Store.KeptByRequests files options X)

include hX

theorem queriesAlike (hproper : files.Proper) {T : TableOf}
    (hT : ∀ s p, s.AtRest files options → X s → (T p).eval s = (files.tableOf p).eval s) :
    Store.QueriesAlike files options X T where
  toPartsAlike := hX.partsAlike hproper hT
  typeOf {s p d} hs hd := by
    rw [← FileTree.typeOfBy_tableOf]
    cases hparsed : d.parsed with
    | some e =>
        rw [FileTree.eval_typeOfBy_of_some hparsed, FileTree.eval_typeOfBy_of_some hparsed]
        exact ⟨rfl, hs⟩
    | none =>
        -- While its names are looked up, the declaration stays as it is.
        have hparts := (hX.toKeptByImports.and (keptByImports_keeping p d)).partsAlike hproper
          (T := T) fun s p hs hX' => hT s p hs hX'.1
        obtain ⟨heval, hs', hX', hd'⟩ := ((keeps_ofExcept d.written).alike.bind
          fun w => hparts.written p w) s ⟨hs.1, hs.2, hd⟩
        rcases hresolve : Query.eval (Query.ofExcept d.written >>= fun w =>
          w.resolve (files.scope p)) s with ⟨r, s'⟩
        rw [hresolve] at heval hs' hX' hd'
        rw [FileTree.eval_typeOfBy_of_none hparsed heval,
          FileTree.eval_typeOfBy_of_none hparsed (T := files.tableOf) hresolve]
        refine ⟨rfl, ?_⟩
        cases r with
        | error e => exact ⟨hs', hX'⟩
        | ok e =>
            obtain ⟨w, hw, hresolve⟩ := eval_bind_ofExcept_ok hresolve
            exact ⟨hs'.edit p _ fun m _ => edited_setParsed p m d.name e,
              hX.parsed hs.1 hs.2 hd hparsed hw hresolve hs' hX' hd'⟩

theorem after (hproper : files.Proper) (h : s.After files s')
    (hs : s.AtRestWith files options X) : s'.AtRestWith files options X :=
  (hX.queriesAlike hproper fun _ _ _ _ => rfl).after hproper h hs

end Store.KeptByRequests

end Typings
