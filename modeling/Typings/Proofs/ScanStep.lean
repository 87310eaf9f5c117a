import Typings.Proofs.Store

/-!
# Steps of an export scan

A statement stands for a list of steps.  A step either concerns the scanned module alone, or loads
a file, or asks another module for its export table and uses the answer.  A scan performs the
steps of all statements one after the other.
-/

namespace Typings

/-- A step that concerns the scanned module alone. -/
inductive LocalStep where
  | fail (cause : Error)
  | remark (s : Statement) (r : Remark)
  | declare (s : Statement) (h : Head)
  | promote (s : Statement) (name : String)
  | list (b : Binding)
  deriving DecidableEq, Repr

inductive ScanStep where
  | own (l : LocalStep)
  | visit (file : Path)
  | merge (target : Path)
  | take (target : Path) (b : Binding)
  deriving DecidableEq, Repr

def ScanStep.asked? : ScanStep → Option Path
  | .own _ => none
  | .visit _ => none
  | .merge target => some target
  | .take target _ => some target

/-! ## Changes of the scanned module -/

def Head.identity (h : Head) (p : Path) : Identity := ⟨p, h.name, h.isDefault⟩

def Head.declaration (h : Head) (p : Path) (s : Statement) : Declaration :=
  ⟨h.identity p, h.kind, h.body, h.exported, s.offset, none⟩

/-- The entry that a binding makes for the type it stands for. -/
def ExportTable.addBinding (t : ExportTable) (b : Binding) (found : Identity) : ExportTable :=
  (if b.name = "default" ∧ b.newName = none then t.setDefault found else t).add found

namespace Module

def rename (m : Module) (b : Binding) (found : Identity) : Module :=
  match b.newName with
  | some newName => m.addAlias newName found
  | none => m

def declare (m : Module) (p : Path) (s : Statement) (h : Head) : Module :=
  if h.exported then (m.addLocal (h.declaration p s)).updatePending (·.add (h.identity p))
  else m.addLocal (h.declaration p s)

def addListed (m : Module) (b : Binding) (found : Identity) : Module :=
  (m.rename b found).updatePending (·.add found)

def addTaken (m : Module) (b : Binding) (found : Identity) : Module :=
  (m.rename b found).updatePending (·.addBinding b found)

end Module

/-- What a step does to the module at `p`, judging by the module before it. -/
def LocalStep.change (p : Path) : LocalStep → Module → Except Error (Module → Module)
  | .fail cause, _ => .error cause
  | .remark s r, _ => .ok (·.addExportNote s r)
  | .declare s h, _ => .ok (·.declare p s h)
  | .promote s name, m =>
      match (m.locals.get? name).filter (!·.exported) with
      | none => .error (.malformedDeclaration s.text)
      | some d => .ok (·.updatePending (·.setDefault d.identity))
  | .list b, m =>
      match m.localIdentity? b.name with
      | none => .error (m.unresolved b.name)
      | some found => .ok (·.addListed b found)

/-! ## The steps of a statement -/

def ScanStep.visiting (files : FileTree) (file : Path) (steps : Path → List ScanStep) :
    List ScanStep :=
  .visit file ::
    match files.key file with
    | .ok target => steps target
    | .error _ => []

def Reexport.scanSteps (files : FileTree) (options : ResolverOptions) (p : Path) (r : Reexport) :
    List ScanStep :=
  match r.clause with
  | .all => ScanStep.visiting files (Specifier.resolve options p r.specifier) fun t => [.merge t]
  | .namespaceName _ => []
  | .named bindings =>
      ScanStep.visiting files (Specifier.resolve options p r.specifier) fun t => bindings.map (.take t)

def Meaning.scanSteps (files : FileTree) (options : ResolverOptions) (p : Path) (s : Statement)
    (m : Meaning) : List ScanStep :=
  match m.remark? s.text with
  | some remark => [.own (.remark s remark)]
  | none =>
      match m with
      | .reexport r => r.scanSteps files options p
      | .declaration h => [.own (.declare s h)]
      | .defaultExport name => [.own (.promote s name)]
      | .emptyExport => []
      | .localExports bindings => bindings.map fun b => .own (.list b)
      | .value _ => []

/-- The steps that a statement of the module at `p` stands for. -/
def Statement.scanSteps (files : FileTree) (options : ResolverOptions) (p : Path) (s : Statement) :
    List ScanStep :=
  match s.meaning with
  | .error e => [.own (.fail e)]
  | .ok m => m.scanSteps files options p s

/-! ## Performing a step -/

namespace ScanStep

open ExportScan Query

variable (files : FileTree) (tableOf : TableOf) (p : Path)

def performLocal : LocalStep → Query Unit
  | .fail cause => throw cause
  | .remark s r => Query.update p (·.addExportNote s r)
  | .declare s h => takeDeclaration p s h
  | .promote s name => takeDefault p s name
  | .list b => takeLocal p b

def perform : ScanStep → Query Unit
  | .own l => performLocal p l
  | .visit file => do let _ ← files.load file
  | .merge target => do
      let taken ← tableOf target
      Query.update p (·.updatePending (·.merge taken))
  | .take target b => takeBinding tableOf p target b

variable {files tableOf p}

theorem eval_visit_ok {file key : Path} {s s' : Store}
    (h : (files.load file).eval s = (.ok key, s')) :
    (perform files tableOf p (.visit file)).eval s = (.ok (), s') :=
  (eval_bind_ok h).trans (eval_pure () s')

theorem eval_visit_error {file : Path} {e : Error} {s s' : Store}
    (h : (files.load file).eval s = (.error e, s')) :
    (perform files tableOf p (.visit file)).eval s = (.error e, s') :=
  eval_bind_error h

theorem eval_visit_bind {file : Path} {rest : Path → Query Unit} {steps : Path → List ScanStep}
    (hrest : ∀ target s, (rest target).eval s =
      (forM (steps target) (perform files tableOf p)).eval s) (s : Store) :
    (files.load file >>= rest).eval s =
      (forM (visiting files file steps) (perform files tableOf p)).eval s := by
  rw [visiting, eval_forM_cons]
  rcases hload : (files.load file).eval s with ⟨e | key, s'⟩
  · rw [eval_bind_error hload, eval_visit_error hload]
  · rw [eval_bind_ok hload, eval_visit_ok hload, FileTree.key_of_load hload]
    exact hrest key s'

theorem eval_forM_single (i : ScanStep) (s : Store) :
    (forM [i] (perform files tableOf p)).eval s = (perform files tableOf p i).eval s := by
  rw [eval_forM_cons, List.forM_nil]
  rcases (perform files tableOf p i).eval s with ⟨_ | _, _⟩ <;> simp only [eval_pure]

theorem eval_takeReexport (r : Reexport) (s : Store) :
    (takeReexport files tableOf p r).eval s =
      (forM (r.scanSteps files s.options p) (perform files tableOf p)).eval s := by
  rcases r with ⟨clause, specifier⟩
  unfold takeReexport Reexport.scanSteps
  rw [eval_bind_ok (eval_get s)]
  dsimp only
  cases clause with
  | all =>
      dsimp only
      exact eval_visit_bind (fun target s => (eval_forM_single (.merge target) s).symm) s
  | namespaceName name => rfl
  | named bindings =>
      dsimp only
      refine eval_visit_bind (fun target s => ?_) s
      rw [List.forM_map]
      rfl

theorem eval_take (st : Statement) (m : Meaning) (s : Store) (hm : m.remark? st.text = none) :
    (ExportScan.take files tableOf p st m).eval s =
      (forM (m.scanSteps files s.options p st) (perform files tableOf p)).eval s := by
  unfold Meaning.scanSteps
  rw [hm]
  cases m with
  | reexport r => exact eval_takeReexport r s
  | localExports bindings =>
      dsimp only
      rw [List.forM_map]
      rfl
  | declaration h => exact (eval_forM_single (.own (.declare st h)) s).symm
  | defaultExport name => exact (eval_forM_single (.own (.promote st name)) s).symm
  | emptyExport => rfl
  | value name => rfl

theorem eval_takeStatement (st : Statement) (s : Store) :
    (takeStatement files tableOf p st).eval s =
      (forM (st.scanSteps files s.options p) (perform files tableOf p)).eval s := by
  unfold takeStatement Statement.scanSteps
  cases hmeaning : st.meaning with
  | error e =>
      rw [eval_bind_error (eval_ofExcept _ s)]
      dsimp only
      rw [eval_forM_single]
      exact (eval_throw e s).symm
  | ok m =>
      rw [eval_bind_ok (eval_ofExcept _ s)]
      cases hremark : m.remark? st.text with
      | none => exact eval_take st m s hremark
      | some remark =>
          simp only [Meaning.scanSteps, hremark]
          exact (eval_forM_single (.own (.remark st remark)) s).symm

/-! ## The effect of a step -/

/-- What performing a step in the scan of the module at `p` comes to. -/
inductive Effect (files : FileTree) (tableOf : TableOf) (p : Path) :
    ScanStep → Store → Except Error Unit → Store → Prop
  | changed {l : LocalStep} {s : Store} {m : Module} {f : Module → Module}
      (hm : s.module? p = some m) (hf : l.change p m = .ok f) :
      Effect files tableOf p (.own l) s (.ok ()) (s.updateModule p f)
  | refused {l : LocalStep} {s : Store} {m : Module} {e : Error}
      (hm : s.module? p = some m) (hf : l.change p m = .error e) :
      Effect files tableOf p (.own l) s (.error e) s
  | visited {file key : Path} {s s' : Store} (h : (files.load file).eval s = (.ok key, s')) :
      Effect files tableOf p (.visit file) s (.ok ()) s'
  | unvisited {file : Path} {s s' : Store} {e : Error}
      (h : (files.load file).eval s = (.error e, s')) :
      Effect files tableOf p (.visit file) s (.error e) s'
  | merged {target : Path} {s s' : Store} {taken : ExportTable}
      (h : (tableOf target).eval s = (.ok taken, s')) :
      Effect files tableOf p (.merge target) s (.ok ())
        (s'.updateModule p (·.updatePending (·.merge taken)))
  | unmerged {target : Path} {s s' : Store} {e : Error}
      (h : (tableOf target).eval s = (.error e, s')) :
      Effect files tableOf p (.merge target) s (.error e) s'
  | taken {target : Path} {b : Binding} {s s' : Store} {table : ExportTable} {m : Module}
      {found : Identity} (h : (tableOf target).eval s = (.ok table, s'))
      (hm : s'.module? target = some m) (hfound : m.lookupExport table b.name = .ok found) :
      Effect files tableOf p (.take target b) s (.ok ())
        (s'.updateModule p (·.addTaken b found))
  | notFound {target : Path} {b : Binding} {s s' : Store} {table : ExportTable} {m : Module}
      {e : Error} (h : (tableOf target).eval s = (.ok table, s'))
      (hm : s'.module? target = some m) (hfound : m.lookupExport table b.name = .error e) :
      Effect files tableOf p (.take target b) s (.error e) s'
  | lost {target : Path} {b : Binding} {s s' : Store} {table : ExportTable}
      (h : (tableOf target).eval s = (.ok table, s')) (hm : s'.module? target = none) :
      Effect files tableOf p (.take target b) s (.error (.fileNotFound target)) s'
  | untaken {target : Path} {b : Binding} {s s' : Store} {e : Error}
      (h : (tableOf target).eval s = (.error e, s')) :
      Effect files tableOf p (.take target b) s (.error e) s'

theorem eval_takeDeclaration (st : Statement) (h : Head) (s : Store) :
    (takeDeclaration p st h).eval s = (.ok (), s.updateModule p (·.declare p st h)) := by
  unfold takeDeclaration
  rw [eval_bind_ok (eval_update p _ s)]
  cases hexp : h.exported with
  | true =>
      rw [if_pos rfl, eval_update, Store.updateModule_updateModule]
      simp only [Module.declare, Head.declaration, Head.identity, hexp, if_true,
        Function.comp_def]
  | false =>
      rw [if_neg Bool.false_ne_true, eval_pure]
      simp only [Module.declare, Head.declaration, Head.identity, hexp, Bool.false_eq_true,
        if_false]

theorem eval_takeLocal {b : Binding} {found : Identity} {s : Store} {m : Module}
    (hm : s.module? p = some m) (hb : m.localIdentity? b.name = some found) :
    (takeLocal p b).eval s = (.ok (), s.updateModule p (·.addListed b found)) := by
  unfold takeLocal
  rw [eval_bind_ok (eval_current_of_some hm), hb]
  cases hname : b.newName with
  | none =>
      simp only [eval_update, Module.addListed, Module.rename, hname]
  | some newName =>
      simp only [Module.addListed, Module.rename, hname]
      rw [eval_bind_ok (eval_update p _ s), eval_update, Store.updateModule_updateModule]
      rfl

theorem eval_bind_found {target : Path} {b : Binding} {found : Identity} {s s' : Store}
    (h : (exportedBy tableOf target b.name).eval s = (.ok found, s')) :
    (ExportScan.bind tableOf p target b).eval s =
      (.ok found, s'.updateModule p (·.rename b found)) := by
  unfold ExportScan.bind
  rw [eval_bind_ok h]
  cases hname : b.newName with
  | none => simp only [Module.rename, hname, eval_pure, Store.updateModule_id]
  | some newName =>
      simp only [Module.rename, hname]
      rw [eval_bind_ok (eval_update p _ s'), eval_pure]

theorem eval_takeBinding {target : Path} {b : Binding} {found : Identity} {s s' : Store}
    (h : (exportedBy tableOf target b.name).eval s = (.ok found, s')) :
    (takeBinding tableOf p target b).eval s = (.ok (), s'.updateModule p (·.addTaken b found)) := by
  unfold takeBinding
  rw [eval_bind_ok (eval_bind_found h), eval_update, Store.updateModule_updateModule]
  rfl

theorem eval_exportedBy {target : Path} {name : String} {table : ExportTable} {s s' : Store}
    {m : Module} (h : (tableOf target).eval s = (.ok table, s')) (hm : s'.module? target = some m) :
    (exportedBy tableOf target name).eval s = (m.lookupExport table name, s') := by
  unfold exportedBy
  rw [eval_bind_ok h, eval_bind_ok (eval_current_of_some hm), eval_ofExcept]

theorem state_exportedBy (target : Path) (name : String) (s : Store) :
    ((exportedBy tableOf target name).eval s).2 = ((tableOf target).eval s).2 := by
  rcases h : (tableOf target).eval s with ⟨e | table, s'⟩
  · rw [exportedBy, eval_bind_error h]
  · rw [exportedBy, eval_bind_ok h]
    cases hm : s'.module? target with
    | none => rw [eval_bind_error (eval_current_of_none hm)]
    | some m => rw [eval_bind_ok (eval_current_of_some hm), eval_ofExcept]

theorem effect_own (l : LocalStep) {s : Store} {m : Module} (hm : s.module? p = some m) :
    Effect files tableOf p (.own l) s ((perform files tableOf p (.own l)).eval s).1
      ((perform files tableOf p (.own l)).eval s).2 := by
  cases l with
  | fail e =>
      rw [perform, performLocal, eval_throw]
      exact .refused hm rfl
  | remark st r =>
      rw [perform, performLocal, eval_update]
      exact .changed hm rfl
  | declare st h =>
      rw [perform, performLocal, eval_takeDeclaration]
      exact .changed hm rfl
  | promote st name =>
      rw [perform, performLocal, takeDefault, eval_bind_ok (eval_current_of_some hm)]
      cases hd : (m.locals.get? name).filter (!·.exported) with
      | none =>
          rw [eval_throw]
          exact .refused hm (by simp only [LocalStep.change, hd])
      | some d =>
          rw [eval_update]
          exact .changed hm (by simp only [LocalStep.change, hd])
  | list b =>
      rw [perform, performLocal]
      cases hb : m.localIdentity? b.name with
      | none =>
          rw [takeLocal, eval_bind_ok (eval_current_of_some hm), hb, eval_throw]
          exact .refused hm (by simp only [LocalStep.change, hb])
      | some found =>
          rw [eval_takeLocal hm hb]
          exact .changed hm (by simp only [LocalStep.change, hb])

theorem effect_take (target : Path) (b : Binding) (s : Store) :
    Effect files tableOf p (.take target b) s
      ((perform files tableOf p (.take target b)).eval s).1
      ((perform files tableOf p (.take target b)).eval s).2 := by
  have hfails : ∀ {e s'}, (exportedBy tableOf target b.name).eval s = (.error e, s') →
      (perform files tableOf p (.take target b)).eval s = (.error e, s') := fun h =>
    eval_bind_error (eval_bind_error h)
  rcases h : (tableOf target).eval s with ⟨e | table, s'⟩
  · rw [hfails (eval_bind_error h)]
    exact .untaken h
  · cases hm : s'.module? target with
    | none =>
        rw [hfails ((eval_bind_ok h).trans (eval_bind_error (eval_current_of_none hm)))]
        exact .lost h hm
    | some m =>
        have hexported : (exportedBy tableOf target b.name).eval s = _ := eval_exportedBy h hm
        cases hfound : m.lookupExport table b.name with
        | error e =>
            rw [hfails (hexported.trans (by rw [hfound]))]
            exact .notFound h hm hfound
        | ok found =>
            rw [perform, eval_takeBinding (hexported.trans (by rw [hfound]))]
            exact .taken h hm hfound

theorem effect (i : ScanStep) {s : Store} {m : Module} (hm : s.module? p = some m) :
    Effect files tableOf p i s ((perform files tableOf p i).eval s).1
      ((perform files tableOf p i).eval s).2 := by
  cases i with
  | own l => exact effect_own l hm
  | visit file =>
      rcases h : (files.load file).eval s with ⟨e | key, s'⟩
      · rw [eval_visit_error h]
        exact .unvisited h
      · rw [eval_visit_ok h]
        exact .visited h
  | merge target =>
      rw [perform]
      rcases h : (tableOf target).eval s with ⟨e | taken, s'⟩
      · rw [eval_bind_error h]
        exact .unmerged h
      · rw [eval_bind_ok h, eval_update]
        exact .merged h
  | take target b => exact effect_take target b s

end ScanStep

end Typings
