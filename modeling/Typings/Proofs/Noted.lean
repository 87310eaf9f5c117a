import Typings.Proofs.Location
import Typings.Proofs.Session

/-!
# The notes that modules hold

A scan puts down what is skipped before it may fail, and begins anew each time.  So what a module
holds are the first notes on its file, and all of them once the scan is kept: whatever was asked
before and however often the file was scanned, alone or inside other scans.
-/

namespace Typings

open ExportScan Query

variable {files : FileTree} {options : ResolverOptions} {imported : Path → String → Prop}
  {s s' : Store} {p : Path}

/-! ## Notes on the file of a module -/

/-- The notes begin a list, of which none is missing once what they are about is found. -/
structure Noted (all notes : List Diagnostic) (found : Bool) : Prop where
  prefix_all : notes <+: all
  eq_all : found = true → notes = all

theorem Noted.of_first {all notes : List Diagnostic} (h : notes <+: all) : Noted all notes false :=
  ⟨h, by simp⟩

/-- A module holds notes on its own file only, in order; on its imports if it is one of `I`. -/
structure Module.WellNoted (files : FileTree) (options : ResolverOptions) (I : Path → Prop)
    (p : Path) (m : Module) : Prop where
  path_eq : m.path = p
  exports : Noted ((files.exportStatements options p).filterMap (Statement.exportNote? p))
    m.exportNotes m.exports.isSome
  imports : I p → Noted ((files.importStatements options p).filterMap (Statement.importNote? p))
    m.importNotes m.imports.isSome

namespace Module.WellNoted

variable {I : Path → Prop} {m m' : Module}

theorem congr (h : m.WellNoted files options I p) (hpath : m'.path = m.path)
    (hexportNotes : m'.exportNotes = m.exportNotes) (hexports : m'.exports = m.exports)
    (himportNotes : m'.importNotes = m.importNotes) (himports : m'.imports = m.imports) :
    m'.WellNoted files options I p where
  path_eq := hpath.trans h.path_eq
  exports := by rw [hexportNotes, hexports]; exact h.exports
  imports := by rw [himportNotes, himports]; exact h.imports

theorem advance (h : m.WellNoted files options I p) (he : m.Evolves m')
    (hexports : m'.exports = none) {done rest : List ScanStep}
    (hsteps : files.scanSteps options p = done ++ rest) (hnotes : m'.NotesOf p done) :
    m'.WellNoted files options I p where
  path_eq := he.path_eq.trans h.path_eq
  exports := by
    rw [hexports]
    refine .of_first ?_
    rw [← FileTree.notes_scanSteps, hsteps, List.filterMap_append, hnotes]
    exact List.prefix_append _ _
  imports := by rw [he.importNotes_eq, he.imports_eq]; exact h.imports

end Module.WellNoted

theorem Scanned.notes {m : Module} (h : Scanned files options imported p m) :
    m.NotesOf p (files.scanSteps options p) := by
  rcases h with ⟨n, stack, s₀, s, hscan⟩
  exact hscan.notes

/-! ## Scans of exports -/

theorem scanKept_wellNoted (I : Path → Prop) : ScanKept files options imported
    (Module.WellNoted files options I) (fun _ _ => True) where
  loaded p text _ := ⟨rfl, .of_first List.nil_prefix, fun _ => .of_first List.nil_prefix⟩
  begun p m d hnone h := by
    refine ⟨h.path_eq, ?_, h.imports⟩
    have hexports : (m.beginScan d).exports.isSome = false := by
      rw [Module.beginScan, hnone]
      rfl
    rw [hexports]
    exact .of_first List.nil_prefix
  own p m l f done rest hsteps _ hnotes hf _ hnone h := by
    obtain ⟨hevolves, hexports⟩ := LocalStep.evolves_change hf
    have hsteps' : files.scanSteps options p = (done ++ [.own l]) ++ rest := by
      rw [hsteps, List.append_assoc, List.singleton_append]
    refine h.advance hevolves (hexports.trans hnone) hsteps' ?_
    rw [Module.NotesOf, LocalStep.exportNotes_change h.path_eq hf, hnotes, List.filterMap_append]
    cases hnote : (ScanStep.own l).note? p <;> simp [hnote]
  merged p q m taken _ _ _ _ _ _ _ h := h.congr rfl rfl rfl rfl rfl
  taken p q m mq b table found _ _ _ _ _ _ _ h := by
    obtain ⟨hevolves, hexports⟩ := m.evolves_addTaken b found
    exact h.congr hevolves.path_eq (m.exportNotes_rename b found) hexports
      hevolves.importNotes_eq hevolves.imports_eq
  ended p m h := h.congr rfl rfl rfl rfl rfl
  keep p m hscanned h := by
    refine ⟨h.path_eq, ⟨h.exports.prefix_all, fun _ => ?_⟩, h.imports⟩
    rw [← FileTree.notes_scanSteps]
    exact hscanned.notes
  answer_of_kept _ _ _ _ _ := trivial
  answer_of_scan _ _ _ _ := trivial

namespace Store

variable {I : Path → Prop}

theorem AtRest.wellNoted_load (hs : s.AtRest files options)
    (h : s.All (Module.WellNoted files options I)) (q : Path) :
    ((files.load q).eval s).2.All (Module.WellNoted files options I) :=
  h.load (@scanKept_wellNoted files options (files.ImportsAs options) I) hs.running.options_eq
    (files.eval_load q s)

theorem AtRest.wellNoted_ask (hs : s.AtRest files options)
    (h : s.All (Module.WellNoted files options I)) (q : Path) :
    ((files.tableOf q).eval s).2.All (Module.WellNoted files options I) :=
  ((scanKept_wellNoted I).tableOf _ (.rest hs q) h rfl).1

/-! ## Scans of imports -/

structure Noting (files : FileTree) (options : ResolverOptions) (p : Path)
    (notes : List Diagnostic) (s : Store) : Prop where
  atRest : s.AtRest files options
  others : s.All (Module.WellNoted files options (· ≠ p))
  own : s.At p fun m => m.imports = none ∧ m.importNotes = notes

namespace Noting

variable {notes : List Diagnostic}

theorem load (h : s.Noting files options p notes) (q : Path) :
    ((files.load q).eval s).2.Noting files options p notes where
  atRest := h.atRest.load q
  others := h.atRest.wellNoted_load h.others q
  own := h.own.evolves (files.eval_load q s).evolves fun _ _ he hm =>
    ⟨he.imports_eq.trans hm.1, he.importNotes_eq.trans hm.2⟩

theorem ask (h : s.Noting files options p notes) (q : Path) :
    ((files.tableOf q).eval s).2.Noting files options p notes where
  atRest := h.atRest.ask (Nat.le_refl files.size) q
  others := h.atRest.wellNoted_ask h.others q
  own := h.own.evolves (tame_tableOf _ h.atRest.running (by simp) rfl).2 fun _ _ he hm =>
    ⟨he.imports_eq.trans hm.1, he.importNotes_eq.trans hm.2⟩

theorem addAlias (hproper : files.Proper) (h : s.Noting files options p notes) {q : Path}
    {b : Binding} {name : String} {found : Identity} (hb : files.Imports options p q b)
    (hname : b.newName = some name) (heval : (files.exportNamed q b.name).eval s = (.ok found, s'))
    (h' : s'.Noting files options p notes) :
    (s'.updateModule p (·.addAlias name found)).Noting files options p notes where
  atRest := h.atRest.addAlias hproper hb hname heval h'.atRest
  others := h'.others.updateModule fun m hm => (h'.others p m hm).congr rfl rfl rfl rfl rfl
  own := h'.own.updateModule fun _ hm => hm

theorem keeps_bind (hproper : files.Proper) {q : Path} {b : Binding}
    (hb : files.Imports options p q b) :
    Query.Keeps (Noting files options p notes) (ExportScan.bind files.tableOf p q b) := by
  have hask : Query.Keeps (Noting files options p notes) (files.tableOf q) := fun _ h => h.ask q
  intro s hs
  have hnamed : ((exportedBy files.tableOf q b.name).eval s).2.Noting files options p notes :=
    (hask.alike.exportNamed b.name).keeps s hs
  rcases heval : (exportedBy files.tableOf q b.name).eval s with ⟨e | found, s'⟩
  · rw [heval] at hnamed
    rwa [ExportScan.bind, eval_bind_error heval]
  · rw [heval] at hnamed
    rw [ScanStep.eval_bind_found heval]
    cases hname : b.newName with
    | none => simpa only [Module.rename, hname, updateModule_id] using hnamed
    | some name =>
        simpa only [Module.rename, hname] using hs.addAlias hproper hb hname heval hnamed

theorem addNote (h : s.Noting files options p notes) (st : Statement) (r : Remark) :
    (s.updateModule p (·.addImportNote st r)).Noting files options p
      (notes ++ [st.note p r]) where
  atRest := h.atRest.edit p _ fun m _ => edited_imports p m m.imports (m.importNotes ++ [m.note st r])
  others := h.others.updateModule fun m hm =>
    ⟨(h.others p m hm).path_eq, (h.others p m hm).exports, fun hne => absurd rfl hne⟩
  own := by
    rcases h.own with ⟨m, hm, himports, hnotes⟩
    refine ⟨_, module?_updateModule_self _ hm, himports, ?_⟩
    rw [Module.addImportNote, hnotes, Module.note, (h.others p m hm).path_eq]
    rfl

theorem perform (hproper : files.Proper) (h : s.Noting files options p notes) {i : ImportStep}
    (hi : i ∈ files.importSteps options p) (found : OrderedMap String Identity) :
    ((i.perform files files.tableOf p found).eval s).2.Noting files options p
      (notes ++ (i.note? p).toList) := by
  cases i with
  | fail cause =>
      simp only [ImportStep.note?, Option.toList_none, List.append_nil]
      exact keeps_throw cause s h
  | remark st r =>
      have hremark : (ImportStep.perform files files.tableOf p found (.remark st r)).eval s =
          (.ok found, s.updateModule p (·.addImportNote st r)) :=
        (eval_bind_ok (eval_update p _ s)).trans (eval_pure found _)
      rw [hremark]
      exact h.addNote st r
  | visit file =>
      have hload : Query.Keeps (Noting files options p notes) (files.load file) :=
        fun _ h => h.load file
      simp only [ImportStep.note?, Option.toList_none, List.append_nil]
      exact hload.bind (fun _ => keeps_pure found) s h
  | take q b =>
      simp only [ImportStep.note?, Option.toList_none, List.append_nil]
      exact (keeps_bind hproper hi).bind (fun _ => keeps_pure _) s h

/-- The scan of the imports has noted what some first steps stand for; all, if none failed. -/
theorem performAll (hproper : files.Proper) {steps : List ImportStep}
    (hsteps : ∀ i ∈ steps, i ∈ files.importSteps options p)
    (h : s.Noting files options p notes) {found : OrderedMap String Identity}
    {r : Except Error (OrderedMap String Identity)}
    (heval : (ImportStep.performAll files files.tableOf p steps found).eval s = (r, s')) :
    ∃ done, done <+: steps ∧ (∀ found, r = .ok found → done = steps) ∧
      s'.Noting files options p (notes ++ done.filterMap (ImportStep.note? p)) := by
  induction steps generalizing s notes found with
  | nil =>
      obtain ⟨-, rfl⟩ := Prod.mk.inj heval
      exact ⟨[], List.nil_prefix, fun _ _ => rfl, by simpa using h⟩
  | cons i steps ih =>
      rw [List.forall_mem_cons] at hsteps
      have hperform := h.perform hproper hsteps.1 found
      rw [ImportStep.eval_performAll_cons] at heval
      rcases hi : (i.perform files files.tableOf p found).eval s with ⟨e | found₁, s₁⟩
      · rw [hi] at heval hperform
        obtain ⟨rfl, rfl⟩ := Prod.mk.inj heval
        refine ⟨[i], List.prefix_append [i] steps, by simp, ?_⟩
        cases hnote : i.note? p <;> simpa [hnote] using hperform
      · rw [hi] at heval hperform
        obtain ⟨done, hdone, hall, hs'⟩ := ih hsteps.2 hperform heval
        refine ⟨i :: done, List.cons_prefix_cons.2 ⟨rfl, hdone⟩, fun found hr => ?_, ?_⟩
        · rw [hall found hr]
        · rw [List.append_assoc] at hs'
          convert hs' using 2
          cases hnote : i.note? p <;> simp [hnote]

theorem wellNoted (h : s.Noting files options p notes)
    (hnotes : notes <+: (files.importStatements options p).filterMap (Statement.importNote? p)) :
    s.All (Module.WellNoted files options fun _ => True) := by
  intro q m hm
  have hq := h.others q m hm
  refine ⟨hq.path_eq, hq.exports, fun _ => ?_⟩
  by_cases hqp : q = p
  · subst hqp
    rcases h.own with ⟨m', hm', himports, rfl⟩
    obtain rfl := Option.some.inj (hm'.symm.trans hm)
    rw [himports]
    exact .of_first hnotes
  · exact hq.imports hqp

theorem wellNoted_keepImports {found : OrderedMap String Identity}
    (h : s.Noting files options p
      ((files.importStatements options p).filterMap (Statement.importNote? p))) :
    (s.keepImports p found).All (Module.WellNoted files options fun _ => True) := by
  have hall := h.wellNoted (List.prefix_refl _)
  rcases h.own with ⟨m, hm, -, hnotes⟩
  refine hall.updateModule fun m' hm' => ?_
  obtain rfl := Option.some.inj (hm.symm.trans hm')
  exact ⟨(hall p m hm).path_eq, (hall p m hm).exports, fun _ =>
    ⟨((hall p m hm).imports trivial).prefix_all, fun _ => hnotes⟩⟩

end Noting

theorem AtRest.noting (hs : s.AtRest files options)
    (h : s.All (Module.WellNoted files options fun _ => True)) {m : Module}
    (hm : s.module? p = some m) (hnone : m.imports = none) :
    (s.beginImports p).Noting files options p [] where
  atRest := hs.edit p _ fun m _ => edited_imports p m m.imports []
  others := by
    have hothers : s.All (Module.WellNoted files options (· ≠ p)) := fun q m hm =>
      ⟨(h q m hm).path_eq, (h q m hm).exports, fun _ => (h q m hm).imports trivial⟩
    exact hothers.updateModule fun m hm =>
      ⟨(hothers p m hm).path_eq, (hothers p m hm).exports, fun hne => absurd rfl hne⟩
  own := ⟨_, module?_updateModule_self _ hm, hnone, rfl⟩

/-! ## Requests -/

theorem keeps_imports_wellNoted (hproper : files.Proper) (p : Path) :
    Query.Keeps (AtRestWith files options (All (Module.WellNoted files options fun _ => True)))
      (files.imports p) := by
  rintro s ⟨hs, h⟩
  rw [← FileTree.importsBy_tableOf]
  cases hm : s.module? p with
  | none => rw [FileTree.eval_importsBy_of_unloaded hm]; exact ⟨hs, h⟩
  | some m =>
      cases himports : m.imports with
      | some found => rw [FileTree.eval_importsBy_of_some hm himports]; exact ⟨hs, h⟩
      | none =>
          have hbegun := hs.noting h hm himports
          rcases hsteps : (ImportStep.performAll files files.tableOf p (files.importSteps options p)
            .empty).eval (s.beginImports p) with ⟨r, s'⟩
          obtain ⟨done, hdone, hall, hs'⟩ := hbegun.performAll hproper (fun _ hi => hi) hsteps
          have hkept : KeptByBindings files options (fun _ => True) (AtRest files options) :=
            (closed_atRest.requests hproper).toKeptByBindings
          obtain ⟨hscan, -⟩ := hkept.alike_importStatements (T := files.tableOf)
            (fun _ _ _ _ => rfl) hproper trivial _ ⟨hbegun.atRest, hbegun.atRest⟩
          rw [hsteps, ← hs.importStatements_eq hm] at hscan
          rw [FileTree.eval_importsBy_of_none hm himports hscan]
          cases r with
          | error e =>
              refine ⟨hs'.atRest, hs'.wellNoted ?_⟩
              rw [← FileTree.notes_importSteps]
              exact hdone.filterMap _
          | ok found =>
              rw [hall found rfl, FileTree.notes_importSteps, List.nil_append] at hs'
              exact ⟨hs'.atRest.edit p _ fun m _ => edited_imports p m (some found) m.importNotes,
                hs'.wellNoted_keepImports⟩

theorem queriesAlike_wellNoted (hproper : files.Proper) :
    QueriesAlike files options (All (Module.WellNoted files options fun _ => True))
      files.tableOf := by
  have hparts : PartsAlike files options (All (Module.WellNoted files options fun _ => True))
      files.tableOf :=
    { load := fun p s h => ⟨h.1.load p, h.1.wellNoted_load h.2 p⟩
      tableOf := fun p s h =>
        ⟨rfl, h.1.ask (Nat.le_refl files.size) p, h.1.wellNoted_ask h.2 p⟩
      imports := fun p => (keeps_imports_wellNoted hproper p).alike }
  refine { toPartsAlike := hparts, typeOf := fun {s p d} hs _ => ⟨rfl, ?_⟩ }
  rw [← FileTree.typeOfBy_tableOf]
  cases hparsed : d.parsed with
  | some e => rw [FileTree.eval_typeOfBy_of_some hparsed]; exact hs
  | none =>
      have hwork := ((keeps_ofExcept d.written).alike.bind fun w => hparts.written p w).keeps s hs
      rcases hresolve : Query.eval (Query.ofExcept d.written >>= fun w =>
        w.resolve (files.scope p)) s with ⟨r, s'⟩
      rw [hresolve] at hwork
      rw [FileTree.eval_typeOfBy_of_none hparsed (T := files.tableOf) hresolve]
      cases r with
      | error e => exact hwork
      | ok e =>
          exact ⟨hwork.1.edit p _ fun m _ => edited_setParsed p m d.name e,
            hwork.2.updateModule fun m hm => (hwork.2 p m hm).congr rfl rfl rfl rfl rfl⟩

theorem Session.wellNoted (hproper : files.Proper) (h : s.Session files options) :
    s.All (Module.WellNoted files options fun _ => True) :=
  ((queriesAlike_wellNoted hproper).after hproper h ⟨.fresh, fun _ _ hm => by cases hm⟩).2

end Store

/--
A module's diagnostics are first notes on the imports of its file and then first notes on its other
statements, each in the order of the statements.  No note on the imports is missing once they are
found, and none on the other statements once the exports are.
-/
theorem diagnostics_in_order (hproper : files.Proper) (hs : s.Session files options) {m : Module}
    (hm : s.module? p = some m) : ∃ text imports exports, files.read p = .ok text ∧
      m.diagnostics = imports ++ exports ∧
      imports <+: Statement.importNotes p (Statement.ofSource text options.stripComments) ∧
      exports <+: Statement.exportNotes p (Statement.ofSource text options.stripComments) ∧
      (m.imports.isSome →
        imports = Statement.importNotes p (Statement.ofSource text options.stripComments)) ∧
      (m.exports.isSome →
        exports = Statement.exportNotes p (Statement.ofSource text options.stripComments)) := by
  have hfile := (hs.atRest hproper).running.isFile p m hm
  have hnoted := hs.wellNoted hproper p m hm
  have himports : (files.importStatements options p).filterMap (Statement.importNote? p) =
      Statement.importNotes p (Statement.ofSource m.text options.stripComments) := by
    rw [FileTree.importStatements, hfile.read_eq, Statement.importNotes]
  have hexports : (files.exportStatements options p).filterMap (Statement.exportNote? p) =
      Statement.exportNotes p (Statement.ofSource m.text options.stripComments) := by
    rw [FileTree.exportStatements, hfile.read_eq, Statement.exportNotes]
  obtain ⟨hfirst, hall⟩ := himports ▸ hnoted.imports trivial
  obtain ⟨hfirst', hall'⟩ := hexports ▸ hnoted.exports
  exact ⟨m.text, m.importNotes, m.exportNotes, hfile.read_eq, rfl, hfirst, hfirst', hall, hall'⟩

def skippedTwice : FileTree := .ofTexts
  [("a.d.ts", "export const x: number;\nexport \x7b B \x7d from './b.js';\n" ++
      "import 'polyfill';\nexport const y: number;\n"),
   ("b.d.ts", "export * from 'library';\nexport * from './a.js';\n" ++
      "export \x7b C \x7d from './c.js';\n")]

set_option maxRecDepth 100000 in
/-- After two scans that failed, there is one note on the imports and one of two on the exports. -/
theorem diagnostics_in_order_skippedTwice : ∃ s : Store, s.Session skippedTwice .standard ∧
    ∃ m, s.module? ⟨"/w/a.d.ts"⟩ = some m ∧ m.imports.isSome ∧ m.exports = none ∧
    m.diagnostics.map Diagnostic.text =
      ["Skipping side-effect import: polyfill", "Skipping value declaration 'x'"] ∧
    ∃ text imports exports, skippedTwice.read ⟨"/w/a.d.ts"⟩ = .ok text ∧
      m.diagnostics = imports ++ exports ∧
      imports = Statement.importNotes ⟨"/w/a.d.ts"⟩ (Statement.ofSource text true) ∧
      exports <+: Statement.exportNotes ⟨"/w/a.d.ts"⟩ (Statement.ofSource text true) := by
  let s := ([Request.imports ⟨"a.d.ts"⟩, .exports ⟨"a.d.ts"⟩, .exports ⟨"b.d.ts"⟩].foldl
    (fun s r => ((r.perform skippedTwice).eval s).2) (.ofOptions .standard))
  have hs : s.Session skippedTwice .standard := .request (.request (.request .here _) _) _
  have hany : (s.module? ⟨"/w/a.d.ts"⟩).any (fun m => m.imports.isSome && m.exports.isNone &&
      m.diagnostics.map Diagnostic.text ==
        ["Skipping side-effect import: polyfill", "Skipping value declaration 'x'"]) = true := by
    decide +kernel
  obtain ⟨m, hm, ⟨himports, hexports⟩, htexts⟩ : ∃ m, s.module? ⟨"/w/a.d.ts"⟩ = some m ∧
      (m.imports.isSome ∧ m.exports = none) ∧ m.diagnostics.map Diagnostic.text =
        ["Skipping side-effect import: polyfill", "Skipping value declaration 'x'"] := by
    simpa [Option.any_eq_true] using hany
  obtain ⟨text, imports, exports, hread, hdiagnostics, -, hfirst, hall, -⟩ :=
    diagnostics_in_order (FileTree.proper_ofTexts _) hs hm
  exact ⟨s, hs, m, hm, himports, hexports, htexts, text, imports, exports, hread, hdiagnostics,
    hall himports, hfirst⟩

end Typings
