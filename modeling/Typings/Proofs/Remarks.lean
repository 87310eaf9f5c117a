import Typings.Proofs.ImportStep
import Typings.Proofs.Scanning
import Typings.Proofs.Statements

/-!
# Notes on the statements of a file

Which notes the statements of a file give rise to, and what a scan has noted when it has come past
some of its steps.
-/

namespace Typings

/-! ## The notes of a file -/

def Statement.note (p : Path) (s : Statement) (r : Remark) : Diagnostic :=
  r.notice.diagnostic p.text s.offset (Text.byteLength s.text) r.arguments

def Statement.importNote? (p : Path) (s : Statement) : Option Diagnostic :=
  match Import.parse s.text with
  | .ok i => i.remark?.map (s.note p)
  | .error _ => none

def Statement.exportNote? (p : Path) (s : Statement) : Option Diagnostic :=
  match s.meaning with
  | .ok m => (m.remark? s.text).map (s.note p)
  | .error _ => none

def Statement.importNotes (p : Path) (statements : List Statement) : List Diagnostic :=
  (statements.filter (·.isImport)).filterMap (importNote? p)

def Statement.exportNotes (p : Path) (statements : List Statement) : List Diagnostic :=
  (statements.filter (!·.isImport)).filterMap (exportNote? p)

/-! ## The notes of steps -/

def ScanStep.note? (p : Path) : ScanStep → Option Diagnostic
  | .own (.remark s r) => some (s.note p r)
  | _ => none

def ImportStep.note? (p : Path) : ImportStep → Option Diagnostic
  | .remark s r => some (s.note p r)
  | _ => none

variable {files : FileTree} {options : ResolverOptions} {p : Path}

theorem filterMap_flatMap_of {α β γ : Type} {f : α → List β} {g : β → Option γ}
    {h : α → Option γ} (as : List α) (hfg : ∀ a, (f a).filterMap g = (h a).toList) :
    (as.flatMap f).filterMap g = as.filterMap h := by
  induction as with
  | nil => rfl
  | cons a as ih =>
      rw [List.flatMap_cons, List.filterMap_append, ih, hfg, List.filterMap_cons]
      cases h a <;> rfl

theorem Reexport.notes_scanSteps (r : Reexport) :
    (r.scanSteps files options p).filterMap (ScanStep.note? p) = [] := by
  have hmem : ∀ i ∈ r.scanSteps files options p, i.note? p = none := by
    intro i hi
    rcases Reexport.mem_scanSteps.1 hi with
      ⟨-, rfl⟩ | ⟨q, -, ⟨-, rfl⟩ | ⟨bindings, b, -, -, rfl⟩⟩ <;> rfl
  exact List.filterMap_eq_nil_iff.2 hmem

theorem Statement.notes_scanSteps (s : Statement) :
    (s.scanSteps files options p).filterMap (ScanStep.note? p) = (s.exportNote? p).toList := by
  unfold scanSteps exportNote?
  cases s.meaning with
  | error e => rfl
  | ok m =>
      dsimp only
      unfold Meaning.scanSteps
      cases hremark : m.remark? s.text with
      | some r => rfl
      | none =>
          cases m with
          | reexport r => exact r.notes_scanSteps
          | localExports bindings =>
              refine List.filterMap_eq_nil_iff.2 fun i hi => ?_
              obtain ⟨b, -, rfl⟩ := List.mem_map.1 hi
              rfl
          | declaration h => rfl
          | defaultExport name => rfl
          | emptyExport => rfl
          | value name => rfl

namespace FileTree

theorem notes_scanSteps (p : Path) :
    (files.scanSteps options p).filterMap (ScanStep.note? p) =
      (files.exportStatements options p).filterMap (Statement.exportNote? p) :=
  filterMap_flatMap_of _ fun s => s.notes_scanSteps

end FileTree

theorem Import.notes_visiting (i : Import) :
    (i.visiting files options p).filterMap (ImportStep.note? p) = [] := by
  refine List.filterMap_eq_nil_iff.2 fun step hstep => ?_
  rcases List.mem_cons.1 hstep with rfl | hstep
  · rfl
  · split at hstep
    · obtain ⟨b, -, rfl⟩ := List.mem_map.1 hstep
      rfl
    · cases hstep

theorem Statement.notes_importSteps (s : Statement) :
    (s.importSteps files options p).filterMap (ImportStep.note? p) = (s.importNote? p).toList := by
  unfold importSteps importNote?
  cases Import.parse s.text with
  | error e => rfl
  | ok i =>
      have hvisiting : (if i.bindsTypes then i.visiting files options p else []).filterMap
          (ImportStep.note? p) = [] := by
        split
        · exact i.notes_visiting
        · rfl
      dsimp only
      rw [List.filterMap_append, hvisiting, List.append_nil]
      cases i.remark? <;> rfl

theorem FileTree.notes_importSteps (p : Path) :
    (files.importSteps options p).filterMap (ImportStep.note? p) =
      (files.importStatements options p).filterMap (Statement.importNote? p) :=
  filterMap_flatMap_of _ fun s => s.notes_importSteps

/-! ## What a scan has noted -/

def Module.NotesOf (p : Path) (done : List ScanStep) (m : Module) : Prop :=
  m.exportNotes = done.filterMap (ScanStep.note? p)

theorem Module.exportNotes_rename (m : Module) (b : Binding) (found : Identity) :
    (m.rename b found).exportNotes = m.exportNotes := by
  unfold rename
  split <;> rfl

theorem LocalStep.exportNotes_change {l : LocalStep} {m : Module} {f : Module → Module}
    (hpath : m.path = p) (h : l.change p m = .ok f) :
    (f m).exportNotes = m.exportNotes ++ ((ScanStep.own l).note? p).toList := by
  subst hpath
  cases l with
  | fail e => cases h
  | remark s r =>
      obtain rfl := Except.ok.inj h
      rfl
  | declare s hd =>
      obtain rfl := Except.ok.inj h
      simp only [Module.declare]
      split <;> exact (List.append_nil _).symm
  | promote s name =>
      simp only [change] at h
      split at h
      · cases h
      · obtain rfl := Except.ok.inj h
        exact (List.append_nil _).symm
  | list b =>
      simp only [change] at h
      split at h
      · cases h
      · next found _ =>
          obtain rfl := Except.ok.inj h
          exact (m.exportNotes_rename b found).trans (List.append_nil _).symm

theorem ScanStep.Advances.exportNotes {T : TableOf} {i : ScanStep} {s s' : Store} {m m' : Module}
    (h : Advances files T p i s m s' m') (hpath : m.path = p) :
    m'.exportNotes = m.exportNotes ++ (i.note? p).toList := by
  cases h with
  | own hf => exact LocalStep.exportNotes_change hpath hf
  | visit => exact (List.append_nil _).symm
  | merge => exact (List.append_nil _).symm
  | take => exact (m.exportNotes_rename _ _).trans (List.append_nil _).symm

theorem Scanning.notes {imported : Path → String → Prop} {n : Nat} {stack : List Path}
    {s₀ s : Store} {done : List ScanStep} {m : Module}
    (h : Scanning files options imported n stack p s₀ done s m) : m.NotesOf p done := by
  refine h.induct (motive := fun done _ m => m.NotesOf p done) (fun _ _ _ _ => rfl) ?_
  intro done i s m s' m' hscan _ _ hadvance hnotes
  have hpath := (hscan.running.isFile p m hscan.module).path_eq
  rw [Module.NotesOf, hadvance.exportNotes hpath, hnotes, List.filterMap_append]
  cases h : i.note? p <;> simp [h]

end Typings
