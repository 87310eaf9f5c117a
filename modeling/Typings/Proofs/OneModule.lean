import Typings.Proofs.Failure
import Typings.Proofs.Session
import Typings.Proofs.Spelling

/-!
# One module per file

However a file is spelled, and wherever the path comes from, its module is kept under one key: the
file's full path.
-/

namespace Typings

open ExportScan Query

variable {files : FileTree} {options : ResolverOptions} {s s' : Store}

/-! ## What changes of modules keep -/

/-- A property of stores that is about which modules are loaded, not about what is known of them. -/
structure Store.KeptByUpdates (files : FileTree) (I : Store → Prop) : Prop where
  load : ∀ p, Query.Keeps I (files.load p)
  update : ∀ p f s, I s → I (s.updateModule p f)
  scans : ∀ s depth floor, I s → I { s with depth := depth, partialFloor := floor }

theorem Query.keeps_get {I : Store → Prop} : Query.Keeps I (get : Query Store) := by
  intro s hs
  rwa [eval_get]

theorem Query.keeps_modify {I : Store → Prop} {f : Store → Store} (hf : ∀ s, I s → I (f s)) :
    Query.Keeps I (modify f : Query Unit) := by
  intro s hs
  rw [eval_modify]
  exact hf s hs

theorem Query.keeps_forM {α : Type} {I : Store → Prop} {as : List α} {f : α → Query Unit}
    (hf : ∀ a ∈ as, Query.Keeps I (f a)) : Query.Keeps I (forM as f) := by
  induction as with
  | nil => exact keeps_pure ()
  | cons a as ih =>
      rw [List.forall_mem_cons] at hf
      rw [List.forM_cons]
      exact hf.1.bind fun _ => ih hf.2

namespace Store.KeptByUpdates

variable {I : Store → Prop} (hI : Store.KeptByUpdates files I) {T : TableOf}
  (hT : ∀ q, Query.Keeps I (T q)) {p : Path}

include hI

theorem keeps_update (p : Path) (f : Module → Module) : Query.Keeps I (Query.update p f) := by
  intro s hs
  rw [eval_update]
  exact hI.update p f s hs

include hT

theorem keeps_bind (q : Path) (b : Binding) : Query.Keeps I (ExportScan.bind T p q b) := by
  refine (hT q).bind (fun _ => (keeps_current q).bind fun _ => keeps_ofExcept _) |>.bind
    fun found => ?_
  cases b.newName with
  | none => exact keeps_pure found
  | some name => exact (hI.keeps_update p _).bind fun _ => keeps_pure found

theorem keeps_takeReexport (r : Reexport) :
    Query.Keeps I (ExportScan.takeReexport files T p r) := by
  refine (keeps_get).bind fun s => ?_
  cases r.clause with
  | namespaceName name => exact keeps_pure ()
  | all =>
      exact (hI.load _).bind fun q => (hT q).bind fun taken => hI.keeps_update p _
  | named bindings =>
      refine (hI.load _).bind fun q => keeps_forM fun b _ => ?_
      exact (hI.keeps_bind hT q b).bind fun found => hI.keeps_update p _

omit hT in
theorem keeps_takeLocal (b : Binding) : Query.Keeps I (ExportScan.takeLocal p b) := by
  refine (keeps_current p).bind fun m => ?_
  cases m.localIdentity? b.name with
  | none => exact keeps_throw _
  | some found =>
      cases b.newName with
      | none => exact hI.keeps_update p _
      | some name => exact (hI.keeps_update p _).bind fun _ => hI.keeps_update p _

theorem keeps_takeStatement (st : Statement) :
    Query.Keeps I (ExportScan.takeStatement files T p st) := by
  refine (keeps_ofExcept _).bind fun meaning => ?_
  cases meaning.remark? st.text with
  | some remark => exact hI.keeps_update p _
  | none =>
      cases meaning with
      | reexport r => exact hI.keeps_takeReexport hT r
      | declaration h =>
          refine (hI.keeps_update p _).bind fun _ => ?_
          split
          · exact hI.keeps_update p _
          · exact keeps_pure ()
      | defaultExport name =>
          refine (keeps_current p).bind fun m => ?_
          split
          · exact keeps_throw _
          · exact hI.keeps_update p _
      | emptyExport => exact keeps_pure ()
      | localExports bindings => exact keeps_forM fun b _ => hI.keeps_takeLocal b
      | value name => exact keeps_pure ()

theorem keeps_scan (p : Path) : Query.Keeps I (ExportScan.scan files T p) := by
  refine keeps_get.bind fun s => ?_
  refine ((keeps_modify fun s => hI.scans s _ _).bind fun _ => hI.keeps_update p _).bind fun _ => ?_
  refine (keeps_current p).bind fun m => ?_
  refine (keeps_forM fun st _ => hI.keeps_takeStatement hT st).alike.observe.keeps.bind
    fun outcome => ?_
  refine Query.Keeps.bind ?_ fun (table, complete) => ?_
  · refine (keeps_current p).bind fun m => keeps_get.bind fun s => ?_
    exact (hI.keeps_update p _).bind fun _ =>
      (keeps_modify fun s => hI.scans s _ _).bind fun _ => keeps_pure _
  · cases outcome with
    | error e => exact keeps_throw _
    | ok u =>
        dsimp only
        split
        · exact (hI.keeps_update p _).bind fun _ => keeps_pure _
        · exact keeps_pure _

omit hT in
theorem keeps_tableOf (n : Nat) (p : Path) : Query.Keeps I (ExportScan.tableOf files n p) := by
  have hpartial : ∀ pending : Pending, Query.Keeps I (do
      modify (·.notePartialRead pending.depth)
      pure pending.table) := fun pending =>
    (keeps_modify fun s => hI.scans s _ _).bind fun _ => keeps_pure _
  induction n generalizing p with
  | zero =>
      rw [ExportScan.tableOf]
      refine (keeps_current p).bind fun m => ?_
      rcases m.exports with _ | table
      · rcases m.pending with _ | pending
        · exact keeps_throw _
        · exact hpartial pending
      · exact keeps_pure table
  | succ n ih =>
      rw [ExportScan.tableOf]
      refine (keeps_current p).bind fun m => ?_
      rcases m.exports with _ | table
      · rcases m.pending with _ | pending
        · exact (hI.keeps_scan ih p).bind fun _ => keeps_pure _
        · exact hpartial pending
      · exact keeps_pure table

end Store.KeptByUpdates

theorem Store.KeptByUpdates.closed {I : Store → Prop} (hI : Store.KeptByUpdates files I) :
    Store.Closed files options fun s => s.AtRest files options ∧ I s where
  atRest _ h := h.1
  load s p h := ⟨h.1.load p, hI.load p s h.2⟩
  ask s n p hn h := ⟨h.1.ask hn p, hI.keeps_tableOf n p s h.2⟩
  edit s p f hf h := ⟨h.1.edit p f hf, hI.update p f s h.2⟩

/-! ## Keys -/

theorem keptByUpdates_nodup : Store.KeptByUpdates files fun s => s.modules.keys.Nodup where
  load p s h := by
    rcases heval : (files.load p).eval s with ⟨r, s'⟩
    cases FileTree.loads heval with
    | missing => exact h
    | present => exact h
    | unreadable => exact h
    | read => exact OrderedMap.nodup_keys_insert h _ _
  update p f s h := by
    rw [Store.updateModule, OrderedMap.keys_modify]
    exact h
  scans s depth floor h := h

theorem Store.Session.nodup_keys (hproper : files.Proper) (hs : s.Session files options) :
    s.modules.keys.Nodup :=
  (hs.keeps keptByUpdates_nodup.closed hproper ⟨.fresh, List.nodup_nil⟩).2

theorem Store.Running.load_iff (hproper : files.Proper) (hwd : files.HasWorkingDirectory)
    (hs : s.Running files options []) {p key : Path} :
    ((files.load p).eval s).1 = .ok key ↔
      key = files.fullPath p ∧ ∃ text, files.read key = .ok text := by
  have hkey : ∀ {text}, files.key p = .ok key ∧ files.read key = .ok text ↔
      key = files.fullPath p ∧ files.read key = .ok text := FileTree.key_and_read_iff hproper hwd
  rcases heval : (files.load p).eval s with ⟨r, s'⟩
  have hloads := FileTree.loads heval
  constructor
  · rintro rfl
    obtain ⟨key', text, hp, hread⟩ := hloads.loadable hs
    obtain rfl := Except.ok.inj (hp.symm.trans (FileTree.key_of_load heval))
    exact ⟨(hkey.1 ⟨hp, hread⟩).1, text, hread⟩
  · rintro ⟨hfull, text, hread⟩
    obtain ⟨hp, -⟩ := hkey.2 ⟨hfull, hread⟩
    cases r with
    | error e => exact absurd ⟨key, text, hp, hread⟩ hloads.not_loadable
    | ok key' => exact (FileTree.key_of_load heval).symm.trans hp

/--
Two paths lead to the same module, whatever is asked in between, if and only if their full paths
name one file that can be read.  The modules of a store are kept under their own paths, one for each
path, with the text of the file; a file that cannot be loaded changes nothing.
-/
theorem one_module_per_file (hproper : files.Proper) (hwd : files.HasWorkingDirectory)
    (hs : s.Session files options) :
    (∀ p q s', ((files.load p).eval s).2.After files s' →
      ((∃ key, ((files.load p).eval s).1 = .ok key ∧ (files.load q).eval s' = (.ok key, s')) ↔
        files.fullPath p = files.fullPath q ∧ ∃ text, files.read (files.fullPath p) = .ok text)) ∧
      (s.modules.keys.Nodup ∧ ∀ key m, (key, m) ∈ s.modules.entries →
        m.path = key ∧ files.read key = .ok m.text) ∧
      ∀ p e s', (files.load p).eval s = (.error e, s') → s' = s := by
  have hrest := hs.atRest hproper
  refine ⟨fun p q s' hafter => ?_, ⟨hs.nodup_keys hproper, fun key m hm => ?_⟩, ?_⟩
  · have hrest₁ := hrest.load p
    have hrest' := hafter.keeps closed_atRest hproper hrest₁
    constructor
    · rintro ⟨key, hp, hq⟩
      obtain ⟨hkey, htext⟩ := (hrest.running.load_iff hproper hwd).1 hp
      obtain ⟨hkey', -⟩ := (hrest'.running.load_iff hproper hwd).1 (congrArg Prod.fst hq)
      exact ⟨hkey.symm.trans hkey', hkey ▸ htext⟩
    · rintro ⟨hsame, htext⟩
      have hp := (hrest.running.load_iff hproper hwd).2 ⟨rfl, htext⟩
      rw [hsame] at htext
      have hq := (hrest'.running.load_iff hproper hwd).2 ⟨rfl, htext⟩
      have hloaded := (FileTree.loads (Prod.ext hp rfl)).isSome_module?
      have hloaded' := (hafter.later hproper hrest₁).grows.isSome_module? _ hloaded
      rw [hsame] at hp hloaded'
      exact ⟨_, hp, FileTree.load_of_loaded (FileTree.key_of_load (Prod.ext hq rfl)) hloaded'⟩
  · have hfile := hrest.running.isFile key m
      (OrderedMap.get?_of_mem_entries (hs.nodup_keys hproper) hm)
    exact ⟨hfile.path_eq, hfile.read_eq⟩
  · intro p e s' heval
    cases FileTree.loads heval with
    | missing => rfl
    | unreadable => rfl

def detour : FileTree := .ofTexts
  [("a.d.ts", "export * from './b.js';\nexport interface A \x7b b: B; \x7d\n"),
   ("b.d.ts", "export * from '../w/./gone/../a.js';\nexport interface B \x7b a: A; \x7d\n")]

set_option maxRecDepth 100000 in
/-- The file is loaded by way of the other one, and then found under two more spellings. -/
theorem one_module_per_file_detour : ∃ s : Store, s.Session detour .standard ∧
    detour.HasWorkingDirectory ∧ s.modules.keys = [⟨"/w/b.d.ts"⟩, ⟨"/w/a.d.ts"⟩] ∧
    detour.fullPath ⟨"gone/..//a.d.ts/"⟩ = detour.fullPath ⟨"/../w/./a.d.ts"⟩ ∧
    ∃ key, ((detour.load ⟨"gone/..//a.d.ts/"⟩).eval s).1 = .ok key ∧
      (detour.load ⟨"/../w/./a.d.ts"⟩).eval ((detour.load ⟨"gone/..//a.d.ts/"⟩).eval s).2 =
        (.ok key, ((detour.load ⟨"gone/..//a.d.ts/"⟩).eval s).2) := by
  let s := (((Request.exports ⟨"b.d.ts"⟩).perform detour).eval (.ofOptions .standard)).2
  have hs : s.Session detour .standard := .request .here _
  have hproper : detour.Proper := FileTree.proper_ofTexts _
  have hwd : detour.HasWorkingDirectory := by
    unfold FileTree.HasWorkingDirectory
    decide +kernel
  have hsame : detour.fullPath ⟨"gone/..//a.d.ts/"⟩ = detour.fullPath ⟨"/../w/./a.d.ts"⟩ := by
    decide +kernel
  have hread : ∃ text, detour.read (detour.fullPath ⟨"gone/..//a.d.ts/"⟩) = .ok text := by
    have hsome : (detour.read (detour.fullPath ⟨"gone/..//a.d.ts/"⟩)).toOption.isSome := by
      decide +kernel
    cases h : detour.read (detour.fullPath ⟨"gone/..//a.d.ts/"⟩) with
    | error e => simp [h, Except.toOption] at hsome
    | ok text => exact ⟨text, rfl⟩
  obtain ⟨hiff, -, -⟩ := one_module_per_file hproper hwd hs
  exact ⟨s, hs, hwd, by decide +kernel, hsame, (hiff _ _ _ .here).2 ⟨hsame, hread⟩⟩

end Typings
