import Typings.Proofs.OrderedMap
import Typings.Proofs.Reexports
import Typings.Proofs.Scan

/-!
# What scans leave alone

Asking a module for its table may load modules and change those that are neither kept nor being
scanned.  Tables under construction only grow.
-/

namespace Typings

/-! ## What stays of a module -/

structure ExportTable.Grows (t u : ExportTable) : Prop where
  isSome_get? : ∀ name, (t.names.get? name).isSome → (u.names.get? name).isSome
  isSome_default : t.defaultExport.isSome → u.defaultExport.isSome

theorem ExportTable.Grows.refl (t : ExportTable) : t.Grows t := ⟨fun _ h => h, fun h => h⟩

theorem ExportTable.Grows.trans {t u v : ExportTable} (h₁ : t.Grows u) (h₂ : u.Grows v) :
    t.Grows v :=
  ⟨fun n h => h₂.isSome_get? n (h₁.isSome_get? n h), fun h => h₂.isSome_default (h₁.isSome_default h)⟩

namespace Module

/-- Kept or being scanned: nothing but its own scan changes such a module. -/
def Busy (m : Module) : Prop := m.exports.isSome ∨ m.pending.isSome

/-- The module holds the text of the file at `p` and the statements of that text. -/
structure IsFile (files : FileTree) (options : ResolverOptions) (p : Path) (m : Module) : Prop where
  path_eq : m.path = p
  isKey : files.IsKey p
  read_eq : files.read p = .ok m.text
  statements_eq : m.statements = Statement.ofSource m.text options.stripComments

/-- How a module may change while another one is asked for its table. -/
structure Evolves (m m' : Module) : Prop where
  path_eq : m'.path = m.path
  text_eq : m'.text = m.text
  statements_eq : m'.statements = m.statements
  imports_eq : m'.imports = m.imports
  importNotes_eq : m'.importNotes = m.importNotes
  exports_eq : m.exports.isSome → m'.exports = m.exports
  depth_eq : m'.pending.map Pending.depth = m.pending.map Pending.depth
  table_grows : m.table.Grows m'.table

theorem Evolves.refl (m : Module) : m.Evolves m :=
  ⟨rfl, rfl, rfl, rfl, rfl, fun _ => rfl, rfl, .refl _⟩

theorem Evolves.trans {m₁ m₂ m₃ : Module} (h₁ : m₁.Evolves m₂) (h₂ : m₂.Evolves m₃) :
    m₁.Evolves m₃ where
  path_eq := h₂.path_eq.trans h₁.path_eq
  text_eq := h₂.text_eq.trans h₁.text_eq
  statements_eq := h₂.statements_eq.trans h₁.statements_eq
  imports_eq := h₂.imports_eq.trans h₁.imports_eq
  importNotes_eq := h₂.importNotes_eq.trans h₁.importNotes_eq
  exports_eq h := (h₂.exports_eq (by rwa [h₁.exports_eq h])).trans (h₁.exports_eq h)
  depth_eq := h₂.depth_eq.trans h₁.depth_eq
  table_grows := h₁.table_grows.trans h₂.table_grows

theorem IsFile.evolves {files : FileTree} {options : ResolverOptions} {p : Path} {m m' : Module}
    (h : m.IsFile files options p) (he : m.Evolves m') : m'.IsFile files options p where
  path_eq := he.path_eq.trans h.path_eq
  isKey := h.isKey
  read_eq := by rw [he.text_eq, h.read_eq]
  statements_eq := by rw [he.statements_eq, he.text_eq, h.statements_eq]

theorem IsFile.scanSteps_eq {files : FileTree} {options : ResolverOptions} {p : Path} {m : Module}
    (h : m.IsFile files options p) : m.scanSteps files options p = files.scanSteps options p := by
  rw [scanSteps, FileTree.scanSteps, FileTree.exportStatements, h.read_eq, h.statements_eq]

end Module

/-! ## The changes that steps make -/

namespace ExportTable

theorem get?_add (t : ExportTable) (a : Identity) (name : String) :
    (t.add a).names.get? name = if name = a.name then some a else t.names.get? name :=
  OrderedMap.get?_insert t.names a.name name a

theorem grows_setDefault (t : ExportTable) (a : Identity) : t.Grows (t.setDefault a) :=
  ⟨fun _ h => h, fun _ => rfl⟩

theorem grows_add (t : ExportTable) (a : Identity) : t.Grows (t.add a) := by
  refine ⟨fun name h => ?_, fun h => ?_⟩
  · rw [get?_add]
    split
    · rfl
    · exact h
  · simp only [add]
    split
    · rfl
    · exact h

theorem grows_addBinding (t : ExportTable) (b : Binding) (found : Identity) :
    t.Grows (t.addBinding b found) := by
  unfold addBinding
  split
  · exact (t.grows_setDefault found).trans (grows_add _ found)
  · exact t.grows_add found

theorem grows_merge (t u : ExportTable) : t.Grows (t.merge u) := by
  refine ⟨fun name h => ?_, fun h => ?_⟩
  · exact (OrderedMap.isSome_get?_merge _ _ _).2 (.inr h)
  · simp [merge, h]

theorem grows_merge_right (t u : ExportTable) : u.Grows (t.merge u) := by
  refine ⟨fun name h => ?_, fun h => ?_⟩
  · exact (OrderedMap.isSome_get?_merge _ _ _).2 (.inl h)
  · simp [merge, h]

end ExportTable

namespace Module

theorem table_updatePending {m : Module} (hw : m.pending.isSome) (f : ExportTable → ExportTable) :
    (m.updatePending f).table = f m.table := by
  obtain ⟨w, hw⟩ := Option.isSome_iff_exists.1 hw
  simp [table, updatePending, hw]

theorem evolves_updatePending (m : Module) {f : ExportTable → ExportTable} (hf : ∀ t : ExportTable, t.Grows (f t)) :
    m.Evolves (m.updatePending f) := by
  refine ⟨rfl, rfl, rfl, rfl, rfl, fun _ => rfl, ?_, ?_⟩
  · cases h : m.pending <;> simp [updatePending, h]
  · cases h : m.pending with
    | none => simpa [table, updatePending, h] using ExportTable.Grows.refl _
    | some w => simpa [table, updatePending, h] using hf w.table

theorem evolves_rename (m : Module) (b : Binding) (found : Identity) :
    m.Evolves (m.rename b found) ∧ (m.rename b found).pending = m.pending ∧
      (m.rename b found).exports = m.exports := by
  unfold rename
  split
  · exact ⟨⟨rfl, rfl, rfl, rfl, rfl, fun _ => rfl, rfl, .refl _⟩, rfl, rfl⟩
  · exact ⟨.refl m, rfl, rfl⟩

@[simp] theorem table_rename (m : Module) (b : Binding) (found : Identity) :
    (m.rename b found).table = m.table := by
  rw [table, (m.evolves_rename b found).2.1, table]

theorem isSome_pending_rename (m : Module) {b : Binding} {found : Identity}
    (hw : m.pending.isSome) : (m.rename b found).pending.isSome := by
  rwa [(m.evolves_rename b found).2.1]

theorem table_addListed {m : Module} (hw : m.pending.isSome) (b : Binding) (found : Identity) :
    (m.addListed b found).table = m.table.add found := by
  rw [addListed, table_updatePending (m.isSome_pending_rename hw), table_rename]

theorem table_addTaken {m : Module} (hw : m.pending.isSome) (b : Binding) (found : Identity) :
    (m.addTaken b found).table = m.table.addBinding b found := by
  rw [addTaken, table_updatePending (m.isSome_pending_rename hw), table_rename]

theorem evolves_addTaken (m : Module) (b : Binding) (found : Identity) :
    m.Evolves (m.addTaken b found) ∧ (m.addTaken b found).exports = m.exports := by
  obtain ⟨he, -, hx⟩ := m.evolves_rename b found
  exact ⟨he.trans (evolves_updatePending _ fun t => t.grows_addBinding b found), hx⟩

theorem evolves_merge (m : Module) (taken : ExportTable) :
    m.Evolves (m.updatePending (·.merge taken)) :=
  m.evolves_updatePending fun t => t.grows_merge taken

end Module

theorem LocalStep.evolves_change {p : Path} {l : LocalStep} {m : Module} {f : Module → Module}
    (h : l.change p m = .ok f) : m.Evolves (f m) ∧ (f m).exports = m.exports := by
  cases l with
  | fail e => simp [change] at h
  | remark s r =>
      obtain rfl := Except.ok.inj h
      exact ⟨⟨rfl, rfl, rfl, rfl, rfl, fun _ => rfl, rfl, .refl _⟩, rfl⟩
  | declare s hd =>
      obtain rfl := Except.ok.inj h
      have hadd : m.Evolves (m.addLocal (hd.declaration p s)) :=
        ⟨rfl, rfl, rfl, rfl, rfl, fun _ => rfl, rfl, .refl _⟩
      simp only [Module.declare]
      split
      · exact ⟨hadd.trans (Module.evolves_updatePending _ fun t => t.grows_add _), rfl⟩
      · exact ⟨hadd, rfl⟩
  | promote s name =>
      simp only [change] at h
      split at h
      · simp at h
      · obtain rfl := Except.ok.inj h
        exact ⟨m.evolves_updatePending fun t => t.grows_setDefault _, rfl⟩
  | list b =>
      simp only [change] at h
      split at h
      · simp at h
      · next found _ =>
          obtain rfl := Except.ok.inj h
          obtain ⟨he, -, hx⟩ := m.evolves_rename b found
          exact ⟨he.trans (Module.evolves_updatePending _ fun t => t.grows_add found), hx⟩

/-! ## Stores -/

namespace Store

/-- What asking for a table may change; the modules in `own` are exempt from being left alone. -/
structure Evolves (own : List Path) (s s' : Store) : Prop where
  options_eq : s'.options = s.options
  depth_eq : s'.depth = s.depth
  notedBelow : ∀ d, s.NotedBelow d → s'.NotedBelow d
  loaded : ∀ q m, s.module? q = some m → ∃ m', s'.module? q = some m' ∧ m.Evolves m'
  busy : ∀ q m, q ∉ own → s.module? q = some m → m.Busy → s'.module? q = some m

theorem Evolves.refl (own : List Path) (s : Store) : s.Evolves own s :=
  ⟨rfl, rfl, fun _ h => h, fun _ m h => ⟨m, h, .refl m⟩, fun _ _ _ h _ => h⟩

theorem Evolves.trans {own : List Path} {s₁ s₂ s₃ : Store} (h₁ : s₁.Evolves own s₂)
    (h₂ : s₂.Evolves own s₃) : s₁.Evolves own s₃ where
  options_eq := h₂.options_eq.trans h₁.options_eq
  depth_eq := h₂.depth_eq.trans h₁.depth_eq
  notedBelow d h := h₂.notedBelow d (h₁.notedBelow d h)
  loaded q m h := by
    obtain ⟨m₂, hm₂, he₂⟩ := h₁.loaded q m h
    obtain ⟨m₃, hm₃, he₃⟩ := h₂.loaded q m₂ hm₂
    exact ⟨m₃, hm₃, he₂.trans he₃⟩
  busy q m hq h hb := h₂.busy q m hq (h₁.busy q m hq h hb) hb

theorem Evolves.mono {own own' : List Path} {s s' : Store} (h : s.Evolves own s')
    (hown : ∀ q ∈ own, q ∈ own') : s.Evolves own' s' :=
  { h with busy := fun q m hq => h.busy q m (fun hmem => hq (hown q hmem)) }

theorem Evolves.isSome_module? {own : List Path} {s s' : Store} (h : s.Evolves own s') {q : Path}
    (hq : (s.module? q).isSome) : (s'.module? q).isSome := by
  obtain ⟨m, hm⟩ := Option.isSome_iff_exists.1 hq
  obtain ⟨m', hm', -⟩ := h.loaded q m hm
  rw [hm']
  rfl

theorem evolves_updateModule (s : Store) {p : Path} {f : Module → Module}
    (hf : ∀ m, s.module? p = some m → m.Evolves (f m)) : s.Evolves [p] (s.updateModule p f) := by
  refine ⟨rfl, rfl, fun _ h => h, fun q m hm => ?_, fun q m hq hm _ => ?_⟩
  · by_cases hq : q = p
    · subst hq
      exact ⟨f m, module?_updateModule_self f hm, hf m hm⟩
    · exact ⟨m, by rw [module?_updateModule_of_ne f hq, hm], .refl m⟩
  · rw [module?_updateModule_of_ne f (by simpa using hq), hm]

theorem evolves_notePartialRead (s : Store) (d : Nat) : s.Evolves [] (s.notePartialRead d) :=
  ⟨rfl, rfl, fun e he => (notedBelow_notePartialRead s d e).2 (.inr he),
    fun _ m hm => ⟨m, hm, .refl m⟩, fun _ _ _ hm _ => hm⟩

end Store

theorem FileTree.Loads.evolves {files : FileTree} {p : Path} {s s' : Store}
    {r : Except Error Path} (h : files.Loads p s r s') : s.Evolves [] s' := by
  cases h with
  | missing => exact .refl _ s
  | present => exact .refl _ s
  | unreadable => exact .refl _ s
  | @read key text hkey hnone hread =>
      have hold : ∀ {q m}, s.module? q = some m →
          (s.addModule key (.ofText key text s.options.stripComments)).module? q = some m := by
        rintro q m hm
        rw [Store.module?_addModule, if_neg ?_, hm]
        rintro rfl
        rw [hnone] at hm
        cases hm
      exact ⟨rfl, rfl, fun _ h => h, fun q m hm => ⟨m, hold hm, .refl m⟩, fun q m _ hm _ => hold hm⟩

end Typings
