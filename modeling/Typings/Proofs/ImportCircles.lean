import Typings.Proofs.ImportFrame
import Typings.Proofs.Unrenamed

/-!
# Files that import from each other

Where types get from one file to another by imports only, a file exports its own types and nothing
else.  Imports then come to the same whatever has been asked before: new names that imports have left
behind stand for types of other files, so they make no file export anything.
-/

namespace Typings

open ExportScan ScanStep

/-- The statement is about no other file of the tree and gives no new names. -/
def Meaning.isOwn : Meaning → Bool
  | .reexport r => !Specifier.isRelative r.specifier
  | .localExports bindings => bindings.all (·.newName.isNone)
  | _ => true

/-! ## What imports come to -/

def Import.sources (options : ResolverOptions) (p : Path) (i : Import) : List (Path × Binding) :=
  if i.bindsTypes then i.bindings.map (Prod.mk (Specifier.resolve options p i.specifier)) else []

def Statement.importSources (options : ResolverOptions) (p : Path) (s : Statement) :
    List (Path × Binding) :=
  match Import.parse s.text with
  | .ok i => i.sources options p
  | .error _ => []

namespace FileTree

variable (files : FileTree) (options : ResolverOptions)

/-- What the file exports under the name if nothing else has been asked. -/
def freshExport (file : Path) (name : String) : Except Error Identity :=
  ((do files.exportNamed (← files.load file) name : Query Identity).eval (.ofOptions options)).1

/-- The bindings of all import statements in their order, each with the file that it takes from. -/
def importSources (p : Path) : List (Path × Binding) :=
  (files.importStatements options p).flatMap (·.importSources options p)

end FileTree

/-- The import is skipped, or the file is there and exports what is imported. -/
def Import.Found (files : FileTree) (options : ResolverOptions) (p : Path) (i : Import) : Prop :=
  i.bindsTypes = true → files.Loadable (Specifier.resolve options p i.specifier) ∧
    ∀ b ∈ i.bindings, ∃ a,
      files.freshExport options (Specifier.resolve options p i.specifier) b.name = .ok a

def Statement.ImportFound (files : FileTree) (options : ResolverOptions) (p : Path)
    (s : Statement) : Prop :=
  ∃ i, Import.parse s.text = .ok i ∧ i.Found files options p

namespace FileTree

variable (files : FileTree) (options : ResolverOptions)

/-- The type that the last of the bindings takes under the name, or else `found`. -/
def lastFound (sources : List (Path × Binding)) (name : String) (found : Option Identity) :
    Option Identity :=
  (sources.reverse.find? fun x => x.2.introduced == name).elim found fun x =>
    (files.freshExport options x.1 x.2.name).toOption

/--
Types get from one file to another by imports only: no file takes over exports of another one, none
exports its own types under new names, and none imports from itself.
-/
structure ImportsOnly : Prop where
  exports : ∀ p, files.IsKey p → ∀ st ∈ files.exportStatements options p, ∀ m,
    st.meaning = .ok m → m.isOwn = true
  imports : ∀ p, files.IsKey p → ∀ x ∈ files.importSources options p, files.key x.1 ≠ .ok p

variable {files options} {imported : Path → String → Prop} {p q : Path}

theorem Imports.mem_importSources {b : Binding} (h : files.Imports options p q b) :
    ∃ file, files.key file = .ok q ∧ (file, b) ∈ files.importSources options p := by
  obtain ⟨st, hst, i, hparse, hbinds, hkey, hb⟩ := imports_iff.1 h
  refine ⟨_, hkey, List.mem_flatMap.2 ⟨st, hst, ?_⟩⟩
  simp only [Statement.importSources, hparse, Import.sources, if_pos hbinds]
  exact List.mem_map_of_mem hb

namespace ImportsOnly

theorem of_locations (hproper : files.Proper) (h : ∀ p ∈ files.locations,
      (∀ st ∈ files.exportStatements options p, ∀ m ∈ st.meaning.toOption, m.isOwn = true) ∧
        ∀ x ∈ files.importSources options p, files.key x.1 ≠ .ok p) :
    files.ImportsOnly options where
  exports p hp st hst m hm := by
    cases hread : files.read p with
    | error e => simp [exportStatements, hread] at hst
    | ok text => exact (h p (hp.mem_locations hproper hread)).1 st hst m (by rw [hm]; rfl)
  imports p hp x hx := by
    cases hread : files.read p with
    | error e => simp [importSources, importStatements, hread] at hx
    | ok text => exact (h p (hp.mem_locations hproper hread)).2 x hx

theorem own (h : files.ImportsOnly options) (hp : files.IsKey p) {i : ScanStep}
    (hi : i ∈ files.scanSteps options p) : ∃ l, i = .own l ∧ i.newName? = none := by
  obtain ⟨st, hst, hgives⟩ := mem_scanSteps.1 hi
  have hreexport : ∀ {r}, st.meaning = .ok (.reexport r) →
      Specifier.isRelative r.specifier = true → False := by
    intro r hmeaning hrel
    simpa [Meaning.isOwn, hrel] using h.exports p hp st hst _ hmeaning
  cases hgives with
  | fail | remark | declare | promote => exact ⟨_, rfl, rfl⟩
  | list hmeaning hb =>
      have hown := h.exports p hp st hst _ hmeaning
      rw [Meaning.isOwn, List.all_eq_true] at hown
      exact ⟨_, rfl, Option.isNone_iff_eq_none.1 (hown _ hb)⟩
  | visit hmeaning hrel => exact (hreexport hmeaning hrel).elim
  | merge hmeaning _ hrel => exact (hreexport hmeaning hrel).elim
  | take hmeaning _ hrel => exact (hreexport hmeaning hrel).elim

theorem not_asks (h : files.ImportsOnly options) (hp : files.IsKey p) :
    ¬ files.Asks options p q := by
  intro hasks
  obtain ⟨i, hi, hq⟩ := hasks.exists_asked?
  obtain ⟨l, rfl, -⟩ := h.own hp hi
  cases hq

theorem unambiguous (h : files.ImportsOnly options) (hp : files.IsKey p) :
    files.Unambiguous options imported p := by
  have halone : ∀ {q}, files.Leads options p q → q = p := by
    intro q hq
    rcases Relation.ReflTransGen.cases_head hq with rfl | ⟨r, hr, -⟩
    · rfl
    · exact absurd hr (h.not_asks hp)
  refine unambiguous_of_acyclic (fun q hq => ?_) fun q r b hq htakes => ?_
  · rintro ⟨r, hr, -⟩
    exact h.not_asks hp (halone hq ▸ hr)
  · exact absurd (halone hq ▸ asks_of_take htakes) (h.not_asks hp)

theorem file_eq (h : files.ImportsOnly options) (hp : files.IsKey p) {slot : Slot} {a : Identity}
    (ha : Provides files options imported p slot a) : a.file = p := by
  cases ha with
  | itself hself => exact hself.owner.1
  | merged hover => exact absurd (.inl hover.merges) (h.not_asks hp)
  | taken htakes => exact absurd (asks_of_take htakes) (h.not_asks hp)

end ImportsOnly

end FileTree

variable {files : FileTree} {options : ResolverOptions} {s s' : Store} {p q : Path}

/-! ## Modules -/

structure Module.ImportsSettled (files : FileTree) (options : ResolverOptions) (p : Path)
    (m : Module) : Prop where
  isKey : files.IsKey p
  foreign : ∀ name a, m.aliases.get? name = some a → a.file ≠ p
  found : ∀ found, m.imports = some found →
    (∀ st ∈ files.importStatements options p, st.ImportFound files options p) ∧
      ∀ name, found.get? name = files.lastFound options (files.importSources options p) name none

namespace Module.ImportsSettled

variable {m m' : Module}

theorem congr (h : m.ImportsSettled files options p) (haliases : m'.aliases = m.aliases)
    (himports : m'.imports = m.imports) : m'.ImportsSettled files options p where
  isKey := h.isKey
  foreign := by rw [haliases]; exact h.foreign
  found := by rw [himports]; exact h.found

theorem of_bare (h : m.ImportsSettled files options p) (hbare : m'.bare = m.bare) :
    m'.ImportsSettled files options p :=
  h.congr (show m'.bare.aliases = m.bare.aliases by rw [hbare])
    (show m'.bare.imports = m.bare.imports by rw [hbare])

end Module.ImportsSettled

theorem scanKept_importsSettled (h : files.ImportsOnly options) :
    ScanKept files options (files.ImportsAs options)
      (Module.ImportsSettled files options) (fun _ _ => True) where
  loaded p text hp := ⟨hp, fun _ _ ha => (by cases ha), fun _ hfound => (by cases hfound)⟩
  begun p m d _ hm := hm.of_bare (m.bare_beginScan d)
  own p m l f done rest hsteps _ _ hf _ _ hm := by
    obtain ⟨-, -, hname⟩ := h.own hm.isKey (FileTree.mem_scanSteps_of_eq hsteps)
    exact hm.of_bare (LocalStep.bare_change hf hname)
  merged p q m taken _ _ _ _ _ _ _ hm := hm.of_bare (m.bare_updatePending _)
  taken p q m mq b table found htakes _ _ _ _ _ _ hm :=
    absurd (FileTree.asks_of_take htakes) (h.not_asks hm.isKey)
  ended p m hm := hm.of_bare m.bare_endScan
  keep p m _ hm := hm.of_bare (m := m) rfl
  answer_of_kept _ _ _ _ _ := trivial
  answer_of_scan _ _ _ _ := trivial

abbrev Store.ImportsSettled (files : FileTree) (options : ResolverOptions) (s : Store) : Prop :=
  s.All (Module.ImportsSettled files options)

/-! ## Exports of a file -/

theorem FileTree.ImportsOnly.listed_of_exportNamed (h : files.ImportsOnly options)
    (hproper : files.Proper) (hs : s.AtRestWith files options (Store.ImportsSettled files options))
    {name : String} {a : Identity} (heval : (files.exportNamed q name).eval s = (.ok a, s')) :
    ∃ t, (files.tableOf q).eval s = (.ok t, s') ∧ t.get? name = some a ∧ a.file = q := by
  obtain ⟨t, s₁, htable, heval⟩ := Query.eval_bind_eq_ok heval
  obtain ⟨m, hm, hkept⟩ := kept_of_answered hs.1.running htable
  have hs₁ : s₁.AtRest files options := hs.1.of_ask (Nat.le_refl files.size) htable
  have hsettled := ((scanKept_importsSettled h).tableOf _ (.rest hs.1 q) hs.2
    htable).1 q m hm
  have hsound := (scanInvariant_sound hproper).reached hs₁ q m hm
  have ht := hsound.kept t hkept
  rw [Query.eval_bind_ok (Query.eval_current_of_some hm), Query.eval_ofExcept, Prod.mk.injEq] at heval
  obtain ⟨hfound, rfl⟩ := heval
  refine ⟨t, htable, ?_⟩
  unfold Module.lookupExport at hfound
  split at hfound
  · next b hb =>
      obtain rfl := Except.ok.inj hfound
      exact ⟨hb, h.file_eq hsettled.isKey (ht.of_get? hb)⟩
  · split at hfound
    · cases hfound
    · next b hb =>
        split at hfound
        · next hcontains =>
            obtain ⟨slot, c, -, hc, hsame⟩ := ht.exists_of_containsIdentity hcontains
            have hfile := h.file_eq hsettled.isKey hc
            have heq : c = b := Identity.eq_of_same hproper (hfile ▸ hsettled.isKey)
              (hsound.aliases name b hb).1 hsame
            exact absurd (heq ▸ hfile) (hsettled.foreign name b hb)
        · cases hfound

theorem FileTree.ImportsOnly.exportNamed_ok (h : files.ImportsOnly options)
    (hproper : files.Proper) (hs : s.AtRestWith files options (Store.ImportsSettled files options))
    {s₀ : Store} (hs₀ : s₀.AtRest files options) (hq : (s.module? q).isSome)
    (hq₀ : (s₀.module? q).isSome) {name : String} {a : Identity}
    (heval : (files.exportNamed q name).eval s = (.ok a, s')) :
    ((files.exportNamed q name).eval s₀).1 = .ok a := by
  obtain ⟨t, htable, ha, -⟩ := h.listed_of_exportNamed hproper hs heval
  obtain ⟨m₀, hm₀⟩ := Option.isSome_iff_exists.1 hq
  have hkey := (hs.1.running.isFile q m₀ hm₀).isKey
  have hunambiguous : files.Unambiguous options (files.ImportsAs options) q := h.unambiguous hkey
  have halike : (files.tableOf q).FailsAlike s s₀ := hunambiguous.failsAlike hproper hkey (.refl q)
    (.rest hs.1 q) (.rest hs₀ q) hq hq₀ (by simp)
  obtain ⟨t₀, s₁, htable₀⟩ := halike.of_ok htable
  obtain ⟨m, hm, hsettled⟩ := settled_of_answer (.rest hs.1 q) (by simp) htable
  obtain ⟨m₁, hm₁, hsettled₁⟩ := settled_of_answer (.rest hs₀ q) (by simp) htable₀
  obtain ⟨hagrees, -⟩ := hunambiguous.agreed hproper hkey (.refl q) m t m₁ t₀ hsettled hsettled₁
  have hexport : (files.exportNamed q name).eval s₀ = _ := ScanStep.eval_exportedBy htable₀ hm₁
  rw [hexport, m₁.lookupExport_of_get? (hagrees.get? name ▸ ha)]

/-- A loaded file exports what it exports when nothing else has been asked. -/
theorem FileTree.ImportsOnly.exportNamed_iff (h : files.ImportsOnly options)
    (hproper : files.Proper) (hs : s.AtRestWith files options (Store.ImportsSettled files options))
    {file : Path} (hkey : files.key file = .ok q) (hq : (s.module? q).isSome) (name : String)
    (a : Identity) : ((files.exportNamed q name).eval s).1 = .ok a ↔
      files.freshExport options file name = .ok a := by
  obtain ⟨m, hm⟩ := Option.isSome_iff_exists.1 hq
  have hloadable : files.Loadable file := ⟨q, m.text, hkey, (hs.1.running.isFile q m hm).read_eq⟩
  obtain ⟨s₀, hload, hq₀⟩ := hloadable.eval_load hkey (.ofOptions options)
  have hs₀ : s₀.AtRest files options := Store.Reached.of_load .fresh hload
  have hsettled₀ : s₀.ImportsSettled files options :=
    Store.All.load (scanKept_importsSettled h) rfl (fun _ _ hm => by cases hm) (FileTree.loads hload)
  have hfresh : files.freshExport options file name = ((files.exportNamed q name).eval s₀).1 :=
    congrArg Prod.fst (Query.eval_bind_ok hload)
  rw [hfresh]
  constructor
  · exact fun hok => h.exportNamed_ok hproper hs hs₀ hq hq₀ (Prod.ext hok rfl)
  · exact fun hok => h.exportNamed_ok hproper ⟨hs₀, hsettled₀⟩ hs.1 hq₀ hq (Prod.ext hok rfl)

/-! ## Import scans -/

/--
The query for imports, asked in the store `s` when `found` has been found, succeeds if and only if
`C` holds.  What it finds are the types that the bindings take.
-/
structure Query.Finds (files : FileTree) (options : ResolverOptions) (C : Prop)
    (sources : List (Path × Binding)) (found : OrderedMap String Identity) (s : Store)
    (q : Query (OrderedMap String Identity)) : Prop where
  ok_iff : (∃ found' s', q.eval s = (.ok found', s')) ↔ C
  get?_eq : ∀ found' s', q.eval s = (.ok found', s') →
    ∀ name, found'.get? name = files.lastFound options sources name (found.get? name)

namespace FileTree

theorem lastFound_append (sources sources' : List (Path × Binding)) (name : String)
    (found : Option Identity) : files.lastFound options (sources ++ sources') name found =
      files.lastFound options sources' name (files.lastFound options sources name found) := by
  simp only [lastFound, List.reverse_append, List.find?_append]
  cases sources'.reverse.find? fun x => x.2.introduced == name <;> rfl

end FileTree

namespace Query.Finds

variable {C C' : Prop} {sources sources' : List (Path × Binding)}
  {found : OrderedMap String Identity} {q : Query (OrderedMap String Identity)}

theorem pure : Query.Finds files options True [] found s (Pure.pure found) := by
  refine ⟨⟨fun _ => trivial, fun _ => ⟨found, s, eval_pure _ _⟩⟩, fun found' s' h name => ?_⟩
  rw [eval_pure, Prod.mk.injEq, Except.ok.injEq] at h
  rw [← h.1]
  rfl

theorem of_error {e : Error} (heval : q.eval s = (.error e, s')) (hC : ¬ C) :
    q.Finds files options C sources found s := by
  refine ⟨⟨?_, fun h => absurd h hC⟩, ?_⟩
  · rintro ⟨found', s₁, hok⟩
    simp [heval] at hok
  · intro found' s₁ hok
    simp [heval] at hok

theorem bind (hq : q.Finds files options C sources found s)
    {f : OrderedMap String Identity → Query (OrderedMap String Identity)}
    (hf : ∀ found' s', q.eval s = (.ok found', s') →
      (f found').Finds files options C' sources' found' s') :
    (q >>= f).Finds files options (C ∧ C') (sources ++ sources') found s := by
  constructor
  · constructor
    · rintro ⟨found', s', heval⟩
      obtain ⟨found₁, s₁, heval₁, heval⟩ := eval_bind_eq_ok heval
      exact ⟨hq.ok_iff.1 ⟨found₁, s₁, heval₁⟩, (hf found₁ s₁ heval₁).ok_iff.1 ⟨found', s', heval⟩⟩
    · rintro ⟨hC, hC'⟩
      obtain ⟨found₁, s₁, heval₁⟩ := hq.ok_iff.2 hC
      obtain ⟨found', s', heval⟩ := (hf found₁ s₁ heval₁).ok_iff.2 hC'
      exact ⟨found', s', (eval_bind_ok heval₁).trans heval⟩
  · intro found' s' heval name
    obtain ⟨found₁, s₁, heval₁, heval⟩ := eval_bind_eq_ok heval
    rw [(hf found₁ s₁ heval₁).get?_eq found' s' heval name, hq.get?_eq found₁ s₁ heval₁ name,
      FileTree.lastFound_append]

theorem congr (hq : q.Finds files options C sources found s) (h : C ↔ C') :
    q.Finds files options C' sources found s :=
  ⟨hq.ok_iff.trans h, hq.get?_eq⟩

theorem of_eval_eq {q' : Query (OrderedMap String Identity)}
    (hq : q.Finds files options C sources found s') (h : q'.eval s = q.eval s') :
    q'.Finds files options C sources found s := by
  refine ⟨?_, ?_⟩
  · rw [h]
    exact hq.ok_iff
  · rw [h]
    exact hq.get?_eq

end Query.Finds

theorem Store.keptByRequests_isSome (q : Path) :
    KeptByRequests files options fun s => (s.module? q).isSome where
  load p _ h := (files.eval_load p _).evolves.isSome_module? h
  ask p _ hs h := (tame_tableOf _ hs.running (by simp) rfl).2.isSome_module? h
  note _ _ _ h := (Store.grows_updateModule _ _ _).isSome_module? q h
  rename _ _ _ _ _ _ _ h := (Store.grows_updateModule _ _ _).isSome_module? q h
  imports _ _ _ _ _ _ h _ := (Store.grows_updateModule _ _ _).isSome_module? q h
  parsed _ _ _ _ _ _ _ h _ := (Store.grows_updateModule _ _ _).isSome_module? q h

theorem Store.keptByBindings_importsSettled (h : files.ImportsOnly options)
    (hproper : files.Proper) :
    KeptByBindings files options (fun _ => True) (Store.ImportsSettled files options) where
  load p hs hX := Store.All.load (scanKept_importsSettled h) hs.running.options_eq hX
    (files.eval_load p _)
  ask p _ hs hX := ((scanKept_importsSettled h).tableOf _ (.rest hs p) hX rfl).1
  note _ _ _ hX := hX.updateModule fun m hm => (hX _ m hm).congr rfl rfl
  rename {s s' p q b name found} _ hi hb hs hX heval _ hX' := by
    refine hX'.updateModule fun m hm => ?_
    obtain ⟨-, -, -, hfile⟩ := h.listed_of_exportNamed hproper ⟨hs, hX⟩ heval
    have hsettled := hX' p m hm
    refine ⟨hsettled.isKey, fun n a ha => ?_, hsettled.found⟩
    simp only [Module.addAlias, OrderedMap.get?_insert] at ha
    split at ha
    · obtain rfl := Option.some.inj ha
      rintro rfl
      obtain ⟨file, hkey, hx⟩ := hi.mem_importSources
      exact h.imports _ hsettled.isKey _ hx (hkey.trans (by rw [hfile]))
    · exact hsettled.foreign n a ha

namespace ImportStep

variable (h : files.ImportsOnly options) (hproper : files.Proper)

include h hproper

theorem finds_take {file : Path} {b : Binding} {found : OrderedMap String Identity}
    (hs : s.AtRestWith files options (Store.ImportsSettled files options))
    (hkey : files.key file = .ok q) (hq : (s.module? q).isSome) :
    (perform files files.tableOf p found (.take q b)).Finds files options
      (∃ a, files.freshExport options file b.name = .ok a) [(file, b)] found s := by
  have hexport : ∀ a, ((files.exportNamed q b.name).eval s).1 = .ok a ↔ _ :=
    h.exportNamed_iff hproper hs hkey hq b.name
  constructor
  · constructor
    · rintro ⟨found', s', heval⟩
      obtain ⟨a, s₁, hbind, -⟩ := Query.eval_bind_eq_ok heval
      obtain ⟨a', s₂, hexported, -⟩ := Query.eval_bind_eq_ok hbind
      exact ⟨a', (hexport a').1 (congrArg Prod.fst hexported)⟩
    · rintro ⟨a, ha⟩
      have hexported : (ExportScan.exportedBy files.tableOf q b.name).eval s = (.ok a, _) :=
        Prod.ext ((hexport a).2 ha) rfl
      exact ⟨_, _, (Query.eval_bind_ok (ScanStep.eval_bind_found hexported)).trans
        (Query.eval_pure _ _)⟩
  · intro found' s' heval name
    obtain ⟨-, hno⟩ | ⟨_, _, a, s₁, ⟨rfl, rfl⟩, hexported, -, rfl⟩ := perform_eq_ok heval
    · exact absurd rfl (hno q b)
    · have ha := (hexport a).1 (congrArg Prod.fst hexported)
      simp only [FileTree.lastFound, OrderedMap.get?_insert, List.reverse_singleton]
      by_cases hname : name = b.introduced
      · simp [hname, ha, Except.toOption]
      · simp [hname, Ne.symm hname]

theorem finds_takes {file : Path} {bs : List Binding}
    (hbs : ∀ b ∈ bs, files.Imports options p q b) (hkey : files.key file = .ok q)
    {found : OrderedMap String Identity}
    (hs : s.AtRestWith files options fun s => s.ImportsSettled files options ∧ (s.module? q).isSome) :
    (performAll files files.tableOf p (bs.map (.take q)) found).Finds files options
      (∀ b ∈ bs, ∃ a, files.freshExport options file b.name = .ok a) (bs.map (Prod.mk file)) found
      s := by
  induction bs generalizing found s with
  | nil => exact Query.Finds.pure.congr (by simp)
  | cons b bs ih =>
      rw [List.forall_mem_cons] at hbs
      rw [List.map_cons, List.map_cons, performAll, List.foldlM_cons]
      refine ((finds_take h hproper ⟨hs.1, hs.2.1⟩ hkey hs.2.2).bind fun found₁ s₁ heval =>
        ih hbs.2 ?_).congr (by rw [List.forall_mem_cons])
      have hkept := (Store.keptByBindings_importsSettled h hproper).and
        (Store.keptByRequests_isSome q).toKeptByBindings
      have hs₁ := hkept.keeps_step hproper trivial (i := .take q b) hbs.1 found s hs
      rwa [heval] at hs₁

theorem finds_visiting {st : Statement} (hst : st ∈ files.importStatements options p) {i : Import}
    (hparse : Import.parse st.text = .ok i) (hbinds : i.bindsTypes = true)
    {found : OrderedMap String Identity}
    (hs : s.AtRestWith files options (Store.ImportsSettled files options)) :
    (performAll files files.tableOf p (i.visiting files options p) found).Finds files options
      (i.Found files options p) (i.sources options p) found s := by
  rw [Import.visiting, performAll, List.foldlM_cons, Import.sources, if_pos hbinds]
  rcases hload : (files.load (Specifier.resolve options p i.specifier)).eval s with ⟨e | key, s₁⟩
  · refine .of_error (Query.eval_bind_error (Query.eval_bind_error hload)) fun hfound => ?_
    exact (FileTree.loads hload).not_loadable (hfound hbinds).1
  · have hkey := FileTree.key_of_load hload
    have hs₁ := (Store.keptByBindings_importsSettled h hproper).keeps_load
      (Specifier.resolve options p i.specifier) s hs
    rw [hload] at hs₁
    have himported : ∀ b ∈ i.bindings, files.Imports options p key b := fun b hb =>
      FileTree.imports_iff.2 ⟨st, hst, i, hparse, hbinds, hkey, hb⟩
    refine ((finds_takes h hproper himported hkey
      ⟨hs₁.1, hs₁.2, (FileTree.loads hload).isSome_module?⟩).of_eval_eq ?_).congr ?_
    · rw [hkey]
      exact Query.eval_bind_ok ((Query.eval_bind_ok hload).trans (Query.eval_pure found s₁))
    · have hloadable := (FileTree.loads hload).loadable hs.1.running
      exact ⟨fun hall _ => ⟨hloadable, hall⟩, fun hfound => (hfound hbinds).2⟩

theorem finds_statement {st : Statement} (hst : st ∈ files.importStatements options p)
    {found : OrderedMap String Identity}
    (hs : s.AtRestWith files options (Store.ImportsSettled files options)) :
    (performAll files files.tableOf p (st.importSteps files options p) found).Finds files options
      (st.ImportFound files options p) (st.importSources options p) found s := by
  have hsteps : ∀ i ∈ st.importSteps files options p, i ∈ files.importSteps options p := fun i hi =>
    List.mem_flatMap.2 ⟨st, hst, hi⟩
  unfold Statement.importSteps Statement.importSources Statement.ImportFound at *
  cases hparse : Import.parse st.text with
  | error e => exact .of_error (Query.eval_bind_error (Query.eval_throw e s)) (by simp)
  | ok i =>
      simp only [hparse, Except.ok.injEq, exists_eq_left'] at hsteps ⊢
      rw [performAll, List.foldlM_append]
      have hremark : (List.foldlM (perform files files.tableOf p) found
          (i.remark?.map (ImportStep.remark st)).toList).Finds files options True [] found s := by
        cases i.remark? with
        | none => exact .pure
        | some r =>
            refine (Query.Finds.pure (s := s.updateModule p (·.addImportNote st r))).of_eval_eq ?_
            rw [Option.map_some, Option.toList_some, List.foldlM_cons]
            exact Query.eval_bind_ok
              ((Query.eval_bind_ok (Query.eval_update p _ s)).trans (Query.eval_pure found _))
      have hkept := Store.keptByBindings_importsSettled h hproper
      have htypes : ∀ {found s}, s.AtRestWith files options (Store.ImportsSettled files options) →
          (performAll files files.tableOf p (if i.bindsTypes then i.visiting files options p else [])
            found).Finds files options (i.Found files options p) (i.sources options p) found s := by
        intro found s hs
        by_cases hbinds : i.bindsTypes = true
        · rw [if_pos hbinds]
          exact finds_visiting h hproper hst hparse hbinds hs
        · rw [if_neg hbinds, Import.sources, if_neg hbinds]
          exact Query.Finds.pure.congr (by simp [Import.Found, hbinds])
      refine (hremark.bind fun found₁ s₁ heval => htypes ?_).congr (iff_of_eq (true_and _))
      have hs₁ := hkept.keeps_performAll hproper trivial
        (fun i hi => hsteps i (List.mem_append_left _ hi)) found s hs
      rwa [performAll, heval] at hs₁

theorem finds_statements {sts : List Statement}
    (hsts : ∀ st ∈ sts, st ∈ files.importStatements options p)
    {found : OrderedMap String Identity}
    (hs : s.AtRestWith files options (Store.ImportsSettled files options)) :
    (performAll files files.tableOf p (sts.flatMap (·.importSteps files options p)) found).Finds
      files options (∀ st ∈ sts, st.ImportFound files options p)
      (sts.flatMap (·.importSources options p)) found s := by
  induction sts generalizing found s with
  | nil => exact Query.Finds.pure.congr (by simp)
  | cons st sts ih =>
      rw [List.forall_mem_cons] at hsts
      rw [List.flatMap_cons, List.flatMap_cons, performAll, List.foldlM_append]
      refine ((finds_statement h hproper hsts.1 hs).bind fun found₁ s₁ heval =>
        ih hsts.2 ?_).congr (by rw [List.forall_mem_cons])
      have hs₁ := (Store.keptByBindings_importsSettled h hproper).keeps_performAll hproper trivial
        (fun i hi => List.mem_flatMap.2 ⟨st, hsts.1, hi⟩) found s hs
      rwa [heval] at hs₁

theorem finds_importSteps
    (hs : s.AtRestWith files options (Store.ImportsSettled files options)) :
    (performAll files files.tableOf p (files.importSteps options p) .empty).Finds files options
      (∀ st ∈ files.importStatements options p, st.ImportFound files options p)
      (files.importSources options p) .empty s :=
  finds_statements h hproper (fun _ hst => hst) hs

end ImportStep

/-! ## Requests -/

theorem Store.keptByRequests_importsSettled (h : files.ImportsOnly options)
    (hproper : files.Proper) : KeptByRequests files options (Store.ImportsSettled files options) where
  toKeptByBindings := keptByBindings_importsSettled h hproper
  imports {s s' p found} _ hs hX _ heval _ hX' _ := by
    refine hX'.updateModule fun m hm => ?_
    have hsettled := hX' p m hm
    refine ⟨hsettled.isKey, hsettled.foreign, ?_⟩
    rintro _ ⟨rfl⟩
    obtain ⟨hok, hfound⟩ := ImportStep.finds_importSteps h hproper ⟨hs, hX⟩
    exact ⟨hok.1 ⟨found, s', heval⟩, hfound found s' heval⟩
  parsed _ _ _ _ _ _ _ hX' _ := hX'.updateModule fun m hm => (hX' _ m hm).congr rfl rfl

/--
Import circles do no harm where types get from one file to another by imports only.  Whatever was
asked before, the imports of a loaded file are found if and only if every import statement can be
read and those that are not skipped take from files that are there types that these export when
nothing else has been asked.  A name then stands for the type that the last binding takes under it.
-/
theorem imports_eq_fresh (h : files.ImportsOnly options) (hproper : files.Proper)
    (hs : s.Session files options) (hp : (s.module? p).isSome) :
    ((∃ found s', (files.imports p).eval s = (.ok found, s')) ↔
      ∀ st ∈ files.importStatements options p, st.ImportFound files options p) ∧
    ∀ found s', (files.imports p).eval s = (.ok found, s') →
      ∀ name, found.get? name = files.lastFound options (files.importSources options p) name none := by
  have hkept := Store.keptByRequests_importsSettled h hproper
  have hrest : s.AtRestWith files options (Store.ImportsSettled files options) :=
    hkept.after hproper hs ⟨.fresh, fun _ _ hm => by cases hm⟩
  obtain ⟨m, hm⟩ := Option.isSome_iff_exists.1 hp
  rw [← FileTree.importsBy_tableOf]
  cases himports : m.imports with
  | some found =>
      obtain ⟨hall, hfound⟩ := (hrest.2 p m hm).found found himports
      simp only [FileTree.eval_importsBy_of_some hm himports, Prod.mk.injEq, Except.ok.injEq]
      refine ⟨⟨fun _ => hall, fun _ => ⟨found, s, rfl, rfl⟩⟩, ?_⟩
      rintro _ _ ⟨rfl, rfl⟩
      exact hfound
  | none =>
      have hbegun := hkept.beginImports (p := p) trivial hrest
      obtain ⟨hsteps, -⟩ := hkept.alike_importStatements (T := files.tableOf)
        (fun _ _ _ _ => rfl) hproper (p := p) trivial _ hbegun
      obtain ⟨hok, hfound⟩ := ImportStep.finds_importSteps h hproper hbegun
      rw [← hsteps] at hok hfound
      rcases hscan : ((files.importStatements options p).foldlM
        (ImportScan.takeStatementBy files files.tableOf p) .empty).eval (s.beginImports p) with ⟨r, s₁⟩
      rw [hscan] at hok hfound
      rw [← hrest.1.importStatements_eq hm] at hscan
      rw [FileTree.eval_importsBy_of_none hm himports hscan]
      cases r with
      | error e => simpa [Store.endImports] using hok
      | ok found =>
          simp only [Store.endImports, Prod.mk.injEq, Except.ok.injEq] at hok hfound ⊢
          refine ⟨⟨fun _ => hok.1 ⟨found, s₁, rfl, rfl⟩, fun _ => ⟨found, _, rfl, rfl⟩⟩, ?_⟩
          rintro _ _ ⟨rfl, rfl⟩
          exact hfound found s₁ ⟨rfl, rfl⟩

def importCircle : FileTree := .ofTexts
  [("a.d.ts", "import B, \x7b C as D, E as D \x7d from './b.js';\nexport type A = D;\n"),
   ("b.d.ts", "import \x7b A as Z \x7d from './a.js';\nexport default enum B \x7b\x7d\n" ++
     "export type C = Z;\nexport type E = Z;\n"),
   ("c.d.ts", "import \x7b Z \x7d from './b.js';\n")]

set_option maxRecDepth 100000 in
theorem imports_eq_fresh_importCircle : ∃ s : Store, s.Session importCircle .standard ∧
    (∀ st ∈ importCircle.importStatements .standard ⟨"/w/a.d.ts"⟩,
      st.ImportFound importCircle .standard ⟨"/w/a.d.ts"⟩) ∧
    (∃ found s', (importCircle.imports ⟨"/w/a.d.ts"⟩).eval s = (.ok found, s') ∧
      found.get? "D" = some ⟨⟨"/w/b.d.ts"⟩, "E", false⟩ ∧
      importCircle.lastFound .standard (importCircle.importSources .standard ⟨"/w/a.d.ts"⟩) "D"
        none = some ⟨⟨"/w/b.d.ts"⟩, "E", false⟩) ∧
    ¬ ∀ st ∈ importCircle.importStatements .standard ⟨"/w/c.d.ts"⟩,
      st.ImportFound importCircle .standard ⟨"/w/c.d.ts"⟩ := by
  let a : Path := ⟨"/w/a.d.ts"⟩
  let c : Path := ⟨"/w/c.d.ts"⟩
  let s₁ := (((Request.imports ⟨"b.d.ts"⟩).perform importCircle).eval (.ofOptions .standard)).2
  let s := (((Request.imports ⟨"c.d.ts"⟩).perform importCircle).eval s₁).2
  have hs : s.Session importCircle .standard :=
    .request (.request .here (.imports ⟨"b.d.ts"⟩)) (.imports ⟨"c.d.ts"⟩)
  have hproper : importCircle.Proper := FileTree.proper_ofTexts _
  have honly : importCircle.ImportsOnly .standard := .of_locations hproper (by decide +kernel)
  obtain ⟨ha, hc, hfound, hmissing⟩ : (s.module? a).isSome ∧ (s.module? c).isSome ∧
      (((importCircle.imports a).eval s).1.toOption.any fun found =>
        found.get? "D" == some ⟨⟨"/w/b.d.ts"⟩, "E", false⟩) = true ∧
      ((importCircle.imports c).eval s).1.toOption.isNone = true := by decide +kernel
  obtain ⟨hok, hlast⟩ := imports_eq_fresh honly hproper hs ha
  obtain ⟨hfails, -⟩ := imports_eq_fresh honly hproper hs hc
  rcases heval : (importCircle.imports a).eval s with ⟨_ | found, s'⟩
  · simp [heval, Except.toOption] at hfound
  · have hD : found.get? "D" = some ⟨⟨"/w/b.d.ts"⟩, "E", false⟩ := by
      simpa [heval, Except.toOption] using hfound
    refine ⟨s, hs, hok.1 ⟨found, s', heval⟩, ⟨found, s', heval, hD, ?_⟩, fun hall => ?_⟩
    · rw [← hlast found s' heval, hD]
    · obtain ⟨found', s₂, hc⟩ := hfails.2 hall
      simp [c, hc, Except.toOption] at hmissing

end Typings
