import Typings.Proofs.Bookkeeping

/-!
# Answers that stay

What has been found out once is kept: a loaded module is never replaced, a table, the imports of a
module and the type of a declaration are worked out once, and the declarations of a module whose
table is kept are those of its last scan.  So a type is the same whenever it is resolved, and by
whatever name.
-/

namespace Typings

open ExportScan ScanStep

variable {files : FileTree} {options : ResolverOptions} {stack : List Path} {s s' s₁ : Store}

/-! ## Modules -/

namespace Module

def declared (m : Module) : List (String × Declaration) :=
  m.locals.entries.map fun e => (e.1, e.2.unparsed)

/-- What has been found out about `m` is still there in `m'`. -/
structure Stable (m m' : Module) : Prop where
  path_eq : m'.path = m.path
  text_eq : m'.text = m.text
  statements_eq : m'.statements = m.statements
  exports_eq : m.exports.isSome → m'.exports = m.exports
  imports_eq : m.imports.isSome → m'.imports = m.imports
  declared_eq : m.exports.isSome → m'.declared = m.declared
  parsed_eq : ∀ name d, m.locals.get? name = some d → d.parsed.isSome →
    m'.locals.get? name = some d

theorem Stable.refl (m : Module) : m.Stable m :=
  ⟨rfl, rfl, rfl, fun _ => rfl, fun _ => rfl, fun _ => rfl, fun _ _ hd _ => hd⟩

theorem Stable.trans {m₁ m₂ m₃ : Module} (h₁ : m₁.Stable m₂) (h₂ : m₂.Stable m₃) :
    m₁.Stable m₃ where
  path_eq := h₂.path_eq.trans h₁.path_eq
  text_eq := h₂.text_eq.trans h₁.text_eq
  statements_eq := h₂.statements_eq.trans h₁.statements_eq
  exports_eq h := (h₂.exports_eq (by rwa [h₁.exports_eq h])).trans (h₁.exports_eq h)
  imports_eq h := (h₂.imports_eq (by rwa [h₁.imports_eq h])).trans (h₁.imports_eq h)
  declared_eq h := (h₂.declared_eq (by rwa [h₁.exports_eq h])).trans (h₁.declared_eq h)
  parsed_eq name d hd he := h₂.parsed_eq name d (h₁.parsed_eq name d hd he) he

theorem stable_imports (m : Module) (h : m.imports = none) (found : OrderedMap String Identity) :
    m.Stable { m with imports := some found } :=
  { Stable.refl m with imports_eq := fun hfound => by simp [h] at hfound }

theorem declared_setParsed (m : Module) (name : String) (e : Expr) :
    (m.setParsed name e).declared = m.declared := by
  simp only [declared, setParsed, OrderedMap.modify, List.map_map]
  refine List.map_congr_left fun entry _ => ?_
  simp only [Function.comp]
  split <;> rfl

theorem stable_setParsed {m : Module} {d : Declaration} (hd : m.locals.get? d.name = some d)
    (hnone : d.parsed = none) (e : Expr) : m.Stable (m.setParsed d.name e) := by
  refine { Stable.refl m with
    declared_eq := fun _ => m.declared_setParsed d.name e
    parsed_eq := fun name d' hd' he => ?_ }
  have hname : name ≠ d.name := by
    rintro rfl
    obtain rfl := Option.some.inj (hd.symm.trans hd')
    simp [hnone] at he
  rw [setParsed, OrderedMap.get?_modify, if_neg hname, hd']

/-! ## Rescans -/

/-- How a module may change by scans: as long as it is not kept, they begin from nothing. -/
structure Rescanned (m m' : Module) : Prop where
  path_eq : m'.path = m.path
  text_eq : m'.text = m.text
  statements_eq : m'.statements = m.statements
  imports_eq : m'.imports = m.imports
  kept : m.exports.isSome → m' = m

theorem Rescanned.refl (m : Module) : m.Rescanned m := ⟨rfl, rfl, rfl, rfl, fun _ => rfl⟩

theorem Rescanned.trans {m₁ m₂ m₃ : Module} (h₁ : m₁.Rescanned m₂) (h₂ : m₂.Rescanned m₃) :
    m₁.Rescanned m₃ where
  path_eq := h₂.path_eq.trans h₁.path_eq
  text_eq := h₂.text_eq.trans h₁.text_eq
  statements_eq := h₂.statements_eq.trans h₁.statements_eq
  imports_eq := h₂.imports_eq.trans h₁.imports_eq
  kept h := (h₂.kept (by rwa [h₁.kept h])).trans (h₁.kept h)

def TypedKept (m : Module) : Prop :=
  m.exports = none → ∀ name d, m.locals.get? name = some d → d.parsed = none

theorem Rescanned.stable {m m' : Module} (h : m.Rescanned m') (htyped : m.TypedKept) :
    m.Stable m' where
  path_eq := h.path_eq
  text_eq := h.text_eq
  statements_eq := h.statements_eq
  exports_eq hkept := by rw [h.kept hkept]
  imports_eq _ := h.imports_eq
  declared_eq hkept := by rw [h.kept hkept]
  parsed_eq name d hd he := by
    cases hkept : m.exports with
    | none => simp [htyped hkept name d hd] at he
    | some t => rwa [h.kept (by rw [hkept]; rfl)]

theorem LocalsOf.typedKept {m : Module} {p : Path} {done : List ScanStep}
    (h : m.LocalsOf p done) : m.TypedKept := by
  intro _ name d hd
  rw [h name] at hd
  obtain ⟨_, -, rfl⟩ := Option.map_eq_some_iff.1 hd
  rfl

theorem TypedKept.addTaken {m : Module} (h : m.TypedKept) (b : Binding) (found : Identity) :
    (m.addTaken b found).TypedKept := by
  have hlocals : (m.addTaken b found).locals = m.locals := by
    unfold Module.addTaken rename
    split <;> rfl
  intro hnone
  rw [hlocals]
  exact h ((m.evolves_addTaken b found).2.symm.trans hnone)

end Module

theorem scanKept_typedKept : ScanKept files options (files.ImportsAs options)
    (fun _ m => m.TypedKept) (fun _ _ => True) where
  loaded p text _ _ name d hd := by cases hd
  begun p m d _ _ _ name d hd := by cases hd
  own p m l f done _ _ hlocals _ hf _ _ _ := (hlocals.change hf).typedKept
  merged p q m taken _ _ _ _ _ _ _ h := h
  taken p q m mq b table found _ _ _ _ _ _ _ h := h.addTaken b found
  ended p m h := h
  keep p m _ _ hnone := by cases hnone
  answer_of_kept _ _ _ _ _ := trivial
  answer_of_scan _ _ _ _ := trivial

/-! ## Stores -/

namespace Store

/-- What is known in `s` is still known in `s'`. -/
def Stable (s s' : Store) : Prop :=
  ∀ q m, s.module? q = some m → ∃ m', s'.module? q = some m' ∧ m.Stable m'

theorem Stable.refl (s : Store) : s.Stable s := fun _ m hm => ⟨m, hm, .refl m⟩

theorem Stable.trans (h₁ : s.Stable s₁) (h₂ : s₁.Stable s') : s.Stable s' := by
  intro q m hm
  obtain ⟨m₁, hm₁, hstable₁⟩ := h₁ q m hm
  obtain ⟨m', hm', hstable'⟩ := h₂ q m₁ hm₁
  exact ⟨m', hm', hstable₁.trans hstable'⟩

theorem stable_updateModule (s : Store) {p : Path} {f : Module → Module}
    (hf : ∀ m, s.module? p = some m → m.Stable (f m)) : s.Stable (s.updateModule p f) := by
  intro q m hm
  by_cases hq : q = p
  · subst hq
    exact ⟨f m, module?_updateModule_self f hm, hf m hm⟩
  · exact ⟨m, by rw [module?_updateModule_of_ne f hq, hm], .refl m⟩

def Rescanned (s s' : Store) : Prop :=
  ∀ q m, s.module? q = some m → ∃ m', s'.module? q = some m' ∧ m.Rescanned m'

theorem Rescanned.trans (h₁ : s.Rescanned s₁) (h₂ : s₁.Rescanned s') : s.Rescanned s' := by
  intro q m hm
  obtain ⟨m₁, hm₁, hrescanned₁⟩ := h₁ q m hm
  obtain ⟨m', hm', hrescanned'⟩ := h₂ q m₁ hm₁
  exact ⟨m', hm', hrescanned₁.trans hrescanned'⟩

theorem Rescanned.stable (h : s.Rescanned s') (htyped : s.All fun _ m => m.TypedKept) :
    s.Stable s' := by
  intro q m hm
  obtain ⟨m', hm', hrescanned⟩ := h q m hm
  exact ⟨m', hm', hrescanned.stable (htyped q m hm)⟩

theorem Evolves.rescanned {own : List Path} (h : s.Evolves own s')
    (hown : ∀ p ∈ own, ∀ m, s.module? p = some m → m.exports = none) : s.Rescanned s' := by
  intro q m hm
  obtain ⟨m', hm', he⟩ := h.loaded q m hm
  refine ⟨m', hm', he.path_eq, he.text_eq, he.statements_eq, he.imports_eq, fun hkept => ?_⟩
  have hq : q ∉ own := fun hq => by simp [hown q hq m hm] at hkept
  exact Option.some.inj (hm'.symm.trans (h.busy q m hq hm (.inl hkept)))

theorem rescanned_beginScan {p : Path} (hp : ∀ m, s.module? p = some m → m.exports = none) :
    s.Rescanned (s.beginScan p) := by
  intro q m hm
  by_cases hq : q = p
  · subst hq
    exact ⟨_, module?_beginScan_self hm, rfl, rfl, rfl, rfl, fun hkept => by
      simp [hp m hm] at hkept⟩
  · exact ⟨m, (s.module?_beginScan_of_ne hq).trans hm, .refl m⟩

theorem rescanned_scan {p : Path} {m : Module} (hm : s.module? p = some m) (ht : m.exports = none)
    (h : (s.beginScan p).Evolves [p] s') : s.Rescanned s' := by
  have hp : ∀ m', s.module? p = some m' → m'.exports = none := by
    intro m' hm'
    rwa [Option.some.inj (hm'.symm.trans hm)]
  refine (rescanned_beginScan hp).trans (h.rescanned fun q hq m' hm' => ?_)
  obtain rfl := List.mem_singleton.1 hq
  obtain rfl := Option.some.inj ((module?_beginScan_self hm).symm.trans hm')
  exact ht

end Store

theorem ExportScan.During.rescanned {n : Nat} {v : Path} {inner : List Path}
    (hd : During files n v s inner s') (h : s.Running files options stack)
    (hleads : ∀ r ∈ stack, files.Leads options r v) : s.Rescanned s' := by
  refine hd.keeps (X := s.Rescanned) (fun h hleads hs => ?_) ?_ h hleads fun _ m hm => ⟨m, hm, .refl m⟩
  · exact hs.trans ((tame_tableOf _ h hleads rfl).2.rescanned (by simp))
  · intro n v m done stack s₁ s₂ r h hleads hm ht hw hdone hperforms hs
    have hrunning := hperforms.running (tame_tableOf n) (h.beginScan hm ht hw hleads) hdone
    exact hs.trans (Store.rescanned_scan hm ht hrunning.2)

/-! ## Requests -/

theorem keptByRequests_stable (s : Store) : Store.KeptByRequests files options fun s' =>
    s.Stable s' ∧ s'.All fun _ m => m.TypedKept where
  load p hs h := ⟨h.1.trans (((files.eval_load p _).evolves.rescanned (by simp)).stable h.2),
    h.2.load scanKept_typedKept hs.running.options_eq (files.eval_load p _)⟩
  ask p _ hs h := ⟨h.1.trans (((tame_tableOf _ hs.running (by simp) rfl).2.rescanned
      (by simp)).stable h.2),
    (scanKept_typedKept.tableOf _ (.rest hs p) h.2 rfl).1⟩
  note notes _ _ h := ⟨h.1.trans (Store.stable_updateModule _ fun m _ => { Module.Stable.refl m with }),
    h.2.updateModule fun m hm => h.2 _ m hm⟩
  rename _ _ _ _ _ _ _ h := ⟨h.1.trans (Store.stable_updateModule _ fun m _ =>
      { Module.Stable.refl m with }), h.2.updateModule fun m hm => h.2 _ m hm⟩
  imports _ _ _ _ _ _ h hnone := by
    refine ⟨h.1.trans (Store.stable_updateModule _ fun m hm => m.stable_imports ?_ _),
      h.2.updateModule fun m hm => h.2 _ m hm⟩
    obtain ⟨m', hm', hnone⟩ := hnone
    rwa [Option.some.inj (hm.symm.trans hm')]
  parsed _ _ _ hunparsed _ _ _ h hkeeping := by
    obtain ⟨m', hm', hkept, hd⟩ := hkeeping
    refine ⟨h.1.trans (Store.stable_updateModule _ fun m hm => ?_),
      h.2.updateModule fun m hm hnone => ?_⟩
    · obtain rfl := Option.some.inj (hm.symm.trans hm')
      exact Module.stable_setParsed hd hunparsed _
    · obtain rfl := Option.some.inj (hm.symm.trans hm')
      exact absurd hkept (by rw [show m.exports = none from hnone]; simp)

theorem Store.Session.typedKept (hproper : files.Proper) (hs : s.Session files options) :
    s.All fun _ m => m.TypedKept :=
  ((keptByRequests_stable (.ofOptions options)).after hproper hs
    ⟨.fresh, .refl _, fun _ _ hm => by cases hm⟩).2.2

/-! ## Types that have been worked out -/

def Module.Types (name : String) (e : Expr) (m : Module) : Prop :=
  ∃ d, m.locals.get? name = some d ∧ d.parsed = some e

theorem Store.At.stable {p : Path} {name : String} {e : Expr} (h : s.At p (Module.Types name e))
    (hstable : s.Stable s') : s'.At p (Module.Types name e) := by
  obtain ⟨m, hm, d, hd, he⟩ := h
  obtain ⟨m', hm', hkept⟩ := hstable p m hm
  exact ⟨m', hm', d, hkept.parsed_eq name d hd (by rw [he]; rfl), he⟩

theorem Store.At.types_unique {p : Path} {name : String} {e e' : Expr}
    (h : s.At p (Module.Types name e)) (h' : s.At p (Module.Types name e')) : e = e' := by
  obtain ⟨m, hm, d, hd, he⟩ := h
  obtain ⟨m', hm', d', hd', he'⟩ := h'
  obtain rfl := Option.some.inj (hm.symm.trans hm')
  obtain rfl := Option.some.inj (hd.symm.trans hd')
  exact Option.some.inj (he.symm.trans he')

theorem FileTree.types_of_typeOf (hproper : files.Proper) (hs : s.AtRest files options) {p : Path}
    {d : Declaration} (hd : s.At p (Store.Keeping d)) {e : Expr}
    (heval : (files.typeOf p d).eval s = (.ok e, s')) : s'.At p (Module.Types d.name e) := by
  rw [← FileTree.typeOfBy_tableOf] at heval
  cases hparsed : d.parsed with
  | some e' =>
      rw [FileTree.eval_typeOfBy_of_some hparsed, Prod.mk.injEq, Except.ok.injEq] at heval
      obtain ⟨rfl, rfl⟩ := heval
      obtain ⟨m, hm, -, hlocal⟩ := hd
      exact ⟨m, hm, d, hlocal, hparsed⟩
  | none =>
      rcases hwork : Query.eval (Query.ofExcept d.written >>= fun w =>
        w.resolve (files.scope p)) s with ⟨r, s₁⟩
      rw [FileTree.eval_typeOfBy_of_none hparsed (T := files.tableOf) hwork] at heval
      cases r with
      | error cause => simp [Store.endTyping] at heval
      | ok e' =>
          simp only [Store.endTyping, Prod.mk.injEq, Except.ok.injEq] at heval
          obtain ⟨rfl, rfl⟩ := heval
          obtain ⟨w, -, hresolve⟩ := Query.eval_bind_ofExcept_ok hwork
          have hstill := (Store.keptByImports_keeping p d).keeps_written hproper p w s ⟨hs, hd⟩
          rw [hresolve] at hstill
          obtain ⟨m, hm, -, hlocal⟩ := hstill.2
          refine ⟨_, Store.module?_updateModule_self _ hm, { d with parsed := some e' }, ?_, rfl⟩
          rw [Module.setParsed, OrderedMap.get?_modify, if_pos rfl, hlocal]
          rfl

theorem FileTree.types_of_resolve (hproper : files.Proper) (hs : s.AtRest files options)
    {file : Path} {name : String} {r : Resolved}
    (heval : (files.resolve file name).eval s = (.ok r, s')) :
    files.IsKey r.identity.file ∧ s'.At r.identity.file (Module.Types r.identity.name r.type) := by
  obtain ⟨key, s₁, hload, heval⟩ := Query.eval_bind_eq_ok heval
  obtain ⟨a, s₂, hexport, heval⟩ := Query.eval_bind_eq_ok heval
  obtain ⟨owner, s₃, hload', heval⟩ := Query.eval_bind_eq_ok heval
  obtain ⟨d, s₄, hdeclaration, heval⟩ := Query.eval_bind_eq_ok heval
  obtain ⟨e, s₅, htype, heval⟩ := Query.eval_bind_eq_ok heval
  rw [Query.eval_pure, Prod.mk.injEq, Except.ok.injEq] at heval
  obtain ⟨rfl, rfl⟩ := heval
  have hkept : Store.KeptByRequests files options (Store.AtRest files options) :=
    closed_atRest.requests hproper
  have hs₁ := hs.of_load hload
  have hkey := isKey_of_exportedBy hproper hs₁ hexport
  have hs₂ := hkept.keeps_exportNamed key name s₁ ⟨hs₁, hs₁⟩
  rw [hexport] at hs₂
  have hs₃ : s₃.AtRest files options := hs₂.1.of_load hload'
  have howner := FileTree.key_of_load hload'
  obtain ⟨hkeeping, hname⟩ := hs₃.keeping_declarationOf howner hdeclaration
  have hs₄ := hkept.keeps_declarationOf hproper a s₃ ⟨hs₃, hs₃⟩
  rw [hdeclaration] at hs₄
  have htypes := FileTree.types_of_typeOf hproper hs₄.1 hkeeping htype
  rw [hname, hkey.eq_of_key hproper howner] at htypes
  exact ⟨hkey, htypes⟩

/-! ## Points of a run -/

theorem Store.After.resolve (h : s.After files s₁) {file : Path} {name : String} {r : Resolved}
    (heval : (files.resolve file name).eval s₁ = (.ok r, s')) : s.After files s' := by
  have hperform : ((Request.resolve file name).perform files).eval s₁ = (.ok (), s') :=
    (Query.eval_bind_ok heval).trans (Query.eval_pure () s')
  have hafter := h.request (.resolve file name)
  rwa [hperform] at hafter

theorem Store.After.trans (h : s.After files s₁) (h' : s₁.After files s') : s.After files s' := by
  induction h' with
  | here => exact h
  | request _ r ih => exact ih.request r

theorem Store.Session.keepsStable (hproper : files.Proper) (hs : s.Session files options)
    (h : s.After files s') : s'.AtRestWith files options fun s' =>
      s.Stable s' ∧ s'.All fun _ m => m.TypedKept :=
  (keptByRequests_stable s).after hproper h ⟨hs.atRest hproper, .refl s, hs.typedKept hproper⟩

/--
What has been found out stays, whatever is asked later and whether it fails or not, at every moment
of every request: modules, kept tables with the declarations of their modules, imports and types.
So wherever and by whatever name a type is resolved a second time, it is the same.
-/
theorem answers_stable (hproper : files.Proper) (hs : s.Session files options) :
    (∀ s', s.After files s' → s.Stable s' ∧
      ∀ r stack s₁, Request.Moment files r s' stack s₁ → s.Stable s₁) ∧
    ∀ file name r s₁, (files.resolve file name).eval s = (.ok r, s₁) →
      ∀ s₂, s₁.After files s₂ → ∀ file' name' r' s₃,
        (files.resolve file' name').eval s₂ = (.ok r', s₃) →
        r.identity.same r'.identity → r.type = r'.type := by
  refine ⟨fun s' h => ⟨(hs.keepsStable hproper h).2.1, ?_⟩, ?_⟩
  · rintro r stack s₁ ⟨p, s₀, hasks, hduring⟩
    obtain ⟨hrest, hstable, htyped⟩ :=
      hasks.atRestWith (keptByRequests_stable s) hproper (hs.keepsStable hproper h)
    exact hstable.trans ((hduring.rescanned hrest.running (by simp)).stable htyped)
  · intro file name r s₁ heval s₂ h file' name' r' s₃ heval' hsame
    have hs₁ : s₁.Session files options := Store.After.resolve hs heval
    have hs₂ : s₂.Session files options := Store.After.trans hs₁ h
    obtain ⟨hkey, htypes⟩ := FileTree.types_of_resolve hproper (hs.atRest hproper) heval
    obtain ⟨hkey', htypes'⟩ := FileTree.types_of_resolve hproper (hs₂.atRest hproper) heval'
    rw [← Identity.eq_of_same hproper hkey hkey' hsame] at htypes'
    exact (htypes.stable (hs₁.keepsStable hproper (h.resolve heval')).2.1).types_unique htypes'

def twoNames : FileTree := .ofTexts
  [("a.d.ts", "export interface A \x7b x: B; \x7d\nexport type B = string;\n"),
   ("b.d.ts", "export \x7b A as C \x7d from './a.js';\n"),
   ("c.d.ts", "export * from './missing.js';\n")]

set_option maxRecDepth 100000 in
theorem answers_stable_twoNames : ∃ s s₁ s₂ s₃ r r', s.Session twoNames .standard ∧
    (twoNames.resolve ⟨"a.d.ts"⟩ "A").eval s = (.ok r, s₁) ∧
    (((Request.exports ⟨"c.d.ts"⟩).perform twoNames).eval s₁).1 =
      .error (.inFile ⟨"/w/c.d.ts"⟩ (.fileNotFound ⟨"/w/missing.d.ts"⟩)) ∧
    s₁.After twoNames s₂ ∧ s₁.Stable s₂ ∧
    (twoNames.resolve ⟨"b.d.ts"⟩ "C").eval s₂ = (.ok r', s₃) ∧
    r.identity = ⟨⟨"/w/a.d.ts"⟩, "A", false⟩ ∧ r'.identity = ⟨⟨"/w/a.d.ts"⟩, "A", false⟩ ∧
    r.type = r'.type := by
  let s := Store.ofOptions .standard
  let first := (twoNames.resolve ⟨"a.d.ts"⟩ "A").eval s
  let failed := ((Request.exports ⟨"c.d.ts"⟩).perform twoNames).eval first.2
  let second := (twoNames.resolve ⟨"b.d.ts"⟩ "C").eval failed.2
  have hidentity : ∀ x ∈ [first, second],
      ∃ r, x = (.ok r, x.2) ∧ r.identity = ⟨⟨"/w/a.d.ts"⟩, "A", false⟩ := by
    have hall : ∀ x ∈ [first, second],
        (x.1.toOption.any fun r => r.identity == ⟨⟨"/w/a.d.ts"⟩, "A", false⟩) = true := by
      decide +kernel
    rintro ⟨x, t⟩ hx
    have hany := hall _ hx
    cases x with
    | error e => simp [Except.toOption] at hany
    | ok r => exact ⟨r, rfl, by simpa [Except.toOption] using hany⟩
  have hproper : twoNames.Proper := FileTree.proper_ofTexts _
  have hs : s.Session twoNames .standard := .here
  obtain ⟨r, hr, hid⟩ := hidentity first (by simp)
  obtain ⟨r', hr', hid'⟩ := hidentity second (by simp)
  have hs₁ : first.2.Session twoNames .standard := Store.After.resolve hs hr
  have hafter : first.2.After twoNames failed.2 := .request .here (.exports ⟨"c.d.ts"⟩)
  obtain ⟨-, htypes⟩ := answers_stable hproper hs
  obtain ⟨hstable, -⟩ := answers_stable hproper hs₁
  refine ⟨s, first.2, failed.2, second.2, r, r', hs, hr, by decide +kernel, hafter,
    (hstable _ hafter).1, hr', hid, hid', ?_⟩
  exact htypes _ _ r _ hr _ hafter _ _ r' _ hr' (by rw [hid, hid']; decide)

end Typings
