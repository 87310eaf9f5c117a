import Typings.Proofs.Bookkeeping
import Typings.Proofs.Mentions
import Typings.Proofs.Statements

/-!
# No type is invented

Every type that a table, a map or an expression of a store names is declared by a statement of a
loaded module, and every table lists types under their own names only.  So it is at all moments of
all requests, those of scans that fail included.
-/

namespace Typings

open ExportScan ScanStep

variable {files : FileTree} {options : ResolverOptions} {stack : List Path} {s s' s₁ : Store}

/-! ## Tables and modules -/

structure ExportTable.Within (A : Identity → Prop) (t : ExportTable) : Prop where
  names : ∀ e ∈ t.names.entries, e.1 = e.2.name ∧ A e.2
  default : ∀ a ∈ t.defaultExport, A a

namespace ExportTable.Within

variable {A B : Identity → Prop} {t u : ExportTable}

theorem mono (hAB : ∀ a, A a → B a) (h : t.Within A) : t.Within B :=
  ⟨fun e he => ⟨(h.names e he).1, hAB _ (h.names e he).2⟩, fun a ha => hAB a (h.default a ha)⟩

theorem empty : ExportTable.empty.Within A := ⟨fun _ he => (by cases he), fun _ ha => (by cases ha)⟩

theorem setDefault (h : t.Within A) {a : Identity} (ha : A a) : (t.setDefault a).Within A :=
  { h with default := by rintro _ ⟨rfl⟩; exact ha }

theorem add (h : t.Within A) {a : Identity} (ha : A a) : (t.add a).Within A := by
  refine ⟨fun e he => ?_, fun b hb => ?_⟩
  · rcases OrderedMap.mem_entries_insert he with rfl | he
    · exact ⟨rfl, ha⟩
    · exact h.names e he
  · simp only [ExportTable.add] at hb
    split at hb
    · obtain rfl := Option.mem_some_iff.1 hb
      exact ha
    · exact h.default b hb

theorem addBinding (h : t.Within A) (b : Binding) {a : Identity} (ha : A a) :
    (t.addBinding b a).Within A := by
  unfold ExportTable.addBinding
  split
  · exact (h.setDefault ha).add ha
  · exact h.add ha

theorem merge (h : t.Within A) (hu : u.Within A) : (t.merge u).Within A := by
  refine ⟨fun e he => ?_, fun a ha => ?_⟩
  · rcases OrderedMap.mem_entries_merge he with he | he
    · exact h.names e he
    · exact hu.names e he
  · rcases Option.or_eq_some_iff.1 ha with ha | ⟨-, ha⟩
    · exact h.default a ha
    · exact hu.default a ha

theorem of_get? (h : t.Within A) {name : String} {a : Identity} (ha : t.get? name = some a) :
    A a := by
  unfold ExportTable.get? at ha
  split at ha
  · exact h.default a ha
  · exact (h.names _ (OrderedMap.mem_entries_of_get? ha)).2

end ExportTable.Within

namespace Module

/-- The types that the module knows in any way are in `A`. -/
structure Within (A : Identity → Prop) (m : Module) : Prop where
  exports : ∀ t ∈ m.exports, t.Within A
  pending : ∀ w ∈ m.pending, w.table.Within A
  imports : ∀ found ∈ m.imports, ∀ e ∈ found.entries, A e.2
  aliases : ∀ e ∈ m.aliases.entries, A e.2
  locals : ∀ e ∈ m.locals.entries, A e.2.identity ∧ ∀ x ∈ e.2.parsed, x.Within A

def Declares (a : Identity) (m : Module) : Prop :=
  ∃ st ∈ m.statements, ∃ h, st.meaning = .ok (.declaration h) ∧ h.name = a.name ∧
    h.isDefault = a.isDefault

namespace Within

variable {A B : Identity → Prop} {m : Module} {p : Path}

theorem mono (hAB : ∀ a, A a → B a) (h : m.Within A) : m.Within B where
  exports t ht := (h.exports t ht).mono hAB
  pending w hw := (h.pending w hw).mono hAB
  imports found hfound e he := hAB _ (h.imports found hfound e he)
  aliases e he := hAB _ (h.aliases e he)
  locals e he := ⟨hAB _ (h.locals e he).1, fun x hx => ((h.locals e he).2 x hx).mono hAB⟩

theorem ofText (p : Path) (text : List Char) (stripComments : Bool) :
    (Module.ofText p text stripComments).Within A where
  exports _ ht := by cases ht
  pending _ hw := by cases hw
  imports _ hfound := by cases hfound
  aliases _ he := by cases he
  locals _ he := by cases he

theorem table (h : m.Within A) : m.table.Within A := by
  unfold Module.table
  cases hw : m.pending with
  | none => exact .empty
  | some w => exact h.pending w hw

theorem beginScan (h : m.Within A) (d : Nat) : (m.beginScan d).Within A :=
  { h with
    pending := by rintro _ ⟨rfl⟩; exact .empty
    locals := fun _ he => by cases he }

theorem endScan (h : m.Within A) : m.endScan.Within A := { h with pending := fun _ hw => by cases hw }

theorem keep (h : m.Within A) {t : ExportTable} (ht : t.Within A) : (m.keep t).Within A :=
  { h with exports := by rintro _ ⟨rfl⟩; exact ht }

theorem addAlias (h : m.Within A) (name : String) {a : Identity} (ha : A a) :
    (m.addAlias name a).Within A :=
  { h with
    aliases := fun e he => by
      rcases OrderedMap.mem_entries_insert he with rfl | he
      · exact ha
      · exact h.aliases e he }

theorem rename (h : m.Within A) (b : Binding) {a : Identity} (ha : A a) :
    (m.rename b a).Within A := by
  unfold Module.rename
  split
  · exact h.addAlias _ ha
  · exact h

theorem updatePending (h : m.Within A) {f : ExportTable → ExportTable}
    (hf : ∀ t, t.Within A → (f t).Within A) : (m.updatePending f).Within A :=
  { h with
    pending := fun w hw => by
      obtain ⟨w', hw', rfl⟩ := Option.map_eq_some_iff.1 hw
      exact hf _ (h.pending w' hw') }

theorem addTaken (h : m.Within A) (b : Binding) {a : Identity} (ha : A a) :
    (m.addTaken b a).Within A :=
  (h.rename b ha).updatePending fun _ ht => ht.addBinding b ha

theorem declare (h : m.Within A) (st : Statement) {hd : Head} (ha : A (hd.identity p)) :
    (m.declare p st hd).Within A := by
  have hadded : (m.addLocal (hd.declaration p st)).Within A :=
    { h with
      locals := fun e he => by
        rcases OrderedMap.mem_entries_insert he with rfl | he
        · exact ⟨ha, fun _ hx => by cases hx⟩
        · exact h.locals e he }
  unfold Module.declare
  split
  · exact hadded.updatePending fun _ ht => ht.add ha
  · exact hadded

theorem change (h : m.Within A) {l : LocalStep} {f : Module → Module}
    (hf : l.change p m = .ok f) (hdeclare : ∀ st hd, l = .declare st hd → A (hd.identity p)) :
    (f m).Within A := by
  cases l with
  | fail cause => cases hf
  | remark st r =>
      obtain rfl := Except.ok.inj hf
      exact { h with }
  | declare st hd =>
      obtain rfl := Except.ok.inj hf
      exact h.declare st (hdeclare st hd rfl)
  | promote st name =>
      simp only [LocalStep.change] at hf
      split at hf
      · cases hf
      · next d hd =>
          obtain rfl := Except.ok.inj hf
          have hlocal := OrderedMap.mem_entries_of_get? (Option.filter_eq_some_iff.1 hd).1
          exact h.updatePending fun _ ht => ht.setDefault (h.locals _ hlocal).1
  | list b =>
      simp only [LocalStep.change] at hf
      split at hf
      · cases hf
      · next found hfound =>
          obtain rfl := Except.ok.inj hf
          obtain ⟨d, hd, rfl⟩ := Option.map_eq_some_iff.1 hfound
          have ha := (h.locals _ (OrderedMap.mem_entries_of_get? hd)).1
          exact (h.rename b ha).updatePending fun _ ht => ht.add ha

theorem lookupExport (h : m.Within A) {t : ExportTable} (ht : t.Within A) {name : String}
    {a : Identity} (hfound : m.lookupExport t name = .ok a) : A a := by
  unfold Module.lookupExport at hfound
  split at hfound
  · next b hb =>
      obtain rfl := Except.ok.inj hfound
      exact ht.of_get? hb
  · split at hfound
    · cases hfound
    · next b hb =>
        split at hfound
        · obtain rfl := Except.ok.inj hfound
          exact h.aliases _ (OrderedMap.mem_entries_of_get? hb)
        · cases hfound

theorem setParsed (h : m.Within A) (name : String) {e : Expr} (he : e.Within A) :
    (m.setParsed name e).Within A :=
  { h with
    locals := fun entry hentry => by
      rcases OrderedMap.mem_entries_modify hentry with hentry | ⟨d, hd, rfl⟩
      · exact h.locals entry hentry
      · refine ⟨(h.locals _ hd).1, ?_⟩
        rintro _ ⟨rfl⟩
        exact he }

end Within

end Module

/-! ## Stores -/

namespace Store

/-- The file of the type is loaded, and a statement of its module declares the type. -/
def Declares (s : Store) (a : Identity) : Prop := s.At a.file (Module.Declares a)

/-- The modules know declared types only. -/
def Grounded (s : Store) : Prop := s.All fun _ m => m.Within s.Declares

def KeepsStatements (s s' : Store) : Prop :=
  ∀ q m, s.module? q = some m → ∃ m', s'.module? q = some m' ∧ m'.statements = m.statements

theorem KeepsStatements.declares (h : s.KeepsStatements s') {a : Identity} (ha : s.Declares a) :
    s'.Declares a := by
  obtain ⟨m, hm, hdeclares⟩ := ha
  obtain ⟨m', hm', hstatements⟩ := h _ m hm
  exact ⟨m', hm', by rwa [Module.Declares, hstatements]⟩

theorem Evolves.keepsStatements {own : List Path} (h : s.Evolves own s') :
    s.KeepsStatements s' := by
  intro q m hm
  obtain ⟨m', hm', he⟩ := h.loaded q m hm
  exact ⟨m', hm', he.statements_eq⟩

theorem keepsStatements_updateModule (s : Store) {p : Path} {f : Module → Module}
    (hf : ∀ m, s.module? p = some m → (f m).statements = m.statements) :
    s.KeepsStatements (s.updateModule p f) := by
  intro q m hm
  by_cases hq : q = p
  · subst hq
    exact ⟨f m, module?_updateModule_self f hm, hf m hm⟩
  · exact ⟨m, by rw [module?_updateModule_of_ne f hq, hm], rfl⟩

namespace Grounded

theorem updateModule (h : s.Grounded) {p : Path} {f : Module → Module}
    (hstatements : ∀ m, s.module? p = some m → (f m).statements = m.statements)
    (hf : ∀ m, s.module? p = some m → m.Within s.Declares → (f m).Within s.Declares) :
    (s.updateModule p f).Grounded := by
  have hknown : ∀ a, s.Declares a → (s.updateModule p f).Declares a := fun a ha =>
    (s.keepsStatements_updateModule hstatements).declares ha
  have hall : (s.updateModule p f).All fun _ m => m.Within s.Declares :=
    Store.All.updateModule h fun m hm => hf m hm (h p m hm)
  exact fun q m hm => (hall q m hm).mono hknown

theorem load (h : s.Grounded) {p : Path} {r : Except Error Path} (hl : files.Loads p s r s') :
    s'.Grounded := by
  have hknown : ∀ a, s.Declares a → s'.Declares a := fun a ha => hl.evolves.keepsStatements.declares ha
  intro q m hm
  cases hl with
  | missing => exact h q m hm
  | present => exact h q m hm
  | unreadable => exact h q m hm
  | read =>
      rw [module?_addModule] at hm
      split at hm
      · obtain rfl := Option.some.inj hm
        exact .ofText _ _ _
      · exact (h q m hm).mono hknown

theorem beginScan (h : s.Grounded) (p : Path) : (s.beginScan p).Grounded :=
  Grounded.updateModule (s := s.enterScan) h (fun _ _ => rfl) fun _ _ hm => hm.beginScan _

theorem endScan (h : s.Grounded) (p : Path) (d : Nat) : (s.endScan p d).Grounded :=
  show (s.updateModule p Module.endScan).Grounded from
    h.updateModule (fun _ _ => rfl) fun _ _ hm => hm.endScan

theorem keep (h : s.Grounded) {p : Path} {t : ExportTable} (ht : t.Within s.Declares) :
    (s.updateModule p (·.keep t)).Grounded :=
  h.updateModule (fun _ _ => rfl) fun _ _ hm => hm.keep ht

end Grounded

end Store

/-! ## Asking for a table -/

def TableOf.Grounds (files : FileTree) (options : ResolverOptions) (T : TableOf) : Prop :=
  ∀ {q stack s s' r}, Store.Running files options stack s → (∀ p ∈ stack, files.Leads options p q) →
    s.Grounded → (T q).eval s = (r, s') → s'.Grounded ∧ ∀ t, r = .ok t → t.Within s'.Declares

theorem Store.Running.declares (h : s.Running files options stack) {p : Path} {m : Module}
    (hm : s.module? p = some m) {st : Statement} {hd : Head}
    (hi : .own (.declare st hd) ∈ files.scanSteps options p) : s.Declares (hd.identity p) := by
  obtain ⟨st', hst', hgives⟩ := FileTree.mem_scanSteps.1 hi
  cases hgives with
  | declare hmeaning =>
      have hfile := h.isFile p m hm
      simp only [FileTree.exportStatements, hfile.read_eq, ← hfile.statements_eq] at hst'
      exact ⟨m, hm, st, (List.mem_filter.1 hst').1, hd, hmeaning, rfl, rfl⟩

namespace ScanStep

theorem Effect.grounded {T : TableOf} (hT : T.Grounds files options) {p : Path} {i : ScanStep}
    {r : Except Error Unit} (h : s.Running files options (p :: stack))
    (hi : i ∈ files.scanSteps options p) (hs : s.Grounded) (he : Effect files T p i s r s') :
    s'.Grounded := by
  have hask : ∀ {q r s'}, files.Asks options p q → (T q).eval s = (r, s') →
      s'.Grounded ∧ ∀ t, r = .ok t → t.Within s'.Declares := fun hasks heval =>
    hT h (h.leads_of_asks hasks) hs heval
  cases he with
  | changed hm hf =>
      refine hs.updateModule (fun m' hm' => ?_) fun m' hm' hwithin => ?_
      · obtain rfl := Option.some.inj (hm.symm.trans hm')
        exact (LocalStep.evolves_change hf).1.statements_eq
      · obtain rfl := Option.some.inj (hm.symm.trans hm')
        refine hwithin.change hf ?_
        rintro st hd rfl
        exact h.declares hm hi
  | refused => exact hs
  | visited hl => exact hs.load (FileTree.loads hl)
  | unvisited hl => exact hs.load (FileTree.loads hl)
  | merged hl =>
      obtain ⟨hs₁, htaken⟩ := hask (FileTree.asks_of_merge hi) hl
      exact hs₁.updateModule (fun _ _ => rfl) fun _ _ hwithin =>
        hwithin.updatePending fun _ ht => ht.merge (htaken _ rfl)
  | unmerged hl => exact (hask (FileTree.asks_of_merge hi) hl).1
  | taken hl hm hfound =>
      obtain ⟨hs₁, htable⟩ := hask (FileTree.asks_of_take hi) hl
      have hdeclared := (hs₁ _ _ hm).lookupExport (htable _ rfl) hfound
      exact hs₁.updateModule (fun m _ => (m.evolves_addTaken _ _).1.statements_eq)
        fun _ _ hwithin => hwithin.addTaken _ hdeclared
  | notFound hl _ _ => exact (hask (FileTree.asks_of_take hi) hl).1
  | lost hl _ => exact (hask (FileTree.asks_of_take hi) hl).1
  | untaken hl => exact (hask (FileTree.asks_of_take hi) hl).1

theorem Performs.grounded {T : TableOf} (htame : T.Tame files options)
    (hT : T.Grounds files options) {p : Path} {is : List ScanStep} {r : Except Error Unit}
    (he : Performs files T p is s r s') (h : s.Running files options (p :: stack))
    (his : ∀ i ∈ is, i ∈ files.scanSteps options p) (hs : s.Grounded) : s'.Grounded := by
  induction he with
  | done s => exact hs
  | step head _ ih =>
      rw [List.forall_mem_cons] at his
      exact ih (head.running htame h his.1).1 his.2 (head.grounded hT h his.1 hs)
  | stop head =>
      rw [List.forall_mem_cons] at his
      exact head.grounded hT h his.1 hs

end ScanStep

namespace ExportScan

theorem Answered.grounded {n : Nat} (hT : ∀ k < n, (tableOf files k).Grounds files options)
    {p : Path} {r : Except Error ExportTable} (he : Answered files n p s r s')
    (h : s.Running files options stack) (hleads : ∀ q ∈ stack, files.Leads options q p)
    (hs : s.Grounded) : s'.Grounded ∧ ∀ t, r = .ok t → t.Within s'.Declares := by
  have hscan : ∀ {k m s₁ r}, k < n → s.module? p = some m → m.exports = none → m.pending = none →
      Performs files (tableOf files k) p (m.scanSteps files s.options p) (s.beginScan p) r s₁ →
      s₁.Grounded := by
    intro k m s₁ r hk hm ht hw steps
    rw [h.scanSteps_eq hm] at steps
    exact steps.grounded (tame_tableOf k) (hT k hk) (h.beginScan hm ht hw hleads) (fun i hi => hi)
      (hs.beginScan p)
  have hended : ∀ {s₁ : Store} {t : ExportTable}, t.Within s₁.Declares →
      t.Within (s₁.endScan p s.depth).Declares := fun ht => ht.mono fun a ha =>
    (Store.keepsStatements_updateModule _ (f := Module.endScan) fun _ _ => rfl).declares ha
  cases he with
  | unloaded => exact ⟨hs, fun t ht => by cases ht⟩
  | kept hm hkept =>
      refine ⟨hs, ?_⟩
      rintro _ ⟨rfl⟩
      exact (hs p _ hm).exports _ hkept
  | unfinished hm _ hw =>
      refine ⟨hs, ?_⟩
      rintro _ ⟨rfl⟩
      exact (hs p _ hm).pending _ hw
  | exhausted => exact ⟨hs, fun t ht => by cases ht⟩
  | failed hm ht hw steps =>
      exact ⟨(hscan (Nat.lt_succ_self _) hm ht hw steps).endScan p _, fun t ht => by cases ht⟩
  | incomplete hm ht hw steps hm₁ _ =>
      have hs₁ := hscan (Nat.lt_succ_self _) hm ht hw steps
      refine ⟨hs₁.endScan p _, ?_⟩
      rintro _ ⟨rfl⟩
      exact hended (hs₁ p _ hm₁).table
  | completed hm ht hw steps hm₁ _ =>
      have hs₁ := hscan (Nat.lt_succ_self _) hm ht hw steps
      have htable := hended (hs₁ p _ hm₁).table
      refine ⟨(hs₁.endScan p _).keep htable, ?_⟩
      rintro _ ⟨rfl⟩
      exact htable.mono fun a ha => (Store.keepsStatements_updateModule _ (f := (·.keep _))
        fun _ _ => rfl).declares ha

theorem grounds_tableOf (n : Nat) : (tableOf files n).Grounds files options := by
  induction n using Nat.strongRecOn with
  | ind n ih =>
      intro q stack s s' r h hleads hs heval
      exact (answered heval).grounded ih h hleads hs

theorem During.grounded {n : Nat} {v : Path} {inner : List Path}
    (hd : During files n v s inner s') (h : s.Running files options stack)
    (hleads : ∀ r ∈ stack, files.Leads options r v) (hs : s.Grounded) : s'.Grounded := by
  refine hd.keeps (fun h hleads hs => (grounds_tableOf _ h hleads hs rfl).1) ?_ h hleads hs
  intro n v m done stack s s' r h hleads hm ht hw hdone hperforms hs
  exact hperforms.grounded (tame_tableOf n) (grounds_tableOf n) (h.beginScan hm ht hw hleads) hdone
    (hs.beginScan v)

end ExportScan

/-! ## Requests -/

namespace Store

theorem keptByRequests_declares (a : Identity) :
    KeptByRequests files options (·.Declares a) where
  load p _ h := (files.eval_load p _).evolves.keepsStatements.declares h
  ask p _ hs h := (tame_tableOf _ hs.running (by simp) rfl).2.keepsStatements.declares h
  note _ _ _ h := h.updateModule fun _ hm => hm
  rename _ _ _ _ _ _ _ h := h.updateModule fun _ hm => hm
  imports _ _ _ _ _ _ h _ := h.updateModule fun _ hm => hm
  parsed _ _ _ _ _ _ _ h _ := h.updateModule fun _ hm => hm

theorem Grounded.exportNamed (hs : s.AtRest files options) (h : s.Grounded) {q : Path}
    {name : String} {found : Identity}
    (heval : (files.exportNamed q name).eval s = (.ok found, s')) : s'.Declares found := by
  obtain ⟨t, s₁, htable, heval⟩ := Query.eval_bind_eq_ok heval
  obtain ⟨m, s₂, hm, heval⟩ := Query.eval_bind_eq_ok heval
  obtain ⟨hs₁, ht⟩ := grounds_tableOf _ hs.running (by simp) h htable
  obtain ⟨hmodule, rfl⟩ := Query.module?_of_current hm
  rw [Query.eval_ofExcept, Prod.mk.injEq] at heval
  obtain ⟨hfound, rfl⟩ := heval
  exact (hs₁ q m hmodule).lookupExport (ht t rfl) hfound

theorem keptByBindings_grounded : KeptByBindings files options (fun _ => True) Grounded where
  load p _ h := h.load (files.eval_load p _)
  ask p _ hs h := (grounds_tableOf _ hs.running (by simp) h rfl).1
  note _ _ _ h := h.updateModule (fun _ _ => rfl) fun _ _ hm => { hm with }
  rename _ _ _ hs h heval _ h' := h'.updateModule (fun _ _ => rfl) fun _ _ hm =>
    hm.addAlias _ (h.exportNamed hs heval)

end Store

theorem ImportStep.declares_performAll (hproper : files.Proper) {p : Path}
    {steps : List ImportStep} (hsteps : ∀ i ∈ steps, i ∈ files.importSteps options p)
    {found found' : OrderedMap String Identity} (hs : s.AtRestWith files options Store.Grounded)
    (hfound : ∀ e ∈ found.entries, s.Declares e.2)
    (heval : (performAll files files.tableOf p steps found).eval s = (.ok found', s')) :
    ∀ e ∈ found'.entries, s'.Declares e.2 := by
  induction steps generalizing found s with
  | nil =>
      rw [performAll, List.foldlM_nil, Query.eval_pure, Prod.mk.injEq, Except.ok.injEq] at heval
      obtain ⟨rfl, rfl⟩ := heval
      exact hfound
  | cons i steps ih =>
      rw [List.forall_mem_cons] at hsteps
      rw [performAll, List.foldlM_cons] at heval
      obtain ⟨found₁, s₁, hstep, heval⟩ := Query.eval_bind_eq_ok heval
      have hs₁ := Store.keptByBindings_grounded.keeps_step hproper trivial hsteps.1 found s hs
      have hknown : ∀ a, s.Declares a → s₁.Declares a := by
        intro a ha
        have hkept := (Store.keptByRequests_declares a).keeps_step hproper trivial hsteps.1 found s
          ⟨hs.1, ha⟩
        rw [hstep] at hkept
        exact hkept.2
      rw [hstep] at hs₁
      refine ih hsteps.2 hs₁ (fun e he => ?_) heval
      obtain ⟨rfl, -⟩ | ⟨q, b, a, s₂, rfl, hexported, rfl, rfl⟩ := perform_eq_ok hstep
      · exact hknown _ (hfound e he)
      · rcases OrderedMap.mem_entries_insert he with rfl | he
        · exact (s₂.keepsStatements_updateModule fun m _ =>
            (m.evolves_rename b a).1.statements_eq).declares (hs.2.exportNamed hs.1 hexported)
        · exact hknown _ (hfound e he)

namespace Store

theorem keptByImports_grounded (hproper : files.Proper) :
    KeptByImports files options (fun _ => True) Grounded where
  toKeptByBindings := keptByBindings_grounded
  imports _ hs h _ heval _ h' _ := by
    refine h'.updateModule (fun _ _ => rfl) fun m _ hm => { hm with imports := ?_ }
    rintro _ ⟨rfl⟩
    exact ImportStep.declares_performAll hproper (fun _ hi => hi) ⟨hs, h⟩
      (fun _ he => by cases he) heval

end Store

theorem Store.Grounded.lookup (hproper : files.Proper) (hs : s.AtRestWith files options Grounded)
    {p : Path} {name : String} {a : Identity}
    (heval : (files.lookup p name).eval s = (.ok (some a), s')) : s'.Declares a := by
  obtain ⟨m, s₀, hcurrent, heval⟩ := Query.eval_bind_eq_ok heval
  obtain ⟨hm, rfl⟩ := Query.module?_of_current hcurrent
  split at heval
  · next hlocal =>
      rw [Query.eval_pure, Prod.mk.injEq, Except.ok.injEq] at heval
      obtain ⟨⟨rfl⟩, rfl⟩ := heval
      obtain ⟨d, hd, rfl⟩ := Option.map_eq_some_iff.1 hlocal
      exact ((hs.2 p m hm).locals _ (OrderedMap.mem_entries_of_get? hd)).1
  · obtain ⟨found, s₁, himports, heval⟩ := Query.eval_bind_eq_ok heval
    obtain ⟨m₁, hm₁, hfound⟩ := FileTree.kept_of_imports hproper hs.1 himports
    have hs₁ := (keptByImports_grounded hproper).keeps_imports (p := p) hproper trivial s hs
    rw [himports] at hs₁
    split at heval
    · next hname =>
        rw [Query.eval_pure, Prod.mk.injEq, Except.ok.injEq] at heval
        obtain ⟨⟨rfl⟩, rfl⟩ := heval
        exact (hs₁.2 p m₁ hm₁).imports found hfound _ (OrderedMap.mem_entries_of_get? hname)
    · obtain ⟨t, s₂, htable, heval⟩ := Query.eval_bind_eq_ok heval
      rw [Query.eval_pure, Prod.mk.injEq, Except.ok.injEq] at heval
      obtain ⟨hname, rfl⟩ := heval
      obtain ⟨-, ht⟩ := grounds_tableOf _ hs₁.1.running (by simp) hs₁.2 htable
      exact ((ht t rfl).names _ (OrderedMap.mem_entries_of_get? hname)).2

theorem FileTree.yields_scope (hproper : files.Proper) (p : Path) :
    (files.scope p).Yields (Store.AtRestWith files options Store.Grounded) Store.Declares := by
  refine fun name s hs => ⟨?_, fun a ha => ?_, fun found hfound a ha => ?_⟩
  · exact (Store.keptByImports_grounded hproper).keeps_lookup hproper p name s hs
  · exact ((Store.keptByRequests_declares a).keeps_lookup hproper p name s ⟨hs.1, ha⟩).2
  · obtain rfl : found = some a := ha
    exact Store.Grounded.lookup hproper hs (Prod.ext hfound rfl)

theorem Store.keptByRequests_grounded (hproper : files.Proper) :
    KeptByRequests files options Grounded where
  toKeptByImports := keptByImports_grounded hproper
  parsed hs h _ _ _ heval _ h' _ := by
    obtain ⟨-, -, hgives⟩ := Declaration.Written.yields_resolve
      (FileTree.yields_scope hproper _) _ ⟨hs, h⟩
    have he := hgives _ (congrArg Prod.fst heval)
    rw [heval] at he
    exact h'.updateModule (fun _ _ => rfl) fun _ _ hm => hm.setParsed _ he

/--
Whatever was asked and whatever failed, all types that tables, maps and expressions name are declared
in loaded modules, and tables list them under their own names.  It is so at every moment of every
request.
-/
theorem identities_declared (hproper : files.Proper) (hs : s.Session files options) :
    s.Grounded ∧ ∀ r stack s', Request.Moment files r s stack s' → s'.Grounded := by
  have hkept : Store.KeptByRequests files options Store.Grounded :=
    Store.keptByRequests_grounded hproper
  obtain ⟨hrest, hgrounded⟩ : s.AtRestWith files options Store.Grounded :=
    hkept.after hproper hs ⟨.fresh, fun _ _ hm => by cases hm⟩
  refine ⟨hgrounded, ?_⟩
  rintro r stack s' ⟨p, s₁, hasks, hduring⟩
  obtain ⟨hrest₁, hgrounded₁⟩ := hasks.atRestWith hkept hproper ⟨hrest, hgrounded⟩
  exact hduring.grounded hrest₁.running (by simp) hgrounded₁

def importedDefault : FileTree := .ofTexts
  [("a.d.ts", "import B, \x7b C as D \x7d from './b.js';\nexport type A = B | D;\n"),
   ("b.d.ts", "export default interface B \x7b \x7d\nexport type C = string;\n"),
   ("c.d.ts", "type E = string;\nexport \x7b E as F \x7d;\nexport \x7b G \x7d from './b.js';\n")]

set_option maxRecDepth 100000 in
theorem identities_declared_importedDefault : ∃ (s : Store) (m m' : Module),
    s.Session importedDefault .standard ∧ s.Grounded ∧
    s.module? ⟨"/w/a.d.ts"⟩ = some m ∧ s.module? ⟨"/w/c.d.ts"⟩ = some m' ∧
    m.imports = some ⟨[("B", ⟨⟨"/w/b.d.ts"⟩, "B", true⟩), ("D", ⟨⟨"/w/b.d.ts"⟩, "C", false⟩)]⟩ ∧
    m'.exports = none ∧ m'.aliases = ⟨[("F", ⟨⟨"/w/c.d.ts"⟩, "E", false⟩)]⟩ ∧
    s.Declares ⟨⟨"/w/b.d.ts"⟩, "B", true⟩ ∧ s.Declares ⟨⟨"/w/c.d.ts"⟩, "E", false⟩ := by
  let a : Path := ⟨"/w/a.d.ts"⟩
  let c : Path := ⟨"/w/c.d.ts"⟩
  let b : Identity := ⟨⟨"/w/b.d.ts"⟩, "B", true⟩
  let e : Identity := ⟨c, "E", false⟩
  let s₁ := (((Request.resolve ⟨"a.d.ts"⟩ "A").perform importedDefault).eval
    (.ofOptions .standard)).2
  let s := (((Request.exports ⟨"c.d.ts"⟩).perform importedDefault).eval s₁).2
  have hs : s.Session importedDefault .standard :=
    .request (.request .here (.resolve ⟨"a.d.ts"⟩ "A")) (.exports ⟨"c.d.ts"⟩)
  have himports : (s.module? a).any (fun m => decide (m.imports = some
      ⟨[("B", b), ("D", ⟨⟨"/w/b.d.ts"⟩, "C", false⟩)]⟩)) = true := by decide +kernel
  have haliases : (s.module? c).any (fun m => decide (m.exports = none ∧
      m.aliases = ⟨[("F", e)]⟩)) = true := by decide +kernel
  simp only [Option.any_eq_true, decide_eq_true_eq] at himports haliases
  obtain ⟨m, hm, hfound⟩ := himports
  obtain ⟨m', hm', hunkept, hnoted⟩ := haliases
  obtain ⟨hgrounded, -⟩ := identities_declared (FileTree.proper_ofTexts _) hs
  refine ⟨s, m, m', hs, hgrounded, hm, hm', hfound, hunkept, hnoted, ?_, ?_⟩
  · exact (hgrounded a m hm).imports _ hfound ("B", b) (List.mem_cons_self ..)
  · exact (hgrounded c m' hm').aliases ("F", e) (by rw [hnoted]; exact List.mem_cons_self ..)

end Typings
