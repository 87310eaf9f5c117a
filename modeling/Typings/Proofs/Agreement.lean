import Typings.Proofs.Settled
import Typings.Proofs.Stems

/-!
# Scans of one file compared

Two scans of a file perform the same steps.  As long as the files that are asked give the same
answers, both scans bind the new names to the same types and come to the same table.
-/

namespace Typings

open ExportScan ScanStep

/-! ## Tables that agree -/

structure ExportTable.Agrees (t u : ExportTable) : Prop where
  names : ∀ n, t.names.get? n = u.names.get? n
  default : t.defaultExport = u.defaultExport

namespace ExportTable.Agrees

variable {t u t' u' : ExportTable}

theorem refl (t : ExportTable) : t.Agrees t := ⟨fun _ => rfl, rfl⟩

theorem setDefault (h : t.Agrees u) (a : Identity) : (t.setDefault a).Agrees (u.setDefault a) :=
  ⟨h.names, rfl⟩

theorem add (h : t.Agrees u) (a : Identity) : (t.add a).Agrees (u.add a) := by
  constructor
  · intro n
    rw [get?_add, get?_add, h.names]
  · simp only [ExportTable.add, h.default]

theorem addBinding (h : t.Agrees u) (b : Binding) (a : Identity) :
    (t.addBinding b a).Agrees (u.addBinding b a) := by
  unfold ExportTable.addBinding
  split
  · exact (h.setDefault a).add a
  · exact h.add a

theorem merge (h : t.Agrees u) (h' : t'.Agrees u') (ht : t'.names.keys.Nodup)
    (hu : u'.names.keys.Nodup) : (t.merge t').Agrees (u.merge u') := by
  constructor
  · intro n
    simp only [ExportTable.merge, OrderedMap.get?_merge _ ht, OrderedMap.get?_merge _ hu, h.names,
      h'.names]
  · simp only [ExportTable.merge, h.default, h'.default]

theorem register (h : t.Agrees u) (p : Path) (done : List ScanStep) (l : LocalStep) :
    (l.register p done t).Agrees (l.register p done u) := by
  cases l with
  | fail cause => exact h
  | remark s r => exact h
  | declare s hd =>
      simp only [LocalStep.register]
      split
      · exact h.add _
      · exact h
  | promote s name =>
      simp only [LocalStep.register]
      cases declared? done name with
      | none => exact h
      | some d => exact h.setDefault _
  | list b =>
      simp only [LocalStep.register]
      cases declared? done b.name with
      | none => exact h
      | some d => exact h.add _

theorem get? (h : t.Agrees u) (name : String) : t.get? name = u.get? name := by
  simp only [ExportTable.get?, h.names, h.default]

theorem containsIdentity (h : t.Agrees u) (ht : t.names.keys.Nodup) (hu : u.names.keys.Nodup)
    (a : Identity) : t.containsIdentity a = u.containsIdentity a := by
  have hvalues : ∀ b, b ∈ t.names.values ↔ b ∈ u.names.values := by
    intro b
    rw [OrderedMap.mem_values_iff ht, OrderedMap.mem_values_iff hu]
    simp only [h.names]
  rw [Bool.eq_iff_iff]
  simp only [ExportTable.containsIdentity, h.default, Bool.or_eq_true, List.any_eq_true, hvalues]

theorem lookupExport (h : t.Agrees u) (ht : t.names.keys.Nodup) (hu : u.names.keys.Nodup)
    {m m' : Module} {name : String} (hpath : m.path = m'.path)
    (haliases : m.aliases.get? name = m'.aliases.get? name) :
    m.lookupExport t name = m'.lookupExport u name := by
  simp only [Module.lookupExport, h.get?, haliases, h.containsIdentity ht hu, Module.unresolved,
    hpath]

end ExportTable.Agrees

/-- All settled answers of the file at `q` say the same, except about the names of its imports. -/
def Agreed (files : FileTree) (options : ResolverOptions) (imported : Path → String → Prop)
    (q : Path) : Prop :=
  ∀ m t m' t', Settled files options imported q m t → Settled files options imported q m' t' →
    t.Agrees t' ∧ ∀ name, ¬ imported q name → m.lookupExport t name = m'.lookupExport t' name

variable {files : FileTree} {options : ResolverOptions} {imported : Path → String → Prop}
  {p q : Path} {n n' : Nat} {stack stack' : List Path} {s₀ s₀' s s' s₁ s₁' : Store}
  {done : List ScanStep} {m m' m₁ m₁' : Module}

/-! ## Two scans step by step -/

/-- What the binding stands for in the file at `q` is the same in all scans of the file at `p`. -/
def TakenAlike (files : FileTree) (options : ResolverOptions) (imported : Path → String → Prop)
    (p q : Path) (b : Binding) : Prop :=
  ∀ m t m' t', Answers files options imported p q m t → Answers files options imported p q m' t' →
    m.lookupExport t b.name = m'.lookupExport t' b.name

theorem Agreed.takenAlike (h : Agreed files options imported q) (hback : ¬ files.Leads options q p)
    {b : Binding} (hb : ¬ imported q b.name) : TakenAlike files options imported p q b :=
  fun m t m' t' hm hm' => (h m t m' t' (hm.settled hback) (hm'.settled hback)).2 b.name hb

theorem Lists.takenAlike (hproper : files.Proper) {b : Binding}
    (h : Lists files options true q (.of b.name))
    (hunique : ProvidesOne files options imported q (.of b.name)) (p : Path) :
    TakenAlike files options imported p q b := by
  intro m t m' t' hm hm'
  obtain ⟨found, hlookup, hprovides⟩ := hm.lookupExport_of_has hproper (hm.has hproper h fun _ => rfl)
  obtain ⟨found', hlookup', hprovides'⟩ :=
    hm'.lookupExport_of_has hproper (hm'.has hproper h fun _ => rfl)
  rw [hlookup, hlookup', hunique found found' hprovides hprovides']

theorem TakenAlike.found_eq {t t' : ExportTable} {b : Binding} {found found' : Identity}
    (h : TakenAlike files options imported p q b) (hm : Answers files options imported p q m t)
    (hm' : Answers files options imported p q m' t') (hfound : m.lookupExport t b.name = .ok found)
    (hfound' : m'.lookupExport t' b.name = .ok found') : found = found' := by
  have heq := h m t m' t' hm hm'
  rw [hfound, hfound'] at heq
  exact Except.ok.inj heq

namespace Scanning

theorem induct₂ {motive : List ScanStep → Module → Module → Prop}
    (hbegun : ∀ (m m' : Module) d d', motive [] (m.beginScan d) (m'.beginScan d'))
    (hadvance : ∀ done i rest s m s₁ m₁ s' m' s₁' m₁',
      Scanning files options imported n stack p s₀ done s m →
      Scanning files options imported n' stack' p s₀' done s' m' →
      files.scanSteps options p = done ++ i :: rest →
      Advances files (tableOf files n) p i s m s₁ m₁ →
      Advances files (tableOf files n') p i s' m' s₁' m₁' →
      motive done m m' → motive (done ++ [i]) m₁ m₁')
    (h : Scanning files options imported n stack p s₀ done s m)
    (h' : Scanning files options imported n' stack' p s₀' done s' m') : motive done m m' := by
  induction done using List.reverseRecOn generalizing s m s' m' with
  | nil =>
      rcases h.eq_beginScan with ⟨m₀, rfl⟩
      rcases h'.eq_beginScan with ⟨m₀', rfl⟩
      exact hbegun m₀ m₀' _ _
  | append_singleton done i ih =>
      rcases h.steps_of_next with ⟨rest, hsteps⟩
      rcases h.of_next with ⟨s₁, m₁, hscan, hstep⟩
      rcases h'.of_next with ⟨s₁', m₁', hscan', hstep'⟩
      exact hadvance done i rest _ _ _ _ _ _ _ _ hscan hscan' hsteps hstep hstep' (ih hscan hscan')

theorem found_eq
    (htakes : ∀ q b, files.Takes options p q b → TakenAlike files options imported p q b)
    (h : Scanning files options imported n stack p s₀ done s m)
    (h' : Scanning files options imported n' stack' p s₀' done s' m') {rest : List ScanStep}
    {b : Binding} (hsteps : files.scanSteps options p = done ++ .take q b :: rest)
    {t t' : ExportTable} {mq mq' : Module} {found found' : Identity}
    (heval : (tableOf files n q).eval s = (.ok t, s₁)) (hmq : s₁.module? q = some mq)
    (hfound : mq.lookupExport t b.name = .ok found)
    (heval' : (tableOf files n' q).eval s' = (.ok t', s₁')) (hmq' : s₁'.module? q = some mq')
    (hfound' : mq'.lookupExport t' b.name = .ok found') : found = found' :=
  (htakes q b (FileTree.mem_scanSteps_of_eq hsteps)).found_eq
    ⟨n, stack, s, s₁, h.asking_next hsteps rfl, heval, hmq⟩
    ⟨n', stack', s', s₁', h'.asking_next hsteps rfl, heval', hmq'⟩ hfound hfound'

theorem table_agrees (hproper : files.Proper)
    (hmerges : ∀ q, files.Merges options p q →
      ¬ files.Leads options q p ∧ Agreed files options imported q)
    (htakes : ∀ q b, files.Takes options p q b → TakenAlike files options imported p q b)
    (h : Scanning files options imported n stack p s₀ done s m)
    (h' : Scanning files options imported n' stack' p s₀' done s' m') :
    m.table.Agrees m'.table := by
  refine h.induct₂ (motive := fun _ m m' => m.table.Agrees m'.table) (fun _ _ _ _ => .refl _) ?_ h'
  intro done i rest s m s₁ m₁ s' m' s₁' m₁' hscan hscan' hsteps hadvance hadvance' hagrees
  have hi := FileTree.mem_scanSteps_of_eq hsteps
  have hpending := (hscan.running.pending_iff_mem hscan.module).2 (List.mem_cons_self ..)
  have hpending' := (hscan'.running.pending_iff_mem hscan'.module).2 (List.mem_cons_self ..)
  cases hadvance with
  | own hf =>
      cases hadvance' with
      | own hf' =>
          rw [hscan.locals.table_change hpending hf, hscan'.locals.table_change hpending' hf']
          exact hagrees.register _ _ _
  | visit =>
      cases hadvance' with
      | visit => exact hagrees
  | merge heval =>
      cases hadvance' with
      | merge heval' =>
          obtain ⟨hback, hagreed⟩ := hmerges _ hi
          obtain ⟨mq, -, hanswers⟩ := (hscan.asking_next hsteps rfl).exists_answers heval
          obtain ⟨mq', -, hanswers'⟩ := (hscan'.asking_next hsteps rfl).exists_answers heval'
          have htables := (hagreed _ _ _ _ (hanswers.settled hback) (hanswers'.settled hback)).1
          have hnodup := ((scanInvariant_sound hproper).answers hanswers).2.nodup
          have hnodup' := ((scanInvariant_sound hproper).answers hanswers').2.nodup
          rw [Module.table_updatePending hpending, Module.table_updatePending hpending']
          exact hagrees.merge htables hnodup hnodup'
  | take heval hmq hfound =>
      cases hadvance' with
      | take heval' hmq' hfound' =>
          obtain rfl := hscan.found_eq htakes hscan' hsteps heval hmq hfound heval' hmq' hfound'
          rw [Module.table_addTaken hpending, Module.table_addTaken hpending']
          exact hagrees.addBinding _ _

/-- From the first step on that gives a default export, two scans have the same one. -/
theorem default_eq
    (htakes : ∀ q b, files.Takes options p q b → TakenAlike files options imported p q b)
    (h : Scanning files options imported n stack p s₀ done s m)
    (h' : Scanning files options imported n' stack' p s₀' done s' m') (hgiven : DefaultGiven p done) :
    m.table.defaultExport = m'.table.defaultExport := by
  refine h.induct₂ (motive := fun done m m' => DefaultGiven p done →
    m.table.defaultExport = m'.table.defaultExport) (fun _ _ _ _ hgiven => ?_) ?_ h' hgiven
  · rcases hgiven with ⟨before, i, after, heq, -⟩
    simp at heq
  · intro done i rest s m s₁ m₁ s' m' s₁' m₁' hscan hscan' hsteps hadvance hadvance' ih hgiven
    have hpending := (hscan.running.pending_iff_mem hscan.module).2 (List.mem_cons_self ..)
    have hpending' := (hscan'.running.pending_iff_mem hscan'.module).2 (List.mem_cons_self ..)
    rw [defaultGiven_concat] at hgiven
    cases hadvance with
    | own hf =>
        cases hadvance' with
        | own hf' =>
            rw [hscan.locals.table_change hpending hf, hscan'.locals.table_change hpending' hf']
            have hvalid := (hscan.locals.change_ok_iff _).1 ⟨_, hf⟩
            refine LocalStep.default_register_eq hvalid ?_
            exact hgiven.imp_left fun hgiven => ih hgiven
    | visit =>
        cases hadvance' with
        | visit => exact ih (hgiven.resolve_right id)
    | merge heval =>
        cases hadvance' with
        | merge heval' =>
            have hbefore := hgiven.resolve_right id
            rw [Module.table_updatePending hpending, Module.table_updatePending hpending']
            rw [ExportTable.default_merge_of_has (hscan.has_default hbefore),
              ExportTable.default_merge_of_has (hscan'.has_default hbefore), ih hbefore]
    | take heval hmq hfound =>
        cases hadvance' with
        | take heval' hmq' hfound' =>
            obtain rfl := hscan.found_eq htakes hscan' hsteps heval hmq hfound heval' hmq' hfound'
            rw [Module.table_addTaken hpending, Module.table_addTaken hpending']
            exact ExportTable.default_addBinding_eq (hgiven.imp_left fun hgiven => ih hgiven)

end Scanning

/-! ## New names -/

def ScanStep.newName? : ScanStep → Option String
  | .own (.list b) => b.newName
  | .take _ b => b.newName
  | _ => none

theorem Module.aliases_rename (m : Module) (b : Binding) (found : Identity) (k : String) :
    (m.rename b found).aliases.get? k =
      if b.newName = some k then some found else m.aliases.get? k := by
  unfold Module.rename
  cases b.newName with
  | none => rfl
  | some newName =>
      simp only [Module.addAlias, OrderedMap.get?_insert, Option.some.injEq]
      simp only [eq_comm]

theorem LocalStep.aliases_change_of_ne {l : LocalStep} {f : Module → Module} {k : String}
    (hf : l.change p m = .ok f) (hk : (ScanStep.own l).newName? ≠ some k) :
    (f m).aliases.get? k = m.aliases.get? k := by
  cases l with
  | fail cause => cases hf
  | remark st r =>
      obtain rfl := Except.ok.inj hf
      rfl
  | declare st hd =>
      obtain rfl := Except.ok.inj hf
      simp only [Module.declare]
      split <;> rfl
  | promote st name =>
      simp only [LocalStep.change] at hf
      split at hf
      · cases hf
      · obtain rfl := Except.ok.inj hf
        rfl
  | list b =>
      simp only [LocalStep.change] at hf
      split at hf
      · cases hf
      · obtain rfl := Except.ok.inj hf
        exact (m.aliases_rename b _ k).trans (if_neg hk)

theorem ScanStep.Advances.aliases_of_ne {T : TableOf} {i : ScanStep} {k : String}
    (h : Advances files T p i s m s' m') (hk : i.newName? ≠ some k) :
    m'.aliases.get? k = m.aliases.get? k := by
  cases h with
  | own hf => exact LocalStep.aliases_change_of_ne hf hk
  | visit => rfl
  | merge => rfl
  | take _ _ _ => exact (m.aliases_rename _ _ k).trans (if_neg hk)

theorem Module.LocalsOf.aliases_list (h : m.LocalsOf p done) {b : Binding} {f : Module → Module}
    {k : String} (hf : (LocalStep.list b).change p m = .ok f) (hk : b.newName = some k) :
    (f m).aliases.get? k = (declared? done b.name).map fun d => d.2.identity p := by
  simp only [LocalStep.change, h.localIdentity?] at hf
  cases hdecl : declared? done b.name with
  | none => simp [hdecl] at hf
  | some d =>
      simp only [hdecl, Option.map_some, Except.ok.injEq] at hf
      subst hf
      exact (m.aliases_rename b _ k).trans (if_pos hk)

theorem Scanning.aliases_eq
    (htakes : ∀ q b, files.Takes options p q b → TakenAlike files options imported p q b)
    (h : Scanning files options imported n stack p s₀ done s m)
    (h' : Scanning files options imported n' stack' p s₀' done s' m') {k : String}
    (hk : ∃ i ∈ done, i.newName? = some k) : m.aliases.get? k = m'.aliases.get? k := by
  refine h.induct₂ (motive := fun done m m' => (∃ i ∈ done, i.newName? = some k) →
    m.aliases.get? k = m'.aliases.get? k) (fun _ _ _ _ hk => ?_) ?_ h' hk
  · rcases hk with ⟨i, hi, -⟩
    cases hi
  · intro done i rest s m s₁ m₁ s' m' s₁' m₁' hscan hscan' hsteps hadvance hadvance' ih hk
    by_cases hik : i.newName? = some k
    · cases hadvance with
      | @own l _ _ f hf =>
          cases hadvance' with
          | own hf' =>
              cases l with
              | list b => rw [hscan.locals.aliases_list hf hik, hscan'.locals.aliases_list hf' hik]
              | fail | remark | declare | promote => cases hik
      | visit => cases hik
      | merge => cases hik
      | @take _ b _ _ _ _ _ _ heval hmq hfound =>
          cases hadvance' with
          | take heval' hmq' hfound' =>
              obtain rfl := hscan.found_eq htakes hscan' hsteps heval hmq hfound heval' hmq' hfound'
              show (m.rename b _).aliases.get? k = (m'.rename b _).aliases.get? k
              rw [m.aliases_rename, m'.aliases_rename]
              exact (if_pos hik).trans (if_pos hik).symm
    · rw [hadvance.aliases_of_ne hik, hadvance'.aliases_of_ne hik]
      rcases hk with ⟨j, hj, hjk⟩
      rcases List.mem_append.1 hj with hj | hj
      · exact ih ⟨j, hj, hjk⟩
      · obtain rfl := List.mem_singleton.1 hj
        exact absurd hjk hik

theorem Provides.exists_newName {k : String} {a : Identity}
    (h : Provides files options imported p (.renamed k) a) :
    ∃ i ∈ files.scanSteps options p, i.newName? = some k := by
  generalize hslot : Slot.renamed k = slot at h
  cases h with
  | itself h =>
      subst hslot
      rcases h with ⟨done, l, rest, hsteps, hl⟩
      have hmem := FileTree.mem_scanSteps_of_eq hsteps
      cases l with
      | fail => cases hl
      | remark => cases hl
      | declare st hd => cases hl.2.2
      | promote st name => cases hl.1
      | list b =>
          rcases hl with ⟨st, hd, -, -, hfills | ⟨k', heq, hk'⟩⟩
          · cases hfills
          · obtain rfl := Slot.renamed.inj heq
            exact ⟨_, hmem, hk'⟩
  | merged hover _ =>
      rcases hover with ⟨done, rest, -, hno, -⟩
      exact absurd hslot.symm (hno k)
  | taken htakes _ _ hfills =>
      subst hslot
      exact ⟨_, htakes, hfills⟩

namespace Scanned

theorem sound (hproper : files.Proper) (h : Scanned files options imported p m) :
    m.Sound files options imported p := by
  rcases h with ⟨n, stack, s₀, s, hscan⟩
  exact (scanInvariant_sound hproper).moment hscan.here p m hscan.module

theorem stemsFrom (h : Scanned files options imported p m) :
    m.table.StemsFrom files options imported p := by
  rcases h with ⟨n, stack, s₀, s, hscan⟩
  exact (scanInvariant_stems.moment hscan.here p m hscan.module).1

theorem table_agrees (hproper : files.Proper) (hmerges : ∀ q, files.Merges options p q →
      ¬ files.Leads options q p ∧ Agreed files options imported q)
    (htakes : ∀ q b, files.Takes options p q b → TakenAlike files options imported p q b)
    (h : Scanned files options imported p m) (h' : Scanned files options imported p m') :
    m.table.Agrees m'.table := by
  rcases h with ⟨n, stack, s₀, s, hscan⟩
  rcases h' with ⟨n', stack', s₀', s', hscan'⟩
  exact hscan.table_agrees hproper hmerges htakes hscan'

theorem aliases_eq (hproper : files.Proper)
    (htakes : ∀ q b, files.Takes options p q b → TakenAlike files options imported p q b)
    (h : Scanned files options imported p m) (h' : Scanned files options imported p m')
    {k : String} (hk : ¬ imported p k) : m.aliases.get? k = m'.aliases.get? k := by
  by_cases hgiven : ∃ i ∈ files.scanSteps options p, i.newName? = some k
  · rcases h with ⟨n, stack, s₀, s, hscan⟩
    rcases h' with ⟨n', stack', s₀', s', hscan'⟩
    exact hscan.aliases_eq htakes hscan' hgiven
  · have hnone : ∀ {m}, Scanned files options imported p m → m.aliases.get? k = none := by
      intro m hscanned
      cases halias : m.aliases.get? k with
      | none => rfl
      | some a =>
          rcases ((hscanned.sound hproper).aliases k a halias).2 with himported | hprovides
          · exact absurd himported hk
          · exact absurd hprovides.exists_newName hgiven
    rw [hnone h, hnone h']

end Scanned

/-! ## Files on circles -/

theorem Stems.has {t : ExportTable} {slot : Slot} (h : Stems files options imported p slot)
    (htakes : ∀ r, Relation.ReflTransGen (files.Merges options) p r → ∀ q b,
      files.Takes options r q b → TakenAlike files options imported r q b)
    (hfull : t.Full files options imported p) : t.Has slot := by
  induction h generalizing t with
  | itself h =>
      obtain ⟨m, hscanned, hgrows⟩ := hfull _ .refl
      exact hgrows.has (hscanned.has_itself h)
  | merged hmerges _ ih =>
      exact ih (fun r hr => htakes r (hr.head hmerges)) fun r hr => hfull r (hr.head hmerges)
  | taken ht hanswers hfound hfills =>
      obtain ⟨m, hscanned, hgrows⟩ := hfull _ .refl
      obtain ⟨mq, t', found', hanswers', hfound', hfills'⟩ := hscanned.taken ht
      obtain rfl := (htakes _ .refl _ _ ht).found_eq hanswers hanswers' hfound hfound'
      exact hgrows.has (hfills' _ hfills)

theorem eq_of_isSome_iff {α : Type} {x y : Option α} (hsome : x.isSome ↔ y.isSome)
    (heq : ∀ a b, x = some a → y = some b → a = b) : x = y := by
  cases x with
  | none =>
      cases y with
      | none => rfl
      | some b => simp at hsome
  | some a =>
      cases y with
      | none => simp at hsome
      | some b => rw [heq a b rfl rfl]

/--
Full tables agree if the file provides no two types in one slot.  If it sets a default export of its
own, this one counts.
-/
theorem Scanned.agrees_of_unique (hproper : files.Proper)
    (htakes : ∀ r, Relation.ReflTransGen (files.Merges options) p r → ∀ q b,
      files.Takes options r q b → TakenAlike files options imported r q b)
    (hunique : ∀ slot, (∀ n, slot ≠ .renamed n) →
      (slot = .default → ¬ DefaultGiven p (files.scanSteps options p)) →
      ProvidesOne files options imported p slot)
    (h : Scanned files options imported p m) (h' : Scanned files options imported p m')
    (hfull : m.table.Full files options imported p)
    (hfull' : m'.table.Full files options imported p) : m.table.Agrees m'.table := by
  have hsame : ∀ slot, (∀ n, slot ≠ .renamed n) → (m.table.Has slot ↔ m'.table.Has slot) :=
    fun slot hslot => ⟨fun hhas => (h.stemsFrom slot hslot hhas).has htakes hfull',
      fun hhas => (h'.stemsFrom slot hslot hhas).has htakes hfull⟩
  have hprovided := (h.sound hproper).table
  have hprovided' := (h'.sound hproper).table
  constructor
  · intro n
    refine eq_of_isSome_iff (hsame (.name n) (by simp)) fun a b ha hb => ?_
    exact hunique (.name n) (by simp) (by simp) a b (hprovided.name n a ha) (hprovided'.name n b hb)
  · by_cases hgiven : DefaultGiven p (files.scanSteps options p)
    · rcases h with ⟨n, stack, s₀, s, hscan⟩
      rcases h' with ⟨n', stack', s₀', s', hscan'⟩
      exact hscan.default_eq (htakes p .refl) hscan' hgiven
    · refine eq_of_isSome_iff (hsame .default (by simp)) fun a b ha hb => ?_
      exact hunique .default (by simp) (fun _ => hgiven) a b (hprovided.default a ha)
        (hprovided'.default b hb)

end Typings
