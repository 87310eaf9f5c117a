import Typings.Proofs.Provided

/-!
# What tables have

The slots of a table after each way in which it may change.
-/

namespace Typings

open ScanStep

/-- The table has a type in the slot.  New names are no part of a table. -/
def ExportTable.Has (t : ExportTable) : Slot → Prop
  | .name n => (t.names.get? n).isSome
  | .default => t.defaultExport.isSome
  | .renamed _ => True

theorem Slot.renamed_or (slot : Slot) : (∃ n, slot = .renamed n) ∨ ∀ n, slot ≠ .renamed n := by
  cases slot <;> simp

namespace ExportTable

variable {t u : ExportTable} {slot : Slot} {a : Identity}

theorem Grows.has (h : t.Grows u) (ht : t.Has slot) : u.Has slot := by
  cases slot with
  | name n => exact h.isSome_get? n ht
  | default => exact h.isSome_default ht
  | renamed n => trivial

theorem has_add_iff (t : ExportTable) (a : Identity) (hslot : ∀ n, slot ≠ .renamed n) :
    (t.add a).Has slot ↔ t.Has slot ∨ a.Fills slot := by
  cases slot with
  | name n =>
      simp only [Has, get?_add, Identity.Fills]
      by_cases hn : n = a.name <;> simp [hn]
  | default =>
      simp only [Has, add, Identity.Fills]
      cases a.isDefault <;> simp
  | renamed n => exact absurd rfl (hslot n)

theorem has_addBinding_iff (t : ExportTable) (b : Binding) (a : Identity)
    (hslot : ∀ n, slot ≠ .renamed n) :
    (t.addBinding b a).Has slot ↔ t.Has slot ∨ b.Fills a slot := by
  rw [addBinding, has_add_iff _ _ hslot]
  cases slot with
  | name n => split <;> exact Iff.rfl
  | default =>
      split
      · next hdefault => simp [Has, setDefault, Binding.Fills, hdefault]
      · next hdefault => simp [Identity.Fills, Binding.Fills, hdefault]
  | renamed n => exact absurd rfl (hslot n)

theorem default_merge_of_has (h : t.Has .default) :
    (t.merge u).defaultExport = t.defaultExport := by
  obtain ⟨a, ha⟩ := Option.isSome_iff_exists.1 h
  simp only [merge, ha, Option.some_or]

theorem default_addBinding_eq {b : Binding}
    (h : t.defaultExport = u.defaultExport ∨ (b.name = "default" ∧ b.newName = none)) :
    (t.addBinding b a).defaultExport = (u.addBinding b a).defaultExport := by
  unfold addBinding
  split
  · rfl
  · next hdefault => simp only [add, h.resolve_right hdefault]

theorem has_merge_iff (t u : ExportTable) : (t.merge u).Has slot ↔ t.Has slot ∨ u.Has slot := by
  cases slot with
  | name n => exact (OrderedMap.isSome_get?_merge _ _ _).trans or_comm
  | default => simp [Has, merge]
  | renamed n => simp [Has]

end ExportTable

/-! ## Steps about the module alone -/

/-- What a step behind the steps `done` makes of the table of the module at `p`. -/
def LocalStep.register (p : Path) (done : List ScanStep) : LocalStep → ExportTable → ExportTable
  | .fail _, t => t
  | .remark _ _, t => t
  | .declare _ h, t => if h.exported then t.add (h.identity p) else t
  | .promote _ name, t => (declared? done name).elim t fun d => t.setDefault (d.2.identity p)
  | .list b, t => (declared? done b.name).elim t fun d => t.add (d.2.identity p)

theorem LocalStep.default_register_eq {p : Path} {done : List ScanStep} {l : LocalStep}
    (hl : l.Valid done) {t u : ExportTable}
    (h : t.defaultExport = u.defaultExport ∨ ∃ a, l.Provides p done .default a) :
    (l.register p done t).defaultExport = (l.register p done u).defaultExport := by
  cases l with
  | fail => cases hl
  | remark => exact h.resolve_right (by simp [LocalStep.Provides])
  | declare s hd =>
      simp only [register]
      split
      · next hexported =>
          rcases h with h | ⟨a, -, rfl, hdefault⟩
          · simp only [ExportTable.add, h]
          · simp only [ExportTable.add, if_pos (show (hd.identity p).isDefault = true from hdefault)]
      · next hexported =>
          refine h.resolve_right ?_
          rintro ⟨a, hexp, -⟩
          exact hexported hexp
  | promote s name =>
      rcases hl with ⟨st, hd, hdecl, -⟩
      simp only [register, hdecl, Option.elim_some, ExportTable.setDefault]
  | list b =>
      obtain ⟨d, hdecl⟩ := Option.isSome_iff_exists.1 hl
      simp only [register, hdecl, Option.elim_some, ExportTable.add]
      rcases h with h | ⟨a, st, hd, hdecl', rfl, hdefault | ⟨n, heq, -⟩⟩
      · rw [h]
      · obtain rfl := Option.some.inj (hdecl.symm.trans hdecl')
        simp only [if_pos (show (hd.identity p).isDefault = true from hdefault)]
      · cases heq

theorem LocalStep.has_register_iff {p : Path} {done : List ScanStep} {l : LocalStep}
    (hl : l.Valid done) (t : ExportTable) {slot : Slot} (hslot : ∀ n, slot ≠ .renamed n) :
    (l.register p done t).Has slot ↔ t.Has slot ∨ ∃ a, l.Provides p done slot a := by
  cases l with
  | fail => cases hl
  | remark => simp [register, LocalStep.Provides]
  | declare s hd =>
      cases hexported : hd.exported with
      | true => simp [register, LocalStep.Provides, hexported, ExportTable.has_add_iff _ _ hslot]
      | false => simp [register, LocalStep.Provides, hexported]
  | promote s name =>
      rcases hl with ⟨st, hd, hdecl, hexported⟩
      simp only [register, hdecl, Option.elim_some, LocalStep.Provides]
      constructor
      · intro h
        cases slot with
        | name n => exact .inl h
        | default => exact .inr ⟨_, rfl, st, hd, rfl, hexported, rfl⟩
        | renamed n => exact absurd rfl (hslot n)
      · rintro (h | ⟨a, rfl, -⟩)
        · exact (ExportTable.grows_setDefault t _).has h
        · rfl
  | list b =>
      obtain ⟨⟨st, hd⟩, hdecl⟩ := Option.isSome_iff_exists.1 hl
      simp only [register, hdecl, Option.elim_some, LocalStep.Provides,
        ExportTable.has_add_iff _ _ hslot]
      constructor
      · exact Or.imp_right fun h => ⟨_, st, hd, rfl, rfl, .inl h⟩
      · rintro (h | ⟨a, st', hd', heq, rfl, h | ⟨n, rfl, -⟩⟩)
        · exact .inl h
        · obtain ⟨rfl, rfl⟩ := Prod.mk.inj (Option.some.inj heq)
          exact .inr h
        · exact absurd rfl (hslot n)

namespace Module.LocalsOf

variable {p : Path} {done : List ScanStep} {m : Module}

theorem table_change (hlocals : m.LocalsOf p done) (hw : m.pending.isSome) {l : LocalStep}
    {f : Module → Module} (hf : l.change p m = .ok f) :
    (f m).table = l.register p done m.table := by
  cases l with
  | fail => cases hf
  | remark s r =>
      obtain rfl := Except.ok.inj hf
      rfl
  | declare s hd =>
      obtain rfl := Except.ok.inj hf
      simp only [Module.declare, LocalStep.register]
      split
      · exact Module.table_updatePending (m := m.addLocal _) hw _
      · rfl
  | promote s name =>
      simp only [LocalStep.change, hlocals.unexported] at hf
      cases hdecl : declared? done name with
      | none => simp [hdecl] at hf
      | some d =>
          cases hexported : d.2.exported with
          | true => simp [hdecl, hexported, Option.filter_some] at hf
          | false =>
              simp only [hdecl, hexported, Option.filter_some, Bool.not_false, if_true,
                Option.map_some, Except.ok.injEq] at hf
              subst hf
              simp only [LocalStep.register, hdecl, Option.elim_some]
              exact Module.table_updatePending hw _
  | list b =>
      simp only [LocalStep.change, hlocals.localIdentity?] at hf
      cases hdecl : declared? done b.name with
      | none => simp [hdecl] at hf
      | some d =>
          simp only [hdecl, Option.map_some, Except.ok.injEq] at hf
          subst hf
          simp only [LocalStep.register, hdecl, Option.elim_some]
          exact Module.table_addListed hw b _

end Module.LocalsOf

/-! ## Names -/

/-- The slot in which a table answers for a name. -/
def Slot.of (name : String) : Slot := if name = "default" then .default else .name name

variable {t : ExportTable}

theorem ExportTable.has_of_iff (t : ExportTable) (name : String) :
    t.Has (.of name) ↔ (t.get? name).isSome := by
  unfold Slot.of ExportTable.get?
  split <;> rfl

theorem Module.lookupExport_of_get? (m : Module) {name : String} {found : Identity}
    (h : t.get? name = some found) : m.lookupExport t name = .ok found := by
  rw [Module.lookupExport, h]

theorem Module.lookupExport_of_has (m : Module) {name : String} (h : t.Has (.of name)) :
    ∃ found, m.lookupExport t name = .ok found ∧ t.get? name = some found := by
  obtain ⟨found, hfound⟩ := Option.isSome_iff_exists.1 ((t.has_of_iff name).1 h)
  exact ⟨found, m.lookupExport_of_get? hfound, hfound⟩

end Typings
