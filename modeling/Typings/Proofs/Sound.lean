import Typings.Proofs.Invariant
import Typings.Proofs.Location

/-!
# Tables name what their files provide

The tables of all modules, kept or under construction, and the tables that are answered with name
only types that the file provides, each in a slot where it provides it.
-/

namespace Typings

open ScanStep

structure ExportTable.ProvidedBy (files : FileTree) (options : ResolverOptions)
    (imported : Path → String → Prop) (p : Path) (t : ExportTable) : Prop where
  nodup : t.names.keys.Nodup
  name : ∀ n a, t.names.get? n = some a → Provides files options imported p (.name n) a
  default : ∀ a, t.defaultExport = some a → Provides files options imported p .default a

structure Module.Sound (files : FileTree) (options : ResolverOptions)
    (imported : Path → String → Prop) (p : Path) (m : Module) : Prop where
  isKey : files.IsKey p
  table : m.table.ProvidedBy files options imported p
  kept : ∀ t, m.exports = some t → t.ProvidedBy files options imported p
  aliases : ∀ n a, m.aliases.get? n = some a →
    files.IsKey a.file ∧ (imported p n ∨ Provides files options imported p (.renamed n) a)

variable {files : FileTree} {options : ResolverOptions} {imported : Path → String → Prop}

namespace ExportTable.ProvidedBy

variable {p : Path} {t : ExportTable}

theorem empty (p : Path) : ExportTable.empty.ProvidedBy files options imported p :=
  ⟨List.nodup_nil, fun n a h => (by cases h), fun a h => (by cases h)⟩

theorem of_get? (h : t.ProvidedBy files options imported p) {name : String} {a : Identity}
    (ha : t.get? name = some a) : Provides files options imported p (.of name) a := by
  unfold Slot.of
  unfold ExportTable.get? at ha
  split
  · next hname =>
      rw [if_pos hname] at ha
      exact h.default a ha
  · next hname =>
      rw [if_neg hname] at ha
      exact h.name name a ha

theorem setDefault (h : t.ProvidedBy files options imported p) {a : Identity}
    (ha : Provides files options imported p .default a) :
    (t.setDefault a).ProvidedBy files options imported p :=
  { h with default := fun _ hb => Option.some.inj hb ▸ ha }

theorem add (h : t.ProvidedBy files options imported p) {a : Identity}
    (ha : ∀ slot, a.Fills slot → Provides files options imported p slot a) :
    (t.add a).ProvidedBy files options imported p := by
  refine ⟨OrderedMap.nodup_keys_insert h.nodup _ _, fun n b hb => ?_, fun b hb => ?_⟩
  · rw [get?_add] at hb
    split at hb
    · next hn =>
        obtain rfl := Option.some.inj hb
        exact ha (.name n) hn
    · exact h.name n b hb
  · simp only [ExportTable.add] at hb
    split at hb
    · next hdefault =>
        obtain rfl := Option.some.inj hb
        exact ha .default hdefault
    · exact h.default b hb

theorem addBinding (h : t.ProvidedBy files options imported p) {b : Binding} {found : Identity}
    (hfound : ∀ slot, b.Fills found slot → Provides files options imported p slot found) :
    (t.addBinding b found).ProvidedBy files options imported p := by
  have hadd : ∀ slot, found.Fills slot → Provides files options imported p slot found := by
    intro slot hslot
    cases slot with
    | name n => exact hfound (.name n) hslot
    | default => exact hfound .default (.inl hslot)
    | renamed n => cases hslot
  unfold ExportTable.addBinding
  split
  · next hdefault => exact (h.setDefault (hfound .default (.inr hdefault))).add hadd
  · exact h.add hadd

theorem merge (h : t.ProvidedBy files options imported p) {q : Path} {taken : ExportTable}
    {done rest : List ScanStep} (hsteps : files.scanSteps options p = done ++ .merge q :: rest)
    (hdefault : DefaultGiven p done → t.Has .default)
    (htaken : taken.ProvidedBy files options imported q) :
    (t.merge taken).ProvidedBy files options imported p := by
  refine ⟨OrderedMap.nodup_keys_merge h.nodup _, fun n a ha => ?_, fun a ha => ?_⟩
  · simp only [ExportTable.merge, OrderedMap.get?_merge _ htaken.nodup, Option.or_eq_some_iff] at ha
    rcases ha with ha | ⟨-, ha⟩
    · exact .merged ⟨done, rest, hsteps, by simp, by simp⟩ (htaken.name n a ha)
    · exact h.name n a ha
  · simp only [ExportTable.merge, Option.or_eq_some_iff] at ha
    rcases ha with ha | ⟨hnone, ha⟩
    · exact h.default a ha
    · have hfirst : ¬ DefaultGiven p done := fun hgiven => by
        simpa [Has, hnone] using hdefault hgiven
      exact .merged ⟨done, rest, hsteps, by simp, fun _ => hfirst⟩ (htaken.default a ha)

theorem exists_of_containsIdentity (h : t.ProvidedBy files options imported p) {a : Identity}
    (ha : t.containsIdentity a = true) :
    ∃ slot b, (∀ n, slot ≠ .renamed n) ∧ Provides files options imported p slot b ∧
      b.same a = true := by
  rw [containsIdentity, Bool.or_eq_true, Option.any_eq_true, List.any_eq_true] at ha
  rcases ha with ⟨b, hb, hsame⟩ | ⟨b, hb, hsame⟩
  · exact ⟨.default, b, by simp, h.default b hb, hsame⟩
  · obtain ⟨n, hn⟩ := (OrderedMap.mem_values_iff h.nodup b).1 hb
    exact ⟨.name n, b, by simp, h.name n b hn, hsame⟩

end ExportTable.ProvidedBy

theorem Identity.eq_of_same (hproper : files.Proper) {a b : Identity} (ha : files.IsKey a.file)
    (hb : files.IsKey b.file) (hsame : a.same b = true) : a = b := by
  obtain ⟨hfile, hname, hdefault⟩ := Identity.same_iff.1 hsame
  rcases a with ⟨af, an, ad⟩
  rcases b with ⟨bf, bn, bd⟩
  obtain rfl : af = bf := FileTree.IsKey.eq_of_same hproper ha hb (Path.same_iff.2 hfile)
  obtain rfl : an = bn := hname
  obtain rfl : ad = bd := hdefault
  rfl

namespace Module.Sound

variable {p : Path} {m : Module}

theorem lookupExport (hproper : files.Proper) (h : m.Sound files options imported p)
    {table : ExportTable} (ht : table.ProvidedBy files options imported p) {name : String}
    {a : Identity} (hfound : m.lookupExport table name = .ok a) :
    ∃ slot, slot.Answers imported p name ∧ Provides files options imported p slot a := by
  unfold Module.lookupExport ExportTable.get? at hfound
  split at hfound
  · next b hb =>
      obtain rfl := Except.ok.inj hfound
      split at hb
      · next hname => exact ⟨.default, .inl hname, ht.default b hb⟩
      · next hname => exact ⟨.name name, .inl ⟨rfl, hname⟩, ht.name name b hb⟩
  · split at hfound
    · cases hfound
    · next b hb =>
        obtain ⟨hkey, halias⟩ := h.aliases name b hb
        split at hfound
        · next hcontains =>
            obtain rfl := Except.ok.inj hfound
            rcases halias with himported | hprovides
            · obtain ⟨slot, c, hslot, hc, hsame⟩ := ht.exists_of_containsIdentity hcontains
              obtain rfl := Identity.eq_of_same hproper (hc.owner.1.isKey h.isKey) hkey hsame
              cases slot with
              | name n => exact ⟨.name n, .inr himported, hc⟩
              | default => exact ⟨.default, .inr himported, hc⟩
              | renamed n => exact absurd rfl (hslot n)
            · exact ⟨.renamed name, rfl, hprovides⟩
        · cases hfound

theorem updatePending (h : m.Sound files options imported p) (hw : m.pending.isSome)
    {f : ExportTable → ExportTable} (hf : (f m.table).ProvidedBy files options imported p) :
    (m.updatePending f).Sound files options imported p :=
  { h with table := by rwa [Module.table_updatePending hw] }

theorem rename (h : m.Sound files options imported p) {b : Binding} {found : Identity}
    (hfound : ∀ n, b.newName = some n → Provides files options imported p (.renamed n) found) :
    (m.rename b found).Sound files options imported p := by
  unfold Module.rename
  split
  · next n hn =>
      refine { h with aliases := fun n' a ha => ?_ }
      simp only [Module.addAlias, OrderedMap.get?_insert] at ha
      split at ha
      · next heq =>
          obtain rfl := Option.some.inj ha
          subst heq
          have hprovides := hfound n' hn
          exact ⟨hprovides.owner.1.isKey h.isKey, .inr hprovides⟩
      · exact h.aliases n' a ha
  · exact h

theorem addLocal (h : m.Sound files options imported p) (d : Declaration) :
    (m.addLocal d).Sound files options imported p :=
  { h with }

theorem change (h : m.Sound files options imported p) {l : LocalStep} {f : Module → Module}
    {done rest : List ScanStep} (hsteps : files.scanSteps options p = done ++ .own l :: rest)
    (hlocals : m.LocalsOf p done) (hf : l.change p m = .ok f) (hw : m.pending.isSome) :
    (f m).Sound files options imported p := by
  have hitself : ∀ slot a, l.Provides p done slot a → Provides files options imported p slot a :=
    fun slot a ha => .itself ⟨done, l, rest, hsteps, ha⟩
  cases l with
  | fail e => simp [LocalStep.change] at hf
  | remark s r =>
      obtain rfl := Except.ok.inj hf
      exact { h with }
  | declare s hd =>
      obtain rfl := Except.ok.inj hf
      simp only [Module.declare]
      split
      · next hexported =>
          exact (h.addLocal _).updatePending hw (h.table.add fun slot hslot =>
            hitself slot _ ⟨hexported, rfl, hslot⟩)
      · exact h.addLocal _
  | promote s name =>
      simp only [LocalStep.change, hlocals.unexported] at hf
      cases hd : (declared? done name).filter (!·.2.exported) with
      | none => simp [hd] at hf
      | some d =>
          simp only [hd, Option.map_some, Except.ok.injEq] at hf
          subst hf
          obtain ⟨hdecl, hexported⟩ := Option.filter_eq_some_iff.1 hd
          exact h.updatePending hw (h.table.setDefault
            (hitself .default _ ⟨rfl, d.1, d.2, hdecl, by simpa using hexported, rfl⟩))
  | list b =>
      simp only [LocalStep.change, hlocals.localIdentity?] at hf
      cases hd : declared? done b.name with
      | none => simp [hd] at hf
      | some d =>
          simp only [hd, Option.map_some, Except.ok.injEq] at hf
          subst hf
          have hrenamed := h.rename (b := b) fun n hn =>
            hitself (.renamed n) (d.2.identity p) ⟨d.1, d.2, hd, rfl, .inr ⟨n, rfl, hn⟩⟩
          exact hrenamed.updatePending (m.isSome_pending_rename hw) (hrenamed.table.add fun slot hslot =>
            hitself slot _ ⟨d.1, d.2, hd, rfl, .inl hslot⟩)

end Module.Sound

theorem scanInvariant_sound (hproper : files.Proper) :
    ScanInvariant files options imported (Module.Sound files options imported)
      (ExportTable.ProvidedBy files options imported) where
  loaded p text hkey := ⟨hkey, .empty p, fun t ht => (by cases ht), fun n a ha => (by cases ha)⟩
  edited p m m' he h := by
    refine ⟨h.isKey, ?_, ?_, fun n a ha => ?_⟩
    · rw [Module.table, he.pending_eq]
      exact h.table
    · rw [he.exports_eq]
      exact h.kept
    · rcases he.aliases n with heq | ⟨himported, b, hb, hkey⟩
      · exact h.aliases n a (heq ▸ ha)
      · obtain rfl := Option.some.inj (hb.symm.trans ha)
        exact ⟨hkey, .inl himported⟩
  begun p m d _ h := { h with table := .empty p }
  own p m l f done rest hsteps hlocals _ hf hw _ h := h.change hsteps hlocals hf hw
  merged p q m taken done rest hsteps hdefault htaken hw _ h :=
    h.updatePending hw (h.table.merge hsteps hdefault htaken)
  taken p q m mq b table found htakes _ ht hq hfound hw _ h := by
    obtain ⟨asked, hasked, hprovides⟩ := hq.lookupExport hproper ht hfound
    have hfills : ∀ slot, b.Fills found slot → Provides files options imported p slot found :=
      fun slot hslot => .taken htakes hprovides hasked hslot
    have hrenamed := h.rename (b := b) fun n hn => hfills (.renamed n) hn
    exact hrenamed.updatePending (m.isSome_pending_rename hw) (hrenamed.table.addBinding hfills)
  ended p m h := { h with table := .empty p }
  keep p m _ h := { h with
    table := .empty p
    kept := fun t ht => Option.some.inj ht ▸ h.table }
  answer_of_kept p m t h ht := h.kept t ht
  answer_of_scan p m h _ := h.table

end Typings
