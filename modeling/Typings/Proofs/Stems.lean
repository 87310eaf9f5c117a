import Typings.Proofs.Listed

/-!
# Where names come from

A table has a name, or a default export, because a step of its file or of a file behind its
wildcards has put it there: a step about that file alone, or one that has found a type in another
file.
-/

namespace Typings

open ScanStep

inductive Stems (files : FileTree) (options : ResolverOptions)
    (imported : Path → String → Prop) : Path → Slot → Prop
  | itself {p : Path} {slot : Slot} {a : Identity} (h : ProvidesItself files options p slot a) :
      Stems files options imported p slot
  | merged {p q : Path} {slot : Slot} (hmerges : files.Merges options p q)
      (h : Stems files options imported q slot) : Stems files options imported p slot
  | taken {p q : Path} {slot : Slot} {b : Binding} {m : Module} {t : ExportTable} {found : Identity}
      (htakes : files.Takes options p q b) (hanswers : Answers files options imported p q m t)
      (hfound : m.lookupExport t b.name = .ok found) (hfills : b.Fills found slot) :
      Stems files options imported p slot

def ExportTable.StemsFrom (files : FileTree) (options : ResolverOptions)
    (imported : Path → String → Prop) (p : Path) (t : ExportTable) : Prop :=
  ∀ slot, (∀ n, slot ≠ .renamed n) → t.Has slot → Stems files options imported p slot

variable {files : FileTree} {options : ResolverOptions} {imported : Path → String → Prop}

theorem ExportTable.StemsFrom.empty (p : Path) :
    ExportTable.empty.StemsFrom files options imported p := by
  intro slot hslot h
  cases slot with
  | name n => cases h
  | default => cases h
  | renamed n => exact absurd rfl (hslot n)

theorem scanInvariant_stems : ScanInvariant files options imported
    (fun p m => m.table.StemsFrom files options imported p ∧
      ∀ t, m.exports = some t → t.StemsFrom files options imported p)
    (fun p t => t.StemsFrom files options imported p) where
  loaded p text _ := ⟨.empty p, fun t ht => by cases ht⟩
  edited p m m' he h := by
    rw [Module.table, he.pending_eq, he.exports_eq]
    exact h
  begun p m d _ h := ⟨.empty p, h.2⟩
  own p m l f done rest hsteps hlocals _ hf hw _ h := by
    refine ⟨fun slot hslot hhas => ?_, ?_⟩
    · have hvalid := (hlocals.change_ok_iff l).1 ⟨f, hf⟩
      rw [hlocals.table_change hw hf, LocalStep.has_register_iff hvalid _ hslot] at hhas
      rcases hhas with hhas | ⟨a, ha⟩
      · exact h.1 slot hslot hhas
      · exact .itself ⟨done, l, rest, hsteps, ha⟩
    · rw [(LocalStep.evolves_change hf).2]
      exact h.2
  merged p q m taken done rest hsteps _ htaken hw _ h := by
    refine ⟨fun slot hslot hhas => ?_, h.2⟩
    rw [Module.table_updatePending hw, ExportTable.has_merge_iff] at hhas
    rcases hhas with hhas | hhas
    · exact h.1 slot hslot hhas
    · exact .merged (FileTree.mem_scanSteps_of_eq hsteps) (htaken slot hslot hhas)
  taken p q m mq b table found htakes hanswers _ _ hfound hw _ h := by
    refine ⟨fun slot hslot hhas => ?_, ?_⟩
    · rw [Module.table_addTaken hw, ExportTable.has_addBinding_iff _ _ _ hslot] at hhas
      rcases hhas with hhas | hfills
      · exact h.1 slot hslot hhas
      · exact .taken htakes hanswers hfound hfills
    · rw [(m.evolves_addTaken b found).2]
      exact h.2
  ended p m h := ⟨.empty p, h.2⟩
  keep p m _ h := ⟨.empty p, fun t ht => Option.some.inj ht ▸ h.1⟩
  answer_of_kept p m t h ht := h.2 t ht
  answer_of_scan p m h _ := h.1

end Typings
