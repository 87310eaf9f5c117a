import Typings.Proofs.Cover
import Typings.Proofs.Sound

/-!
# What tables list

A scan that has performed all its steps lists what its file provides by itself and what it takes
from other files.  With the tables that are taken over, an answer that no running scan disturbs
lists all that the files behind its wildcards provide by themselves.
-/

namespace Typings

open ExportScan ScanStep

variable {files : FileTree} {options : ResolverOptions} {imported : Path → String → Prop}
  {p q : Path} {m : Module}

namespace Scanned

theorem has_itself (h : Scanned files options imported p m) {slot : Slot} {a : Identity}
    (hp : ProvidesItself files options p slot a) : m.table.Has slot := by
  rcases h with ⟨n, stack, s₀, s, hscan⟩
  rcases hp with ⟨before, l, after, hsteps, hl⟩
  exact hscan.has_itself hsteps hl

theorem taken (h : Scanned files options imported p m) {b : Binding}
    (htakes : files.Takes options p q b) :
    ∃ mq t found, Answers files options imported p q mq t ∧
      mq.lookupExport t b.name = .ok found ∧ ∀ slot, b.Fills found slot → m.table.Has slot := by
  rcases h with ⟨n, stack, s₀, s, hscan⟩
  obtain ⟨before, after, hsteps⟩ := List.append_of_mem htakes
  exact hscan.taken hsteps

end Scanned

/-! ## What answers cover -/

theorem carried_scanned : Carried files options imported (files.Asks options)
    fun p _ => ∃ m, Scanned files options imported p m where
  self p m h := ⟨m, h⟩
  grows p t u _ h := h
  edge p q h := by
    obtain ⟨i, hi, hq⟩ := h.exists_asked?
    exact ⟨i, hi, hq, fun _ _ _ h => h⟩

theorem carried_merged : Carried files options imported (files.Merges options)
    fun p t => ∃ m, Scanned files options imported p m ∧ m.table.Grows t where
  self p m h := ⟨m, h, .refl _⟩
  grows p t u hgrows := fun ⟨m, h, ht⟩ => ⟨m, h, ht.trans hgrows⟩
  edge p q h := by
    refine ⟨_, h, rfl, ?_⟩
    rintro n s m s' m' t s₁ r hpending hadvance heval ⟨mr, hr, ht⟩
    cases hadvance with
    | merge heval' =>
        obtain rfl := Except.ok.inj (Prod.mk.inj (heval.symm.trans heval')).1
        rw [Module.table_updatePending hpending]
        exact ⟨mr, hr, ht.trans (ExportTable.grows_merge_right _ _)⟩

end Typings
