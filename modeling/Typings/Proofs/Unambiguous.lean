import Mathlib.Data.Finset.Card
import Typings.Proofs.Agreement
import Typings.Proofs.Failure

/-!
# Files that give one answer

Scans of a file come to the same answers if no name is taken in a circle before it is there, and no
file on a circle provides two types in one place.  Without circles this goes by the number of files
within reach.
-/

namespace Typings

open ExportScan ScanStep

variable {files : FileTree} {options : ResolverOptions} {imported : Path → String → Prop}
  {p q r u : Path}

/-! ## Files further down -/

namespace FileTree

open Classical in
noncomputable def reachSize (files : FileTree) (options : ResolverOptions) (q : Path) : Nat :=
  (files.locations.toFinset.filter (files.Leads options q)).card

theorem reachSize_lt (hq : q ∈ files.locations) (hr : files.Leads options q r)
    (hback : ¬ files.Leads options r q) :
    files.reachSize options r < files.reachSize options q := by
  classical
  refine Finset.card_lt_card (Finset.ssubset_iff_subset_ne.2 ⟨?_, ?_⟩)
  · intro g hg
    rw [Finset.mem_filter] at hg ⊢
    exact ⟨hg.1, hr.trans hg.2⟩
  · intro heq
    have hmem : q ∈ files.locations.toFinset.filter (files.Leads options q) :=
      Finset.mem_filter.2 ⟨List.mem_toFinset.2 hq, .refl q⟩
    rw [← heq, Finset.mem_filter] at hmem
    exact hback hmem.2

/--
A name that is taken in a circle is listed ahead by the file that it is taken from, which provides
one type for it, and no file on a circle provides two types in one place.  A default export that the
file is given by a step of its own counts alone.  Names that are taken are not those of imports.
-/
structure Unambiguous (files : FileTree) (options : ResolverOptions)
    (imported : Path → String → Prop) (u : Path) : Prop where
  takes : ∀ p q b, files.Leads options u p → files.Takes options p q b → files.Leads options q p →
    Lists files options true q (.of b.name) ∧ ProvidesOne files options imported q (.of b.name)
  unique : ∀ p, files.Leads options u p → files.OnCircle options p →
    ∀ slot, (∀ n, slot ≠ .renamed n) →
      (slot = .default → ¬ DefaultGiven p (files.scanSteps options p)) →
      ProvidesOne files options imported p slot
  asked : ∀ p q b, files.Leads options u p → files.Takes options p q b → ¬ imported q b.name

/-- Without circles, nothing but the names of imports can be ambiguous. -/
theorem unambiguous_of_acyclic (hcircle : files.NoCircles options u)
    (hasked : ∀ p q b, files.Leads options u p → files.Takes options p q b → ¬ imported q b.name) :
    files.Unambiguous options imported u where
  takes p q _ hp htakes hback := absurd ⟨q, asks_of_take htakes, hback⟩ (hcircle p hp)
  unique p hp honcircle := absurd honcircle (hcircle p hp)
  asked := hasked

end FileTree

theorem Settled.mem_locations (hproper : files.Proper) (hq : files.IsKey q) {m : Module}
    {t : ExportTable} (h : Settled files options imported q m t) : q ∈ files.locations := by
  rcases h.scanned with ⟨m₁, hscanned, -⟩
  rcases hscanned.exists_text with ⟨text, hread⟩
  exact hq.mem_locations hproper hread

namespace FileTree.Unambiguous

theorem takenAlike (hproper : files.Proper) (h : files.Unambiguous options imported u)
    (hp : files.Leads options u p) {b : Binding} (htakes : files.Takes options p q b)
    (hagreed : ¬ files.Leads options q p → Agreed files options imported q) :
    TakenAlike files options imported p q b := by
  by_cases hback : files.Leads options q p
  · obtain ⟨hlists, hone⟩ := h.takes p q b hp htakes hback
    exact hlists.takenAlike hproper hone p
  · exact (hagreed hback).takenAlike hback (h.asked p q b hp htakes)

/-- Where nothing is ambiguous, settled answers agree. -/
theorem agreed (hproper : files.Proper) (hkey : files.IsKey u)
    (h : files.Unambiguous options imported u) (hq : files.Leads options u q) :
    Agreed files options imported q := by
  induction hsize : files.reachSize options q using Nat.strongRecOn generalizing q with
  | ind size ih =>
      intro m t m' t' hm hm'
      have hmem := hm.mem_locations hproper (hq.isKey hkey)
      -- Files that do not lead back have fewer files within reach.
      have hlower : ∀ x, files.Leads options q x → ¬ files.Leads options x q →
          Agreed files options imported x := by
        intro x hqx hback
        refine ih _ ?_ (hq.trans hqx) rfl
        rw [← hsize]
        exact reachSize_lt hmem hqx hback
      have htakes : ∀ r, files.Leads options q r → ∀ x b, files.Takes options r x b →
          TakenAlike files options imported r x b := by
        intro r hr x b hx
        refine h.takenAlike hproper (hq.trans hr) hx fun hback => ?_
        exact hlower x (hr.ask (asks_of_take hx)) fun hxq => hback (hxq.trans hr)
      rcases hm.scanned with ⟨m₁, hscanned, rfl, haliases⟩
      rcases hm'.scanned with ⟨m₁', hscanned', rfl, haliases'⟩
      have hagrees : m₁.table.Agrees m₁'.table := by
        by_cases hcircle : files.OnCircle options q
        · exact hscanned.agrees_of_unique hproper (fun r hr => htakes r (leads_of_merges hr))
            (h.unique q hq hcircle) hscanned' hm.full hm'.full
        · refine hscanned.table_agrees hproper (fun x hmerges => ?_) (htakes q (.refl q)) hscanned'
          have hback : ¬ files.Leads options x q := fun hxq => hcircle ⟨x, .inl hmerges, hxq⟩
          exact ⟨hback, hlower x (Leads.of_asks (.inl hmerges) (.refl x)) hback⟩
      refine ⟨hagrees, fun name hname => ?_⟩
      refine hagrees.lookupExport (hscanned.sound hproper).table.nodup
        (hscanned'.sound hproper).table.nodup (hm.path_eq.trans hm'.path_eq.symm) ?_
      rw [haliases name hname, haliases' name hname]
      exact hscanned.aliases_eq hproper (htakes q (.refl q)) hscanned' hname

theorem not_missed (hproper : files.Proper) (hkey : files.IsKey u)
    (h : files.Unambiguous options imported u) (hp : files.Leads options u p) {m : Module}
    (hm : Scanned files options imported p m) {e : Error} :
    ¬ Missed files options imported p e := by
  rintro ⟨q, b, mq, t, htakes, hanswers, hmissed⟩
  obtain ⟨mq', t', found, hanswers', hfound, -⟩ := hm.taken htakes
  have halike := h.takenAlike hproper hp htakes fun _ =>
    h.agreed hproper hkey (hp.ask (asks_of_take htakes))
  have heq := halike mq t mq' t' hanswers hanswers'
  rw [hmissed, hfound] at heq
  cases heq

theorem not_cause (hproper : files.Proper) (hkey : files.IsKey u)
    (h : files.Unambiguous options imported u)
    (hscanned : ∀ p, files.Leads options u p → ∃ m, Scanned files options imported p m)
    {e : Error} : ¬ Cause files options imported u e := by
  rintro ⟨p, hp, hcause⟩
  obtain ⟨mp, hmp⟩ := hscanned p hp
  rcases hcause with hinvalid | ⟨e', -, hmissed⟩
  · exact hinvalid hmp.valid
  · exact h.not_missed hproper hkey hp hmp hmissed

end FileTree.Unambiguous

end Typings
