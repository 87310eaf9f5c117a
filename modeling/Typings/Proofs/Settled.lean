import Typings.Proofs.Listed

/-!
# Settled answers

A file that leads to none of the running scans answers with the table of a complete scan.  So do the
files behind its wildcards, and their tables are part of the answer.  A file whose scan is running
answers at least with what it lists ahead.
-/

namespace Typings

open ExportScan ScanStep

variable {files : FileTree} {options : ResolverOptions} {imported : Path → String → Prop}
  {p q : Path} {m : Module} {t : ExportTable}

/-! ## Tables that are kept -/

def Module.KeptScanned (files : FileTree) (options : ResolverOptions)
    (imported : Path → String → Prop) (p : Path) (m : Module) : Prop :=
  ∀ t, m.exports = some t → ∃ m₁, Scanned files options imported p m₁ ∧ m₁.table = t ∧
    ∀ n, ¬ imported p n → m.aliases.get? n = m₁.aliases.get? n

theorem scanInvariant_keptScanned : ScanInvariant files options imported
    (Module.KeptScanned files options imported) (fun _ _ => True) where
  loaded p text _ t ht := by cases ht
  edited p m m' he h t ht := by
    rw [he.exports_eq] at ht
    obtain ⟨m₁, hscanned, htable, haliases⟩ := h t ht
    refine ⟨m₁, hscanned, htable, fun n hn => ?_⟩
    rcases he.aliases n with heq | ⟨himported, -⟩
    · rw [heq, haliases n hn]
    · exact absurd himported hn
  begun p m d hnone _ t ht := by
    rw [Module.beginScan, hnone] at ht
    cases ht
  own p m l f done _ _ _ _ hf _ hnone _ t ht := by
    rw [(LocalStep.evolves_change hf).2, hnone] at ht
    cases ht
  merged p q m taken _ _ _ _ _ _ hnone _ t ht := by
    rw [Module.updatePending, hnone] at ht
    cases ht
  taken p q m mq b table found _ _ _ _ _ _ hnone _ t ht := by
    rw [(m.evolves_addTaken b found).2, hnone] at ht
    cases ht
  ended p m h := h
  keep p m hscanned _ t ht := ⟨m, hscanned, Option.some.inj ht, fun _ _ => rfl⟩
  answer_of_kept _ _ _ _ _ := trivial
  answer_of_scan _ _ _ _ := trivial

/-! ## Settled answers -/

/-- The table contains what scans of all files behind the wildcards of the file at `q` list. -/
def ExportTable.Full (files : FileTree) (options : ResolverOptions)
    (imported : Path → String → Prop) (q : Path) (t : ExportTable) : Prop :=
  ∀ r, Relation.ReflTransGen (files.Merges options) q r →
    ∃ m, Scanned files options imported r m ∧ m.table.Grows t

structure Settled (files : FileTree) (options : ResolverOptions)
    (imported : Path → String → Prop) (q : Path) (m : Module) (t : ExportTable) : Prop where
  path_eq : m.path = q
  scanned : ∃ m₁, Scanned files options imported q m₁ ∧ m₁.table = t ∧
    ∀ n, ¬ imported q n → m.aliases.get? n = m₁.aliases.get? n
  full : t.Full files options imported q

theorem FileTree.leads_of_merges (h : Relation.ReflTransGen (files.Merges options) p q) :
    files.Leads options p q :=
  Relation.ReflTransGen.mono (fun _ _ => Or.inl) _ _ h

/-- A file that leads to none of the running scans gives a settled answer. -/
theorem settled_of_answer {stack : List Path} {s s' : Store} {n : Nat}
    (h : s.Asking files options imported stack q)
    (hoff : ∀ r ∈ stack, ¬ files.Leads options q r)
    (heval : (tableOf files n q).eval s = (.ok t, s')) :
    ∃ m, s'.module? q = some m ∧ Settled files options imported q m t := by
  have hfull : t.Full files options imported q := fun r hr =>
    carried_merged.answer h (fun g hg hq => hoff g hg (FileTree.leads_of_merges hq)) heval hr
  have hafter := (tame_tableOf n h.running h.leads heval).1
  have hpath : ∀ {m}, s'.module? q = some m → m.path = q := fun hm => (hafter.isFile q _ hm).path_eq
  cases outcome h heval with
  | kept hm ht =>
      exact ⟨_, hm, hpath hm, scanInvariant_keptScanned.moment h.moment q _ hm t ht, hfull⟩
  | unfinished hm _ hw =>
      have hmem := (h.running.pending_iff_mem hm).1 (by rw [hw]; rfl)
      exact absurd (.refl q) (hoff q hmem)
  | @incomplete _ _ _ _ _ m₁ hscan _ =>
      have hm := Store.module?_endScan_self hscan.module stack.length
      exact ⟨_, hm, hpath hm, ⟨m₁, ⟨_, _, _, _, hscan⟩, rfl, fun _ _ => rfl⟩, hfull⟩
  | @completed _ _ _ _ _ m₁ hscan _ =>
      have hm := Store.module?_updateModule_self (·.keep m₁.table)
        (Store.module?_endScan_self hscan.module stack.length)
      exact ⟨_, hm, hpath hm, ⟨m₁, ⟨_, _, _, _, hscan⟩, rfl, fun _ _ => rfl⟩, hfull⟩

theorem Answers.settled (h : Answers files options imported p q m t)
    (hback : ¬ files.Leads options q p) : Settled files options imported q m t := by
  rcases h with ⟨n, stack, s, s', hasking, heval, hm⟩
  have hoff : ∀ r ∈ p :: stack, ¬ files.Leads options q r := by
    intro r hr hq
    rcases List.mem_cons.1 hr with rfl | hr
    · exact hback hq
    · exact hback (hq.trans ((List.pairwise_cons.1 hasking.running.leads).1 r hr))
  obtain ⟨m', hm', hsettled⟩ := settled_of_answer hasking hoff heval
  obtain rfl := Option.some.inj (hm.symm.trans hm')
  exact hsettled

/-- A file that answers has performed the steps that do not ask back, and lists what they give. -/
theorem Answers.exists_scanning (h : Answers files options imported p q m t) {done : List ScanStep}
    {i : ScanStep} (hstep : files.HasStep options true q done i) :
    ∃ n stack s₀ all s m₁ after, Scanning files options imported n stack q s₀ all s m₁ ∧
      all = done ++ i :: after ∧ m₁.table.Grows t := by
  rcases h with ⟨n, stack, s, s', hasking, heval, -⟩
  rcases hstep with ⟨⟨rest, hsteps⟩, hahead⟩
  cases outcome hasking heval with
  | kept hm ht =>
      obtain ⟨m₁, ⟨n, stack, s₀, s, hscan⟩, rfl, -⟩ :=
        scanInvariant_keptScanned.moment hasking.moment q _ hm t ht
      exact ⟨n, stack, s₀, _, s, m₁, rest, hscan, hsteps, .refl _⟩
  | unfinished hm _ hw =>
      have hmem := (hasking.running.pending_iff_mem hm).1 (by rw [hw]; rfl)
      obtain ⟨n, outer, s₀, done', s₁, m₁, j, rest', r, hscan, hsteps', hr, hback, hgrows⟩ :=
        hasking.exists_waiting hmem (.refl q) hm
      -- The scan waits for a file that leads back, so it has come past the step.
      rcases append_cons_cases (hsteps.symm.trans hsteps') with
        ⟨-, rfl⟩ | ⟨after, hdone⟩ | ⟨after, rfl⟩
      · exact absurd hback (hahead rfl i (by simp) r hr)
      · exact ⟨n, outer, s₀, done', s₁, m₁, after, hscan, hdone, hgrows⟩
      · exact absurd hback (hahead rfl j (by simp) r hr)
  | incomplete hscan _ => exact ⟨_, _, _, _, _, _, rest, hscan, hsteps, .refl _⟩
  | completed hscan _ => exact ⟨_, _, _, _, _, _, rest, hscan, hsteps, .refl _⟩

theorem Answers.lookupExport_of_has (hproper : files.Proper) (h : Answers files options imported p q m t)
    {name : String} (hhas : t.Has (.of name)) : ∃ found, m.lookupExport t name = .ok found ∧
      Provides files options imported q (.of name) found := by
  obtain ⟨found, hfound, hget⟩ := m.lookupExport_of_has hhas
  exact ⟨found, hfound, ((scanInvariant_sound hproper).answers h).2.of_get? hget⟩

/-- Full tables have what is listed, and all answers have what is listed ahead. -/
theorem Lists.has (hproper : files.Proper) {ahead : Bool} {slot : Slot}
    (h : Lists files options ahead q slot) :
    (∀ t : ExportTable, t.Full files options imported q → t.Has slot) ∧
      (ahead = true → ∀ p m t, Answers files options imported p q m t → t.Has slot) := by
  have hgiven : ∀ {ahead q done i slot}, files.HasStep options ahead q done i →
      (∀ {n stack s₀ all s m after}, Scanning files options imported n stack q s₀ all s m →
        all = done ++ i :: after → m.table.Has slot) →
      (∀ t : ExportTable, t.Full files options imported q → t.Has slot) ∧
        (ahead = true → ∀ p m t, Answers files options imported p q m t → t.Has slot) := by
    intro ahead q done i slot hstep hscan
    refine ⟨fun t hfull => ?_, fun hahead p m t hanswers => ?_⟩
    · obtain ⟨m, ⟨n, stack, s₀, s, hall⟩, hgrows⟩ := hfull q .refl
      rcases hstep with ⟨⟨rest, hsteps⟩, -⟩
      exact hgrows.has (hscan hall hsteps)
    · obtain ⟨n, stack, s₀, all, s, m₁, after, hall, hdone, hgrows⟩ :=
        hanswers.exists_scanning (hahead ▸ hstep)
      exact hgrows.has (hscan hall hdone)
  induction h with
  | itself hstep hl => exact hgiven hstep fun hall hdone => hall.has_itself hdone hl
  | @merged ahead q r done slot hstep _ ih =>
      refine ⟨fun t hfull => ih.1 t fun g hg => hfull g (hg.head hstep.mem), fun hahead => ?_⟩
      subst hahead
      refine (hgiven hstep fun hall hdone => ?_).2 rfl
      obtain ⟨mr, table, hanswers, hhas⟩ := hall.merged hdone
      have hback : ¬ files.Leads options r q := hstep.2 rfl (.merge r) (by simp) r rfl
      exact hhas slot (ih.1 table (hanswers.settled hback).full)
  | @taken ahead back q r done b hstep hname hback _ ih =>
      refine hgiven hstep fun hall hdone => ?_
      obtain ⟨mr, table, found, hanswers, hfound, hfills⟩ := hall.taken hdone
      have hhas : table.Has (.of b.name) := by
        rw [Slot.of, if_neg hname]
        by_cases hleads : files.Leads options r q
        · exact ih.2 (hback hleads) q mr table hanswers
        · exact ih.1 table (hanswers.settled hleads).full
      obtain ⟨found', hfound', hprovides⟩ := hanswers.lookupExport_of_has hproper hhas
      obtain rfl := Except.ok.inj (hfound.symm.trans hfound')
      rw [Slot.of, if_neg hname] at hprovides
      exact hfills (.name b.name) hprovides.name_eq
  | takenDefault hstep hname hnew =>
      refine hgiven hstep fun hall hdone => ?_
      obtain ⟨mr, table, found, -, -, hfills⟩ := hall.taken hdone
      exact hfills .default (.inr ⟨hname, hnew⟩)

theorem Answers.has (hproper : files.Proper) (h : Answers files options imported p q m t)
    {back : Bool} {slot : Slot} (hlists : Lists files options back q slot)
    (hback : files.Leads options q p → back = true) : t.Has slot := by
  by_cases hleads : files.Leads options q p
  · exact (hlists.has hproper).2 (hback hleads) p m t h
  · exact (hlists.has hproper).1 t (h.settled hleads).full

theorem Answers.path_eq (h : Answers files options imported p q m t) : m.path = q := by
  rcases h with ⟨n, stack, s, s', hasking, heval, hm⟩
  exact ((tame_tableOf n hasking.running hasking.leads heval).1.isFile q m hm).path_eq

end Typings
