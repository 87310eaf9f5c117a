import Typings.Proofs.Agreement
import Typings.Proofs.Session

/-!
# New names

A binding with a new name notes which type was found when it was scanned.  Asking for the new name
gives that type, unless the table has a type of this name or has lost the type that was found.
-/

namespace Typings

open ExportScan ScanStep

variable {files : FileTree} {options : ResolverOptions} {stack : List Path} {s s' : Store}

/-! ## Scans inside a question -/

namespace ExportScan

theorem Lookup.asking {imported : Path → String → Prop} {n k : Nat} {v w : Path}
    (hl : Lookup files n v s k w s') (h : s.Asking files options imported stack v) :
    ∃ inner, s'.Asking files options imported inner w := by
  induction hl generalizing stack with
  | here n v s => exact ⟨stack, h⟩
  | @inside n k v q w s s₁ s' m i before after hm ht hw hsteps hbefore hi _ ih =>
      rw [h.running.scanSteps_eq hm] at hsteps
      obtain ⟨m₁, hscan⟩ := Scanning.exists_scanning h hm ht hw hsteps hbefore
      exact ih (hscan.asking_next hsteps hi)

/-- A module that a nested scan has kept is the same when the whole question is answered. -/
theorem Lookup.module?_of_kept {n k : Nat} {v w p : Path} {s₁ s₂ : Store} {m : Module}
    {r r' : Except Error ExportTable} (hl : Lookup files n v s k w s')
    (h : s.Running files options stack) (hleads : ∀ r ∈ stack, files.Leads options r v)
    (hinner : (tableOf files k w).eval s' = (r, s₁)) (hm : s₁.module? p = some m)
    (hkept : m.exports.isSome) (houter : (tableOf files n v).eval s = (r', s₂)) :
    s₂.module? p = some m := by
  induction hl generalizing stack s₂ r' with
  | here n v s =>
      rw [hinner, Prod.mk.injEq] at houter
      rwa [← houter.2]
  | @inside n k v q w s s₃ s' mv i before after hmv ht hw hsteps hbefore hi _ ih =>
      obtain ⟨hrunning, -, hall⟩ := running_before h hleads hmv ht hw hsteps hbefore
      have hleads' := hrunning.leads_of_asks (FileTree.asks_of_asked? (hall i (by simp)) hi)
      -- The step that asks, and the steps behind it, leave the kept module alone.
      have hsteps' : ∀ {r s₄}, Performs files (tableOf files n) v (mv.scanSteps files s.options v)
          (s.beginScan v) r s₄ → s₄.module? p = some m ∧ p ≠ v := by
        intro r s₄ hperforms
        rw [hsteps] at hperforms
        obtain ⟨r₁, s₅, heffect, hafter⟩ := hperforms.at_cons hbefore
        obtain ⟨a, s₆, f, hask, rfl, -⟩ := heffect.ask hi
        have hmp := ih hrunning hleads' hinner hask
        have hne : p ≠ v := by
          rintro rfl
          have hunkept := (tame_tableOf n hrunning hleads' hask).1.exports_eq_none hmp
          simp [hunkept] at hkept
        have hmp' := (Store.module?_updateModule_of_ne f hne).trans hmp
        rcases hafter with tail | rfl
        · have hrunning' := (heffect.running (tame_tableOf n) hrunning (hall i (by simp))).1
          have hevolves := (tail.running (tame_tableOf n) hrunning'
            fun j hj => hall j (by simp [hj])).2
          exact ⟨hevolves.busy p m (by simpa using hne) hmp' (.inl hkept), hne⟩
        · exact ⟨hmp', hne⟩
      have hended : ∀ {r s₄ m'}, s.module? v = some m' →
          Performs files (tableOf files n) v (m'.scanSteps files s.options v) (s.beginScan v) r s₄ →
          (s₄.endScan v s.depth).module? p = some m ∧ p ≠ v := by
        intro r s₄ m' hm' hperforms
        obtain rfl := Option.some.inj (hmv.symm.trans hm')
        obtain ⟨hmp, hne⟩ := hsteps' hperforms
        exact ⟨(s₄.module?_endScan_of_ne hne _).trans hmp, hne⟩
      cases answered houter with
      | unloaded hm' => simp [hmv] at hm'
      | kept hm' ht' => simp_all
      | unfinished hm' _ hw' => simp_all
      | failed hm' _ _ steps => exact (hended hm' steps).1
      | incomplete hm' _ _ steps _ _ => exact (hended hm' steps).1
      | completed hm' _ _ steps _ _ =>
          obtain ⟨hmp, hne⟩ := hended hm' steps
          exact (Store.module?_updateModule_of_ne _ hne).trans hmp

end ExportScan

/-! ## What a binding finds -/

def ScanStep.found? (T : TableOf) (p : Path) (s : Store) : ScanStep → Option Identity
  | .own (.list b) => (s.module? p).bind fun m => m.localIdentity? b.name
  | .take target b => ((exportedBy T target b.name).eval s).1.toOption
  | _ => none

namespace ScanStep.Advances

variable {T : TableOf} {p : Path} {i : ScanStep} {m m' : Module} {k : String}

theorem aliases_of_found (h : Advances files T p i s m s' m') (hm : s.module? p = some m)
    (hk : i.newName? = some k) {found : Identity} (hfound : i.found? T p s = some found) :
    m'.aliases.get? k = some found := by
  cases h with
  | @own l _ _ f hf =>
      cases l with
      | list b =>
          simp only [found?, hm, Option.bind_some] at hfound
          simp only [LocalStep.change, hfound, Except.ok.injEq] at hf
          subst hf
          exact (m.aliases_rename b found k).trans (if_pos hk)
      | fail | remark | declare | promote => cases hk
  | visit => cases hk
  | merge => cases hk
  | @take _ b _ _ _ _ _ found' heval hmt hlookup =>
      simp only [found?, eval_exportedBy heval hmt, hlookup, Except.toOption,
        Option.some.injEq] at hfound
      subst hfound
      exact (m.aliases_rename b found' k).trans (if_pos hk)

theorem has_found (h : Advances files T p i s m s' m') (hm : s.module? p = some m)
    (hw : m.pending.isSome) {found : Identity} (hfound : i.found? T p s = some found) :
    m'.table.Has (.name found.name) := by
  cases h with
  | @own l _ _ f hf =>
      cases l with
      | list b =>
          simp only [found?, hm, Option.bind_some] at hfound
          simp only [LocalStep.change, hfound, Except.ok.injEq] at hf
          subst hf
          rw [Module.table_addListed hw, ExportTable.has_add_iff _ _ (by simp)]
          exact .inr rfl
      | fail | remark | declare | promote => cases hfound
  | visit => cases hfound
  | merge => cases hfound
  | @take _ b _ _ _ _ _ found' heval hmt hlookup =>
      simp only [found?, eval_exportedBy heval hmt, hlookup, Except.toOption,
        Option.some.injEq] at hfound
      subst hfound
      rw [Module.table_addTaken hw, ExportTable.has_addBinding_iff _ _ _ (by simp)]
      exact .inr rfl

theorem exists_found (h : Advances files T p i s m s' m') (hm : s.module? p = some m)
    (hk : i.newName? = some k) : ∃ found, i.found? T p s = some found := by
  cases h with
  | @own l _ _ f hf =>
      cases l with
      | list b =>
          cases hlocal : m.localIdentity? b.name with
          | none => simp [LocalStep.change, hlocal] at hf
          | some found => exact ⟨found, by simp [found?, hm, hlocal]⟩
      | fail | remark | declare | promote => cases hk
  | visit => cases hk
  | merge => cases hk
  | @take _ _ _ _ _ _ _ found' heval hmt hlookup =>
      exact ⟨found', by simp only [found?, eval_exportedBy heval hmt, hlookup, Except.toOption]⟩

end ScanStep.Advances

namespace Scanning

variable {imported : Path → String → Prop} {n : Nat} {p : Path} {s₀ : Store}
  {before after : List ScanStep} {m m' : Module} {k : String}

theorem aliases_of_append (h : Scanning files options imported n stack p s₀ before s m)
    (h' : Scanning files options imported n stack p s₀ (before ++ after) s' m')
    (hafter : ∀ j ∈ after, j.newName? ≠ some k) : m'.aliases.get? k = m.aliases.get? k := by
  induction after using List.reverseRecOn generalizing s' m' with
  | nil =>
      rw [List.append_nil] at h'
      obtain ⟨-, rfl⟩ := h.performs.unique h'.performs
      rw [Option.some.inj (h.module.symm.trans h'.module)]
  | append_singleton after i ih =>
      rw [← List.append_assoc] at h'
      obtain ⟨s₁, m₁, hscan, hstep⟩ := h'.of_next
      rw [hstep.aliases_of_ne (hafter i (by simp)), ih hscan fun j hj => hafter j (by simp [hj])]

end Scanning

/-! ## Scans that are kept -/

/--
A scan of the module at `p`, begun in `s` while a table was asked for between queries, has come to
the table `t`, which is kept.  The store is `s'` when the question is answered.
-/
structure FileTree.KeptScan (files : FileTree) (options : ResolverOptions) (p : Path) (k : Nat)
    (s : Store) (t : ExportTable) (s' : Store) : Prop where
  idle : ∃ m, s.module? p = some m ∧ m.exports = none ∧ m.pending = none
  asked : ∃ s₀ n q, s₀.AtRest files options ∧ files.size ≤ n ∧
    ExportScan.Lookup files n q s₀ (k + 1) p s ∧ ((ExportScan.tableOf files n q).eval s₀).2 = s'
  kept : ∃ s₁ m, (ExportScan.tableOf files (k + 1) p).eval s = (.ok t, s₁) ∧
    s₁.module? p = some m ∧ m.exports = some t

namespace FileTree.KeptScan

variable {p : Path} {k : Nat} {t : ExportTable}

theorem atRest (h : files.KeptScan options p k s t s') : s'.AtRest files options := by
  obtain ⟨s₀, n, q, hs₀, hn, -, rfl⟩ := h.asked
  exact hs₀.ask hn q

theorem exists_scanning (h : files.KeptScan options p k s t s') :
    ∃ stack s₁ m₁, Scanning files options (files.ImportsAs options) k stack p s
        (files.scanSteps options p) s₁ m₁ ∧
      m₁.table = t ∧ s'.module? p = some (m₁.endScan.keep t) := by
  obtain ⟨m, hm, ht, hw⟩ := h.idle
  obtain ⟨s₀, n, q, hs₀, -, hlookup, rfl⟩ := h.asked
  obtain ⟨s₁, m', heval, hm', ht'⟩ := h.kept
  have hrest : s₀.Asking files options (files.ImportsAs options) [] q := .rest hs₀ q
  obtain ⟨stack, hasking⟩ := hlookup.asking hrest
  have hmodule := hlookup.module?_of_kept hrest.running (by simp) heval hm' (by rw [ht']; rfl) rfl
  cases outcome hasking heval with
  | kept hm₀ ht₀ => simp_all
  | unfinished hm₀ _ hw₀ => simp_all
  | @incomplete _ _ _ _ s₁ m₁ hscan _ =>
      obtain rfl := Option.some.inj ((Store.module?_endScan_self hscan.module _).symm.trans hm')
      rw [Module.endScan, hscan.running.exports_eq_none hscan.module] at ht'
      cases ht'
  | @completed _ _ _ _ s₁ m₁ hscan _ =>
      have hkept := Store.module?_updateModule_self (·.keep m₁.table)
        (Store.module?_endScan_self hscan.module stack.length)
      obtain rfl := Option.some.inj (hkept.symm.trans hm')
      exact ⟨stack, s₁, m₁, hscan, rfl, hmodule⟩

end FileTree.KeptScan

theorem ExportTable.containsIdentity_of_get? {t : ExportTable} {n : String} {a : Identity}
    (h : t.names.get? n = some a) : t.containsIdentity a = true := by
  rw [containsIdentity, Bool.or_eq_true, List.any_eq_true]
  exact .inr ⟨a, List.mem_map_of_mem (OrderedMap.mem_entries_of_get? h),
    Identity.same_iff.2 ⟨rfl, rfl, rfl⟩⟩

/-- What asking for a new name comes to, by the table and the type that the binding has found. -/
def ExportTable.answerFor (t : ExportTable) (p : Path) (name : String) (found : Identity) :
    Except Error Identity :=
  match t.get? name with
  | some a => .ok a
  | none => if t.containsIdentity found then .ok found else .error (.unresolvedAlias name p found)

theorem FileTree.KeptScan.eval_exportNamed {p : Path} {k : Nat} {t : ExportTable} {s₁ : Store}
    (h : files.KeptScan options p k s t s₁) {found : Identity} {name : String}
    (himports : ¬ files.ImportsAs options p name)
    (halias : ∀ m, s₁.module? p = some m → m.aliases.get? name = some found)
    (hlater : s₁.Later files options s') :
    (files.exportNamed p name).eval s' = (t.answerFor p name found, s') := by
  obtain ⟨-, -, m₁, -, -, hm⟩ := h.exists_scanning
  rw [hlater.eval_exportNamed h.atRest hm rfl fun himported => absurd himported himports,
    Module.lookupExport, halias _ hm, (h.atRest.running.isFile p _ hm).path_eq]
  rfl

/--
Take a binding that no later binding of the file gives its new name to.  Asking for the new name,
at any time after a scan of the file that is kept, gives the type that the table has under this
name itself; if it has none, the type that the binding found when it was scanned, provided that the
table has it.  So it gives this type if the file provides no other one under the new name or under
the type's own name.
-/
theorem exportNamed_newName (hproper : files.Proper) {p : Path} {k : Nat} {t : ExportTable}
    {s₁ : Store} (hkept : files.KeptScan options p k s t s₁) {before after : List ScanStep}
    {i : ScanStep} {name : String} (hsteps : files.scanSteps options p = before ++ i :: after)
    (hname : i.newName? = some name) (hlast : ∀ j ∈ after, j.newName? ≠ some name)
    (himports : ¬ files.ImportsAs options p name) :
    ∃ s₂ found, Performs files (ExportScan.tableOf files k) p before (s.beginScan p) (.ok ()) s₂ ∧
      i.found? (ExportScan.tableOf files k) p s₂ = some found ∧
      ∀ s', s₁.Later files options s' →
        (files.exportNamed p name).eval s' = (t.answerFor p name found, s') ∧
        ((∀ a, Provides files options (files.ImportsAs options) p (.of name) a → a = found) →
          (∀ a, Provides files options (files.ImportsAs options) p (.name found.name) a →
            a = found) →
          (files.exportNamed p name).eval s' = (.ok found, s')) := by
  obtain ⟨stack, s₃, m₃, hscan, rfl, hm⟩ := hkept.exists_scanning
  obtain ⟨s₂, m₂, s₂', m₂', hbefore, hnext, hadvance, hgrows⟩ := hscan.at_step hsteps
  have hpending := (hbefore.running.pending_iff_mem hbefore.module).2 (List.mem_cons_self ..)
  obtain ⟨found, hfound⟩ := hadvance.exists_found hbefore.module hname
  have halias : m₃.aliases.get? name = some found := by
    rw [hsteps, ← List.singleton_append, ← List.append_assoc] at hscan
    rw [hnext.aliases_of_append hscan hlast]
    exact hadvance.aliases_of_found hbefore.module hname hfound
  refine ⟨s₂, found, hbefore.performs, hfound, fun s' hlater => ?_⟩
  have halias' : ∀ m, s₁.module? p = some m → m.aliases.get? name = some found := by
    intro m hm'
    obtain rfl := Option.some.inj (hm.symm.trans hm')
    exact halias
  have heval := hkept.eval_exportNamed himports halias' hlater
  refine ⟨heval, fun hnew hown => ?_⟩
  have hprovided := (Scanned.sound hproper ⟨_, _, _, _, hscan⟩).table
  obtain ⟨a, ha⟩ := Option.isSome_iff_exists.1
    (hgrows.has (hadvance.has_found hbefore.module hpending hfound))
  obtain rfl := hown a (hprovided.name _ a ha)
  rw [heval, ExportTable.answerFor]
  cases hget : m₃.table.get? name with
  | none => simp only [ExportTable.containsIdentity_of_get? ha, if_true]
  | some c => rw [hnew c (hprovided.of_get? hget)]

/-! ## Scans that are run -/

/--
A scan of the file at `p` is kept, in which the binding `i`, with the new name `name` and the steps
`after` behind it, finds `found`.  Asking for the new name, with `requests` made first, comes to
`answer`.
-/
def FileTree.NewNameGives (files : FileTree) (p : Path) (i : ScanStep) (after : List ScanStep)
    (name : String) (found : Identity) (requests : List Request)
    (answer : Except Error Identity) : Prop :=
  ∃ k s t s₁ before s₂, files.KeptScan .standard p k s t s₁ ∧
    files.scanSteps .standard p = before ++ i :: after ∧ i.newName? = some name ∧
    Performs files (ExportScan.tableOf files k) p before (s.beginScan p) (.ok ()) s₂ ∧
    i.found? (ExportScan.tableOf files k) p s₂ = some found ∧
    ((files.exportNamed p name).eval
      (requests.foldl (fun s r => ((r.perform files).eval s).2) s₁)).1 = answer

theorem FileTree.keptScan_of_loaded (file : Path) {p : Path} {k : Nat} {t : ExportTable}
    (h : files.size ≤ k + 1 ∧
      ((files.loaded file).module? p).any (fun m => m.exports.isNone ∧ m.pending.isNone) ∧
      ((ExportScan.tableOf files (k + 1) p).eval (files.loaded file)).1 = .ok t) :
    files.KeptScan .standard p k (files.loaded file) t
      ((ExportScan.tableOf files (k + 1) p).eval (files.loaded file)).2 := by
  obtain ⟨hk, hidle, htable⟩ := h
  have hs := files.atRest_loaded file
  have heval : (ExportScan.tableOf files (k + 1) p).eval (files.loaded file) =
      (.ok t, ((ExportScan.tableOf files (k + 1) p).eval (files.loaded file)).2) :=
    Prod.ext htable rfl
  obtain ⟨m, hm, ht⟩ := kept_of_answered hs.running heval
  refine ⟨?_, ⟨_, k + 1, p, hs, hk, .here _ _ _, rfl⟩, ⟨_, m, heval, hm, ht⟩⟩
  simpa [Option.any_eq_true] using hidle

def FileTree.runSteps (files : FileTree) (file p : Path) (k j : Nat) : Except Error Unit × Store :=
  (forM ((files.scanSteps .standard p).take j) (perform files (ExportScan.tableOf files k) p)).eval
    ((files.loaded file).beginScan p)

theorem FileTree.newNameGives_of_run (file : Path) {p : Path} {k j : Nat} {t : ExportTable}
    {i : ScanStep} {after : List ScanStep} {name : String} {found : Identity}
    {requests : List Request} {answer : Except Error Identity}
    (h : files.size ≤ k + 1 ∧
      ((files.loaded file).module? p).any (fun m => m.exports.isNone ∧ m.pending.isNone) ∧
      ((ExportScan.tableOf files (k + 1) p).eval (files.loaded file)).1 = .ok t ∧
      files.scanSteps .standard p = (files.scanSteps .standard p).take j ++ i :: after ∧
      i.newName? = some name ∧ (files.runSteps file p k j).1 = .ok () ∧
      i.found? (ExportScan.tableOf files k) p (files.runSteps file p k j).2 = some found ∧
      ((files.exportNamed p name).eval (requests.foldl (fun s r => ((r.perform files).eval s).2)
        ((ExportScan.tableOf files (k + 1) p).eval (files.loaded file)).2)).1 = answer) :
    files.NewNameGives p i after name found requests answer := by
  obtain ⟨hk, hidle, htable, hsteps, hname, hbefore, hfound, hanswer⟩ := h
  have hkept := files.keptScan_of_loaded file ⟨hk, hidle, htable⟩
  obtain ⟨m, hm, -⟩ := hkept.idle
  have hp : (((files.loaded file).beginScan p).module? p).isSome := by
    rw [Store.module?_beginScan_self hm]
    rfl
  have hperforms := @performs files _ p (@grows_tableOf files k)
    ((files.scanSteps .standard p).take j) _ hp
  exact ⟨k, _, t, _, _, _, hkept, hsteps, hname, hbefore ▸ hperforms, hfound, hanswer⟩

def takenRenamed : FileTree := .ofTexts
  [("a.d.ts", "export \x7b B as M \x7d from './b.js';\n"), ("b.d.ts", "export type B = string;\n")]

namespace takenRenamed

set_option maxRecDepth 100000 in
theorem scanSteps_a : takenRenamed.scanSteps .standard ⟨"/w/a.d.ts"⟩ =
    [.visit ⟨"/w/b.d.ts"⟩] ++ .take ⟨"/w/b.d.ts"⟩ ⟨"B", some "M"⟩ :: [] := by
  decide +kernel

set_option maxRecDepth 100000 in
theorem scanSteps_b : takenRenamed.scanSteps .standard ⟨"/w/b.d.ts"⟩ =
    [.own (.declare ⟨"export type B = string;".toList, 0⟩
      ⟨true, false, .typeAlias, "B", " = string;".toList⟩)] := by
  decide +kernel

variable {imported : Path → String → Prop} {slot : Slot} {a : Identity}

theorem provided_b (h : Provides takenRenamed .standard imported ⟨"/w/b.d.ts"⟩ slot a) :
    a = ⟨⟨"/w/b.d.ts"⟩, "B", false⟩ := by
  cases h with
  | itself h =>
      rcases h with ⟨done, l, rest, hsteps, hl⟩
      have hmem := FileTree.mem_scanSteps_of_eq hsteps
      rw [scanSteps_b, List.mem_singleton, ScanStep.own.injEq] at hmem
      subst hmem
      exact hl.2.1
  | merged hover => simpa [FileTree.Merges, scanSteps_b] using hover.merges
  | taken htakes => simp [FileTree.Takes, scanSteps_b] at htakes

theorem provided_a (h : Provides takenRenamed .standard imported ⟨"/w/a.d.ts"⟩ slot a) :
    a = ⟨⟨"/w/b.d.ts"⟩, "B", false⟩ := by
  cases h with
  | itself h =>
      rcases h with ⟨done, l, rest, hsteps, -⟩
      have hmem := FileTree.mem_scanSteps_of_eq hsteps
      simp [scanSteps_a] at hmem
  | merged hover => simpa [FileTree.Merges, scanSteps_a] using hover.merges
  | taken htakes hq _ _ =>
      obtain ⟨rfl, -⟩ : _ = _ ∧ _ = _ := by simpa [FileTree.Takes, scanSteps_a] using htakes
      exact provided_b hq

end takenRenamed

set_option maxRecDepth 100000 in
theorem exportNamed_takenRenamed : ∃ k s t s₁ s₂,
    takenRenamed.KeptScan .standard ⟨"/w/a.d.ts"⟩ k s t s₁ ∧
    Performs takenRenamed (ExportScan.tableOf takenRenamed k) ⟨"/w/a.d.ts"⟩ [.visit ⟨"/w/b.d.ts"⟩]
      (s.beginScan ⟨"/w/a.d.ts"⟩) (.ok ()) s₂ ∧
    ScanStep.found? (ExportScan.tableOf takenRenamed k) ⟨"/w/a.d.ts"⟩ s₂
      (.take ⟨"/w/b.d.ts"⟩ ⟨"B", some "M"⟩) = some ⟨⟨"/w/b.d.ts"⟩, "B", false⟩ ∧
    (takenRenamed.exportNamed ⟨"/w/a.d.ts"⟩ "M").eval s₁ =
      (.ok ⟨⟨"/w/b.d.ts"⟩, "B", false⟩, s₁) := by
  have hkept := takenRenamed.keptScan_of_loaded ⟨"a.d.ts"⟩ (p := ⟨"/w/a.d.ts"⟩) (k := 2)
    (t := ⟨⟨[("B", ⟨⟨"/w/b.d.ts"⟩, "B", false⟩)]⟩, none⟩) (by decide +kernel)
  have hproper : takenRenamed.Proper := FileTree.proper_ofTexts _
  have himports : ¬ takenRenamed.ImportsAs .standard ⟨"/w/a.d.ts"⟩ "M" := by decide +kernel
  obtain ⟨s₂, found, hbefore, hfound, hanswer⟩ := exportNamed_newName hproper hkept
    takenRenamed.scanSteps_a rfl (by simp) himports
  obtain ⟨heval, hunique⟩ := hanswer _ .here
  have hrun : ((takenRenamed.exportNamed ⟨"/w/a.d.ts"⟩ "M").eval ((ExportScan.tableOf takenRenamed 3
      ⟨"/w/a.d.ts"⟩).eval (takenRenamed.loaded ⟨"a.d.ts"⟩)).2).1 =
        .ok ⟨⟨"/w/b.d.ts"⟩, "B", false⟩ := by
    decide +kernel
  obtain rfl : found = ⟨⟨"/w/b.d.ts"⟩, "B", false⟩ := by
    have hget : (ExportTable.mk ⟨[("B", ⟨⟨"/w/b.d.ts"⟩, "B", false⟩)]⟩ none).get? "M" = none := by
      decide
    have hresult := (congrArg Prod.fst heval).symm.trans hrun
    simp only [ExportTable.answerFor, hget] at hresult
    split at hresult
    · exact Except.ok.inj hresult
    · cases hresult
  exact ⟨_, _, _, _, s₂, hkept, hbefore, hfound,
    hunique (fun _ => takenRenamed.provided_a) fun _ => takenRenamed.provided_a⟩

/-- Two declarations swap their names. -/
def swappedNames : FileTree := .ofTexts
  [("a.d.ts", "type A = string;\ntype B = number;\nexport \x7b A as B, B as A \x7d;\n")]

/-- A type that has a new name makes way for another type of its own name. -/
def displacedName : FileTree := .ofTexts
  [("a.d.ts", "export \x7b X as M \x7d from './b.js';\nexport \x7b X \x7d from './c.js';\n"),
   ("b.d.ts", "export type X = string;\n"), ("c.d.ts", "export type X = number;\n")]

/-- An import gives a type of another file the name that a type is taken under. -/
def importedOver : FileTree := .ofTexts
  [("a.d.ts", "import \x7b V as M \x7d from './v.js';\nexport \x7b N as M \x7d from './b.js';\n"),
   ("b.d.ts", "export type N = string;\n"), ("v.d.ts", "export type V = number;\n")]

set_option maxRecDepth 100000 in
/--
Though nothing behind the binding is exported under the new name, another type or none is found: the
table lists the name, the type has made way for another one, or the imports are scanned first.
-/
theorem newNames_missed :
    swappedNames.NewNameGives ⟨"/w/a.d.ts"⟩ (.own (.list ⟨"B", some "A"⟩)) [] "A"
      ⟨⟨"/w/a.d.ts"⟩, "B", false⟩ [] (.ok ⟨⟨"/w/a.d.ts"⟩, "A", false⟩) ∧
    displacedName.NewNameGives ⟨"/w/a.d.ts"⟩ (.take ⟨"/w/b.d.ts"⟩ ⟨"X", some "M"⟩)
      [.visit ⟨"/w/c.d.ts"⟩, .take ⟨"/w/c.d.ts"⟩ ⟨"X", none⟩] "M" ⟨⟨"/w/b.d.ts"⟩, "X", false⟩
      [] (.error (.unresolvedAlias "M" ⟨"/w/a.d.ts"⟩ ⟨⟨"/w/b.d.ts"⟩, "X", false⟩)) ∧
    importedOver.NewNameGives ⟨"/w/a.d.ts"⟩ (.take ⟨"/w/b.d.ts"⟩ ⟨"N", some "M"⟩) [] "M"
      ⟨⟨"/w/b.d.ts"⟩, "N", false⟩ [.imports ⟨"a.d.ts"⟩]
      (.error (.unresolvedAlias "M" ⟨"/w/a.d.ts"⟩ ⟨⟨"/w/v.d.ts"⟩, "V", false⟩)) := by
  refine ⟨?_, ?_, ?_⟩
  · refine FileTree.newNameGives_of_run ⟨"a.d.ts"⟩ (k := 1) (j := 3)
      (t := ⟨⟨[("A", ⟨⟨"/w/a.d.ts"⟩, "A", false⟩), ("B", ⟨⟨"/w/a.d.ts"⟩, "B", false⟩)]⟩, none⟩) ?_
    decide +kernel
  · refine FileTree.newNameGives_of_run ⟨"a.d.ts"⟩ (k := 3) (j := 1)
      (t := ⟨⟨[("X", ⟨⟨"/w/c.d.ts"⟩, "X", false⟩)]⟩, none⟩) ?_
    decide +kernel
  · refine FileTree.newNameGives_of_run ⟨"a.d.ts"⟩ (k := 3) (j := 1)
      (t := ⟨⟨[("N", ⟨⟨"/w/b.d.ts"⟩, "N", false⟩)]⟩, none⟩) ?_
    decide +kernel

end Typings
