import Typings.Proofs.Nesting
import Typings.Proofs.Unambiguous

/-!
# Scans that fail alike

Where nothing is ambiguous, two scans of a file perform the same steps with the same success, for as
long as both go on.  So a file fails in all stores with the same error, or it fails in none.
-/

namespace Typings

open ExportScan ScanStep

/-- In both stores the query fails with the same error, or in both it does not fail. -/
def Query.FailsAlike {α : Type} (q : Query α) (s s' : Store) : Prop :=
  ∀ e, (q.eval s).1 = .error e ↔ (q.eval s').1 = .error e

variable {files : FileTree} {options : ResolverOptions} {imported : Path → String → Prop}
  {stack stack' : List Path} {p q u : Path} {s s' s₁ s₁' : Store}

namespace Query.FailsAlike

variable {α : Type} {x : Query α}

theorem of_error (h : x.FailsAlike s s') {e : Error} (heval : x.eval s = (.error e, s₁)) :
    ∃ s₁', x.eval s' = (.error e, s₁') :=
  ⟨_, Prod.ext ((h e).1 (congrArg Prod.fst heval)) rfl⟩

theorem of_ok (h : x.FailsAlike s s') {a : α} (heval : x.eval s = (.ok a, s₁)) :
    ∃ a' s₁', x.eval s' = (.ok a', s₁') := by
  rcases heval' : x.eval s' with ⟨e | a', s₁'⟩
  · have hfails := (h e).2 (congrArg Prod.fst heval')
    rw [heval] at hfails
    cases hfails
  · exact ⟨a', s₁', rfl⟩

end Query.FailsAlike

/-! ## One step -/

theorem Module.LocalsOf.change_congr {done : List ScanStep} {m m' : Module}
    (h : m.LocalsOf p done) (h' : m'.LocalsOf p done) (hpath : m.path = m'.path) (l : LocalStep) :
    l.change p m = l.change p m' := by
  cases l with
  | fail | remark | declare => rfl
  | promote s name => simp only [LocalStep.change, h name, h' name]
  | list b =>
      simp only [LocalStep.change, h.localIdentity?, h'.localIdentity?, Module.unresolved, hpath]

def FileTree.located (files : FileTree) (p : Path) : Except Error Path :=
  match files.key p with
  | .error e => .error e
  | .ok key =>
      match files.read key with
      | .error reason => .error (.unreadable key reason)
      | .ok _ => .ok key

theorem FileTree.Loads.eq_located (hs : s.Running files options stack) {r : Except Error Path}
    (h : files.Loads p s r s₁) : r = files.located p := by
  unfold FileTree.located
  cases h with
  | missing hkey => rw [hkey]
  | present hkey hm =>
      obtain ⟨m, hm⟩ := Option.isSome_iff_exists.1 hm
      rw [hkey]
      dsimp only
      rw [(hs.isFile _ m hm).read_eq]
  | unreadable hkey _ hread =>
      rw [hkey]
      dsimp only
      rw [hread]
  | read hkey _ hread =>
      rw [hkey]
      dsimp only
      rw [hread]

namespace ScanStep.Effect

variable {T : TableOf} {i : ScanStep} {r : Except Error Unit}

theorem eq_own {l : LocalStep} {m : Module} (h : Effect files T p (.own l) s r s₁)
    (hm : s.module? p = some m) : r = (l.change p m).map fun _ => () := by
  cases h with
  | changed hm' hf =>
      obtain rfl := Option.some.inj (hm.symm.trans hm')
      rw [hf]
      rfl
  | refused hm' hf =>
      obtain rfl := Option.some.inj (hm.symm.trans hm')
      rw [hf]
      rfl

theorem eq_visit {file : Path} (hs : s.Running files options stack)
    (h : Effect files T p (.visit file) s r s₁) : r = (files.located file).map fun _ => () := by
  cases h with
  | visited hl => rw [← (FileTree.loads hl).eq_located hs]; rfl
  | unvisited hl => rw [← (FileTree.loads hl).eq_located hs]; rfl

theorem eq_error (h : Effect files T p i s r s₁) (hi : i.asked? = some q) {e : Error} {s₂ : Store}
    (heval : (T q).eval s = (.error e, s₂)) : r = .error e := by
  cases h with
  | changed | refused | visited | unvisited => cases hi
  | merged h | taken h | notFound h | lost h =>
      obtain rfl := Option.some.inj hi
      rw [h] at heval
      cases heval
  | unmerged h | untaken h =>
      obtain rfl := Option.some.inj hi
      rw [h] at heval
      exact congrArg Except.error (Except.error.inj (Prod.mk.inj heval).1)

theorem eq_merge (h : Effect files T p (.merge q) s r s₁) {t : ExportTable} {s₂ : Store}
    (heval : (T q).eval s = (.ok t, s₂)) : r = .ok () := by
  cases h with
  | merged => rfl
  | unmerged h =>
      rw [h] at heval
      cases heval

theorem eq_take {b : Binding} (h : Effect files T p (.take q b) s r s₁) {t : ExportTable}
    {s₂ : Store} {m : Module} (heval : (T q).eval s = (.ok t, s₂)) (hm : s₂.module? q = some m) :
    r = (m.lookupExport t b.name).map fun _ => () := by
  cases h with
  | taken h hm' hfound | notFound h hm' hfound =>
      rw [h, Prod.mk.injEq, Except.ok.injEq] at heval
      rcases heval with ⟨rfl, rfl⟩
      obtain rfl := Option.some.inj (hm.symm.trans hm')
      rw [hfound]
      rfl
  | lost h hm' =>
      rw [h, Prod.mk.injEq] at heval
      rcases heval with ⟨-, rfl⟩
      simp [hm] at hm'
  | untaken h =>
      rw [h] at heval
      cases heval

end ScanStep.Effect

namespace Scanning

variable {n : Nat} {s₀ s₀' s₂ s₂' : Store} {done rest : List ScanStep} {i : ScanStep}
  {m m' : Module}

theorem result_eq
    (htakes : ∀ q b, files.Takes options p q b → TakenAlike files options imported p q b)
    (h : Scanning files options imported n stack p s₀ done s m)
    (h' : Scanning files options imported n stack' p s₀' done s' m')
    (hsteps : files.scanSteps options p = done ++ i :: rest)
    (hask : ∀ q, i.asked? = some q → (tableOf files n q).FailsAlike s s') {r r' : Except Error Unit}
    (he : Effect files (tableOf files n) p i s r s₂)
    (he' : Effect files (tableOf files n) p i s' r' s₂') : r = r' := by
  cases hasked : i.asked? with
  | none =>
      cases i with
      | own l =>
          have hpath : m.path = m'.path :=
            (h.running.isFile p m h.module).path_eq.trans
              (h'.running.isFile p m' h'.module).path_eq.symm
          rw [he.eq_own h.module, he'.eq_own h'.module, h.locals.change_congr h'.locals hpath]
      | visit file => rw [he.eq_visit h.running, he'.eq_visit h'.running]
      | merge target => cases hasked
      | take target b => cases hasked
  | some q =>
      have halike := hask q hasked
      rcases heval : (tableOf files n q).eval s with ⟨e | t, s₁⟩
      · obtain ⟨s₁', heval'⟩ := halike.of_error heval
        rw [he.eq_error hasked heval, he'.eq_error hasked heval']
      · obtain ⟨t', s₁', heval'⟩ := halike.of_ok heval
        cases i with
        | own l => cases hasked
        | visit file => cases hasked
        | merge target =>
            obtain rfl := Option.some.inj hasked
            rw [he.eq_merge heval, he'.eq_merge heval']
        | take target b =>
            obtain rfl := Option.some.inj hasked
            obtain ⟨mq, hmq, hanswers⟩ := (h.asking_next hsteps hasked).exists_answers heval
            obtain ⟨mq', hmq', hanswers'⟩ := (h'.asking_next hsteps hasked).exists_answers heval'
            have hfound := htakes target b (FileTree.mem_scanSteps_of_eq hsteps) mq t mq' t'
              hanswers hanswers'
            rw [he.eq_take heval hmq, he'.eq_take heval' hmq', hfound]

end Scanning

/-! ## Whole scans -/

namespace FileTree.Unambiguous

theorem of_leads (h : files.Unambiguous options imported u) (hq : files.Leads options u q) :
    files.Unambiguous options imported q where
  takes p r b hp := h.takes p r b (hq.trans hp)
  unique p hp := h.unique p (hq.trans hp)
  asked p r b hp := h.asked p r b (hq.trans hp)

theorem not_cause_of_kept (hproper : files.Proper) (hkey : files.IsKey u)
    (h : files.Unambiguous options imported u) (hs : s.Moment files options imported stack)
    {m : Module} (hm : s.module? u = some m) (hkept : m.exports.isSome) {e : Error} :
    ¬ Cause files options imported u e := by
  obtain ⟨t, ht⟩ := Option.isSome_iff_exists.1 hkept
  exact h.not_cause hproper hkey fun p hp => carried_scanned.moment hs u m t hm ht p hp

end FileTree.Unambiguous

/-- A scan fails where another scan of the file has failed, provided that all answers fail alike. -/
theorem Scanning.error_of_effect {n : Nat} {s₀ s₀' s₂ : Store} {done rest : List ScanStep}
    {i : ScanStep} {m : Module}
    (htakes : ∀ q b, files.Takes options p q b → TakenAlike files options imported p q b)
    (hask : ∀ {done i rest s m s' m' q},
      Scanning files options imported n stack p s₀ done s m →
      Scanning files options imported n stack p s₀' done s' m' →
      files.scanSteps options p = done ++ i :: rest → i.asked? = some q →
      (tableOf files n q).FailsAlike s s')
    (h : Scanning files options imported n stack p s₀ done s m)
    (hsteps : files.scanSteps options p = done ++ i :: rest) {e : Error}
    (heffect : Effect files (tableOf files n) p i s (.error e) s₂)
    (hs' : s₀'.Asking files options imported stack p) {m' : Module} (hm' : s₀'.module? p = some m')
    (ht' : m'.exports = none) (hw' : m'.pending = none) :
    ((tableOf files (n + 1) p).eval s₀').1 = .error (.inFile p e) := by
  have hsame : ∀ {done i rest s m s' m' s₂ s₂' r r'},
      files.scanSteps options p = done ++ i :: rest →
      Scanning files options imported n stack p s₀ done s m →
      Scanning files options imported n stack p s₀' done s' m' →
      Effect files (tableOf files n) p i s r s₂ → Effect files (tableOf files n) p i s' r' s₂' →
      r = r' := fun hsteps hscan hscan' he he' =>
    hscan.result_eq htakes hscan' hsteps (fun q hq => hask hscan hscan' hsteps hq) he he'
  have hpast : ∀ {after s' m'},
      ¬ Scanning files options imported n stack p s₀' (done ++ i :: after) s' m' := by
    intro after s' m' hscan'
    obtain ⟨s₃, m₃, s₄, m₄, hbefore, -, hadvance, -⟩ := hscan'.at_step rfl
    have heq := hsame hsteps h hbefore heffect (hadvance.effect hbefore.module)
    cases heq
  rcases heval : (tableOf files (n + 1) p).eval s₀' with ⟨r, s₁'⟩
  cases outcome hs' heval with
  | unloaded hm => simp [hm] at hm'
  | kept hm ht =>
      obtain rfl := Option.some.inj (hm'.symm.trans hm)
      rw [ht'] at ht
      cases ht
  | unfinished hm _ hw =>
      obtain rfl := Option.some.inj (hm'.symm.trans hm)
      rw [hw'] at hw
      cases hw
  | incomplete hscan' _ =>
      rw [hsteps] at hscan'
      exact absurd hscan' hpast
  | completed hscan' _ =>
      rw [hsteps] at hscan'
      exact absurd hscan' hpast
  | @failed _ _ _ _ _ _ _ done' rest' i' e' hscan' hsteps' heffect' =>
      rcases append_cons_cases (hsteps.symm.trans hsteps') with
        ⟨rfl, rfl⟩ | ⟨after, rfl⟩ | ⟨after, rfl⟩
      · rw [Except.error.inj (hsame hsteps h hscan' heffect heffect')]
      · exact absurd hscan' hpast
      · obtain ⟨s₃, m₃, s₄, m₄, hbefore, -, hadvance, -⟩ := h.at_step rfl
        have heq := hsame hsteps' hbefore hscan' (hadvance.effect hbefore.module) heffect'
        cases heq

namespace FileTree.Unambiguous

/-- Where nothing is ambiguous, a file fails in two stores with the same error, or in none. -/
theorem failsAlike (hproper : files.Proper) (hkey : files.IsKey u)
    (h : files.Unambiguous options imported u) {n : Nat} (hq : files.Leads options u q)
    (hs : s.Asking files options imported stack q) (hs' : s'.Asking files options imported stack q)
    (hloaded : (s.module? q).isSome) (hloaded' : (s'.module? q).isSome)
    (hn : files.size ≤ n + stack.length) :
    (ExportScan.tableOf files n q).FailsAlike s s' := by
  induction n using Nat.strongRecOn generalizing stack q s s' with
  | ind n ih =>
      have hone : ∀ {s s' e}, s.Asking files options imported stack q →
          s'.Asking files options imported stack q → (s.module? q).isSome →
          (s'.module? q).isSome → ((ExportScan.tableOf files n q).eval s).1 = .error e →
          ((ExportScan.tableOf files n q).eval s').1 = .error e := by
        intro s s' e hs hs' hloaded hloaded' hfails
        rcases heval : (ExportScan.tableOf files n q).eval s with ⟨r, s₁⟩
        obtain rfl : r = .error e := by rwa [heval] at hfails
        have hcause := cause_of_error hproper hs hloaded hn heval
        obtain ⟨m', hm'⟩ := Option.isSome_iff_exists.1 hloaded'
        have ht' : m'.exports = none := by
          rw [← Option.not_isSome_iff_eq_none]
          exact fun hkept => (h.of_leads hq).not_cause_of_kept hproper (hq.isKey hkey) hs'.moment hm' hkept
            hcause
        cases outcome hs heval with
        | unloaded hm => simp [hm] at hloaded
        | exhausted hm _ hw =>
            have hlt := hs.running.length_lt hproper hm hw
            have hcard := files.card_filePaths_le
            omega
        | @failed k _ _ _ _ _ _ done rest i e hscan hsteps heffect =>
            obtain ⟨m₀, hm₀, -, hw₀⟩ := hscan.idle
            have hw' : m'.pending = none := by
              rw [← Option.not_isSome_iff_eq_none, hs'.running.pending_iff_mem hm']
              exact hs.running.not_mem_of_idle hm₀ hw₀
            refine hscan.error_of_effect (fun r b htakes => ?_) ?_ hsteps heffect hs' hm' ht' hw'
            · exact h.takenAlike hproper hq htakes fun _ =>
                h.agreed hproper hkey (hq.ask (asks_of_take htakes))
            · intro done i rest s m s' m' r hscan hscan' hsteps hr
              have hasks := asks_of_asked? (mem_scanSteps_of_eq hsteps) hr
              refine ih k (Nat.lt_succ_self k) (hq.ask hasks)
                (hscan.asking_next hsteps hr) (hscan'.asking_next hsteps hr)
                (hscan.isSome_asked hsteps hr) (hscan'.isSome_asked hsteps hr) ?_
              rw [List.length_cons]
              omega
      exact fun e => ⟨hone hs hs' hloaded hloaded', hone hs' hs hloaded' hloaded⟩

end FileTree.Unambiguous

end Typings
