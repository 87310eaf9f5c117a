import Typings.Proofs.Session

/-!
# The bookkeeping of scans

While a request is worked on, the modules under construction are those whose scans are running,
and the store counts them.  Between requests no scan is on record, whatever failed before.
-/

namespace Typings

open ExportScan

variable {files : FileTree} {options : ResolverOptions} {s s' : Store} {stack : List Path}

/-! ## Moments of a request -/

namespace Request

/--
Working on `r` in `s` asks for the table of `p` in the store `s₁`: if something else came of that
one question, something else would come of the request.
-/
def Asks (files : FileTree) (r : Request) (s : Store) (p : Path) (s₁ : Store) : Prop :=
  ∃ T : TableOf, (∀ q s₂, (q, s₂) ≠ (p, s₁) → (T q).eval s₂ = (files.tableOf q).eval s₂) ∧
    (r.performBy files T).eval s ≠ (r.perform files).eval s

/-- The store is `s'` while `r` is worked on in `s` and the scans of the modules in `stack` run. -/
def Moment (files : FileTree) (r : Request) (s : Store) (stack : List Path) (s' : Store) : Prop :=
  ∃ p s₁, r.Asks files s p s₁ ∧ During files files.size p s₁ stack s'

theorem Asks.atRestWith {X : Store → Prop} (hX : Store.KeptByRequests files options X)
    (hproper : files.Proper) {r : Request} {p : Path} {s₁ : Store} (h : r.Asks files s p s₁)
    (hs : s.AtRestWith files options X) : s₁.AtRestWith files options X := by
  obtain ⟨T, hT, hne⟩ := h
  by_contra hnot
  refine hne ((hX.queriesAlike hproper fun s₂ q hs₂ hX₂ => hT q s₂ ?_).perform hproper r s hs).1
  rintro ⟨rfl, rfl⟩
  exact hnot ⟨hs₂, hX₂⟩

theorem Asks.atRest (hproper : files.Proper) {r : Request} {p : Path} {s₁ : Store}
    (h : r.Asks files s p s₁) (hs : s.AtRest files options) : s₁.AtRest files options :=
  (h.atRestWith (closed_atRest.requests hproper) hproper ⟨hs, hs⟩).1

theorem Moment.running (hproper : files.Proper) {r : Request} (h : r.Moment files s stack s')
    (hs : s.AtRest files options) : s'.Running files options stack := by
  obtain ⟨p, s₁, hasks, hduring⟩ := h
  have hrunning := hduring.running (hasks.atRest hproper hs).running (by simp)
  rwa [List.append_nil] at hrunning

open Classical in
theorem asks_exports {file key : Path} {s₁ : Store}
    (h : (files.load file).eval s = (.ok key, s₁)) : (exports file).Asks files s key s₁ := by
  let depth := (((exports file).perform files).eval s).2.depth + 1
  let odd : Query ExportTable := do
    modify fun s => { s with depth := depth }
    throw (.fileNotFound key)
  let T : TableOf := fun q => do
    if q = key ∧ (← get) = s₁ then odd else files.tableOf q
  have hT : ∀ q s₂, (T q).eval s₂ =
      if q = key ∧ s₂ = s₁ then odd.eval s₂ else (files.tableOf q).eval s₂ := by
    intro q s₂
    rw [Query.eval_bind_ok (Query.eval_get s₂)]
    split <;> rfl
  have hodd : odd.eval s₁ = (.error (.fileNotFound key), { s₁ with depth := depth }) :=
    (Query.eval_bind_ok (Query.eval_modify _ s₁)).trans (Query.eval_throw _ _)
  refine ⟨T, fun q s₂ hne => ?_, fun heq => ?_⟩
  · rw [hT, if_neg]
    rintro ⟨rfl, rfl⟩
    exact hne rfl
  · have hby : ((exports file).performBy files T).eval s =
        (.error (.fileNotFound key), { s₁ with depth := depth }) := by
      refine (Query.eval_bind_ok h).trans (Query.eval_bind_error ?_)
      rw [hT, if_pos ⟨rfl, rfl⟩, hodd]
    have hdepth := congrArg (fun x => x.2.depth) (hby.symm.trans heq)
    exact absurd hdepth (Nat.succ_ne_self _)

end Request

/-! ## Between requests -/

theorem FileTree.exports_kept_or_inFile (h : s.Running files options []) {p : Path}
    (hp : (s.module? p).isSome) {r : Except Error ExportTable}
    (heval : (files.exports p).eval s = (r, s')) :
    (∃ t m, r = .ok t ∧ s'.module? p = some m ∧ m.exports = some t) ∨
      ∃ e, r = .error (.inFile p e) := by
  rw [FileTree.eval_exports h] at heval
  cases r with
  | ok t =>
      obtain ⟨m, hm, ht⟩ := kept_of_answered h heval
      exact .inl ⟨t, m, rfl, hm, ht⟩
  | error e =>
      cases answered heval with
      | unloaded hm => simp [hm] at hp
      | failed => exact .inr ⟨_, rfl⟩

/--
Whatever was asked of the store and whatever failed, no scan is on record between requests.  While
a request is worked on, the modules under construction are those on the stack of running scans, at
the depths that they have there.  So asking for exports ends in a table that is kept, or in an
error of the module's own scan.
-/
theorem scans_tracked (hproper : files.Proper) (hs : s.Session files options) :
    s.Tracks [] ∧ s.partialFloor = none ∧
      (∀ r stack s', Request.Moment files r s stack s' → s'.Tracks stack) ∧
      ∀ p, (s.module? p).isSome → ∀ r s', (files.exports p).eval s = (r, s') →
        (∃ t m, r = .ok t ∧ s'.module? p = some m ∧ m.exports = some t) ∨
          ∃ e, r = .error (.inFile p e) := by
  have hatRest := hs.atRest hproper
  refine ⟨hatRest.running.tracks, hatRest.running.floor_eq_none, fun r stack s' hmoment => ?_, ?_⟩
  · exact (hmoment.running hproper hatRest).tracks
  · exact fun p hp r s' heval => FileTree.exports_kept_or_inFile hatRest.running hp heval

/-! ## A scan that fails inside another one -/

def missingName : FileTree :=
  .ofTexts [("a.d.ts", "export \x7b B \x7d from './b.js';\n"),
    ("b.d.ts", "export \x7b C \x7d from './c.js';\n")]

set_option maxRecDepth 100000 in
theorem scans_tracked_missingName : ∃ s s' : Store, s.Session missingName .standard ∧
    ((Request.exports ⟨"a.d.ts"⟩).perform missingName).eval (.ofOptions .standard) =
      (.error (.inFile ⟨"/w/a.d.ts"⟩ (.inFile ⟨"/w/b.d.ts"⟩ (.fileNotFound ⟨"/w/c.d.ts"⟩))), s) ∧
    s.Tracks [] ∧ s.partialFloor = none ∧
    (Request.exports ⟨"a.d.ts"⟩).Moment missingName s [⟨"/w/b.d.ts"⟩, ⟨"/w/a.d.ts"⟩] s' ∧
    s'.Tracks [⟨"/w/b.d.ts"⟩, ⟨"/w/a.d.ts"⟩] := by
  let a : Path := ⟨"/w/a.d.ts"⟩
  let b : Path := ⟨"/w/b.d.ts"⟩
  let request : Request := .exports ⟨"a.d.ts"⟩
  let s := ((request.perform missingName).eval (.ofOptions .standard)).2
  have hs : s.Session missingName .standard := .request .here request
  have hproper : missingName.Proper := FileTree.proper_ofTexts _
  have hrunning := (hs.atRest hproper).running
  have hidle : ∀ p ∈ [a, b], ∃ m, s.module? p = some m ∧ m.exports = none ∧ m.pending = none := by
    have hall : ∀ p ∈ [a, b], (s.module? p).any fun m => m.exports.isNone ∧ m.pending.isNone := by
      decide +kernel
    intro p hp
    simpa [Option.any_eq_true] using hall p hp
  obtain ⟨ma, hma, hta, hwa⟩ := hidle a (by simp)
  obtain ⟨mb, hmb, htb, hwb⟩ := hidle b (by simp)
  have hkey : missingName.key ⟨"a.d.ts"⟩ = .ok a := by decide +kernel
  have hasks : request.Asks missingName s a s :=
    Request.asks_exports (FileTree.load_of_loaded hkey (by rw [hma]; rfl))
  have hsteps : ma.scanSteps missingName s.options a = [.visit b] ++ .take b ⟨"B", none⟩ :: [] := by
    rw [hrunning.options_eq, (hrunning.isFile a ma hma).scanSteps_eq]
    decide +kernel
  have hmb' : (s.beginScan a).module? b = some mb :=
    (s.module?_beginScan_of_ne (by decide)).trans hmb
  have hvisit : (missingName.load b).eval (s.beginScan a) = (.ok b, s.beginScan a) :=
    FileTree.load_of_loaded (by decide +kernel) (by rw [hmb']; rfl)
  have hmoment : request.Moment missingName s [b, a] ((s.beginScan a).beginScan b) :=
    ⟨a, s, hasks, .inside hma hta hwa hsteps (.step (.visited hvisit) (.done _)) rfl
      (.scanning hmb' htb hwb (List.nil_append _).symm (.done _))⟩
  obtain ⟨htracks, hfloor, hmoments, -⟩ := scans_tracked hproper hs
  exact ⟨s, _, hs, Prod.ext (by decide +kernel) rfl, htracks, hfloor, hmoment, hmoments _ _ _ hmoment⟩

end Typings
