import Typings.Proofs.Cover
import Typings.Proofs.Location

/-!
# Why scans fail

A scan fails because of a file within reach.  Either the file itself is not in order, which no state
of the store can change, or a name that it takes from another file is not found there.  The number
of files is enough for scans inside each other, so running out of it is no cause.
-/

namespace Typings

open ExportScan ScanStep

/-! ## Files that are in order -/

def FileTree.Loadable (files : FileTree) (p : Path) : Prop :=
  ∃ key text, files.key p = .ok key ∧ files.read key = .ok text

/-- Nothing but the names taken from other files can make the scan of the file at `p` fail. -/
structure FileTree.Valid (files : FileTree) (options : ResolverOptions) (p : Path) : Prop where
  own : ∀ before l after, files.scanSteps options p = before ++ .own l :: after → l.Valid before
  visit : ∀ file, .visit file ∈ files.scanSteps options p → files.Loadable file

variable {files : FileTree} {options : ResolverOptions} {imported : Path → String → Prop}
  {stack : List Path} {s s' : Store}

theorem FileTree.Loads.loadable (hs : s.Running files options stack) {p key : Path}
    (h : files.Loads p s (.ok key) s') : files.Loadable p := by
  cases h with
  | present hkey hm =>
      obtain ⟨m, hm⟩ := Option.isSome_iff_exists.1 hm
      exact ⟨key, m.text, hkey, (hs.isFile key m hm).read_eq⟩
  | @read _ text hkey _ hread => exact ⟨key, text, hkey, hread⟩

theorem FileTree.Loads.not_loadable {p : Path} {e : Error} (h : files.Loads p s (.error e) s') :
    ¬ files.Loadable p := by
  rintro ⟨key, text, hkey, hread⟩
  cases h with
  | missing hkey' => simp_all
  | unreadable hkey' _ hread' => simp_all

theorem FileTree.Loads.isSome_module? {p key : Path} (h : files.Loads p s (.ok key) s') :
    (s'.module? key).isSome := by
  cases h with
  | present _ hm => exact hm
  | read _ _ _ => rw [Store.module?_addModule, if_pos rfl]; rfl

namespace Scanning

variable {n : Nat} {p : Path} {s₀ : Store} {done : List ScanStep} {m : Module}

theorem isSome_module? (h : Scanning files options imported n stack p s₀ done s m) {i : ScanStep}
    (hi : i ∈ files.scanSteps options p) {m' : Module}
    (hadvance : Advances files (tableOf files n) p i s m s' m') {q : Path}
    (hq : (s.module? q).isSome) : (s'.module? q).isSome :=
  ((hadvance.effect h.module).running (tame_tableOf n) h.running hi).2.isSome_module? hq

theorem valid_own (h : Scanning files options imported n stack p s₀ done s m) :
    ∀ before l after, done = before ++ .own l :: after → l.Valid before := by
  intro before l after hdone
  obtain ⟨s₁, m₁, s₂, m₂, hscan, -, hadvance, -⟩ := h.at_step hdone
  cases hadvance with
  | own hf => exact (hscan.locals.change_ok_iff l).1 ⟨_, hf⟩

theorem loadable (h : Scanning files options imported n stack p s₀ done s m) {file : Path}
    (hfile : .visit file ∈ done) : files.Loadable file := by
  obtain ⟨before, after, hdone⟩ := List.append_of_mem hfile
  obtain ⟨s₁, m₁, s₂, m₂, hscan, -, hadvance, -⟩ := h.at_step hdone
  cases hadvance with
  | visit hl => exact (FileTree.loads hl).loadable hscan.running

theorem isSome_visited (h : Scanning files options imported n stack p s₀ done s m) {file key : Path}
    (hfile : .visit file ∈ done) (hkey : files.key file = .ok key) :
    (s.module? key).isSome := by
  refine h.induct (motive := fun done s _ => .visit file ∈ done → (s.module? key).isSome)
    (fun m₀ _ _ _ hfile => by cases hfile) ?_ hfile
  intro done i s m s' m' hscan _ hi hadvance ih hfile
  rcases List.mem_append.1 hfile with hfile | hfile
  · exact hscan.isSome_module? hi hadvance (ih hfile)
  · obtain rfl := List.mem_singleton.1 hfile
    cases hadvance with
    | visit hl =>
        obtain rfl := Except.ok.inj (hkey.symm.trans (FileTree.key_of_load hl))
        exact (FileTree.loads hl).isSome_module?

theorem isSome_asked (h : Scanning files options imported n stack p s₀ done s m) {i : ScanStep}
    {rest : List ScanStep} (hsteps : files.scanSteps options p = done ++ i :: rest) {q : Path}
    (hq : i.asked? = some q) : (s.module? q).isSome := by
  obtain ⟨file, hfile, hkey⟩ := files.guarded_scanSteps options p done i rest q hsteps hq
  exact h.isSome_visited hfile hkey

end Scanning

theorem Scanned.exists_text {p : Path} {m : Module} (h : Scanned files options imported p m) :
    ∃ text, files.read p = .ok text := by
  rcases h with ⟨n, stack, s₀, s, hscan⟩
  exact ⟨m.text, (hscan.running.isFile p m hscan.module).read_eq⟩

theorem Scanned.valid {p : Path} {m : Module} (h : Scanned files options imported p m) :
    files.Valid options p := by
  rcases h with ⟨n, stack, s₀, s, hscan⟩
  exact ⟨hscan.valid_own, fun file hfile => hscan.loadable hfile⟩

/-! ## The cause of a failure -/

def Missed (files : FileTree) (options : ResolverOptions) (imported : Path → String → Prop)
    (p : Path) (e : Error) : Prop :=
  ∃ q b m t, files.Takes options p q b ∧ Answers files options imported p q m t ∧
    m.lookupExport t b.name = .error e

/-- What the failure of a scan that reaches the file at `q` is due to. -/
def Cause (files : FileTree) (options : ResolverOptions) (imported : Path → String → Prop)
    (q : Path) (e : Error) : Prop :=
  ∃ p, files.Leads options q p ∧
    (¬ files.Valid options p ∨ ∃ e', e.root = e'.root ∧ Missed files options imported p e')

theorem Cause.of_asks {p q : Path} {e : Error} (hasks : files.Asks options p q)
    (h : Cause files options imported q e) : Cause files options imported p e := by
  rcases h with ⟨r, hleads, hr⟩
  exact ⟨r, .of_asks hasks hleads, hr⟩

theorem Cause.inFile {q : Path} {e : Error} (h : Cause files options imported q e) (p : Path) :
    Cause files options imported q (.inFile p e) := h

namespace ExportScan

theorem cause_of_effect {n : Nat} {p : Path} {s₀ : Store} {done rest : List ScanStep} {m : Module}
    {i : ScanStep} {e : Error}
    (hask : ∀ {q s' e}, (s.module? q).isSome → i.asked? = some q →
      (tableOf files n q).eval s = (.error e, s') → Cause files options imported q e)
    (h : Scanning files options imported n stack p s₀ done s m)
    (hsteps : files.scanSteps options p = done ++ i :: rest)
    (he : Effect files (tableOf files n) p i s (.error e) s') :
    Cause files options imported p e := by
  have hi := FileTree.mem_scanSteps_of_eq hsteps
  cases he with
  | @refused l _ _ _ hm hf =>
      obtain rfl := Option.some.inj (h.module.symm.trans hm)
      refine ⟨p, .refl p, .inl fun hvalid => ?_⟩
      obtain ⟨f, hf'⟩ := (h.locals.change_ok_iff l).2 (hvalid.own done l rest hsteps)
      rw [hf] at hf'
      cases hf'
  | unvisited hl =>
      exact ⟨p, .refl p, .inl fun hvalid => (FileTree.loads hl).not_loadable (hvalid.visit _ hi)⟩
  | unmerged heval =>
      exact (hask (h.isSome_asked hsteps rfl) rfl heval).of_asks (FileTree.asks_of_merge hi)
  | notFound heval hmt hfound =>
      exact ⟨p, .refl p, .inr ⟨e, rfl, _, _, _, _, hi, ⟨n, stack, s, _,
        h.asking_next hsteps rfl, heval, hmt⟩, hfound⟩⟩
  | lost heval hlost =>
      have hasks := FileTree.asks_of_take hi
      have hevolves := (tame_tableOf n h.running (h.running.leads_of_asks hasks) heval).2
      have hloaded := hevolves.isSome_module? (h.isSome_asked hsteps rfl)
      rw [hlost] at hloaded
      cases hloaded
  | untaken heval =>
      exact (hask (h.isSome_asked hsteps rfl) rfl heval).of_asks (FileTree.asks_of_take hi)

theorem cause_of_error (hproper : files.Proper) {n : Nat} {q : Path} {e : Error}
    (h : s.Asking files options imported stack q)
    (hq : (s.module? q).isSome) (hn : files.size ≤ n + stack.length)
    (heval : (tableOf files n q).eval s = (.error e, s')) :
    Cause files options imported q e := by
  induction n using Nat.strongRecOn generalizing q e stack s s' with
  | ind n ih =>
      cases outcome h heval with
      | unloaded hm => simp [hm] at hq
      | exhausted hm _ hw =>
          have hlt := h.running.length_lt hproper hm hw
          have hcard := files.card_filePaths_le
          omega
      | failed hscan hsteps heffect =>
          refine Cause.inFile (cause_of_effect (fun hloaded hq hfails => ?_) hscan hsteps heffect) q
          refine ih _ (Nat.lt_succ_self _) (hscan.asking_next hsteps hq) hloaded ?_ hfails
          rw [List.length_cons]
          omega

end ExportScan

/-! ## Between queries -/

theorem FileTree.Loadable.eval_load {file u : Path} (h : files.Loadable file)
    (hkey : files.key file = .ok u) (s : Store) :
    ∃ s', (files.load file).eval s = (.ok u, s') ∧ (s'.module? u).isSome := by
  rcases heval : (files.load file).eval s with ⟨e | key, s'⟩
  · exact absurd h (FileTree.loads heval).not_loadable
  · obtain rfl := Except.ok.inj (hkey.symm.trans (FileTree.key_of_load heval))
    exact ⟨s', rfl, (FileTree.loads heval).isSome_module?⟩

/-- The exports of a loaded module are found, or there is a cause for the failure. -/
theorem FileTree.exports_or_cause (hproper : files.Proper) (hs : s.Reached files options imported)
    {u : Path} (hu : (s.module? u).isSome) :
    (∃ t s', (files.exports u).eval s = (.ok t, s')) ∨
      ∃ e s', (files.exports u).eval s = (.error e, s') ∧ Cause files options imported u e := by
  rw [FileTree.eval_exports hs.running]
  rcases heval : (ExportScan.tableOf files (files.size + 1) u).eval s with ⟨e | t, s'⟩
  · refine .inr ⟨e, s', rfl, ?_⟩
    exact ExportScan.cause_of_error hproper (.rest hs u) hu (by simp) heval
  · exact .inl ⟨t, s', rfl⟩

end Typings
