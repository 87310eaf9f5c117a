import Typings.Proofs.Lockstep
import Typings.Proofs.Upkeep

/-!
# Answers without circles

If no file within reach of a file is on a circle, no scan among these files reads an unfinished
table.  What they answer then follows, file by file, from the store in which a run begins, and it is
the same throughout the run, whichever scans fail in between.
-/

namespace Typings

open ExportScan ScanStep

/-! ## Answers without runs -/

/-- What a step makes of the scanned module at `p`, if the other files answer as given. -/
def ScanStep.apply (files : FileTree) (answer : Path → Except Error Module) (p : Path)
    (m : Module) : ScanStep → Except Error Module
  | .own l => (l.change p m).map fun f => f m
  | .visit file => (files.located file).map fun _ => m
  | .merge q => (answer q).map fun mq => m.updatePending (·.merge mq.table)
  | .take q b =>
      (answer q).bind fun mq => (mq.lookupExport mq.table b.name).map (m.addTaken b)

namespace Store

/-- The module at `p`, if it is kept, as it was at the end of its scan. -/
def finished? (s : Store) (p : Path) : Option Module := do
  let m ← s.module? p
  let t ← m.exports
  return { m with pending := some ⟨0, t⟩ }

def opened (s : Store) (p : Path) : Module :=
  ((s.module? p).getD (Module.ofText p [] false)).beginScan 0

end Store

/-- What the file at `p` answers in a run that begins with the store, by scans nested so deep. -/
def FileTree.answerWithin (files : FileTree) (options : ResolverOptions) (base : Store) :
    Nat → Path → Except Error Module
  | 0, p => .error (.unresolvedImport "*" p)
  | n + 1, p =>
      match base.finished? p with
      | some m => .ok m
      | none => ((files.scanSteps options p).foldlM
          (ScanStep.apply files (files.answerWithin options base n) p) (base.opened p)).mapError
            (.inFile p)

def FileTree.answer (files : FileTree) (options : ResolverOptions) (base : Store) :
    Path → Except Error Module :=
  files.answerWithin options base (files.locations.length + 1)

variable {files : FileTree} {options : ResolverOptions} {imported : Path → String → Prop}
  {base s s' s₁ s₂ : Store} {u p q : Path} {stack : List Path} {n : Nat}

theorem ScanStep.apply_congr {answer answer' : Path → Except Error Module} {i : ScanStep}
    (h : ∀ q, i.asked? = some q → answer q = answer' q) (m : Module) :
    i.apply files answer p m = i.apply files answer' p m := by
  cases i with
  | own l => rfl
  | visit file => rfl
  | merge q => simp only [apply, h q rfl]
  | take q b => simp only [apply, h q rfl]

theorem ScanStep.foldlM_apply_congr {answer answer' : Path → Except Error Module}
    {is : List ScanStep} (h : ∀ i ∈ is, ∀ q, i.asked? = some q → answer q = answer' q) (m : Module) :
    is.foldlM (apply files answer p) m = is.foldlM (apply files answer' p) m := by
  induction is generalizing m with
  | nil => rfl
  | cons i is ih =>
      rw [List.forall_mem_cons] at h
      rw [List.foldlM_cons, List.foldlM_cons, apply_congr h.1]
      exact congrArg (_ >>= ·) (funext (ih h.2))

namespace FileTree

theorem reachSize_le (p : Path) : files.reachSize options p ≤ files.locations.length := by
  classical
  exact (Finset.card_filter_le _ _).trans (List.toFinset_card_le _)

theorem mem_locations_of_mem_scanSteps (hproper : files.Proper) (hp : files.IsKey p) {i : ScanStep}
    (hi : i ∈ files.scanSteps options p) : p ∈ files.locations := by
  cases hread : files.read p with
  | error e => simp [scanSteps, exportStatements, hread] at hi
  | ok text => exact hp.mem_locations hproper hread

variable (hproper : files.Proper) (hkey : files.IsKey u) (hcircle : files.NoCircles options u)

include hproper hkey hcircle

/-- The scans are not nested deeper than there are files within reach. -/
theorem answerWithin_succ (hp : files.Leads options u p) (hn : files.reachSize options p < n) :
    files.answerWithin options base (n + 1) p = files.answerWithin options base n p := by
  induction n generalizing p with
  | zero => exact absurd hn (Nat.not_lt_zero _)
  | succ n ih =>
      rw [answerWithin, answerWithin]
      cases base.finished? p with
      | some m => rfl
      | none =>
          dsimp only
          rw [foldlM_apply_congr fun i hi q hq => ?_]
          have hasks := asks_of_asked? hi hq
          have hback : ¬ files.Leads options q p := fun hqp => hcircle p hp ⟨q, hasks, hqp⟩
          have hlt := reachSize_lt
            (mem_locations_of_mem_scanSteps hproper (hp.isKey hkey) hi) hasks.leads hback
          exact ih (hp.ask hasks) (by omega)

theorem answer_eq (hp : files.Leads options u p) : files.answer options base p =
    match base.finished? p with
    | some m => .ok m
    | none => ((files.scanSteps options p).foldlM
        (ScanStep.apply files (files.answer options base) p) (base.opened p)).mapError
          (.inFile p) := by
  have hle : files.reachSize options p ≤ files.locations.length := files.reachSize_le p
  exact (answerWithin_succ hproper hkey hcircle hp (by omega)).symm

end FileTree

/-! ## Stores in keeping with the answers -/

def Module.AnswersAs (imported : Path → String → Prop) (u q : Path) (m : Module) (t : ExportTable)
    (m' : Module) : Prop :=
  m'.table = t ∧
    ∀ name, (q = u → ¬ imported u name) → m.lookupExport t name = m'.lookupExport t name

/--
The module at `q` is kept with the answer of a run that begins with the store `base`, or it is not
kept, and only its scans and the imports at `u` have given it new names.
-/
structure Module.InKeeping (files : FileTree) (options : ResolverOptions)
    (imported : Path → String → Prop) (base : Store) (u q : Path) (m : Module) : Prop where
  kept : ∀ t, m.exports = some t →
    ∃ m', files.answer options base q = .ok m' ∧ m.AnswersAs imported u q t m'
  unkept : m.exports = none → base.finished? q = none ∧
    ∀ name, (q = u → ¬ imported u name) →
      (∀ i ∈ files.scanSteps options q, i.newName? ≠ some name) →
      m.aliases.get? name = (base.opened q).aliases.get? name

/-- All files within reach of the file at `u` are in keeping with a run that begins with `base`. -/
structure Store.InKeeping (files : FileTree) (options : ResolverOptions)
    (imported : Path → String → Prop) (u : Path) (s base : Store) : Prop where
  loaded : ∀ q, (base.module? q).isSome → (s.module? q).isSome
  modules : ∀ q m, files.Leads options u q → s.module? q = some m →
    m.InKeeping files options imported base u q

theorem Module.InKeeping.change {m m' : Module} (h : m.InKeeping files options imported base u q)
    (hm : m.exports = none) (hm' : m'.exports = none) (haliases : ∀ name,
      (∀ i ∈ files.scanSteps options q, i.newName? ≠ some name) →
      m'.aliases.get? name = m.aliases.get? name) :
    m'.InKeeping files options imported base u q where
  kept t ht := by simp [hm'] at ht
  unkept _ := ⟨(h.unkept hm).1, fun name hname hsteps =>
    (haliases name hsteps).trans ((h.unkept hm).2 name hname hsteps)⟩

theorem Module.InKeeping.edited {m m' : Module} (h : m.InKeeping files options imported base u q)
    (hexports : m'.exports = m.exports) (hpath : m'.path = m.path)
    (haliases : ∀ name, (q = u → ¬ imported u name) →
      m'.aliases.get? name = m.aliases.get? name) :
    m'.InKeeping files options imported base u q where
  kept t ht := by
    obtain ⟨m₁, hanswer, htable, hlookup⟩ := h.kept t (hexports ▸ ht)
    refine ⟨m₁, hanswer, htable, fun name hname => ?_⟩
    rw [← hlookup name hname]
    simp only [Module.lookupExport, haliases name hname, Module.unresolved, hpath]
  unkept hnone := ⟨(h.unkept (hexports ▸ hnone)).1, fun name hname hsteps =>
    (haliases name hname).trans ((h.unkept (hexports ▸ hnone)).2 name hname hsteps)⟩

namespace Store.InKeeping

theorem updateModule (h : s.InKeeping files options imported u base) {f : Module → Module}
    (hf : ∀ m, files.Leads options u p → s.module? p = some m →
      m.InKeeping files options imported base u p →
      (f m).InKeeping files options imported base u p) :
    (s.updateModule p f).InKeeping files options imported u base where
  loaded q hq := (s.grows_updateModule p f).isSome_module? q (h.loaded q hq)
  modules q m' hq hm' := by
    rw [module?_updateModule] at hm'
    split at hm'
    · next heq =>
        subst heq
        obtain ⟨m, hm, rfl⟩ := Option.map_eq_some_iff.1 hm'
        exact hf m hq hm (h.modules q m hq hm)
    · exact h.modules q m' hq hm'

theorem load (h : s.InKeeping files options imported u base) {file : Path} {r : Except Error Path}
    (hl : files.Loads file s r s') : s'.InKeeping files options imported u base := by
  cases hl with
  | missing | present | unreadable => exact h
  | @read key text hkey hm hread =>
      have hbase : base.module? key = none := by
        rw [← Option.not_isSome_iff_eq_none]
        intro hloaded
        simpa [hm] using h.loaded key hloaded
      constructor
      · intro q hq
        rw [module?_addModule]
        split
        · rfl
        · exact h.loaded q hq
      · intro q m hq hm'
        rw [module?_addModule] at hm'
        split at hm'
        · next heq =>
            obtain rfl := Option.some.inj hm'
            subst heq
            refine ⟨fun t ht => (by cases ht), fun _ => ⟨?_, fun name _ _ => ?_⟩⟩
            · rw [finished?, hbase]
              rfl
            · rw [opened, hbase]
              rfl
        · exact h.modules q m hq hm'

end Store.InKeeping

def Expected (files : FileTree) (options : ResolverOptions) (imported : Path → String → Prop)
    (base : Store) (u q : Path) : Except Error ExportTable → Store → Prop
  | .error e, _ => files.answer options base q = .error e
  | .ok t, s => ∃ m m', s.module? q = some m ∧ files.answer options base q = .ok m' ∧
      m.AnswersAs imported u q t m'

/-! ## A scan and what it is expected to come to -/

/-- The scanned module `m` has come past the steps `done` as the module `m'` has. -/
structure Module.Follows (files : FileTree) (options : ResolverOptions)
    (imported : Path → String → Prop) (u p : Path) (done : List ScanStep) (m m' : Module) : Prop where
  path_eq : m'.path = p
  pending : m'.pending.isSome
  locals : m'.LocalsOf p done
  table_eq : m.table = m'.table
  aliases_eq : ∀ name, (p = u → ¬ imported u name) →
    ((∃ i ∈ done, i.newName? = some name) ∨
      ∀ i ∈ files.scanSteps options p, i.newName? ≠ some name) →
    m.aliases.get? name = m'.aliases.get? name

namespace Module.Follows

variable {done : List ScanStep} {i : ScanStep} {m m' m₁ m₁' : Module}

theorem next (h : m.Follows files options imported u p done m') (hevolves : m'.Evolves m₁')
    (hlocals : m₁'.LocalsOf p (done ++ [i])) (htable : m₁.table = m₁'.table)
    (hother : ∀ name, i.newName? ≠ some name → m₁.aliases.get? name = m.aliases.get? name ∧
      m₁'.aliases.get? name = m'.aliases.get? name)
    (hgiven : ∀ name, i.newName? = some name → m₁.aliases.get? name = m₁'.aliases.get? name) :
    m₁.Follows files options imported u p (done ++ [i]) m₁' where
  path_eq := hevolves.path_eq.trans h.path_eq
  pending := by
    rw [← Option.isSome_map (f := Pending.depth), hevolves.depth_eq, Option.isSome_map]
    exact h.pending
  locals := hlocals
  table_eq := htable
  aliases_eq name hname hsteps := by
    by_cases hi : i.newName? = some name
    · exact hgiven name hi
    · rw [(hother name hi).1, (hother name hi).2]
      refine h.aliases_eq name hname (hsteps.imp_left ?_)
      rintro ⟨j, hj, hjname⟩
      rcases List.mem_append.1 hj with hj | hj
      · exact ⟨j, hj, hjname⟩
      · obtain rfl := List.mem_singleton.1 hj
        exact absurd hjname hi

theorem own (h : m.Follows files options imported u p done m') (hpending : m.pending.isSome)
    (hlocals : m.LocalsOf p done) {l : LocalStep} {f : Module → Module}
    (hf : l.change p m = .ok f) (hf' : l.change p m' = .ok f) :
    (f m).Follows files options imported u p (done ++ [.own l]) (f m') := by
  refine h.next (LocalStep.evolves_change hf').1 (h.locals.change hf') ?_ (fun name hname =>
    ⟨LocalStep.aliases_change_of_ne hf hname, LocalStep.aliases_change_of_ne hf' hname⟩)
    fun name hname => ?_
  · rw [hlocals.table_change hpending hf, h.locals.table_change h.pending hf', h.table_eq]
  · cases l with
    | list b => rw [hlocals.aliases_list hf hname, h.locals.aliases_list hf' hname]
    | fail | remark | declare | promote => cases hname

theorem visit (h : m.Follows files options imported u p done m') (file : Path) :
    m.Follows files options imported u p (done ++ [.visit file]) m' :=
  h.next (.refl m') (h.locals.next_of_not_declares (by simp)) h.table_eq
    (fun _ _ => ⟨rfl, rfl⟩) fun _ hname => by cases hname

theorem merge (h : m.Follows files options imported u p done m') (hpending : m.pending.isSome)
    (q : Path) (t : ExportTable) :
    (m.updatePending (·.merge t)).Follows files options imported u p (done ++ [.merge q])
      (m'.updatePending (·.merge t)) := by
  refine h.next (m'.evolves_merge t)
    (Module.LocalsOf.next_of_not_declares h.locals (by simp)) ?_ (fun _ _ => ⟨rfl, rfl⟩)
    fun _ hname => by cases hname
  rw [Module.table_updatePending hpending, Module.table_updatePending h.pending, h.table_eq]

theorem take (h : m.Follows files options imported u p done m') (hpending : m.pending.isSome)
    (q : Path) (b : Binding) (found : Identity) :
    (m.addTaken b found).Follows files options imported u p (done ++ [.take q b])
      (m'.addTaken b found) := by
  have haliases : ∀ (m : Module) name, (m.addTaken b found).aliases.get? name =
      if b.newName = some name then some found else m.aliases.get? name :=
    fun m name => m.aliases_rename b found name
  refine h.next (m'.evolves_addTaken b found).1
    ((h.locals.addTaken b found).next_of_not_declares (by simp)) ?_ (fun name hname => ?_)
    fun name hname => ?_
  · rw [Module.table_addTaken hpending, Module.table_addTaken h.pending, h.table_eq]
  · simp only [haliases, if_neg (show b.newName ≠ some name from hname), and_self]
  · simp only [haliases, if_pos (show b.newName = some name from hname)]

theorem begun {m : Module} (hpath : ∀ m, base.module? p = some m → m.path = p)
    (h : m.InKeeping files options imported base u p) (hm : m.exports = none) (d : Nat) :
    (m.beginScan d).Follows files options imported u p [] (base.opened p) where
  path_eq := by
    show ((base.module? p).getD _).path = p
    cases hbase : base.module? p with
    | none => rfl
    | some m₀ => exact hpath m₀ hbase
  pending := rfl
  locals := Module.locals_beginScan _ _
  table_eq := rfl
  aliases_eq name hname hsteps := by
    refine (h.unkept hm).2 name hname (hsteps.resolve_left ?_)
    rintro ⟨i, hi, -⟩
    cases hi

theorem answersAs (h : m.Follows files options imported u p (files.scanSteps options p) m')
    {m₂ : Module} (hpath : m₂.path = p) (haliases : m₂.aliases = m.aliases) :
    m₂.AnswersAs imported u p m.table m' := by
  refine ⟨h.table_eq.symm, fun name hname => ?_⟩
  have hsame : m.aliases.get? name = m'.aliases.get? name := by
    refine h.aliases_eq name hname ?_
    by_cases hgiven : ∃ i ∈ files.scanSteps options p, i.newName? = some name
    · exact .inl hgiven
    · exact .inr fun i hi hi' => hgiven ⟨i, hi, hi'⟩
  simp only [Module.lookupExport, haliases, hsame, h.table_eq, Module.unresolved, hpath, h.path_eq]

end Module.Follows

namespace Scanning

variable {s₀ : Store} {done rest : List ScanStep} {i : ScanStep} {m m' : Module}

theorem apply_eq_error (h : Scanning files options imported n stack p s₀ done s m)
    (hfollows : m.Follows files options imported u p done m') (hne : ∀ q, i.asked? = some q → q ≠ u)
    (hask : ∀ q r s₁, i.asked? = some q → (tableOf files n q).eval s = (r, s₁) →
      Expected files options imported base u q r s₁) {e : Error}
    (he : Effect files (tableOf files n) p i s (.error e) s₂) :
    i.apply files (files.answer options base) p m' = .error e := by
  have hpath : m.path = m'.path :=
    (h.running.isFile p m h.module).path_eq.trans hfollows.path_eq.symm
  cases he with
  | refused hm hf =>
      obtain rfl := Option.some.inj (h.module.symm.trans hm)
      rw [h.locals.change_congr hfollows.locals hpath] at hf
      rw [apply, hf]
      rfl
  | unvisited hl =>
      rw [apply, ← (FileTree.loads hl).eq_located h.running]
      rfl
  | unmerged heval =>
      have hanswer : files.answer options base _ = .error e := hask _ _ _ rfl heval
      rw [apply, hanswer]
      rfl
  | @notFound q b _ _ t mq _ heval hm hfound =>
      obtain ⟨mq', m₁, hm', hanswer, rfl, hlookup⟩ := hask _ _ _ rfl heval
      obtain rfl := Option.some.inj (hm.symm.trans hm')
      rw [hlookup b.name fun hq => absurd hq (hne q rfl)] at hfound
      rw [apply, hanswer, Except.bind, hfound]
      rfl
  | lost heval hm =>
      obtain ⟨mq, m₁, hm', -⟩ := hask _ _ _ rfl heval
      rw [hm] at hm'
      cases hm'
  | untaken heval =>
      have hanswer : files.answer options base _ = .error e := hask _ _ _ rfl heval
      rw [apply, hanswer]
      rfl

theorem follows_next (h : Scanning files options imported n stack p s₀ done s m)
    (hfollows : m.Follows files options imported u p done m') (hne : ∀ q, i.asked? = some q → q ≠ u)
    (hask : ∀ q r s₁, i.asked? = some q → (tableOf files n q).eval s = (r, s₁) →
      Expected files options imported base u q r s₁) {m₂ : Module}
    (hadvance : Advances files (tableOf files n) p i s m s₂ m₂) :
    ∃ m₂', i.apply files (files.answer options base) p m' = .ok m₂' ∧
      m₂.Follows files options imported u p (done ++ [i]) m₂' := by
  have hpath : m.path = m'.path :=
    (h.running.isFile p m h.module).path_eq.trans hfollows.path_eq.symm
  have hpending := (h.running.pending_iff_mem h.module).2 (List.mem_cons_self ..)
  cases hadvance with
  | @own l _ _ f hf =>
      have hf' := hf
      rw [h.locals.change_congr hfollows.locals hpath] at hf'
      exact ⟨f m', by rw [apply, hf']; rfl, hfollows.own hpending h.locals hf hf'⟩
  | visit hl =>
      refine ⟨m', ?_, hfollows.visit _⟩
      rw [apply, ← (FileTree.loads hl).eq_located h.running]
      rfl
  | merge heval =>
      obtain ⟨mq, m₁, -, hanswer, rfl, -⟩ := hask _ _ _ rfl heval
      exact ⟨_, by rw [apply, hanswer]; rfl, hfollows.merge hpending _ _⟩
  | @take q b _ _ _ mq t found heval hm hfound =>
      obtain ⟨mq', m₁, hm', hanswer, rfl, hlookup⟩ := hask _ _ _ rfl heval
      obtain rfl := Option.some.inj (hm.symm.trans hm')
      rw [hlookup b.name fun hq => absurd hq (hne q rfl)] at hfound
      refine ⟨m'.addTaken b found, ?_, hfollows.take hpending q b found⟩
      rw [apply, hanswer, Except.bind, hfound]
      rfl

end Scanning

/-! ## What a run keeps -/

namespace Store.InKeeping

variable {s₀ : Store} {done rest : List ScanStep} {i : ScanStep} {m : Module}

theorem beginScan (h : s.InKeeping files options imported u base) (hm : s.module? p = some m)
    (ht : m.exports = none) : (s.beginScan p).InKeeping files options imported u base := by
  have hentered : s.enterScan.InKeeping files options imported u base := ⟨h.loaded, h.modules⟩
  refine hentered.updateModule fun m' _ hm' hin => ?_
  obtain rfl := Option.some.inj (hm.symm.trans hm')
  exact hin.change ht ht fun _ _ => rfl

theorem endScan (h : s.InKeeping files options imported u base) (p : Path) (d : Nat) :
    (s.endScan p d).InKeeping files options imported u base := by
  have hended : (s.updateModule p Module.endScan).InKeeping files options imported u base :=
    h.updateModule fun m _ _ hin => hin.edited rfl rfl fun _ _ => rfl
  exact ⟨hended.loaded, hended.modules⟩

theorem effect (h : s.InKeeping files options imported u base)
    (hscan : Scanning files options imported n stack p s₀ done s m)
    (hi : i ∈ files.scanSteps options p)
    (hask : ∀ q r s₁, i.asked? = some q → (tableOf files n q).eval s = (r, s₁) →
      s₁.InKeeping files options imported u base) {r : Except Error Unit}
    (he : Effect files (tableOf files n) p i s r s₂) :
    s₂.InKeeping files options imported u base := by
  have hexports := hscan.running.exports_eq_none hscan.module
  cases he with
  | changed hm hf =>
      refine h.updateModule fun m₁ _ hm₁ hin => ?_
      obtain rfl := Option.some.inj (hm.symm.trans hm₁)
      obtain rfl := Option.some.inj (hscan.module.symm.trans hm)
      exact hin.change hexports ((LocalStep.evolves_change hf).2.trans hexports) fun name hname =>
        LocalStep.aliases_change_of_ne hf (hname _ hi)
  | refused => exact h
  | visited hl | unvisited hl => exact h.load (FileTree.loads hl)
  | merged heval =>
      refine (hask _ _ _ rfl heval).updateModule fun m₁ _ hm₁ hin => ?_
      have hm := module?_of_ask (tame_tableOf n) hscan.running hscan.module
        (FileTree.asks_of_merge hi) heval
      obtain rfl := Option.some.inj (hm.symm.trans hm₁)
      exact hin.change hexports hexports fun _ _ => rfl
  | @taken q b _ _ _ _ found heval =>
      refine (hask _ _ _ rfl heval).updateModule fun m₁ _ hm₁ hin => ?_
      have hm := module?_of_ask (tame_tableOf n) hscan.running hscan.module
        (FileTree.asks_of_take hi) heval
      obtain rfl := Option.some.inj (hm.symm.trans hm₁)
      exact hin.change hexports ((m.evolves_addTaken b found).2.trans hexports) fun name hname =>
        (m.aliases_rename b found name).trans (if_neg (hname _ hi))
  | unmerged heval | notFound heval | lost heval | untaken heval => exact hask _ _ _ rfl heval

end Store.InKeeping

theorem Store.Asking.not_mem (h : s.Asking files options imported stack p)
    (hp : ¬ files.OnCircle options p) : p ∉ stack := by
  cases h with
  | rest => simp
  | @next _ stack r _ _ _ _ _ _ _ hasking hm ht hw hsteps hq _ =>
      have hasks := FileTree.asks_of_asked? (FileTree.mem_scanSteps_of_eq hsteps) hq
      intro hmem
      refine hp (.of_asks hasks ?_)
      rcases List.mem_cons.1 hmem with rfl | hmem
      · exact .refl p
      · exact hasking.leads p hmem

theorem FileTree.Leads.ne_of_asked {i : ScanStep} (hp : files.Leads options u p)
    (hcircle : files.NoCircles options u)
    (hi : i ∈ files.scanSteps options p) (hq : i.asked? = some q) : q ≠ u := by
  rintro rfl
  exact hcircle q (.refl q) (.of_asks (asks_of_asked? hi hq) hp)

structure ScanInKeeping (files : FileTree) (options : ResolverOptions)
    (imported : Path → String → Prop) (u : Path) (base : Store) (p : Path) (done : List ScanStep)
    (s : Store) (m : Module) : Prop where
  store : s.InKeeping files options imported u base
  follows : files.Leads options u p → ∃ m',
    done.foldlM (apply files (files.answer options base) p) (base.opened p) = .ok m' ∧
      m.Follows files options imported u p done m'

def AskedInKeeping (files : FileTree) (options : ResolverOptions)
    (imported : Path → String → Prop) (u : Path) (base : Store) (n : Nat) (stack : List Path)
    (p : Path) (s₀ : Store) : Prop :=
  ∀ done i rest s m q r s₁, Scanning files options imported n stack p s₀ done s m →
    files.scanSteps options p = done ++ i :: rest → i.asked? = some q →
    s.InKeeping files options imported u base → (tableOf files n q).eval s = (r, s₁) →
    s₁.InKeeping files options imported u base ∧
      (files.Leads options u q → Expected files options imported base u q r s₁)

namespace Scanning

variable {s₀ : Store} {done rest : List ScanStep} {i : ScanStep} {m : Module}
  (hcircle : files.NoCircles options u)
  (hbase : ∀ p m, base.module? p = some m → m.path = p)
  (hs₀ : s₀.InKeeping files options imported u base)
  (hask : AskedInKeeping files options imported u base n stack p s₀)

include hs₀

theorem finished?_eq_none (h : Scanning files options imported n stack p s₀ done s m)
    (hp : files.Leads options u p) : base.finished? p = none := by
  obtain ⟨m₀, hm₀, ht, -⟩ := h.idle
  exact ((hs₀.modules p m₀ hp hm₀).unkept ht).1

include hcircle hbase hask

theorem inKeeping (h : Scanning files options imported n stack p s₀ done s m) :
    ScanInKeeping files options imported u base p done s m := by
  refine h.induct (motive := ScanInKeeping files options imported u base p)
    (fun m₀ hm₀ ht hw => ?_) ?_
  · exact ⟨hs₀.beginScan hm₀ ht, fun hp =>
      ⟨_, rfl, .begun (hbase p) (hs₀.modules p m₀ hp hm₀) ht _⟩⟩
  · rintro done i s m s' m' hscan hnext hi hadvance ⟨hs, hfollows⟩
    obtain ⟨rest, hsteps⟩ := hnext.steps_of_next
    have hasked := fun q r s₁ hq => hask done i rest s m q r s₁ hscan hsteps hq hs
    refine ⟨hs.effect hscan hi (fun q r s₁ hq heval => (hasked q r s₁ hq heval).1)
      (hadvance.effect hscan.module), fun hp => ?_⟩
    obtain ⟨m₁, hfold, hfollows⟩ := hfollows hp
    obtain ⟨m₂, happly, hfollows'⟩ := hscan.follows_next hfollows
      (fun q hq => hp.ne_of_asked hcircle hi hq) (fun q r s₁ hq heval =>
        (hasked q r s₁ hq heval).2 (hp.ask (FileTree.asks_of_asked? hi hq))) hadvance
    refine ⟨m₂, ?_, hfollows'⟩
    rw [List.foldlM_append, hfold]
    exact (bind_pure _).trans happly

variable (hproper : files.Proper) (hkey : files.IsKey u)

include hproper hkey

theorem answer_of_failed (h : Scanning files options imported n stack p s₀ done s m)
    (hsteps : files.scanSteps options p = done ++ i :: rest) {e : Error}
    (he : Effect files (tableOf files n) p i s (.error e) s₂) :
    s₂.InKeeping files options imported u base ∧ (files.Leads options u p →
      files.answer options base p = .error (.inFile p e)) := by
  have hi := FileTree.mem_scanSteps_of_eq hsteps
  obtain ⟨hs, hfollows⟩ := h.inKeeping hcircle hbase hs₀ hask
  have hasked := fun q r s₁ hq => hask done i rest s m q r s₁ h hsteps hq hs
  refine ⟨hs.effect h hi (fun q r s₁ hq heval => (hasked q r s₁ hq heval).1) he, fun hp => ?_⟩
  obtain ⟨m', hfold, hfollows⟩ := hfollows hp
  have happly := h.apply_eq_error hfollows (fun q hq => hp.ne_of_asked hcircle hi hq)
    (fun q r s₁ hq heval => (hasked q r s₁ hq heval).2
      (hp.ask (FileTree.asks_of_asked? hi hq))) he
  have hfails : (files.scanSteps options p).foldlM (apply files (files.answer options base) p)
      (base.opened p) = .error e := by
    rw [hsteps, List.foldlM_append, hfold]
    show (apply files (files.answer options base) p m' i >>= _) = _
    rw [happly]
    rfl
  rw [FileTree.answer_eq hproper hkey hcircle hp, h.finished?_eq_none hs₀ hp, hfails]
  rfl

theorem answer_of_completed
    (h : Scanning files options imported n stack p s₀ (files.scanSteps options p) s m) :
    s.InKeeping files options imported u base ∧ (files.Leads options u p → ∃ m',
      files.answer options base p = .ok m' ∧ ∀ m₁ : Module, m₁.path = m.path →
        m₁.aliases = m.aliases → m₁.AnswersAs imported u p m.table m') := by
  obtain ⟨hs, hfollows⟩ := h.inKeeping hcircle hbase hs₀ hask
  refine ⟨hs, fun hp => ?_⟩
  obtain ⟨m', hfold, hfollows⟩ := hfollows hp
  have hpath := (h.running.isFile p m h.module).path_eq
  refine ⟨m', ?_, fun m₁ hpath₁ haliases => hfollows.answersAs (hpath₁.trans hpath) haliases⟩
  rw [FileTree.answer_eq hproper hkey hcircle hp, h.finished?_eq_none hs₀ hp, hfold]
  rfl

end Scanning

section Acyclic

variable (hproper : files.Proper) (hkey : files.IsKey u)
  (hcircle : files.NoCircles options u)
  (hbase : ∀ p m, base.module? p = some m → m.path = p)

include hproper hkey hcircle hbase

/-- Throughout a run the files within reach answer as expected. -/
theorem Store.InKeeping.ask {r : Except Error ExportTable}
    (hs : s.InKeeping files options imported u base) (h : s.Asking files options imported stack p)
    (hn : files.size ≤ n + stack.length) (heval : (tableOf files n p).eval s = (r, s')) :
    s'.InKeeping files options imported u base ∧ (files.Leads options u p → (s.module? p).isSome →
      Expected files options imported base u p r s') := by
  induction n using Nat.strongRecOn generalizing stack p s s' r with
  | ind n ih =>
      have hask : ∀ k, n = k + 1 → AskedInKeeping files options imported u base k stack p s := by
        rintro k rfl done i rest s₁ m q r s₂ hscan hsteps hq hin heval
        obtain ⟨hin', hexpected⟩ := ih k (Nat.lt_succ_self k) hin (hscan.asking_next hsteps hq)
          (by rw [List.length_cons]; omega) heval
        exact ⟨hin', fun hleads => hexpected hleads (hscan.isSome_asked hsteps hq)⟩
      cases outcome h heval with
      | unloaded hm => exact ⟨hs, fun _ hloaded => by simp [hm] at hloaded⟩
      | kept hm ht =>
          refine ⟨hs, fun hp _ => ?_⟩
          obtain ⟨m', hanswer, hanswers⟩ := (hs.modules p _ hp hm).kept _ ht
          exact ⟨_, m', hm, hanswer, hanswers⟩
      | unfinished hm _ hw =>
          refine ⟨⟨hs.loaded, hs.modules⟩, fun hp _ => absurd ?_ (h.not_mem (hcircle p hp))⟩
          exact (h.running.pending_iff_mem hm).1 (by rw [hw]; rfl)
      | exhausted hm _ hw =>
          have hlt := h.running.length_lt hproper hm hw
          have hcard := files.card_filePaths_le
          omega
      | @failed k _ _ _ _ _ _ _ _ _ _ hscan hsteps heffect =>
          obtain ⟨hin, hanswer⟩ :=
            hscan.answer_of_failed hcircle hbase hs (hask k rfl) hproper hkey hsteps heffect
          exact ⟨hin.endScan p _, fun hp _ => hanswer hp⟩
      | @incomplete k _ _ _ _ _ hscan _ =>
          obtain ⟨hin, hanswer⟩ :=
            hscan.answer_of_completed hcircle hbase hs (hask k rfl) hproper hkey
          refine ⟨hin.endScan p _, fun hp _ => ?_⟩
          obtain ⟨m', hanswer, hanswers⟩ := hanswer hp
          exact ⟨_, m', Store.module?_endScan_self hscan.module _, hanswer, hanswers _ rfl rfl⟩
      | @completed k _ _ _ _ _ hscan _ =>
          obtain ⟨hin, hanswer⟩ :=
            hscan.answer_of_completed hcircle hbase hs (hask k rfl) hproper hkey
          have hended := Store.module?_endScan_self hscan.module stack.length
          refine ⟨(hin.endScan p _).updateModule fun m hp hm _ => ?_, fun hp _ => ?_⟩
          · obtain ⟨m', hanswer, hanswers⟩ := hanswer hp
            obtain rfl := Option.some.inj (hended.symm.trans hm)
            refine ⟨fun t ht => ?_, fun hnone => (by cases hnone)⟩
            obtain rfl := Option.some.inj ht
            exact ⟨m', hanswer, hanswers _ rfl rfl⟩
          · obtain ⟨m', hanswer, hanswers⟩ := hanswer hp
            exact ⟨_, m', Store.module?_updateModule_self _ hended, hanswer, hanswers _ rfl rfl⟩

omit hbase in
theorem Store.inKeeping_self : base.InKeeping files options imported u base where
  loaded _ hq := hq
  modules q m hq hm := by
    refine ⟨fun t ht => ?_, fun ht => ⟨by simp [Store.finished?, hm, ht], fun name _ _ => ?_⟩⟩
    · refine ⟨{ m with pending := some ⟨0, t⟩ }, ?_, rfl, fun _ _ => rfl⟩
      have hfinished : base.finished? q = some { m with pending := some ⟨0, t⟩ } := by
        simp [Store.finished?, hm, ht]
      rw [FileTree.answer_eq hproper hkey hcircle hq, hfinished]
    · simp [Store.opened, hm, Module.beginScan]

theorem Store.keptByImports_inKeeping : KeptByImports files options (· = u) fun s =>
    s.InKeeping files options (files.ImportsAs options) u base where
  load p _ h := h.load (files.eval_load p _)
  ask p hn hs h := (h.ask hproper hkey hcircle hbase (.rest hs p) hn rfl).1
  note notes _ _ h := h.updateModule fun _ _ _ hin => hin.edited rfl rfl fun _ _ => rfl
  rename {s s' p q b newName found} hp hi hb _ _ _ _ h := by
    subst hp
    refine h.updateModule fun m _ _ hin => hin.edited rfl rfl fun name hname => ?_
    simp only [Module.addAlias, OrderedMap.get?_insert]
    refine if_neg ?_
    rintro rfl
    exact hname rfl (hi.importsAs hb)
  imports _ _ _ _ _ _ h _ := h.updateModule fun _ _ _ hin => hin.edited rfl rfl fun _ _ => rfl

theorem Store.InKeeping.exportNamed_eq (hs : s.InKeeping files options imported u base)
    (hreached : s.Reached files options imported) (hbegun : base.Reached files options imported)
    (hu : (base.module? u).isSome) {name : String} (hname : imported u name → ∀ t s₁,
      (files.tableOf u).eval base = (.ok t, s₁) → (t.get? name).isSome) :
    ((files.exportNamed u name).eval s).1 = ((files.exportNamed u name).eval base).1 := by
  have hexpected : ∀ {s r s'}, s.InKeeping files options imported u base →
      s.Reached files options imported → (files.tableOf u).eval s = (r, s') →
      Expected files options imported base u u r s' := fun hs hreached heval =>
    (hs.ask hproper hkey hcircle hbase (.rest hreached u) (Nat.le_add_right _ _) heval).2 (.refl u)
      (hs.loaded u hu)
  have hself : base.InKeeping files options imported u base :=
    Store.inKeeping_self hproper hkey hcircle
  unfold FileTree.exportNamed
  rcases heval : (files.tableOf u).eval base with ⟨e | t, s₁⟩
  · have hanswer : files.answer options base u = .error e := hexpected hself hbegun heval
    rcases heval' : (files.tableOf u).eval s with ⟨e' | t', s₁'⟩
    · have hanswer' : files.answer options base u = .error e' := hexpected hs hreached heval'
      rw [exportedBy, Query.eval_bind_error heval, Query.eval_bind_error heval',
        Except.error.inj (hanswer.symm.trans hanswer')]
    · obtain ⟨m, m', -, hanswer', -⟩ := hexpected hs hreached heval'
      cases hanswer.symm.trans hanswer'
  · obtain ⟨m, m₁, hm, hanswer, rfl, hlookup⟩ := hexpected hself hbegun heval
    rcases heval' : (files.tableOf u).eval s with ⟨e' | t', s₁'⟩
    · have hanswer' : files.answer options base u = .error e' := hexpected hs hreached heval'
      cases hanswer.symm.trans hanswer'
    · obtain ⟨m', m₁', hm', hanswer', rfl, hlookup'⟩ := hexpected hs hreached heval'
      obtain rfl := Except.ok.inj (hanswer.symm.trans hanswer')
      rw [ScanStep.eval_exportedBy heval hm, ScanStep.eval_exportedBy heval' hm']
      by_cases himported : imported u name
      · obtain ⟨a, ha⟩ := Option.isSome_iff_exists.1 (hname himported _ s₁ heval)
        rw [m.lookupExport_of_get? ha, m'.lookupExport_of_get? ha]
      · exact (hlookup' name fun _ => himported).trans (hlookup name fun _ => himported).symm

end Acyclic

end Typings
