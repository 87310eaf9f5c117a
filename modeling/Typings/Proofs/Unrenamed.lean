import Typings.Proofs.Agreement
import Typings.Proofs.Statements

/-!
# Scans that give no new names

Where export statements rename nothing, a scan leaves the new names of every module alone.  What
it changes then are declarations, tables and notes; the rest of a module stays as it was loaded.
Tables that are kept stay, and none is added as long as an unfinished table is on record.
-/

namespace Typings

open ExportScan ScanStep

def Meaning.bindings : Meaning → List Binding
  | .reexport ⟨.named bindings, _⟩ => bindings
  | .localExports bindings => bindings
  | _ => []

namespace FileTree

variable (files : FileTree) (options : ResolverOptions)

def Unrenamed : Prop :=
  ∀ p, files.IsKey p → ∀ i ∈ files.scanSteps options p, i.newName? = none

/-- No export statement of any file renames something with `as`. -/
def RenamesNothing : Prop :=
  ∀ p, files.IsKey p → ∀ st ∈ files.exportStatements options p, ∀ m, st.meaning = .ok m →
    ∀ b ∈ m.bindings, b.newName = none

variable {files options}

theorem RenamesNothing.unrenamed (h : files.RenamesNothing options) : files.Unrenamed options := by
  intro p hp i hi
  obtain ⟨st, hst, hgives⟩ := mem_scanSteps.1 hi
  cases hgives with
  | list hmeaning hb => exact h p hp st hst _ hmeaning _ hb
  | @take r bindings b q hmeaning hclause _ hb =>
      rcases r with ⟨clause, specifier⟩
      obtain rfl : clause = .named bindings := hclause
      exact h p hp st hst _ hmeaning b hb
  | fail | remark | declare | promote | visit | merge => rfl

theorem RenamesNothing.of_locations (hproper : files.Proper)
    (h : ∀ p ∈ files.locations, ∀ st ∈ files.exportStatements options p,
      ∀ m ∈ st.meaning.toOption, ∀ b ∈ m.bindings, b.newName = none) :
    files.RenamesNothing options := by
  intro p hp st hst m hm b hb
  cases hread : files.read p with
  | error e => simp [exportStatements, hread] at hst
  | ok text =>
      exact h p (hp.mem_locations hproper hread) st hst m (by rw [hm]; rfl) b hb

end FileTree

/-! ## What a scan leaves of a module -/

namespace Module

def bare (m : Module) : Module :=
  { m with locals := .empty, exports := none, pending := none, exportNotes := [] }

@[simp] theorem bare_updatePending (m : Module) (f : ExportTable → ExportTable) :
    (m.updatePending f).bare = m.bare := rfl

@[simp] theorem bare_beginScan (m : Module) (d : Nat) : (m.beginScan d).bare = m.bare := rfl

@[simp] theorem bare_endScan (m : Module) : m.endScan.bare = m.bare := rfl

@[simp] theorem bare_keep (m : Module) (t : ExportTable) : (m.keep t).bare = m.bare := rfl

@[simp] theorem exports_beginScan (m : Module) (d : Nat) : (m.beginScan d).exports = m.exports := rfl

@[simp] theorem exports_endScan (m : Module) : m.endScan.exports = m.exports := rfl

theorem rename_of_none {b : Binding} (hb : b.newName = none) (m : Module) (found : Identity) :
    m.rename b found = m := by
  rw [rename, hb]

theorem bare_addTaken (m : Module) {b : Binding} (hb : b.newName = none) (found : Identity) :
    (m.addTaken b found).bare = m.bare := by
  rw [addTaken, rename_of_none hb, bare_updatePending]

theorem bare_addListed (m : Module) {b : Binding} (hb : b.newName = none) (found : Identity) :
    (m.addListed b found).bare = m.bare := by
  rw [addListed, rename_of_none hb, bare_updatePending]

theorem lookupExport_congr_bare {m m' : Module} (h : m.bare = m'.bare) (t : ExportTable)
    (name : String) : m.lookupExport t name = m'.lookupExport t name := by
  have hbare : ∀ m : Module, m.lookupExport t name = m.bare.lookupExport t name := fun _ => rfl
  rw [hbare, h, ← hbare]

end Module

theorem LocalStep.bare_change {p : Path} {l : LocalStep} {m : Module} {f : Module → Module}
    (hf : l.change p m = .ok f) (hl : (ScanStep.own l).newName? = none) : (f m).bare = m.bare := by
  cases l with
  | fail e => cases hf
  | remark s r =>
      obtain rfl := Except.ok.inj hf
      rfl
  | declare s hd =>
      obtain rfl := Except.ok.inj hf
      simp only [Module.declare]
      split <;> rfl
  | promote s name =>
      simp only [change] at hf
      split at hf
      · cases hf
      · obtain rfl := Except.ok.inj hf
        rfl
  | list b =>
      simp only [change] at hf
      split at hf
      · cases hf
      · obtain rfl := Except.ok.inj hf
        exact m.bare_addListed hl _

/-! ## What a scan leaves of a store -/

namespace Store

def bare? (s : Store) (q : Path) : Option Module := (s.module? q).map Module.bare

def kept? (s : Store) (q : Path) : Option ExportTable := (s.module? q).bind Module.exports

theorem bare?_eq_none {s : Store} {q : Path} : s.bare? q = none ↔ s.module? q = none :=
  Option.map_eq_none_iff

theorem kept?_of_module? {s : Store} {q : Path} {m : Module} (hm : s.module? q = some m) :
    s.kept? q = m.exports := by
  rw [kept?, hm, Option.bind_some]

theorem bare?_updateModule (s : Store) {p : Path} {f : Module → Module}
    (hf : ∀ m, s.module? p = some m → (f m).bare = m.bare) (q : Path) :
    (s.updateModule p f).bare? q = s.bare? q := by
  rw [bare?, bare?, module?_updateModule]
  split
  · next heq =>
      subst heq
      cases hm : s.module? q with
      | none => rfl
      | some m => exact congrArg some (hf m hm)
  · rfl

theorem kept?_updateModule (s : Store) {p : Path} {f : Module → Module}
    (hf : ∀ m, s.module? p = some m → (f m).exports = m.exports) (q : Path) :
    (s.updateModule p f).kept? q = s.kept? q := by
  rw [kept?, kept?, module?_updateModule]
  split
  · next heq =>
      subst heq
      cases hm : s.module? q with
      | none => rfl
      | some m => exact hf m hm
  · rfl

@[simp] theorem bare?_beginScan (s : Store) (p q : Path) : (s.beginScan p).bare? q = s.bare? q :=
  bare?_updateModule s.enterScan (fun m _ => m.bare_beginScan s.depth) q

@[simp] theorem kept?_beginScan (s : Store) (p q : Path) : (s.beginScan p).kept? q = s.kept? q :=
  kept?_updateModule s.enterScan (fun m _ => m.exports_beginScan s.depth) q

@[simp] theorem bare?_endScan (s : Store) (p : Path) (d : Nat) (q : Path) :
    (s.endScan p d).bare? q = s.bare? q :=
  bare?_updateModule s (fun m _ => m.bare_endScan) q

@[simp] theorem kept?_endScan (s : Store) (p : Path) (d : Nat) (q : Path) :
    (s.endScan p d).kept? q = s.kept? q :=
  kept?_updateModule s (fun m _ => m.exports_endScan) q

end Store

namespace FileTree.Loads

variable {files : FileTree} {p : Path} {s s' : Store} {r : Except Error Path}

theorem partialFloor_eq (h : files.Loads p s r s') : s'.partialFloor = s.partialFloor := by
  cases h <;> rfl

theorem kept?_eq (h : files.Loads p s r s') (q : Path) : s'.kept? q = s.kept? q := by
  cases h with
  | missing | present | unreadable => rfl
  | @read key text hkey hnone hread =>
      rw [Store.kept?, Store.kept?, Store.module?_addModule]
      split
      · next heq =>
          rw [heq, hnone]
          rfl
      · rfl

end FileTree.Loads

namespace Store

/-- What is known in `s` is known in `s'`; nothing more is kept if an unfinished table was read. -/
structure Before (s s' : Store) : Prop where
  bare : ∀ q m, s.bare? q = some m → s'.bare? q = some m
  kept : ∀ q t, s.kept? q = some t → s'.kept? q = some t
  frozen : s.partialFloor.isSome → ∀ q, s'.kept? q = s.kept? q

variable {s s₁ s' : Store}

theorem Before.of_eq (hbare : ∀ q, s'.bare? q = s.bare? q) (hkept : ∀ q, s'.kept? q = s.kept? q) :
    s.Before s' :=
  ⟨fun q _ h => (hbare q).trans h, fun q _ h => (hkept q).trans h, fun _ q => hkept q⟩

theorem Before.refl (s : Store) : s.Before s := .of_eq (fun _ => rfl) fun _ => rfl

theorem Before.trans (h : s.Before s₁) (hfloor : s.partialFloor.isSome → s₁.partialFloor.isSome)
    (h' : s₁.Before s') : s.Before s' :=
  ⟨fun q m hm => h'.bare q m (h.bare q m hm), fun q t ht => h'.kept q t (h.kept q t ht),
    fun hread q => (h'.frozen (hfloor hread) q).trans (h.frozen hread q)⟩

theorem before_updateModule (s : Store) {p : Path} {f : Module → Module}
    (hf : ∀ m, s.module? p = some m → (f m).bare = m.bare ∧ (f m).exports = m.exports) :
    s.Before (s.updateModule p f) :=
  .of_eq (s.bare?_updateModule fun m hm => (hf m hm).1)
    (s.kept?_updateModule fun m hm => (hf m hm).2)

theorem before_load {files : FileTree} {p : Path} {r : Except Error Path}
    (h : files.Loads p s r s') : s.Before s' := by
  refine ⟨fun q m hm => ?_, fun q t ht => (h.kept?_eq q).trans ht, fun _ => h.kept?_eq⟩
  cases h with
  | missing => exact hm
  | present => exact hm
  | unreadable => exact hm
  | @read key text hkey hnone hread =>
      rw [bare?, module?_addModule, if_neg ?_]
      · exact hm
      · rintro rfl
        rw [bare?, hnone] at hm
        cases hm

theorem Before.keep (h : s.Before s') {p : Path} (t : ExportTable) (hp : s.kept? p = none)
    (hfloor : s.partialFloor = none) : s.Before (s'.updateModule p (·.keep t)) := by
  refine ⟨fun q m hm => ?_, fun q u hu => ?_, fun hread => ?_⟩
  · rw [s'.bare?_updateModule fun m _ => m.bare_keep t]
    exact h.bare q m hm
  · have hq : q ≠ p := by
      rintro rfl
      rw [hp] at hu
      cases hu
    rw [kept?, module?_updateModule_of_ne _ hq]
    exact h.kept q u hu
  · rw [hfloor] at hread
    cases hread

end Store

variable {files : FileTree} {options : ResolverOptions} {stack : List Path} {s s' : Store}

theorem Store.Running.floor_of_evolves (h : s.Running files options stack) {own : List Path}
    (he : s.Evolves own s') (hread : s.partialFloor.isSome) : s'.partialFloor.isSome := by
  obtain ⟨f, hf⟩ := Option.isSome_iff_exists.1 hread
  obtain ⟨f', hf', -⟩ := he.notedBelow s.depth ⟨f, hf, h.floor_lt f hf⟩
  rw [hf']
  rfl

theorem Store.Running.notedBelow_of_scan (h : s.Running files options stack) {p : Path}
    {own : List Path} (he : (s.beginScan p).Evolves own s') (hread : s.partialFloor.isSome) :
    s'.NotedBelow s.depth := by
  obtain ⟨f, hf⟩ := Option.isSome_iff_exists.1 hread
  exact he.notedBelow s.depth ⟨f, hf, h.floor_lt f hf⟩

/-! ## Asking for a table -/

def TableOf.Steady (files : FileTree) (options : ResolverOptions) (T : TableOf) : Prop :=
  ∀ {q stack s s' r}, Store.Running files options stack s → (∀ p ∈ stack, files.Leads options p q) →
    (T q).eval s = (r, s') → s.Before s'

namespace ScanStep

theorem Effect.before {T : TableOf} (htame : T.Tame files options) (hT : T.Steady files options)
    {p : Path} {i : ScanStep} {r : Except Error Unit} (h : s.Running files options (p :: stack))
    (hi : i ∈ files.scanSteps options p) (hname : i.newName? = none)
    (he : Effect files T p i s r s') : s.Before s' := by
  have hask : ∀ {q r s'}, files.Asks options p q → (T q).eval s = (r, s') →
      s.Before s' ∧ (s.partialFloor.isSome → s'.partialFloor.isSome) := by
    intro q r s' hasks heval
    have hleads := h.leads_of_asks hasks
    exact ⟨hT h hleads heval, h.floor_of_evolves (htame h hleads heval).2⟩
  cases he with
  | changed hm hf =>
      refine s.before_updateModule fun m' hm' => ?_
      obtain rfl := Option.some.inj (hm.symm.trans hm')
      exact ⟨LocalStep.bare_change hf hname, (LocalStep.evolves_change hf).2⟩
  | refused => exact .refl s
  | visited hl => exact Store.before_load (FileTree.loads hl)
  | unvisited hl => exact Store.before_load (FileTree.loads hl)
  | merged hl =>
      obtain ⟨hbefore, hfloor⟩ := hask (FileTree.asks_of_merge hi) hl
      exact hbefore.trans hfloor (Store.before_updateModule _ fun _ _ => ⟨rfl, rfl⟩)
  | unmerged hl => exact (hask (FileTree.asks_of_merge hi) hl).1
  | taken hl _ _ =>
      obtain ⟨hbefore, hfloor⟩ := hask (FileTree.asks_of_take hi) hl
      exact hbefore.trans hfloor (Store.before_updateModule _ fun m _ =>
        ⟨m.bare_addTaken hname _, (m.evolves_addTaken _ _).2⟩)
  | notFound hl _ _ => exact (hask (FileTree.asks_of_take hi) hl).1
  | lost hl _ => exact (hask (FileTree.asks_of_take hi) hl).1
  | untaken hl => exact (hask (FileTree.asks_of_take hi) hl).1

theorem Performs.before {T : TableOf} (htame : T.Tame files options) (hT : T.Steady files options)
    {p : Path} {is : List ScanStep} {r : Except Error Unit} (he : Performs files T p is s r s')
    (h : s.Running files options (p :: stack)) (his : ∀ i ∈ is, i ∈ files.scanSteps options p)
    (hnames : ∀ i ∈ is, i.newName? = none) : s.Before s' := by
  induction he with
  | done s => exact .refl s
  | step head _ ih =>
      rw [List.forall_mem_cons] at his hnames
      obtain ⟨hrunning, hevolves⟩ := head.running htame h his.1
      exact (head.before htame hT h his.1 hnames.1).trans (h.floor_of_evolves hevolves)
        (ih hrunning his.2 hnames.2)
  | stop head =>
      rw [List.forall_mem_cons] at his hnames
      exact head.before htame hT h his.1 hnames.1

end ScanStep

namespace ExportScan

theorem Answered.before (hnames : files.Unrenamed options) {n : Nat}
    (hT : ∀ k < n, (tableOf files k).Steady files options) {p : Path}
    {r : Except Error ExportTable} (he : Answered files n p s r s')
    (h : s.Running files options stack) (hleads : ∀ q ∈ stack, files.Leads options q p) :
    s.Before s' := by
  have hscan : ∀ {k m s₁ r}, k < n → s.module? p = some m → m.exports = none → m.pending = none →
      Performs files (tableOf files k) p (m.scanSteps files s.options p) (s.beginScan p) r s₁ →
      s.Before (s₁.endScan p s.depth) ∧ (s.partialFloor.isSome → s₁.NotedBelow s.depth) := by
    intro k m s₁ r hk hm ht hw steps
    have hfile := h.isFile p m hm
    rw [h.scanSteps_eq hm] at steps
    have hbegun := h.beginScan hm ht hw hleads
    have hsteps := steps.before (tame_tableOf k) (hT k hk) hbegun (fun i hi => hi)
      (hnames p hfile.isKey)
    have hevolves := (steps.running (tame_tableOf k) hbegun fun i hi => hi).2
    refine ⟨⟨fun q m hm => ?_, fun q t ht => ?_, fun hread q => ?_⟩, h.notedBelow_of_scan hevolves⟩
    · rw [Store.bare?_endScan]
      exact hsteps.bare q m (by rwa [Store.bare?_beginScan])
    · rw [Store.kept?_endScan]
      exact hsteps.kept q t (by rwa [Store.kept?_beginScan])
    · rw [Store.kept?_endScan, hsteps.frozen hread, Store.kept?_beginScan]
  cases he with
  | unloaded => exact .refl s
  | kept => exact .refl s
  | unfinished => exact .of_eq (fun _ => rfl) fun _ => rfl
  | exhausted => exact .refl s
  | failed hm ht hw steps => exact (hscan (Nat.lt_succ_self _) hm ht hw steps).1
  | incomplete hm ht hw steps _ _ => exact (hscan (Nat.lt_succ_self _) hm ht hw steps).1
  | completed hm ht hw steps _ hclean =>
      obtain ⟨hbefore, hnoted⟩ := hscan (Nat.lt_succ_self _) hm ht hw steps
      have hfloor : s.partialFloor = none := by
        rw [← Option.not_isSome_iff_eq_none]
        exact fun hread => hclean (hnoted hread)
      exact hbefore.keep _ ((Store.kept?_of_module? hm).trans ht) hfloor

theorem steady_tableOf (hnames : files.Unrenamed options) (n : Nat) :
    (tableOf files n).Steady files options := by
  induction n using Nat.strongRecOn with
  | ind n ih =>
      intro q stack s s' r h hleads heval
      exact (answered heval).before hnames ih h hleads

end ExportScan

end Typings
