import Typings.Proofs.Query

/-!
# Stores after a change

How modules are found after each change of a store, how the partial-read floor moves, and what
loading a file does.
-/

namespace Typings

theorem OrderedMap.modify_modify {α β : Type} [DecidableEq α] (m : OrderedMap α β) (k : α)
    (f g : β → β) : (m.modify k f).modify k g = m.modify k (g ∘ f) := by
  simp only [modify, List.map_map, OrderedMap.mk.injEq]
  apply List.map_congr_left
  intro e _
  by_cases h : e.1 = k <;> simp [h]

namespace Store

/-! ## Modules -/

theorem module?_updateModule (s : Store) (p q : Path) (f : Module → Module) :
    (s.updateModule p f).module? q = if q = p then (s.module? p).map f else s.module? q := by
  simp only [module?, updateModule, OrderedMap.get?_modify]
  split
  · next h => rw [h]
  · rfl

theorem module?_updateModule_self {s : Store} {p : Path} {m : Module} (f : Module → Module)
    (h : s.module? p = some m) : (s.updateModule p f).module? p = some (f m) := by
  rw [module?_updateModule, if_pos rfl, h]
  rfl

theorem module?_updateModule_of_ne {s : Store} {p q : Path} (f : Module → Module) (h : q ≠ p) :
    (s.updateModule p f).module? q = s.module? q := by
  rw [module?_updateModule, if_neg h]

theorem updateModule_updateModule (s : Store) (p : Path) (f g : Module → Module) :
    (s.updateModule p f).updateModule p g = s.updateModule p (g ∘ f) := by
  simp only [updateModule, OrderedMap.modify_modify]

@[simp] theorem updateModule_id (s : Store) (p : Path) : (s.updateModule p fun m => m) = s := by
  have hmap : s.modules.entries.map (fun e => if e.1 = p then (e.1, e.2) else e) =
      s.modules.entries := by
    simp
  simp only [updateModule, OrderedMap.modify, hmap]

@[simp] theorem options_updateModule (s : Store) (p : Path) (f : Module → Module) :
    (s.updateModule p f).options = s.options := rfl

@[simp] theorem depth_updateModule (s : Store) (p : Path) (f : Module → Module) :
    (s.updateModule p f).depth = s.depth := rfl

@[simp] theorem partialFloor_updateModule (s : Store) (p : Path) (f : Module → Module) :
    (s.updateModule p f).partialFloor = s.partialFloor := rfl

@[simp] theorem module?_enterScan (s : Store) (p : Path) : s.enterScan.module? p = s.module? p :=
  rfl

@[simp] theorem module?_notePartialRead (s : Store) (d : Nat) (p : Path) :
    (s.notePartialRead d).module? p = s.module? p := rfl

@[simp] theorem module?_exitScan (s : Store) (d : Nat) (p : Path) :
    (s.exitScan d).module? p = s.module? p := rfl

def addModule (s : Store) (p : Path) (m : Module) : Store :=
  { s with modules := s.modules.insert p m }

theorem module?_addModule (s : Store) (p q : Path) (m : Module) :
    (s.addModule p m).module? q = if q = p then some m else s.module? q :=
  OrderedMap.get?_insert s.modules p q m

/-! ## The partial-read floor -/

/-- The unfinished table of a scan at a depth below `d` has been read. -/
def NotedBelow (s : Store) (d : Nat) : Prop := ∃ f, s.partialFloor = some f ∧ f < d

theorem isComplete_iff (s : Store) (d : Nat) : s.isComplete d = true ↔ ¬ s.NotedBelow d := by
  cases h : s.partialFloor with
  | none => simp [isComplete, NotedBelow, h]
  | some f => simp [isComplete, NotedBelow, h]

theorem NotedBelow.mono {s : Store} {d e : Nat} (h : s.NotedBelow d) (hde : d ≤ e) :
    s.NotedBelow e := by
  rcases h with ⟨f, hf, hlt⟩
  exact ⟨f, hf, by omega⟩

theorem notedBelow_notePartialRead (s : Store) (d e : Nat) :
    (s.notePartialRead d).NotedBelow e ↔ d < e ∨ s.NotedBelow e := by
  cases h : s.partialFloor with
  | none => simp [notePartialRead, NotedBelow, h]
  | some f =>
      simp only [notePartialRead, NotedBelow, h, Option.some.injEq, exists_eq_left']
      omega

theorem NotedBelow.exitScan {s : Store} {d e : Nat} (h : s.NotedBelow e) (hed : e ≤ d) :
    (s.exitScan d).NotedBelow e := by
  have hincomplete : s.isComplete d = false := by
    rw [← Bool.not_eq_true, isComplete_iff, Classical.not_not]
    exact h.mono hed
  rcases h with ⟨f, hf, hlt⟩
  exact ⟨f, by simp only [Store.exitScan, hincomplete, hf, Bool.false_eq_true, if_false], hlt⟩

theorem notedBelow_of_exitScan {s : Store} {d e : Nat} (h : (s.exitScan d).NotedBelow e) :
    s.NotedBelow d := by
  by_cases hc : s.isComplete d = true
  · rcases h with ⟨f, hf, -⟩
    simp [Store.exitScan, hc] at hf
  · rwa [isComplete_iff, Classical.not_not] at hc

theorem floor_lt_of_exitScan {s : Store} {d f : Nat}
    (h : (s.exitScan d).partialFloor = some f) : f < d := by
  by_cases hc : s.isComplete d = true
  · simp [Store.exitScan, hc] at h
  · simp only [Store.exitScan, hc, Bool.false_eq_true, if_false] at h
    rw [isComplete_iff, Classical.not_not] at hc
    rcases hc with ⟨g, hg, hlt⟩
    rw [h, Option.some.injEq] at hg
    omega

end Store

/-! ## Loading a file -/

namespace FileTree

/-- A path under which a module can be kept. -/
def IsKey (files : FileTree) (p : Path) : Prop := ∃ q, files.key q = .ok p

inductive Loads (files : FileTree) (p : Path) (s : Store) : Except Error Path → Store → Prop
  | missing {e : Error} (hkey : files.key p = .error e) : Loads files p s (.error e) s
  | present {key : Path} (hkey : files.key p = .ok key) (hm : (s.module? key).isSome) :
      Loads files p s (.ok key) s
  | unreadable {key : Path} {reason : ReadFailure} (hkey : files.key p = .ok key)
      (hm : s.module? key = none) (hread : files.read key = .error reason) :
      Loads files p s (.error (.unreadable key reason)) s
  | read {key : Path} {text : List Char} (hkey : files.key p = .ok key)
      (hm : s.module? key = none) (hread : files.read key = .ok text) :
      Loads files p s (.ok key)
        (s.addModule key (Module.ofText key text s.options.stripComments))

theorem eval_load (files : FileTree) (p : Path) (s : Store) :
    files.Loads p s ((files.load p).eval s).1 ((files.load p).eval s).2 := by
  unfold load
  cases hkey : files.key p with
  | error e =>
      rw [Query.eval_bind_error (Query.eval_ofExcept _ s)]
      exact .missing hkey
  | ok key =>
      rw [Query.eval_bind_ok (Query.eval_ofExcept _ s), Query.eval_bind_ok (Query.eval_get s)]
      by_cases hm : (s.module? key).isSome
      · rw [if_pos hm, Query.eval_pure]
        exact .present hkey hm
      · have hnone : s.module? key = none := by simpa using hm
        rw [if_neg hm]
        cases hread : files.read key with
        | error reason =>
            rw [Query.eval_throw]
            exact .unreadable hkey hnone hread
        | ok text =>
            rw [Query.eval_bind_ok (Query.eval_modify _ s), Query.eval_pure]
            exact .read hkey hnone hread

theorem loads {files : FileTree} {p : Path} {s s' : Store} {r : Except Error Path}
    (h : (files.load p).eval s = (r, s')) : files.Loads p s r s' := by
  have hload := files.eval_load p s
  rwa [h] at hload

theorem key_of_load {files : FileTree} {p key : Path} {s s' : Store}
    (h : (files.load p).eval s = (.ok key, s')) : files.key p = .ok key := by
  cases loads h with
  | present hkey _ => exact hkey
  | read hkey _ _ => exact hkey

theorem load_of_loaded {files : FileTree} {p key : Path} {s : Store} (hkey : files.key p = .ok key)
    (hm : (s.module? key).isSome) : (files.load p).eval s = (.ok key, s) := by
  rcases heval : (files.load p).eval s with ⟨r, s'⟩
  cases loads heval with
  | missing hkey' => simp [hkey] at hkey'
  | present hkey' _ =>
      obtain rfl := Except.ok.inj (hkey.symm.trans hkey')
      rfl
  | unreadable hkey' hnone =>
      obtain rfl := Except.ok.inj (hkey.symm.trans hkey')
      simp [hnone] at hm
  | read hkey' hnone =>
      obtain rfl := Except.ok.inj (hkey.symm.trans hkey')
      simp [hnone] at hm

end FileTree

end Typings
