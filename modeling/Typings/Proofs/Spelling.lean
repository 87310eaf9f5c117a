import Typings.Proofs.Location

/-!
# Spellings of a place

A path is taken apart lexically before it is looked up, so it may lead through directories that do
not exist.  Whether it is seen from the working directory or from the root, it ends at the same
place.
-/

namespace Typings

namespace Path

/-! ## Normal relative paths -/

def descent (n : Nat) (names : Location) : List Component :=
  List.replicate n .parent ++ names.map .name

def above (base : Location) (n : Nat) : Location := base.take (base.length - n)

@[simp] theorem above_zero (base : Location) : above base 0 = base := by
  simp [above]

theorem above_succ (base : Location) (n : Nat) : above base (n + 1) = (above base n).dropLast := by
  rw [above, above, List.dropLast_eq_take, List.take_take, List.length_take]
  congr 1
  omega

theorem pushNormal_descent {c : Component} (hc : c ≠ .root) (n : Nat) (names : Location) :
    ∃ n' names', pushNormal false (descent n names).reverse c = (descent n' names').reverse ∧
      (∀ base : Location, pushNormal true (.root :: (above base n ++ names).map .name).reverse c =
        (.root :: (above base n' ++ names').map .name).reverse) ∧
      ∀ name ∈ names', name ∈ names ∨ c = .name name := by
  cases c with
  | root => exact absurd rfl hc
  | current => exact ⟨n, names, rfl, fun _ => rfl, fun _ h => .inl h⟩
  | name chars =>
      refine ⟨n, names ++ [chars], by simp [pushNormal, descent], fun base => by simp [pushNormal],
        fun name hname => ?_⟩
      rcases List.mem_append.1 hname with hname | hname
      · exact .inl hname
      · exact .inr (by rw [List.mem_singleton.1 hname])
  | parent =>
      rcases names.eq_nil_or_concat' with rfl | ⟨names, name, rfl⟩
      · refine ⟨n + 1, [], ?_, fun base => ?_, fun _ h => .inl h⟩
        · simp only [descent, List.map_nil, List.append_nil, List.reverse_replicate]
          cases n <;> rfl
        · rw [above_succ]
          rcases (above base n).eq_nil_or_concat' with h | ⟨base', name, h⟩ <;>
            simp [h, pushNormal]
      · refine ⟨n, names, by simp [pushNormal, descent], fun base => by simp [pushNormal],
          fun _ h => .inl (List.mem_append_left _ h)⟩

theorem foldl_pushNormal_descent (cs : List Component) (hcs : .root ∉ cs) (n : Nat)
    (names : Location) : ∃ n' names',
      cs.foldl (pushNormal false) (descent n names).reverse = (descent n' names').reverse ∧
      (∀ base : Location, cs.foldl (pushNormal true)
        (.root :: (above base n ++ names).map .name).reverse =
          (.root :: (above base n' ++ names').map .name).reverse) ∧
      ∀ name ∈ names', name ∈ names ∨ .name name ∈ cs := by
  induction cs generalizing n names with
  | nil => exact ⟨n, names, rfl, fun _ => rfl, fun _ h => .inl h⟩
  | cons c cs ih =>
      rw [List.mem_cons, not_or] at hcs
      obtain ⟨n₁, names₁, hrelative₁, habsolute₁, hnames₁⟩ :=
        pushNormal_descent (Ne.symm hcs.1) n names
      obtain ⟨n₂, names₂, hrelative₂, habsolute₂, hnames₂⟩ := ih hcs.2 n₁ names₁
      refine ⟨n₂, names₂, by rw [List.foldl_cons, hrelative₁, hrelative₂], fun base => ?_,
        fun name hname => ?_⟩
      · rw [List.foldl_cons, habsolute₁, habsolute₂]
      · rcases hnames₂ name hname with h | h
        · rcases hnames₁ name h with h | h
          · exact .inl h
          · exact .inr (h ▸ List.mem_cons_self ..)
        · exact .inr (List.mem_cons_of_mem _ h)

/-! ## Pieces -/

theorem root_not_mem_filterMap (pieces : List (List Char)) :
    .root ∉ pieces.filterMap pieceComponent? := by
  intro h
  obtain ⟨piece, -, hpiece⟩ := List.mem_filterMap.1 h
  unfold pieceComponent? at hpiece
  split at hpiece
  · cases hpiece
  · split at hpiece <;> cases hpiece

theorem foldl_components {p : Path} (hp : p.isAbsolute = false) (absolute : Bool)
    (done : List Component) : p.components.foldl (pushNormal absolute) done =
      ((Text.cut (· == '/') p.text.toList).filterMap pieceComponent?).foldl
        (pushNormal absolute) done := by
  unfold components anatomy
  split
  · next h => simp [isAbsolute, h] at hp
  · split
    · next body hcut =>
        rw [hcut]
        rfl
    · rfl

theorem anatomy_joinPieces {pieces : List (List Char)} (hne : pieces ≠ [])
    (hslash : ∀ piece ∈ pieces, '/' ∉ piece) (hfirst : pieces.head?.any isFiller = false) :
    (ofChars (joinPieces pieces)).anatomy = (none, pieces) := by
  have hcut := cut_joinPieces pieces hne hslash
  unfold anatomy
  rw [ofChars, String.toList_ofList]
  split
  · next body hroot =>
      rw [← hcut, hroot] at hfirst
      cases hfirst
  · rw [hcut]
    split
    · cases hfirst
    · rfl

theorem cut_joinPieces_proper {here : Location} (h : here.Proper) (hne : here ≠ []) :
    Text.cut (· == '/') (joinPieces here) = here :=
  cut_joinPieces here hne fun piece hpiece => (h piece hpiece).no_slash

theorem getLast?_toList_pathOf {here : Location} (h : here.Proper) (hne : here ≠ []) :
    (FileTree.pathOf here).text.toList.getLast? ≠ some '/' := by
  intro hlast
  have hcut := cut_joinPieces_proper h hne
  obtain ⟨s, hs⟩ := List.getLast?_eq_some_iff.1 hlast
  have hempty : ([] : List Char) ∈ here := by
    rw [FileTree.toList_pathOf] at hs
    cases s with
    | nil =>
        rw [List.nil_append, List.cons.injEq] at hs
        rw [← hcut, hs.2]
        exact List.mem_singleton.2 rfl
    | cons c s =>
        rw [List.cons_append, List.cons.injEq] at hs
        rw [← hcut, hs.2, Text.cut_append_sep '/']
        exact List.mem_append_right _ (List.mem_singleton.2 rfl)
  exact absurd (h [] hempty).no_filler (by decide)

theorem join_pathOf {base : Location} (hbase : base.Proper) {p : Path}
    (hp : p.isAbsolute = false) : (FileTree.pathOf base).join p =
      ofChars ('/' :: if base = [] then p.text.toList
        else joinPieces base ++ '/' :: p.text.toList) := by
  rw [join, hp, if_neg (by simp)]
  by_cases hne : base = []
  · subst hne
    rfl
  · have hlast := getLast?_toList_pathOf hbase hne
    rw [FileTree.toList_pathOf] at hlast ⊢
    simp [hne, hlast]

theorem exists_slash {p : Path} (h : p.isAbsolute = true) : ∃ s, p = ofChars ('/' :: s) := by
  obtain ⟨s, hs⟩ := List.head?_eq_some_iff.1 (eq_of_beq h)
  exact ⟨s, by rw [ofChars, ← hs, String.ofList_toList]⟩

theorem anatomy_ofChars_slash (s : List Char) :
    (ofChars ('/' :: s)).anatomy = (some .root, Text.cut (· == '/') s) := by
  simp only [anatomy, ofChars, String.toList_ofList]

theorem components_ofChars_slash (s : List Char) : (ofChars ('/' :: s)).components =
    .root :: (Text.cut (· == '/') s).filterMap pieceComponent? := by
  rw [components, anatomy_ofChars_slash]
  rfl

theorem components_join {base : Location} (hbase : base.Proper) {p : Path}
    (hp : p.isAbsolute = false) : ((FileTree.pathOf base).join p).components =
      .root :: base.map .name ++ (Text.cut (· == '/') p.text.toList).filterMap pieceComponent? := by
  rw [join_pathOf hbase hp, components_ofChars_slash]
  split
  · next hnil => simp [hnil]
  · next hne =>
      rw [Text.cut_append_sep '/', cut_joinPieces_proper hbase hne, List.filterMap_append,
        FileTree.filterMap_pieceComponent? hbase, List.cons_append]

theorem properName_of_mem_filterMap {s name : List Char}
    (h : .name name ∈ (Text.cut (· == '/') s).filterMap pieceComponent?) : ProperName name := by
  refine properName_of_mem_components (p := ofChars ('/' :: s)) ?_
  rw [components_ofChars_slash]
  exact List.mem_cons_of_mem _ h

end Path

/-! ## Two spellings of one place -/

namespace FileTree

open Typings.Path

variable {files : FileTree} {p : Path}

/-- The path seen from the root: joined to the working directory and taken apart lexically. -/
def fullPath (files : FileTree) (p : Path) : Path :=
  ((pathOf files.workingDirectory).join p).normalize

theorem exists_descent (hproper : files.Proper) (hp : p.isAbsolute = false) :
    ∃ n names, Location.Proper names ∧ p.normalize = ofComponents (descent n names) ∧
      files.fullPath p = pathOf (above files.workingDirectory n ++ names) := by
  obtain ⟨n, names, hrelative, habsolute, hnames⟩ :=
    foldl_pushNormal_descent _ (root_not_mem_filterMap (Text.cut (· == '/') p.text.toList)) 0 []
  refine ⟨n, names, fun name hname => ?_, ?_, ?_⟩
  · rcases hnames name hname with h | h
    · cases h
    · exact properName_of_mem_filterMap h
  · rw [Path.normalize, hp, foldl_components hp]
    exact congrArg (fun cs => ofComponents cs.reverse) hrelative |>.trans
      (by rw [List.reverse_reverse])
  · have hfold := habsolute files.workingDirectory
    rw [above_zero, List.append_nil] at hfold
    have habs : ((pathOf files.workingDirectory).join p).isAbsolute = true := by
      rw [join_pathOf hproper hp, Path.isAbsolute, ofChars, String.toList_ofList]
      rfl
    rw [fullPath, Path.normalize, habs, components_join hproper hp, List.cons_append,
      List.foldl_cons, List.foldl_append, foldl_pushNormal_names]
    rw [List.reverse_cons] at hfold
    refine (congrArg (fun cs => ofComponents cs.reverse) hfold).trans ?_
    rw [List.reverse_reverse]
    rfl

theorem exists_fullPath (hp : p.isAbsolute = true) : ∃ names, Location.Proper names ∧
    p.normalize = pathOf names ∧ files.fullPath p = pathOf names := by
  have hfull : files.fullPath p = p.normalize := by rw [fullPath, join, if_pos hp]
  obtain ⟨s, hs⟩ := exists_slash hp
  obtain ⟨n, names, -, habsolute, hnames⟩ :=
    foldl_pushNormal_descent _ (root_not_mem_filterMap (Text.cut (· == '/') s)) 0 []
  have hnormal : p.normalize = pathOf names := by
    rw [Path.normalize, hp, hs, components_ofChars_slash, List.foldl_cons]
    refine (congrArg (fun cs => ofComponents cs.reverse) (habsolute [])).trans ?_
    rw [List.reverse_reverse]
    simp [above, pathOf]
  refine ⟨names, fun name hname => ?_, hnormal, hfull.trans hnormal⟩
  rcases hnames name hname with h | h
  · cases h
  · exact properName_of_mem_filterMap h

/-! ## Looking up both spellings -/

def HasWorkingDirectory (files : FileTree) : Prop :=
  files.lookUp (pathOf files.workingDirectory) = .ok .directory

theorem toList_descent (n : Nat) (names : Location) :
    (ofComponents (descent n names)).text.toList =
      joinPieces (List.replicate n ['.', '.'] ++ names) := by
  have hchars : (descent n names).map componentChars = List.replicate n ['.', '.'] ++ names := by
    simp [descent, componentChars, Function.comp_def]
  have hrelative : ofComponents (descent n names) =
      ofChars (joinPieces ((descent n names).map componentChars)) := by
    cases n with
    | zero => cases names <;> rfl
    | succ n => rfl
  rw [hrelative, hchars, ofChars, String.toList_ofList]

theorem anatomy_descent {n : Nat} {names : Location} (hnames : names.Proper)
    (hne : ¬ (n = 0 ∧ names = [])) : (ofComponents (descent n names)).anatomy =
      (none, List.replicate n ['.', '.'] ++ names) := by
  have hpieces : ∀ piece ∈ List.replicate n ['.', '.'] ++ names,
      '/' ∉ piece ∧ isFiller piece = false := by
    intro piece hpiece
    rcases List.mem_append.1 hpiece with h | h
    · rw [List.eq_of_mem_replicate h]
      decide
    · exact ⟨(hnames piece h).no_slash, (hnames piece h).no_filler⟩
  have hsome : List.replicate n ['.', '.'] ++ names ≠ [] := by
    simpa using hne
  have hfirst : (List.replicate n ['.', '.'] ++ names).head?.any isFiller = false := by
    rw [List.head?_eq_some_head hsome]
    exact (hpieces _ (List.head_mem hsome)).2
  have htext : ofComponents (descent n names) =
      ofChars (joinPieces (List.replicate n ['.', '.'] ++ names)) := by
    rw [← toList_descent, ofChars, String.ofList_toList]
  rw [htext, anatomy_joinPieces hsome (fun piece hpiece => (hpieces piece hpiece).1) hfirst]

theorem components_descent {n : Nat} {names : Location} (hnames : names.Proper) :
    (ofComponents (descent n names)).components = descent n names := by
  by_cases hne : n = 0 ∧ names = []
  · obtain ⟨rfl, rfl⟩ := hne
    rfl
  have hparent : pieceComponent? ['.', '.'] = some .parent := rfl
  rw [components, anatomy_descent hnames hne, List.filterMap_append,
    List.filterMap_replicate_of_some hparent, filterMap_pieceComponent? hnames]
  rfl

theorem anatomy_pathOf {here : Location} (h : here.Proper) (hne : here ≠ []) :
    (pathOf here).anatomy = (some .root, here) := by
  unfold anatomy
  rw [toList_pathOf]
  exact congrArg (some Component.root, ·) (cut_joinPieces_proper h hne)

theorem asksDirectory_eq_false (h : ∀ piece ∈ p.anatomy.2, isFiller piece = false) :
    asksDirectory p = false := by
  unfold asksDirectory
  split
  · next piece _ _ hpieces =>
      refine h piece (List.mem_reverse.1 ?_)
      rw [hpieces]
      exact List.mem_cons_self ..
  · rfl

theorem asksDirectory_pathOf {here : Location} (h : here.Proper) :
    asksDirectory (pathOf here) = false := by
  by_cases hne : here = []
  · subst hne
    decide
  · refine asksDirectory_eq_false fun piece hpiece => ?_
    rw [anatomy_pathOf h hne] at hpiece
    exact (h piece hpiece).no_filler

theorem asksDirectory_descent {n : Nat} {names : Location} (hnames : names.Proper)
    (hne : ¬ (n = 0 ∧ names = [])) : asksDirectory (ofComponents (descent n names)) = false := by
  refine asksDirectory_eq_false fun piece hpiece => ?_
  rw [anatomy_descent hnames hne] at hpiece
  rcases List.mem_append.1 hpiece with h | h
  · rw [List.eq_of_mem_replicate h]
    decide
  · exact (hnames piece h).no_filler

theorem mem_joinPieces {c : Char} (hc : c ≠ '/') (pieces : List (List Char)) :
    c ∈ joinPieces pieces ↔ ∃ piece ∈ pieces, c ∈ piece := by
  induction pieces with
  | nil => simp [joinPieces]
  | cons piece pieces ih =>
      cases pieces with
      | nil => simp [joinPieces]
      | cons next pieces =>
          rw [joinPieces] at ih ⊢
          rw [List.intercalate_cons_cons, List.mem_append, List.mem_append, ih]
          simp [hc]

theorem hasNul_pathOf (here : Location) :
    hasNul (pathOf here) = here.any (·.contains '\x00') := by
  rw [Bool.eq_iff_iff, hasNul, toList_pathOf]
  simp [mem_joinPieces]

theorem hasNul_descent (n : Nat) (names : Location) :
    hasNul (ofComponents (descent n names)) = names.any (·.contains '\x00') := by
  rw [Bool.eq_iff_iff, hasNul, toList_descent]
  simp [mem_joinPieces, or_and_right, exists_or, List.mem_replicate]

theorem joinPieces_ne_nil {piece : List Char} (h : piece ≠ []) (pieces : List (List Char)) :
    joinPieces (piece :: pieces) ≠ [] := by
  obtain ⟨c, piece, rfl⟩ := List.exists_cons_of_ne_nil h
  cases pieces with
  | nil => simp [joinPieces]
  | cons next pieces => simp [joinPieces, List.intercalate_cons_cons]

/-! ## Walking -/

theorem walk_append (here : Location) (cs ds : List Component) :
    files.walk here (cs ++ ds) = (files.walk here cs).bind (files.walk · ds) := by
  induction cs generalizing here with
  | nil => rfl
  | cons c cs ih =>
      rw [List.cons_append, walk, walk]
      cases files.step here c with
      | error e => rfl
      | ok there => exact ih there

theorem node?_of_child {here there : Location} {name : List Char}
    (h : files.child here name = .ok there) : files.node? here = some .directory := by
  simp only [child] at h
  split at h
  · cases h
  · split at h
    · cases h
    · next hnode => exact not_not.1 hnode

theorem walk_take {here : Location} {names : Location}
    (h : files.walk here (names.map .name) = .ok (here ++ names)) {k : Nat} (hk : k < names.length) :
    files.walk here ((names.take k).map .name) = .ok (here ++ names.take k) ∧
      files.node? (here ++ names.take k) = some .directory := by
  have hsplit : names = names.take k ++ names[k] :: names.drop (k + 1) := by
    rw [List.getElem_cons_drop, List.take_append_drop]
  have hwalk : ((files.walk here ((names.take k).map .name)).bind fun there =>
      files.walk there ((names[k] :: names.drop (k + 1)).map .name)) = .ok (here ++ names) := by
    rw [← walk_append, ← List.map_append, ← hsplit, h]
  cases hfirst : files.walk here ((names.take k).map .name) with
  | error e =>
      rw [hfirst] at hwalk
      cases hwalk
  | ok there =>
      obtain rfl := walk_names _ hfirst
      refine ⟨rfl, ?_⟩
      rw [hfirst] at hwalk
      cases hchild : files.child (here ++ names.take k) names[k] with
      | error e =>
          rw [Except.bind, List.map_cons, walk, step, hchild] at hwalk
          cases hwalk
      | ok next => exact node?_of_child hchild

namespace HasWorkingDirectory

variable (h : files.HasWorkingDirectory) (hproper : files.Proper)

include h hproper

theorem locate_eq : files.locate (pathOf files.workingDirectory) = .ok files.workingDirectory ∧
    files.node? files.workingDirectory = some .directory := by
  have hlookUp := h
  unfold HasWorkingDirectory lookUp at hlookUp
  split at hlookUp
  · cases hlookUp
  · split at hlookUp
    · cases hlookUp
    · next here hlocate =>
        obtain rfl := locate_pathOf hproper hlocate
        refine ⟨hlocate, ?_⟩
        split at hlookUp
        · next node hnode => rw [hnode, Except.ok.inj hlookUp]
        · cases hlookUp

theorem walk_eq : files.walk [] (files.workingDirectory.map .name) = .ok files.workingDirectory ∧
    hasNul (pathOf files.workingDirectory) = false := by
  obtain ⟨hlocate, hnode⟩ := h.locate_eq hproper
  unfold locate at hlocate
  split at hlocate
  · cases hlocate
  · next hnul =>
      refine ⟨?_, by simpa using hnul⟩
      split at hlocate
      · cases hlocate
      · split at hlocate
        · cases hlocate
        · next here hwalk =>
            split at hlocate
            · cases hlocate
            · obtain rfl := Except.ok.inj hlocate
              rw [components_pathOf hproper, walk, step, onward, if_pos hnode] at hwalk
              exact hwalk

theorem node?_above (n : Nat) : files.node? (above files.workingDirectory n) = some .directory := by
  cases n with
  | zero => rw [above_zero]; exact (h.locate_eq hproper).2
  | succ n =>
      by_cases hnil : files.workingDirectory = []
      · simp [above, hnil, node?]
      · have hlength := List.length_pos_iff.2 hnil
        have hwalk := (h.walk_eq hproper).1
        exact (@walk_take files [] _ hwalk _ (by omega)).2

theorem walk_above (n : Nat) : files.walk [] ((above files.workingDirectory n).map .name) =
    .ok (above files.workingDirectory n) := by
  have hwalk := (h.walk_eq hproper).1
  cases n with
  | zero => rwa [above_zero]
  | succ n =>
      by_cases hnil : files.workingDirectory = []
      · simp [above, hnil, walk]
      · have hlength := List.length_pos_iff.2 hnil
        exact (@walk_take files [] _ hwalk _ (by omega)).1

theorem walk_parents (n : Nat) : files.walk files.workingDirectory (List.replicate n .parent) =
    .ok (above files.workingDirectory n) := by
  induction n with
  | zero => rw [above_zero]; rfl
  | succ n ih =>
      rw [List.replicate_succ', walk_append, ih, above_succ]
      simp only [Except.bind, walk, step, onward, h.node?_above hproper, if_true]

/-- Both ways from the working directory lead to the same place. -/
theorem walk_descent (n : Nat) (names : Location) :
    files.walk files.workingDirectory (descent n names) =
      files.walk files.workingDirectory
        (.root :: (above files.workingDirectory n ++ names).map .name) := by
  have hroot : ∀ cs, files.walk files.workingDirectory (.root :: cs) = files.walk [] cs := by
    intro cs
    rw [walk, step, onward, if_pos (h.locate_eq hproper).2]
  rw [hroot, descent, walk_append, h.walk_parents hproper, List.map_append, walk_append,
    h.walk_above hproper]

end HasWorkingDirectory

/-! ## Reading both spellings -/

theorem Proper.above_append (hproper : files.Proper) (n : Nat) {names : Location}
    (hnames : names.Proper) : Location.Proper (above files.workingDirectory n ++ names) := by
  intro name hname
  rcases List.mem_append.1 hname with hname | hname
  · exact hproper name (List.take_subset _ _ hname)
  · exact hnames name hname

theorem locate_descent (hproper : files.Proper) (h : files.HasWorkingDirectory) {n : Nat}
    {names : Location} (hnames : names.Proper) (hne : ¬ (n = 0 ∧ names = [])) :
    files.locate (ofComponents (descent n names)) =
      files.locate (pathOf (above files.workingDirectory n ++ names)) := by
  have habove := hproper.above_append n hnames
  have hnul : hasNul (pathOf (above files.workingDirectory n ++ names)) =
      hasNul (ofComponents (descent n names)) := by
    have hwd := (h.walk_eq hproper).2
    rw [hasNul_pathOf, List.any_eq_false] at hwd
    have hbase : (above files.workingDirectory n).any (·.contains '\x00') = false :=
      List.any_eq_false.2 fun name hname => hwd name (List.take_subset _ _ hname)
    rw [hasNul_pathOf, hasNul_descent, List.any_append, hbase, Bool.false_or]
  have htext : (ofComponents (descent n names)).text.isEmpty = false := by
    rw [String.isEmpty_eq_false_iff, ne_eq, ← String.toList_eq_nil_iff, toList_descent]
    cases n with
    | zero =>
        obtain ⟨name, names, rfl⟩ := List.exists_cons_of_ne_nil fun hnil => hne ⟨rfl, hnil⟩
        refine joinPieces_ne_nil ?_ names
        rintro rfl
        exact absurd (hnames [] (List.mem_cons_self ..)).no_filler (by decide)
    | succ n => exact joinPieces_ne_nil (by simp) _
  have htext' : (pathOf (above files.workingDirectory n ++ names)).text.isEmpty = false := by
    rw [String.isEmpty_eq_false_iff, ne_eq, ← String.toList_eq_nil_iff, toList_pathOf]
    exact List.cons_ne_nil _ _
  unfold locate
  rw [hnul, htext, htext', components_descent hnames, components_pathOf habove, h.walk_descent hproper,
    asksDirectory_descent hnames hne, asksDirectory_pathOf habove]

theorem key_and_read_iff_of_locate {names : Location} (hnames : names.Proper)
    (hfull : files.fullPath p = pathOf names)
    (hlocate : files.locate p.normalize = files.locate (pathOf names)) {key : Path}
    {text : List Char} : files.key p = .ok key ∧ files.read key = .ok text ↔
      key = files.fullPath p ∧ files.read key = .ok text := by
  constructor
  · rintro ⟨hkey, hread⟩
    refine ⟨?_, hread⟩
    unfold FileTree.key canonicalize at hkey
    cases hhere : files.locate p.normalize with
    | error e => cases e <;> simp [hhere, Except.map] at hkey
    | ok here =>
        obtain rfl := locate_pathOf hnames (hlocate.symm.trans hhere)
        simp only [hhere, Except.map, Except.ok.injEq] at hkey
        rw [hfull, hkey]
  · rintro ⟨rfl, hread⟩
    refine ⟨?_, hread⟩
    rw [hfull] at hread ⊢
    obtain ⟨here, hhere, -⟩ := locate_of_read hread
    obtain rfl := locate_pathOf hnames hhere
    simp only [FileTree.key, canonicalize, hlocate, hhere, Except.map]

/-- A path leads to a file that can be read if the full path names it, and then under that name. -/
theorem key_and_read_iff (hproper : files.Proper) (h : files.HasWorkingDirectory) {key : Path}
    {text : List Char} : files.key p = .ok key ∧ files.read key = .ok text ↔
      key = files.fullPath p ∧ files.read key = .ok text := by
  by_cases hp : p.isAbsolute = true
  · obtain ⟨names, hnames, hnormal, hfull⟩ := exists_fullPath hp
    exact key_and_read_iff_of_locate hnames hfull (by rw [hnormal])
  obtain ⟨n, names, hnames, hnormal, hfull⟩ := exists_descent hproper (Bool.not_eq_true _ ▸ hp)
  by_cases hne : n = 0 ∧ names = []
  · obtain ⟨rfl, rfl⟩ := hne
    constructor
    · rintro ⟨hkey, -⟩
      rw [FileTree.key, hnormal] at hkey
      cases hkey
    · rintro ⟨rfl, hread⟩
      rw [hfull, above_zero, List.append_nil, FileTree.read, h] at hread
      cases hread
  · exact key_and_read_iff_of_locate (hproper.above_append n hnames) hfull
      (hnormal ▸ locate_descent hproper h hnames hne)

end FileTree

end Typings
