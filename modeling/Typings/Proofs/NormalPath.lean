import Typings.Proofs.Spelling
import Typings.Resolver

/-!
# Normal paths

What a path becomes depends on its pieces alone, one pushed after the other, so a path that is
joined to another one continues where that one ended.  Hence it makes no difference whether a
directory is taken apart before a path is joined to it: `Path.normalize_normalize_join`.
-/

namespace Typings

namespace Path

/-! ## Pieces of joined paths -/

def inside (p : Path) : List Component :=
  (Text.cut (· == '/') p.text.toList).filterMap pieceComponent?

def start (absolute : Bool) : List Component := if absolute then [.root] else []

def passed (p : Path) : List Component := p.components.foldl (pushNormal p.isAbsolute) []

theorem normalize_eq (p : Path) : p.normalize = ofComponents p.passed.reverse := rfl

theorem passed_eq (p : Path) :
    p.passed = p.inside.foldl (pushNormal p.isAbsolute) (start p.isAbsolute) := by
  cases hp : p.isAbsolute with
  | false => rw [passed, hp, foldl_components hp, start, if_neg Bool.false_ne_true]; rfl
  | true =>
      obtain ⟨s, rfl⟩ := exists_slash hp
      rw [passed, hp, components_ofChars_slash, inside, ofChars, String.toList_ofList]
      rfl

theorem inside_append_slash (s t : List Char) :
    (ofChars (s ++ '/' :: t)).inside = (ofChars s).inside ++ (ofChars t).inside := by
  simp only [inside, ofChars, String.toList_ofList, Text.cut_append_sep '/', List.filterMap_append]

theorem ofChars_toList (p : Path) : ofChars p.text.toList = p := by
  rw [ofChars, String.ofList_toList]

theorem inside_join {a b : Path} (hb : b.isAbsolute = false) :
    (a.join b).inside = a.inside ++ b.inside := by
  have hends : ∀ s : List Char, (ofChars (s ++ ['/'])).inside = (ofChars s).inside := by
    intro s
    rw [inside_append_slash]
    exact List.append_nil _
  rw [join, hb, if_neg Bool.false_ne_true]
  dsimp only
  split
  next hjoin =>
    rw [Bool.or_eq_true, List.isEmpty_iff, beq_iff_eq] at hjoin
    rcases hjoin with hnil | hlast
    · have ha : a.inside = [] := by rw [inside, hnil]; rfl
      rw [hnil, List.nil_append, ofChars_toList, ha, List.nil_append]
    · obtain ⟨s, hs⟩ := List.getLast?_eq_some_iff.1 hlast
      have ha : a.inside = (ofChars s).inside := by rw [← ofChars_toList a, hs, hends]
      rw [hs, List.append_assoc, List.singleton_append, inside_append_slash, ofChars_toList, ha]
  next => rw [inside_append_slash, ofChars_toList, ofChars_toList]

theorem isAbsolute_join {a b : Path} (hb : b.isAbsolute = false) :
    (a.join b).isAbsolute = a.isAbsolute := by
  rw [join, hb, if_neg Bool.false_ne_true]
  rw [isAbsolute] at hb
  simp only [isAbsolute]
  cases a.text.toList with
  | nil => exact (congrArg (·.head? == some '/') String.toList_ofList).trans hb
  | cons c s =>
      split <;> rw [ofChars, String.toList_ofList] <;> rfl

/-- A relative path goes on where the path it is joined to has ended. -/
theorem passed_join {a b : Path} (hb : b.isAbsolute = false) :
    (a.join b).passed = b.inside.foldl (pushNormal a.isAbsolute) a.passed := by
  rw [passed_eq, passed_eq, inside_join hb, isAbsolute_join hb, List.foldl_append]

/-! ## Normal forms -/

/-- The components of a normal path: names below the root, or names below some place above. -/
inductive IsNormal : Bool → List Component → Prop
  | rooted {names : Location} (h : names.Proper) : IsNormal true (.root :: names.map .name)
  | relative (n : Nat) {names : Location} (h : names.Proper) : IsNormal false (descent n names)

theorem isNormal_passed (p : Path) : IsNormal p.isAbsolute p.passed.reverse := by
  obtain ⟨n, names, hrelative, habsolute, hnames⟩ :=
    foldl_pushNormal_descent p.inside (root_not_mem_filterMap _) 0 []
  have hproper : Location.Proper names := by
    intro name hname
    rcases hnames name hname with h | h
    · cases h
    · exact properName_of_mem_filterMap h
  rw [passed_eq]
  cases p.isAbsolute with
  | true =>
      have hpassed : p.inside.foldl (pushNormal true) (start true) =
          (.root :: names.map .name).reverse :=
        (habsolute []).trans (by rw [above, List.take_nil, List.nil_append])
      rw [hpassed, List.reverse_reverse]
      exact .rooted hproper
  | false =>
      have hpassed : p.inside.foldl (pushNormal false) (start false) =
          (descent n names).reverse := hrelative
      rw [hpassed, List.reverse_reverse]
      exact .relative n hproper

namespace IsNormal

variable {absolute : Bool} {cs : List Component}

theorem components_eq (h : IsNormal absolute cs) : (ofComponents cs).components = cs := by
  cases h with
  | rooted h => exact FileTree.components_pathOf h
  | relative n h => exact FileTree.components_descent h

theorem isAbsolute_eq (h : IsNormal absolute cs) : (ofComponents cs).isAbsolute = absolute := by
  have hcomponents := h.components_eq
  cases h with
  | rooted h =>
      rw [ofComponents, isAbsolute, ofChars, String.toList_ofList]
      rfl
  | @relative n names h =>
      refine Bool.eq_false_iff.2 fun habsolute => ?_
      obtain ⟨s, hs⟩ := exists_slash habsolute
      rw [hs, components_ofChars_slash] at hcomponents
      have hroot : .root ∈ descent n names := hcomponents ▸ List.mem_cons_self ..
      simp [descent] at hroot

theorem foldl_pushNormal_parents (n m : Nat) :
    (List.replicate n Component.parent).foldl (pushNormal false) (List.replicate m .parent) =
      List.replicate (n + m) .parent := by
  induction n generalizing m with
  | zero => rw [Nat.zero_add]; rfl
  | succ n ih =>
      have hpush : pushNormal false (List.replicate m .parent) .parent =
          List.replicate (m + 1) .parent := by
        cases m <;> rfl
      rw [List.replicate_succ, List.foldl_cons, hpush, ih, Nat.add_right_comm, Nat.add_assoc]

theorem foldl_eq (h : IsNormal absolute cs) : cs.foldl (pushNormal absolute) [] = cs.reverse := by
  cases h with
  | rooted h =>
      rw [List.foldl_cons, FileTree.foldl_pushNormal_names, List.reverse_cons]
      rfl
  | @relative n names h =>
      have hparents := foldl_pushNormal_parents n 0
      rw [List.replicate_zero, Nat.add_zero] at hparents
      rw [descent, List.foldl_append, hparents, FileTree.foldl_pushNormal_names,
        List.reverse_append, List.reverse_replicate]

theorem current_not_mem (h : IsNormal absolute cs) : .current ∉ cs := by
  cases h with
  | rooted h => simp
  | relative n h => simp [descent]

theorem parent_not_mem (h : IsNormal true cs) : .parent ∉ cs := by
  cases h with
  | rooted h => simp

theorem parent_not_mem_dropWhile (h : IsNormal absolute cs) :
    .parent ∉ cs.dropWhile (· == .parent) := by
  cases h with
  | rooted h => simp
  | @relative n names h =>
      have hnames : (names.map Component.name).dropWhile (· == .parent) = names.map .name := by
        cases names <;> rfl
      rw [descent, List.dropWhile_append_of_pos (by simp), hnames]
      simp

end IsNormal

theorem isAbsolute_normalize (p : Path) : p.normalize.isAbsolute = p.isAbsolute :=
  (isNormal_passed p).isAbsolute_eq

theorem components_normalize (p : Path) : p.normalize.components = p.passed.reverse :=
  (isNormal_passed p).components_eq

theorem passed_normalize (p : Path) : p.normalize.passed = p.passed := by
  rw [passed, components_normalize, isAbsolute_normalize, (isNormal_passed p).foldl_eq,
    List.reverse_reverse]

/-! ## Main statement -/

/--
A directory may be taken apart before a path is joined to it, and so may any path on its own; two
spellings of a directory lead to the same files.  No `.` is left, and `..` only in front: not at
all below the root.
-/
theorem normalize_normalize_join (a b : Path) :
    (a.normalize.join b).normalize = (a.join b).normalize ∧
      a.normalize.normalize = a.normalize ∧
      (∀ options importer importer' specifier,
        (importer.parent?.getD ⟨""⟩).normalize = (importer'.parent?.getD ⟨""⟩).normalize →
          Specifier.resolve options importer specifier =
            Specifier.resolve options importer' specifier) ∧
      .current ∉ (a.join b).normalize.components ∧
      ((a.join b).isAbsolute = true → .parent ∉ (a.join b).normalize.components) ∧
      .parent ∉ (a.join b).normalize.components.dropWhile (· == .parent) := by
  have hjoin : ∀ a b : Path, (a.normalize.join b).normalize = (a.join b).normalize := by
    intro a b
    cases hb : b.isAbsolute with
    | true => rw [join, join, if_pos hb, if_pos hb]
    | false =>
        rw [normalize_eq (a.join b), normalize_eq (a.normalize.join b), passed_join hb,
          passed_join hb, isAbsolute_normalize, passed_normalize]
  have hnormal := isNormal_passed (a.join b)
  rw [components_normalize]
  refine ⟨hjoin a b, ?_, ?_, hnormal.current_not_mem, ?_, hnormal.parent_not_mem_dropWhile⟩
  · rw [normalize_eq, passed_normalize, ← normalize_eq]
  · intro options importer importer' specifier h
    rw [Specifier.resolve, Specifier.resolve, ← hjoin, h, hjoin]
  · intro habsolute
    rw [habsolute] at hnormal
    exact hnormal.parent_not_mem

theorem normalize_normalize_join_detour :
    ((⟨"/w/src/../lib/a.d.ts"⟩ : Path).parent?.getD ⟨""⟩).normalize =
        ((⟨"/w/lib/./b.d.ts"⟩ : Path).parent?.getD ⟨""⟩).normalize ∧
      Specifier.resolve .standard ⟨"/w/src/../lib/a.d.ts"⟩ "../c.js" =
        Specifier.resolve .standard ⟨"/w/lib/./b.d.ts"⟩ "../c.js" ∧
      ((⟨"/w"⟩ : Path).join ⟨"../../c"⟩).isAbsolute = true ∧
      .parent ∉ ((⟨"/w"⟩ : Path).join ⟨"../../c"⟩).normalize.components := by
  obtain ⟨-, -, hresolve, -, hrooted, -⟩ := normalize_normalize_join ⟨"/w"⟩ ⟨"../../c"⟩
  have hsame : ((⟨"/w/src/../lib/a.d.ts"⟩ : Path).parent?.getD ⟨""⟩).normalize =
      ((⟨"/w/lib/./b.d.ts"⟩ : Path).parent?.getD ⟨""⟩).normalize := by decide
  have habsolute : ((⟨"/w"⟩ : Path).join ⟨"../../c"⟩).isAbsolute = true := by decide
  exact ⟨hsame, hresolve _ _ _ _ hsame, habsolute, hrooted habsolute⟩

end Path

end Typings
