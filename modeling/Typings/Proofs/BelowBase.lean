import Typings.Identity
import Typings.Proofs.Decoding
import Typings.Proofs.NormalPath
import Typings.Proofs.Squeeze

/-!
# Files below a base

A file below the base is shown without the components of the base, behind `./`, and any other file
in full.  So the text of a type tells its file, up to the spelling of the path, its name and whether
it is the default: `Identity.same_of_displayRelative`.
-/

namespace Typings

namespace Path

/-! ## Fillers -/

theorem exists_pieceComponent {piece : List Char} (h : isFiller piece = false) :
    ∃ c, pieceComponent? piece = some c ∧ componentChars c = piece := by
  unfold pieceComponent?
  rw [h, if_neg Bool.false_ne_true]
  split
  next hparent => exact ⟨.parent, rfl, (eq_of_beq hparent).symm⟩
  next => exact ⟨.name piece, rfl, rfl⟩

theorem filterMap_dropWhile_isFiller (pieces : List (List Char)) :
    (pieces.dropWhile isFiller).filterMap pieceComponent? = pieces.filterMap pieceComponent? := by
  induction pieces with
  | nil => rfl
  | cons piece pieces ih =>
      by_cases h : isFiller piece = true
      · rw [List.dropWhile_cons_of_pos h, ih, List.filterMap_cons_none (by simp [pieceComponent?, h])]
      · rw [List.dropWhile_cons_of_neg h]

theorem filterMap_dropTrailingFillers (pieces : List (List Char)) :
    (dropTrailingFillers pieces).filterMap pieceComponent? =
      pieces.filterMap pieceComponent? := by
  rw [dropTrailingFillers, List.filterMap_reverse, filterMap_dropWhile_isFiller,
    List.filterMap_reverse, List.reverse_reverse]

theorem subset_dropTrailingFillers (pieces : List (List Char)) :
    dropTrailingFillers pieces ⊆ pieces := fun _ hpiece =>
  List.mem_reverse.1 ((List.dropWhile_suffix _).subset (List.mem_reverse.1 hpiece))

theorem head?_dropWhile_isFiller (pieces : List (List Char)) :
    (pieces.dropWhile isFiller).head?.any isFiller = false := by
  have h := List.head?_dropWhile_not isFiller pieces
  cases hhead : (pieces.dropWhile isFiller).head? <;> simp_all

theorem filterMap_dropPieces (n : Nat) (pieces : List (List Char)) :
    (dropPieces n pieces).filterMap pieceComponent? =
      (pieces.filterMap pieceComponent?).drop n := by
  induction n generalizing pieces with
  | zero => exact filterMap_dropWhile_isFiller pieces
  | succ n ih =>
      have hfirst := head?_dropWhile_isFiller pieces
      rw [dropPieces, ih, ← filterMap_dropWhile_isFiller pieces]
      cases hpieces : pieces.dropWhile isFiller with
      | nil => rw [List.tail_nil, List.filterMap_nil, List.drop_nil, List.drop_nil]
      | cons piece rest =>
          rw [hpieces] at hfirst
          obtain ⟨c, hc, -⟩ := exists_pieceComponent hfirst
          rw [List.filterMap_cons_some hc, List.tail_cons, List.drop_succ_cons]

theorem dropPieces_suffix (n : Nat) (pieces : List (List Char)) : dropPieces n pieces <:+ pieces := by
  induction n generalizing pieces with
  | zero => exact List.dropWhile_suffix _
  | succ n ih => exact (ih _).trans ((List.tail_suffix _).trans (List.dropWhile_suffix _))

theorem head?_dropPieces (n : Nat) (pieces : List (List Char)) :
    (dropPieces n pieces).head?.any isFiller = false := by
  induction n generalizing pieces with
  | zero => exact head?_dropWhile_isFiller pieces
  | succ n ih => exact ih _

/-! ## What is left below a base -/

theorem filterMap_cut_joinPieces {pieces : List (List Char)}
    (hslash : ∀ piece ∈ pieces, '/' ∉ piece) :
    (Text.cut (· == '/') (joinPieces pieces)).filterMap pieceComponent? =
      pieces.filterMap pieceComponent? := by
  by_cases hne : pieces = []
  · subst hne
    rfl
  · rw [cut_joinPieces pieces hne hslash]

theorem relative_joinPieces {pieces : List (List Char)} (hslash : ∀ piece ∈ pieces, '/' ∉ piece)
    (hfirst : pieces.head?.any isFiller = false) :
    (ofChars (joinPieces pieces)).isAbsolute = false ∧
      (ofChars (joinPieces pieces)).components = pieces.filterMap pieceComponent? := by
  by_cases hne : pieces = []
  · subst hne
    exact ⟨by decide, by decide⟩
  · have hanatomy := anatomy_joinPieces hne hslash hfirst
    refine ⟨Bool.eq_false_iff.2 fun habsolute => ?_, by rw [components, hanatomy]; rfl⟩
    obtain ⟨s, hs⟩ := exists_slash habsolute
    rw [hs, anatomy_ofChars_slash] at hanatomy
    cases hanatomy

theorem ofAnatomy_none (pieces : List (List Char)) :
    ofAnatomy none pieces = ofChars (joinPieces pieces) := rfl

inductive Below (p base : Path) : Path → Prop
  | all {rest : Path} (hbase : base.components = []) (hrest : rest.isAbsolute = true)
      (h : p.components = rest.components) : Below p base rest
  | part {rest : Path} (hbase : base.components ≠ []) (hrest : rest.isAbsolute = false)
      (h : p.components = base.components ++ rest.components) : Below p base rest

variable {p q base rest : Path}

theorem stripBase?_cases (h : p.stripBase? base = some rest) :
    base.components <+: p.components ∧
      (base.components = [] ∧ rest = ofAnatomy p.anatomy.1 (dropTrailingFillers p.anatomy.2) ∨
        base.components ≠ [] ∧ rest = ofAnatomy none
          (dropPieces (base.components.length - p.anatomy.1.toList.length)
            (dropTrailingFillers p.anatomy.2))) := by
  unfold stripBase? at h
  split at h
  next hbegins =>
    refine ⟨List.isPrefixOf_iff_prefix.1 hbegins, ?_⟩
    dsimp only at h
    split at h
    next hempty => exact .inl ⟨List.isEmpty_iff.1 hempty, (Option.some.inj h).symm⟩
    next hempty => exact .inr ⟨by simpa using hempty, (Option.some.inj h).symm⟩
  next => cases h

theorem below_of_stripBase? (hp : p.isAbsolute = true) (h : p.stripBase? base = some rest) :
    Below p base rest := by
  obtain ⟨s, rfl⟩ := exists_slash hp
  have hslash : ∀ piece ∈ dropTrailingFillers (Text.cut (· == '/') s), '/' ∉ piece :=
    fun piece hpiece => Text.not_mem_of_mem_cut '/' s piece
      (subset_dropTrailingFillers _ hpiece)
  have hcomponents := components_ofChars_slash s
  rw [← filterMap_dropTrailingFillers] at hcomponents
  obtain ⟨hbegins, hrest⟩ := stripBase?_cases h
  rw [anatomy_ofChars_slash] at hrest
  rw [hcomponents] at hbegins
  dsimp only at hrest
  generalize dropTrailingFillers (Text.cut (· == '/') s) = body at hrest hbegins hslash hcomponents
  rcases hrest with ⟨hbase, rfl⟩ | ⟨hbase, rfl⟩
  · refine .all hbase ?_ ?_
    · rw [ofAnatomy, isAbsolute, ofChars, String.toList_ofList]
      rfl
    · rw [ofAnatomy, hcomponents, components_ofChars_slash, filterMap_cut_joinPieces hslash]
  · obtain ⟨c, cs, hcs⟩ := List.exists_cons_of_ne_nil hbase
    rw [hcs] at hbegins
    obtain ⟨tail, htail⟩ := hbegins
    rw [List.cons_append] at htail
    obtain ⟨rfl, hbody⟩ := List.cons.inj htail
    obtain ⟨hrelative, hpieces⟩ := relative_joinPieces
      (fun piece hpiece => hslash piece ((dropPieces_suffix cs.length body).subset hpiece))
      (head?_dropPieces cs.length body)
    have hlength : base.components.length - (some Component.root).toList.length = cs.length := by
      simp [hcs]
    rw [hlength]
    refine .part hbase hrelative ?_
    rw [hcomponents, hcs, ofAnatomy_none, hpieces, filterMap_dropPieces, ← hbody, List.drop_left,
      List.cons_append]

theorem mem_of_mem_anatomy {piece : List Char} {c : Char} (hpiece : piece ∈ p.anatomy.2)
    (hc : c ∈ piece) : c ∈ p.text.toList := by
  unfold anatomy at hpiece
  split at hpiece
  next body hbody =>
    rw [hbody]
    exact List.mem_cons_of_mem _ (Text.mem_of_mem_cut hpiece hc)
  next =>
    split at hpiece
    next hcut => exact Text.mem_of_mem_cut (hcut ▸ List.mem_cons_of_mem _ hpiece) hc
    next => exact Text.mem_of_mem_cut hpiece hc

theorem mem_of_mem_ofAnatomy {c : Char} (hslash : c ≠ '/') (hdot : c ≠ '.')
    {anchor : Option Component} {pieces : List (List Char)} (hpieces : pieces ⊆ p.anatomy.2)
    (hc : c ∈ (ofAnatomy anchor pieces).text.toList) : c ∈ p.text.toList := by
  have hjoined : c ∈ joinPieces pieces := by
    unfold ofAnatomy at hc
    split at hc
    · simpa [ofChars, hslash] using hc
    · simp [ofChars, hdot] at hc
    · simpa [ofChars, hslash, hdot] using hc
    · simpa [ofChars] using hc
  obtain ⟨piece, hpiece, hc⟩ := (FileTree.mem_joinPieces hslash pieces).1 hjoined
  exact mem_of_mem_anatomy (hpieces hpiece) hc

theorem mem_of_stripBase? {c : Char} (hslash : c ≠ '/') (hdot : c ≠ '.')
    (h : p.stripBase? base = some rest) (hc : c ∈ rest.text.toList) : c ∈ p.text.toList := by
  have hbody := subset_dropTrailingFillers p.anatomy.2
  rcases (stripBase?_cases h).2 with ⟨-, rfl⟩ | ⟨-, rfl⟩
  · exact mem_of_mem_ofAnatomy hslash hdot hbody hc
  · refine mem_of_mem_ofAnatomy hslash hdot (fun piece hpiece => hbody ?_) hc
    exact (dropPieces_suffix _ _).subset hpiece

/-! ## The path that is shown -/

def shownFrom (p base : Path) : Path :=
  match p.stripBase? base with
  | some rest => join ⟨"."⟩ rest
  | none => p

theorem join_dot {rest : Path} (h : rest.isAbsolute = false) :
    join ⟨"."⟩ rest = ofChars ('.' :: '/' :: rest.text.toList) := by
  rw [join, if_neg (Bool.not_eq_true _ ▸ h)]
  rfl

theorem shownFrom_cases (hp : p.isAbsolute = true) :
    ((p.shownFrom base).isAbsolute = true ∧ (p.shownFrom base).components = p.components) ∨
      ∃ rest : Path, p.shownFrom base = ofChars ('.' :: '/' :: rest.text.toList) ∧
        p.components = base.components ++ rest.components := by
  unfold shownFrom
  split
  next rest hrest =>
    cases below_of_stripBase? hp hrest with
    | all _ habsolute h =>
        rw [join, if_pos habsolute]
        exact .inl ⟨habsolute, h.symm⟩
    | part _ hrelative h => exact .inr ⟨rest, join_dot hrelative, h⟩
  next => exact .inl ⟨hp, rfl⟩

theorem components_eq_of_shownFrom (hp : p.isAbsolute = true) (hq : q.isAbsolute = true)
    (h : p.shownFrom base = q.shownFrom base) : p.components = q.components := by
  have hdot : ∀ rest : Path, (ofChars ('.' :: '/' :: rest.text.toList)).isAbsolute = false := by
    intro rest
    rw [isAbsolute, ofChars, String.toList_ofList]
    rfl
  have hcases := @shownFrom_cases q base hq
  rcases @shownFrom_cases p base hp with ⟨habsolute, hfull⟩ | ⟨rest, hshown, hbelow⟩
  · rcases hcases with ⟨-, hfull'⟩ | ⟨rest', hshown', -⟩
    · rw [← hfull, h, hfull']
    · rw [h, hshown', hdot] at habsolute
      cases habsolute
  · rcases hcases with ⟨habsolute', -⟩ | ⟨rest', hshown', hbelow'⟩
    · rw [← h, hshown, hdot] at habsolute'
      cases habsolute'
    · rw [hshown, hshown', ofChars, ofChars] at h
      have hrest : rest = rest' := by
        cases rest
        cases rest'
        simpa using h
      rw [hbelow, hbelow', hrest]

theorem mem_of_mem_shownFrom {c : Char} (hslash : c ≠ '/') (hdot : c ≠ '.')
    (hc : c ∈ (p.shownFrom base).text.toList) : c ∈ p.text.toList := by
  unfold shownFrom at hc
  split at hc
  next rest hrest =>
    refine mem_of_stripBase? hslash hdot hrest ?_
    cases habsolute : rest.isAbsolute with
    | true => rwa [join, if_pos habsolute] at hc
    | false =>
        rw [join_dot habsolute, ofChars, String.toList_ofList] at hc
        simpa [hslash, hdot] using hc
  next => exact hc

/-! ## One spelling for each path -/

def respelled (p : Path) : Path := ofComponents p.components

theorem map_componentChars (pieces : List (List Char)) :
    (pieces.filterMap pieceComponent?).map componentChars = pieces.filter (!isFiller ·) := by
  induction pieces with
  | nil => rfl
  | cons piece pieces ih =>
      cases h : isFiller piece with
      | true =>
          rw [List.filterMap_cons_none (by rw [pieceComponent?, if_pos h]), ih,
            List.filter_cons_of_neg (by simp [h])]
      | false =>
          obtain ⟨c, hc, hchars⟩ := exists_pieceComponent h
          rw [List.filterMap_cons_some hc, List.map_cons, ih, hchars,
            List.filter_cons_of_pos (by simp [h])]

theorem filterMap_filter_isFiller (pieces : List (List Char)) :
    (pieces.filter (!isFiller ·)).filterMap pieceComponent? = pieces.filterMap pieceComponent? := by
  rw [List.filterMap_filter]
  congr 1
  funext piece
  cases h : isFiller piece with
  | true => rw [pieceComponent?, if_pos h]; rfl
  | false => rfl

theorem components_respelled (hp : p.isAbsolute = true) : p.respelled.components = p.components := by
  obtain ⟨s, rfl⟩ := exists_slash hp
  have hchars := map_componentChars (Text.cut (· == '/') s)
  rw [respelled, components_ofChars_slash, ofComponents, components_ofChars_slash, hchars,
    filterMap_cut_joinPieces fun piece hpiece => Text.not_mem_of_mem_cut '/' s piece
      (List.mem_of_mem_filter hpiece), filterMap_filter_isFiller]

/-- Absolute paths with the same spelling are the paths that mean the same. -/
theorem respelled_eq_iff (hp : p.isAbsolute = true) (hq : q.isAbsolute = true) :
    p.respelled = q.respelled ↔ p.same q = true := by
  rw [same_iff]
  constructor
  · intro h
    rw [← components_respelled hp, h, components_respelled hq]
  · intro h
    rw [respelled, h, respelled]

end Path

/-! ## Texts of identities -/

namespace Identity

/-- An identity that can be read from its text: its file is a path from the root in one line. -/
structure Showable (a : Identity) : Prop where
  absolute : a.file.isAbsolute = true
  oneLine : '\n' ∉ a.file.text.toList
  identifier : Text.isIdentifier a.name.toList = true

def arrow (isDefault : Bool) : List Char := if isDefault then " => ".toList else " -> ".toList

theorem toList_displayRelative (a : Identity) (base : Path) : (a.displayRelative base).toList =
    '<' :: ((a.file.shownFrom base).text.toList ++ arrow a.isDefault ++ a.name.toList ++ ['>']) := by
  have hdisplay : a.displayRelative base = a.displayAt (a.file.shownFrom base) := by
    unfold displayRelative Path.shownFrom
    cases a.file.stripBase? base <;> rfl
  rw [hdisplay, displayAt, arrow]
  cases a.isDefault <;> simp

variable {a b : Identity} {base : Path}

theorem same_of_displayRelative (ha : a.Showable) (hb : b.Showable)
    (h : a.displayRelative base = b.displayRelative base) : a.same b = true := by
  have hparts : a.name.toList.reverse ++
        ((arrow a.isDefault).reverse ++ (a.file.shownFrom base).text.toList.reverse) =
      b.name.toList.reverse ++
        ((arrow b.isDefault).reverse ++ (b.file.shownFrom base).text.toList.reverse) := by
    have hlist := congrArg String.toList h
    rw [toList_displayRelative, toList_displayRelative] at hlist
    have hinner := List.append_cancel_right (List.cons.inj hlist).2
    simpa using congrArg List.reverse hinner
  have hword : ∀ {a : Identity}, a.Showable → ∀ c ∈ a.name.toList.reverse, Text.isWord c = true :=
    fun ha c hc => Text.isWord_of_isIdentifier ha.identifier c (List.mem_reverse.1 hc)
  have hblank : ∀ (isDefault : Bool) (s : List Char),
      ((arrow isDefault).reverse ++ s).head?.any Text.isWord = false := by
    rintro (_ | _) s <;> rfl
  obtain ⟨hname, hrest⟩ := eq_of_append_of_all (hword ha) (hword hb) (hblank _ _)
    (hblank _ _) hparts
  have hlength : (arrow a.isDefault).reverse.length = (arrow b.isDefault).reverse.length := by
    cases a.isDefault <;> cases b.isDefault <;> rfl
  obtain ⟨harrow, hshown⟩ := List.append_inj hrest hlength
  have hdefault : a.isDefault = b.isDefault := by
    revert harrow
    cases a.isDefault <;> cases b.isDefault <;> decide
  have hfile : a.file.shownFrom base = b.file.shownFrom base := by
    rw [← Path.ofChars_toList (a.file.shownFrom base), List.reverse_inj.1 hshown,
      Path.ofChars_toList]
  exact same_iff.2 ⟨Path.components_eq_of_shownFrom ha.absolute hb.absolute hfile,
    String.toList_inj.1 (List.reverse_inj.1 hname), hdefault⟩

theorem newline_not_mem_displayRelative (ha : a.Showable) (base : Path) :
    '\n' ∉ (a.displayRelative base).toList := by
  have hfile : '\n' ∉ (a.file.shownFrom base).text.toList := fun hmem =>
    ha.oneLine (Path.mem_of_mem_shownFrom (by decide) (by decide) hmem)
  have harrow : '\n' ∉ arrow a.isDefault := by
    cases a.isDefault <;> decide
  have hname : '\n' ∉ a.name.toList := fun hmem =>
    absurd (Text.isWord_of_isIdentifier ha.identifier _ hmem) (by decide)
  simp [toList_displayRelative, hfile, harrow, hname]

def respelled (a : Identity) : Identity := { a with file := a.file.respelled }

theorem respelled_eq_iff (ha : a.Showable) (hb : b.Showable) :
    a.respelled = b.respelled ↔ a.same b = true := by
  rw [same_iff, ← Path.same_iff, ← Path.respelled_eq_iff ha.absolute hb.absolute]
  simp [respelled]

end Identity

end Typings
