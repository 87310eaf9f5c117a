import Mathlib.Data.List.DropRight
import Typings.Proofs.Blanking
import Typings.Proofs.Chunking
import Typings.Proofs.Noted
import Typings.Proofs.TypeParameter

/-!
# Where statements stand

Statements are cut from a text whose comments may be blanked, and their offsets are used in the
source.  A statement begins at its offset in both, and it is not longer than what is left there: a
line that continues it has a blank in place of the line break in front of it.
-/

namespace Typings

/-! ## Trimmed lines -/

namespace Text

def indentation (line : List Char) : Nat := byteLength line - byteLength (trimStart line)

theorem exists_append_trim (s : List Char) : ∃ indent behind,
    s = indent ++ (trim s ++ behind) ∧ byteLength indent = indentation s := by
  obtain ⟨behind, hbehind⟩ := trimEnd_prefix (trimStart s)
  have hs : s.takeWhile isSpace ++ trimStart s = s := List.takeWhile_append_dropWhile
  refine ⟨s.takeWhile isSpace, behind, ?_, ?_⟩
  · rw [trim, hbehind, hs]
  · have hlength := congrArg byteLength hs
    rw [byteLength_append] at hlength
    rw [indentation]
    omega

theorem getLast?_trimEnd (s : List Char) : (trimEnd s).getLast?.any isSpace = false := by
  by_cases hne : trimEnd s = []
  · rw [hne]
    rfl
  · rw [List.getLast?_eq_some_getLast hne]
    have hlast : ¬ isSpace ((trimEnd s).getLast hne) = true :=
      List.rdropWhile_last_not isSpace s hne
    simpa using hlast

theorem isSpace_head_trim {s t : List Char} {c : Char} (h : trim s = c :: t) :
    isSpace c = false := by
  obtain ⟨behind, hbehind⟩ := trimEnd_prefix (trimStart s)
  rw [← trim, h] at hbehind
  have hhead := List.head?_dropWhile_not isSpace s
  rw [← trimStart, ← hbehind] at hhead
  simpa using hhead

theorem indentation_add_le (line : List Char) :
    indentation line + byteLength (trim line) ≤ byteLength line := by
  obtain ⟨indent, behind, hline, hindent⟩ := exists_append_trim line
  have hlength := congrArg byteLength hline
  rw [byteLength_append, byteLength_append] at hlength
  omega

theorem indentation_add_lt {line : List Char} (hshown : trim line ≠ [])
    (hbreak : line.getLast? = some '\n') :
    indentation line + byteLength (trim line) < byteLength line := by
  obtain ⟨indent, behind, hline, hindent⟩ := exists_append_trim line
  have hbehind : behind ≠ [] := by
    rintro rfl
    have hlast := getLast?_trimEnd (trimStart line)
    rw [← trim] at hlast
    rw [hline, List.append_nil, List.getLast?_append_of_ne_nil _ hshown] at hbreak
    rw [hbreak] at hlast
    cases hlast
  have hlength := congrArg byteLength hline
  have hpos := byteLength_pos hbehind
  rw [byteLength_append, byteLength_append] at hlength
  omega

end Text

namespace Statement

open Text

theorem indentation_of_opens {line : List Char} (h : opens line = true) : indentation line = 0 := by
  obtain ⟨word, rest, hword, rfl⟩ := opens_iff.1 h
  obtain ⟨c, tail, rfl, hc⟩ := exists_cons_of_isIdentifier hword
  have hstart : trimStart (c :: tail ++ ' ' :: rest) = c :: tail ++ ' ' :: rest :=
    List.dropWhile_cons_of_neg (by simp [isSpace_of_isWord hc])
  rw [indentation, hstart, Nat.sub_self]

/-! ## Reading on -/

theorem isChain_lines (s : List Char) :
    (lines s).IsChain fun line _ => line.getLast? = some '\n' := by
  induction s with
  | nil => exact .nil
  | cons c s ih =>
      rw [lines]
      split
      next hc =>
        rw [beq_iff_eq] at hc
        rcases h : lines s with _ | ⟨line, more⟩
        · exact .singleton _
        · exact .cons_cons (by rw [hc]; rfl) (h ▸ ih)
      next =>
        rcases h : lines s with _ | ⟨line, _ | ⟨next, more⟩⟩
        · exact .singleton _
        · exact .singleton _
        · rw [h, List.isChain_cons_cons] at ih
          exact .cons_cons (by rw [List.getLast?_cons, ih.1]; rfl) ih.2

structure Unread (text : List Char) (offset : Nat) (ls : List (List Char)) : Prop where
  place : ∃ before, text = before ++ ls.flatten ∧ byteLength before = offset
  breaks : ls.IsChain fun line _ => line.getLast? = some '\n'

/-- The statement begins with `first` in `text` and ends in front of what is still to be read. -/
structure Held (text : List Char) (offset : Nat) (ls : List (List Char)) (first : List Char)
    (s : Statement) : Prop where
  line : slice? text s.offset (s.offset + byteLength (trim first)) = some (trim first)
  shown : trim first ≠ []
  fits : s.offset + byteLength s.text ≤ offset
  room : ls ≠ [] → s.offset + byteLength s.text < offset

section Steps

variable {text line first : List Char} {offset : Nat} {ls : List (List Char)} {s : Statement}

theorem unread_lines (text : List Char) : Unread text 0 (lines text) where
  place := ⟨[], by rw [List.nil_append, flatten_lines], rfl⟩
  breaks := isChain_lines text

theorem Unread.next (h : Unread text offset (line :: ls)) :
    Unread text (offset + byteLength line) ls where
  place := by
    obtain ⟨before, htext, hbefore⟩ := h.place
    refine ⟨before ++ line, by rw [htext, List.flatten_cons, List.append_assoc], ?_⟩
    rw [byteLength_append, hbefore]
  breaks := h.breaks.tail

theorem Unread.le_length (h : Unread text offset ls) : offset ≤ byteLength text := by
  obtain ⟨before, htext, hbefore⟩ := h.place
  rw [htext, byteLength_append]
  omega

theorem Unread.lineBreak (h : Unread text offset (line :: ls)) (hne : ls ≠ []) :
    line.getLast? = some '\n' := by
  obtain ⟨next, more, rfl⟩ := List.exists_cons_of_ne_nil hne
  exact (List.isChain_cons_cons.1 h.breaks).1

theorem Unread.held (h : Unread text offset (line :: ls)) (hshown : trim line ≠ []) :
    Held text (offset + byteLength line) ls line ⟨trim line, offset + indentation line⟩ where
  line := by
    obtain ⟨before, htext, hbefore⟩ := h.place
    obtain ⟨indent, behind, hline, hindent⟩ := exists_append_trim line
    have hplace : text = (before ++ indent) ++ (trim line ++ (behind ++ ls.flatten)) := by
      rw [htext, List.flatten_cons]
      nth_rewrite 1 [hline]
      simp only [List.append_assoc]
    have hslice := slice?_append (before ++ indent) (trim line) (behind ++ ls.flatten)
    rwa [← hplace, byteLength_append, hbefore, hindent] at hslice
  shown := hshown
  fits := by
    have := indentation_add_le line
    simp only
    omega
  room hne := by
    have := indentation_add_lt hshown (h.lineBreak hne)
    simp only
    omega

theorem Held.skip (h : Held text offset (line :: ls) first s) :
    Held text (offset + byteLength line) ls first s where
  line := h.line
  shown := h.shown
  fits := by have := h.fits; omega
  room _ := by have := h.room (List.cons_ne_nil _ _); omega

/-- The line goes behind a blank, for which there is room where the line before it ends. -/
theorem Held.continues (h : Held text offset (line :: ls) first s)
    (hunread : Unread text offset (line :: ls)) (hshown : trim line ≠ []) :
    Held text (offset + byteLength line) ls first
      { s with text := s.text ++ ' ' :: trim line } where
  line := h.line
  shown := h.shown
  fits := by
    have hroom := h.room (List.cons_ne_nil _ _)
    have hline := indentation_add_le line
    have hblank : (' ' : Char).utf8Size = 1 := rfl
    simp only [byteLength_append, byteLength_cons, hblank]
    omega
  room hne := by
    have hroom := h.room (List.cons_ne_nil _ _)
    have hline := indentation_add_lt hshown (hunread.lineBreak hne)
    have hblank : (' ' : Char).utf8Size = 1 := rfl
    simp only [byteLength_append, byteLength_cons, hblank]
    omega

end Steps

/-! ## The statements of a text -/

section Chunks

variable {text : List Char} {current : Option Statement} {group : List (List Char)}

def Fits (text : List Char) (s : Statement) (group : List (List Char)) : Prop :=
  ∃ first more, group = first :: more ∧ trim first ≠ [] ∧ trim first <+: s.text ∧
    slice? text s.offset (s.offset + byteLength (trim first)) = some (trim first) ∧
    s.offset + byteLength s.text ≤ byteLength text

theorem prefix_joined (first : List Char) (more : List (List Char)) :
    trim first <+: joined (first :: more) := by
  rcases more with _ | ⟨next, more⟩
  · rw [joined_singleton]
  · rw [joined, List.map_cons, List.map_cons, List.intercalate_cons_cons, List.append_assoc]
    exact List.prefix_append _ _

theorem Pending.forall₂_splitBy {R : Statement → List (List Char) → Prop}
    (h : Pending current group) (hR : ∀ s ∈ current, R s group) :
    List.Forall₂ R current.toList (group.splitBy fun _ line => !opens line) := by
  cases h with
  | nothing => exact .nil
  | @begun s first more hmore htext =>
      rw [List.splitBy_of_isChain (List.cons_ne_nil _ _) (isChain_of_continuing hmore first)]
      exact .cons (hR s rfl) .nil

def Holds (text : List Char) (offset : Nat) (ls : List (List Char)) (current : Option Statement)
    (group : List (List Char)) : Prop :=
  ∀ s ∈ current, ∃ first more, group = first :: more ∧ Held text offset ls first s

theorem Holds.fits {offset : Nat} {ls : List (List Char)} (h : Holds text offset ls current group)
    (hpending : Pending current group) (hle : offset ≤ byteLength text) :
    ∀ s ∈ current, Fits text s group := by
  intro s hs
  obtain ⟨first, more, rfl, hheld⟩ := h s hs
  cases hpending with
  | @begun s' _ _ hmore htext =>
      obtain rfl : s' = s := Option.some.inj hs
      refine ⟨first, more, rfl, hheld.shown, htext ▸ prefix_joined first more, hheld.line, ?_⟩
      exact Nat.le_trans hheld.fits hle

theorem forall₂_chunk (hpending : Pending current group) {offset : Nat} {ls : List (List Char)}
    (hunread : Unread text offset ls) (hholds : Holds text offset ls current group) :
    List.Forall₂ (Fits text) (chunk offset current ls)
      ((group ++ ls.filter hasText).splitBy fun _ line => !opens line) := by
  induction ls generalizing offset current group with
  | nil =>
      rw [List.filter_nil, List.append_nil]
      exact hpending.forall₂_splitBy (hholds.fits hpending hunread.le_length)
  | cons line ls ih =>
      have hskip : Holds text (offset + byteLength line) ls current group := by
        intro s hs
        obtain ⟨first, more, hgroup, hheld⟩ := hholds s hs
        exact ⟨first, more, hgroup, hheld.skip⟩
      rw [chunk.eq_def]
      dsimp only
      split
      next hblank =>
        rw [List.filter_cons_of_neg (by simp [hasText, hblank])]
        exact ih hpending hunread.next hskip
      next hshown =>
        rw [List.filter_cons_of_pos (by simp [hasText, hshown])]
        have hne : trim line ≠ [] := fun hnil => hshown (by rw [hnil]; rfl)
        have hheld := hunread.held hne
        split
        next hopens =>
          rw [List.splitBy_append_cons _ (by simp [hopens])]
          rw [indentation_of_opens hopens, Nat.add_zero] at hheld
          refine List.rel_append
            (hpending.forall₂_splitBy (hholds.fits hpending hunread.le_length)) ?_
          refine ih (.single line offset) hunread.next fun s hs => ?_
          obtain rfl := Option.some.inj hs
          exact ⟨line, [], rfl, hheld⟩
        next hcontinues =>
          rw [Bool.not_eq_true] at hcontinues
          split
          next s =>
            rw [List.append_cons group]
            refine ih (hpending.continues hcontinues) hunread.next fun s' hs => ?_
            obtain rfl := Option.some.inj hs
            obtain ⟨first, more, rfl, hheld⟩ := hholds s rfl
            exact ⟨first, more ++ [line], rfl, hheld.continues hunread hne⟩
          next =>
            cases hpending
            refine ih (.single line _) hunread.next fun s hs => ?_
            obtain rfl := Option.some.inj hs
            exact ⟨line, [], rfl, hheld⟩

theorem pairwise_chunk {offset : Nat} (hcurrent : ∀ s ∈ current, s.offset < offset)
    (ls : List (List Char)) :
    (chunk offset current ls).Pairwise (fun s t => s.offset < t.offset) ∧
      ∀ t ∈ chunk offset current ls, current.elim offset Statement.offset ≤ t.offset := by
  induction ls generalizing offset current with
  | nil =>
      cases current with
      | none => exact ⟨.nil, List.forall_mem_nil _⟩
      | some s => exact ⟨List.pairwise_singleton .., by simp [chunk]⟩
  | cons line ls ih =>
      have hnext : ∀ s ∈ current, s.offset < offset + byteLength line := fun s hs =>
        Nat.lt_of_lt_of_le (hcurrent s hs) (Nat.le_add_right ..)
      rw [chunk.eq_def]
      dsimp only
      split
      next hblank =>
        obtain ⟨hpairs, hleast⟩ := ih hnext
        refine ⟨hpairs, fun t ht => ?_⟩
        have := hleast t ht
        cases current with
        | none => simp only [Option.elim_none] at this ⊢; omega
        | some s => exact this
      next hshown =>
        have hne : trim line ≠ [] := fun hnil => hshown (by rw [hnil]; rfl)
        have hindent : offset + indentation line < offset + byteLength line := by
          have := indentation_add_le line
          have := byteLength_pos hne
          omega
        split
        next hopens =>
          obtain ⟨hpairs, hleast⟩ := @ih (some ⟨trim line, offset⟩) (offset + byteLength line)
            (by simpa using Nat.lt_of_le_of_lt (Nat.le_add_right ..) hindent)
          cases current with
          | none => exact ⟨hpairs, hleast⟩
          | some s =>
              have hlt := hcurrent s rfl
              refine ⟨List.pairwise_cons.2 ⟨fun t ht => ?_, hpairs⟩, fun t ht => ?_⟩
              · exact Nat.lt_of_lt_of_le hlt (hleast t ht)
              · rcases List.mem_cons.1 ht with rfl | ht
                · exact Nat.le_refl _
                · exact Nat.le_trans (Nat.le_of_lt hlt) (hleast t ht)
        next hcontinues =>
          split
          next s => exact ih (by simpa using hnext s rfl)
          next =>
            obtain ⟨hpairs, hleast⟩ :=
              @ih (some ⟨trim line, offset + indentation line⟩) (offset + byteLength line)
                (by simpa using hindent)
            exact ⟨hpairs, fun t ht => Nat.le_trans (Nat.le_add_right ..) (hleast t ht)⟩

end Chunks

end Statement

/-! ## Blanked comments -/

namespace Comment

theorem byteLength_strip (source : List Char) :
    Text.byteLength (strip source) = Text.byteLength source := by
  rw [← Text.length_bytes, length_bytes_strip, Text.length_bytes]

theorem exists_of_blanked {ps : List Piece} {before behind : List Char} {c : Char}
    (hc : Text.isSpace c = false) (h : ps.flatMap Piece.blanked = before ++ c :: behind) :
    ∃ before' behind', ps.flatMap Piece.text = before' ++ c :: behind' ∧
      Text.byteLength before' = Text.byteLength before := by
  induction ps generalizing before with
  | nil => simp at h
  | cons p ps ih =>
      have hlength : Text.byteLength p.blanked = Text.byteLength p.text := by
        rw [← Text.length_bytes, length_bytes_blanked]
      rw [List.flatMap_cons] at h ⊢
      obtain ⟨more, rfl, hmore⟩ | ⟨inside, hblanked, hbehind⟩ := List.append_eq_append_iff.1 h
      · obtain ⟨before', behind', htext, hbefore⟩ := ih hmore
        refine ⟨p.text ++ before', behind', by rw [htext, List.append_assoc], ?_⟩
        rw [Text.byteLength_append, Text.byteLength_append, hbefore, hlength]
      · rcases inside with _ | ⟨d, inside⟩
        · obtain ⟨before', behind', htext, hbefore⟩ := @ih [] hbehind.symm
          refine ⟨p.text ++ before', behind', by rw [htext, List.append_assoc], ?_⟩
          rw [List.append_nil] at hblanked
          rw [Text.byteLength_append, hbefore, ← hlength, hblanked]
          rfl
        · obtain ⟨rfl, -⟩ := List.cons.inj hbehind
          rcases p with text | ⟨multiline, text⟩
          · rw [show text = before ++ c :: inside from hblanked]
            exact ⟨before, inside ++ ps.flatMap Piece.text, by simp [Piece.text], rfl⟩
          · have hblank : c = ' ' ∨ isLineBreak c = true :=
              isBlanked_flatMap_blankChar text c (by
                rw [← Piece.blanked, hblanked]
                exact List.mem_append_right _ List.mem_cons_self)
            rw [isLineBreak, Bool.or_eq_true, beq_iff_eq, beq_iff_eq] at hblank
            rcases hblank with rfl | rfl | rfl <;> cases hc

end Comment

/-! ## The statements of a source -/

namespace Statement

open Text

variable {source : List Char} {stripComments : Bool}

theorem byteLength_chunked (source : List Char) (stripComments : Bool) :
    byteLength (chunked source stripComments) = byteLength source := by
  cases stripComments
  · rfl
  · exact Comment.byteLength_strip source

theorem slice?_of_chunked {c : Char} {offset : Nat} (hc : isSpace c = false)
    (h : slice? (chunked source stripComments) offset (offset + c.utf8Size) = some [c]) :
    slice? source offset (offset + c.utf8Size) = some [c] := by
  cases stripComments
  · exact h
  · obtain ⟨before, behind, htext, rfl, -⟩ := slice?_eq_some h
    obtain ⟨before', behind', hsource, hbefore⟩ := Comment.exists_of_blanked hc htext
    rw [Comment.flatMap_text_pieces] at hsource
    rw [hsource, ← hbefore]
    exact slice?_append before' [c] behind'

/-- What stands at the offset of a statement: in the source, and in the text with its lines. -/
structure Placed (source text first : List Char) (s : Statement) : Prop where
  shown : ∃ c, isSpace c = false ∧
    slice? source s.offset (s.offset + c.utf8Size) = some [c] ∧
    slice? text s.offset (s.offset + c.utf8Size) = some [c]
  line : slice? text s.offset (s.offset + byteLength (trim first)) = some (trim first)
  begins : trim first <+: s.text
  inside : s.offset + byteLength s.text ≤ byteLength source

theorem Fits.placed {s : Statement} {group : List (List Char)}
    (h : Fits (chunked source stripComments) s group) :
    ∃ first more, group = first :: more ∧ s.Placed source (chunked source stripComments) first := by
  obtain ⟨first, more, hgroup, hshown, hbegins, hline, hinside⟩ := h
  obtain ⟨c, t, ht⟩ := List.exists_cons_of_ne_nil hshown
  have hspace := isSpace_head_trim ht
  have hchar : slice? (chunked source stripComments) s.offset (s.offset + c.utf8Size) =
      some [c] := by
    obtain ⟨before, behind, htext, hoffset, -⟩ := slice?_eq_some hline
    rw [htext, ht, ← hoffset]
    exact slice?_append before [c] (t ++ behind)
  refine ⟨first, more, hgroup, ⟨c, hspace, slice?_of_chunked hspace hchar, hchar⟩, hline, hbegins,
    ?_⟩
  rwa [byteLength_chunked] at hinside

theorem forall₂_ofSource (source : List Char) (stripComments : Bool) :
    List.Forall₂ (fun s group => ∃ first more, group = first :: more ∧
        s.Placed source (chunked source stripComments) first)
      (ofSource source stripComments) (groups (chunked source stripComments)) :=
  (forall₂_chunk .nothing (unread_lines (chunked source stripComments)) (by rintro s ⟨⟩)).imp
    fun _ _ hfits => hfits.placed

theorem inside_of_mem {s : Statement} (h : s ∈ ofSource source stripComments) :
    s.offset + byteLength s.text ≤ byteLength source := by
  have hinside : ∀ (s : Statement) (group : List (List Char)),
      (∃ first more, group = first :: more ∧
        s.Placed source (chunked source stripComments) first) →
      s.offset + byteLength s.text ≤ byteLength source ∧ group ≠ [] := by
    rintro s _ ⟨first, more, rfl, hplaced⟩
    exact ⟨hplaced.inside, List.cons_ne_nil _ _⟩
  exact ((List.forall₂_and_left _ _).1 ((forall₂_ofSource source stripComments).imp hinside)).1 s h

end Statement

/-! ## The notes on a file -/

open Text

variable {files : FileTree} {options : ResolverOptions} {p : Path}

theorem Statement.exists_of_mem_notes {source : List Char} {stripComments : Bool} {d : Diagnostic}
    (h : d ∈ importNotes p (ofSource source stripComments) ∨
      d ∈ exportNotes p (ofSource source stripComments)) :
    ∃ s ∈ ofSource source stripComments, ∃ r, d = s.note p r := by
  rcases h with h | h
  · obtain ⟨s, hs, hnote⟩ := List.mem_filterMap.1 h
    refine ⟨s, List.mem_of_mem_filter hs, ?_⟩
    rw [importNote?] at hnote
    split at hnote
    · obtain ⟨r, -, rfl⟩ := Option.map_eq_some_iff.1 hnote
      exact ⟨r, rfl⟩
    · cases hnote
  · obtain ⟨s, hs, hnote⟩ := List.mem_filterMap.1 h
    refine ⟨s, List.mem_of_mem_filter hs, ?_⟩
    rw [exportNote?] at hnote
    split at hnote
    · obtain ⟨r, -, rfl⟩ := Option.map_eq_some_iff.1 hnote
      exact ⟨r, rfl⟩
    · cases hnote

theorem Store.Session.mem_notes {s : Store} (hproper : files.Proper) (hs : s.Session files options)
    {m : Module} (hm : s.module? p = some m) {source : List Char}
    (hread : files.read p = .ok source) {d : Diagnostic} (hd : d ∈ m.diagnostics) :
    d ∈ Statement.importNotes p (Statement.ofSource source options.stripComments) ∨
      d ∈ Statement.exportNotes p (Statement.ofSource source options.stripComments) := by
  have hnoted := hs.wellNoted hproper p m hm
  rcases List.mem_append.1 hd with hd | hd
  · have hmem := (hnoted.imports trivial).prefix_all.subset hd
    rw [FileTree.importStatements, hread] at hmem
    exact .inl hmem
  · have hmem := hnoted.exports.prefix_all.subset hd
    rw [FileTree.exportStatements, hread] at hmem
    exact .inr hmem

/--
The statements of a source stand one behind the other.  At the offset of each, the source and the
text with its lines have the same character, which is no space; the first line begins there, and
with it the statement.  It ends inside the source, and so does every note on it.
-/
theorem Statement.offsets_in_source {source : List Char} (hshort : byteLength source < UInt32.size)
    (stripComments : Bool) :
    Bytewise.statements source stripComments = some (ofSource source stripComments) ∧
    (ofSource source stripComments).Pairwise (fun s t => s.offset < t.offset) ∧
    List.Forall₂ (fun s group => ∃ first more, group = first :: more ∧
        s.Placed source (chunked source stripComments) first)
      (ofSource source stripComments) (groups (chunked source stripComments)) ∧
    ∀ (files : FileTree) (options : ResolverOptions) (p : Path) (s : Store) (m : Module),
      files.Proper → options.stripComments = stripComments → files.read p = .ok source →
      s.Session files options → s.module? p = some m → ∀ d ∈ m.diagnostics,
        (∃ st ∈ ofSource source stripComments,
          d.start = st.offset ∧ d.length = byteLength st.text) ∧
        d.start + d.length ≤ byteLength source := by
  refine ⟨Bytewise.statements_eq hshort stripComments,
    (pairwise_chunk (by rintro s ⟨⟩) _).1, forall₂_ofSource source stripComments, ?_⟩
  rintro files options p s m hproper rfl hread hs hm d hd
  obtain ⟨st, hst, r, rfl⟩ := exists_of_mem_notes (hs.mem_notes hproper hm hread hd)
  have hinside := inside_of_mem hst
  have hstart : (st.note p r).start = st.offset := clamped_eq (by omega)
  have hlength : (st.note p r).length = byteLength st.text := clamped_eq (by omega)
  exact ⟨⟨st, hst, hstart, hlength⟩, by rwa [hstart, hlength]⟩

def noted : String :=
  "/* ö */ import 'ß';\r\nexport const x:\n\tnumber; // ü\n"

def notedTree : FileTree := .ofTexts [("a.d.ts", noted)]

set_option maxRecDepth 100000 in
theorem Statement.offsets_in_source_noted : ∃ s : Store, ∃ m,
    Bytewise.statements noted.toList true =
      some [⟨"import 'ß';".toList, 9⟩, ⟨"export const x: number;".toList, 23⟩] ∧
    slice? noted.toList 9 10 = some ['i'] ∧ slice? (chunked noted.toList true) 9 10 = some ['i'] ∧
    s.Session notedTree .standard ∧ s.module? ⟨"/w/a.d.ts"⟩ = some m ∧
    m.diagnostics.map (fun d => (d.start, d.length)) = [(9, 12), (23, 23)] ∧
    ∀ d ∈ m.diagnostics, d.start + d.length ≤ byteLength noted.toList := by
  have hshort : byteLength noted.toList < UInt32.size := by decide +kernel
  obtain ⟨hstatements, -, hplaced, hnotes⟩ := offsets_in_source hshort true
  have hfound : ofSource noted.toList true =
      [⟨"import 'ß';".toList, 9⟩, ⟨"export const x: number;".toList, 23⟩] := by decide +kernel
  let s := ([Request.imports ⟨"a.d.ts"⟩, .exports ⟨"a.d.ts"⟩].foldl
    (fun s r => ((r.perform notedTree).eval s).2) (.ofOptions .standard))
  have hs : s.Session notedTree .standard := .request (.request .here _) _
  have hany : (s.module? ⟨"/w/a.d.ts"⟩).any (fun m =>
      m.diagnostics.map (fun d => (d.start, d.length)) == [(9, 12), (23, 23)]) = true := by
    decide +kernel
  obtain ⟨m, hm, hranges⟩ : ∃ m, s.module? ⟨"/w/a.d.ts"⟩ = some m ∧
      m.diagnostics.map (fun d => (d.start, d.length)) = [(9, 12), (23, 23)] := by
    simpa [Option.any_eq_true] using hany
  have hread : notedTree.read ⟨"/w/a.d.ts"⟩ = .ok noted.toList := by
    exact eq_ok_of_toOption (by decide +kernel)
  refine ⟨s, m, by rw [hstatements, hfound], ?_, ?_, hs, hm, hranges, fun d hd => ?_⟩
  · decide +kernel
  · decide +kernel
  · exact (hnotes notedTree .standard ⟨"/w/a.d.ts"⟩ s m (FileTree.proper_ofTexts _) rfl hread hs hm
      d hd).2

end Typings
