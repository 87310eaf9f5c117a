import Typings.Proofs.Bytewise.Comment

/-!
# Blanked comments

Blanking changes the bytes of comments and no others.  What is left has no comments: a search for
comments in it passes through the code as the first one did, and through the blanks one by one.
-/

namespace Typings.Comment

open Text

/-! ## Bytes of blanked characters -/

def blankByte (b : UInt8) : UInt8 := if b = 0x0a ∨ b = 0x0d then b else 0x20

theorem bytes_replicate_blank (n : Nat) :
    bytes (List.replicate n ' ') = List.replicate n 0x20 := by
  induction n with
  | zero => rfl
  | succ n ih =>
      rw [List.replicate_succ, List.replicate_succ, ← ih]
      rfl

theorem blankByte_of_mem {c : Char} (hc : isLineBreak c = false) {b : UInt8}
    (hb : b ∈ bytes [c]) : blankByte b = 0x20 := by
  have hunit : Char.ofUInt8 b ∈ units [c] := List.mem_map_of_mem hb
  have hne : ∀ d, isLineBreak d = true → Char.ofUInt8 b ≠ d := by
    rintro d hd rfl
    by_cases hascii : IsAscii c
    · rw [units_cons_of_isAscii hascii, units_nil, List.mem_singleton] at hunit
      rw [hunit, hc] at hd
      cases hd
    · rw [isLineBreak, Bool.or_eq_true, beq_iff_eq, beq_iff_eq] at hd
      refine not_isAscii_of_mem_units hascii hunit ?_
      rcases hd with hd | hd <;> rw [hd] <;> decide
  refine if_neg ?_
  rintro (rfl | rfl)
  · exact hne '\n' rfl rfl
  · exact hne '\r' rfl rfl

theorem bytes_blankChar (c : Char) : bytes (blankChar c) = (bytes [c]).map blankByte := by
  rw [blankChar]
  split
  next hc =>
    rw [isLineBreak, Bool.or_eq_true, beq_iff_eq, beq_iff_eq] at hc
    rcases hc with rfl | rfl <;> rfl
  next hc =>
    have hlength : (bytes [c]).length = c.utf8Size := by simp [length_bytes]
    rw [bytes_replicate_blank, ← hlength, ← List.map_const']
    refine List.map_congr_left fun b hb => ?_
    exact (blankByte_of_mem (Bool.eq_false_iff.2 hc) hb).symm

theorem bytes_flatMap_blankChar (s : List Char) :
    bytes (s.flatMap blankChar) = (bytes s).map blankByte := by
  induction s with
  | nil => rfl
  | cons c s ih =>
      rw [List.flatMap_cons, bytes_append, bytes_blankChar, ih, ← List.map_append, ← bytes_append,
        List.singleton_append]

/-! ## Bytes inside and outside of ranges -/

def Range.Covers (r : Range) (i : Nat) : Prop := r.start ≤ i ∧ i < r.stop

instance (r : Range) (i : Nat) : Decidable (r.Covers i) :=
  inferInstanceAs (Decidable (r.start ≤ i ∧ i < r.stop))

variable {r : Range} {n : Nat} {ps : List Piece}

theorem le_start_of_mem_rangesFrom (h : r ∈ rangesFrom n ps) : n ≤ r.start := by
  induction ps generalizing n with
  | nil => cases h
  | cons p ps ih =>
      rcases p with text | ⟨multiline, text⟩
      · exact Nat.le_trans (Nat.le_add_right n _) (ih h)
      · rcases List.mem_cons.1 h with rfl | h
        · exact Nat.le_refl n
        · exact Nat.le_trans (Nat.le_add_right n _) (ih h)

theorem pairwise_rangesFrom (n : Nat) (ps : List Piece) :
    (rangesFrom n ps).Pairwise fun r r' => r.stop ≤ r'.start := by
  induction ps generalizing n with
  | nil => exact .nil
  | cons p ps ih =>
      rcases p with text | ⟨multiline, text⟩
      · exact ih _
      · exact .cons (fun r hr => le_start_of_mem_rangesFrom hr) (ih _)

theorem length_bytes_blanked (p : Piece) : (bytes p.blanked).length = byteLength p.text := by
  rcases p with text | ⟨multiline, text⟩
  · exact length_bytes text
  · rw [Piece.blanked, bytes_flatMap_blankChar, List.length_map, length_bytes, Piece.text]

theorem any_covers_code {text : List Char} {i : Nat} (hi : i < byteLength text) :
    (rangesFrom n (.code text :: ps)).any (·.Covers (n + i)) = false := by
  rw [List.any_eq_false]
  intro r hr hcovers
  have hstart : n + byteLength text ≤ r.start := le_start_of_mem_rangesFrom hr
  have hcovered : r.start ≤ n + i := (of_decide_eq_true hcovers).1
  omega

theorem any_covers_comment {multiline : Bool} {text : List Char} {i : Nat}
    (hi : i < byteLength text) :
    (rangesFrom n (.comment multiline text :: ps)).any (·.Covers (n + i)) = true := by
  have hinside : Range.Covers ⟨n, n + byteLength text, multiline, text⟩ (n + i) :=
    ⟨Nat.le_add_right n i, Nat.add_lt_add_left hi n⟩
  simp [rangesFrom, hinside]

theorem any_covers_behind (p : Piece) (j : Nat) :
    (rangesFrom n (p :: ps)).any (·.Covers (n + byteLength p.text + j)) =
      (rangesFrom (n + byteLength p.text) ps).any (·.Covers (n + byteLength p.text + j)) := by
  rcases p with text | ⟨multiline, text⟩
  · rfl
  · have hfirst : ¬ Range.Covers ⟨n, n + byteLength text, multiline, text⟩
        (n + byteLength text + j) := fun h => absurd h.2 (by simp)
    simp [rangesFrom, hfirst, Piece.text]

/-- The bytes in a range are blanked, and the other bytes stay. -/
theorem getElem?_blanked (n i : Nat) (ps : List Piece) :
    (bytes (ps.flatMap Piece.blanked))[i]? =
      if (rangesFrom n ps).any (·.Covers (n + i)) then
        (bytes (ps.flatMap Piece.text))[i]?.map blankByte
      else (bytes (ps.flatMap Piece.text))[i]? := by
  induction ps generalizing n i with
  | nil => rfl
  | cons p ps ih =>
      rw [List.flatMap_cons, List.flatMap_cons, bytes_append, bytes_append]
      by_cases hi : i < byteLength p.text
      · rw [List.getElem?_append_left (by rwa [length_bytes_blanked]),
          List.getElem?_append_left (by rwa [length_bytes])]
        rcases p with text | ⟨multiline, text⟩
        · replace hi : i < byteLength text := hi
          rw [any_covers_code hi]
          rfl
        · replace hi : i < byteLength text := hi
          rw [any_covers_comment hi, Piece.blanked, bytes_flatMap_blankChar, List.getElem?_map]
          rfl
      · obtain ⟨j, rfl⟩ := Nat.exists_eq_add_of_le (Nat.le_of_not_lt hi)
        have hblanked := getElem?_append_length (bytes p.blanked)
          (bytes (ps.flatMap Piece.blanked)) j
        have htext := getElem?_append_length (bytes p.text) (bytes (ps.flatMap Piece.text)) j
        rw [length_bytes_blanked] at hblanked
        rw [length_bytes] at htext
        rw [hblanked, htext, ih (n + byteLength p.text), ← Nat.add_assoc, any_covers_behind]

theorem text_ne_nil_of_mem_pieces (s : List Char) : ∀ p ∈ pieces s, p.text ≠ [] := by
  fun_induction pieces s with
  | case1 => exact List.forall_mem_nil _
  | case2 tail _ ih => exact List.forall_mem_cons.2 ⟨List.cons_ne_nil _ _, ih⟩
  | case3 tail _ ih => exact List.forall_mem_cons.2 ⟨List.cons_ne_nil _ _, ih⟩
  | case4 c tail _ _ _ _ ih => exact List.forall_mem_cons.2 ⟨List.cons_ne_nil _ _, ih⟩
  | case5 c tail _ _ _ ih => exact List.forall_mem_cons.2 ⟨List.cons_ne_nil _ _, ih⟩

theorem start_lt_stop_of_mem_rangesFrom (hps : ∀ p ∈ ps, p.text ≠ [])
    (h : r ∈ rangesFrom n ps) : r.start < r.stop := by
  induction ps generalizing n with
  | nil => cases h
  | cons p ps ih =>
      rw [List.forall_mem_cons] at hps
      rcases p with text | ⟨multiline, text⟩
      · exact ih hps.2 h
      · rcases List.mem_cons.1 h with rfl | h
        · exact Nat.lt_add_of_pos_right (byteLength_pos hps.1)
        · exact ih hps.2 h

theorem length_bytes_flatMap_blanked (ps : List Piece) :
    (bytes (ps.flatMap Piece.blanked)).length = (bytes (ps.flatMap Piece.text)).length := by
  induction ps with
  | nil => rfl
  | cons p ps ih =>
      rw [List.flatMap_cons, List.flatMap_cons, bytes_append, bytes_append, List.length_append,
        List.length_append, ih, length_bytes_blanked, length_bytes p.text]

theorem length_bytes_strip (source : List Char) :
    (bytes (strip source)).length = (bytes source).length := by
  rw [strip, length_bytes_flatMap_blanked, flatMap_text_pieces]

/--
The ranges of comments are not empty, in order and inside the source.  Blanking keeps every byte
outside of them and every line break; it puts a blank in place of all other bytes.
-/
theorem bytes_strip {source : List Char} (hshort : byteLength source < UInt32.size) :
    (Bytewise.commentRanges (units source) 0 =
        (ranges source).map (fun r => (r.start, r.stop)) ∧
      Bytewise.strip source = some (strip source)) ∧
    (∀ r ∈ ranges source, r.start < r.stop ∧ r.stop ≤ (bytes source).length) ∧
    ((ranges source).Pairwise fun r r' => r.stop ≤ r'.start) ∧
    (bytes (strip source)).length = (bytes source).length ∧
    (∀ i, (∀ r ∈ ranges source, ¬ r.Covers i) →
      (bytes (strip source))[i]? = (bytes source)[i]?) ∧
    ∀ r ∈ ranges source, ∀ i, r.Covers i →
      (bytes (strip source))[i]? = (bytes source)[i]?.map blankByte := by
  have hbytes : ∀ i, (bytes (strip source))[i]? =
      if (ranges source).any (·.Covers i) then (bytes source)[i]?.map blankByte
      else (bytes source)[i]? := by
    intro i
    have hblanked := getElem?_blanked 0 i (pieces source)
    rwa [flatMap_text_pieces, Nat.zero_add] at hblanked
  refine ⟨⟨Bytewise.commentRanges_source hshort, Bytewise.strip_eq hshort⟩, fun r hr => ⟨?_, ?_⟩,
    pairwise_rangesFrom 0 (pieces source), length_bytes_strip source, fun i hi => ?_,
    fun r hr i hi => ?_⟩
  · exact start_lt_stop_of_mem_rangesFrom (text_ne_nil_of_mem_pieces source) hr
  · have hstop := (Bytewise.stop_le_of_mem_rangesFrom hr).2
    rwa [flatMap_text_pieces, Nat.zero_add, ← length_bytes] at hstop
  · rw [hbytes, if_neg]
    rw [List.any_eq_true]
    rintro ⟨r, hr, hcovers⟩
    exact hi r hr (of_decide_eq_true hcovers)
  · rw [hbytes, if_pos]
    exact List.any_eq_true.2 ⟨r, hr, decide_eq_true hi⟩

def commented : List Char :=
  "type A = '//ö'; /* ß\r\n */ // é\ntype B = `/*\n\\`` | \"\\\"//\"; /* open ".toList

theorem bytes_strip_commented :
    byteLength commented < UInt32.size ∧
      Bytewise.commentRanges (units commented) 0 = [(17, 27), (28, 33), (61, 69)] ∧
      Bytewise.strip commented = some ("type A = '//ö';      \r\n         \n".toList ++
        "type B = `/*\n\\`` | \"\\\"//\";         ".toList) ∧
      (bytes (strip commented))[22]? = some 0x0d ∧ (bytes (strip commented))[20]? = some 0x20 ∧
      (bytes (strip commented))[12]? = (bytes commented)[12]? := by
  have hshort : byteLength commented < UInt32.size := by decide +kernel
  have hranges : ranges commented =
      [⟨17, 27, true, "/* ß\r\n */".toList⟩, ⟨28, 33, false, "// é".toList⟩,
        ⟨61, 69, true, "/* open ".toList⟩] := by decide +kernel
  have hstrip : strip commented = "type A = '//ö';      \r\n         \n".toList ++
      "type B = `/*\n\\`` | \"\\\"//\";         ".toList := by decide +kernel
  obtain ⟨⟨hfound, hstripped⟩, -, -, -, houtside, hinside⟩ := bytes_strip hshort
  have hblank : ∀ i, 17 ≤ i → i < 27 → (bytes (strip commented))[i]? =
      (bytes commented)[i]?.map blankByte := fun i hi hi' =>
    hinside ⟨17, 27, true, "/* ß\r\n */".toList⟩ (by rw [hranges]; exact List.mem_cons_self) i
      ⟨hi, hi'⟩
  refine ⟨hshort, by rw [hfound, hranges]; rfl, by rw [hstripped, hstrip], ?_, ?_, ?_⟩
  · rw [hblank 22 (by decide) (by decide)]
    decide +kernel
  · rw [hblank 20 (by decide) (by decide)]
    decide +kernel
  · refine houtside 12 fun r hr => ?_
    rw [hranges] at hr
    revert r
    decide

/-! ## Searching the blanked text -/

/-- What stands behind a literal matters to it only where the end of its line or of all ends it. -/
theorem takeLiteral_behind {quote : Char} {s behind : List Char}
    (hline : (takeLiteral quote s).2.head? = some '\n' → behind.head? = some '\n')
    (hend : (takeLiteral quote s).2 = [] → behind = []) :
    takeLiteral quote ((takeLiteral quote s).1 ++ behind) = ((takeLiteral quote s).1, behind) := by
  fun_induction takeLiteral quote s with
  | case1 => rw [hend rfl]; rfl
  | case2 => rw [hend rfl]; rfl
  | case3 c s inside rest h ih =>
      rw [h] at ih
      rw [List.cons_append, List.cons_append, Bytewise.takeLiteral_escape, ih hline hend]
  | case4 c s hslash hmore hbreak =>
      have hc : c = '\n' := by
        rw [Bool.and_eq_true, beq_iff_eq] at hbreak
        exact hbreak.1
      obtain ⟨t, rfl⟩ := List.head?_eq_some_iff.1 (hline (congrArg some hc))
      rw [hc] at hbreak
      rw [List.nil_append, Bytewise.takeLiteral_cons (by decide), if_pos hbreak]
  | case5 c s hslash hmore hbreak hquote =>
      rw [List.singleton_append, Bytewise.takeLiteral_cons (Bytewise.ne_backslash hslash hmore),
        if_neg hbreak, if_pos hquote]
  | case6 c s hslash hmore hbreak hquote inside rest h ih =>
      rw [h] at ih
      rw [List.cons_append, Bytewise.takeLiteral_cons (Bytewise.ne_backslash hslash hmore),
        if_neg hbreak, if_neg hquote, ih hline hend]

theorem pieces_plain {c : Char} {s : List Char} (hquote : isStringQuote c = false)
    (hline : ∀ t, c = '/' → s = '/' :: t → False) (hblock : ∀ t, c = '/' → s = '*' :: t → False) :
    pieces (c :: s) = .code [c] :: pieces s := by
  rw [pieces, hquote]
  · rfl
  · exact hline
  · exact hblock

theorem pieces_literal {c : Char} (hquote : isStringQuote c = true) (s : List Char) :
    pieces (c :: s) = .code (c :: (takeLiteral c s).1) :: pieces (takeLiteral c s).2 := by
  have hslash : c ≠ '/' := by
    rintro rfl
    cases hquote
  rw [pieces, if_pos hquote]
  · exact fun _ h => absurd h hslash
  · exact fun _ h => absurd h hslash

def IsBlanked (s : List Char) : Prop := ∀ c ∈ s, c = ' ' ∨ isLineBreak c = true

theorem isBlanked_flatMap_blankChar (s : List Char) : IsBlanked (s.flatMap blankChar) := by
  intro c hc
  obtain ⟨d, -, hd⟩ := List.mem_flatMap.1 hc
  rw [blankChar] at hd
  split at hd
  next hbreak => exact .inr (List.mem_singleton.1 hd ▸ hbreak)
  next => exact .inl (List.eq_of_mem_replicate hd)

theorem pieces_blanked {blanks : List Char} (hblanks : IsBlanked blanks) (s : List Char) :
    pieces (blanks ++ s) = blanks.map (fun c => .code [c]) ++ pieces s := by
  induction blanks with
  | nil => rfl
  | cons c blanks ih =>
      obtain ⟨hc, hmore⟩ := List.forall_mem_cons.1 hblanks
      obtain ⟨hquote, hslash⟩ : isStringQuote c = false ∧ c ≠ '/' := by
        rw [isLineBreak, Bool.or_eq_true, beq_iff_eq, beq_iff_eq] at hc
        rcases hc with rfl | rfl | rfl <;> decide
      rw [List.cons_append, pieces_plain hquote (fun _ h => absurd h hslash)
        (fun _ h => absurd h hslash), ih hmore]
      rfl

theorem strip_of_code {s text rest : List Char} (h : pieces s = .code text :: pieces rest) :
    strip s = text ++ strip rest := by
  rw [strip, h]
  rfl

theorem strip_nil : strip [] = [] := by
  rw [strip, pieces, List.flatMap_nil]

theorem head?_strip_of_line {s : List Char} (h : s.head? = some '\n') :
    (strip s).head? = some '\n' := by
  obtain ⟨t, rfl⟩ := List.head?_eq_some_iff.1 h
  rw [strip_of_code (pieces_plain rfl (by simp) (by simp))]
  rfl

theorem blankChar_ne_nil (c : Char) : blankChar c ≠ [] := by
  rw [blankChar]
  split
  · exact List.cons_ne_nil _ _
  · exact mt (List.replicate_eq_nil_iff _).1 (Nat.ne_of_gt c.utf8Size_pos)

theorem head?_of_head?_strip {c : Char} (hc : ¬ (c = ' ' ∨ isLineBreak c = true)) {s : List Char}
    (h : (strip s).head? = some c) : s.head? = some c := by
  have hne := text_ne_nil_of_mem_pieces s
  rw [strip] at h
  rw [← flatMap_text_pieces s]
  cases hs : pieces s with
  | nil =>
      rw [hs] at h
      cases h
  | cons p ps =>
      rw [hs, List.flatMap_cons] at h
      rw [hs] at hne
      obtain ⟨d, t, ht⟩ := List.exists_cons_of_ne_nil (hne p List.mem_cons_self)
      rcases p with text | ⟨multiline, text⟩
      · obtain rfl : text = d :: t := ht
        exact h
      · obtain rfl : text = d :: t := ht
        obtain ⟨b, more, hb⟩ := List.exists_cons_of_ne_nil (blankChar_ne_nil d)
        rw [Piece.blanked, List.flatMap_cons, hb] at h
        obtain rfl : b = c := Option.some.inj h
        have hblank := isBlanked_flatMap_blankChar [d] b (by simp [hb])
        exact absurd hblank hc

def Piece.found : Piece → List Piece
  | .code text => [.code text]
  | .comment _ text => (text.flatMap blankChar).map fun c => .code [c]

/-- The search goes through the blanked text in step with the source. -/
theorem pieces_strip (s : List Char) : pieces (strip s) = (pieces s).flatMap Piece.found := by
  fun_induction pieces s with
  | case1 =>
      rw [strip_nil, pieces, List.flatMap_nil]
  | case2 tail _ ih =>
      rw [strip, pieces, List.flatMap_cons, ← strip, Piece.blanked,
        pieces_blanked (isBlanked_flatMap_blankChar _), ih]
      rfl
  | case3 tail _ ih =>
      rw [strip, pieces, List.flatMap_cons, ← strip, Piece.blanked,
        pieces_blanked (isBlanked_flatMap_blankChar _), ih]
      rfl
  | case4 c tail _ _ hquote _ ih =>
      -- blanking moves neither the line break nor the end that may end the literal
      have hrest : takeLiteral c ((takeLiteral c tail).1 ++ strip (takeLiteral c tail).2) =
          ((takeLiteral c tail).1, strip (takeLiteral c tail).2) :=
        takeLiteral_behind head?_strip_of_line fun h => by rw [h, strip_nil]
      rw [strip_of_code (pieces_literal hquote tail), List.cons_append, pieces_literal hquote,
        hrest, ih]
      rfl
  | case5 c tail hline hblock hquote ih =>
      -- a comment that begins here in the blanked text would begin here in the source
      have hmark : ∀ d, ¬ (d = ' ' ∨ isLineBreak d = true) → ∀ t, strip tail = d :: t →
          ∃ t, tail = d :: t := by
        intro d hd t ht
        exact List.head?_eq_some_iff.1 (head?_of_head?_strip hd (by rw [ht]; rfl))
      rw [Bool.not_eq_true] at hquote
      rw [strip_of_code (pieces_plain hquote hline hblock), List.singleton_append,
        pieces_plain hquote, ih]
      · rfl
      · intro t hc ht
        obtain ⟨t', ht'⟩ := hmark '/' (by decide) t ht
        exact hline t' hc ht'
      · intro t hc ht
        obtain ⟨t', ht'⟩ := hmark '*' (by decide) t ht
        exact hblock t' hc ht'

theorem rangesFrom_of_code (hps : ∀ p ∈ ps, ∃ text, p = .code text) : rangesFrom n ps = [] := by
  induction ps generalizing n with
  | nil => rfl
  | cons p ps ih =>
      obtain ⟨⟨text, rfl⟩, hmore⟩ := List.forall_mem_cons.1 hps
      exact ih hmore

theorem exists_code_of_mem_found {p q : Piece} (h : q ∈ p.found) : ∃ text, q = .code text := by
  rcases p with text | ⟨multiline, text⟩
  · exact ⟨text, List.mem_singleton.1 h⟩
  · obtain ⟨c, -, rfl⟩ := List.mem_map.1 h
    exact ⟨[c], rfl⟩

theorem flatMap_blanked_of_rangesFrom (h : rangesFrom n ps = []) :
    ps.flatMap Piece.blanked = ps.flatMap Piece.text := by
  induction ps generalizing n with
  | nil => rfl
  | cons p ps ih =>
      rcases p with text | ⟨multiline, text⟩
      · rw [List.flatMap_cons, List.flatMap_cons, ih h]
        rfl
      · cases h

theorem strip_of_ranges {s : List Char} (h : ranges s = []) : strip s = s := by
  rw [strip, flatMap_blanked_of_rangesFrom h, flatMap_text_pieces]

/-- No comment is found in a blanked text, which therefore is blanked no further. -/
theorem ranges_strip (source : List Char) :
    ranges (strip source) = [] ∧ strip (strip source) = strip source ∧
      (byteLength source < UInt32.size →
        Bytewise.strip source = some (strip source) ∧
          Bytewise.commentRanges (units (strip source)) 0 = [] ∧
          Bytewise.strip (strip source) = some (strip source)) := by
  have hnone : ranges (strip source) = [] := by
    rw [ranges, pieces_strip]
    refine rangesFrom_of_code fun p hp => ?_
    obtain ⟨q, -, hq⟩ := List.mem_flatMap.1 hp
    exact exists_code_of_mem_found hq
  have hstrip := strip_of_ranges hnone
  refine ⟨hnone, hstrip, fun hshort => ?_⟩
  have hstripped : byteLength (strip source) < UInt32.size := by
    rwa [← length_bytes, length_bytes_strip, length_bytes]
  refine ⟨Bytewise.strip_eq hshort, ?_, ?_⟩
  · rw [Bytewise.commentRanges_source hstripped, hnone]
    rfl
  · rw [Bytewise.strip_eq hstripped, hstrip]

theorem ranges_strip_commented :
    byteLength commented < UInt32.size ∧ (ranges commented).length = 3 ∧
      Bytewise.strip commented = some (strip commented) ∧
      Bytewise.commentRanges (units (strip commented)) 0 = [] ∧
      Bytewise.strip (strip commented) = some (strip commented) := by
  have hshort : byteLength commented < UInt32.size := by decide +kernel
  have hfound : (ranges commented).length = 3 := by decide +kernel
  exact ⟨hshort, hfound, (ranges_strip commented).2.2 hshort⟩

end Typings.Comment
