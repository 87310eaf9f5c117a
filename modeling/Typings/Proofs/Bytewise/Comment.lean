import Typings.Proofs.Bytewise.Bytes
import Typings.Statement

/-!
# Comments by bytes

Comments are looked for byte by byte.  Behind a backslash a string literal goes on two bytes
further, which may be inside a character or beyond the end of the source.  The ranges found are kept
in 32 bits and later cut out of the source.
-/

namespace Typings.Bytewise

open Text Comment

/-! ## The search -/

def literalEnd (bytes : List Char) (quote : Char) (pos : Nat) : Nat :=
  match h : bytes[pos]? with
  | none => bytes.length
  | some b =>
      have := (List.getElem?_eq_some_iff.1 h).1
      if b == '\\' then literalEnd bytes quote (pos + 2)
      else if b == '\n' && quote != '`' then pos
      else if b == quote then pos + 1
      else literalEnd bytes quote (pos + 1)
termination_by bytes.length - pos

theorem literalEnd_eq (bytes : List Char) (quote : Char) (pos : Nat) :
    literalEnd bytes quote pos =
      match bytes[pos]? with
      | none => bytes.length
      | some b =>
          if b == '\\' then literalEnd bytes quote (pos + 2)
          else if b == '\n' && quote != '`' then pos
          else if b == quote then pos + 1
          else literalEnd bytes quote (pos + 1) := by
  rw [literalEnd]
  split
  next h => simp only [h]
  next b h => simp only [h]

theorem le_literalEnd (bytes : List Char) (quote : Char) (pos : Nat) :
    min pos bytes.length ≤ literalEnd bytes quote pos := by
  fun_induction literalEnd bytes quote pos <;> omega

def lineEnd (bytes : List Char) (pos : Nat) : Nat :=
  pos + ((bytes.drop pos).takeWhile (!isLineBreak ·)).length

def blockEnd (bytes : List Char) (pos : Nat) : Nat :=
  match bytes[pos]?, h : bytes[pos + 1]? with
  | some b, some b' =>
      have := (List.getElem?_eq_some_iff.1 h).1
      if b == '*' && b' == '/' then pos + 2 else blockEnd bytes (pos + 1)
  | _, _ => bytes.length
termination_by bytes.length - pos

theorem blockEnd_eq (bytes : List Char) (pos : Nat) :
    blockEnd bytes pos =
      match bytes[pos]?, bytes[pos + 1]? with
      | some b, some b' => if b == '*' && b' == '/' then pos + 2 else blockEnd bytes (pos + 1)
      | _, _ => bytes.length := by
  rw [blockEnd]
  split
  next b b' h h' => simp only [h, h']
  next h =>
    split
    next b b' hb hb' => exact absurd hb' (h b b' hb)
    · rfl

theorem le_blockEnd (bytes : List Char) (pos : Nat) :
    min pos bytes.length ≤ blockEnd bytes pos := by
  fun_induction blockEnd bytes pos <;> omega

def commentRange (start stop : Nat) : Nat × Nat := (start % UInt32.size, stop % UInt32.size)

def commentRanges (bytes : List Char) (pos : Nat) : List (Nat × Nat) :=
  match h : bytes[pos]? with
  | none => []
  | some b =>
      have := (List.getElem?_eq_some_iff.1 h).1
      if isStringQuote b then
        have := le_literalEnd bytes b (pos + 1)
        commentRanges bytes (literalEnd bytes b (pos + 1))
      else if b == '/' && bytes[pos + 1]? == some '/' then
        have : pos + 2 ≤ lineEnd bytes (pos + 2) := Nat.le_add_right _ _
        commentRange pos (lineEnd bytes (pos + 2)) ::
          commentRanges bytes (lineEnd bytes (pos + 2))
      else if b == '/' && bytes[pos + 1]? == some '*' then
        have := le_blockEnd bytes (pos + 2)
        commentRange pos (blockEnd bytes (pos + 2)) ::
          commentRanges bytes (blockEnd bytes (pos + 2))
      else commentRanges bytes (pos + 1)
termination_by bytes.length - pos

theorem commentRanges_eq (bytes : List Char) (pos : Nat) :
    commentRanges bytes pos =
      match bytes[pos]? with
      | none => []
      | some b =>
          if isStringQuote b then commentRanges bytes (literalEnd bytes b (pos + 1))
          else if b == '/' && bytes[pos + 1]? == some '/' then
            commentRange pos (lineEnd bytes (pos + 2)) ::
              commentRanges bytes (lineEnd bytes (pos + 2))
          else if b == '/' && bytes[pos + 1]? == some '*' then
            commentRange pos (blockEnd bytes (pos + 2)) ::
              commentRanges bytes (blockEnd bytes (pos + 2))
          else commentRanges bytes (pos + 1) := by
  rw [commentRanges]
  split
  next h => simp only [h]
  next b h => simp only [h]

/-! ## Blanking -/

def blankFrom (source : List Char) (last : Nat) : List (Nat × Nat) → Option (List Char)
  | [] => slice? source last (byteLength source)
  | (start, stop) :: more => do
      let kept ← slice? source last start
      let comment ← slice? source start stop
      return kept ++ comment.flatMap blankChar ++ (← blankFrom source stop more)

def strip (source : List Char) : Option (List Char) := do
  let ranges := commentRanges (units source) 0
  if ranges.isEmpty then return source else blankFrom source 0 ranges

def statements (source : List Char) (stripComments : Bool) : Option (List Statement) := do
  let source ← if stripComments then strip source else some source
  return Statement.chunk 0 none (Statement.lines source)

def leadingWord (text : List Char) : Option (List Char) :=
  slice? text 0 ((units text).takeWhile isWord).length

/-! ## The search goes by characters -/

theorem ne_backslash {c : Char} {s : List Char} (hend : c = '\\' → s = [] → False)
    (hmore : ∀ d t, c = '\\' → s = d :: t → False) : c ≠ '\\' := by
  intro hc
  rcases s with _ | ⟨d, t⟩
  · exact hend hc rfl
  · exact hmore d t hc rfl

theorem literalEnd_append (quote : Char) (before rest : List Char) :
    literalEnd (before ++ rest) quote before.length =
      before.length + (takeLiteral quote rest).1.length := by
  rw [literalEnd_eq, getElem?_length_append]
  fun_induction takeLiteral quote rest generalizing before with
  | case1 => simp
  | case2 => simp [literalEnd_eq]
  | case3 c s inside rest h ih =>
      have hmore := ih (before ++ ['\\', c])
      rw [← getElem?_length_append, ← literalEnd_eq, List.append_assoc] at hmore
      simp only [List.cons_append, List.nil_append, List.length_append,
        List.length_cons, List.length_nil, h] at hmore
      simp only [List.head?_cons, beq_self_eq_true, if_true, List.length_cons]
      exact hmore.trans (by omega)
  | case4 c s hend hmore hline =>
      simp only [List.head?_cons, beq_eq_false_iff_ne.2 (ne_backslash hend hmore),
        Bool.false_eq_true, if_false, if_pos hline,
        List.length_nil, Nat.add_zero]
  | case5 c s hend hmore hline hquote =>
      simp only [List.head?_cons, beq_eq_false_iff_ne.2 (ne_backslash hend hmore),
        Bool.false_eq_true, if_false, if_neg hline,
        if_pos hquote, List.length_singleton]
  | case6 c s hend hmore hline hquote inside rest h ih =>
      have hmore' := ih (before ++ [c])
      rw [← getElem?_length_append, ← literalEnd_eq, List.append_assoc] at hmore'
      simp only [List.singleton_append, List.length_append, List.length_singleton, h] at hmore'
      simp only [List.head?_cons, beq_eq_false_iff_ne.2 (ne_backslash hend hmore),
        Bool.false_eq_true, if_false, if_neg hline, if_neg hquote, List.length_cons]
      exact hmore'.trans (by omega)

theorem lineEnd_append (before rest : List Char) :
    lineEnd (before ++ rest) before.length =
      before.length + (rest.takeWhile (!isLineBreak ·)).length := by
  rw [lineEnd, List.drop_left]

theorem blockEnd_append (before rest : List Char) :
    blockEnd (before ++ rest) before.length =
      before.length + (takeBlock rest).1.length := by
  rw [blockEnd_eq, getElem?_length_append, getElem?_append_length]
  fun_induction takeBlock rest generalizing before with
  | case1 => simp
  | case2 s => simp
  | case3 c s h inside rest hs ih =>
      have hmore := ih (before ++ [c])
      rw [← getElem?_length_append, ← getElem?_append_length (before ++ [c]) s 1, ← blockEnd_eq,
        List.append_assoc] at hmore
      simp only [List.singleton_append, List.length_append, List.length_singleton, hs] at hmore
      rcases s with _ | ⟨d, t⟩
      · have hinside : [] = inside := congrArg Prod.fst hs
        simp [← hinside]
      · have hopen : (c == '*' && d == '/') = false := by
          rw [Bool.and_eq_false_imp, beq_iff_eq, beq_eq_false_iff_ne]
          rintro rfl rfl
          exact h t rfl rfl
        simp only [List.head?_cons, List.getElem?_cons_succ, List.getElem?_cons_zero, hopen,
          Bool.false_eq_true, if_false, List.length_cons]
        exact hmore.trans (by omega)

/-! ### Bytes outside ASCII -/

theorem takeLiteral_escape (quote c : Char) (s : List Char) :
    takeLiteral quote ('\\' :: c :: s) =
      ('\\' :: c :: (takeLiteral quote s).1, (takeLiteral quote s).2) := by
  rw [takeLiteral]

theorem takeLiteral_cons {c : Char} (hescape : c ≠ '\\') (quote : Char) (s : List Char) :
    takeLiteral quote (c :: s) =
      if c == '\n' && quote != '`' then ([], c :: s)
      else if c == quote then ([c], s)
      else (c :: (takeLiteral quote s).1, (takeLiteral quote s).2) := by
  rw [takeLiteral]
  · exact fun h => absurd h hescape
  · exact fun _ _ h => absurd h hescape

theorem takeBlock_cons {c : Char} (hstar : c ≠ '*') (s : List Char) :
    takeBlock (c :: s) = (c :: (takeBlock s).1, (takeBlock s).2) := by
  rw [takeBlock]
  exact fun _ h => absurd h hstar

section Runs

variable {us : List Char} (hus : ∀ u ∈ us, ¬ IsAscii u) (s : List Char)

include hus

theorem takeLiteral_append_of_not_isAscii {quote : Char} (hquote : IsAscii quote) :
    takeLiteral quote (us ++ s) = (us ++ (takeLiteral quote s).1, (takeLiteral quote s).2) := by
  induction us with
  | nil => rfl
  | cons u us ih =>
      have hu : ∀ {d}, IsAscii d → u ≠ d := fun hd => ne_of_isAscii hd (hus u List.mem_cons_self)
      rw [List.cons_append, takeLiteral_cons (hu (by decide)),
        ih fun v hv => hus v (List.mem_cons_of_mem u hv)]
      simp [hu hquote, hu (show IsAscii '\n' by decide)]

theorem takeBlock_append_of_not_isAscii :
    takeBlock (us ++ s) = (us ++ (takeBlock s).1, (takeBlock s).2) := by
  induction us with
  | nil => rfl
  | cons u us ih =>
      rw [List.cons_append, takeBlock_cons (ne_of_isAscii (by decide) (hus u List.mem_cons_self)),
        ih fun v hv => hus v (List.mem_cons_of_mem u hv)]
      rfl

end Runs

theorem takeLiteral_units {quote : Char} (hquote : IsAscii quote) (s : List Char) :
    takeLiteral quote (units s) =
      (units (takeLiteral quote s).1, units (takeLiteral quote s).2) := by
  have hescape : IsAscii '\\' := by decide
  fun_induction takeLiteral quote s with
  | case1 => rfl
  | case2 => rfl
  | case3 c s inside rest h ih =>
      rw [h] at ih
      rw [units_cons_of_isAscii hescape]
      by_cases hc : IsAscii c
      · rw [units_cons_of_isAscii hc, takeLiteral_escape, ih, units_cons_of_isAscii hescape,
          units_cons_of_isAscii hc]
      · obtain ⟨u, us, hus, hunit, hunits⟩ := units_cons_of_not_isAscii hc s
        rw [hunits, List.cons_append, takeLiteral_escape, takeLiteral_append_of_not_isAscii
          (fun v hv => hus v (List.mem_cons_of_mem u hv)) _ hquote, ih,
          units_cons_of_isAscii hescape, ← List.singleton_append (l := inside), units_append, hunit]
        rfl
  | case4 c s hend hmore hline =>
      have hc : IsAscii c := by
        rw [Bool.and_eq_true, beq_iff_eq] at hline
        exact hline.1 ▸ by decide
      rw [units_cons_of_isAscii hc, takeLiteral_cons (ne_backslash hend hmore), if_pos hline]
      rfl
  | case5 c s hend hmore hline hq =>
      have hc : IsAscii c := eq_of_beq hq ▸ hquote
      rw [units_cons_of_isAscii hc, takeLiteral_cons (ne_backslash hend hmore), if_neg hline,
        if_pos hq, units_cons_of_isAscii hc]
      rfl
  | case6 c s hend hmore hline hq inside rest h ih =>
      rw [h] at ih
      by_cases hc : IsAscii c
      · rw [units_cons_of_isAscii hc, takeLiteral_cons (ne_backslash hend hmore), if_neg hline,
          if_neg hq, ih, units_cons_of_isAscii hc]
      · obtain ⟨u, us, hus, hunit, hunits⟩ := units_cons_of_not_isAscii hc s
        rw [hunits, takeLiteral_append_of_not_isAscii hus _ hquote, ih,
          ← List.singleton_append (l := inside), units_append, hunit]

theorem takeBlock_units (s : List Char) :
    takeBlock (units s) = (units (takeBlock s).1, units (takeBlock s).2) := by
  have hstar : IsAscii '*' := by decide
  have hslash : IsAscii '/' := by decide
  fun_induction takeBlock s with
  | case1 => rfl
  | case2 s =>
      rw [units_cons_of_isAscii hstar, units_cons_of_isAscii hslash, takeBlock]
      rfl
  | case3 c s hopen inside rest h ih =>
      rw [h] at ih
      by_cases hc : IsAscii c
      · rw [units_cons_of_isAscii hc, takeBlock, ih, units_cons_of_isAscii hc]
        intro t hct ht
        have hhead : s.head? = some '/' := by
          rw [← head?_units_eq_some_iff hslash, ht]
          rfl
        obtain ⟨t', rfl⟩ : ∃ t', s = '/' :: t' := List.head?_eq_some_iff.1 hhead
        exact hopen t' hct rfl
      · obtain ⟨u, us, hus, hunit, hunits⟩ := units_cons_of_not_isAscii hc s
        rw [hunits, takeBlock_append_of_not_isAscii hus, ih, ← List.singleton_append (l := inside),
          units_append, hunit]

/-! ### Positions of characters -/

theorem byteLength_append_pair (before : List Char) {c d : Char} (hc : IsAscii c) (hd : IsAscii d) :
    byteLength (before ++ [c, d]) = byteLength before + 2 := by
  simp [utf8Size_of_isAscii hc, utf8Size_of_isAscii hd]

theorem literalEnd_units {quote : Char} (hquote : IsAscii quote) (before s : List Char) :
    literalEnd (units (before ++ s)) quote (byteLength before) =
      byteLength (before ++ (takeLiteral quote s).1) := by
  rw [units_append, ← length_units, literalEnd_append, takeLiteral_units hquote, length_units,
    length_units, byteLength_append]

theorem lineEnd_units (before s : List Char) :
    lineEnd (units (before ++ s)) (byteLength before) =
      byteLength (before ++ s.takeWhile (!isLineBreak ·)) := by
  have hbreak : AsciiOnly isLineBreak :=
    (asciiOnly_beq (by decide)).or (asciiOnly_beq (by decide))
  rw [units_append, ← length_units, lineEnd_append, takeWhile_units hbreak.based.not, length_units,
    length_units, byteLength_append]

theorem blockEnd_units (before s : List Char) :
    blockEnd (units (before ++ s)) (byteLength before) =
      byteLength (before ++ (takeBlock s).1) := by
  rw [units_append, ← length_units, blockEnd_append, takeBlock_units, length_units, length_units,
    byteLength_append]

theorem asciiOnly_isStringQuote : AsciiOnly isStringQuote :=
  ((asciiOnly_beq (by decide)).or (asciiOnly_beq (by decide))).or (asciiOnly_beq (by decide))

section Steps

variable {bytes : List Char} {pos stop : Nat}

theorem commentRanges_end (h : bytes[pos]? = none) : commentRanges bytes pos = [] := by
  rw [commentRanges_eq, h]

theorem commentRanges_literal {b : Char} (hb : bytes[pos]? = some b)
    (hquote : isStringQuote b = true) (hstop : literalEnd bytes b (pos + 1) = stop) :
    commentRanges bytes pos = commentRanges bytes stop := by
  rw [commentRanges_eq, hb]
  simp [hquote, hstop]

theorem commentRanges_line (hb : bytes[pos]? = some '/') (hb' : bytes[pos + 1]? = some '/')
    (hstop : lineEnd bytes (pos + 2) = stop) :
    commentRanges bytes pos = commentRange pos stop :: commentRanges bytes stop := by
  rw [commentRanges_eq, hb]
  simp [isStringQuote, hb', hstop]

theorem commentRanges_block (hb : bytes[pos]? = some '/') (hb' : bytes[pos + 1]? = some '*')
    (hstop : blockEnd bytes (pos + 2) = stop) :
    commentRanges bytes pos = commentRange pos stop :: commentRanges bytes stop := by
  rw [commentRanges_eq, hb]
  simp [isStringQuote, hb', hstop]

theorem commentRanges_plain {b : Char} (hb : bytes[pos]? = some b)
    (hquote : isStringQuote b = false) (hopen : b = '/' → bytes[pos + 1]? ≠ some '/')
    (hblock : b = '/' → bytes[pos + 1]? ≠ some '*') :
    commentRanges bytes pos = commentRanges bytes (pos + 1) := by
  rw [commentRanges_eq, hb]
  simp only [hquote, Bool.false_eq_true, if_false]
  rw [if_neg, if_neg]
  · simpa using hblock
  · simpa using hopen

end Steps

theorem commentRanges_skip {c : Char} {tail : List Char} (hquote : isStringQuote c = false)
    (hline : ∀ t, c = '/' → tail = '/' :: t → False)
    (hblock : ∀ t, c = '/' → tail = '*' :: t → False) (before : List Char) :
    commentRanges (units (before ++ c :: tail)) (byteLength before) =
      commentRanges (units (before ++ c :: tail)) (byteLength (before ++ [c])) := by
  have hslash : IsAscii '/' := by decide
  by_cases hc : IsAscii c
  · have hnext : ∀ {d}, IsAscii d → (∀ t, c = '/' → tail = d :: t → False) → c = '/' →
        (units (before ++ c :: tail))[byteLength before + 1]? ≠ some d := by
      intro d hd hne hslash hnext
      rw [getElem?_units, units_cons_of_isAscii hc, List.getElem?_cons_succ,
        ← List.head?_eq_getElem?, head?_units_eq_some_iff hd] at hnext
      obtain ⟨t, ht⟩ := List.head?_eq_some_iff.1 hnext
      exact hne t hslash ht
    rw [byteLength_append, byteLength_cons, byteLength_nil, utf8Size_of_isAscii hc]
    refine commentRanges_plain (b := c) ?_ hquote (hnext hslash hline)
      (hnext (by decide) hblock)
    rw [getElem?_units_byteLength, units_cons_of_isAscii hc]
    rfl
  · refine skip_units (f := fun _ => commentRanges _) hc before tail (fun _ pos u hu hother => ?_) 0
    exact commentRanges_plain hu (asciiOnly_isStringQuote.eq_false hother)
      (fun h => absurd h (ne_of_isAscii hslash hother))
      fun h => absurd h (ne_of_isAscii hslash hother)

/-- The search by bytes finds the ranges that the search by characters finds. -/
theorem commentRanges_units (before s : List Char) :
    commentRanges (units (before ++ s)) (byteLength before) =
      (rangesFrom (byteLength before) (pieces s)).map fun r => commentRange r.start r.stop := by
  have hslash : IsAscii '/' := by decide
  have hstar : IsAscii '*' := by decide
  fun_induction pieces s generalizing before with
  | case1 =>
      rw [commentRanges_end (getElem?_units_byteLength before [])]
      rfl
  | case2 tail h ih =>
      have hstop := lineEnd_units (before ++ ['/', '/']) tail
      have hmore := ih (before ++ '/' :: '/' :: tail.takeWhile (!isLineBreak ·))
      simp only [List.append_assoc, List.cons_append, List.nil_append,
        List.takeWhile_append_dropWhile] at hstop hmore
      rw [byteLength_append_pair before hslash hslash] at hstop
      rw [commentRanges_line _ _ hstop, hmore, byteLength_append]
      · rfl
      · rw [getElem?_units_byteLength, units_cons_of_isAscii hslash]
        rfl
      · rw [getElem?_units, units_cons_of_isAscii hslash, units_cons_of_isAscii hslash]
        rfl
  | case3 tail h ih =>
      have hstop := blockEnd_units (before ++ ['/', '*']) tail
      have hmore := ih (before ++ '/' :: '*' :: (takeBlock tail).1)
      simp only [List.append_assoc, List.cons_append, List.nil_append,
        takeBlock_append] at hstop hmore
      rw [byteLength_append_pair before hslash hstar] at hstop
      rw [commentRanges_block _ _ hstop, hmore, byteLength_append]
      · rfl
      · rw [getElem?_units_byteLength, units_cons_of_isAscii hslash]
        rfl
      · rw [getElem?_units, units_cons_of_isAscii hslash, units_cons_of_isAscii hstar]
        rfl
  | case4 c tail h h' hquote hlt ih =>
      have hc := asciiOnly_isStringQuote c hquote
      have hstop := literalEnd_units hc (before ++ [c]) tail
      have hmore := ih (before ++ c :: (takeLiteral c tail).1)
      simp only [List.append_assoc, List.cons_append, List.nil_append,
        takeLiteral_append] at hstop hmore
      rw [byteLength_append, byteLength_cons, byteLength_nil, utf8Size_of_isAscii hc] at hstop
      rw [commentRanges_literal _ hquote hstop, hmore, byteLength_append]
      · rfl
      · rw [getElem?_units_byteLength, units_cons_of_isAscii hc]
        rfl
  | case5 c tail hline hblock hquote ih =>
      have hmore := ih (before ++ [c])
      simp only [List.append_assoc, List.singleton_append] at hmore
      rw [commentRanges_skip (Bool.eq_false_iff.2 hquote) hline hblock, hmore, byteLength_append]
      rfl

/-! ## Blanking cuts out what the search found -/

theorem blankFrom_rangesFrom (before kept : List Char) (ps : List Piece) :
    blankFrom (before ++ (kept ++ ps.flatMap Piece.text)) (byteLength before)
      ((rangesFrom (byteLength (before ++ kept)) ps).map fun r => (r.start, r.stop)) =
        some (kept ++ ps.flatMap Piece.blanked) := by
  induction ps generalizing before kept with
  | nil =>
      rw [rangesFrom, List.map_nil, blankFrom]
      simpa using slice?_append before kept []
  | cons p ps ih =>
      rcases p with text | ⟨multiline, text⟩
      · have hmore := ih before (kept ++ text)
        rw [← List.append_assoc before kept text, byteLength_append (before ++ kept)] at hmore
        simpa only [rangesFrom, List.flatMap_cons, Piece.text, Piece.blanked, List.append_assoc]
          using hmore
      · have hkept := slice?_append before kept (text ++ ps.flatMap Piece.text)
        have hcomment := slice?_append (before ++ kept) text (ps.flatMap Piece.text)
        have hmore := ih (before ++ kept ++ text) []
        rw [List.append_nil, List.nil_append, List.nil_append, byteLength_append] at hmore
        rw [← byteLength_append] at hkept
        simp only [List.append_assoc] at hcomment hmore
        simp only [rangesFrom, List.map_cons, List.flatMap_cons, Piece.text, Piece.blanked,
          blankFrom, hkept, hcomment, hmore, Option.bind_eq_bind, Option.bind_some, Option.pure_def,
          List.append_assoc]

theorem stop_le_of_mem_rangesFrom {r : Range} {n : Nat} {ps : List Piece}
    (h : r ∈ rangesFrom n ps) :
    r.start ≤ r.stop ∧ r.stop ≤ n + byteLength (ps.flatMap Piece.text) := by
  induction ps generalizing n with
  | nil => cases h
  | cons p ps ih =>
      rcases p with text | ⟨multiline, text⟩
      · have := ih h
        simp only [List.flatMap_cons, Piece.text, byteLength_append]
        omega
      · simp only [List.flatMap_cons, Piece.text, byteLength_append]
        rcases List.mem_cons.1 h with rfl | h
        · simp only
          omega
        · have := ih h
          omega

theorem commentRange_ranges {source : List Char} (hshort : byteLength source < UInt32.size) :
    (ranges source).map (fun r => commentRange r.start r.stop) =
      (ranges source).map fun r => (r.start, r.stop) := by
  refine List.map_congr_left fun r hr => ?_
  have hle := stop_le_of_mem_rangesFrom hr
  rw [flatMap_text_pieces] at hle
  rw [commentRange, Nat.mod_eq_of_lt (by omega), Nat.mod_eq_of_lt (by omega)]

theorem commentRanges_source {source : List Char} (hshort : byteLength source < UInt32.size) :
    commentRanges (units source) 0 = (ranges source).map fun r => (r.start, r.stop) := by
  have hranges := commentRanges_units [] source
  rw [List.nil_append, byteLength_nil, ← ranges] at hranges
  rw [hranges, commentRange_ranges hshort]

theorem strip_eq {source : List Char} (hshort : byteLength source < UInt32.size) :
    strip source = some (Comment.strip source) := by
  have hblank := blankFrom_rangesFrom [] [] (pieces source)
  simp only [List.nil_append, byteLength_nil, flatMap_text_pieces] at hblank
  rw [← ranges] at hblank
  rw [strip, commentRanges_source hshort]
  split
  next hempty =>
    rw [List.isEmpty_iff] at hempty
    have hall := slice?_front source []
    rw [List.append_nil] at hall
    rwa [hempty, blankFrom, hall] at hblank
  · exact hblank

theorem statements_eq {source : List Char} (hshort : byteLength source < UInt32.size)
    (stripComments : Bool) :
    statements source stripComments = some (Statement.ofSource source stripComments) := by
  cases stripComments
  · rfl
  · simp [statements, strip_eq hshort, Statement.ofSource]

theorem leadingWord_eq (s : Statement) : leadingWord s.text = some s.leadingWord := by
  have hword : units (s.text.takeWhile isWord) = s.text.takeWhile isWord :=
    units_eq_self fun c hc => asciiOnly_isWord c (List.all_eq_true.1 List.all_takeWhile c hc)
  have hslice := slice?_front (s.text.takeWhile isWord) (s.text.dropWhile isWord)
  rwa [List.takeWhile_append_dropWhile, ← length_units, ← takeWhile_units asciiOnly_isWord.based]
    at hslice

end Typings.Bytewise
