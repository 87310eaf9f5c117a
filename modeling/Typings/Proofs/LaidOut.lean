import Typings.Proofs.Keywords

/-!
# Lexemes and the blanks between them

A text may be laid out with any blanks between its lexemes, but two words need one between them.
Readers take one lexeme and leave the others laid out behind it.
-/

namespace Typings

open Text

/-- What import and export statements are written with. -/
inductive Lexeme where
  | word (name : String)
  | mark (c : Char)
  | quoted (quote : Char) (inside : String)
  deriving DecidableEq, Repr

namespace Lexeme

def text : Lexeme → List Char
  | word name => name.toList
  | mark c => [c]
  | quoted quote inside => quote :: inside.toList ++ [quote]

def isWord : Lexeme → Bool
  | word _ => true
  | _ => false

def isQuoted : Lexeme → Bool
  | quoted .. => true
  | _ => false

def isProper : Lexeme → Bool
  | word name => isIdentifier name.toList
  | mark c => !Text.isWord c && !isBlank c && !Span.isQuote c
  | quoted quote inside =>
      Span.isQuote quote && inside.toList.all fun c => c != quote && c != '\\'

theorem exists_cons_text {l : Lexeme} (h : l.isProper = true) :
    ∃ c tail, l.text = c :: tail ∧ isBlank c = false ∧ Text.isWord c = l.isWord ∧
      Span.isQuote c = l.isQuoted := by
  cases l with
  | word name =>
      obtain ⟨c, tail, hname, hc⟩ := exists_cons_of_isIdentifier h
      refine ⟨c, tail, hname, isBlank_of_isWord hc, hc, ?_⟩
      simp [Span.isQuote, ne_of_isWord hc, Text.isWord, isQuoted]
  | mark c =>
      simp only [isProper, Bool.and_eq_true, Bool.not_eq_true'] at h
      exact ⟨c, [], rfl, h.1.2, h.1.1, h.2⟩
  | quoted quote inside =>
      rw [isProper, Bool.and_eq_true, Span.isQuote, Bool.or_eq_true, beq_iff_eq, beq_iff_eq] at h
      obtain ⟨rfl | rfl, -⟩ := h
      · exact ⟨'"', _, rfl, rfl, rfl, rfl⟩
      · exact ⟨'\'', _, rfl, rfl, rfl, rfl⟩

end Lexeme

/-- The text is made of the lexemes with blanks behind each of them. -/
inductive LaidOut : List Lexeme → List Char → Prop
  | nil : LaidOut [] []
  | cons {l : Lexeme} {ls : List Lexeme} {blanks s : List Char} (proper : l.isProper = true)
      (blank : ∀ c ∈ blanks, isBlank c = true)
      (apart : l.isWord = true → ls.head?.any Lexeme.isWord = true → blanks ≠ [])
      (more : LaidOut ls s) : LaidOut (l :: ls) (l.text ++ blanks ++ s)

def Lexeme.isSpaced : List (Lexeme × List Char) → Bool
  | [] => true
  | (l, blanks) :: more =>
      l.isProper && blanks.all isBlank &&
        !(l.isWord && (more.map Prod.fst).head?.any isWord && blanks.isEmpty) && isSpaced more

namespace LaidOut

theorem of_isSpaced {spaced : List (Lexeme × List Char)} (h : Lexeme.isSpaced spaced = true) :
    LaidOut (spaced.map Prod.fst) (spaced.flatMap fun (l, blanks) => l.text ++ blanks) := by
  induction spaced with
  | nil => exact .nil
  | cons first more ih =>
      obtain ⟨l, blanks⟩ := first
      simp only [Lexeme.isSpaced, Bool.and_eq_true, List.all_eq_true, Bool.not_eq_true'] at h
      obtain ⟨⟨⟨hproper, hblank⟩, hapart⟩, hmore⟩ := h
      refine .cons hproper hblank (fun hl hnext => ?_) (ih hmore)
      rintro rfl
      rw [hl, hnext] at hapart
      cases hapart

variable {l : Lexeme} {ls ls' : List Lexeme} {s r : List Char} {k name : String}

theorem proper (h : LaidOut ls s) : ∀ l ∈ ls, l.isProper = true := by
  induction h with
  | nil => simp
  | cons proper _ _ _ ih => exact List.forall_mem_cons.2 ⟨proper, ih⟩

theorem skipBlanks_eq (h : LaidOut ls s) : skipBlanks s = s := by
  cases h with
  | nil => rfl
  | @cons l _ _ _ proper _ _ _ =>
      obtain ⟨c, tail, htext, hc, -⟩ := l.exists_cons_text proper
      rw [htext]
      exact List.dropWhile_cons_of_neg (by simp [hc])

theorem startsWord_eq (h : LaidOut ls s) : startsWord s = ls.head?.any Lexeme.isWord := by
  cases h with
  | nil => rfl
  | @cons l _ _ _ proper _ _ _ =>
      obtain ⟨c, tail, htext, -, hc, -⟩ := l.exists_cons_text proper
      rw [htext]
      exact hc

theorem startsQuoted_eq (h : LaidOut ls s) :
    s.head?.any Span.isQuote = ls.head?.any Lexeme.isQuoted := by
  cases h with
  | nil => rfl
  | @cons l _ _ _ proper _ _ _ =>
      obtain ⟨c, tail, htext, -, -, hc⟩ := l.exists_cons_text proper
      rw [htext]
      exact hc

/-- The first lexeme ends where it is a word only at something else than a word. -/
theorem exists_behind (h : LaidOut (l :: ls) s) : ∃ rest, s = l.text ++ rest ∧
    l.isProper = true ∧ (l.isWord = true → startsWord rest = false) ∧
      LaidOut ls (skipBlanks rest) := by
  cases h with
  | @cons _ _ blanks s proper blank apart more =>
      refine ⟨blanks ++ s, List.append_assoc .., proper, fun hl => ?_, ?_⟩
      · cases blanks with
        | nil =>
            rw [List.nil_append, more.startsWord_eq, ← Bool.not_eq_true]
            exact fun hnext => apart hl hnext rfl
        | cons c blanks => exact isWord_of_isBlank c (blank c List.mem_cons_self)
      · rwa [skipBlanks, List.dropWhile_append_of_pos blank, ← skipBlanks, more.skipBlanks_eq]

theorem takeWord? (h : LaidOut (.word name :: ls) s) :
    ∃ rest, Text.takeWord? s = some (name.toList, rest) ∧ LaidOut ls (skipBlanks rest) := by
  obtain ⟨rest, rfl, hname, hrest, hmore⟩ := h.exists_behind
  exact ⟨rest, takeWord?_append_of_name hname (hrest rfl), hmore⟩

theorem eatKeyword? (h : LaidOut (.word k :: ls) s) :
    ∃ rest, Text.eatKeyword? k s = some rest ∧ LaidOut ls (skipBlanks rest) := by
  obtain ⟨rest, hword, hmore⟩ := h.takeWord?
  exact ⟨rest, (eatKeyword?_eq_some_iff (isIdentifier_of_takeWord? hword)).2 hword, hmore⟩

theorem takeWord?_eq_none (h : LaidOut ls s) (hfirst : ls.head?.any Lexeme.isWord = false) :
    Text.takeWord? s = none := by
  rw [Text.takeWord?, h.startsWord_eq, hfirst, if_neg Bool.false_ne_true]

theorem eatKeyword?_eq_none (h : LaidOut ls s) (hk : isIdentifier k.toList = true)
    (hne : ls.head? ≠ some (.word k)) : Text.eatKeyword? k s = none := by
  rcases ls with _ | ⟨l, ls⟩
  · exact eatKeyword?_of_no_word hk (h.takeWord?_eq_none rfl)
  cases l with
  | word name =>
      obtain ⟨rest, hword, -⟩ := h.takeWord?
      exact eatKeyword?_of_word hk hword fun hname => hne (by rw [hname]; rfl)
  | mark => exact eatKeyword?_of_no_word hk (h.takeWord?_eq_none rfl)
  | quoted => exact eatKeyword?_of_no_word hk (h.takeWord?_eq_none rfl)

theorem exists_mark {c : Char} (h : LaidOut (.mark c :: ls) s) :
    ∃ rest, s = c :: rest ∧ LaidOut ls (skipBlanks rest) := by
  obtain ⟨rest, rfl, -, -, hmore⟩ := h.exists_behind
  exact ⟨rest, rfl, hmore⟩

theorem head?_ne {c : Char} (h : LaidOut ls s) (hc : (Lexeme.mark c).isProper = true)
    (hne : ls.head? ≠ some (.mark c)) : s.head? ≠ some c := by
  cases h with
  | nil => exact Option.some_ne_none c ∘ Eq.symm
  | @cons l _ _ _ proper _ _ _ =>
      obtain ⟨d, tail, htext, hd⟩ := l.exists_cons_text proper
      simp only [Lexeme.isProper, Bool.and_eq_true, Bool.not_eq_true'] at hc
      rw [htext]
      rintro heq
      obtain rfl := Option.some.inj heq
      cases l with
      | word => cases hd.2.1.symm.trans hc.1.1
      | mark => exact hne (by rw [← (List.cons.inj htext).1]; rfl)
      | quoted => cases hd.2.2.symm.trans hc.2

/-! ### Quotations -/

theorem takeQuoted?_plain {quote before : Char} {inside : List Char} (hbefore : before ≠ '\\')
    (h : ∀ c ∈ inside, c ≠ quote ∧ c ≠ '\\') (rest : List Char) :
    Span.takeQuoted? quote before (inside ++ quote :: rest) = some (inside ++ [quote], rest) := by
  induction inside generalizing before with
  | nil => simp [Span.takeQuoted?, hbefore]
  | cons c inside ih =>
      obtain ⟨hc, hmore⟩ := List.forall_mem_cons.1 h
      simp [Span.takeQuoted?, hc.1, ih hc.2 hmore]

theorem take?_quoted {quote : Char} {inside : String} (h : LaidOut (.quoted quote inside :: ls) s) :
    Span.isQuote quote = true ∧ ∃ rest, LaidOut ls (skipBlanks rest) ∧
      Span.take? s = .ok (some (quote :: inside.toList ++ [quote], rest)) := by
  obtain ⟨rest, rfl, hproper, -, hmore⟩ := h.exists_behind
  rw [Lexeme.isProper, Bool.and_eq_true, List.all_eq_true] at hproper
  obtain ⟨hquote, hinside⟩ := hproper
  have hcloser : Span.closer? quote = some quote ∧ quote ≠ '\\' := by
    rw [Span.isQuote, Bool.or_eq_true, beq_iff_eq, beq_iff_eq] at hquote
    obtain rfl | rfl := hquote <;> exact ⟨rfl, by decide⟩
  have hplain : ∀ c ∈ inside.toList, c ≠ quote ∧ c ≠ '\\' := fun c hc => by
    simpa using hinside c hc
  have htake := takeQuoted?_plain hcloser.2 hplain rest
  refine ⟨hquote, rest, hmore, ?_⟩
  simp [Lexeme.text, Span.take?, Span.takeBody?, hcloser.1, hquote, htake]

/-! ### Several lexemes -/

theorem exists_append (h : LaidOut (ls ++ ls') s) :
    ∃ t t', s = t ++ t' ∧ LaidOut ls t ∧ LaidOut ls' t' := by
  induction ls generalizing s with
  | nil => exact ⟨[], s, rfl, .nil, h⟩
  | cons l ls ih =>
      cases h with
      | @cons _ _ blanks s proper blank apart more =>
          obtain ⟨t, t', rfl, ht, ht'⟩ := ih more
          refine ⟨l.text ++ blanks ++ t, t', (List.append_assoc ..).symm, ?_, ht'⟩
          refine .cons proper blank (fun hl hnext => apart hl ?_) ht
          cases ls with
          | nil => cases hnext
          | cons => exact hnext

theorem forall_mem {P : Char → Prop} (h : LaidOut ls s) (hblank : ∀ c, isBlank c = true → P c)
    (htext : ∀ l ∈ ls, l.isProper = true → ∀ c ∈ l.text, P c) : ∀ c ∈ s, P c := by
  induction h with
  | nil => simp
  | cons proper blank _ _ ih =>
      obtain ⟨hl, hls⟩ := List.forall_mem_cons.1 htext
      simp only [List.mem_append]
      rintro c ((hc | hc) | hc)
      · exact hl proper c hc
      · exact hblank c (blank c hc)
      · exact ih hls c hc

end LaidOut

/-! ## Words of a text -/

namespace Text

variable {c : Char} {s t blanks : List Char}

theorem words_append (hc : isSpace c = true) (s t : List Char) :
    words (s ++ c :: t) = words s ++ words t := by
  rw [words, cut_append_of_pos hc, List.filter_append, words, words]

theorem words_spaces (h : ∀ c ∈ s, isSpace c = true) : words s = [] := by
  induction s with
  | nil => rfl
  | cons c s ih =>
      obtain ⟨hc, hs⟩ := List.forall_mem_cons.1 h
      have hwords := words_append hc [] s
      rwa [ih hs, List.append_nil] at hwords

theorem words_append_spaces (h : ∀ c ∈ t, isSpace c = true) (s : List Char) :
    words (s ++ t) = words s := by
  cases t with
  | nil => rw [List.append_nil]
  | cons c t =>
      obtain ⟨hc, ht⟩ := List.forall_mem_cons.1 h
      rw [words_append hc, words_spaces ht, List.append_nil]

theorem words_spaces_append (h : ∀ c ∈ s, isSpace c = true) (t : List Char) :
    words (s ++ t) = words t := by
  induction s with
  | nil => rfl
  | cons c s ih =>
      obtain ⟨hc, hs⟩ := List.forall_mem_cons.1 h
      rw [List.cons_append, ← ih hs]
      exact words_append hc [] (s ++ t)

theorem words_trim (s : List Char) : words (trim s) = words s := by
  have hstart : words (trimStart s) = words s := by
    conv_rhs => rw [← List.takeWhile_append_dropWhile (p := isSpace) (l := s)]
    exact (words_spaces_append (List.all_eq_true.1 List.all_takeWhile) _).symm
  have hend : ∀ t, words (trimEnd t) = words t := by
    intro t
    have ht : trimEnd t ++ (t.reverse.takeWhile isSpace).reverse = t := by
      rw [trimEnd, ← List.reverse_append, List.takeWhile_append_dropWhile, List.reverse_reverse]
    conv_rhs => rw [← ht]
    exact (words_append_spaces (fun c hc =>
      List.all_eq_true.1 List.all_takeWhile c (List.mem_reverse.1 hc)) _).symm
  rw [trim, hend, hstart]

theorem words_of_isIdentifier (h : isIdentifier s = true) : words s = [s] := by
  have hcut : cut isSpace s = [s] := by
    have hspace := fun c hc => isSpace_of_isWord (isWord_of_isIdentifier h c hc)
    clear h
    induction s with
    | nil => rfl
    | cons c s ih =>
        obtain ⟨hc, hs⟩ := List.forall_mem_cons.1 hspace
        rw [cut, if_neg (by simp [hc]), ih hs]
  rw [words, hcut]
  obtain ⟨c, tail, rfl, -⟩ := exists_cons_of_isIdentifier h
  rfl

end Text

theorem LaidOut.words_eq {ls : List Lexeme} {s : List Char} (h : LaidOut ls s)
    (hwords : ∀ l ∈ ls, l.isWord = true) : words s = ls.map Lexeme.text := by
  induction h with
  | nil => rfl
  | @cons l ls blanks s proper blank apart more ih =>
      obtain ⟨hl, hls⟩ := List.forall_mem_cons.1 hwords
      have hname : words l.text = [l.text] := by
        cases l with
        | word name => exact words_of_isIdentifier proper
        | mark => cases hl
        | quoted => cases hl
      rw [List.map_cons, ← ih hls, List.append_assoc]
      cases blanks with
      | nil =>
          cases more with
          | nil => rw [List.append_nil, List.append_nil, hname]; rfl
          | cons => exact absurd rfl (apart hl (hls _ List.mem_cons_self))
      | cons c blanks =>
          have hspace : ∀ d ∈ c :: blanks, isSpace d = true := fun d hd =>
            isSpace_of_isBlank (blank d hd)
          obtain ⟨hc, hmore⟩ := List.forall_mem_cons.1 hspace
          rw [List.cons_append, words_append hc, words_spaces_append hmore, hname]
          rfl

end Typings
