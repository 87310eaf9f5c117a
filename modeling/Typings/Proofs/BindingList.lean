import Mathlib.Data.List.ReduceOption
import Typings.Proofs.LaidOut

/-!
# Lists of bindings

A list in braces is read as the bindings that it is written from, with any blanks in it, whatever
they are called.
-/

namespace Typings

open Text

variable {blanks s t : List Char}

theorem Span.takeArgument_last (h : ∀ c ∈ s, c ≠ ',' ∧ closer? c = none) :
    takeArgument s = .ok (s, none) := by
  have hplain := takeArgument_plain h []
  rw [takeArgument_nil, List.append_nil] at hplain
  simpa [Except.map] using hplain

theorem Span.takeArgument_front (h : ∀ c ∈ s, c ≠ ',' ∧ closer? c = none) (rest : List Char) :
    takeArgument (s ++ ',' :: rest) = .ok (s, some rest) := by
  rw [takeArgument_plain h, takeArgument_comma]
  simp [Except.map]

namespace Binding

def lexemes (b : Binding) : List Lexeme :=
  .word b.name :: b.newName.elim [] fun newName => [.word "as", .word newName]

/-- What may stand between two commas: a binding, with the modifier `type` or without, or nothing,
as behind a trailing comma. -/
inductive Entry : Option Binding → List Lexeme → Prop
  | empty : Entry none []
  | plain (b : Binding) : Entry (some b) b.lexemes
  | marked (b : Binding) : Entry (some b) (.word "type" :: b.lexemes)

inductive Listed : List Binding → List Lexeme → Prop
  | intro {entries : List (Option Binding)} {parts : List (List Lexeme)}
      (h : List.Forall₂ Entry entries parts) :
      Listed entries.reduceOption
        (.mark '\x7b' :: [.mark ','].intercalate parts ++ [.mark '\x7d'])

variable {entry : Option Binding} {entries : List (Option Binding)} {part : List Lexeme}
  {parts : List (List Lexeme)} {b : Binding} {bindings : List Binding} {statement : List Char}

theorem isWord_of_mem_lexemes : ∀ l ∈ b.lexemes, l.isWord = true := by
  obtain ⟨name, newName⟩ := b
  cases newName <;> simp [lexemes, Lexeme.isWord]

theorem Entry.isWord_of_mem (h : Entry entry part) : ∀ l ∈ part, l.isWord = true := by
  cases h with
  | empty => simp
  | plain b => exact isWord_of_mem_lexemes
  | marked b => exact List.forall_mem_cons.2 ⟨rfl, isWord_of_mem_lexemes⟩

/-! ## Entries -/

theorem ofWords?_lexemes (b : Binding) :
    ofWords? ((b.lexemes.map Lexeme.text).map String.ofList) = some b := by
  obtain ⟨name, newName⟩ := b
  cases newName <;> simp [lexemes, Lexeme.text, ofWords?]

theorem ofWords?_marked (b : Binding) :
    ofWords? (((Lexeme.word "type" :: b.lexemes).map Lexeme.text).map String.ofList) = some b := by
  obtain ⟨name, newName⟩ := b
  cases newName <;> simp [lexemes, Lexeme.text, ofWords?]

theorem isValid_of_proper (h : ∀ l ∈ b.lexemes, l.isProper = true) : b.isValid = true := by
  obtain ⟨name, newName⟩ := b
  cases newName <;> simp_all [lexemes, Lexeme.isProper, isValid]

theorem ofEntries_of_words (hwords : ofWords? ((words t).map String.ofList) = some b)
    (hvalid : b.isValid = true) (more : List (List Char)) :
    ofEntries statement (t :: more) = (ofEntries statement more).map (b :: ·) := by
  cases t with
  | nil => cases hwords
  | cons c t =>
      have hentry : ofEntry? (c :: t) = some b := by
        unfold ofEntry?
        rw [hwords, Option.filter_some, if_pos hvalid]
      simp only [ofEntries, hentry]

theorem Entry.ofEntries_eq (hentry : Entry entry part) (h : LaidOut part s)
    (hblanks : ∀ c ∈ blanks, isBlank c = true) (more : List (List Char)) :
    ofEntries statement (trim (blanks ++ s) :: more) =
      (ofEntries statement more).map (entry.toList ++ ·) := by
  have hspaces : ∀ c ∈ blanks, isSpace c = true := fun c hc => isSpace_of_isBlank (hblanks c hc)
  have hwords : words (trim (blanks ++ s)) = part.map Lexeme.text := by
    rw [words_trim, words_spaces_append hspaces, h.words_eq hentry.isWord_of_mem]
  cases hentry with
  | empty =>
      cases h
      have htrim : trim (blanks ++ []) = [] := by
        rw [List.append_nil, trim, trimStart, List.dropWhile_eq_nil_iff.2 hspaces]
        rfl
      rw [htrim, ofEntries]
      cases ofEntries statement more <;> rfl
  | plain b =>
      refine ofEntries_of_words (b := b) ?_ (isValid_of_proper h.proper) more
      rw [hwords, ofWords?_lexemes]
  | marked b =>
      refine ofEntries_of_words (b := b) ?_
        (isValid_of_proper fun l hl => h.proper l (List.mem_cons_of_mem _ hl)) more
      rw [hwords, ofWords?_marked]

/-! ## Lists -/

theorem Entry.forall_mem (hentry : Entry entry part) (h : LaidOut part s)
    (hblanks : ∀ c ∈ blanks, isBlank c = true) :
    ∀ c ∈ blanks ++ s, c ≠ ',' ∧ Span.closer? c = none := by
  have hblank : ∀ c, isBlank c = true → c ≠ ',' ∧ Span.closer? c = none :=
    forall_blank (by decide) (by decide) (by decide) (by decide) (by decide)
  refine List.forall_mem_append.2 ⟨fun c hc => hblank c (hblanks c hc), h.forall_mem hblank ?_⟩
  intro l hl hproper
  have hword := hentry.isWord_of_mem l hl
  cases l with
  | word name => exact Span.plain_of_isIdentifier hproper
  | mark => cases hword
  | quoted => cases hword

theorem exists_pieces (statement : List Char) (hentries : List.Forall₂ Entry entries parts)
    (h : LaidOut ([.mark ','].intercalate parts) s) (hblanks : ∀ c ∈ blanks, isBlank c = true) :
    ∃ pieces, Span.pieces (blanks ++ s) = .ok pieces ∧
      ofEntries statement pieces = .ok entries.reduceOption := by
  have hlast : ∀ {entry part s}, Entry entry part → LaidOut part s →
      ∀ blanks, (∀ c ∈ blanks, isBlank c = true) → ∃ pieces,
        Span.pieces (blanks ++ s) = .ok pieces ∧
          ofEntries statement pieces = .ok entry.toList := by
    intro entry part s hentry h blanks hblanks
    refine ⟨[trim (blanks ++ s)], ?_, ?_⟩
    · rw [Span.pieces_eq, Span.takeArgument_last (hentry.forall_mem h hblanks)]
    · rw [hentry.ofEntries_eq h hblanks]
      simp [ofEntries, Except.map]
  induction hentries generalizing s blanks with
  | nil => exact hlast .empty h blanks hblanks
  | @cons entry part entries parts hentry hmore ih =>
      cases hmore with
      | nil =>
          rw [List.intercalate_singleton] at h
          obtain ⟨pieces, hpieces, hread⟩ := hlast hentry h blanks hblanks
          refine ⟨pieces, hpieces, ?_⟩
          cases entry <;> exact hread
      | @cons next part' entries parts hnext hmore =>
          rw [List.intercalate_cons_cons, List.append_assoc] at h
          obtain ⟨t, t', rfl, ht, ht'⟩ := h.exists_append
          obtain ⟨rest, rfl, hrest⟩ := ht'.exists_mark
          have hsplit : rest = rest.takeWhile isBlank ++ skipBlanks rest :=
            List.takeWhile_append_dropWhile.symm
          obtain ⟨pieces, hpieces, hread⟩ := ih hrest (List.all_eq_true.1 List.all_takeWhile)
          rw [← hsplit] at hpieces
          refine ⟨trim (blanks ++ t) :: pieces, ?_, ?_⟩
          · rw [← List.append_assoc, Span.pieces_eq,
              Span.takeArgument_front (hentry.forall_mem ht hblanks)]
            simp only [hpieces, Except.map]
          · rw [hentry.ofEntries_eq ht hblanks, hread]
            cases entry <;> rfl

theorem arguments_eq {pieces : List (List Char)} (hpieces : Span.pieces s = .ok pieces)
    (hread : ofEntries statement pieces = .ok bindings) :
    ∃ parts, Span.arguments s = .ok parts ∧ ofEntries statement parts = .ok bindings := by
  rw [Span.arguments, hpieces]
  rcases pieces with _ | ⟨_ | ⟨c, piece⟩, _ | ⟨next, more⟩⟩
  all_goals exact ⟨_, rfl, hread⟩

theorem word_or_comma_of_mem (hentries : List.Forall₂ Entry entries parts) :
    ∀ l ∈ [Lexeme.mark ','].intercalate parts, l.isWord = true ∨ l = .mark ',' := by
  induction hentries with
  | nil => simp
  | @cons entry part entries parts hentry hmore ih =>
      have hpart : ∀ l ∈ part, l.isWord = true ∨ l = .mark ',' := fun l hl =>
        .inl (hentry.isWord_of_mem l hl)
      cases hmore with
      | nil => rwa [List.intercalate_singleton]
      | cons hnext hmore =>
          rw [List.intercalate_cons_cons]
          exact List.forall_mem_append.2
            ⟨List.forall_mem_append.2 ⟨hpart, by simp⟩, ih⟩

theorem neutral_of_entries (hentries : List.Forall₂ Entry entries parts)
    (h : LaidOut ([.mark ','].intercalate parts) s) (hblanks : ∀ c ∈ blanks, isBlank c = true) :
    Span.Neutral (blanks ++ s) := by
  have hblank : ∀ c, isBlank c = true → (Span.isOpener c || Tokens.isCloser c) = false :=
    forall_blank rfl rfl rfl rfl rfl
  have hchars : ∀ c ∈ blanks ++ s, (Span.isOpener c || Tokens.isCloser c) = false := by
    refine List.forall_mem_append.2 ⟨fun c hc => hblank c (hblanks c hc), h.forall_mem hblank ?_⟩
    intro l hl hproper c hc
    cases l with
    | word name =>
        have hword := isWord_of_isIdentifier hproper c hc
        rw [Span.isOpener, closer?_of_isWord hword, isCloser_of_isWord hword]
        rfl
    | mark d =>
        obtain hword | hcomma := word_or_comma_of_mem hentries _ hl
        · cases hword
        · cases hcomma
          obtain rfl := List.mem_singleton.1 hc
          rfl
    | quoted =>
        obtain hword | hcomma := word_or_comma_of_mem hentries _ hl
        · cases hword
        · cases hcomma
  exact Span.neutral_of_plain (List.any_eq_false.2 fun c hc => by simp [hchars c hc])

theorem takeBindings_of_entries (statement : List Char)
    (hentries : List.Forall₂ Entry entries parts)
    (h : LaidOut ([.mark ','].intercalate parts) s) (hblanks : ∀ c ∈ blanks, isBlank c = true)
    (rest : List Char) :
    Clause.takeBindings statement ('\x7b' :: (blanks ++ s) ++ '\x7d' :: rest) =
      .ok (entries.reduceOption, rest) := by
  have htake := Span.take?_enclosed (show Span.closer? '\x7b' = some '\x7d' from rfl) rfl
    (neutral_of_entries hentries h hblanks) rest
  obtain ⟨pieces, hpieces, hread⟩ := exists_pieces statement hentries h hblanks
  obtain ⟨parts', harguments, hread⟩ := arguments_eq hpieces hread
  rw [Clause.takeBindings, htake]
  simp [Span.inner, harguments, hread, Except.map]

theorem Listed.takeBindings (statement : List Char) {ls more : List Lexeme}
    (hlisted : Listed bindings ls)
    (h : LaidOut (ls ++ more) s) : ∃ rest,
      Clause.takeBindings statement s = .ok (bindings, rest) ∧ LaidOut more (skipBlanks rest) := by
  cases hlisted with
  | @intro entries parts hentries =>
      rw [List.cons_append, List.cons_append, List.append_assoc] at h
      obtain ⟨tail, rfl, htail⟩ := h.exists_mark
      obtain ⟨t, t', hsplit, ht, ht'⟩ := htail.exists_append
      obtain ⟨rest, rfl, hrest⟩ := ht'.exists_mark
      have hblanks : tail = tail.takeWhile isBlank ++ t ++ '\x7d' :: rest := by
        rw [List.append_assoc, ← hsplit]
        exact List.takeWhile_append_dropWhile.symm
      refine ⟨rest, ?_, hrest⟩
      rw [hblanks]
      exact takeBindings_of_entries statement hentries ht
        (List.all_eq_true.1 List.all_takeWhile) rest

end Binding

end Typings
