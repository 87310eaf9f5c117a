import Typings.Proofs.TokenText

/-!
# Argument lists

The span at an opener ends at the same place whatever stands behind it, so the search for the next
comma goes through an argument as if it stood alone.  Arguments joined with commas, with any white
space around these, are found again: `Span.arguments_joined`.
-/

namespace Typings

/-! ## White space at the ends -/

namespace Text

variable {blanks : List Char}

theorem trimEnd_append_spaces (h : ∀ c ∈ blanks, isSpace c = true) (s : List Char) :
    trimEnd (s ++ blanks) = trimEnd s := by
  rw [trimEnd, List.reverse_append, List.dropWhile_append_of_pos (by simpa using h), trimEnd]

theorem trim_spaces_append (h : ∀ c ∈ blanks, isSpace c = true) (s : List Char) :
    trim (blanks ++ s) = trim s := by
  rw [trim, trimStart, List.dropWhile_append_of_pos h, ← trimStart, ← trim]

theorem trim_append_spaces (h : ∀ c ∈ blanks, isSpace c = true) (s : List Char) :
    trim (s ++ blanks) = trim s := by
  rw [trim, trim, trimStart, trimStart, List.dropWhile_append]
  split
  next hempty =>
    rw [List.isEmpty_iff.1 hempty, List.dropWhile_eq_nil_iff.2 h]
  next => exact trimEnd_append_spaces h _

end Text

namespace Span

/-! ## Arguments -/

/-- The scan from the left, which passes over each span that it meets, finds no comma. -/
inductive Commaless : List Char → Prop
  | nil : Commaless []
  | plain {c : Char} {s : List Char} (hcomma : c ≠ ',') (hopener : closer? c = none)
      (hs : Commaless s) : Commaless (c :: s)
  | span {s span rest : List Char} (hspan : take? s = .ok (some (span, rest)))
      (hrest : Commaless rest) : Commaless s

structure IsArgument (s : List Char) : Prop where
  nonempty : s ≠ []
  trimmed : Text.trim s = s
  commaless : Commaless s

/-- Texts joined with commas, with white space around each comma. -/
inductive Joined : List (List Char) → List Char → Prop
  | nil : Joined [] []
  | single (s : List Char) : Joined [s] s
  | cons (s : List Char) {before behind next joined : List Char} {more : List (List Char)}
      (hbefore : ∀ c ∈ before, Text.isSpace c = true)
      (hbehind : ∀ c ∈ behind, Text.isSpace c = true) (hmore : Joined (next :: more) joined) :
      Joined (s :: next :: more) (s ++ before ++ ',' :: (behind ++ joined))

variable {s lead blanks : List Char}

theorem plain_of_isSpace {c : Char} (h : Text.isSpace c = true) : c ≠ ',' ∧ closer? c = none := by
  refine ⟨fun hc => ?_, ?_⟩
  · subst hc
    cases h
  · cases hcloser : closer? c with
    | none => rfl
    | some closing =>
        unfold closer? at hcloser
        split at hcloser
        all_goals first | cases h | cases hcloser

theorem Commaless.takeArgument_append (h : Commaless s) (rest : List Char) :
    takeArgument (s ++ rest) = (takeArgument rest).map fun a => (s ++ a.1, a.2) := by
  induction h with
  | nil => cases h : takeArgument rest <;> simp [h, Except.map]
  | @plain c s hcomma hopener _ ih =>
      have htake : take? (c :: (s ++ rest)) = .ok none := by simp only [take?, hopener]
      rw [List.cons_append, takeArgument_of_none hcomma htake, ih]
      cases takeArgument rest <;> rfl
  | @span s span rest' hspan _ ih =>
      have htake := take?_append_behind hspan rest
      obtain ⟨hne, rfl⟩ := take?_spans hspan
      obtain ⟨c, span, rfl⟩ := List.exists_cons_of_ne_nil hne
      have hcomma : c ≠ ',' := by
        rintro rfl
        cases hspan
      simp only [List.cons_append] at htake ⊢
      rw [takeArgument_of_some hcomma htake, ih]
      cases takeArgument rest <;> simp [Except.map]

/-- White space goes with the text that it stands next to. -/
theorem Commaless.takeArgument_between (h : Commaless s)
    (hlead : ∀ c ∈ lead, Text.isSpace c = true) (hblanks : ∀ c ∈ blanks, Text.isSpace c = true)
    (rest : List Char) :
    takeArgument (lead ++ s ++ blanks ++ rest) =
      (takeArgument rest).map fun a => (lead ++ s ++ blanks ++ a.1, a.2) := by
  rw [List.append_assoc, List.append_assoc,
    takeArgument_plain fun c hc => plain_of_isSpace (hlead c hc), h.takeArgument_append,
    takeArgument_plain fun c hc => plain_of_isSpace (hblanks c hc)]
  cases takeArgument rest <;> simp [Except.map]

theorem IsArgument.trim_between (h : IsArgument s)
    (hlead : ∀ c ∈ lead, Text.isSpace c = true) (hblanks : ∀ c ∈ blanks, Text.isSpace c = true) :
    Text.trim (lead ++ s ++ blanks) = s := by
  rw [Text.trim_append_spaces hblanks, Text.trim_spaces_append hlead, h.trimmed]

/-! ## Main statement -/

theorem pieces_joined {args : List (List Char)} (h : Joined args s) (hne : args ≠ [])
    (hargs : ∀ a ∈ args, IsArgument a) (hlead : ∀ c ∈ lead, Text.isSpace c = true) :
    pieces (lead ++ s) = .ok args := by
  induction h generalizing lead with
  | nil => exact absurd rfl hne
  | single s =>
      have harg := hargs s (List.mem_cons_self ..)
      have htake := harg.commaless.takeArgument_between hlead (List.forall_mem_nil _) []
      have htrim := harg.trim_between hlead (List.forall_mem_nil _)
      simp only [List.append_nil, takeArgument_nil, Except.map] at htake htrim
      rw [pieces_eq, htake]
      simp only [htrim]
  | @cons s before behind next joined more hbefore hbehind _ ih =>
      rw [List.forall_mem_cons] at hargs
      have htake := hargs.1.commaless.takeArgument_between hlead hbefore
        (',' :: (behind ++ joined))
      have htrim := hargs.1.trim_between hlead hbefore
      rw [takeArgument_comma, Except.map, List.append_nil] at htake
      rw [← List.append_assoc, ← List.append_assoc, pieces_eq, htake]
      simp only [htrim, ih (List.cons_ne_nil _ _) hargs.2 hbehind, Except.map]

theorem arguments_of_pieces {args : List (List Char)} (h : pieces s = .ok args)
    (hne : args ≠ [[]]) : arguments s = .ok args := by
  rw [arguments, h, Except.map]
  split
  · exact absurd rfl hne
  · rfl

/-- Arguments joined with commas, with any white space around each comma, are found again. -/
theorem arguments_joined {args : List (List Char)} (hargs : ∀ a ∈ args, IsArgument a)
    (h : Joined args s) : arguments s = .ok args := by
  by_cases hnil : args = []
  · subst hnil
    cases h
    rw [arguments, pieces_eq, takeArgument_nil]
    rfl
  · refine arguments_of_pieces (pieces_joined h hnil hargs (List.forall_mem_nil _)) ?_
    rintro rfl
    exact (hargs [] (List.mem_cons_self ..)).nonempty rfl

/-- Commas in brackets and in quotes, a stray closer, and white space on both sides of a comma. -/
theorem arguments_joined_nested :
    (∀ a ∈ ["M<',', [b]>".toList, "\"c\\\",\" )".toList], IsArgument a) ∧
      Joined ["M<',', [b]>".toList, "\"c\\\",\" )".toList]
        "M<',', [b]>\u3000, \n\"c\\\",\" )".toList ∧
      arguments "M<',', [b]>\u3000, \n\"c\\\",\" )".toList =
        .ok ["M<',', [b]>".toList, "\"c\\\",\" )".toList] := by
  have hfirst : Commaless "M<',', [b]>".toList :=
    .plain (by decide) rfl (.span rfl .nil)
  have hsecond : Commaless "\"c\\\",\" )".toList :=
    .span rfl (.plain (by decide) rfl (.plain (by decide) rfl .nil))
  have hargs : ∀ a ∈ ["M<',', [b]>".toList, "\"c\\\",\" )".toList], IsArgument a := by
    simp only [List.forall_mem_cons]
    exact ⟨⟨by decide, by decide, hfirst⟩, ⟨by decide, by decide, hsecond⟩, List.forall_mem_nil _⟩
  have hbefore : ∀ c ∈ ['\u3000'], Text.isSpace c = true := List.forall_mem_singleton.2 rfl
  have hbehind : ∀ c ∈ [' ', '\n'], Text.isSpace c = true :=
    List.forall_mem_cons.2 ⟨rfl, List.forall_mem_singleton.2 rfl⟩
  have hjoined : Joined ["M<',', [b]>".toList, "\"c\\\",\" )".toList]
      "M<',', [b]>\u3000, \n\"c\\\",\" )".toList :=
    .cons _ hbefore hbehind (.single _)
  exact ⟨hargs, hjoined, arguments_joined hargs hjoined⟩

end Span

end Typings
