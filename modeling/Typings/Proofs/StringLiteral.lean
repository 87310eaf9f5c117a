import Typings.Proofs.NestingLimit
import Typings.Proofs.Shapes
import Typings.Proofs.TokenText

/-!
# String literals

A string is quoted with a backslash in front of every backslash and every quote in it.  Undoing the
escapes takes backslashes in pairs, and the search for the closing quote looks at the one character
in front of it: the two agree unless the string ends in a backslash, whose escape then keeps the
literal open.  The main statement is `Reading.parse_quoted`.
-/

namespace Typings

namespace Span

variable {quote : Char}

def escape (quote : Char) (s : List Char) : List Char :=
  s.flatMap fun c => if c = '\\' ∨ c = quote then ['\\', c] else [c]

def quoted (quote : Char) (s : List Char) : List Char := quote :: escape quote s ++ [quote]

theorem isQuote_cases (hquote : isQuote quote = true) : quote = '"' ∨ quote = '\'' := by
  rwa [isQuote, Bool.or_eq_true, beq_iff_eq, beq_iff_eq] at hquote

theorem inner_quoted (s : List Char) : inner (quoted quote s) = escape quote s := by
  rw [inner, quoted, List.cons_append, List.tail_cons, List.dropLast_concat]

/-! ## Undoing escapes -/

theorem unescape_escaped {c : Char} (hline : c ≠ 'n') (htab : c ≠ 't') (s : List Char) :
    unescape ('\\' :: c :: s) = c :: unescape s := by
  rw [unescape] <;> simp [hline, htab]

theorem unescape_plain {c : Char} (h : c ≠ '\\') (s : List Char) :
    unescape (c :: s) = c :: unescape s := by
  rw [unescape] <;> simp [h]

theorem unescape_escape (hquote : isQuote quote = true) (s : List Char) :
    unescape (escape quote s) = s := by
  have hletter : ∀ c, c = '\\' ∨ c = quote → c ≠ 'n' ∧ c ≠ 't' := by
    rintro c (rfl | rfl)
    · decide
    · obtain rfl | rfl := isQuote_cases hquote <;> decide
  induction s with
  | nil => rfl
  | cons c s ih =>
      rw [escape, List.flatMap_cons, ← escape]
      split
      next hc =>
        obtain ⟨hline, htab⟩ := hletter c hc
        rw [List.cons_append, List.singleton_append, unescape_escaped hline htab, ih]
      next hc => rw [List.singleton_append, unescape_plain (fun h => hc (.inl h)), ih]

/-! ## The closing quote -/

/-- The search passes over an escaped text and sees the last character of the text behind it. -/
theorem takeQuoted?_escape (hslash : quote ≠ '\\') (before : Char) (s t : List Char) :
    takeQuoted? quote before (escape quote s ++ t) =
      (takeQuoted? quote (s.getLastD before) t).map fun found =>
        (escape quote s ++ found.1, found.2) := by
  induction s generalizing before with
  | nil => simp [escape]
  | cons c s ih =>
      rw [escape, List.flatMap_cons, ← escape, List.append_assoc, List.getLastD_cons]
      split
      next hc =>
        have hopen : (c == quote && '\\' != '\\') = false := by simp
        have hfirst : ('\\' == quote && before != '\\') = false := by simp [hslash.symm]
        simp only [List.cons_append, List.nil_append, takeQuoted?, hfirst, hopen, ih]
        simp [Function.comp_def]
      next hc =>
        have hopen : (c == quote && before != '\\') = false := by
          simp [show c ≠ quote from fun h => hc (.inr h)]
        simp only [List.cons_append, List.nil_append, takeQuoted?, hopen, ih]
        simp [Function.comp_def]

theorem take?_quoted (hquote : isQuote quote = true) (s : List Char) :
    take? (quoted quote s) =
      if s.getLast? = some '\\' then .error (.unbalanced quote quote (quoted quote s))
      else .ok (some (quoted quote s, [])) := by
  have hcloser : closer? quote = some quote := by
    obtain rfl | rfl := isQuote_cases hquote <;> rfl
  have hslash : quote ≠ '\\' := by
    obtain rfl | rfl := isQuote_cases hquote <;> decide
  have hlast : s.getLastD quote = '\\' ↔ s.getLast? = some '\\' := by
    rw [List.getLastD_eq_getLast?]
    cases s.getLast? <;> simp [hslash]
  have hend : takeQuoted? quote (s.getLastD quote) [quote] =
      if s.getLast? = some '\\' then none else some ([quote], []) := by
    generalize s.getLastD quote = before at hlast
    by_cases h : before = '\\'
    · simp [takeQuoted?, h, hlast.1 h]
    · simp [takeQuoted?, h, mt hlast.2 h]
  simp only [quoted, List.cons_append, take?, hcloser, takeBody?, hquote, if_true,
    takeQuoted?_escape hslash, hend]
  by_cases h : s.getLast? = some '\\'
  · simp [h]
  · simp [h]

end Span

/-! ## A literal is one token -/

namespace Tokens

open Typings.Span (quoted)

variable {quote : Char}

theorem look_quoted (hquote : Span.isQuote quote = true) (s : List Char) :
    look (quoted quote s) = sightOfSpans [] (quoted quote s) fun _ => true := by
  obtain rfl | rfl := Span.isQuote_cases hquote <;> rfl

theorem skipBlanks_quoted (hquote : Span.isQuote quote = true) (s : List Char) :
    Text.skipBlanks (quoted quote s) = quoted quote s := by
  obtain rfl | rfl := Span.isQuote_cases hquote <;> rfl

theorem take_quoted (hquote : Span.isQuote quote = true) (s : List Char) :
    take (quoted quote s) =
      if s.getLast? = some '\\' then
        (.error (.unbalanced quote quote (quoted quote s)), quoted quote s)
      else (.ok ⟨[quoted quote s], none⟩, []) := by
  have hspan := Span.take?_quoted hquote s
  rw [take, scan_eq, skipBlanks_quoted hquote, look_quoted hquote, sightOfSpans]
  split at hspan
  next h => simp only [takeSpans_of_error hspan, if_pos h]
  next h =>
    have hnil : takeSpans [] = ⟨[], [], none⟩ := takeSpans_of_none rfl
    simp only [takeSpans_of_some hspan, hnil, if_true, stops_nil.scan, List.append_nil,
      List.nil_append, if_neg h]
    rfl

end Tokens

namespace Term

open Typings.Span (quoted)

variable {quote : Char}

theorem shape_quoted (hquote : Span.isQuote quote = true) (generic : Option (List Char))
    {s : List Char} (h : s.getLast? ≠ some '\\') :
    shape generic (quoted quote s) = .literal (.string (String.ofList s)) := by
  have hspan := Span.take?_quoted hquote s
  rw [if_neg h] at hspan
  have hlast : (quoted quote s).getLast? = some quote := List.getLast?_concat ..
  rw [shape_of_take? generic hspan]
  · rw [show spanShape (quoted quote s) =
      .literal (.string (String.ofList (Span.unescape (Span.inner (quoted quote s))))) by
        obtain rfl | rfl := Span.isQuote_cases hquote <;> rfl,
      Span.inner_quoted, Span.unescape_escape hquote]
  · rw [hlast]
    obtain rfl | rfl := Span.isQuote_cases hquote <;> decide

end Term

/-! ## Reading a literal -/

namespace Reading

open Typings.Span (quoted)

variable {σ : Type} {quote : Char}

section Literal

variable (generic : Option (List Char)) (scope : Scope σ) (hquote : Span.isQuote quote = true)
  (value : String) (s : σ)

include hquote

theorem parse_quoted_of_slash (h : value.toList.getLast? = some '\\') :
    (parse (some maxNesting) generic scope (quoted quote value.toList)).eval ⟨0, s⟩ =
      (.error (.unbalanced quote quote (quoted quote value.toList)), ⟨0, s⟩) := by
  have hlevel := Tokens.take_quoted hquote value.toList
  rw [if_pos h] at hlevel
  rw [eval_parse_new, Term.take, hlevel, show maxNesting = 255 + 1 from rfl, resolve_ofLevel_succ]
  rfl

theorem parse_quoted_of_not_slash (h : value.toList.getLast? ≠ some '\\') :
    (parse (some maxNesting) generic scope (quoted quote value.toList)).eval ⟨0, s⟩ =
      (.ok (.literal (.string value), Text.byteLength (quoted quote value.toList)), ⟨0, s⟩) := by
  have hlevel := Tokens.take_quoted hquote value.toList
  rw [if_neg h] at hlevel
  rw [eval_parse_new, Term.take, hlevel, show maxNesting = 255 + 1 from rfl]
  dsimp only
  rw [resolve_ofLevel_succ, step, Term.shape_quoted hquote generic h, String.ofList_toList]
  rfl

/--
A quoted string is read as the string, and all of it is taken, unless the string ends in a
backslash.  A string that does is not read at all: its literal counts as open.
-/
theorem parse_quoted :
    (parse (some maxNesting) generic scope (quoted quote value.toList)).eval ⟨0, s⟩ =
      (if value.toList.getLast? = some '\\' then
          .error (.unbalanced quote quote (quoted quote value.toList))
        else .ok (.literal (.string value), Text.byteLength (quoted quote value.toList)),
        ⟨0, s⟩) := by
  split
  next h => exact parse_quoted_of_slash generic scope hquote value s h
  next h => exact parse_quoted_of_not_slash generic scope hquote value s h

end Literal

theorem parse_quoted_slash_quote : Span.isQuote '\'' = true ∧
    (parse (some maxNesting) none Scope.empty "'\\\\\\''".toList).eval ⟨0, ()⟩ =
      (.ok (.literal (.string "\\'"), 6), ⟨0, ()⟩) := by
  have hquote : Span.isQuote '\'' = true := rfl
  have hparse := parse_quoted none Scope.empty hquote "\\'" ()
  refine ⟨hquote, ?_⟩
  rwa [if_neg (by decide)] at hparse

/-- The literal of one backslash is open. -/
theorem not_parse_quoted_slash :
    ((parse (some maxNesting) none Scope.empty (quoted '\'' "\\".toList)).eval ⟨0, ()⟩).1 =
        .error (.unbalanced '\'' '\'' "'\\\\'".toList) ∧
      ¬ ∀ value : String, ∃ consumed,
        ((parse (some maxNesting) none Scope.empty (quoted '\'' value.toList)).eval ⟨0, ()⟩).1 =
          .ok (.literal (.string value), consumed) := by
  have hquote : Span.isQuote '\'' = true := rfl
  have hopen := congrArg Prod.fst (parse_quoted_of_slash none Scope.empty hquote "\\" () rfl)
  refine ⟨hopen, fun hall => ?_⟩
  obtain ⟨consumed, hread⟩ := hall "\\"
  exact absurd (hopen.symm.trans hread) (by simp)

end Reading

end Typings
