import Typings.Error

/-!
# Spans between delimiters

A span is a quoted string or a bracketed group that counts as one piece of text.  A quote closes
at the next such quote without a backslash before it.  A bracket counts only brackets of its own
kind, so `(a[)` closes at the `)`.
-/

namespace Typings.Span

def closer? : Char → Option Char
  | '"' => some '"'
  | '\'' => some '\''
  | '(' => some ')'
  | '[' => some ']'
  | '{' => some '}'
  | '<' => some '>'
  | _ => none

def isOpener (c : Char) : Bool := (closer? c).isSome

def isQuote (c : Char) : Bool := c == '"' || c == '\''

/-- Up to and with the closing quote; `before` is the character in front of the text. -/
def takeQuoted? (quote before : Char) : List Char → Option (List Char × List Char)
  | [] => none
  | c :: s =>
      if c == quote && before != '\\' then some ([c], s)
      else (takeQuoted? quote c s).map fun (span, rest) => (c :: span, rest)

def takeBracketed? (opening closing : Char) : Nat → List Char → Option (List Char × List Char)
  | _, [] => none
  | depth, c :: s =>
      let more := fun depth =>
        (takeBracketed? opening closing depth s).map fun (span, rest) => (c :: span, rest)
      if c == opening then more (depth + 1)
      else if c == closing then
        match depth with
        | 0 => some ([c], s)
        | depth + 1 => more depth
      else more depth

def takeBody? (opening closing : Char) (body : List Char) : Option (List Char × List Char) :=
  (if isQuote opening then takeQuoted? opening opening body
    else takeBracketed? opening closing 0 body).map
    fun (span, rest) => (opening :: span, rest)

/-- The span that `s` begins with, and the rest; nothing if `s` begins with no opener. -/
def take? (s : List Char) : Except Error (Option (List Char × List Char)) :=
  match s with
  | [] => .ok none
  | opening :: body =>
      match closer? opening with
      | none => .ok none
      | some closing =>
          match takeBody? opening closing body with
          | some found => .ok (some found)
          | none => .error (.unbalanced opening closing s)

def inner (span : List Char) : List Char := span.tail.dropLast

def unescape : List Char → List Char
  | [] => []
  | ['\\'] => ['\\']
  | '\\' :: 'n' :: s => '\n' :: unescape s
  | '\\' :: 't' :: s => '\t' :: unescape s
  | '\\' :: c :: s => c :: unescape s
  | c :: s => c :: unescape s

/-! ## Nothing is lost -/

theorem takeQuoted?_append {quote before : Char} {s span rest : List Char}
    (h : takeQuoted? quote before s = some (span, rest)) : span ++ rest = s := by
  induction s generalizing before span with
  | nil => simp [takeQuoted?] at h
  | cons c s ih =>
      simp only [takeQuoted?] at h
      split at h
      · simp only [Option.some.injEq, Prod.mk.injEq] at h
        simp [← h.1, ← h.2]
      · simp only [Option.map_eq_some_iff, Prod.exists, Prod.mk.injEq] at h
        obtain ⟨a, b, hab, rfl, rfl⟩ := h
        simp [ih hab]

theorem takeBracketed?_append {opening closing : Char} {depth : Nat} {s span rest : List Char}
    (h : takeBracketed? opening closing depth s = some (span, rest)) : span ++ rest = s := by
  induction s generalizing depth span with
  | nil => simp [takeBracketed?] at h
  | cons c s ih =>
      have more : ∀ d, (takeBracketed? opening closing d s).map (fun x => (c :: x.1, x.2)) =
          some (span, rest) → span ++ rest = c :: s := by
        intro d hd
        simp only [Option.map_eq_some_iff, Prod.exists, Prod.mk.injEq] at hd
        obtain ⟨a, b, hab, rfl, rfl⟩ := hd
        simp [ih hab]
      simp only [takeBracketed?] at h
      split at h
      · exact more _ h
      · split at h
        · split at h
          · simp only [Option.some.injEq, Prod.mk.injEq] at h
            simp [← h.1, ← h.2]
          · exact more _ h
        · exact more _ h

theorem takeBody?_append {opening closing : Char} {body span rest : List Char}
    (h : takeBody? opening closing body = some (span, rest)) :
    span ≠ [] ∧ span ++ rest = opening :: body := by
  simp only [takeBody?, Option.map_eq_some_iff, Prod.exists, Prod.mk.injEq] at h
  obtain ⟨a, b, hf, rfl, rfl⟩ := h
  split at hf
  · simp [takeQuoted?_append hf]
  · simp [takeBracketed?_append hf]

theorem take?_spans {s span rest : List Char} (h : take? s = .ok (some (span, rest))) :
    span ≠ [] ∧ span ++ rest = s := by
  unfold take? at h
  split at h
  · simp at h
  · split at h
    · simp at h
    · split at h
      next found hf =>
        simp only [Except.ok.injEq, Option.some.injEq] at h
        exact takeBody?_append (h ▸ hf)
      · simp at h

theorem take?_append {s span rest : List Char} (h : take? s = .ok (some (span, rest))) :
    span ++ rest = s := (take?_spans h).2

theorem length_lt_of_take? {s span rest : List Char} (h : take? s = .ok (some (span, rest))) :
    rest.length < s.length := by
  have hs := List.length_pos_iff.2 (take?_spans h).1
  rw [← take?_append h, List.length_append]
  omega

theorem take?_ne_none {s : List Char} (opened : s.head?.any isOpener = true) :
    take? s ≠ .ok none := by
  cases s with
  | nil => simp at opened
  | cons c s =>
      have hc : isOpener c = true := by simpa using opened
      simp only [take?]
      split
      next h => simp [isOpener, h] at hc
      next => split <;> simp

/-! ## Argument lists -/

/-- Up to the next comma outside all spans, and what follows that comma if there is one. -/
def takeArgument (s : List Char) : Except Error (List Char × Option (List Char)) :=
  match s with
  | [] => .ok ([], none)
  | c :: tail =>
      if c == ',' then .ok ([], some tail)
      else match h : take? (c :: tail) with
        | .error e => .error e
        | .ok none => (takeArgument tail).map fun (a, more) => (c :: a, more)
        | .ok (some (span, rest)) =>
            have := length_lt_of_take? h
            (takeArgument rest).map fun (a, more) => (span ++ a, more)
termination_by s.length
decreasing_by
  all_goals simp only [List.length_cons] at *
  all_goals omega

theorem length_takeArgument {s a rest : List Char} (h : takeArgument s = .ok (a, some rest)) :
    rest.length < s.length := by
  fun_induction takeArgument s generalizing a with
  | case1 => simp at h
  | case2 c tail hc =>
      simp only [Except.ok.injEq, Prod.mk.injEq, Option.some.injEq] at h
      simp [← h.2]
  | case3 => simp at h
  | case4 c tail hc hn ih =>
      cases hr : takeArgument tail with
      | error e => simp [hr, Except.map] at h
      | ok p =>
          obtain ⟨b, more⟩ := p
          simp only [hr, Except.map, Except.ok.injEq, Prod.mk.injEq] at h
          obtain ⟨rfl, rfl⟩ := h
          have := ih hr
          simp only [List.length_cons]
          omega
  | case5 c tail hc span rest' hs hlt ih =>
      cases hr : takeArgument rest' with
      | error e => simp [hr, Except.map] at h
      | ok p =>
          obtain ⟨b, more⟩ := p
          simp only [hr, Except.map, Except.ok.injEq, Prod.mk.injEq] at h
          obtain ⟨rfl, rfl⟩ := h
          have := ih hr
          omega

def pieces (s : List Char) : Except Error (List (List Char)) :=
  match h : takeArgument s with
  | .error e => .error e
  | .ok (a, none) => .ok [Text.trim a]
  | .ok (a, some rest) =>
      have := length_takeArgument h
      (pieces rest).map (Text.trim a :: ·)
termination_by s.length

def arguments (s : List Char) : Except Error (List (List Char)) :=
  (pieces s).map fun
    | [[]] => []
    | all => all

end Typings.Span
