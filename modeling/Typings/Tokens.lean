import Typings.Span
import Typings.Word

/-!
# Tokens of one expression level

A level ends at a `;` or `,`, which it takes along, or in front of an unmatched closer.  Nested
constructs are spans and stay whole inside their token.
-/

namespace Typings

inductive Joiner where
  | union
  | intersection
  deriving DecidableEq, Repr

structure Tokens where
  items : List (List Char)
  joiner : Option Joiner
  deriving DecidableEq, Repr

namespace Tokens

def isTerminator (c : Char) : Bool := c == ';' || c == ','

def isCloser (c : Char) : Bool := c == '}' || c == ')' || c == ']' || c == '>'

def joiner? : Char → Option Joiner
  | '|' => some .union
  | '&' => some .intersection
  | _ => none

def endsToken (s : List Char) : Bool :=
  s.head?.all fun c => Text.isBlank c || isTerminator c || (joiner? c).isSome || isCloser c

/-! ## One token -/

structure Spans where
  taken : List Char
  rest : List Char
  fault : Option Error

def takeSpans (s : List Char) : Spans :=
  match h : Span.take? s with
  | .error e => ⟨[], s, some e⟩
  | .ok none => ⟨[], s, none⟩
  | .ok (some (span, rest)) =>
      have := Span.length_lt_of_take? h
      let more := takeSpans rest
      { more with taken := span ++ more.taken }
termination_by s.length

theorem takeSpans_append (s : List Char) : (takeSpans s).taken ++ (takeSpans s).rest = s := by
  fun_induction takeSpans s with
  | case1 => rfl
  | case2 => rfl
  | case3 s span rest h hlt more ih =>
      have := Span.take?_append h
      simp only [more, List.append_assoc, ih, this]

theorem length_takeSpans_le (s : List Char) : (takeSpans s).rest.length ≤ s.length := by
  have h := congrArg List.length (takeSpans_append s)
  simp only [List.length_append] at h
  omega

theorem length_takeSpans_lt {s : List Char} (opened : s.head?.any Span.isOpener = true)
    (h : (takeSpans s).fault = none) : (takeSpans s).rest.length < s.length := by
  rw [takeSpans] at h ⊢
  split at h
  · simp at h
  next hn => exact absurd hn (Span.take?_ne_none opened)
  next span rest hs =>
    simp only
    have := length_takeSpans_le rest
    have := Span.length_lt_of_take? hs
    omega

inductive Front (s : List Char) where
  | finish (rest : List Char)
  | joiner (found : Joiner) (rest : List Char) (shorter : rest.length < s.length)
  | token (item : List Char) (rest : List Char) (shorter : rest.length < s.length)
  /-- Nothing that can be a token; reading stops in front of `rest`. -/
  | foreign (rest : List Char)
  | unclosed (cause : Error) (rest : List Char)

def bracketedFront (s : List Char) (opened : s.head?.any Span.isOpener = true) : Front s :=
  match h : (takeSpans s).fault with
  | some e => .unclosed e (takeSpans s).rest
  | none => .token (takeSpans s).taken (takeSpans s).rest (length_takeSpans_lt opened h)

def namedFront (s : List Char) : Front s :=
  match h : Text.takeName? s with
  | none => .foreign s
  | some (name, after) =>
      let spans := takeSpans after
      match spans.fault with
      | some e => .unclosed e spans.rest
      | none =>
          if endsToken spans.rest then
            .token (name ++ spans.taken) spans.rest
              (Nat.lt_of_le_of_lt (length_takeSpans_le after) (Text.length_lt_of_takeName? h))
          else .foreign spans.rest

def front (s : List Char) : Front s :=
  match s with
  | [] => .finish []
  | '=' :: '>' :: rest => .token ['=', '>'] rest (by simp only [List.length_cons]; omega)
  | c :: tail =>
      if isTerminator c then .finish tail
      else if isCloser c then .finish (c :: tail)
      else match joiner? c with
      | some found => .joiner found tail (by simp)
      | none =>
          if h : Span.isOpener c = true then bracketedFront (c :: tail) (by simpa using h)
          else namedFront (c :: tail)

/-! ## One level -/

/--
The level that begins at `start`, from `s` on, with the joiner met so far.  The second part is
where reading stopped, also when it failed.
-/
def scan (start s : List Char) (joiner : Option Joiner) : Except Error Tokens × List Char :=
  match front (Text.skipBlanks s) with
  | .finish rest => (.ok ⟨[], joiner⟩, rest)
  | .joiner found rest h =>
      have := Nat.lt_of_lt_of_le h (Text.length_skipBlanks_le s)
      if joiner.all (· == found) then scan start rest (some found)
      else (.error (.mixedDelimiters start), Text.skipBlanks s)
  | .token item rest h =>
      have := Nat.lt_of_lt_of_le h (Text.length_skipBlanks_le s)
      let (level, stop) := scan start rest joiner
      (level.map fun tokens => { tokens with items := item :: tokens.items }, stop)
  | .foreign rest => (.error (.malformedDeclaration start), rest)
  | .unclosed e rest => (.error e, rest)
termination_by s.length

def take (s : List Char) : Except Error Tokens × List Char := scan s s none

/-! ## Reading moves forward -/

theorem length_takeName?_le {s : List Char} {name after : List Char}
    (h : Text.takeName? s = some (name, after)) : after.length ≤ s.length :=
  Nat.le_of_lt (Text.length_lt_of_takeName? h)

def Front.rest {s : List Char} : Front s → List Char
  | .finish rest => rest
  | .joiner _ rest _ => rest
  | .token _ rest _ => rest
  | .foreign rest => rest
  | .unclosed _ rest => rest

theorem length_bracketedFront_le (s : List Char) (opened : s.head?.any Span.isOpener = true) :
    (bracketedFront s opened).rest.length ≤ s.length := by
  unfold bracketedFront
  split <;> exact length_takeSpans_le s

theorem length_namedFront_le (s : List Char) : (namedFront s).rest.length ≤ s.length := by
  unfold namedFront
  split
  · exact Nat.le_refl _
  next name after h =>
    have hs := Nat.le_trans (length_takeSpans_le after) (length_takeName?_le h)
    simp only
    split
    · exact hs
    · split <;> exact hs

theorem length_front_le (s : List Char) : (front s).rest.length ≤ s.length := by
  unfold front
  split
  · exact Nat.le_refl _
  · simp only [Front.rest, List.length_cons]; omega
  next c tail _ =>
    split
    · simp [Front.rest]
    · split
      · simp [Front.rest]
      · split
        · simp [Front.rest]
        · split
          · exact length_bracketedFront_le _ _
          · exact length_namedFront_le _

theorem length_scan_le (start s : List Char) (joiner : Option Joiner) :
    (scan start s joiner).2.length ≤ s.length := by
  have hb := Text.length_skipBlanks_le s
  have hf := length_front_le (Text.skipBlanks s)
  fun_induction scan start s joiner with
  | case1 s joiner rest h => rw [h] at hf; exact Nat.le_trans hf hb
  | case2 s joiner found rest hlt h hlt' hj ih =>
      have := ih (Text.length_skipBlanks_le rest) (length_front_le _)
      omega
  | case3 s joiner found rest hlt h hlt' hj => exact hb
  | case4 s joiner item rest hlt h hlt' level stop heq ih =>
      have := ih (Text.length_skipBlanks_le rest) (length_front_le _)
      rw [heq] at this
      simp only at this ⊢
      omega
  | case5 s joiner rest h => rw [h] at hf; exact Nat.le_trans hf hb
  | case6 s joiner e rest h => rw [h] at hf; exact Nat.le_trans hf hb

theorem length_take_le (s : List Char) : (take s).2.length ≤ s.length :=
  length_scan_le s s none

end Tokens

end Typings
