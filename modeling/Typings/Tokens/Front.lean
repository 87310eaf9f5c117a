import Typings.Tokens

/-!
# What a level meets first

`Tokens.look` says what stands at the front of a text.  It is `Tokens.front` without the proof that
text is taken along, and `Tokens.scan` is one look after another.
-/

namespace Typings.Tokens

inductive Sight where
  | finish (rest : List Char)
  | joiner (found : Joiner) (rest : List Char)
  | token (item rest : List Char)
  | foreign (rest : List Char)
  | unclosed (cause : Error) (rest : List Char)
  deriving DecidableEq

def Front.sight {s : List Char} : Front s → Sight
  | .finish rest => .finish rest
  | .joiner found rest _ => .joiner found rest
  | .token item rest _ => .token item rest
  | .foreign rest => .foreign rest
  | .unclosed cause rest => .unclosed cause rest

/-! ## Spans that follow each other -/

theorem takeSpans_of_error {s : List Char} {e : Error} (h : Span.take? s = .error e) :
    takeSpans s = ⟨[], s, some e⟩ := by
  rw [takeSpans]
  split <;> simp_all

theorem takeSpans_of_none {s : List Char} (h : Span.take? s = .ok none) :
    takeSpans s = ⟨[], s, none⟩ := by
  rw [takeSpans]
  split <;> simp_all

theorem takeSpans_of_some {s span rest : List Char} (h : Span.take? s = .ok (some (span, rest))) :
    takeSpans s = { takeSpans rest with taken := span ++ (takeSpans rest).taken } := by
  rw [takeSpans]
  split <;> simp_all

/-! ## One look -/

def sightOfSpans (lead s : List Char) (ends : List Char → Bool) : Sight :=
  match (takeSpans s).fault with
  | some e => .unclosed e (takeSpans s).rest
  | none =>
      if ends (takeSpans s).rest then .token (lead ++ (takeSpans s).taken) (takeSpans s).rest
      else .foreign (takeSpans s).rest

def sightOfName (s : List Char) : Sight :=
  match Text.takeName? s with
  | none => .foreign s
  | some (name, after) => sightOfSpans name after endsToken

def lookAt (c : Char) (tail : List Char) : Sight :=
  if isTerminator c then .finish tail
  else if isCloser c then .finish (c :: tail)
  else match joiner? c with
    | some found => .joiner found tail
    | none =>
        if Span.isOpener c then sightOfSpans [] (c :: tail) fun _ => true
        else sightOfName (c :: tail)

def look : List Char → Sight
  | [] => .finish []
  | '=' :: '>' :: rest => .token ['=', '>'] rest
  | c :: tail => lookAt c tail

theorem sight_bracketedFront (s : List Char) (opened : s.head?.any Span.isOpener = true) :
    (bracketedFront s opened).sight = sightOfSpans [] s fun _ => true := by
  unfold bracketedFront sightOfSpans
  split
  next h => simp only [h, Front.sight]
  next h => simp only [h, Front.sight, List.nil_append, if_true]

theorem sight_namedFront (s : List Char) : (namedFront s).sight = sightOfName s := by
  unfold namedFront sightOfName sightOfSpans
  split
  next h => simp only [h, Front.sight]
  next name after h =>
    simp only [h]
    rcases (takeSpans after).fault with _ | e
    · dsimp only
      split <;> rfl
    · rfl

theorem sight_front (s : List Char) : (front s).sight = look s := by
  unfold front
  split
  · rfl
  · rfl
  next c tail harrow =>
    rw [look.eq_3 c tail harrow]
    unfold lookAt
    split
    · rfl
    split
    · rfl
    rcases joiner? c with _ | found
    · dsimp only
      split
      · exact sight_bracketedFront _ _
      · exact sight_namedFront _
    · rfl

theorem look_of_front {s : List Char} {found : Front s} (h : front s = found) :
    look s = found.sight := by
  rw [← sight_front, h]

/-! ## One level -/

theorem scan_eq (start s : List Char) (joiner : Option Joiner) :
    scan start s joiner =
      match look (Text.skipBlanks s) with
      | .finish rest => (.ok ⟨[], joiner⟩, rest)
      | .joiner found rest =>
          if joiner.all (· == found) then scan start rest (some found)
          else (.error (.mixedDelimiters start), Text.skipBlanks s)
      | .token item rest =>
          ((scan start rest joiner).1.map
              fun tokens => { tokens with items := item :: tokens.items },
            (scan start rest joiner).2)
      | .foreign rest => (.error (.malformedDeclaration start), rest)
      | .unclosed e rest => (.error e, rest) := by
  rw [scan, ← sight_front]
  cases front (Text.skipBlanks s) <;> rfl

/-! ## Nothing is lost -/

theorem append_of_sightOfSpans {lead s : List Char} {ends : List Char → Bool}
    {item rest : List Char} (h : sightOfSpans lead s ends = .token item rest) :
    item ++ rest = lead ++ s ∧ ends rest = true := by
  unfold sightOfSpans at h
  split at h
  · cases h
  · split at h
    next hends =>
      cases h
      exact ⟨by rw [List.append_assoc, takeSpans_append], hends⟩
    · cases h

theorem append_of_look {s item rest : List Char} (h : look s = .token item rest) :
    item ++ rest = s := by
  unfold look at h
  split at h
  · cases h
  · cases h
    rfl
  next c tail _ =>
    unfold lookAt at h
    split at h
    · cases h
    split at h
    · cases h
    split at h
    · cases h
    split at h
    · exact (append_of_sightOfSpans h).1
    · unfold sightOfName at h
      split at h
      · cases h
      next name after hname =>
        exact (append_of_sightOfSpans h).1.trans (Text.takeName?_append hname)

end Typings.Tokens
