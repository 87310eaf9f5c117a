import Typings.Text

/-!
# Words, names and keywords

Recognizers for the front of a text.  Each gives what it recognized and the rest, or nothing.
-/

namespace Typings.Text

def skipBlanks (s : List Char) : List Char := s.dropWhile isBlank

def startsWord (s : List Char) : Bool := s.head?.any isWord

def startsDigit (s : List Char) : Bool := s.head?.any Char.isDigit

def eat? (c : Char) : List Char → Option (List Char)
  | [] => none
  | a :: s => if a == c then some s else none

def skip (c : Char) (s : List Char) : List Char := (eat? c s).getD s

def eatKeyword? (keyword : String) (s : List Char) : Option (List Char) :=
  (stripLead? keyword.toList s).filter fun rest => !startsWord rest

def takeWord? (s : List Char) : Option (List Char × List Char) :=
  if startsWord s then some (s.takeWhile isWord, s.dropWhile isWord) else none

def nameTail : List Char → List Char × List Char
  | [] => ([], [])
  | c :: s =>
      if isWord c || (c == '.' && startsWord s) then
        let (name, rest) := nameTail s
        (c :: name, rest)
      else ([], c :: s)

/-- A name with dots inside (`a.b.C`) or a signed number (`-1.5`). -/
def takeName? (s : List Char) : Option (List Char × List Char) :=
  match s with
  | '-' :: digits => if startsDigit digits then
      let (name, rest) := nameTail digits
      some ('-' :: name, rest)
    else none
  | s => if startsWord s then some (nameTail s) else none

/-! ## Nothing is lost -/

theorem eat?_eq_some_iff {c : Char} {s r : List Char} : eat? c s = some r ↔ s = c :: r := by
  cases s with
  | nil => simp [eat?]
  | cons a s => by_cases h : a = c <;> simp [eat?, h]

theorem takeWord?_append {s w r : List Char} (h : takeWord? s = some (w, r)) : w ++ r = s := by
  simp only [takeWord?] at h
  split at h <;> simp at h
  rw [← h.1, ← h.2, List.takeWhile_append_dropWhile]

theorem nameTail_append (s : List Char) : (nameTail s).1 ++ (nameTail s).2 = s := by
  induction s with
  | nil => rfl
  | cons c s ih => simp only [nameTail]; split <;> simp_all

theorem takeName?_append {s n r : List Char} (h : takeName? s = some (n, r)) : n ++ r = s := by
  unfold takeName? at h
  split at h
  next digits =>
    split at h
    · simp only [Option.some.injEq, Prod.mk.injEq] at h
      rw [← h.1, ← h.2, List.cons_append, nameTail_append]
    · simp at h
  next =>
    split at h
    · simp only [Option.some.injEq] at h
      rw [← nameTail_append s, h]
    · simp at h

theorem ne_nil_of_takeName? {s n r : List Char} (h : takeName? s = some (n, r)) : n ≠ [] := by
  unfold takeName? at h
  split at h
  next digits =>
    split at h
    · simp only [Option.some.injEq, Prod.mk.injEq] at h
      simp [← h.1]
    · simp at h
  next =>
    split at h
    next hw =>
      simp only [Option.some.injEq] at h
      cases s with
      | nil => simp [startsWord] at hw
      | cons c s =>
          have hc : isWord c = true := by simpa [startsWord] using hw
          simp only [nameTail, hc, Bool.true_or, if_true, Prod.mk.injEq] at h
          simp [← h.1]
    · simp at h

theorem length_skipBlanks_le (s : List Char) : (skipBlanks s).length ≤ s.length :=
  (List.dropWhile_suffix isBlank).length_le

theorem length_lt_of_takeName? {s n r : List Char} (h : takeName? s = some (n, r)) :
    r.length < s.length := by
  have hn := List.length_pos_iff.2 (ne_nil_of_takeName? h)
  rw [← takeName?_append h, List.length_append]
  omega

end Typings.Text
