/-!
# Source text

Text is scanned as a list of characters.  Every delimiter of the grammar is ASCII, so a scan by
characters cuts at the same places as a scan by UTF-8 bytes.  Positions are byte counts.
-/

namespace Typings.Text

/-! ## Character classes -/

def isWord (c : Char) : Bool :=
  c.isAlphanum || c == '_' || c == '$'

/-- ASCII white space, which separates tokens.  The vertical tab is no blank. -/
def isBlank (c : Char) : Bool :=
  c == ' ' || c == '\t' || c == '\n' || c == '\x0c' || c == '\r'

/-- The Unicode property White_Space, which `trim` and `words` go by. -/
def isSpace (c : Char) : Bool :=
  let n := c.toNat
  (0x09 ≤ n && n ≤ 0x0d) || n == 0x20 || n == 0x85 || n == 0xa0 || n == 0x1680 ||
    (0x2000 ≤ n && n ≤ 0x200a) || n == 0x2028 || n == 0x2029 || n == 0x202f || n == 0x205f ||
    n == 0x3000

def isIdentifier (s : List Char) : Bool :=
  !s.isEmpty && s.all isWord

theorem isSpace_of_isBlank {c : Char} (h : isBlank c = true) : isSpace c = true := by
  simp only [isBlank, Bool.or_eq_true, beq_iff_eq] at h
  rcases h with (((rfl | rfl) | rfl) | rfl) | rfl <;> rfl

/-! ## Trimming and cutting -/

def trimStart (s : List Char) : List Char := s.dropWhile isSpace

def trimEnd (s : List Char) : List Char := (s.reverse.dropWhile isSpace).reverse

def trim (s : List Char) : List Char := trimEnd (trimStart s)

def cut (p : Char → Bool) : List Char → List (List Char)
  | [] => [[]]
  | c :: s =>
      if p c then [] :: cut p s
      else match cut p s with
        | [] => [[c]]
        | piece :: pieces => (c :: piece) :: pieces

def words (s : List Char) : List (List Char) :=
  (cut isSpace s).filter (!·.isEmpty)

theorem cut_ne_nil (p : Char → Bool) (s : List Char) : cut p s ≠ [] := by
  cases s with
  | nil => simp [cut]
  | cons c s => simp only [cut]; split <;> (try split) <;> simp

theorem cut_append_of_pos {p : Char → Bool} {c : Char} (hc : p c = true) (s t : List Char) :
    cut p (s ++ c :: t) = cut p s ++ cut p t := by
  induction s with
  | nil => simp [cut, hc]
  | cons d s ih =>
      rw [List.cons_append, cut, cut, ih]
      split
      · rfl
      · obtain ⟨piece, pieces, hcut⟩ := List.exists_cons_of_ne_nil (cut_ne_nil p s)
        rw [hcut]
        rfl

def stripLead? : List Char → List Char → Option (List Char)
  | [], s => some s
  | _ :: _, [] => none
  | a :: lead, b :: s => if a == b then stripLead? lead s else none

theorem stripLead?_eq_some_iff {lead s r : List Char} :
    stripLead? lead s = some r ↔ s = lead ++ r := by
  induction lead generalizing s with
  | nil => simp [stripLead?]
  | cons a lead ih =>
      cases s with
      | nil => simp [stripLead?]
      | cons b s =>
          by_cases h : a = b
          · simp [stripLead?, h, ih]
          · simp [stripLead?, h, Ne.symm h]

def stripTail? (tail s : List Char) : Option (List Char) :=
  (stripLead? tail.reverse s.reverse).map List.reverse

/-! ## Bytes -/

def byteLength : List Char → Nat
  | [] => 0
  | c :: s => c.utf8Size + byteLength s

def bytes (s : List Char) : List UInt8 := s.flatMap String.utf8EncodeChar

@[simp] theorem byteLength_nil : byteLength [] = 0 := rfl

@[simp] theorem byteLength_cons (c : Char) (s : List Char) :
    byteLength (c :: s) = c.utf8Size + byteLength s := rfl

@[simp] theorem byteLength_append (s t : List Char) :
    byteLength (s ++ t) = byteLength s + byteLength t := by
  induction s with
  | nil => simp
  | cons c s ih => simp [ih, Nat.add_assoc]

theorem length_bytes (s : List Char) : (bytes s).length = byteLength s := by
  induction s with
  | nil => rfl
  | cons c s ih => simp_all [bytes]

def splitAtByte? : Nat → List Char → Option (List Char × List Char)
  | 0, s => some ([], s)
  | _ + 1, [] => none
  | n + 1, c :: s =>
      if c.utf8Size ≤ n + 1 then
        (splitAtByte? (n + 1 - c.utf8Size) s).map fun (before, after) => (c :: before, after)
      else none

theorem splitAtByte?_eq_some_iff {n : Nat} {s before after : List Char} :
    splitAtByte? n s = some (before, after) ↔ s = before ++ after ∧ byteLength before = n := by
  induction s generalizing n before with
  | nil =>
      cases n with
      | zero => simp only [splitAtByte?]; cases before <;> simp +contextual [eq_comm]
      | succ n => cases before <;> simp [splitAtByte?]
  | cons c s ih =>
      have hc : 0 < c.utf8Size := c.utf8Size_pos
      cases n with
      | zero =>
          cases before with
          | nil => simp [splitAtByte?, eq_comm]
          | cons b before =>
              have hb : 0 < b.utf8Size := b.utf8Size_pos
              simp only [splitAtByte?, byteLength_cons]
              constructor
              · simp
              · omega
      | succ n =>
          simp only [splitAtByte?]
          split
          next h =>
            cases before with
            | nil => simp [Option.map_eq_some_iff]
            | cons b before =>
                simp only [Option.map_eq_some_iff, Prod.exists, Prod.mk.injEq, List.cons.injEq,
                  List.cons_append, byteLength_cons]
                constructor
                · rintro ⟨u, v, huv, ⟨rfl, rfl⟩, rfl⟩
                  have := ih.1 huv
                  exact ⟨⟨rfl, this.1⟩, by omega⟩
                · rintro ⟨⟨rfl, rfl⟩, hn⟩
                  exact ⟨before, after, ih.2 ⟨rfl, by omega⟩, ⟨rfl, rfl⟩, rfl⟩
          next h =>
            cases before with
            | nil => simp
            | cons b before =>
                simp only [List.cons_append, List.cons.injEq, byteLength_cons]
                constructor
                · simp
                · rintro ⟨⟨rfl, _⟩, hn⟩; omega

def slice? (s : List Char) (start stop : Nat) : Option (List Char) :=
  if start ≤ stop then do
    let (_, after) ← splitAtByte? start s
    let (inside, _) ← splitAtByte? (stop - start) after
    pure inside
  else none

def offsetOf (s rest : List Char) : Nat := byteLength s - byteLength rest

theorem offsetOf_append (before rest : List Char) :
    offsetOf (before ++ rest) rest = byteLength before := by
  simp [offsetOf]

end Typings.Text
