import Mathlib.Data.Prod.Lex
import Mathlib.Order.Monotone.Basic
import Typings.Position
import Typings.Proofs.Bytewise.Bytes

/-!
# The order of positions

Behind a character the position is a later one: the next column, or the first column of the next
line.  So positions come in the order of their offsets, and a position tells its offset:
`Text.inOrder_positionAt_lt_iff`.
-/

namespace Typings.Text

/-! ## Positions behind a character -/

namespace Position

/-- Lines decide, and within a line columns. -/
def inOrder (p : Position) : ℕ ×ₗ ℕ := toLex (p.line, p.column)

def advance (p : Position) (c : Char) : Position :=
  if c = '\n' then ⟨p.line + 1, 1⟩ else ⟨p.line, p.column + 1⟩

theorem inOrder_lt_advance (p : Position) (c : Char) : p.inOrder < (p.advance c).inOrder := by
  rw [advance]
  split
  · exact Prod.Lex.left _ _ (Nat.lt_succ_self p.line)
  · exact Prod.Lex.right _ (Nat.lt_succ_self p.column)

theorem inOrder_lt_foldl_advance {s : List Char} (hs : s ≠ []) (p : Position) :
    p.inOrder < (s.foldl advance p).inOrder := by
  induction s generalizing p with
  | nil => exact absurd rfl hs
  | cons c s ih =>
      have hfirst := p.inOrder_lt_advance c
      rcases eq_or_ne s [] with rfl | hrest
      · exact hfirst
      · exact hfirst.trans (ih hrest (p.advance c))

end Position

theorem positionAfter_concat (before : List Char) (c : Char) :
    positionAfter (before ++ [c]) = (positionAfter before).advance c := by
  by_cases hc : c = '\n'
  · simp [positionAfter, Position.advance, hc]
  · simp [positionAfter, Position.advance, hc]

theorem positionAfter_append (before inside : List Char) :
    positionAfter (before ++ inside) = inside.foldl Position.advance (positionAfter before) := by
  induction inside generalizing before with
  | nil => rw [List.append_nil, List.foldl_nil]
  | cons c inside ih =>
      rw [List.append_cons, ih, positionAfter_concat, List.foldl_cons]

/-! ## Positions of offsets -/

theorem positionAt_byteLength (before after : List Char) :
    positionAt (before ++ after) (byteLength before) = positionAfter before := by
  have hmin : min (byteLength before) (byteLength (before ++ after)) = byteLength before := by
    rw [byteLength_append]
    exact Nat.min_eq_left (Nat.le_add_right _ _)
  rw [positionAt, hmin, splitAtByte?_append]

theorem exists_text_between {s : List Char} {a b : Nat} (ha : IsBoundary s a) (hb : IsBoundary s b)
    (hab : a < b) : ∃ before inside after, s = before ++ inside ++ after ∧ inside ≠ [] ∧
      byteLength before = a ∧ byteLength (before ++ inside) = b := by
  have hslice : (slice? s a b).isSome = true := by
    rw [isSome_slice?_iff]
    obtain ⟨before, after, rfl, rfl⟩ := hb
    exact ⟨hab.le, by simp, ha, isBoundary_byteLength before after⟩
  obtain ⟨inside, hinside⟩ := Option.isSome_iff_exists.1 hslice
  obtain ⟨before, after, rfl, rfl, rfl⟩ := slice?_eq_some hinside
  refine ⟨before, inside, after, (List.append_assoc ..).symm, ?_, rfl, byteLength_append ..⟩
  rintro rfl
  exact absurd hab (Nat.lt_irrefl _)

theorem strictMonoOn_positionAt (s : List Char) :
    StrictMonoOn (fun n => (positionAt s n).inOrder) {n | IsBoundary s n} := by
  intro a ha b hb hab
  obtain ⟨before, inside, after, rfl, hne, rfl, rfl⟩ := exists_text_between ha hb hab
  change (positionAt _ _).inOrder < (positionAt _ _).inOrder
  rw [positionAt_byteLength, List.append_assoc, positionAt_byteLength, positionAfter_append]
  exact Position.inOrder_lt_foldl_advance hne (positionAfter before)

/--
Where characters begin and at the end of the text, the order of the positions is that of the
offsets, and no two offsets have one position.
-/
theorem inOrder_positionAt_lt_iff {s : List Char} {a b : Nat} (ha : IsBoundary s a)
    (hb : IsBoundary s b) :
    ((positionAt s a).inOrder < (positionAt s b).inOrder ↔ a < b) ∧
      (positionAt s a = positionAt s b ↔ a = b) := by
  have hmono := strictMonoOn_positionAt s
  refine ⟨hmono.lt_iff_lt ha hb, fun h => ?_, congrArg (positionAt s)⟩
  exact hmono.injOn ha hb (congrArg Position.inOrder h)

/-- Behind the line feed the column is smaller. -/
theorem inOrder_positionAt_lt_iff_lineFeed :
    IsBoundary "é\nü".toList 2 ∧ IsBoundary "é\nü".toList 3 ∧
      positionAt "é\nü".toList 2 = ⟨1, 2⟩ ∧ positionAt "é\nü".toList 3 = ⟨2, 1⟩ ∧
      (positionAt "é\nü".toList 2).inOrder < (positionAt "é\nü".toList 3).inOrder := by
  have ha : IsBoundary "é\nü".toList 2 := by decide
  have hb : IsBoundary "é\nü".toList 3 := by decide
  exact ⟨ha, hb, by decide, by decide, (inOrder_positionAt_lt_iff ha hb).1.2 (by decide)⟩

end Typings.Text
