import Typings.Span

/-!
# How brackets nest

`Span.nesting?` keeps the count by which a bracketed span is found.  A span ends at the first
closer that the count has no opener for.
-/

namespace Typings.Span

variable {opening closing : Char}

/-! ## Kinds of brackets -/

theorem closer?_cases (h : closer? opening = some closing) (hquote : isQuote opening = false) :
    (opening = '(' ∧ closing = ')') ∨ (opening = '[' ∧ closing = ']') ∨
      (opening = '\x7b' ∧ closing = '\x7d') ∨ (opening = '<' ∧ closing = '>') := by
  unfold closer? at h
  split at h
  · cases hquote
  · cases hquote
  all_goals cases h
  all_goals decide

theorem closer?_bracket (h : closer? opening = some closing) (hquote : isQuote opening = false) :
    Text.isBlank opening = false ∧ Text.isBlank closing = false ∧ opening ≠ closing := by
  obtain ⟨rfl, rfl⟩ | ⟨rfl, rfl⟩ | ⟨rfl, rfl⟩ | ⟨rfl, rfl⟩ := closer?_cases h hquote
  all_goals decide

/-! ## The count -/

/-- How many brackets are open after the text, `depth` of them before it, unless it closes more. -/
def nesting? (opening closing : Char) : Nat → List Char → Option Nat
  | depth, [] => some depth
  | depth, c :: s =>
      if c == opening then nesting? opening closing (depth + 1) s
      else if c == closing then
        match depth with
        | 0 => none
        | depth + 1 => nesting? opening closing depth s
      else nesting? opening closing depth s

theorem nesting?_append (depth : Nat) (s t : List Char) :
    nesting? opening closing depth (s ++ t) =
      (nesting? opening closing depth s).bind fun depth => nesting? opening closing depth t := by
  induction s generalizing depth with
  | nil => rfl
  | cons c s ih =>
      simp only [List.cons_append, nesting?]
      split
      · exact ih _
      split
      · cases depth with
        | zero => rfl
        | succ depth => exact ih _
      · exact ih _

theorem count_nesting? (hne : opening ≠ closing) {depth depth' : Nat} {s : List Char}
    (h : nesting? opening closing depth s = some depth') :
    depth + s.count opening = depth' + s.count closing := by
  induction s generalizing depth with
  | nil => simpa [nesting?] using h
  | cons c s ih =>
      simp only [nesting?, beq_iff_eq] at h
      split at h
      next hopening =>
        subst hopening
        have := ih h
        rw [List.count_cons_self, List.count_cons_of_ne hne]
        omega
      next hopening =>
        rw [List.count_cons_of_ne hopening]
        split at h
        next hclosing =>
          subst hclosing
          rw [List.count_cons_self]
          cases depth with
          | zero => cases h
          | succ depth =>
              have := ih h
              omega
        next hclosing =>
          rw [List.count_cons_of_ne hclosing]
          exact ih h

/-! ## Where a span ends -/

theorem takeBracketed?_of_nesting? {depth : Nat} {body : List Char} (hne : opening ≠ closing)
    (h : nesting? opening closing depth body = some 0) (rest : List Char) :
    takeBracketed? opening closing depth (body ++ closing :: rest) =
      some (body ++ [closing], rest) := by
  induction body generalizing depth with
  | nil =>
      obtain rfl := Option.some.inj h
      simp [takeBracketed?, hne.symm]
  | cons c body ih =>
      simp only [nesting?] at h
      simp only [List.cons_append, takeBracketed?]
      split at h
      next hopening => simp only [if_pos hopening, ih h, Option.map_some]
      next hopening =>
        rw [if_neg hopening]
        split at h
        next hclosing =>
          rw [if_pos hclosing]
          cases depth with
          | zero => cases h
          | succ depth => simp only [ih h, Option.map_some]
        next hclosing => simp only [if_neg hclosing, ih h, Option.map_some]

theorem takeBracketed?_eq_none_iff {depth : Nat} {s : List Char} :
    takeBracketed? opening closing depth s = none ↔
      (nesting? opening closing depth s).isSome = true := by
  induction s generalizing depth with
  | nil => simp [takeBracketed?, nesting?]
  | cons c s ih =>
      simp only [takeBracketed?, nesting?]
      split
      · rw [Option.map_eq_none_iff, ih]
      split
      · cases depth with
        | zero => simp
        | succ depth => rw [Option.map_eq_none_iff, ih]
      · rw [Option.map_eq_none_iff, ih]

/-- A bracketed span is the shortest one: inside it every closer has its opener. -/
theorem nesting?_of_takeBracketed? {depth : Nat} {s span rest : List Char}
    (h : takeBracketed? opening closing depth s = some (span, rest)) :
    ∃ body, span = body ++ [closing] ∧ nesting? opening closing depth body = some 0 := by
  induction s generalizing depth span with
  | nil => cases h
  | cons c s ih =>
      have hmore : ∀ depth', (∀ body, nesting? opening closing depth (c :: body) =
            nesting? opening closing depth' body) →
          (takeBracketed? opening closing depth' s).map (fun x => (c :: x.1, x.2)) =
              some (span, rest) →
          ∃ body, span = body ++ [closing] ∧ nesting? opening closing depth body = some 0 := by
        intro depth' hcons hmap
        obtain ⟨⟨span', rest'⟩, htake, hpair⟩ := Option.map_eq_some_iff.1 hmap
        obtain ⟨rfl, rfl⟩ := Prod.mk.inj hpair
        obtain ⟨body, rfl, hbody⟩ := ih htake
        exact ⟨c :: body, rfl, (hcons body).trans hbody⟩
      simp only [takeBracketed?] at h
      split at h
      next hopening => exact hmore _ (fun body => by simp only [nesting?, if_pos hopening]) h
      next hopening =>
        split at h
        next hclosing =>
          cases depth with
          | zero =>
              obtain ⟨rfl, rfl⟩ := Prod.mk.inj (Option.some.inj h)
              exact ⟨[], by simpa using hclosing, rfl⟩
          | succ depth =>
              exact hmore _
                (fun body => by simp only [nesting?, if_neg hopening, if_pos hclosing]) h
        next hclosing =>
          exact hmore _
            (fun body => by simp only [nesting?, if_neg hopening, if_neg hclosing]) h

/-! ## Text behind a span -/

variable {s span rest : List Char}

theorem takeQuoted?_append_behind {quote before : Char}
    (h : takeQuoted? quote before s = some (span, rest)) (behind : List Char) :
    takeQuoted? quote before (s ++ behind) = some (span, rest ++ behind) := by
  induction s generalizing before span with
  | nil => cases h
  | cons c s ih =>
      simp only [takeQuoted?] at h
      simp only [List.cons_append, takeQuoted?]
      split at h
      next hend =>
        obtain ⟨rfl, rfl⟩ := Prod.mk.inj (Option.some.inj h)
        rw [if_pos hend]
      next hend =>
        obtain ⟨⟨span', rest'⟩, htake, hpair⟩ := Option.map_eq_some_iff.1 h
        obtain ⟨rfl, rfl⟩ := Prod.mk.inj hpair
        rw [if_neg hend, ih htake, Option.map_some]

theorem takeBracketed?_append_behind {depth : Nat}
    (h : takeBracketed? opening closing depth s = some (span, rest)) (behind : List Char) :
    takeBracketed? opening closing depth (s ++ behind) = some (span, rest ++ behind) := by
  induction s generalizing depth span with
  | nil => cases h
  | cons c s ih =>
      have hmore : ∀ depth', (takeBracketed? opening closing depth' s).map
            (fun x => (c :: x.1, x.2)) = some (span, rest) →
          (takeBracketed? opening closing depth' (s ++ behind)).map
            (fun x => (c :: x.1, x.2)) = some (span, rest ++ behind) := by
        intro depth' hmap
        obtain ⟨⟨span', rest'⟩, htake, hpair⟩ := Option.map_eq_some_iff.1 hmap
        obtain ⟨rfl, rfl⟩ := Prod.mk.inj hpair
        rw [ih htake, Option.map_some]
      simp only [takeBracketed?] at h
      simp only [List.cons_append, takeBracketed?]
      split at h
      next hopening => simpa only [if_pos hopening] using hmore _ h
      next hopening =>
        rw [if_neg hopening]
        split at h
        next hclosing =>
          rw [if_pos hclosing]
          cases depth with
          | zero =>
              obtain ⟨rfl, rfl⟩ := Prod.mk.inj (Option.some.inj h)
              rfl
          | succ depth => exact hmore _ h
        next hclosing => simpa only [if_neg hclosing] using hmore _ h

theorem take?_append_behind (h : take? s = .ok (some (span, rest))) (behind : List Char) :
    take? (s ++ behind) = .ok (some (span, rest ++ behind)) := by
  rcases s with _ | ⟨first, body⟩
  · cases h
  simp only [take?] at h
  simp only [List.cons_append, take?]
  split at h
  · cases h
  next closing hcloser =>
    split at h
    next found hfound =>
      obtain rfl := Option.some.inj (Except.ok.inj h)
      simp only [takeBody?, Option.map_eq_some_iff, Prod.exists, Prod.mk.injEq] at hfound
      obtain ⟨span', rest', htake, rfl, rfl⟩ := hfound
      have hbody : takeBody? first closing (body ++ behind) =
          some (first :: span', rest' ++ behind) := by
        rw [takeBody?]
        split at htake
        next hquote => rw [if_pos hquote, takeQuoted?_append_behind htake, Option.map_some]
        next hquote => rw [if_neg hquote, takeBracketed?_append_behind htake, Option.map_some]
      simp only [hbody]
    · cases h

end Typings.Span
