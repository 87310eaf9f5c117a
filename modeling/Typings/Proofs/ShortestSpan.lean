import Typings.Proofs.Brackets

/-!
# The extent of spans

Behind its first bracket a text is balanced for the first time at the end of the span, since until
there every closer has its opener and the first bracket is still open.  What is in the span alone
decides where it ends.  The main statement is `Span.take?_shortest`.
-/

namespace Typings.Span

variable {opening closing : Char}

/-! ## Balanced beginnings -/

structure BalancedFront (opening closing : Char) (front s : List Char) : Prop where
  begins : front <+: s
  nonempty : front ≠ []
  balanced : front.count opening = front.count closing

theorem BalancedFront.not_of_nesting? (hne : opening ≠ closing) {body front : List Char}
    (h : (nesting? opening closing 0 body).isSome = true) :
    ¬ BalancedFront opening closing front (opening :: body) := by
  rintro ⟨⟨rest, hrest⟩, hnonempty, hbalanced⟩
  obtain ⟨c, front, rfl⟩ := List.exists_cons_of_ne_nil hnonempty
  rw [List.cons_append] at hrest
  obtain ⟨rfl, rfl⟩ := List.cons.inj hrest
  rw [nesting?_append] at h
  cases hfront : nesting? c closing 0 front with
  | none =>
      rw [hfront] at h
      cases h
  | some depth =>
      have hcount := count_nesting? hne hfront
      rw [List.count_cons_self, List.count_cons_of_ne hne] at hbalanced
      omega

/-! ## Bracketed spans -/

variable {body span rest front : List Char}

theorem take?_bracket (hcloser : closer? opening = some closing)
    (hquote : isQuote opening = false) (body : List Char) :
    take? (opening :: body) = match takeBracketed? opening closing 0 body with
      | some (span, rest) => .ok (some (opening :: span, rest))
      | none => .error (.unbalanced opening closing (opening :: body)) := by
  simp only [take?, hcloser, takeBody?, hquote, Bool.false_eq_true, if_false]
  cases takeBracketed? opening closing 0 body <;> rfl

/-- A bracketed span is its first bracket, a body without surplus, and the closer. -/
theorem exists_inside_of_take? (hcloser : closer? opening = some closing)
    (hquote : isQuote opening = false) (h : take? (opening :: body) = .ok (some (span, rest))) :
    ∃ inside, span = opening :: (inside ++ [closing]) ∧
      nesting? opening closing 0 inside = some 0 := by
  rw [take?_bracket hcloser hquote] at h
  split at h
  next span' rest' htake =>
    obtain ⟨rfl, rfl⟩ := Prod.mk.inj (Option.some.inj (Except.ok.inj h))
    obtain ⟨inside, rfl, hinside⟩ := nesting?_of_takeBracketed? htake
    exact ⟨inside, rfl, hinside⟩
  next => cases h

theorem balancedFront_of_take? (hcloser : closer? opening = some closing)
    (hquote : isQuote opening = false) (h : take? (opening :: body) = .ok (some (span, rest))) :
    BalancedFront opening closing span (opening :: body) := by
  have hne := (closer?_bracket hcloser hquote).2.2
  refine ⟨⟨rest, take?_append h⟩, (take?_spans h).1, ?_⟩
  obtain ⟨inside, rfl, hinside⟩ := exists_inside_of_take? hcloser hquote h
  have hcount := count_nesting? hne hinside
  have hlast : [closing].count opening = 0 := List.count_eq_zero.2 (by simpa using hne)
  rw [List.count_cons_self, List.count_append, hlast, List.count_cons_of_ne hne,
    List.count_append, List.count_singleton_self]
  omega

theorem length_le_of_balancedFront (hcloser : closer? opening = some closing)
    (hquote : isQuote opening = false) (h : take? (opening :: body) = .ok (some (span, rest)))
    (hfront : BalancedFront opening closing front (opening :: body)) :
    span.length ≤ front.length := by
  have hne := (closer?_bracket hcloser hquote).2.2
  refine Nat.not_lt.1 fun hlt => ?_
  have hspan : span <+: opening :: body := ⟨rest, take?_append h⟩
  obtain ⟨inside, rfl, hinside⟩ := exists_inside_of_take? hcloser hquote h
  have hbegins : front <+: opening :: inside := by
    refine List.prefix_of_prefix_length_le hfront.begins ?_ ?_
    · exact (List.prefix_append (opening :: inside) [closing]).trans hspan
    · rw [List.length_cons, List.length_append, List.length_singleton] at hlt
      exact Nat.lt_succ_iff.1 hlt
  exact BalancedFront.not_of_nesting? hne (by rw [hinside]; rfl)
    ⟨hbegins, hfront.nonempty, hfront.balanced⟩

theorem exists_take?_of_balancedFront (hcloser : closer? opening = some closing)
    (hquote : isQuote opening = false)
    (hfront : BalancedFront opening closing front (opening :: body)) :
    ∃ span rest, take? (opening :: body) = .ok (some (span, rest)) := by
  have hne := (closer?_bracket hcloser hquote).2.2
  rw [take?_bracket hcloser hquote]
  cases htake : takeBracketed? opening closing 0 body with
  | none =>
      exact absurd hfront (BalancedFront.not_of_nesting? hne (takeBracketed?_eq_none_iff.1 htake))
  | some found => exact ⟨_, _, rfl⟩

theorem take?_of_not_balancedFront (hcloser : closer? opening = some closing)
    (hquote : isQuote opening = false)
    (h : ∀ front, ¬ BalancedFront opening closing front (opening :: body)) :
    take? (opening :: body) = .error (.unbalanced opening closing (opening :: body)) := by
  have hnone : ∀ span rest, take? (opening :: body) ≠ .ok (some (span, rest)) := fun _ _ htake =>
    h _ (balancedFront_of_take? hcloser hquote htake)
  rw [take?_bracket hcloser hquote] at hnone ⊢
  split
  next htake => exact absurd (by rw [htake]) (hnone _ _)
  next => rfl

/-! ## The span alone -/

theorem takeQuoted?_span {quote before : Char} {s span rest : List Char}
    (h : takeQuoted? quote before s = some (span, rest)) :
    takeQuoted? quote before span = some (span, []) := by
  induction s generalizing before span with
  | nil => cases h
  | cons c s ih =>
      simp only [takeQuoted?] at h
      split at h
      next hend =>
        obtain ⟨rfl, rfl⟩ := Prod.mk.inj (Option.some.inj h)
        rw [takeQuoted?, if_pos hend]
      next hend =>
        obtain ⟨⟨span', rest'⟩, htake, hpair⟩ := Option.map_eq_some_iff.1 h
        obtain ⟨rfl, rfl⟩ := Prod.mk.inj hpair
        rw [takeQuoted?, if_neg hend, ih htake, Option.map_some]

theorem take?_span {s : List Char} (h : take? s = .ok (some (span, rest))) :
    take? span = .ok (some (span, [])) := by
  cases s with
  | nil => cases h
  | cons opening body =>
      cases hcloser : closer? opening with
      | none => simp [take?, hcloser] at h
      | some closing =>
          cases hquote : isQuote opening with
          | false =>
              have hne := (closer?_bracket hcloser hquote).2.2
              obtain ⟨inside, rfl, hinside⟩ := exists_inside_of_take? hcloser hquote h
              rw [take?_bracket hcloser hquote, takeBracketed?_of_nesting? hne hinside []]
          | true =>
              simp only [take?, hcloser, takeBody?, hquote, if_true] at h
              split at h
              next found hfound =>
                obtain rfl := Option.some.inj (Except.ok.inj h)
                obtain ⟨⟨span', rest'⟩, htake, hpair⟩ := Option.map_eq_some_iff.1 hfound
                obtain ⟨rfl, rfl⟩ := Prod.mk.inj hpair
                simp [take?, hcloser, takeBody?, hquote, takeQuoted?_span htake]
              next => cases h

/-! ## Main statement -/

/--
A text that begins with a bracket has a span if some text at its front is balanced, and the span is
the shortest such text; without one the bracket is not closed.  Any span, quoted or bracketed, is
found alone as well as in front of any text.
-/
theorem take?_shortest (hcloser : closer? opening = some closing)
    (hquote : isQuote opening = false) (body : List Char) :
    ((∃ span rest, take? (opening :: body) = .ok (some (span, rest))) ↔
        ∃ front, BalancedFront opening closing front (opening :: body)) ∧
      (∀ span rest, take? (opening :: body) = .ok (some (span, rest)) →
        span ++ rest = opening :: body ∧ BalancedFront opening closing span (opening :: body) ∧
          ∀ front, BalancedFront opening closing front (opening :: body) →
            span.length ≤ front.length) ∧
      ((¬ ∃ front, BalancedFront opening closing front (opening :: body)) →
        take? (opening :: body) = .error (.unbalanced opening closing (opening :: body))) ∧
      ∀ s span rest, take? s = .ok (some (span, rest)) → take? span = .ok (some (span, [])) ∧
        ∀ behind, take? (s ++ behind) = .ok (some (span, rest ++ behind)) := by
  refine ⟨⟨?_, ?_⟩, ?_, ?_, ?_⟩
  · rintro ⟨span, rest, h⟩
    exact ⟨span, balancedFront_of_take? hcloser hquote h⟩
  · rintro ⟨front, hfront⟩
    exact exists_take?_of_balancedFront hcloser hquote hfront
  · intro span rest h
    exact ⟨take?_append h, balancedFront_of_take? hcloser hquote h,
      fun front => length_le_of_balancedFront hcloser hquote h⟩
  · intro h
    exact take?_of_not_balancedFront hcloser hquote (not_exists.1 h)
  · intro s span rest h
    exact ⟨take?_span h, take?_append_behind h⟩

/-- A closer in quotes counts, a bracket of another kind does not. -/
theorem take?_shortest_crossed : closer? '(' = some ')' ∧ isQuote '(' = false ∧
    take? ('(' :: "é(]),')')x".toList) = .ok (some ("(é(]),')".toList, "')x".toList)) ∧
      (∀ front, BalancedFront '(' ')' front ('(' :: "é(]),')')x".toList) → 8 ≤ front.length) ∧
      take? "(é(]),')".toList = .ok (some ("(é(]),')".toList, [])) := by
  have hcloser : closer? '(' = some ')' := rfl
  have hquote : isQuote '(' = false := rfl
  obtain ⟨-, hshortest, -, halone⟩ := take?_shortest hcloser hquote "é(]),')')x".toList
  have htake : take? ('(' :: "é(]),')')x".toList) =
      .ok (some ("(é(]),')".toList, "')x".toList)) := rfl
  exact ⟨hcloser, hquote, htake, (hshortest _ _ htake).2.2, (halone _ _ _ htake).1⟩

end Typings.Span
