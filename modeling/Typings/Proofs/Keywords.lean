import Typings.Proofs.TokenText
import Typings.Statement.Clause
import Typings.Statement.Head

/-!
# Keywords are words

A keyword is found where the word that a text begins with is that keyword.  So at most one keyword
is found in a place, and none in front of a mark or at the end.
-/

namespace Typings

namespace Text

variable {s r w : List Char} {k : String} {ks : List String}

theorem isIdentifier_of_takeWord? (h : takeWord? s = some (w, r)) : isIdentifier w = true := by
  rw [takeWord?] at h
  split at h
  next hstart =>
    obtain ⟨rfl, -⟩ := Prod.mk.inj (Option.some.inj h)
    obtain ⟨c, tail, rfl⟩ := List.exists_cons_of_ne_nil (l := s) (by rintro rfl; cases hstart)
    have hc : isWord c = true := hstart
    rw [isIdentifier, List.all_takeWhile, List.takeWhile_cons_of_pos hc]
    rfl
  · cases h

theorem eatKeyword?_eq_some_iff (hk : isIdentifier k.toList = true) :
    eatKeyword? k s = some r ↔ takeWord? s = some (k.toList, r) := by
  simp only [eatKeyword?, Option.filter_eq_some_iff, stripLead?_eq_some_iff, Bool.not_eq_true']
  constructor
  · rintro ⟨rfl, hr⟩
    exact takeWord?_append_of_name hk hr
  · intro h
    exact ⟨(takeWord?_append h).symm, startsWord_of_takeWord? h⟩

theorem eatKeyword?_eq_none (hk : isIdentifier k.toList = true)
    (h : ∀ r, takeWord? s ≠ some (k.toList, r)) : eatKeyword? k s = none :=
  Option.eq_none_iff_forall_ne_some.2 fun r hr => h r ((eatKeyword?_eq_some_iff hk).1 hr)

theorem eatKeyword?_of_no_word (hk : isIdentifier k.toList = true) (h : takeWord? s = none) :
    eatKeyword? k s = none :=
  eatKeyword?_eq_none hk (by simp [h])

theorem eatKeyword?_of_word {k' : String} (hk : isIdentifier k.toList = true)
    (h : takeWord? s = some (k'.toList, r)) (hne : k' ≠ k) : eatKeyword? k s = none := by
  refine eatKeyword?_eq_none hk fun r' hr' => hne ?_
  rw [h] at hr'
  exact String.toList_injective (Prod.mk.inj (Option.some.inj hr')).1

theorem eatFirst?_eq_some_iff (hks : ∀ k ∈ ks, isIdentifier k.toList = true) :
    eatFirst? ks s = some (k, r) ↔ k ∈ ks ∧ takeWord? s = some (k.toList, r) := by
  constructor
  · intro h
    obtain ⟨k', hk', h⟩ := List.exists_of_findSome?_eq_some h
    obtain ⟨r', hr', heq⟩ := Option.map_eq_some_iff.1 h
    obtain ⟨rfl, rfl⟩ := Prod.mk.inj heq
    exact ⟨hk', (eatKeyword?_eq_some_iff (hks k' hk')).1 hr'⟩
  · rintro ⟨hk, hword⟩
    cases hfound : eatFirst? ks s with
    | none =>
        rw [eatFirst?, List.findSome?_eq_none_iff] at hfound
        have hnone := hfound k hk
        rw [(eatKeyword?_eq_some_iff (hks k hk)).2 hword] at hnone
        cases hnone
    | some found =>
        obtain ⟨k', hk', h⟩ := List.exists_of_findSome?_eq_some hfound
        obtain ⟨r', hr', rfl⟩ := Option.map_eq_some_iff.1 h
        rw [eatKeyword?_eq_some_iff (hks k' hk'), hword] at hr'
        obtain ⟨hkk, rfl⟩ := Prod.mk.inj (Option.some.inj hr')
        rw [String.toList_injective hkk]

theorem eatFirst?_of_eatKeyword? (hks : ∀ k ∈ ks, isIdentifier k.toList = true) (hk : k ∈ ks)
    (h : eatKeyword? k s = some r) : eatFirst? ks s = some (k, r) :=
  (eatFirst?_eq_some_iff hks).2 ⟨hk, (eatKeyword?_eq_some_iff (hks k hk)).1 h⟩

theorem eatFirst?_eq_none (hks : ∀ k ∈ ks, isIdentifier k.toList = true)
    (h : ∀ k ∈ ks, ∀ r, takeWord? s ≠ some (k.toList, r)) : eatFirst? ks s = none := by
  rw [Option.eq_none_iff_forall_ne_some]
  rintro ⟨k, r⟩ hfound
  obtain ⟨hk, hword⟩ := (eatFirst?_eq_some_iff hks).1 hfound
  exact h k hk r hword

section TakeKeywords

variable {proper : ∀ k ∈ ks, k.toList ≠ []}

theorem takeKeywords_of_none (proper : ∀ k ∈ ks, k.toList ≠ []) (h : eatFirst? ks s = none) :
    takeKeywords ks proper s = ([], s) := by
  rw [takeKeywords]
  split
  · rfl
  next hsome => rw [h] at hsome; cases hsome

theorem takeKeywords_of_some (h : eatFirst? ks s = some (k, r)) :
    takeKeywords ks proper s =
      (k :: (takeKeywords ks proper (skipBlanks r)).1,
        (takeKeywords ks proper (skipBlanks r)).2) := by
  rw [takeKeywords]
  split
  next hnone => rw [h] at hnone; cases hnone
  next hsome =>
    rw [h] at hsome
    obtain ⟨rfl, rfl⟩ := Prod.mk.inj (Option.some.inj hsome)
    rfl

end TakeKeywords

end Text

theorem Clause.takeWord?_of_isEnd {s : List Char} (h : isEnd s = true) :
    Text.takeWord? (Text.skipBlanks s) = none := by
  rcases hs : Text.skipBlanks s with _ | ⟨c, t⟩
  · rfl
  · rw [Text.takeWord?, if_neg]
    intro hword
    have hc : Text.isWord c = true := hword
    have hsemicolon : (c == ';') = false := by simpa using Text.ne_of_isWord hc (d := ';') rfl
    rw [isEnd, hs, Text.skip, Text.eat?, hsemicolon] at h
    simp [Text.skipBlanks, Text.isBlank_of_isWord hc] at h

end Typings
