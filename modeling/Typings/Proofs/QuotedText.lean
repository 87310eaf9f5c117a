import Typings.Proofs.Decoding
import Typings.Text
import Typings.Text.Quoted

/-!
# What a quoted text was written from

Each character shows where its escape ends, so a quoted text is the quoted form of one text only,
and it takes one line.
-/

namespace Typings.Text

/-! ## Hexadecimal numerals -/

theorem isWord_of_mem_toDigits {n : Nat} : ∀ c ∈ Nat.toDigits 16 n, isWord c = true := by
  have hdigit : ∀ n < 16, isWord (Nat.digitChar n) = true := by decide
  induction n using Nat.strongRecOn with
  | ind n ih =>
      rw [Nat.toDigits_eq_if (by decide)]
      split
      next hlt => simpa using hdigit n hlt
      next hle =>
        have hless : n / 16 < n := Nat.div_lt_self (by omega) (by decide)
        simpa [or_imp, forall_and] using
          And.intro (ih _ hless) (hdigit _ (Nat.mod_lt n (by decide)))

theorem eq_of_toDigits {m n : Nat} (h : Nat.toDigits 16 m = Nat.toDigits 16 n) : m = n := by
  have hdigit : ∀ m < 16, ∀ n < 16, Nat.digitChar m = Nat.digitChar n → m = n := by decide
  have hlonger : ∀ {k : Nat} {c d : Char}, Nat.toDigits 16 k ++ [c] ≠ [d] := by
    intro k c d h
    exact Nat.toDigits_ne_nil (List.append_eq_singleton_iff.1 h |>.resolve_right (by simp)).1
  induction m using Nat.strongRecOn generalizing n with
  | ind m ih =>
      rw [Nat.toDigits_eq_if (by decide), Nat.toDigits_eq_if (n := n) (by decide)] at h
      split at h
      next hm =>
        split at h
        next hn => exact hdigit m hm n hn (List.singleton_inj.1 h)
        next hn => exact absurd h.symm hlonger
      next hm =>
        split at h
        next hn => exact absurd h hlonger
        next hn =>
          obtain ⟨hfront, hlast⟩ := List.append_inj' h rfl
          have hdiv := ih (m / 16) (Nat.div_lt_self (by omega) (by decide)) hfront
          have hmod := hdigit _ (Nat.mod_lt m (by decide)) _ (Nat.mod_lt n (by decide))
            (List.singleton_inj.1 hlast)
          omega

/-! ## Quoted characters -/

inductive QuotedAs (c : Char) : List Char → Prop
  | short {e : Char} (h : shortEscape? c = some e) : QuotedAs c ['\\', e]
  | hidden (h : shortEscape? c = none) :
      QuotedAs c ('\\' :: 'u' :: '\x7b' :: (Nat.toDigits 16 c.toNat ++ ['\x7d']))
  | plain (h : shortEscape? c = none) : QuotedAs c [c]

theorem quotedAs_quoteChar (c : Char) : QuotedAs c (quoteChar c) := by
  unfold quoteChar
  split
  next e h => exact .short h
  next h =>
    split
    next => exact .hidden h
    next => exact .plain h

theorem shortEscape?_eq_some {c e : Char} (h : shortEscape? c = some e) :
    [('"', '"'), ('\\', '\\'), ('n', '\n'), ('r', '\r'), ('t', '\t'), ('0', '\x00')].lookup e =
      some c := by
  unfold shortEscape? at h
  split at h
  all_goals cases h
  all_goals rfl

theorem eq_of_shortEscape? {c d e : Char} (hc : shortEscape? c = some e)
    (hd : shortEscape? d = some e) : c = d :=
  Option.some.inj ((shortEscape?_eq_some hc).symm.trans (shortEscape?_eq_some hd))

theorem eq_of_quoteChar (c d : Char) (s t : List Char)
    (h : quoteChar c ++ s = quoteChar d ++ t) : c = d ∧ s = t := by
  have hu : ∀ c, shortEscape? c ≠ some 'u' := fun c hc => by cases shortEscape?_eq_some hc
  have hslash : ∀ {c}, shortEscape? c = none → c ≠ '\\' := by
    rintro c hc rfl
    cases hc
  have hnumeral : ∀ {m n : Nat}, Nat.toDigits 16 m ++ '\x7d' :: s =
      Nat.toDigits 16 n ++ '\x7d' :: t → m = n ∧ s = t := by
    intro m n h
    obtain ⟨hdigits, hrest⟩ := eq_of_append_of_all isWord_of_mem_toDigits isWord_of_mem_toDigits
      rfl rfl h
    exact ⟨eq_of_toDigits hdigits, (List.cons.inj hrest).2⟩
  have hc := quotedAs_quoteChar c
  have hd := quotedAs_quoteChar d
  generalize quoteChar c = u at h hc
  generalize quoteChar d = v at h hd
  cases hc with
  | short hc =>
      cases hd with
      | short hd =>
          obtain ⟨rfl, hrest⟩ := List.cons.inj (List.cons.inj h).2
          exact ⟨eq_of_shortEscape? hc hd, hrest⟩
      | hidden hd =>
          obtain ⟨rfl, -⟩ := List.cons.inj (List.cons.inj h).2
          exact absurd hc (hu c)
      | plain hd => exact absurd (List.cons.inj h).1.symm (hslash hd)
  | hidden hc =>
      cases hd with
      | short hd =>
          obtain ⟨rfl, -⟩ := List.cons.inj (List.cons.inj h).2
          exact absurd hd (hu d)
      | hidden hd =>
          obtain ⟨hnat, rfl⟩ := hnumeral (by simpa using h)
          exact ⟨Char.toNat_inj.1 hnat, rfl⟩
      | plain hd => exact absurd (List.cons.inj h).1.symm (hslash hd)
  | plain hc =>
      cases hd with
      | short hd => exact absurd (List.cons.inj h).1 (hslash hc)
      | hidden hd => exact absurd (List.cons.inj h).1 (hslash hc)
      | plain hd => exact List.cons.inj h

theorem quote_inj {s t : List Char} (h : quote s = quote t) : s = t := by
  have hne : ∀ c, quoteChar c ≠ [] := by
    intro c hnil
    have hform := quotedAs_quoteChar c
    rw [hnil] at hform
    cases hform
  exact eq_of_flatMap hne eq_of_quoteChar (List.append_cancel_right (List.cons.inj h).2)

theorem newline_not_mem_quote (s : List Char) : '\n' ∉ quote s := by
  have hchar : ∀ c, '\n' ∉ quoteChar c := by
    intro c hmem
    have hform := quotedAs_quoteChar c
    generalize quoteChar c = u at hmem hform
    cases hform with
    | short h =>
        obtain rfl : '\n' = _ := by simpa using hmem
        cases shortEscape?_eq_some h
    | hidden h =>
        have hdigit : '\n' ∈ Nat.toDigits 16 c.toNat := by simpa using hmem
        exact absurd (isWord_of_mem_toDigits _ hdigit) (by decide)
    | plain h =>
        obtain rfl := List.mem_singleton.1 hmem
        cases h
  simp [quote, hchar]

end Typings.Text
