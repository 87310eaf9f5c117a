import Typings.Comment
import Typings.Error
import Typings.Tokens

/-!
# Texts as bytes

A program that reads a text byte by byte sees each character outside ASCII as a run of bytes that
are no ASCII characters themselves.  What asks for ASCII characters only therefore goes the same
way through the bytes as through the characters.
-/

namespace Typings

namespace Text

/-! ## Units -/

theorem bytes_append (s t : List Char) : bytes (s ++ t) = bytes s ++ bytes t :=
  List.flatMap_append

/-- The bytes of a text, each as the character with its code. -/
def units (s : List Char) : List Char := (bytes s).map Char.ofUInt8

@[simp] theorem units_nil : units [] = [] := rfl

@[simp] theorem units_append (s t : List Char) : units (s ++ t) = units s ++ units t := by
  simp [units, bytes]

@[simp] theorem length_units (s : List Char) : (units s).length = byteLength s := by
  rw [units, List.length_map, length_bytes]

theorem length_le_length_units (s : List Char) : s.length ≤ (units s).length := by
  induction s with
  | nil => exact Nat.le_refl 0
  | cons c s ih =>
      have := c.utf8Size_pos
      rw [length_units] at ih ⊢
      rw [List.length_cons, byteLength_cons]
      omega

theorem byteLength_eq_zero_iff {s : List Char} : byteLength s = 0 ↔ s = [] := by
  rcases s with _ | ⟨c, s⟩
  · simp
  · have := c.utf8Size_pos
    simp only [byteLength_cons, reduceCtorEq, iff_false]
    omega

theorem byteLength_pos {s : List Char} (h : s ≠ []) : 0 < byteLength s :=
  Nat.pos_of_ne_zero (mt byteLength_eq_zero_iff.1 h)

def IsAscii (c : Char) : Prop := c.toNat < 128

instance (c : Char) : Decidable (IsAscii c) := inferInstanceAs (Decidable (c.toNat < 128))

theorem ne_of_isAscii {c d : Char} (hd : IsAscii d) (hc : ¬ IsAscii c) : c ≠ d :=
  fun h => hc (h ▸ hd)

theorem utf8Size_of_isAscii {c : Char} (hc : IsAscii c) : c.utf8Size = 1 :=
  Char.utf8Size_eq_one_iff.2 (UInt32.le_iff_toNat_le.2 (Nat.le_of_lt_succ hc))

theorem units_cons_of_isAscii {c : Char} (hc : IsAscii c) (s : List Char) :
    units (c :: s) = c :: units s := by
  have hlt : c.val.toNat < 128 := hc
  have hunit : Char.ofUInt8 (UInt8.ofNat c.val.toNat) = c := by
    apply Char.ext
    apply UInt32.toNat.inj
    show (UInt8.ofNat c.val.toNat).toUInt32.toNat = c.val.toNat
    rw [UInt8.toNat_toUInt32, UInt8.toNat_ofNat']
    omega
  simp only [units, bytes, List.flatMap_cons, String.utf8EncodeChar,
    if_pos (Nat.le_of_lt_succ hlt), List.map_cons, List.singleton_append, hunit]

theorem not_isAscii_ofUInt8 {n : Nat} (h : 128 ≤ n) (h' : n < 256) :
    ¬ IsAscii (Char.ofUInt8 (UInt8.ofNat n)) := by
  show ¬ (UInt8.ofNat n).toUInt32.toNat < 128
  rw [UInt8.toNat_toUInt32, UInt8.toNat_ofNat']
  omega

theorem not_isAscii_of_mem_units {c u : Char} (hc : ¬ IsAscii c) (hu : u ∈ units [c]) :
    ¬ IsAscii u := by
  have hgt : ¬ c.val.toNat ≤ 127 := fun hle => hc (Nat.lt_succ_of_le hle)
  simp only [units, bytes, List.flatMap_cons, List.flatMap_nil, List.append_nil,
    String.utf8EncodeChar, if_neg hgt, List.mem_map] at hu
  obtain ⟨b, hb, rfl⟩ := hu
  split at hb
  · simp only [List.mem_cons, List.not_mem_nil, or_false] at hb
    rcases hb with rfl | rfl <;> exact not_isAscii_ofUInt8 (by omega) (by omega)
  split at hb
  · simp only [List.mem_cons, List.not_mem_nil, or_false] at hb
    rcases hb with rfl | rfl | rfl <;> exact not_isAscii_ofUInt8 (by omega) (by omega)
  · simp only [List.mem_cons, List.not_mem_nil, or_false] at hb
    rcases hb with rfl | rfl | rfl | rfl <;> exact not_isAscii_ofUInt8 (by omega) (by omega)

theorem units_cons_of_not_isAscii {c : Char} (hc : ¬ IsAscii c) (s : List Char) :
    ∃ u us, (∀ v ∈ u :: us, ¬ IsAscii v) ∧ units [c] = u :: us ∧
      units (c :: s) = u :: us ++ units s := by
  have happend : units (c :: s) = units [c] ++ units s := units_append [c] s
  have hlength : (units [c]).length = c.utf8Size := by simp
  rcases hunits : units [c] with _ | ⟨u, us⟩
  · have := c.utf8Size_pos
    simp [hunits] at hlength
    omega
  · exact ⟨u, us, fun v hv => not_isAscii_of_mem_units hc (hunits ▸ hv), rfl, by
      rw [happend, hunits]⟩

/-! ## Positions -/

theorem getElem?_append_length {α : Type} (before rest : List α) (n : Nat) :
    (before ++ rest)[before.length + n]? = rest[n]? := by
  rw [List.getElem?_append_right (Nat.le_add_right _ _), Nat.add_sub_cancel_left]

theorem getElem?_length_append (before rest : List Char) :
    (before ++ rest)[before.length]? = rest.head? := by
  rw [List.head?_eq_getElem?, ← getElem?_append_length before rest 0, Nat.add_zero]

theorem getElem?_units (before s : List Char) (n : Nat) :
    (units (before ++ s))[byteLength before + n]? = (units s)[n]? := by
  rw [units_append, ← length_units, getElem?_append_length]

theorem getElem?_units_byteLength (before s : List Char) :
    (units (before ++ s))[byteLength before]? = (units s).head? := by
  rw [units_append, ← length_units, getElem?_length_append]

/--
A loop that passes over a byte outside ASCII in one round passes over the whole of such a character
in as many rounds as it has bytes.
-/
theorem skip_units {α : Type} {f : Nat → Nat → α} {c : Char} (hc : ¬ IsAscii c)
    (before s : List Char)
    (hstep : ∀ n pos u, (units (before ++ c :: s))[pos]? = some u → ¬ IsAscii u →
      f (n + 1) pos = f n (pos + 1)) (n : Nat) :
    f (n + byteLength [c]) (byteLength before) = f n (byteLength (before ++ [c])) := by
  obtain ⟨u, us, hus, hunit, hunits⟩ := units_cons_of_not_isAscii hc s
  -- after `k` rounds, `k` bytes of the character are behind
  have hrun : ∀ k m, k + m = (u :: us).length →
      f (n + (u :: us).length) (byteLength before) = f (n + m) (byteLength before + k) := by
    intro k
    induction k with
    | zero =>
        intro m hm
        rw [← hm, Nat.zero_add, Nat.add_zero]
    | succ k ih =>
        intro m hm
        have hlt : k < (u :: us).length := by omega
        rw [ih (m + 1) (by omega)]
        refine hstep (n + m) _ (u :: us)[k] ?_ (hus _ (List.getElem_mem hlt))
        rw [getElem?_units, hunits, List.getElem?_append_left hlt, List.getElem?_eq_getElem hlt]
  rw [byteLength_append, ← length_units [c], hunit]
  exact hrun _ 0 rfl

/-! ## Tests that ASCII decides -/

/-- All characters outside ASCII get the same answer. -/
def AsciiBased (p : Char → Bool) : Prop := ∀ c d, ¬ IsAscii c → ¬ IsAscii d → p c = p d

def AsciiOnly (p : Char → Bool) : Prop := ∀ c, p c = true → IsAscii c

theorem AsciiOnly.eq_false {p : Char → Bool} (hp : AsciiOnly p) {c : Char} (hc : ¬ IsAscii c) :
    p c = false :=
  Bool.eq_false_iff.2 fun h => hc (hp c h)

theorem AsciiOnly.based {p : Char → Bool} (hp : AsciiOnly p) : AsciiBased p := fun _ _ hc hd =>
  (hp.eq_false hc).trans (hp.eq_false hd).symm

theorem AsciiBased.not {p : Char → Bool} (hp : AsciiBased p) : AsciiBased (!p ·) :=
  fun c d hc hd => congrArg (! ·) (hp c d hc hd)

theorem AsciiOnly.or {p q : Char → Bool} (hp : AsciiOnly p) (hq : AsciiOnly q) :
    AsciiOnly fun c => p c || q c := fun c h =>
  (Bool.or_eq_true_iff.1 h).elim (hp c) (hq c)

theorem asciiOnly_beq {d : Char} (hd : IsAscii d) : AsciiOnly (· == d) := fun _ h =>
  eq_of_beq h ▸ hd

theorem asciiOnly_isDigit : AsciiOnly Char.isDigit := by
  intro c h
  simp only [Char.isDigit, Bool.and_eq_true, decide_eq_true_eq, UInt32.le_iff_toNat_le] at h
  exact Nat.lt_of_le_of_lt h.2 (by decide)

theorem asciiOnly_isAlphanum : AsciiOnly Char.isAlphanum := by
  refine AsciiOnly.or (AsciiOnly.or ?_ ?_) asciiOnly_isDigit
  · intro c h
    have hle := (of_decide_eq_true h).2
    exact Nat.lt_of_le_of_lt (UInt32.le_iff_toNat_le.1 hle) (by decide)
  · intro c h
    have hle := of_decide_eq_true (Bool.and_eq_true_iff.1 h).2
    exact Nat.lt_of_le_of_lt (UInt32.le_iff_toNat_le.1 hle) (by decide)

theorem asciiOnly_isWord : AsciiOnly isWord :=
  (asciiOnly_isAlphanum.or (asciiOnly_beq (by decide))).or (asciiOnly_beq (by decide))

theorem asciiOnly_isBlank : AsciiOnly isBlank :=
  ((((asciiOnly_beq (by decide)).or (asciiOnly_beq (by decide))).or
    (asciiOnly_beq (by decide))).or (asciiOnly_beq (by decide))).or (asciiOnly_beq (by decide))

section Tests

variable {p : Char → Bool}

theorem head?_any_units (hp : AsciiOnly p) (s : List Char) :
    (units s).head?.any p = s.head?.any p := by
  rcases s with _ | ⟨c, s⟩
  · rfl
  by_cases hc : IsAscii c
  · rw [units_cons_of_isAscii hc]
    rfl
  · obtain ⟨u, us, hus, -, hunits⟩ := units_cons_of_not_isAscii hc s
    simp [hunits, hp.eq_false (hus u List.mem_cons_self), hp.eq_false hc]

theorem head?_any_beq (d : Char) (s : List Char) : s.head?.any (· == d) = (s.head? == some d) := by
  cases s <;> rfl

theorem head?_units_eq_some_iff {d : Char} (hd : IsAscii d) (s : List Char) :
    (units s).head? = some d ↔ s.head? = some d := by
  rw [← beq_iff_eq, ← beq_iff_eq (b := some d), ← head?_any_beq, ← head?_any_beq,
    head?_any_units (asciiOnly_beq hd)]

theorem takeWhile_units (hp : AsciiBased p) (s : List Char) :
    (units s).takeWhile p = units (s.takeWhile p) := by
  induction s with
  | nil => rfl
  | cons c s ih =>
      by_cases hc : IsAscii c
      · rw [units_cons_of_isAscii hc, List.takeWhile_cons, List.takeWhile_cons]
        split
        · rw [ih, units_cons_of_isAscii hc]
        · rfl
      · obtain ⟨u, us, hus, hunit, hunits⟩ := units_cons_of_not_isAscii hc s
        have hsame : ∀ v ∈ u :: us, p v = p c := fun v hv => hp v c (hus v hv) hc
        rw [hunits]
        by_cases hpc : p c = true
        · rw [List.takeWhile_append_of_pos fun v hv => (hsame v hv).trans hpc, ih,
            List.takeWhile_cons_of_pos hpc, ← hunit, ← units_append, List.singleton_append]
        · rw [List.takeWhile_cons_of_neg hpc, List.cons_append, List.takeWhile_cons_of_neg,
            units_nil]
          rwa [hsame u List.mem_cons_self]

theorem units_eq_self {s : List Char} (hs : ∀ c ∈ s, IsAscii c) : units s = s := by
  induction s with
  | nil => rfl
  | cons c s ih =>
      rw [units_cons_of_isAscii (hs c List.mem_cons_self),
        ih fun d hd => hs d (List.mem_cons_of_mem c hd)]

end Tests

/-! ## Slices -/

/-- A character begins at byte `n`, or the text ends there. -/
def IsBoundary (s : List Char) (n : Nat) : Prop :=
  ∃ before after, s = before ++ after ∧ byteLength before = n

theorem isBoundary_iff {s : List Char} {n : Nat} :
    IsBoundary s n ↔ (splitAtByte? n s).isSome = true := by
  simp only [IsBoundary, Option.isSome_iff_exists, Prod.exists, splitAtByte?_eq_some_iff]

instance (s : List Char) (n : Nat) : Decidable (IsBoundary s n) :=
  decidable_of_iff' _ isBoundary_iff

theorem isBoundary_byteLength (before after : List Char) :
    IsBoundary (before ++ after) (byteLength before) := ⟨before, after, rfl, rfl⟩

theorem splitAtByte?_append (before after : List Char) :
    splitAtByte? (byteLength before) (before ++ after) = some (before, after) :=
  splitAtByte?_eq_some_iff.2 ⟨rfl, rfl⟩

theorem slice?_append (before inside after : List Char) :
    slice? (before ++ (inside ++ after)) (byteLength before)
      (byteLength before + byteLength inside) = some inside := by
  simp [slice?, splitAtByte?_append]

theorem slice?_eq_some {s inside : List Char} {start stop : Nat}
    (h : slice? s start stop = some inside) :
    ∃ before after, s = before ++ (inside ++ after) ∧ byteLength before = start ∧
      byteLength before + byteLength inside = stop := by
  unfold slice? at h
  split at h
  next hle =>
    simp only [Option.bind_eq_bind, Option.bind_eq_some_iff, Prod.exists, Option.pure_def,
      Option.some.injEq, splitAtByte?_eq_some_iff] at h
    obtain ⟨before, _, ⟨rfl, rfl⟩, _, after, ⟨rfl, hinside⟩, rfl⟩ := h
    exact ⟨before, after, rfl, rfl, by omega⟩
  · cases h

/-- A slice is taken if and only if its ends are in order and cut no character in two. -/
theorem isSome_slice?_iff {s : List Char} {start stop : Nat} :
    (slice? s start stop).isSome = true ↔
      start ≤ stop ∧ stop ≤ byteLength s ∧ IsBoundary s start ∧ IsBoundary s stop := by
  rw [Option.isSome_iff_exists]
  constructor
  · rintro ⟨inside, h⟩
    obtain ⟨before, after, rfl, rfl, rfl⟩ := slice?_eq_some h
    refine ⟨Nat.le_add_right _ _, ?_, isBoundary_byteLength _ _, before ++ inside, after, ?_, ?_⟩
    · simp only [byteLength_append]
      omega
    · rw [List.append_assoc]
    · rw [byteLength_append]
  · rintro ⟨hle, -, ⟨before, after, hstart, rfl⟩, before', after', hstop, rfl⟩
    obtain ⟨inside, rfl, hafter⟩ | ⟨more, rfl, hmore⟩ :=
      List.append_eq_append_iff.1 (hstart.symm.trans hstop)
    · refine ⟨inside, ?_⟩
      rw [hstart, hafter, byteLength_append]
      exact slice?_append before inside after'
    · have hnil : more = [] := by
        rcases more with _ | ⟨c, more⟩
        · rfl
        · have := c.utf8Size_pos
          simp only [byteLength_append, byteLength_cons] at hle
          omega
      refine ⟨[], ?_⟩
      rw [hnil, List.append_nil] at hstart ⊢
      rw [hstart]
      exact slice?_append before' [] after

section Ends

variable {s t w : List Char}

theorem offsetOf_add_byteLength (h : t <:+ s) : offsetOf s t + byteLength t = byteLength s := by
  obtain ⟨before, rfl⟩ := h
  rw [offsetOf_append, byteLength_append]

@[simp] theorem offsetOf_self (s : List Char) : offsetOf s s = 0 := Nat.sub_self _

theorem slice?_between (h : w ++ t <:+ s) :
    slice? s (offsetOf s (w ++ t)) (offsetOf s t) = some w := by
  obtain ⟨before, rfl⟩ := h
  have hsecond := offsetOf_append (before ++ w) t
  rw [List.append_assoc] at hsecond
  rw [offsetOf_append, hsecond, byteLength_append]
  exact slice?_append before w t

theorem slice?_end (h : t <:+ s) : slice? s (offsetOf s t) (byteLength s) = some t := by
  have hslice := slice?_between (t := []) ((List.append_nil t).symm ▸ h)
  rwa [List.append_nil] at hslice

theorem slice?_front (w t : List Char) : slice? (w ++ t) 0 (byteLength w) = some w := by
  simpa using slice?_append [] w t

end Ends

end Text

end Typings
