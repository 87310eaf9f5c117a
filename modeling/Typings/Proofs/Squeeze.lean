import Mathlib.Data.List.DropRight
import Typings.Proofs.Brackets
import Typings.Proofs.Scans

/-!
# Text with its blanks squeezed

`Text.squeeze` makes one space of every run of blanks.  Every scan of a text without quotes gives of
the squeezed text the squeezed parts that it gives of the text itself.
-/

namespace Typings

/-! ## Squeezed text -/

namespace Text

/-- Every longest run of blanks as one space. -/
def squeeze : List Char → List Char
  | [] => []
  | c :: s =>
      if isBlank c then
        if s.head?.any isBlank then squeeze s else ' ' :: squeeze s
      else c :: squeeze s

variable {c : Char} {s : List Char}

theorem squeeze_cons (h : isBlank c = false) (s : List Char) :
    squeeze (c :: s) = c :: squeeze s := by
  rw [squeeze, h, if_neg Bool.false_ne_true]

theorem squeeze_blank (h : isBlank c = true) (s : List Char) :
    squeeze (c :: s) = ' ' :: squeeze (skipBlanks s) := by
  induction s generalizing c with
  | nil => simp [squeeze, skipBlanks, h]
  | cons d s ih =>
      rw [squeeze, if_pos h]
      by_cases hd : isBlank d = true
      · rw [List.head?_cons, Option.any_some, if_pos hd, ih hd]
        simp [skipBlanks, hd]
      · rw [List.head?_cons, Option.any_some, if_neg hd, skipBlanks,
          List.dropWhile_cons_of_neg hd]

theorem squeeze_eq_self (h : ∀ c ∈ s, isBlank c = false) : squeeze s = s := by
  induction s with
  | nil => rfl
  | cons c s ih =>
      rw [List.forall_mem_cons] at h
      rw [squeeze_cons h.1, ih h.2]

theorem squeeze_append_cons (h : isBlank c = false) (s t : List Char) :
    squeeze (s ++ c :: t) = squeeze s ++ c :: squeeze t := by
  induction s with
  | nil => exact squeeze_cons h t
  | cons d s ih =>
      have hhead : (s ++ c :: t).head?.any isBlank = s.head?.any isBlank := by
        cases s <;> simp [h]
      simp only [List.cons_append, squeeze, hhead, ih]
      split
      · split <;> rfl
      · rfl

theorem squeeze_append (h : isBlank c = false) (s t : List Char) :
    squeeze (s ++ [c] ++ t) = squeeze (s ++ [c]) ++ squeeze t := by
  rw [List.append_assoc, List.singleton_append, squeeze_append_cons h, squeeze_append_cons h]
  simp [squeeze]

theorem squeeze_append_of_word {w : List Char} (h : ∀ c ∈ w, isBlank c = false) (s : List Char) :
    squeeze (w ++ s) = w ++ squeeze s := by
  induction w with
  | nil => rfl
  | cons c w ih =>
      rw [List.forall_mem_cons] at h
      rw [List.cons_append, squeeze_cons h.1, ih h.2, List.cons_append]

@[simp] theorem squeeze_eq_nil_iff : squeeze s = [] ↔ s = [] := by
  cases s with
  | nil => simp [squeeze]
  | cons c s =>
      by_cases h : isBlank c = true
      · simp [squeeze_blank h]
      · simp [squeeze_cons (by simpa using h)]

theorem head?_squeeze (s : List Char) :
    (squeeze s).head? = s.head?.map fun c => if isBlank c then ' ' else c := by
  cases s with
  | nil => rfl
  | cons c s =>
      by_cases h : isBlank c = true
      · simp [squeeze_blank h, h]
      · simp [squeeze_cons (by simpa using h), h]

theorem getLast?_squeeze (s : List Char) :
    (squeeze s).getLast? = s.getLast?.map fun c => if isBlank c then ' ' else c := by
  induction s with
  | nil => rfl
  | cons c s ih =>
      cases s with
      | nil =>
          by_cases h : isBlank c = true
          · simp [squeeze, h]
          · simp [squeeze, h]
      | cons d s =>
          have hcons : ∀ a, (a :: squeeze (d :: s)).getLast? = (squeeze (d :: s)).getLast? := by
            intro a
            cases h : squeeze (d :: s) with
            | nil => simp at h
            | cons e t => rw [List.getLast?_cons_cons]
          rw [List.getLast?_cons_cons, ← ih, squeeze]
          split
          · split
            · rfl
            · exact hcons ' '
          · exact hcons c

theorem squeeze_eq_concat {t : List Char} (hc : isBlank c = false) (h : squeeze s = t ++ [c]) :
    ∃ t', s = t' ++ [c] ∧ squeeze t' = t := by
  have hlast := getLast?_squeeze s
  rw [h, List.getLast?_concat] at hlast
  obtain ⟨d, hd, hdc⟩ := Option.map_eq_some_iff.1 hlast.symm
  have hdc : d = c := by
    split at hdc
    · subst hdc
      cases hc
    · exact hdc
  obtain ⟨t', rfl⟩ := List.getLast?_eq_some_iff.1 hd
  subst hdc
  rw [squeeze_append_cons hc] at h
  exact ⟨t', rfl, (List.append_inj' h rfl).1⟩

theorem exists_blank_squeeze (h : ∃ c ∈ s, isBlank c = true) :
    ∃ c ∈ squeeze s, isBlank c = true := by
  induction s with
  | nil => simp at h
  | cons c s ih =>
      by_cases hc : isBlank c = true
      · rw [squeeze_blank hc]
        exact ⟨' ', List.mem_cons_self .., rfl⟩
      · rw [List.exists_mem_cons_iff, or_iff_right hc] at h
        rw [squeeze_cons (by simpa using hc)]
        exact List.exists_mem_cons_of_exists (ih h)

theorem head?_squeeze_eq_some_iff {c : Char} (hc : isBlank c = false) (s : List Char) :
    (squeeze s).head? = some c ↔ s.head? = some c := by
  cases s with
  | nil => rfl
  | cons d s =>
      by_cases h : isBlank d = true
      · have hd : d ≠ c := fun hdc => by simp [← hdc, h] at hc
        have hspace : ' ' ≠ c := fun hsc => by simp [← hsc, isBlank] at hc
        simp [squeeze_blank h, hd, hspace]
      · rw [squeeze_cons (by simpa using h), List.head?_cons, List.head?_cons]

theorem forall_blank {P : Char → Prop} (hspace : P ' ') (htab : P '\t') (hline : P '\n')
    (hpage : P '\x0c') (hreturn : P '\r') : ∀ c, isBlank c = true → P c := by
  intro c h
  simp only [isBlank, Bool.or_eq_true, beq_iff_eq] at h
  obtain (((rfl | rfl) | rfl) | rfl) | rfl := h
  all_goals assumption

theorem isWord_of_isBlank : ∀ c, isBlank c = true → isWord c = false :=
  forall_blank rfl rfl rfl rfl rfl

theorem isBlank_of_isWord (h : isWord c = true) : isBlank c = false := by
  rw [← Bool.not_eq_true]
  intro hblank
  simp [isWord_of_isBlank c hblank] at h

theorem isWord_of_isIdentifier (h : isIdentifier s = true) : ∀ c ∈ s, isWord c = true := by
  rw [isIdentifier, Bool.and_eq_true, List.all_eq_true] at h
  exact h.2

theorem isBlank_of_isIdentifier (h : isIdentifier s = true) : ∀ c ∈ s, isBlank c = false :=
  fun c hc => isBlank_of_isWord (isWord_of_isIdentifier h c hc)

/-! ### Words -/

section Predicates

variable {p : Char → Bool} (hp : ∀ c, isBlank c = true → p c = p ' ')

include hp

theorem any_head?_squeeze (s : List Char) : (squeeze s).head?.any p = s.head?.any p := by
  rw [head?_squeeze, Option.any_map]
  cases s with
  | nil => rfl
  | cons c s =>
      by_cases h : isBlank c = true
      · simp [h, hp c h]
      · simp [h]

theorem dropWhile_squeeze (s : List Char) : (squeeze s).dropWhile p = squeeze (s.dropWhile p) := by
  induction s with
  | nil => rfl
  | cons c s ih =>
      by_cases h : isBlank c = true
      · by_cases hspace : p ' ' = true
        · rw [List.dropWhile_cons_of_pos ((hp c h).trans hspace), ← ih, squeeze, if_pos h]
          split
          · rfl
          · rw [List.dropWhile_cons_of_pos hspace]
        · rw [List.dropWhile_cons_of_neg (hp c h ▸ hspace), squeeze_blank h,
            List.dropWhile_cons_of_neg hspace]
      · have h : isBlank c = false := by simpa using h
        rw [squeeze_cons h, List.dropWhile_cons, List.dropWhile_cons, ih]
        split
        · rfl
        · rw [squeeze_cons h]

end Predicates

theorem skipBlanks_squeeze (s : List Char) : skipBlanks (squeeze s) = squeeze (skipBlanks s) :=
  dropWhile_squeeze (forall_blank rfl rfl rfl rfl rfl) s

theorem any_head?_skipBlanks (s : List Char) : (skipBlanks s).head?.any isBlank = false := by
  have h := List.head?_dropWhile_not isBlank s
  rw [skipBlanks]
  cases hhead : (s.dropWhile isBlank).head? with
  | none => rfl
  | some c => simpa [hhead] using h

theorem takeWhile_squeeze {p : Char → Bool} (hp : ∀ c, isBlank c = true → p c = false)
    (s : List Char) : (squeeze s).takeWhile p = s.takeWhile p := by
  induction s with
  | nil => rfl
  | cons c s ih =>
      by_cases h : isBlank c = true
      · simp [squeeze_blank h, hp c h, hp ' ' rfl]
      · rw [squeeze_cons (by simpa using h), List.takeWhile_cons, List.takeWhile_cons, ih]

theorem startsWord_squeeze (s : List Char) : startsWord (squeeze s) = startsWord s :=
  any_head?_squeeze (forall_blank rfl rfl rfl rfl rfl) s

theorem startsDigit_squeeze (s : List Char) : startsDigit (squeeze s) = startsDigit s :=
  any_head?_squeeze (forall_blank rfl rfl rfl rfl rfl) s

theorem takeWord?_squeeze (s : List Char) :
    takeWord? (squeeze s) = (takeWord? s).map fun found => (found.1, squeeze found.2) := by
  simp only [takeWord?, startsWord_squeeze, takeWhile_squeeze isWord_of_isBlank,
    dropWhile_squeeze (p := isWord) (forall_blank rfl rfl rfl rfl rfl)]
  split <;> rfl

theorem nameTail_squeeze (s : List Char) :
    nameTail (squeeze s) = ((nameTail s).1, squeeze (nameTail s).2) := by
  induction s with
  | nil => rfl
  | cons c s ih =>
      by_cases h : isBlank c = true
      · have hc : (isWord c || (c == '.' && startsWord s)) = false := by
          have hdot : (c == '.') = false :=
            forall_blank (P := fun c => (c == '.') = false) rfl rfl rfl rfl rfl c h
          rw [isWord_of_isBlank c h, hdot]
          rfl
        rw [nameTail, hc, squeeze_blank h]
        simp [nameTail, isWord, squeeze_blank h]
      · have h : isBlank c = false := by simpa using h
        rw [squeeze_cons h, nameTail, nameTail, startsWord_squeeze, ih]
        split
        · rfl
        · rw [squeeze_cons h]

theorem stripLead?_squeeze {lead : List Char} (hlead : ∀ c ∈ lead, isBlank c = false)
    (s : List Char) : stripLead? lead (squeeze s) = (stripLead? lead s).map squeeze := by
  induction lead generalizing s with
  | nil => rfl
  | cons a lead ih =>
      rw [List.forall_mem_cons] at hlead
      cases s with
      | nil => rfl
      | cons b s =>
          by_cases h : isBlank b = true
          · have hb : a ≠ b := fun hab => by simp [hab, h] at hlead
            have hspace : a ≠ ' ' := fun hab => by simp [hab, isBlank] at hlead
            simp [squeeze_blank h, stripLead?, hb, hspace]
          · rw [squeeze_cons (by simpa using h), stripLead?, stripLead?, ih hlead.2]
            split <;> rfl

theorem eat?_eq (c : Char) (s : List Char) : eat? c s = stripLead? [c] s := by
  cases s with
  | nil => rfl
  | cons a s =>
      by_cases h : a = c
      · simp [eat?, stripLead?, h]
      · simp [eat?, stripLead?, h, Ne.symm h]

theorem eat?_squeeze (hc : isBlank c = false) (s : List Char) :
    eat? c (squeeze s) = (eat? c s).map squeeze := by
  rw [eat?_eq, eat?_eq, stripLead?_squeeze (by simpa using hc)]

theorem skip_squeeze (hc : isBlank c = false) (s : List Char) :
    skip c (squeeze s) = squeeze (skip c s) := by
  simp only [skip, eat?_squeeze hc]
  cases eat? c s <;> rfl

theorem eatKeyword?_squeeze {keyword : String} (h : ∀ c ∈ keyword.toList, isBlank c = false)
    (s : List Char) : eatKeyword? keyword (squeeze s) = (eatKeyword? keyword s).map squeeze := by
  simp only [eatKeyword?, stripLead?_squeeze h, Option.filter_map, Function.comp_def,
    startsWord_squeeze]

theorem takeName?_squeeze (s : List Char) :
    takeName? (squeeze s) = (takeName? s).map fun found => (found.1, squeeze found.2) := by
  rw [takeName?_eq, takeName?_eq, eat?_squeeze rfl]
  cases eat? '-' s with
  | none =>
      simp only [Option.map_none, startsWord_squeeze, nameTail_squeeze]
      split <;> rfl
  | some digits =>
      simp only [Option.map_some, startsDigit_squeeze, nameTail_squeeze]
      split <;> rfl

theorem word_of_nameTail (s : List Char) : ∀ c ∈ (nameTail s).1, isBlank c = false := by
  induction s with
  | nil => simp [nameTail]
  | cons c s ih =>
      rw [nameTail]
      split
      next h =>
        refine List.forall_mem_cons.2 ⟨?_, ih⟩
        rw [← Bool.not_eq_true]
        intro hc
        have hdot : (c == '.') = false :=
          forall_blank (P := fun c => (c == '.') = false) rfl rfl rfl rfl rfl c hc
        rw [isWord_of_isBlank c hc, hdot] at h
        cases h
      · simp

theorem word_of_takeName? {name rest : List Char} (h : takeName? s = some (name, rest)) :
    ∀ c ∈ name, isBlank c = false := by
  rw [takeName?_eq] at h
  split at h
  next digits _ =>
    split at h
    · obtain ⟨rfl, -⟩ := Prod.mk.inj (Option.some.inj h)
      exact List.forall_mem_cons.2 ⟨rfl, word_of_nameTail digits⟩
    · cases h
  · split at h
    · have hname : (nameTail s).1 = name := congrArg Prod.fst (Option.some.inj h)
      exact hname ▸ word_of_nameTail s
    · cases h

/-! ### Trimming -/

theorem trimStart_squeeze (s : List Char) : trimStart (squeeze s) = squeeze (trimStart s) :=
  dropWhile_squeeze (forall_blank rfl rfl rfl rfl rfl) s

theorem trimEnd_concat (s : List Char) (c : Char) :
    trimEnd (s ++ [c]) = if isSpace c then trimEnd s else s ++ [c] :=
  List.rdropWhile_concat isSpace s c

theorem squeeze_concat (h : isBlank c = true) (s : List Char) :
    squeeze (s ++ [c]) = squeeze s ∨ squeeze (s ++ [c]) = squeeze s ++ [' '] := by
  induction s with
  | nil => exact .inr (by simp [squeeze, h])
  | cons d s ih =>
      by_cases hd : isBlank d = true
      · cases s with
        | nil => exact .inl (by simp [squeeze, h, hd])
        | cons e s =>
            have hcons : ∀ t, squeeze (d :: e :: t) =
                if isBlank e then squeeze (e :: t) else ' ' :: squeeze (e :: t) := by
              intro t
              rw [squeeze, if_pos hd, List.head?_cons, Option.any_some]
            rw [List.cons_append, List.cons_append, hcons, hcons]
            split
            · exact ih
            · exact ih.imp (congrArg (' ' :: ·)) (congrArg (' ' :: ·))
      · have hd : isBlank d = false := by simpa using hd
        rw [List.cons_append, squeeze_cons hd, squeeze_cons hd]
        exact ih.imp (congrArg (d :: ·)) (congrArg (d :: ·))

theorem trimEnd_squeeze (s : List Char) : trimEnd (squeeze s) = squeeze (trimEnd s) := by
  induction s using List.reverseRecOn with
  | nil => rfl
  | append_singleton s c ih =>
      by_cases h : isBlank c = true
      · rw [trimEnd_concat, if_pos (isSpace_of_isBlank h), ← ih]
        rcases squeeze_concat h s with hs | hs
        · rw [hs]
        · rw [hs, trimEnd_concat, if_pos (isSpace_of_isBlank rfl)]
      · have h : isBlank c = false := by simpa using h
        rw [squeeze_append_cons h, trimEnd_concat, show squeeze [] = [] from rfl, trimEnd_concat,
          ih]
        split
        · rfl
        · rw [squeeze_append_cons h]
          rfl

theorem trim_squeeze (s : List Char) : trim (squeeze s) = squeeze (trim s) := by
  rw [trim, trimStart_squeeze, trimEnd_squeeze, trim]

end Text

end Typings
