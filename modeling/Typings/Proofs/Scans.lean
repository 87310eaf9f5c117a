import Typings.Term.Size

/-!
# Scans of a text, one step at a time

What is left after a step of a scan is an end of the text, and what is neither left nor in a token
are separators.  The scans that go on for as long as there is text satisfy equations that do not
mention why they end.
-/

namespace Typings

/-! ## Words -/

namespace Text

variable {s r : List Char}

theorem skipBlanks_suffix (s : List Char) : skipBlanks s <:+ s := List.dropWhile_suffix isBlank

theorem eat?_suffix {c : Char} (h : eat? c s = some r) : r <:+ s := by
  rw [eat?_eq_some_iff.1 h]
  exact List.suffix_cons c r

theorem skip_suffix (c : Char) (s : List Char) : skip c s <:+ s := by
  rcases h : eat? c s with _ | r
  · simp [skip, h]
  · simpa [skip, h] using eat?_suffix h

theorem takeWord?_suffix {w : List Char} (h : takeWord? s = some (w, r)) : r <:+ s :=
  ⟨w, takeWord?_append h⟩

theorem startsWord_dropWhile (s : List Char) : startsWord (s.dropWhile isWord) = false := by
  have hhead := List.head?_dropWhile_not isWord s
  rw [startsWord]
  split at hhead
  next c hc => rwa [hc]
  next hnone => rw [hnone]; rfl

theorem startsWord_of_takeWord? {w : List Char} (h : takeWord? s = some (w, r)) :
    startsWord r = false := by
  rw [takeWord?] at h
  split at h
  · obtain ⟨-, rfl⟩ := Prod.mk.inj (Option.some.inj h)
    exact startsWord_dropWhile s
  · cases h

theorem takeName?_suffix {n : List Char} (h : takeName? s = some (n, r)) : r <:+ s :=
  ⟨n, takeName?_append h⟩

theorem takeName?_eq (s : List Char) :
    takeName? s =
      match eat? '-' s with
      | some digits =>
          if startsDigit digits then some ('-' :: (nameTail digits).1, (nameTail digits).2)
          else none
      | none => if startsWord s then some (nameTail s) else none := by
  unfold takeName?
  split
  · rfl
  next hminus =>
    rw [show eat? '-' s = none from Option.eq_none_iff_forall_ne_some.2 fun digits h =>
      hminus digits (eat?_eq_some_iff.1 h)]

theorem eatKeyword?_suffix {keyword : String} (h : eatKeyword? keyword s = some r) : r <:+ s := by
  simp only [eatKeyword?, Option.filter_eq_some_iff, stripLead?_eq_some_iff] at h
  exact ⟨_, h.1.symm⟩

end Text

/-! ## Spans and arguments -/

namespace Span

theorem take?_suffix {s span rest : List Char} (h : take? s = .ok (some (span, rest))) :
    rest <:+ s := ⟨span, take?_append h⟩

theorem takeArgument_nil : takeArgument [] = .ok ([], none) := by rw [takeArgument]

theorem takeArgument_comma (s : List Char) : takeArgument (',' :: s) = .ok ([], some s) := by
  rw [takeArgument]
  rfl

theorem takeArgument_of_error {c : Char} {s : List Char} {e : Error} (hc : c ≠ ',')
    (h : take? (c :: s) = .error e) : takeArgument (c :: s) = .error e := by
  rw [takeArgument, if_neg (by simpa using hc)]
  split <;> simp_all

theorem takeArgument_of_none {c : Char} {s : List Char} (hc : c ≠ ',')
    (h : take? (c :: s) = .ok none) :
    takeArgument (c :: s) = (takeArgument s).map fun a => (c :: a.1, a.2) := by
  rw [takeArgument, if_neg (by simpa using hc)]
  split <;> simp_all

theorem takeArgument_of_some {c : Char} {s span rest : List Char} (hc : c ≠ ',')
    (h : take? (c :: s) = .ok (some (span, rest))) :
    takeArgument (c :: s) = (takeArgument rest).map fun a => (span ++ a.1, a.2) := by
  rw [takeArgument, if_neg (by simpa using hc)]
  split <;> simp_all

theorem pieces_eq (s : List Char) :
    pieces s =
      match takeArgument s with
      | .error e => .error e
      | .ok (a, none) => .ok [Text.trim a]
      | .ok (a, some rest) => (pieces rest).map (Text.trim a :: ·) := by
  rw [pieces]
  split <;> simp_all

end Span

/-! ## Levels -/

namespace Tokens

theorem takeSpans_suffix (s : List Char) : (takeSpans s).rest <:+ s :=
  ⟨_, takeSpans_append s⟩

def Sight.rest : Sight → List Char
  | .finish rest => rest
  | .joiner _ rest => rest
  | .token _ rest => rest
  | .foreign rest => rest
  | .unclosed _ rest => rest

theorem rest_sightOfSpans (lead s : List Char) (ends : List Char → Bool) :
    (sightOfSpans lead s ends).rest = (takeSpans s).rest := by
  unfold sightOfSpans
  split
  · rfl
  · split <;> rfl

theorem look_suffix (s : List Char) : (look s).rest <:+ s := by
  unfold look
  split
  · exact List.suffix_refl _
  · exact (List.suffix_cons _ _).trans (List.suffix_cons _ _)
  next c tail _ =>
    unfold lookAt
    split
    · exact List.suffix_cons c tail
    split
    · exact List.suffix_refl _
    split
    · exact List.suffix_cons c tail
    split
    · exact rest_sightOfSpans [] _ _ ▸ takeSpans_suffix _
    · unfold sightOfName
      split
      · exact List.suffix_refl _
      next name after hname =>
        rw [rest_sightOfSpans]
        exact (takeSpans_suffix after).trans (Text.takeName?_suffix hname)

theorem scan_suffix (start s : List Char) (joiner : Option Joiner) :
    (scan start s joiner).2 <:+ s := by
  have hlook := look_suffix (Text.skipBlanks s)
  have hblanks := Text.skipBlanks_suffix s
  fun_induction scan start s joiner with
  | case1 s joiner rest hfront =>
      rw [look_of_front hfront] at hlook
      exact hlook.trans hblanks
  | case2 s joiner found rest hlt hfront _ _ ih =>
      rw [look_of_front hfront] at hlook
      exact (ih (look_suffix _) (Text.skipBlanks_suffix _)).trans (hlook.trans hblanks)
  | case3 => exact hblanks
  | case4 s joiner item rest hlt hfront _ level stop hscan ih =>
      rw [look_of_front hfront] at hlook
      rw [hscan] at ih
      exact (ih (look_suffix _) (Text.skipBlanks_suffix _)).trans (hlook.trans hblanks)
  | case5 s joiner rest hfront =>
      rw [look_of_front hfront] at hlook
      exact hlook.trans hblanks
  | case6 s joiner e rest hfront =>
      rw [look_of_front hfront] at hlook
      exact hlook.trans hblanks

theorem take_suffix (s : List Char) : (take s).2 <:+ s := scan_suffix s s none

/-! ### Only separators are lost -/

def isSeparator (c : Char) : Bool := Text.isBlank c || isTerminator c || (joiner? c).isSome

variable {x : Char}

theorem count_skipBlanks (hx : isSeparator x = false) (s : List Char) :
    (Text.skipBlanks s).count x = s.count x := by
  induction s with
  | nil => rfl
  | cons c s ih =>
      simp only [Text.skipBlanks, List.dropWhile_cons] at ih ⊢
      split
      next hblank =>
        have hcx : c ≠ x := by
          rintro rfl
          simp [isSeparator, hblank] at hx
        rw [ih, List.count_cons_of_ne hcx]
      · rfl

theorem count_of_look (hx : isSeparator x = false) {s rest : List Char}
    (h : look s = .finish rest ∨ ∃ found, look s = .joiner found rest) :
    rest.count x = s.count x := by
  have htail : ∀ c, isSeparator c = true → rest.count x = (c :: rest).count x := by
    intro c hc
    rw [List.count_cons_of_ne]
    rintro rfl
    simp [hc] at hx
  have htoken : ∀ lead t ends, sightOfSpans lead t ends ≠ .finish rest ∧
      ∀ found, sightOfSpans lead t ends ≠ .joiner found rest := by
    intro lead t ends
    unfold sightOfSpans
    split
    · simp
    · split <;> simp
  unfold look lookAt sightOfName at h
  split at h
  · obtain h | ⟨_, h⟩ := h <;> cases h
    rfl
  · obtain h | ⟨_, h⟩ := h <;> cases h
  next c tail _ =>
    split at h
    next hterm =>
      obtain h | ⟨_, h⟩ := h <;> cases h
      exact htail c (by simp [isSeparator, hterm])
    split at h
    · obtain h | ⟨_, h⟩ := h <;> cases h
      rfl
    split at h
    next hjoiner =>
      obtain h | ⟨_, h⟩ := h <;> cases h
      exact htail c (by simp [isSeparator, hjoiner])
    split at h
    · obtain h | ⟨found, h⟩ := h
      · exact absurd h (htoken _ _ _).1
      · exact absurd h ((htoken _ _ _).2 found)
    split at h
    · obtain h | ⟨_, h⟩ := h <;> cases h
    · obtain h | ⟨found, h⟩ := h
      · exact absurd h (htoken _ _ _).1
      · exact absurd h ((htoken _ _ _).2 found)

theorem count_scan (hx : isSeparator x = false) (start s : List Char) (joiner : Option Joiner) :
    ∀ t, (scan start s joiner).1 = .ok t →
      s.count x = t.items.flatten.count x + (scan start s joiner).2.count x := by
  fun_induction scan start s joiner with
  | case1 s joiner rest hfront =>
      rintro _ ⟨⟩
      have hlook := look_of_front hfront
      rw [← count_skipBlanks hx s, ← count_of_look hx (.inl hlook)]
      simp
  | case2 s joiner found rest hlt hfront _ _ ih =>
      intro t ht
      have hlook := look_of_front hfront
      rw [← count_skipBlanks hx s, ← count_of_look hx (.inr ⟨found, hlook⟩)]
      exact ih t ht
  | case3 => rintro t ⟨⟩
  | case4 s joiner item rest hlt hfront _ level stop hscan ih =>
      intro t ht
      obtain ⟨t', hlevel, rfl⟩ := Object.map_ok ht
      have hlook := look_of_front hfront
      have hrest := ih t' (by rw [hscan, hlevel])
      rw [hscan] at hrest
      rw [← count_skipBlanks hx s, ← append_of_look hlook, List.count_append, hrest,
        List.flatten_cons, List.count_append, Nat.add_assoc]
  | case5 => rintro t ⟨⟩
  | case6 => rintro t ⟨⟩

theorem count_take (hx : isSeparator x = false) {s rest : List Char} {t : Tokens}
    (h : take s = (.ok t, rest)) : s.count x = t.items.flatten.count x + rest.count x := by
  have hscan := count_scan hx s s none t (congrArg Prod.fst h)
  rwa [show (scan s s none).2 = rest from congrArg Prod.snd h] at hscan

end Tokens

/-! ## Objects -/

namespace Object

variable {start s rest : List Char} {slot : Slot}

theorem expectColon_suffix (h : expectColon start s = .ok rest) : rest <:+ s := by
  unfold expectColon at h
  split at h
  next r hr =>
    exact Except.ok.inj h ▸ (Text.eat?_suffix hr).trans (Text.skipBlanks_suffix s)
  · cases h

theorem skipSpan_suffix (h : skipSpan s = .ok rest) : rest <:+ s := by
  unfold skipSpan at h
  split at h
  · cases h
  · cases h
  next hs => exact Except.ok.inj h ▸ Span.take?_suffix hs

theorem takeMark_suffix (s : List Char) : (takeMark s).2 <:+ s := by
  unfold takeMark
  split
  next h => exact Text.eat?_suffix h
  · exact List.suffix_refl s

theorem skipModifier_suffix (s : List Char) : skipModifier s <:+ s := by
  unfold skipModifier
  split
  · exact List.suffix_refl s
  next r hr =>
    dsimp only
    split
    · exact List.suffix_refl s
    · exact (Text.skipBlanks_suffix r).trans (Text.eatKeyword?_suffix hr)

theorem skipParameters_suffix (h : skipParameters start s = .ok rest) : rest <:+ s := by
  unfold skipParameters at h
  split at h
  · split at h
    · cases h
    next r hr =>
      split at h
      · exact (skipSpan_suffix h).trans (skipSpan_suffix hr)
      · cases h
  · exact skipSpan_suffix h
  · exact Except.ok.inj h ▸ List.suffix_refl s

theorem dynamicHead_suffix (h : dynamicHead s = .ok (slot, rest)) : rest <:+ s := by
  unfold dynamicHead at h
  split at h
  · cases h
  next r hr =>
    obtain ⟨a, ha, hp⟩ := map_ok h
    obtain ⟨-, rfl⟩ := Prod.mk.inj hp
    exact (expectColon_suffix ha).trans ((Text.skip_suffix '?' r).trans (skipSpan_suffix hr))

theorem quotedHead_suffix (h : quotedHead s = .ok (slot, rest)) : rest <:+ s := by
  unfold quotedHead at h
  split at h
  · cases h
  · cases h
  next span r hr =>
    obtain ⟨a, ha, hp⟩ := map_ok h
    obtain ⟨-, rfl⟩ := Prod.mk.inj hp
    exact (expectColon_suffix ha).trans ((takeMark_suffix r).trans (Span.take?_suffix hr))

theorem namedHead_suffix (h : namedHead s = .ok (slot, rest)) : rest <:+ s := by
  unfold namedHead at h
  split at h
  · cases h
  next key r hw =>
    dsimp only at h
    split at h
    · cases h
    next r' hr =>
      obtain ⟨a, ha, hp⟩ := map_ok h
      obtain ⟨-, rfl⟩ := Prod.mk.inj hp
      have hword := (Text.takeWord?_suffix hw).trans (skipModifier_suffix s)
      exact (expectColon_suffix ha).trans
        ((skipParameters_suffix hr).trans ((takeMark_suffix r).trans hword))

theorem head_suffix (h : head s = .ok (slot, rest)) : rest <:+ s := by
  unfold head at h
  split at h
  · cases h
  split at h
  · exact dynamicHead_suffix h
  split at h
  · exact quotedHead_suffix h
  split at h
  · exact namedHead_suffix h
  · cases h

theorem scanEntries_eq (start s : List Char) :
    scanEntries start s =
      match Text.skipBlanks s with
      | [] => ⟨[], .error (.unbalanced '\x7b' '\x7d' start)⟩
      | c :: tail =>
          if c == '\x7d' then ⟨[], .ok tail⟩
          else if Tokens.isTerminator c then scanEntries start tail
          else
            match head (c :: tail) with
            | .error e => ⟨[], .error e⟩
            | .ok (slot, rest) =>
                match Tokens.take rest with
                | (.error e, _) => ⟨[⟨slot, .error e⟩], .error e⟩
                | (.ok value, after) =>
                    ⟨⟨slot, .ok value⟩ :: (scanEntries start after).entries,
                      (scanEntries start after).outcome⟩ := by
  rw [scanEntries]
  split
  next h => rw [h]
  next c tail h =>
    simp only [h]
    split
    · rfl
    split
    · rfl
    split
    next hhead => simp only [hhead]
    next slot rest hhead =>
      simp only [hhead]
      split
      next htake => simp only [htake]
      next htake => simp only [htake]

theorem scanEntries_suffix (h : (scanEntries start s).outcome = .ok rest) : rest <:+ s := by
  have hblanks := Text.skipBlanks_suffix s
  fun_induction scanEntries start s with
  | case1 => cases h
  | case2 s c tail hs hlt hclose =>
      rw [hs] at hblanks
      exact Except.ok.inj h ▸ (List.suffix_cons c tail).trans hblanks
  | case3 s c tail hs hlt hclose hterm ih =>
      rw [hs] at hblanks
      exact (ih h (Text.skipBlanks_suffix tail)).trans ((List.suffix_cons c tail).trans hblanks)
  | case4 => cases h
  | case5 => cases h
  | case6 s c tail hs hlt hclose hterm slot behind hhead value after htake hafter more ih =>
      rw [hs] at hblanks
      have hvalue := Tokens.take_suffix behind
      rw [htake] at hvalue
      exact (ih h (Text.skipBlanks_suffix after)).trans
        (hvalue.trans ((head_suffix hhead).trans hblanks))

theorem scan_suffix (h : (scan s).outcome = .ok rest) : rest <:+ s := by
  unfold scan at h
  split at h
  · cases h
  next hbody => exact (scanEntries_suffix h).trans (Text.eat?_suffix hbody)

end Object

end Typings
