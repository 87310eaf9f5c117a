import Typings.Proofs.Bytewise.Span

/-!
# Cursors

A cursor goes through a text by byte positions and cuts out what it has passed.  Every position that
a scan comes to is the beginning of an end of the text, which is what the scan by characters has
still to read.
-/

namespace Typings.Bytewise

open Text

structure Cursor where
  text : List Char
  pos : Nat

def Cursor.left (c : Cursor) : List Char := (units c.text).drop c.pos

abbrev Scan := StateT Cursor Checked

namespace Scan

/-! ## Loops -/

section Loops

variable {α β : Type} (body : (β → Scan α) → β → Scan α)

/-- A loop with its rounds numbered.  The body makes one round of what the next ones come to. -/
def loop : Nat → β → Scan α
  | 0, _ => liftM (stuck : Checked α)
  | rounds + 1, b => body (loop rounds) b

def repeated (b : β) : Scan α := do loop body ((← get).left.length + 1) b

end Loops

/-! ## Moves -/

def peek : Scan (Option Char) := return (← get).left.head?

def peekAt (n : Nat) : Scan (Option Char) := return (← get).left[n]?

def sees (p : Char → Bool) : Scan Bool := return (← peek).any p

def seesTwo (c : Char) (p : Char → Bool) : Scan Bool :=
  return (← peek) == some c && (← peekAt 1).any p

def pos : Scan Nat := return (← get).pos

def isAtEnd : Scan Bool := do
  let c ← get
  return decide (byteLength c.text ≤ c.pos)

def step (n : Nat) : Scan Unit := modify fun c => { c with pos := c.pos + n }

def advance (n : Nat) : Scan Unit :=
  modify fun c => { c with pos := min (c.pos + n) (byteLength c.text) }

def rest : Scan (List Char) := do
  let c ← get
  slice c.text c.pos (byteLength c.text)

def sliceFrom (start : Nat) : Scan (List Char) := do
  let c ← get
  slice c.text start c.pos

def textFrom (start : Nat) : Scan (List Char) := do
  let c ← get
  slice c.text start (byteLength c.text)

def skipBlanks : Scan Unit := do
  step ((← get).left.takeWhile isBlank).length

def eat (c : Char) : Scan Bool := do
  match ← sees (· == c) with
  | false => return false
  | true =>
      step 1
      return true

def eatKeyword (keyword : String) : Scan Bool := do
  let ahead ← rest
  let n := byteLength keyword.toList
  match (stripLead? keyword.toList ahead).isSome && !(units ahead)[n]?.any isWord with
  | false => return false
  | true =>
      step n
      return true

def takeWord : Scan (Option (List Char)) := do
  let start ← pos
  step ((← get).left.takeWhile isWord).length
  match decide (start < (← pos)) with
  | false => return none
  | true => return some (← sliceFrom start)

def skipSign : Scan Unit := do
  match ← seesTwo '-' Char.isDigit with
  | false => return ()
  | true => step 1

def dottedRound (next : Unit → Scan Unit) (_ : Unit) : Scan Unit := do
  match ← seesTwo '.' isWord with
  | false => return ()
  | true =>
      step 1
      let _ ← takeWord
      next ()

def takeDotted : Scan Unit := repeated dottedRound ()

def takeName : Scan (Option (List Char)) := do
  let start ← pos
  skipSign
  match ← takeWord with
  | none => return none
  | some _ =>
      takeDotted
      return some (← sliceFrom start)

def fail {α : Type} (make : List Char → Error) (text : List Char) : Scan α :=
  liftM (raise make text)

def run {α : Type} (text : List Char) (x : Scan α) : Checked α := Prod.fst <$> x ⟨text, 0⟩

end Scan

/-! ## What a scan reads -/

def Cursor.facing (text s : List Char) : Cursor := ⟨text, offsetOf text s⟩

theorem Cursor.left_facing {text s : List Char} (h : s <:+ text) :
    (Cursor.facing text s).left = units s := by
  obtain ⟨before, rfl⟩ := h
  rw [Cursor.left, Cursor.facing, offsetOf_append, units_append, ← length_units, List.drop_left]

/--
In front of `s`, an end of the text, the scan comes to the outcome with all its slices in place, and
what is left then is an end of the text as well.
-/
def Reads {α : Type} (text s : List Char) (x : Scan α) (outcome : Except Error (α × List Char)) :
    Prop :=
  s <:+ text →
    x (.facing text s) = done (outcome.map fun r => (r.1, .facing text r.2)) ∧
      ∀ r, outcome = .ok r → r.2 <:+ text

/-- What holds of a round if it holds of the next ones holds of a loop with enough rounds. -/
theorem loop_induct {α β : Type} {body : (β → Scan α) → β → Scan α}
    {P : β → List Char → Scan α → Prop}
    (hbody : ∀ b s next, (∀ b s', s'.length < s.length → P b s' (next b)) → P b s (body next b))
    {rounds : Nat} {s : List Char} (hrounds : s.length < rounds) (b : β) :
    P b s (Scan.loop body rounds b) := by
  induction rounds generalizing s b with
  | zero => exact absurd hrounds (Nat.not_lt_zero _)
  | succ n ih => exact hbody b s _ fun b s' hlt => ih (by omega) b

namespace Reads

variable {α β : Type} {text s r : List Char} {a : α} {x : Scan α}

theorem of_suffix {outcome : Except Error (α × List Char)}
    (h : s <:+ text → Reads text s x outcome) : Reads text s x outcome := fun hs => h hs hs

protected theorem pure (a : α) : Reads text s (pure a) (.ok (a, s)) := fun hs =>
  ⟨rfl, fun _ h => Except.ok.inj h ▸ hs⟩

protected theorem bind {f : α → Scan β} {outcome : Except Error (β × List Char)}
    (hx : Reads text s x (.ok (a, r))) (hf : Reads text r (f a) outcome) :
    Reads text s (x >>= f) outcome := by
  intro hs
  obtain ⟨hrun, hr⟩ := hx hs
  obtain ⟨hrun', hr'⟩ := hf (hr _ rfl)
  refine ⟨?_, hr'⟩
  rw [← hrun']
  show (x (.facing text s) >>= fun p => f p.1 p.2) = _
  rw [hrun]
  rfl

theorem bind_error {f : α → Scan β} {e : Error} (hx : Reads text s x (.error e)) :
    Reads text s (x >>= f) (.error e) := by
  intro hs
  obtain ⟨hrun, -⟩ := hx hs
  refine ⟨?_, fun _ h => nomatch h⟩
  show (x (.facing text s) >>= fun p => f p.1 p.2) = _
  rw [hrun]
  rfl

theorem map {f : α → β} {outcome : Except Error (α × List Char)} (hx : Reads text s x outcome) :
    Reads text s (x >>= fun a => pure (f a)) (outcome.map fun r => (f r.1, r.2)) := by
  rcases outcome with e | ⟨a, r⟩
  · exact hx.bind_error
  · exact hx.bind (.pure (f a))

theorem then_pure {x : Scan Unit} {outcome : Except Error (List Char)} {b : β}
    (hx : Reads text s x (outcome.map fun rest => ((), rest))) :
    Reads text s (x >>= fun _ => pure b) (outcome.map fun rest => (b, rest)) := by
  rcases outcome with e | rest
  · exact hx.bind_error
  · exact hx.bind (.pure b)

theorem lift {y : Checked α} {outcome : Except Error α} (h : y = done outcome) :
    Reads text s (liftM y) (outcome.map fun a => (a, s)) := by
  subst h
  intro hs
  rcases outcome with e | a
  · exact ⟨rfl, fun _ h => nomatch h⟩
  · exact ⟨rfl, fun _ h => Except.ok.inj h ▸ hs⟩

theorem fail (make : List Char → Error) (t : List Char) :
    Reads text s (Scan.fail make t : Scan α) (.error (make t)) :=
  let outcome : Except Error α := .error (make t)
  lift (show raise make t = done outcome from raise_eq make t)

/-! ### Looking and moving -/

protected theorem get : Reads text s (get : Scan Cursor) (.ok (.facing text s, s)) := fun hs =>
  ⟨rfl, fun _ h => Except.ok.inj h ▸ hs⟩

theorem repeated {body : (β → Scan α) → β → Scan α}
    (outcome : β → List Char → Except Error (α × List Char))
    (hbody : ∀ b s next, (∀ b s', s'.length < s.length → Reads text s' (next b) (outcome b s')) →
      Reads text s (body next b) (outcome b s)) (b : β) :
    Reads text s (Scan.repeated body b) (outcome b s) :=
  of_suffix fun hs => Reads.get.bind (Cursor.left_facing hs ▸
    loop_induct (P := fun b s x => Reads text s x (outcome b s)) hbody
      (Nat.lt_succ_of_le (length_le_length_units s)) b)

protected theorem set (hr : r <:+ text) :
    Reads text s (set (Cursor.facing text r) : Scan Unit) (.ok ((), r)) := fun _ =>
  ⟨rfl, fun _ h => Except.ok.inj h ▸ hr⟩

protected theorem modify {f : Cursor → Cursor} (hr : r <:+ text)
    (h : f (.facing text s) = .facing text r) :
    Reads text s (modify f : Scan Unit) (.ok ((), r)) := fun _ =>
  ⟨congrArg (fun c => done (.ok ((), c))) h, fun _ h => Except.ok.inj h ▸ hr⟩

theorem peek : Reads text s Scan.peek (.ok ((units s).head?, s)) :=
  of_suffix fun hs => Cursor.left_facing hs ▸ Reads.get.bind (.pure _)

theorem peekAt (n : Nat) : Reads text s (Scan.peekAt n) (.ok ((units s)[n]?, s)) :=
  of_suffix fun hs => Cursor.left_facing hs ▸ Reads.get.bind (.pure _)

theorem sees {p : Char → Bool} (hp : AsciiOnly p) :
    Reads text s (Scan.sees p) (.ok (s.head?.any p, s)) :=
  head?_any_units hp s ▸ peek.bind (.pure _)

theorem sees_true {p : Char → Bool} (hp : AsciiOnly p) (h : s.head?.any p = true) :
    Reads text s (Scan.sees p) (.ok (true, s)) := h ▸ sees hp

theorem sees_false {p : Char → Bool} (hp : AsciiOnly p) (h : s.head?.any p = false) :
    Reads text s (Scan.sees p) (.ok (false, s)) := h ▸ sees hp

theorem seesTwo {c : Char} {p : Char → Bool} (hc : IsAscii c) (hp : AsciiOnly p) :
    Reads text s (Scan.seesTwo c p) (.ok (s.head? == some c && s.tail.head?.any p, s)) := by
  refine peek.bind ((peekAt 1).bind ?_)
  have hlook : ((units s).head? == some c && (units s)[1]?.any p) =
      (s.head? == some c && s.tail.head?.any p) := by
    by_cases hhead : s.head? = some c
    · obtain ⟨t, rfl⟩ := List.head?_eq_some_iff.1 hhead
      rw [units_cons_of_isAscii hc, List.getElem?_cons_succ, ← List.head?_eq_getElem?,
        head?_any_units hp]
      rfl
    · rw [beq_eq_false_iff_ne.2 hhead,
        beq_eq_false_iff_ne.2 (mt (head?_units_eq_some_iff hc s).1 hhead)]
      rfl
  rw [hlook]
  exact .pure _

theorem pos : Reads text s Scan.pos (.ok (offsetOf text s, s)) := Reads.get.bind (.pure _)

theorem isAtEnd : Reads text s Scan.isAtEnd (.ok (s.isEmpty, s)) := by
  refine of_suffix fun hs => ?_
  have hoffset := offsetOf_add_byteLength hs
  have hempty : decide (byteLength text ≤ offsetOf text s) = s.isEmpty := by
    rw [Bool.eq_iff_iff, decide_eq_true_eq, List.isEmpty_iff, ← byteLength_eq_zero_iff]
    omega
  exact hempty ▸ Reads.get.bind (.pure _)

section Moves

variable {w : List Char}

theorem offsetOf_append_add (h : w ++ r <:+ text) :
    offsetOf text (w ++ r) + byteLength w = offsetOf text r := by
  have hlong := offsetOf_add_byteLength h
  have hshort := offsetOf_add_byteLength ((List.suffix_append w r).trans h)
  rw [byteLength_append] at hlong
  omega

theorem step (w : List Char) : Reads text (w ++ r) (Scan.step (byteLength w)) (.ok ((), r)) :=
  of_suffix fun hs => .modify ((List.suffix_append w r).trans hs)
    (congrArg (Cursor.mk text) (offsetOf_append_add hs))

theorem step_one {c : Char} (hc : IsAscii c) :
    Reads text (c :: r) (Scan.step 1) (.ok ((), r)) := by
  have hstep : Reads text (c :: r) (Scan.step (byteLength [c])) (.ok ((), r)) := step [c]
  rwa [byteLength_cons, byteLength_nil, utf8Size_of_isAscii hc] at hstep

theorem advance (w : List Char) :
    Reads text (w ++ r) (Scan.advance (byteLength w)) (.ok ((), r)) := by
  refine of_suffix fun hs => .modify ((List.suffix_append w r).trans hs) ?_
  have hr := offsetOf_add_byteLength ((List.suffix_append w r).trans hs)
  refine congrArg (Cursor.mk text) ?_
  show min (offsetOf text (w ++ r) + byteLength w) (byteLength text) = offsetOf text r
  rw [offsetOf_append_add hs, Nat.min_eq_left (by omega)]

end Moves

/-! ### Cutting -/

theorem slice_eq {y : Checked α} (h : y = pure a) : Reads text s (liftM y) (.ok (a, s)) :=
  lift (show y = done (.ok a) from h)

theorem rest : Reads text s Scan.rest (.ok (s, s)) :=
  of_suffix fun hs => Reads.get.bind (slice_eq (slice_of_slice? (slice?_end hs)))

theorem sliceFrom {w : List Char} (h : w ++ s <:+ text) :
    Reads text s (Scan.sliceFrom (offsetOf text (w ++ s))) (.ok (w, s)) :=
  Reads.get.bind (slice_eq (slice_of_slice? (slice?_between h)))

theorem textFrom (h : r <:+ text) : Reads text s (Scan.textFrom (offsetOf text r)) (.ok (r, s)) :=
  Reads.get.bind (slice_eq (slice_of_slice? (slice?_end h)))

/-! ### Spans -/

section Spans

variable {t span behind : List Char}

theorem pair_error {e : Error} (h : Span.take? t = .error e) :
    Reads text s (liftM (pair t)) (.error e) :=
  lift (show pair t = done (.error e) by rw [pair_eq, h]; rfl)

theorem pair_none (h : Span.take? t = .ok none) : Reads text s (liftM (pair t)) (.ok (none, s)) :=
  lift (show pair t = done (.ok none) by rw [pair_eq, h]; rfl)

theorem pair_some (h : Span.take? t = .ok (some (span, behind))) :
    Reads text s (liftM (pair t)) (.ok (some span, s)) :=
  lift (show pair t = done (.ok (some span)) by rw [pair_eq, h]; rfl)

theorem inner (h : Span.take? t = .ok (some (span, behind))) :
    Reads text s (liftM (inner span)) (.ok (Span.inner span, s)) := slice_eq (inner_eq h)

theorem arguments (t : List Char) :
    Reads text s (liftM (arguments t)) ((Span.arguments t).map fun found => (found, s)) :=
  lift (arguments_eq t)

theorem advance_span (h : Span.take? s = .ok (some (span, behind))) :
    Reads text s (Scan.advance (byteLength span)) (.ok ((), behind)) :=
  Span.take?_append h ▸ advance span

end Spans

/-! ### Blanks, characters and keywords -/

theorem skipBlanks : Reads text s Scan.skipBlanks (.ok ((), Text.skipBlanks s)) := by
  refine of_suffix fun hs => Reads.get.bind ?_
  rw [Cursor.left_facing hs, takeWhile_units asciiOnly_isBlank.based, length_units]
  have hstep : Reads text (s.takeWhile isBlank ++ Text.skipBlanks s)
      (Scan.step (byteLength (s.takeWhile isBlank))) (.ok ((), Text.skipBlanks s)) := step _
  rwa [Text.skipBlanks, List.takeWhile_append_dropWhile] at hstep

theorem eat_some {c : Char} (hc : IsAscii c) (h : eat? c s = some r) :
    Reads text s (Scan.eat c) (.ok (true, r)) := by
  obtain rfl := eat?_eq_some_iff.1 h
  refine (sees (asciiOnly_beq hc)).bind ?_
  rw [List.head?_cons, Option.any_some, beq_self_eq_true]
  exact (step_one hc).bind (.pure true)

theorem head?_any_eq_false {c : Char} (h : ∀ t, s = c :: t → False) :
    s.head?.any (· == c) = false := by
  rcases s with _ | ⟨d, s⟩
  · rfl
  · rw [List.head?_cons, Option.any_some, beq_eq_false_iff_ne]
    rintro rfl
    exact h s rfl

theorem eat?_eq_none {c : Char} (h : ∀ t, s = c :: t → False) : eat? c s = none :=
  Option.eq_none_iff_forall_ne_some.2 fun t ht => h t (eat?_eq_some_iff.1 ht)

theorem eat_none {c : Char} (hc : IsAscii c) (h : eat? c s = none) :
    Reads text s (Scan.eat c) (.ok (false, s)) := by
  have hhead : s.head?.any (· == c) = false := head?_any_eq_false fun t ht => by
    rw [eat?_eq_some_iff.2 ht] at h
    cases h
  exact (sees_false (asciiOnly_beq hc) hhead).bind (.pure false)

theorem eat {c : Char} (hc : IsAscii c) :
    Reads text s (Scan.eat c) (.ok ((eat? c s).isSome, Text.skip c s)) := by
  rcases h : eat? c s with _ | r
  · rw [Text.skip, h]
    exact eat_none hc h
  · rw [Text.skip, h]
    exact eat_some hc h

theorem isSome_eatKeyword? (keyword : String) (s : List Char) :
    ((stripLead? keyword.toList s).isSome &&
      !(units s)[byteLength keyword.toList]?.any isWord) = (eatKeyword? keyword s).isSome := by
  rw [eatKeyword?]
  rcases h : stripLead? keyword.toList s with _ | r
  · rfl
  · rw [stripLead?_eq_some_iff.1 h, getElem?_units_byteLength, head?_any_units asciiOnly_isWord]
    cases hr : r.head?.any isWord <;> simp [Option.filter, startsWord, hr]

theorem eatKeyword_some {keyword : String} (h : eatKeyword? keyword s = some r) :
    Reads text s (Scan.eatKeyword keyword) (.ok (true, r)) := by
  refine rest.bind ?_
  have hsome := isSome_eatKeyword? keyword s
  rw [h, Option.isSome_some] at hsome
  dsimp only
  rw [hsome]
  simp only [eatKeyword?, Option.filter_eq_some_iff, stripLead?_eq_some_iff] at h
  rw [h.1]
  exact (step keyword.toList).bind (.pure true)

theorem eatKeyword_none {keyword : String} (h : eatKeyword? keyword s = none) :
    Reads text s (Scan.eatKeyword keyword) (.ok (false, s)) := by
  refine rest.bind ?_
  have hnone := isSome_eatKeyword? keyword s
  rw [h, Option.isSome_none] at hnone
  dsimp only
  rw [hnone]
  exact .pure false

/-! ### Words and names -/

theorem offsetOf_lt_iff {w : List Char} (h : w ++ r <:+ text) :
    offsetOf text (w ++ r) < offsetOf text r ↔ w ≠ [] := by
  rw [← offsetOf_append_add h, ne_eq, ← byteLength_eq_zero_iff]
  omega

theorem takeWhile_isWord_ne_nil_iff : s.takeWhile isWord ≠ [] ↔ startsWord s = true := by
  rcases s with _ | ⟨c, s⟩
  · simp [startsWord]
  · cases hc : isWord c <;> simp [startsWord, hc]

theorem takeWord_some {w : List Char} (h : takeWord? s = some (w, r)) :
    Reads text s Scan.takeWord (.ok (some w, r)) := by
  refine of_suffix fun hs => pos.bind (Reads.get.bind ?_)
  rw [Cursor.left_facing hs, takeWhile_units asciiOnly_isWord.based, length_units]
  obtain ⟨hword, hne⟩ : s.takeWhile isWord = w ∧ w ≠ [] := by
    unfold takeWord? at h
    split at h
    next hstart =>
      obtain ⟨rfl, -⟩ := Prod.mk.inj (Option.some.inj h)
      exact ⟨rfl, takeWhile_isWord_ne_nil_iff.2 hstart⟩
    · cases h
  obtain rfl := takeWord?_append h
  rw [hword]
  refine (step w).bind (pos.bind ?_)
  rw [decide_eq_true ((offsetOf_lt_iff hs).2 hne)]
  exact (sliceFrom hs).bind (.pure _)

theorem startsWord_of_takeWord?_none (h : takeWord? s = none) : startsWord s = false := by
  unfold takeWord? at h
  split at h
  · cases h
  next hstart => exact Bool.eq_false_iff.2 hstart

theorem takeWord_none (h : takeWord? s = none) :
    Reads text s Scan.takeWord (.ok (none, s)) := by
  refine of_suffix fun hs => pos.bind (Reads.get.bind ?_)
  have hword : s.takeWhile isWord = [] := by
    have hstart := startsWord_of_takeWord?_none h
    rw [← Bool.not_eq_true, ← takeWhile_isWord_ne_nil_iff] at hstart
    exact Classical.not_not.1 hstart
  rw [Cursor.left_facing hs, takeWhile_units asciiOnly_isWord.based, hword]
  refine (step []).bind (pos.bind ?_)
  rw [decide_eq_false (Nat.lt_irrefl _)]
  exact .pure none

theorem nameTail_append_of_isWord {w : List Char} (hw : ∀ c ∈ w, isWord c = true)
    (s : List Char) : nameTail (w ++ s) = (w ++ (nameTail s).1, (nameTail s).2) := by
  induction w with
  | nil => rfl
  | cons c w ih =>
      rw [List.cons_append, nameTail, hw c List.mem_cons_self,
        ih fun d hd => hw d (List.mem_cons_of_mem c hd)]
      rfl

theorem nameTail_word (s : List Char) :
    nameTail s =
      (s.takeWhile isWord ++ (nameTail (s.dropWhile isWord)).1,
        (nameTail (s.dropWhile isWord)).2) := by
  rw [← nameTail_append_of_isWord fun c hc => List.all_eq_true.1 List.all_takeWhile c hc,
    List.takeWhile_append_dropWhile]

theorem takeWord_eq (h : startsWord s = true) :
    takeWord? s = some (s.takeWhile isWord, s.dropWhile isWord) := if_pos h

def behindDots (s : List Char) : List Char := if startsWord s then s else (nameTail s).2

theorem behindDots_cons {c : Char} {t : List Char} (hdot : (c == '.' && startsWord t) = false) :
    behindDots (c :: t) = c :: t := by
  cases hword : isWord c
  · have hstart : startsWord (c :: t) = false := hword
    rw [behindDots, hstart, nameTail, hword, hdot]
    rfl
  · exact if_pos hword

theorem behindDots_dot {t : List Char} (hstart : startsWord t = true) :
    behindDots ('.' :: t) = behindDots (t.dropWhile isWord) := by
  have hdot : startsWord ('.' :: t) = false := rfl
  rw [behindDots, behindDots, hdot, startsWord_dropWhile, nameTail, hstart, nameTail_word t]
  rfl

theorem takeDotted : Reads text s Scan.takeDotted (.ok ((), behindDots s)) := by
  refine repeated (fun _ s => .ok ((), behindDots s)) (fun _ s next ih => ?_) ()
  refine (seesTwo (by decide) asciiOnly_isWord).bind ?_
  rcases s with _ | ⟨c, t⟩
  · exact .pure ()
  have hflag : ((c :: t).head? == some '.' && (c :: t).tail.head?.any isWord) =
      (c == '.' && startsWord t) := rfl
  rw [hflag]
  cases hdot : c == '.' && startsWord t
  · rw [behindDots_cons hdot]
    exact .pure ()
  · obtain ⟨hc, hstart⟩ := Bool.and_eq_true_iff.1 hdot
    obtain rfl := eq_of_beq hc
    rw [behindDots_dot hstart]
    exact (step_one (by decide)).bind ((takeWord_some (takeWord_eq hstart)).bind
      (ih () _ (Nat.lt_succ_of_le (List.dropWhile_suffix isWord).length_le)))

theorem skipSign_digit {digits : List Char} (h : startsDigit digits = true) :
    Reads text ('-' :: digits) Scan.skipSign (.ok ((), digits)) := by
  refine (seesTwo (by decide) asciiOnly_isDigit).bind ?_
  have hflag : (('-' :: digits).head? == some '-' &&
      ('-' :: digits).tail.head?.any Char.isDigit) = true := h
  rw [hflag]
  exact step_one (by decide)

theorem skipSign_none (h : ∀ digits, s = '-' :: digits → startsDigit digits = false) :
    Reads text s Scan.skipSign (.ok ((), s)) := by
  refine (seesTwo (by decide) asciiOnly_isDigit).bind ?_
  have hflag : (s.head? == some '-' && s.tail.head?.any Char.isDigit) = false := by
    rcases s with _ | ⟨c, t⟩
    · rfl
    · by_cases hc : c = '-'
      · subst hc
        exact h t rfl
      · simp [hc]
  rw [hflag]
  exact .pure ()

theorem startsWord_of_startsDigit (h : startsDigit s = true) : startsWord s = true := by
  rcases s with _ | ⟨c, s⟩
  · cases h
  · have hdigit : c.isDigit = true := h
    simp [startsWord, isWord, Char.isAlphanum, hdigit]

theorem takeName_behind (sign : List Char) (hstart : startsWord s = true)
    (hsuffix : sign ++ s <:+ text) :
    Reads text s
      (do
        match ← Scan.takeWord with
        | none => return none
        | some _ =>
            Scan.takeDotted
            return some (← Scan.sliceFrom (offsetOf text (sign ++ s))))
      (.ok (some (sign ++ (nameTail s).1), (nameTail s).2)) := by
  refine (takeWord_some (takeWord_eq hstart)).bind ?_
  refine takeDotted.bind ?_
  have hrest : behindDots (s.dropWhile isWord) = (nameTail s).2 := by
    rw [behindDots, startsWord_dropWhile, nameTail_word s]
    rfl
  have hparts : sign ++ s = (sign ++ (nameTail s).1) ++ (nameTail s).2 := by
    rw [List.append_assoc, nameTail_append]
  rw [hrest, hparts]
  exact (sliceFrom (hparts ▸ hsuffix)).bind (.pure _)

theorem takeName_some {name : List Char} (h : takeName? s = some (name, r)) :
    Reads text s Scan.takeName (.ok (some name, r)) := by
  refine of_suffix fun hs => pos.bind ?_
  rw [takeName?_eq] at h
  rcases heat : eat? '-' s with _ | digits
  · rw [heat] at h
    dsimp only at h
    split at h
    next hstart =>
      have hname := Option.some.inj h
      have hsign : ∀ digits, s = '-' :: digits → startsDigit digits = false := fun digits hd => by
        rw [eat?_eq_some_iff.2 hd] at heat
        cases heat
      have hbehind := takeName_behind [] hstart hs
      rw [hname] at hbehind
      exact (skipSign_none hsign).bind hbehind
    · cases h
  · rw [heat] at h
    obtain rfl := eat?_eq_some_iff.1 heat
    dsimp only at h
    split at h
    next hdigit =>
      obtain ⟨rfl, rfl⟩ := Prod.mk.inj (Option.some.inj h)
      have hstart := startsWord_of_startsDigit hdigit
      exact (skipSign_digit hdigit).bind (takeName_behind ['-'] hstart hs)
    · cases h

theorem takeName_none (h : takeName? s = none) :
    Reads text s Scan.takeName (.ok (none, s)) := by
  rw [takeName?_eq] at h
  have hsign : ∀ digits, s = '-' :: digits → startsDigit digits = false := by
    rintro digits rfl
    rw [eat?_eq_some_iff.2 rfl] at h
    dsimp only at h
    split at h
    · cases h
    next hdigit => exact Bool.eq_false_iff.2 hdigit
  have hword : takeWord? s = none := by
    refine if_neg fun hstart => ?_
    rcases heat : eat? '-' s with _ | digits
    · rw [heat] at h
      dsimp only at h
      rw [if_pos hstart] at h
      cases h
    · obtain rfl := eat?_eq_some_iff.1 heat
      cases hstart
  exact pos.bind ((skipSign_none hsign).bind ((takeWord_none hword).bind (.pure none)))

end Reads

/-! ## What a scan yields -/

/-- As `Reads`, but for where the scan stops. -/
def Yields {α : Type} (text s : List Char) (x : Scan α) (outcome : Except Error α) : Prop :=
  ∃ read, Reads text s x read ∧ read.map Prod.fst = outcome

theorem Reads.yields {α β : Type} {text s r : List Char} {a : α} {x : Scan α} {f : α → Scan β}
    {outcome : Except Error β} (hx : Reads text s x (.ok (a, r)))
    (hf : Yields text r (f a) outcome) : Yields text s (x >>= f) outcome := by
  obtain ⟨read, hf, hread⟩ := hf
  exact ⟨read, hx.bind hf, hread⟩

namespace Yields

variable {α β : Type} {text s r : List Char} {a : α} {x : Scan α}

theorem of_reads {read : Except Error (α × List Char)} (h : Reads text s x read) :
    Yields text s x (read.map Prod.fst) := ⟨read, h, rfl⟩

protected theorem pure (a : α) : Yields text s (pure a) (.ok a) := of_reads (.pure a)

theorem fail (make : List Char → Error) (t : List Char) :
    Yields text s (Scan.fail make t : Scan α) (.error (make t)) := of_reads (.fail make t)

theorem bind {f : α → Scan β} {outcome : Except Error β} (hx : Yields text s x (.ok a))
    (hf : ∀ r, Yields text r (f a) outcome) : Yields text s (x >>= f) outcome := by
  obtain ⟨_ | ⟨b, r⟩, hx, hread⟩ := hx
  · cases hread
  · obtain rfl : b = a := Except.ok.inj hread
    obtain ⟨read, hf, hread⟩ := hf r
    exact ⟨read, hx.bind hf, hread⟩

theorem of_suffix {outcome : Except Error α} (h : s <:+ text → Yields text s x outcome) :
    Yields text s x outcome := by
  by_cases hs : s <:+ text
  · exact h hs
  · exact ⟨outcome.map fun a => (a, s), fun hs' => absurd hs' hs, by cases outcome <;> rfl⟩

theorem repeated {body : (β → Scan α) → β → Scan α} (outcome : β → List Char → Except Error α)
    (hbody : ∀ b s next, (∀ b s', s'.length < s.length → Yields text s' (next b) (outcome b s')) →
      Yields text s (body next b) (outcome b s)) (b : β) :
    Yields text s (Scan.repeated body b) (outcome b s) :=
  of_suffix fun hs => Reads.get.yields (Cursor.left_facing hs ▸
    loop_induct (P := fun b s x => Yields text s x (outcome b s)) hbody
      (Nat.lt_succ_of_le (length_le_length_units s)) b)

theorem map {f : α → β} {outcome : Except Error α} (hx : Yields text s x outcome) :
    Yields text s (x >>= fun a => pure (f a)) (outcome.map f) := by
  obtain ⟨_ | ⟨b, r⟩, hx, rfl⟩ := hx
  · exact ⟨_, hx.bind_error, rfl⟩
  · exact ⟨_, hx.bind (.pure (f b)), rfl⟩

theorem run {outcome : Except Error α} (h : Yields text text x outcome) :
    Scan.run text x = done outcome := by
  obtain ⟨read, hread, rfl⟩ := h
  have hfacing : Cursor.facing text text = ⟨text, 0⟩ :=
    congrArg (Cursor.mk text) (offsetOf_self text)
  rw [Scan.run, ← hfacing, (hread (List.suffix_refl text)).1, map_done]
  rcases read with e | r <;> rfl

end Yields

end Typings.Bytewise
