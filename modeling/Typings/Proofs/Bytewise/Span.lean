import Typings.Proofs.Brackets
import Typings.Proofs.Bytewise.Bytes
import Typings.Proofs.Scans

/-!
# Spans by bytes

Spans are found byte by byte and cut out of the text at the positions found.  An error quotes the
text at hand, cut off at a character.
-/

namespace Typings.Bytewise

open Text

/--
The outcome of a computation that cuts texts.  There is none if an end of a slice is out of place,
or if a loop goes on after its last round.
-/
abbrev Checked := ExceptT Error Option

def slice (text : List Char) (start stop : Nat) : Checked (List Char) :=
  ExceptT.lift (slice? text start stop)

def stuck {α : Type} : Checked α := ExceptT.mk none

/-! ## Excerpts -/

def excerpt (text : List Char) : Checked (List Char) := do
  let text := trim text
  if (text.drop maxExcerpt).isEmpty then return text
  else return (← slice text 0 (byteLength (text.take maxExcerpt))) ++ ['.', '.', '.']

def raise {α : Type} (make : List Char → Error) (text : List Char) : Checked α := do
  let _ ← excerpt text
  throw (make text)

/-! ## Spans -/

def pair (text : List Char) : Checked (Option (List Char)) :=
  match units text with
  | [] => return none
  | opening :: body =>
      match Span.closer? opening with
      | none => return none
      | some closing =>
          match Span.takeBody? opening closing body with
          | some (span, _) => some <$> slice text 0 span.length
          | none => raise (.unbalanced opening closing) text

def inner (span : List Char) : Checked (List Char) :=
  if byteLength span < 2 then return [] else slice span 1 (byteLength span - 1)

def splitFrom (text : List Char) : Nat → Nat → Nat → Checked (List (List Char))
  | 0, _, _ => stuck
  | rounds + 1, start, index =>
      match (units text)[index]? with
      | none => return [trim (← slice text start (byteLength text))]
      | some b =>
          if b == ',' then do
            let argument ← slice text start index
            return trim argument :: (← splitFrom text rounds (index + 1) (index + 1))
          else if Span.isOpener b then do
            let span ← pair (← slice text index (byteLength text))
            splitFrom text rounds start (index + (span.map byteLength).getD 1)
          else splitFrom text rounds start (index + 1)

def arguments (text : List Char) : Checked (List (List Char)) := do
  match ← splitFrom text (byteLength text + 1) 0 0 with
  | [[]] => return []
  | all => return all

/-! ## No slice is out of place -/

theorem slice_of_slice? {text inside : List Char} {start stop : Nat}
    (h : slice? text start stop = some inside) : slice text start stop = pure inside := by
  rw [slice, h]
  rfl

theorem excerpt_eq (text : List Char) : excerpt text = pure (Error.excerpt text) := by
  have hslice := slice_of_slice?
    (slice?_front ((trim text).take maxExcerpt) ((trim text).drop maxExcerpt))
  rw [List.take_append_drop] at hslice
  simp only [excerpt, Error.excerpt, hslice, List.isEmpty_iff, List.drop_eq_nil_iff]
  split <;> rfl

theorem raise_eq {α : Type} (make : List Char → Error) (text : List Char) :
    (raise make text : Checked α) = throw (make text) := by
  rw [raise, excerpt_eq]
  rfl

theorem asciiOnly_isOpener : AsciiOnly Span.isOpener := by
  intro c h
  obtain ⟨d, hd⟩ := Option.isSome_iff_exists.1 h
  unfold Span.closer? at hd
  split at hd
  all_goals first | decide | cases hd

theorem asciiOnly_isQuote : AsciiOnly Span.isQuote :=
  (asciiOnly_beq (by decide)).or (asciiOnly_beq (by decide))

theorem isAscii_of_closer? {c d : Char} (h : Span.closer? c = some d) : IsAscii c ∧ IsAscii d := by
  refine ⟨asciiOnly_isOpener c (Option.isSome_iff_exists.2 ⟨d, h⟩), ?_⟩
  unfold Span.closer? at h
  split at h
  all_goals cases h; try decide

/-! ### Spans are found at the same characters -/

theorem takeBracketed?_plain {opening closing c : Char} (hopening : c ≠ opening)
    (hclosing : c ≠ closing) (depth : Nat) (s : List Char) :
    Span.takeBracketed? opening closing depth (c :: s) =
      (Span.takeBracketed? opening closing depth s).map fun r => (c :: r.1, r.2) := by
  cases depth <;> simp [Span.takeBracketed?, hopening, hclosing]

section Runs

variable {us : List Char} (hus : ∀ u ∈ us, ¬ IsAscii u) (s : List Char)

include hus

theorem takeQuoted?_append_of_not_isAscii {quote : Char} (hquote : IsAscii quote) (hne : us ≠ [])
    (before : Char) : ∃ last, ¬ IsAscii last ∧
      Span.takeQuoted? quote before (us ++ s) =
        (Span.takeQuoted? quote last s).map fun r => (us ++ r.1, r.2) := by
  induction us generalizing before with
  | nil => exact absurd rfl hne
  | cons u us ih =>
      have hu := hus u List.mem_cons_self
      have hstep : Span.takeQuoted? quote before (u :: us ++ s) =
          (Span.takeQuoted? quote u (us ++ s)).map fun r => (u :: r.1, r.2) := by
        simp [Span.takeQuoted?, ne_of_isAscii hquote hu]
      rw [hstep]
      rcases us with _ | ⟨v, us⟩
      · exact ⟨u, hu, rfl⟩
      · obtain ⟨last, hlast, hmore⟩ :=
          ih (fun w hw => hus w (List.mem_cons_of_mem u hw)) (List.cons_ne_nil v us) u
        refine ⟨last, hlast, ?_⟩
        rw [hmore, Option.map_map]
        rfl

theorem takeBracketed?_append_of_not_isAscii {opening closing : Char} (hopening : IsAscii opening)
    (hclosing : IsAscii closing) (depth : Nat) :
    Span.takeBracketed? opening closing depth (us ++ s) =
      (Span.takeBracketed? opening closing depth s).map fun r => (us ++ r.1, r.2) := by
  induction us with
  | nil => simp
  | cons u us ih =>
      have hu := hus u List.mem_cons_self
      rw [List.cons_append, takeBracketed?_plain (ne_of_isAscii hopening hu)
        (ne_of_isAscii hclosing hu), ih fun w hw => hus w (List.mem_cons_of_mem u hw),
        Option.map_map]
      rfl

end Runs

def unitsOfCut (cut : List Char × List Char) : List Char × List Char := (units cut.1, units cut.2)

theorem map_cons_unitsOfCut (c : Char) (x : Option (List Char × List Char)) :
    (x.map fun r => (c :: r.1, r.2)).map unitsOfCut =
      (x.map unitsOfCut).map fun r => (units [c] ++ r.1, r.2) := by
  rw [Option.map_map, Option.map_map]
  refine congrArg (Option.map · x) (funext fun r => ?_)
  rw [Function.comp_apply, Function.comp_apply, unitsOfCut, unitsOfCut, ← units_append]
  rfl

theorem takeQuoted?_units {quote before before' : Char} (hquote : IsAscii quote)
    (hsame : before = '\\' ↔ before' = '\\') (s : List Char) :
    Span.takeQuoted? quote before' (units s) =
      (Span.takeQuoted? quote before s).map unitsOfCut := by
  induction s generalizing before before' with
  | nil => rfl
  | cons c s ih =>
      have hescape : (before' != '\\') = (before != '\\') := by
        rw [Bool.eq_iff_iff]
        simp [hsame]
      by_cases hc : IsAscii c
      · have hmore := map_cons_unitsOfCut c (Span.takeQuoted? quote c s)
        rw [← ih Iff.rfl, units_cons_of_isAscii hc] at hmore
        rw [units_cons_of_isAscii hc, Span.takeQuoted?, Span.takeQuoted?, hescape]
        split
        · rw [Option.map_some, unitsOfCut, units_cons_of_isAscii hc]
          rfl
        · exact hmore.symm
      · obtain ⟨u, us, hus, hunit, hunits⟩ := units_cons_of_not_isAscii hc s
        have hother : ∀ {d}, ¬ IsAscii d → d ≠ '\\' := fun hd => ne_of_isAscii (by decide) hd
        obtain ⟨last, hlast, hrun⟩ := takeQuoted?_append_of_not_isAscii hus (units s) hquote
          (List.cons_ne_nil u us) before'
        have hmore : Span.takeQuoted? quote last (units s) =
            (Span.takeQuoted? quote c s).map unitsOfCut := ih (by simp [hother hc, hother hlast])
        rw [hunits, hrun, hmore, ← hunit, ← map_cons_unitsOfCut, Span.takeQuoted?,
          if_neg (by simp [ne_of_isAscii hquote hc])]

theorem takeBracketed?_units {opening closing : Char} (hopening : IsAscii opening)
    (hclosing : IsAscii closing) (depth : Nat) (s : List Char) :
    Span.takeBracketed? opening closing depth (units s) =
      (Span.takeBracketed? opening closing depth s).map unitsOfCut := by
  induction s generalizing depth with
  | nil => cases depth <;> rfl
  | cons c s ih =>
      by_cases hc : IsAscii c
      · have hmore : ∀ depth,
            (Span.takeBracketed? opening closing depth (units s)).map (fun r => (c :: r.1, r.2)) =
              ((Span.takeBracketed? opening closing depth s).map fun r => (c :: r.1, r.2)).map
                unitsOfCut := by
          intro depth
          rw [map_cons_unitsOfCut, ih, units_cons_of_isAscii hc]
          rfl
        rw [units_cons_of_isAscii hc, Span.takeBracketed?.eq_def, Span.takeBracketed?.eq_def]
        dsimp only
        split
        · exact hmore _
        split
        · rcases depth with _ | depth
          · simp [unitsOfCut, units_cons_of_isAscii hc]
          · exact hmore _
        · exact hmore _
      · obtain ⟨u, us, hus, hunit, hunits⟩ := units_cons_of_not_isAscii hc s
        rw [hunits, takeBracketed?_append_of_not_isAscii hus _ hopening hclosing, ih,
          takeBracketed?_plain (ne_of_isAscii hopening hc) (ne_of_isAscii hclosing hc),
          map_cons_unitsOfCut, hunit]

theorem takeBody?_units {opening closing : Char} (h : Span.closer? opening = some closing)
    (body : List Char) :
    Span.takeBody? opening closing (units body) =
      (Span.takeBody? opening closing body).map unitsOfCut := by
  obtain ⟨hopening, hclosing⟩ := isAscii_of_closer? h
  have hcons := map_cons_unitsOfCut opening
  rw [units_cons_of_isAscii hopening, units_nil] at hcons
  unfold Span.takeBody?
  split
  · rw [takeQuoted?_units hopening Iff.rfl]
    exact (hcons _).symm
  · rw [takeBracketed?_units hopening hclosing]
    exact (hcons _).symm

theorem take?_of_closed {c : Char} (hopen : Span.isOpener c = false) (s : List Char) :
    Span.take? (c :: s) = .ok none := by
  rw [Span.isOpener, Option.isSome_eq_false_iff, Option.isNone_iff_eq_none] at hopen
  rw [Span.take?, hopen]

theorem closer?_eq_none {c : Char} (hc : ¬ IsAscii c) : Span.closer? c = none :=
  Option.not_isSome_iff_eq_none.1 fun h => hc (asciiOnly_isOpener c h)

/-! ## Outcomes -/

def done {α : Type} (outcome : Except Error α) : Checked α := ExceptT.mk (some outcome)

theorem map_done {α β : Type} (f : α → β) (x : Except Error α) :
    f <$> done x = done (x.map f) := by
  cases x <;> rfl

theorem done_ok_bind {α β : Type} (a : α) (f : α → Checked β) : (done (.ok a) >>= f) = f a := rfl

theorem bind_done {α β : Type} {f : α → Checked β} {g : α → Except Error β}
    (h : ∀ a, f a = done (g a)) (x : Except Error α) : done x >>= f = done (x >>= g) := by
  cases x with
  | error e => rfl
  | ok a => exact h a

theorem pair_eq (text : List Char) :
    pair text = done ((Span.take? text).map (Option.map Prod.fst)) := by
  rcases text with _ | ⟨opening, body⟩
  · rfl
  by_cases hc : IsAscii opening
  · unfold pair Span.take?
    rw [units_cons_of_isAscii hc]
    dsimp only
    rcases hclosing : Span.closer? opening with _ | closing
    · rfl
    dsimp only
    rw [takeBody?_units hclosing]
    rcases hbody : Span.takeBody? opening closing body with _ | ⟨span, rest⟩
    · rw [Option.map_none]
      exact raise_eq _ _
    · have hslice := slice_of_slice? (slice?_front span rest)
      rw [(Span.takeBody?_append hbody).2] at hslice
      simp only [Option.map_some, unitsOfCut, length_units, hslice]
      rfl
  · obtain ⟨u, us, hus, -, hunits⟩ := units_cons_of_not_isAscii hc body
    unfold pair Span.take?
    rw [hunits]
    simp only [List.cons_append, closer?_eq_none (hus u List.mem_cons_self), closer?_eq_none hc]
    rfl

theorem closes_of_takeQuoted? {quote before : Char} {s span rest : List Char}
    (h : Span.takeQuoted? quote before s = some (span, rest)) : ∃ body, span = body ++ [quote] := by
  induction s generalizing before span with
  | nil => cases h
  | cons c s ih =>
      rw [Span.takeQuoted?] at h
      split at h
      next hclose =>
        rw [Bool.and_eq_true, beq_iff_eq] at hclose
        obtain ⟨rfl, -⟩ := Prod.mk.inj (Option.some.inj h)
        exact ⟨[], by rw [hclose.1]; rfl⟩
      · obtain ⟨⟨span', rest'⟩, hspan, hcons⟩ := Option.map_eq_some_iff.1 h
        obtain ⟨rfl, rfl⟩ := Prod.mk.inj hcons
        obtain ⟨body, rfl⟩ := ih hspan
        exact ⟨c :: body, rfl⟩

theorem closes_of_takeBody? {opening closing : Char} {body span rest : List Char}
    (hclosing : Span.closer? opening = some closing)
    (h : Span.takeBody? opening closing body = some (span, rest)) :
    ∃ inside, span = opening :: (inside ++ [closing]) := by
  obtain ⟨⟨span', rest'⟩, hbody, hcons⟩ := Option.map_eq_some_iff.1 h
  obtain ⟨rfl, -⟩ := Prod.mk.inj hcons
  split at hbody
  next hquote =>
    have hsame : closing = opening := by
      rw [Span.isQuote, Bool.or_eq_true, beq_iff_eq, beq_iff_eq] at hquote
      rcases hquote with rfl | rfl <;> exact (Option.some.inj hclosing).symm
    obtain ⟨inside, rfl⟩ := closes_of_takeQuoted? hbody
    exact ⟨inside, by rw [hsame]⟩
  · obtain ⟨inside, rfl, -⟩ := Span.nesting?_of_takeBracketed? hbody
    exact ⟨inside, rfl⟩

theorem ends_of_take? {text span rest : List Char} (h : Span.take? text = .ok (some (span, rest))) :
    ∃ opening inside closing, span = opening :: (inside ++ [closing]) ∧
      IsAscii opening ∧ IsAscii closing := by
  unfold Span.take? at h
  split at h
  · cases h
  split at h
  · cases h
  next opening body _ closing hclosing =>
  split at h
  next found hbody =>
    obtain ⟨hopen, hclose⟩ := isAscii_of_closer? hclosing
    obtain rfl : found = (span, rest) := Option.some.inj (Except.ok.inj h)
    obtain ⟨inside, rfl⟩ := closes_of_takeBody? hclosing hbody
    exact ⟨opening, inside, closing, rfl, hopen, hclose⟩
  · cases h

theorem inner_eq {text span rest : List Char} (h : Span.take? text = .ok (some (span, rest))) :
    inner span = pure (Span.inner span) := by
  obtain ⟨opening, inside, closing, rfl, hopen, hclose⟩ := ends_of_take? h
  have hslice := slice_of_slice? (slice?_append [opening] inside [closing])
  have hlength : byteLength (opening :: (inside ++ [closing])) = 1 + byteLength inside + 1 := by
    simp only [byteLength_cons, byteLength_append, byteLength_nil, utf8Size_of_isAscii hopen,
      utf8Size_of_isAscii hclose]
    omega
  rw [byteLength_cons, byteLength_nil, utf8Size_of_isAscii hopen] at hslice
  rw [inner, if_neg (by omega), hlength, Nat.add_sub_cancel, Span.inner, List.tail_cons,
    List.dropLast_concat]
  exact hslice

/-! ## Arguments -/

def argumentsFrom (part s : List Char) : Except Error (List (List Char)) :=
  match Span.takeArgument s with
  | .error e => .error e
  | .ok (a, none) => .ok [trim (part ++ a)]
  | .ok (a, some rest) => (Span.pieces rest).map (trim (part ++ a) :: ·)

theorem argumentsFrom_nil (s : List Char) : argumentsFrom [] s = Span.pieces s := by
  rw [argumentsFrom, Span.pieces_eq]
  rfl

theorem argumentsFrom_comma (part s : List Char) :
    argumentsFrom part (',' :: s) = (argumentsFrom [] s).map (trim part :: ·) := by
  rw [argumentsFrom_nil, argumentsFrom, Span.takeArgument_comma]
  dsimp only
  rw [List.append_nil]

theorem argumentsFrom_error {c : Char} {s : List Char} {e : Error} (hc : c ≠ ',')
    (h : Span.take? (c :: s) = .error e) (part : List Char) :
    argumentsFrom part (c :: s) = .error e := by
  rw [argumentsFrom, Span.takeArgument_of_error hc h]

theorem argumentsFrom_span {c : Char} {s span rest : List Char} (hc : c ≠ ',')
    (h : Span.take? (c :: s) = .ok (some (span, rest))) (part : List Char) :
    argumentsFrom part (c :: s) = argumentsFrom (part ++ span) rest := by
  rw [argumentsFrom, argumentsFrom, Span.takeArgument_of_some hc h]
  rcases Span.takeArgument rest with e | ⟨a, _ | more⟩ <;> simp [Except.map]

theorem argumentsFrom_plain {c : Char} {s : List Char} (hc : c ≠ ',')
    (h : Span.take? (c :: s) = .ok none) (part : List Char) :
    argumentsFrom part (c :: s) = argumentsFrom (part ++ [c]) s := by
  rw [argumentsFrom, argumentsFrom, Span.takeArgument_of_none hc h]
  rcases Span.takeArgument s with e | ⟨a, _ | more⟩ <;> simp [Except.map]

section Steps

variable {text : List Char} {start index : Nat} {b : Char} (rounds : Nat)

theorem splitFrom_end {part : List Char} (hend : (units text)[index]? = none)
    (hpart : slice? text start (byteLength text) = some part) :
    splitFrom text (rounds + 1) start index = done (.ok [trim part]) := by
  rw [splitFrom, hend]
  dsimp only
  rw [slice_of_slice? hpart]
  rfl

theorem splitFrom_comma {part : List Char} (hb : (units text)[index]? = some ',')
    (hpart : slice? text start index = some part) :
    splitFrom text (rounds + 1) start index =
      (trim part :: ·) <$> splitFrom text rounds (index + 1) (index + 1) := by
  rw [splitFrom, hb]
  dsimp only
  rw [slice_of_slice? hpart]
  rfl

theorem splitFrom_opener {rest : List Char} (hb : (units text)[index]? = some b) (hcomma : b ≠ ',')
    (hopen : Span.isOpener b = true) (hrest : slice? text index (byteLength text) = some rest) :
    splitFrom text (rounds + 1) start index = (do
      let span ← done ((Span.take? rest).map (Option.map Prod.fst))
      splitFrom text rounds start (index + (span.map byteLength).getD 1)) := by
  rw [splitFrom, hb]
  dsimp only
  rw [if_neg (by simpa using hcomma), if_pos hopen, slice_of_slice? hrest, ← pair_eq]
  rfl

theorem splitFrom_plain (hb : (units text)[index]? = some b) (hcomma : b ≠ ',')
    (hopen : Span.isOpener b = false) :
    splitFrom text (rounds + 1) start index = splitFrom text rounds start (index + 1) := by
  rw [splitFrom, hb]
  simp [hcomma, hopen]

end Steps

/-! What has been seen of the text is `before` and `part`, with which the next argument begins. -/

section Seen

variable (before part : List Char)

theorem getElem?_units_seen (s : List Char) :
    (units (before ++ (part ++ s)))[byteLength (before ++ part)]? = (units s).head? := by
  rw [← List.append_assoc, getElem?_units_byteLength]

theorem slice?_seen (s : List Char) :
    slice? (before ++ (part ++ s)) (byteLength before) (byteLength (before ++ part)) =
      some part := by
  rw [byteLength_append]
  exact slice?_append before part s

theorem slice?_unseen (s : List Char) :
    slice? (before ++ (part ++ s)) (byteLength (before ++ part))
      (byteLength (before ++ (part ++ s))) = some s := by
  have hslice := slice?_append (before ++ part) s []
  rwa [List.append_nil, List.append_assoc, ← byteLength_append, List.append_assoc] at hslice

theorem splitFrom_skip {c : Char} (hcomma : c ≠ ',') (hopen : Span.isOpener c = false)
    (s : List Char) (rounds : Nat) :
    splitFrom (before ++ (part ++ c :: s)) (rounds + byteLength [c]) (byteLength before)
        (byteLength (before ++ part)) =
      splitFrom (before ++ (part ++ c :: s)) rounds (byteLength before)
        (byteLength (before ++ part) + byteLength [c]) := by
  by_cases hc : IsAscii c
  · have hbyte := getElem?_units_seen before part (c :: s)
    rw [units_cons_of_isAscii hc, List.head?_cons] at hbyte
    rw [byteLength_cons, byteLength_nil, utf8Size_of_isAscii hc]
    exact splitFrom_plain rounds hbyte hcomma hopen
  · rw [← List.append_assoc before part, ← byteLength_append]
    exact skip_units (f := fun r pos => splitFrom _ r _ pos) hc (before ++ part) s
      (fun r pos u hu hother => splitFrom_plain r hu (ne_of_isAscii (by decide) hother)
        (asciiOnly_isOpener.eq_false hother)) rounds

end Seen

/-- There is a round for each byte that is still to be seen, and one more. -/
theorem splitFrom_eq (before part s : List Char) {rounds : Nat} (hrounds : byteLength s < rounds) :
    splitFrom (before ++ (part ++ s)) rounds (byteLength before) (byteLength (before ++ part)) =
      done (argumentsFrom part s) := by
  induction hn : s.length using Nat.strongRecOn generalizing before part s rounds with
  | _ n ih =>
  subst hn
  obtain ⟨n, rfl⟩ := Nat.exists_eq_add_one_of_ne_zero (Nat.ne_zero_of_lt hrounds)
  have hbyte := getElem?_units_seen before part s
  have hmore : ∀ (lead more : List Char) (m : Nat), lead ++ more = s →
      more.length < s.length → byteLength more < m →
      splitFrom (before ++ (part ++ s)) m (byteLength before)
        (byteLength (before ++ part) + byteLength lead) =
          done (argumentsFrom (part ++ lead) more) := by
    rintro lead more m rfl hlt hm
    rw [← ih _ hlt before (part ++ lead) more hm rfl, List.append_assoc, ← byteLength_append,
      List.append_assoc]
  rcases s with _ | ⟨c, s⟩
  · have hpart : slice? (before ++ (part ++ [])) (byteLength before)
        (byteLength (before ++ (part ++ []))) = some part := by
      simpa using slice?_seen before part []
    rw [splitFrom_end n hbyte hpart, argumentsFrom, Span.takeArgument_nil]
    dsimp only
    rw [List.append_nil]
  have hsize : byteLength (c :: s) = byteLength [c] + byteLength s := byteLength_append [c] s
  have hpos : 0 < byteLength [c] := byteLength_pos (List.cons_ne_nil c [])
  by_cases hcomma : c = ','
  · subst hcomma
    rw [units_cons_of_isAscii (by decide), List.head?_cons] at hbyte
    have hnext := ih _ (Nat.lt_succ_self _) (before ++ part ++ [',']) [] s
      (show byteLength s < n by omega) rfl
    rw [List.append_nil, List.nil_append, List.append_assoc, List.singleton_append,
      List.append_assoc, byteLength_append] at hnext
    rw [splitFrom_comma n hbyte (slice?_seen before part (',' :: s)), argumentsFrom_comma,
      ← map_done, ← hnext]
    rfl
  rcases hopen : Span.isOpener c with _ | _
  · obtain ⟨m, hm⟩ : ∃ m, n + 1 = m + byteLength [c] :=
      ⟨n + 1 - byteLength [c], by omega⟩
    rw [hm, splitFrom_skip before part hcomma hopen,
      argumentsFrom_plain hcomma (take?_of_closed hopen s)]
    exact hmore [c] s m rfl (Nat.lt_succ_self _) (by omega)
  · rw [units_cons_of_isAscii (asciiOnly_isOpener c hopen), List.head?_cons] at hbyte
    rw [splitFrom_opener n hbyte hcomma hopen (slice?_unseen before part (c :: s))]
    rcases htake : Span.take? (c :: s) with e | _ | ⟨span, rest⟩
    · rw [argumentsFrom_error hcomma htake]
      rfl
    · exact absurd htake (Span.take?_ne_none (s := c :: s) hopen)
    · have hparts := Span.take?_append htake
      have hspan : 0 < byteLength span := by
        obtain ⟨opening, inside, closing, rfl, -⟩ := ends_of_take? htake
        exact byteLength_pos (List.cons_ne_nil _ _)
      rw [argumentsFrom_span hcomma htake]
      rw [← hparts, byteLength_append] at hrounds
      exact hmore span rest n hparts (Span.length_lt_of_take? htake) (by omega)

theorem arguments_eq (text : List Char) : arguments text = done (Span.arguments text) := by
  have hsplit := splitFrom_eq [] [] text (Nat.lt_succ_self _)
  simp only [List.nil_append, byteLength_nil, argumentsFrom_nil] at hsplit
  rw [arguments, hsplit, Span.arguments]
  rcases Span.pieces text with e | ⟨_ | ⟨a, _ | ⟨b, more⟩⟩⟩
  · rfl
  · rfl
  · cases a <;> rfl
  · cases a <;> rfl

end Typings.Bytewise
