import Typings.Proofs.Bytewise.Cursor

/-!
# Levels and objects by bytes

A level is split into tokens, and the body of an object into properties, with one cursor that moves
on from one to the next.
-/

namespace Typings.Bytewise

open Text

namespace Scan

/-! ## Levels -/

def spansRound (next : Unit → Scan Unit) (_ : Unit) : Scan Unit := do
  match ← pair (← rest) with
  | none => return ()
  | some span =>
      advance (byteLength span)
      next ()

def takeSpans : Scan Unit := repeated spansRound ()

def endsToken (b : Char) : Bool :=
  isBlank b || Tokens.isTerminator b || (Tokens.joiner? b).isSome || Tokens.isCloser b

def skipToken (start : Nat) (b : Char) : Scan Unit := do
  match ← seesTwo '=' (· == '>') with
  | true => advance 2
  | false =>
      match Span.isOpener b with
      | true => takeSpans
      | false =>
          match isWord b || b == '-' with
          | false => fail .malformedDeclaration (← textFrom start)
          | true =>
              match ← takeName with
              | none => fail .malformedDeclaration (← textFrom start)
              | some _ =>
                  takeSpans
                  match (← peek).all endsToken with
                  | false => fail .malformedDeclaration (← textFrom start)
                  | true => return ()

def levelRound (start : Nat) (next : Option Joiner → Scan Tokens) (joiner : Option Joiner) :
    Scan Tokens := do
  skipBlanks
  match ← peek with
  | none => return ⟨[], joiner⟩
  | some b =>
      match Tokens.isTerminator b with
      | true =>
          advance 1
          return ⟨[], joiner⟩
      | false =>
          match Tokens.isCloser b with
          | true => return ⟨[], joiner⟩
          | false =>
              match Tokens.joiner? b with
              | some found =>
                  match joiner.all (· == found) with
                  | true =>
                      advance 1
                      next (some found)
                  | false => fail .mixedDelimiters (← textFrom start)
              | none =>
                  let begins ← pos
                  skipToken start b
                  let item ← sliceFrom begins
                  let more ← next joiner
                  return { more with items := item :: more.items }

def takeLevel : Scan Tokens := do repeated (levelRound (← pos)) none

/-! ## Heads of properties -/

def expectColon (start : Nat) : Scan Unit := do
  skipBlanks
  match ← eat ':' with
  | false => fail .malformedProperty (← textFrom start)
  | true => return ()

def skipPair : Scan Unit := do
  match ← pair (← rest) with
  | none => fail .malformedProperty (← rest)
  | some span => advance (byteLength span)

def eatReadonly : Scan Unit := do
  let before ← get
  match ← eatKeyword "readonly" with
  | false => return ()
  | true =>
      skipBlanks
      match ← sees (fun c => c == ':' || c == '?' || c == '(' || c == '<') with
      | true => set before
      | false => return ()

def skipParameters (start : Nat) : Scan Unit := do
  match ← sees (· == '<') with
  | true =>
      skipPair
      match ← sees (· == '(') with
      | true => skipPair
      | false => fail .malformedProperty (← textFrom start)
  | false =>
      match ← sees (· == '(') with
      | true => skipPair
      | false => return ()

def dynamicHead : Scan Object.Slot := do
  let start ← pos
  skipPair
  let _ ← eat '?'
  expectColon start
  return .dynamic

def quotedHead : Scan Object.Slot := do
  let start ← pos
  match ← pair (← rest) with
  | none => fail .malformedProperty (← rest)
  | some span =>
      let key ← inner span
      skipPair
      let optional ← eat '?'
      expectColon start
      return .named (String.ofList (Span.unescape key)) optional

def namedHead : Scan Object.Slot := do
  let start ← pos
  eatReadonly
  match ← takeWord with
  | none => fail .malformedProperty (← textFrom start)
  | some key =>
      let optional ← eat '?'
      skipParameters start
      expectColon start
      return .named (String.ofList key) optional

def propertyHead : Scan Object.Slot := do
  match ← sees (· == '[') with
  | true => dynamicHead
  | false =>
      match ← sees Span.isQuote with
      | true => quotedHead
      | false =>
          match ← sees isWord with
          | true => namedHead
          | false => fail .malformedProperty (← rest)

/-! ## Bodies of objects -/

def attempt {α : Type} (x : Scan α) : Scan (Except Error α) :=
  tryCatch (.ok <$> x) fun e => pure (.error e)

inductive Item where
  | closing
  | separator
  | property (slot : Object.Slot)

def takeItem (start : Nat) : Scan Item := do
  skipBlanks
  match ← peek with
  | none => fail (.unbalanced '\x7b' '\x7d') (← textFrom start)
  | some b =>
      match b == '\x7d' with
      | true =>
          advance 1
          return .closing
      | false =>
          match Tokens.isTerminator b with
          | true =>
              advance 1
              return .separator
          | false => return .property (← propertyHead)

def bodyRound (start : Nat) (next : Unit → Scan Object.Scan) (_ : Unit) : Scan Object.Scan := do
  match ← attempt (takeItem start) with
  | .error e => return ⟨[], .error e⟩
  | .ok .closing => return ⟨[], .ok (← rest)⟩
  | .ok .separator => next ()
  | .ok (.property slot) =>
      match ← attempt takeLevel with
      | .error e => return ⟨[⟨slot, .error e⟩], .error e⟩
      | .ok value =>
          let more ← next ()
          return { more with entries := ⟨slot, .ok value⟩ :: more.entries }

def entries (start : Nat) : Scan Object.Scan := repeated (bodyRound start) ()

def object : Scan Object.Scan := do
  let start ← pos
  match ← eat '\x7b' with
  | true => entries start
  | false =>
      let quoted ← rest
      let _ ← excerpt quoted
      return ⟨[], .error (.malformedDeclaration quoted)⟩

end Scan

/-! ## What a level reads -/

section Levels

variable {text s r start : List Char}

theorem asciiOnly_isTerminator : AsciiOnly Tokens.isTerminator :=
  (asciiOnly_beq (by decide)).or (asciiOnly_beq (by decide))

theorem asciiOnly_isCloser : AsciiOnly Tokens.isCloser :=
  (((asciiOnly_beq (by decide)).or (asciiOnly_beq (by decide))).or
    (asciiOnly_beq (by decide))).or (asciiOnly_beq (by decide))

theorem asciiOnly_joiner? : AsciiOnly fun c => (Tokens.joiner? c).isSome := by
  intro c h
  dsimp only [Tokens.joiner?] at h
  split at h
  · decide
  · decide
  · cases h

theorem asciiOnly_endsToken : AsciiOnly Scan.endsToken :=
  ((asciiOnly_isBlank.or asciiOnly_isTerminator).or asciiOnly_joiner?).or asciiOnly_isCloser

theorem exists_first_byte (c : Char) (tail : List Char) :
    ∃ b, (units (c :: tail)).head? = some b := by
  by_cases hc : IsAscii c
  · exact ⟨c, by rw [units_cons_of_isAscii hc]; rfl⟩
  · obtain ⟨u, us, -, -, hunits⟩ := units_cons_of_not_isAscii hc tail
    exact ⟨u, by rw [hunits]; rfl⟩

theorem first_byte {b c : Char} {tail : List Char} (hb : (units (c :: tail)).head? = some b)
    {p : Char → Bool} (hp : AsciiOnly p) : p b = p c := by
  have hany := head?_any_units hp (c :: tail)
  rwa [hb] at hany

theorem head?_all_units {p : Char → Bool} (hp : AsciiOnly p) (s : List Char) :
    (units s).head?.all p = s.head?.all p := by
  rcases s with _ | ⟨c, s⟩
  · rfl
  · obtain ⟨b, hb⟩ := exists_first_byte c s
    rw [hb]
    exact first_byte hb hp

theorem first_joiner? {b c : Char} {tail : List Char} (hb : (units (c :: tail)).head? = some b) :
    Tokens.joiner? b = Tokens.joiner? c := by
  by_cases hc : IsAscii c
  · rw [units_cons_of_isAscii hc, List.head?_cons, Option.some.injEq] at hb
    rw [hb]
  · have hsame : (Tokens.joiner? b).isSome = (Tokens.joiner? c).isSome :=
      first_byte hb asciiOnly_joiner?
    have hnone : (Tokens.joiner? c).isSome = false := asciiOnly_joiner?.eq_false hc
    rw [hnone] at hsame
    rw [Option.isSome_eq_false_iff, Option.isNone_iff_eq_none] at hsame hnone
    rw [hsame, hnone]

namespace Reads

def passed (spans : Tokens.Spans) : Except Error (Unit × List Char) :=
  match spans.fault with
  | some e => .error e
  | none => .ok ((), spans.rest)

theorem takeSpans : Reads text s Scan.takeSpans (passed (Tokens.takeSpans s)) := by
  refine repeated (fun _ s => passed (Tokens.takeSpans s)) (fun _ s next ih => ?_) ()
  refine rest.bind ?_
  rcases htake : Span.take? s with e | _ | ⟨span, behind⟩
  · rw [Tokens.takeSpans_of_error htake]
    exact (pair_error htake).bind_error
  · rw [Tokens.takeSpans_of_none htake]
    exact (pair_none htake).bind (.pure ())
  · rw [Tokens.takeSpans_of_some htake]
    exact (pair_some htake).bind ((advance_span htake).bind
      (ih () behind (Span.length_lt_of_take? htake)))

def skipped (start : List Char) : Tokens.Sight → Except Error (Unit × List Char)
  | .foreign _ => .error (.malformedDeclaration start)
  | .unclosed e _ => .error e
  | found => .ok ((), found.rest)

theorem look_cons (c : Char) (tail : List Char) :
    Tokens.look (c :: tail) =
      if (c :: tail).head? == some '=' && (c :: tail).tail.head?.any (· == '>') then
        .token ['=', '>'] tail.tail
      else Tokens.lookAt c tail := by
  split
  next harrow =>
    rw [Bool.and_eq_true, beq_iff_eq, head?_any_beq, beq_iff_eq] at harrow
    obtain ⟨rest, rfl⟩ := List.head?_eq_some_iff.1 harrow.2
    obtain rfl : c = '=' := Option.some.inj harrow.1
    rfl
  next harrow =>
    rw [Tokens.look.eq_3]
    rintro rest rfl rfl
    exact harrow rfl

theorem takeName?_eq_none {c : Char} (h : (isWord c || c == '-') = false) (tail : List Char) :
    takeName? (c :: tail) = none := by
  obtain ⟨hword, hsign⟩ := Bool.or_eq_false_iff.1 h
  have heat : eat? '-' (c :: tail) = none := by
    rw [eat?, if_neg (Bool.eq_false_iff.1 hsign)]
  have hstart : startsWord (c :: tail) = false := hword
  rw [takeName?_eq, heat]
  dsimp only
  rw [hstart]
  rfl

theorem takeSpans_then {lead : List Char} {ends : List Char → Bool} {x : Scan Unit}
    (hx : Reads text (Tokens.takeSpans s).rest x
      (if ends (Tokens.takeSpans s).rest then .ok ((), (Tokens.takeSpans s).rest)
        else .error (.malformedDeclaration start))) :
    Reads text s (Scan.takeSpans >>= fun _ => x)
      (skipped start (Tokens.sightOfSpans lead s ends)) := by
  have hspans : Reads text s Scan.takeSpans _ := takeSpans
  unfold Tokens.sightOfSpans
  rcases hfault : (Tokens.takeSpans s).fault with _ | e
  · rw [passed, hfault] at hspans
    dsimp only
    split at hx
    next hends =>
      rw [if_pos hends]
      exact hspans.bind hx
    next hends =>
      rw [if_neg hends]
      exact hspans.bind hx
  · rw [passed, hfault] at hspans
    exact hspans.bind_error

theorem skipToken {b c : Char} {tail : List Char} (hb : (units (c :: tail)).head? = some b)
    (hstart : start <:+ text) (hterminator : Tokens.isTerminator c = false)
    (hcloser : Tokens.isCloser c = false) (hjoiner : Tokens.joiner? c = none) :
    Reads text (c :: tail) (Scan.skipToken (offsetOf text start) b)
      (skipped start (Tokens.look (c :: tail))) := by
  have hfail : ∀ {t}, Reads text t
      (Scan.textFrom (offsetOf text start) >>= fun quoted =>
        (Scan.fail .malformedDeclaration quoted : Scan Unit))
      (.error (.malformedDeclaration start)) := (textFrom hstart).bind (.fail _ _)
  refine (seesTwo (by decide) (asciiOnly_beq (by decide))).bind ?_
  rw [look_cons]
  cases harrow : (c :: tail).head? == some '=' && (c :: tail).tail.head?.any (· == '>')
  · rw [if_neg Bool.false_ne_true, Tokens.lookAt, hterminator, hcloser, hjoiner,
      first_byte hb asciiOnly_isOpener]
    dsimp only
    cases Span.isOpener c
    · rw [first_byte hb (asciiOnly_isWord.or (asciiOnly_beq (by decide)))]
      simp only [Bool.false_eq_true, if_false]
      unfold Tokens.sightOfName
      cases hname : isWord c || c == '-'
      · rw [takeName?_eq_none hname]
        exact hfail
      rcases htake : takeName? (c :: tail) with _ | ⟨name, after⟩
      · exact (takeName_none htake).bind hfail
      refine (takeName_some htake).bind (takeSpans_then (peek.bind ?_))
      rw [head?_all_units asciiOnly_endsToken]
      cases hends : (Tokens.takeSpans after).rest.head?.all Scan.endsToken
      · exact if_neg (Bool.eq_false_iff.1 hends) ▸ hfail
      · exact if_pos hends ▸ .pure ()
    · have hspans : Reads text (c :: tail) Scan.takeSpans _ := takeSpans
      simp only [Bool.false_eq_true, if_false, if_true]
      unfold Tokens.sightOfSpans
      rw [passed] at hspans
      rcases hfault : (Tokens.takeSpans (c :: tail)).fault with _ | e <;> rw [hfault] at hspans <;>
        exact hspans
  · rw [Bool.and_eq_true, beq_iff_eq, head?_any_beq, beq_iff_eq] at harrow
    obtain ⟨rest, rfl⟩ := List.head?_eq_some_iff.1 harrow.2
    obtain rfl : c = '=' := Option.some.inj harrow.1
    exact advance ['=', '>']

theorem advance_one {c : Char} (hc : IsAscii c) :
    Reads text (c :: r) (Scan.advance 1) (.ok ((), r)) := by
  have hadvance : Reads text (c :: r) (Scan.advance (byteLength [c])) (.ok ((), r)) := advance [c]
  rwa [byteLength_cons, byteLength_nil, utf8Size_of_isAscii hc] at hadvance

theorem look_eq_lookAt {c : Char} (hc : c ≠ '=') (tail : List Char) :
    Tokens.look (c :: tail) = Tokens.lookAt c tail := by
  rw [look_cons, List.head?_cons, if_neg]
  simp [hc]

section Marks

variable {c : Char} (tail : List Char)

theorem look_of_terminator (h : Tokens.isTerminator c = true) :
    Tokens.look (c :: tail) = .finish tail := by
  have hc : c ≠ '=' := by
    rintro rfl
    cases h
  rw [look_eq_lookAt hc, Tokens.lookAt, h]
  rfl

theorem look_of_closer (hterminator : Tokens.isTerminator c = false)
    (h : Tokens.isCloser c = true) : Tokens.look (c :: tail) = .finish (c :: tail) := by
  have hc : c ≠ '=' := by
    rintro rfl
    cases h
  rw [look_eq_lookAt hc, Tokens.lookAt, hterminator, h]
  rfl

theorem look_of_joiner {found : Joiner} (hterminator : Tokens.isTerminator c = false)
    (hcloser : Tokens.isCloser c = false) (h : Tokens.joiner? c = some found) :
    Tokens.look (c :: tail) = .joiner found tail := by
  have hc : c ≠ '=' := by
    rintro rfl
    cases h
  rw [look_eq_lookAt hc, Tokens.lookAt, hterminator, hcloser, h]
  rfl

end Marks

def IsToken : Tokens.Sight → Prop
  | .finish _ | .joiner _ _ => False
  | .token _ _ | .foreign _ | .unclosed _ _ => True

theorem isToken_sightOfSpans (lead s : List Char) (ends : List Char → Bool) :
    IsToken (Tokens.sightOfSpans lead s ends) := by
  unfold Tokens.sightOfSpans
  split
  · trivial
  · split <;> trivial

theorem isToken_look {c : Char} (hterminator : Tokens.isTerminator c = false)
    (hcloser : Tokens.isCloser c = false) (hjoiner : Tokens.joiner? c = none) (tail : List Char) :
    IsToken (Tokens.look (c :: tail)) := by
  rw [look_cons]
  split
  · trivial
  rw [Tokens.lookAt, hterminator, hcloser, hjoiner]
  simp only [Bool.false_eq_true, if_false]
  split
  · exact isToken_sightOfSpans _ _ _
  · unfold Tokens.sightOfName
    split
    · trivial
    · exact isToken_sightOfSpans _ _ _

theorem length_lt_of_look {s item rest : List Char} (h : Tokens.look s = .token item rest) :
    rest.length < s.length := by
  rw [← Tokens.sight_front] at h
  cases hfront : Tokens.front s with
  | token item' rest' shorter =>
      rw [hfront] at h
      cases h
      exact shorter
  | _ =>
      rw [hfront] at h
      cases h

theorem split (hstart : start <:+ text) (joiner : Option Joiner) :
    Reads text s (Scan.repeated (Scan.levelRound (offsetOf text start)) joiner)
      ((Tokens.scan start s joiner).1.map fun t => (t, (Tokens.scan start s joiner).2)) := by
  refine repeated (fun joiner s => (Tokens.scan start s joiner).1.map fun t =>
    (t, (Tokens.scan start s joiner).2)) (fun joiner s next ih => ?_) joiner
  have hshort := length_skipBlanks_le s
  rw [Tokens.scan_eq]
  refine of_suffix fun hs => skipBlanks.bind (peek.bind ?_)
  have hblanks := (skipBlanks_suffix s).trans hs
  generalize Text.skipBlanks s = ahead at hshort hblanks ⊢
  rcases ahead with _ | ⟨c, tail⟩
  · exact .pure _
  obtain ⟨b, hb⟩ := exists_first_byte c tail
  rw [hb]
  dsimp only
  rw [first_byte hb asciiOnly_isTerminator, first_byte hb asciiOnly_isCloser, first_joiner? hb]
  cases hterminator : Tokens.isTerminator c
  · cases hcloser : Tokens.isCloser c
    · rcases hjoiner : Tokens.joiner? c with _ | found
      · have hskip : Reads text (c :: tail) (Scan.skipToken (offsetOf text start) b) _ :=
          skipToken hb hstart hterminator hcloser hjoiner
        have htoken := isToken_look hterminator hcloser hjoiner tail
        refine pos.bind ?_
        rcases hlook : Tokens.look (c :: tail) with _ | _ | ⟨item, behind⟩ | _ | ⟨e, behind⟩
        · exact (hlook ▸ htoken).elim
        · exact (hlook ▸ htoken).elim
        · rw [hlook] at hskip
          have hparts := Tokens.append_of_look hlook
          have hmore := ih joiner _ (Nat.lt_of_lt_of_le (length_lt_of_look hlook) hshort)
          refine hskip.bind ?_
          rw [← hparts] at hblanks ⊢
          refine (sliceFrom hblanks).bind ?_
          dsimp only [Tokens.Sight.rest]
          rcases hlevel : (Tokens.scan start behind joiner).1 with e | level <;>
            rw [hlevel] at hmore
          · exact hmore.bind_error
          · exact hmore.bind (.pure _)
        · rw [hlook] at hskip
          exact hskip.bind_error
        · rw [hlook] at hskip
          exact hskip.bind_error
      · have hascii : IsAscii c :=
          asciiOnly_joiner? c (Option.isSome_iff_exists.2 ⟨found, hjoiner⟩)
        rw [look_of_joiner tail hterminator hcloser hjoiner]
        dsimp only
        cases joiner.all (· == found)
        · exact (textFrom hstart).bind (.fail _ _)
        · exact (advance_one hascii).bind (ih (some found) _ hshort)
    · rw [look_of_closer tail hterminator hcloser]
      exact .pure _
  · rw [look_of_terminator tail hterminator]
    exact (advance_one (asciiOnly_isTerminator c hterminator)).bind (.pure _)

theorem takeLevel :
    Reads text s Scan.takeLevel ((Tokens.take s).1.map fun t => (t, (Tokens.take s).2)) :=
  of_suffix fun hs => pos.bind (split hs none)

end Reads

end Levels

/-! ## What a head reads -/

section Heads

variable {text s start : List Char}

namespace Reads

theorem expectColon (hstart : start <:+ text) :
    Reads text s (Scan.expectColon (offsetOf text start))
      ((Object.expectColon start s).map fun rest => ((), rest)) := by
  unfold Object.expectColon
  refine skipBlanks.bind ?_
  rcases hcolon : eat? ':' (Text.skipBlanks s) with _ | rest
  · exact (eat_none (by decide) hcolon).bind ((textFrom hstart).bind (.fail _ _))
  · exact (eat_some (by decide) hcolon).bind (.pure ())

theorem skipPair :
    Reads text s Scan.skipPair ((Object.skipSpan s).map fun rest => ((), rest)) := by
  unfold Object.skipSpan
  refine rest.bind ?_
  rcases htake : Span.take? s with e | _ | ⟨span, behind⟩
  · exact (pair_error htake).bind_error
  · exact (pair_none htake).bind (rest.bind (.fail _ _))
  · exact (pair_some htake).bind (advance_span htake)

theorem eatReadonly :
    Reads text s Scan.eatReadonly (.ok ((), Object.skipModifier s)) := by
  refine of_suffix fun hs => Reads.get.bind ?_
  unfold Object.skipModifier
  rcases hreadonly : eatKeyword? "readonly" s with _ | rest
  · exact (eatKeyword_none hreadonly).bind (.pure ())
  refine (eatKeyword_some hreadonly).bind (skipBlanks.bind ?_)
  dsimp only
  refine (sees ?_).bind ?_
  · exact (((asciiOnly_beq (by decide)).or (asciiOnly_beq (by decide))).or
      (asciiOnly_beq (by decide))).or (asciiOnly_beq (by decide))
  cases (Text.skipBlanks rest).head?.any fun c => c == ':' || c == '?' || c == '(' || c == '<'
  · exact .pure ()
  · exact .set hs

theorem skipParameters (hstart : start <:+ text) :
    Reads text s (Scan.skipParameters (offsetOf text start))
      ((Object.skipParameters start s).map fun rest => ((), rest)) := by
  have hangle : AsciiOnly (· == '<') := asciiOnly_beq (by decide)
  have hround : AsciiOnly (· == '(') := asciiOnly_beq (by decide)
  unfold Object.skipParameters
  split
  next tail =>
    refine (sees_true hangle rfl).bind ?_
    have hpair : Reads text ('<' :: tail) Scan.skipPair _ := skipPair
    rcases hspan : Object.skipSpan ('<' :: tail) with e | rest <;> rw [hspan] at hpair
    · exact hpair.bind_error
    refine hpair.bind ((sees hround).bind ?_)
    dsimp only
    rw [head?_any_beq]
    cases rest.head? == some '('
    · exact (textFrom hstart).bind (.fail _ _)
    · exact skipPair
  next tail =>
    exact (sees_false hangle rfl).bind ((sees_true hround rfl).bind skipPair)
  next hne hne' =>
    exact (sees_false hangle (head?_any_eq_false hne)).bind
      ((sees_false hround (head?_any_eq_false hne')).bind (.pure ()))

theorem dynamicHead : Reads text s Scan.dynamicHead (Object.dynamicHead s) := by
  unfold Object.dynamicHead
  refine of_suffix fun hs => pos.bind ?_
  have hpair : Reads text s Scan.skipPair _ := skipPair
  rcases hspan : Object.skipSpan s with e | rest <;> rw [hspan] at hpair
  · exact hpair.bind_error
  · exact hpair.bind ((eat (by decide)).bind (expectColon hs).then_pure)

theorem takeMark : Reads text s (Scan.eat '?') (.ok (Object.takeMark s)) := by
  unfold Object.takeMark
  rcases h : eat? '?' s with _ | rest
  · exact eat_none (by decide) h
  · exact eat_some (by decide) h

theorem quotedHead : Reads text s Scan.quotedHead (Object.quotedHead s) := by
  unfold Object.quotedHead
  refine of_suffix fun hs => pos.bind (rest.bind ?_)
  have hpair : Reads text s Scan.skipPair _ := skipPair
  rw [Object.skipSpan] at hpair
  rcases htake : Span.take? s with e | _ | ⟨span, behind⟩
  · exact (pair_error htake).bind_error
  · exact (pair_none htake).bind (rest.bind (.fail _ _))
  rw [htake] at hpair
  exact (pair_some htake).bind ((inner htake).bind (hpair.bind (takeMark.bind
    (expectColon hs).then_pure)))

theorem namedHead : Reads text s Scan.namedHead (Object.namedHead s) := by
  unfold Object.namedHead
  refine of_suffix fun hs => pos.bind (eatReadonly.bind ?_)
  rcases hword : takeWord? (Object.skipModifier s) with _ | ⟨key, behind⟩
  · exact (takeWord_none hword).bind ((textFrom hs).bind (.fail _ _))
  refine (takeWord_some hword).bind (takeMark.bind ?_)
  have hparameters := skipParameters (s := (Object.takeMark behind).2) hs
  dsimp only
  rcases hskip : Object.skipParameters s (Object.takeMark behind).2 with e | rest <;>
    rw [hskip] at hparameters
  · exact hparameters.bind_error
  · exact hparameters.bind (expectColon hs).then_pure

theorem propertyHead {c : Char} {tail : List Char} :
    Reads text (c :: tail) Scan.propertyHead (Object.head (c :: tail)) := by
  unfold Object.head
  dsimp only
  refine (sees (asciiOnly_beq (by decide))).bind ?_
  rw [List.head?_cons, Option.any_some]
  cases c == '['
  · rw [if_neg Bool.false_ne_true]
    refine (sees asciiOnly_isQuote).bind ?_
    rw [List.head?_cons, Option.any_some]
    cases Span.isQuote c
    · rw [if_neg Bool.false_ne_true]
      refine (sees asciiOnly_isWord).bind ?_
      rw [List.head?_cons, Option.any_some]
      cases isWord c
      · exact rest.bind (.fail _ _)
      · exact namedHead
    · exact quotedHead
  · exact dynamicHead

def attempted {α : Type} (s : List Char) : Except Error (α × List Char) → Except Error α × List Char
  | .error e => (.error e, s)
  | .ok (a, rest) => (.ok a, rest)

theorem attempt {α : Type} {x : Scan α} {outcome : Except Error (α × List Char)}
    (hx : Reads text s x outcome) :
    Reads text s (Scan.attempt x) (.ok (attempted s outcome)) := by
  intro hs
  obtain ⟨hrun, hr⟩ := hx hs
  have hattempt : Scan.attempt x (.facing text s) =
      tryCatch ((fun r => (.ok r.1, r.2)) <$> x (.facing text s))
        fun e => pure (.error e, .facing text s) := rfl
  rw [hattempt, hrun]
  rcases outcome with e | ⟨a, rest⟩
  · exact ⟨rfl, fun _ h => Except.ok.inj h ▸ hs⟩
  · exact ⟨rfl, fun _ h => Except.ok.inj h ▸ hr _ rfl⟩

end Reads

end Heads

/-! ## What the body of an object yields -/

section Bodies

variable {text s start : List Char}

def itemOf (start s : List Char) : Except Error (Scan.Item × List Char) :=
  match Text.skipBlanks s with
  | [] => .error (.unbalanced '\x7b' '\x7d' start)
  | c :: tail =>
      if c == '\x7d' then .ok (.closing, tail)
      else if Tokens.isTerminator c then .ok (.separator, tail)
      else (Object.head (c :: tail)).map fun found => (.property found.1, found.2)

theorem scanEntries_itemOf (start s : List Char) :
    Object.scanEntries start s =
      match itemOf start s with
      | .error e => ⟨[], .error e⟩
      | .ok (.closing, rest) => ⟨[], .ok rest⟩
      | .ok (.separator, rest) => Object.scanEntries start rest
      | .ok (.property slot, rest) =>
          match Tokens.take rest with
          | (.error e, _) => ⟨[⟨slot, .error e⟩], .error e⟩
          | (.ok value, after) =>
              ⟨⟨slot, .ok value⟩ :: (Object.scanEntries start after).entries,
                (Object.scanEntries start after).outcome⟩ := by
  rw [Object.scanEntries_eq, itemOf]
  rcases Text.skipBlanks s with _ | ⟨c, tail⟩
  · rfl
  dsimp only
  split
  · rfl
  split
  · rfl
  · rcases Object.head (c :: tail) with e | ⟨slot, rest⟩ <;> rfl

theorem length_lt_of_itemOf {item : Scan.Item} {rest : List Char}
    (h : itemOf start s = .ok (item, rest)) : rest.length < s.length := by
  have hblanks := length_skipBlanks_le s
  rw [itemOf] at h
  rcases hahead : Text.skipBlanks s with _ | ⟨c, tail⟩
  · rw [hahead] at h
    cases h
  rw [hahead] at h hblanks
  dsimp only at h
  refine Nat.lt_of_lt_of_le ?_ hblanks
  split at h
  · obtain ⟨-, rfl⟩ := Prod.mk.inj (Except.ok.inj h)
    exact Nat.lt_succ_self _
  split at h
  · obtain ⟨-, rfl⟩ := Prod.mk.inj (Except.ok.inj h)
    exact Nat.lt_succ_self _
  · obtain ⟨⟨slot, behind⟩, hhead, hitem⟩ := Object.map_ok h
    obtain ⟨-, rfl⟩ := Prod.mk.inj hitem
    exact Object.length_head hhead

theorem Reads.takeItem (hstart : start <:+ text) :
    Reads text s (Scan.takeItem (offsetOf text start)) (itemOf start s) := by
  unfold itemOf
  refine skipBlanks.bind (peek.bind ?_)
  rcases Text.skipBlanks s with _ | ⟨c, tail⟩
  · exact (textFrom hstart).bind (.fail _ _)
  obtain ⟨b, hb⟩ := exists_first_byte c tail
  have hbrace := first_byte hb (asciiOnly_beq (show IsAscii '\x7d' by decide))
  rw [hb]
  dsimp only at hbrace ⊢
  rw [hbrace, first_byte hb asciiOnly_isTerminator]
  cases hclose : c == '\x7d'
  · rw [if_neg Bool.false_ne_true]
    cases hterminator : Tokens.isTerminator c
    · rw [if_neg Bool.false_ne_true]
      exact propertyHead.map
    · exact (advance_one (asciiOnly_isTerminator c hterminator)).bind (.pure _)
  · exact (advance_one (asciiOnly_beq (by decide) c hclose)).bind (.pure _)

theorem Yields.entries (hstart : start <:+ text) :
    Yields text s (Scan.entries (offsetOf text start)) (.ok (Object.scanEntries start s)) := by
  refine repeated (fun _ s => .ok (Object.scanEntries start s)) (fun _ s next ih => ?_) ()
  rw [scanEntries_itemOf]
  refine (Reads.takeItem hstart).attempt.yields ?_
  rcases hitem : itemOf start s with e | ⟨_ | _ | slot, rest⟩
  · exact .pure _
  · exact Reads.rest.yields (.pure _)
  · exact ih () _ (length_lt_of_itemOf hitem)
  have hshort := length_lt_of_itemOf hitem
  have hlevel := Tokens.length_take_le rest
  refine Reads.takeLevel.attempt.yields ?_
  dsimp only
  rcases htake : Tokens.take rest with ⟨e | value, after⟩
  · exact .pure _
  · rw [htake] at hlevel
    exact (ih () _ (Nat.lt_of_le_of_lt hlevel hshort)).map

theorem Yields.object (hs : s <:+ text) : Yields text s Scan.object (.ok (Object.scan s)) := by
  unfold Object.scan
  refine Reads.pos.yields ?_
  rcases hbrace : eat? '\x7b' s with _ | body
  · exact (Reads.eat_none (by decide) hbrace).yields
      (Reads.rest.yields ((Reads.slice_eq (excerpt_eq s)).yields (.pure _)))
  · exact (Reads.eat_some (by decide) hbrace).yields (entries hs)

end Bodies

end Typings.Bytewise
