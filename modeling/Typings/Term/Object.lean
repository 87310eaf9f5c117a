import Typings.Tokens

/-!
# Object bodies

A body is a run of properties, each a head up to its colon and a value.  Values are cut into
tokens here and read later.
-/

namespace Typings.Object

inductive Slot where
  | named (key : String) (optional : Bool)
  | dynamic
  deriving DecidableEq, Repr

structure Entry where
  slot : Slot
  value : Except Error Tokens

structure Scan where
  entries : List Entry
  outcome : Except Error (List Char)

/-! ## Heads of properties -/

def expectColon (start s : List Char) : Except Error (List Char) :=
  match Text.eat? ':' (Text.skipBlanks s) with
  | some rest => .ok rest
  | none => .error (.malformedProperty start)

def skipSpan (s : List Char) : Except Error (List Char) :=
  match Span.take? s with
  | .error e => .error e
  | .ok none => .error (.malformedProperty s)
  | .ok (some (_, rest)) => .ok rest

def takeMark (s : List Char) : Bool × List Char :=
  match Text.eat? '?' s with
  | some rest => (true, rest)
  | none => (false, s)

def dynamicHead (s : List Char) : Except Error (Slot × List Char) :=
  match skipSpan s with
  | .error e => .error e
  | .ok rest => (expectColon s (Text.skip '?' rest)).map fun rest => (.dynamic, rest)

def quotedHead (s : List Char) : Except Error (Slot × List Char) :=
  match Span.take? s with
  | .error e => .error e
  | .ok none => .error (.malformedProperty s)
  | .ok (some (span, rest)) =>
      let mark := takeMark rest
      (expectColon s mark.2).map fun rest =>
        (.named (String.ofList (Span.unescape (Span.inner span))) mark.1, rest)

def skipModifier (s : List Char) : List Char :=
  match Text.eatKeyword? "readonly" s with
  | none => s
  | some rest =>
      let rest := Text.skipBlanks rest
      if rest.head?.any fun c => c == ':' || c == '?' || c == '(' || c == '<' then s else rest

def skipParameters (start s : List Char) : Except Error (List Char) :=
  match s with
  | '<' :: _ =>
      match skipSpan s with
      | .error e => .error e
      | .ok rest =>
          if rest.head? == some '(' then skipSpan rest else .error (.malformedProperty start)
  | '(' :: _ => skipSpan s
  | s => .ok s

def namedHead (s : List Char) : Except Error (Slot × List Char) :=
  match Text.takeWord? (skipModifier s) with
  | none => .error (.malformedProperty s)
  | some (key, rest) =>
      let mark := takeMark rest
      match skipParameters s mark.2 with
      | .error e => .error e
      | .ok rest =>
          (expectColon s rest).map fun rest => (.named (String.ofList key) mark.1, rest)

def head (s : List Char) : Except Error (Slot × List Char) :=
  match s with
  | [] => .error (.malformedProperty s)
  | c :: _ =>
      if c == '[' then dynamicHead s
      else if Span.isQuote c then quotedHead s
      else if Text.isWord c then namedHead s
      else .error (.malformedProperty s)

/-! ## A head takes text along -/

theorem length_expectColon {start s rest : List Char} (h : expectColon start s = .ok rest) :
    rest.length < s.length := by
  unfold expectColon at h
  split at h
  next r hr =>
    simp only [Except.ok.injEq] at h
    have := congrArg List.length (Text.eat?_eq_some_iff.1 hr)
    have := Text.length_skipBlanks_le s
    simp only [List.length_cons] at *
    subst h
    omega
  · simp at h

theorem length_skipSpan {s rest : List Char} (h : skipSpan s = .ok rest) :
    rest.length < s.length := by
  unfold skipSpan at h
  split at h
  · simp at h
  · simp at h
  next hs =>
    simp only [Except.ok.injEq] at h
    exact h ▸ Span.length_lt_of_take? hs

theorem length_skip_le (c : Char) (s : List Char) : (Text.skip c s).length ≤ s.length := by
  cases h : Text.eat? c s with
  | none => simp [Text.skip, h]
  | some r =>
      have := congrArg List.length (Text.eat?_eq_some_iff.1 h)
      simp only [List.length_cons] at this
      simp only [Text.skip, h, Option.getD_some]
      omega

theorem length_takeMark_le (s : List Char) : (takeMark s).2.length ≤ s.length := by
  unfold takeMark
  split
  next h => simp [Text.eat?_eq_some_iff.1 h]
  · exact Nat.le_refl _

theorem length_skipModifier_le (s : List Char) : (skipModifier s).length ≤ s.length := by
  unfold skipModifier
  split
  · exact Nat.le_refl _
  next rest h =>
    simp only [Text.eatKeyword?, Option.filter_eq_some_iff, Text.stripLead?_eq_some_iff] at h
    have := congrArg List.length h.1
    have := Text.length_skipBlanks_le rest
    simp only [List.length_append] at *
    split <;> omega

theorem length_skipParameters {start s rest : List Char}
    (h : skipParameters start s = .ok rest) : rest.length ≤ s.length := by
  unfold skipParameters at h
  split at h
  · split at h
    · simp at h
    next r hr =>
      split at h
      · have := length_skipSpan hr
        have := length_skipSpan h
        omega
      · simp at h
  · exact Nat.le_of_lt (length_skipSpan h)
  · simp only [Except.ok.injEq] at h
    simp [h]

theorem map_ok {α β : Type} {x : Except Error α} {f : α → β} {b : β} (h : x.map f = .ok b) :
    ∃ a, x = .ok a ∧ f a = b := by
  cases x with
  | error e => simp [Except.map] at h
  | ok a => exact ⟨a, rfl, by simpa [Except.map] using h⟩

theorem length_dynamicHead {s rest : List Char} {slot : Slot}
    (h : dynamicHead s = .ok (slot, rest)) : rest.length < s.length := by
  unfold dynamicHead at h
  split at h
  · simp at h
  next r hr =>
    obtain ⟨a, ha, hp⟩ := map_ok h
    simp only [Prod.mk.injEq] at hp
    have := length_expectColon ha
    have := length_skipSpan hr
    have := length_skip_le '?' r
    rw [← hp.2]
    omega

theorem length_quotedHead {s rest : List Char} {slot : Slot}
    (h : quotedHead s = .ok (slot, rest)) : rest.length < s.length := by
  unfold quotedHead at h
  split at h
  · simp at h
  · simp at h
  next span r hr =>
    obtain ⟨a, ha, hp⟩ := map_ok h
    simp only [Prod.mk.injEq] at hp
    have := length_expectColon ha
    have := Span.length_lt_of_take? hr
    have := length_takeMark_le r
    rw [← hp.2]
    omega

theorem length_namedHead {s rest : List Char} {slot : Slot}
    (h : namedHead s = .ok (slot, rest)) : rest.length < s.length := by
  unfold namedHead at h
  split at h
  · simp at h
  next key r hw =>
    simp only at h
    split at h
    · simp at h
    next r' hr =>
      obtain ⟨a, ha, hp⟩ := map_ok h
      simp only [Prod.mk.injEq] at hp
      have := length_expectColon ha
      have := length_skipParameters hr
      have := length_takeMark_le r
      have hk := congrArg List.length (Text.takeWord?_append hw)
      have := length_skipModifier_le s
      simp only [List.length_append] at hk
      rw [← hp.2]
      omega

theorem length_head {s rest : List Char} {slot : Slot} (h : head s = .ok (slot, rest)) :
    rest.length < s.length := by
  unfold head at h
  split at h
  · simp at h
  split at h
  · exact length_dynamicHead h
  split at h
  · exact length_quotedHead h
  split at h
  · exact length_namedHead h
  · simp at h

/-! ## Bodies -/

def scanEntries (start s : List Char) : Scan :=
  match hs : Text.skipBlanks s with
  | [] => ⟨[], .error (.unbalanced '\x7b' '\x7d' start)⟩
  | c :: tail =>
      have hlt : tail.length < s.length := by
        have := Text.length_skipBlanks_le s
        simp only [hs, List.length_cons] at this
        omega
      if c == '\x7d' then ⟨[], .ok tail⟩
      else if Tokens.isTerminator c then scanEntries start tail
      else match h : head (c :: tail) with
        | .error e => ⟨[], .error e⟩
        | .ok (slot, rest) =>
            match ht : Tokens.take rest with
            | (.error e, _) => ⟨[⟨slot, .error e⟩], .error e⟩
            | (.ok value, after) =>
                have : after.length < s.length := by
                  have hr := length_head h
                  have ha := Tokens.length_take_le rest
                  rw [ht] at ha
                  simp only [List.length_cons] at *
                  omega
                let more := scanEntries start after
                { more with entries := ⟨slot, .ok value⟩ :: more.entries }
termination_by s.length

def scan (s : List Char) : Scan :=
  match Text.eat? '\x7b' s with
  | none => ⟨[], .error (.malformedDeclaration s)⟩
  | some body => scanEntries s body

end Typings.Object
