import Typings.Proofs.Squeeze

/-!
# Scans of squeezed text

Every scan of a text without quotes gives of the squeezed text the squeezed parts that it gives of
the text itself.  An error that quotes the text quotes the squeezed one.
-/

namespace Typings

open Text (squeeze)

/-! ## Errors -/

def Error.squeeze : Error → Error
  | .unbalanced opening closing text => .unbalanced opening closing (Text.squeeze text)
  | .malformedDeclaration text => .malformedDeclaration (Text.squeeze text)
  | .malformedProperty text => .malformedProperty (Text.squeeze text)
  | .mixedDelimiters text => .mixedDelimiters (Text.squeeze text)
  | e => e

theorem Error.kind_squeeze (e : Error) : e.squeeze.kind = e.kind := by
  cases e <;> rfl

section Squeezed

variable {α β : Type}

def squeezed (f : α → β) : Except Error α → Except Error β
  | .ok a => .ok (f a)
  | .error e => .error e.squeeze

@[simp] theorem squeezed_ok (f : α → β) (a : α) : squeezed f (.ok a) = .ok (f a) := rfl

end Squeezed

/-! ## Spans -/

namespace Span

def Unquoted (s : List Char) : Prop := ∀ c ∈ s, isQuote c = false

instance (s : List Char) : Decidable (Unquoted s) :=
  decidable_of_iff (s.any isQuote = false) (by simp [Unquoted])

theorem Unquoted.sublist {s t : List Char} (h : Unquoted t) (hs : List.Sublist s t) : Unquoted s :=
  fun c hc => h c (hs.subset hc)

theorem Unquoted.suffix {s t : List Char} (h : Unquoted t) (hs : s <:+ t) : Unquoted s :=
  h.sublist hs.sublist

theorem Unquoted.tail {c : Char} {s : List Char} (h : Unquoted (c :: s)) : Unquoted s :=
  h.suffix (List.suffix_cons c s)

section Brackets

variable {opening closing : Char} (hopening : Text.isBlank opening = false)
  (hclosing : Text.isBlank closing = false)

include hopening hclosing

theorem nesting?_squeeze (depth : Nat) (s : List Char) :
    nesting? opening closing depth (squeeze s) = nesting? opening closing depth s := by
  have hblank : ∀ c, Text.isBlank c = true → ∀ depth s,
      nesting? opening closing depth (c :: s) = nesting? opening closing depth s := by
    intro c hc depth s
    have hne : (c == opening) = false ∧ (c == closing) = false := by
      constructor <;> rw [beq_eq_false_iff_ne] <;> rintro rfl <;> simp_all
    simp only [nesting?, hne.1, hne.2, Bool.false_eq_true, if_false]
  induction s generalizing depth with
  | nil => rfl
  | cons c s ih =>
      by_cases h : Text.isBlank c = true
      · rw [hblank c h, squeeze, if_pos h, ← ih]
        split
        · rfl
        · exact hblank ' ' rfl ..
      · simp only [Text.squeeze_cons (by simpa using h), nesting?, ih]

theorem takeBracketed?_squeeze (hne : opening ≠ closing) (depth : Nat) (s : List Char) :
    takeBracketed? opening closing depth (squeeze s) =
      (takeBracketed? opening closing depth s).map fun found =>
        (squeeze found.1, squeeze found.2) := by
  rcases h : takeBracketed? opening closing depth s with _ | ⟨span, rest⟩
  · rw [takeBracketed?_eq_none_iff, ← nesting?_squeeze hopening hclosing] at h
    rw [takeBracketed?_eq_none_iff.2 h, Option.map_none]
  · obtain ⟨body, rfl, hbody⟩ := nesting?_of_takeBracketed? h
    rw [← takeBracketed?_append h, List.append_assoc, List.singleton_append,
      Text.squeeze_append_cons hclosing]
    rw [← nesting?_squeeze hopening hclosing] at hbody
    rw [takeBracketed?_of_nesting? hne hbody, Option.map_some,
      Text.squeeze_append_cons hclosing, show squeeze [] = [] from rfl]

end Brackets

theorem take?_squeeze {s : List Char} (hs : Unquoted s) :
    take? (squeeze s) =
      squeezed (Option.map fun found => (squeeze found.1, squeeze found.2)) (take? s) := by
  cases s with
  | nil => rfl
  | cons c s =>
      rcases hc : closer? c with _ | closing
      · have hnone : ∀ t, take? (c :: t) = .ok none := fun t => by simp only [take?, hc]
        rw [hnone]
        by_cases h : Text.isBlank c = true
        · rw [Text.squeeze_blank h]
          rfl
        · rw [Text.squeeze_cons (by simpa using h), hnone]
          rfl
      · have hquote := hs c (List.mem_cons_self ..)
        obtain ⟨hopening, hclosing, hne⟩ := closer?_bracket hc hquote
        rw [Text.squeeze_cons hopening]
        simp only [take?, hc, takeBody?, hquote, Bool.false_eq_true, if_false,
          takeBracketed?_squeeze hopening hclosing hne]
        rcases takeBracketed? c closing 0 s with _ | ⟨span, rest⟩
        · simp only [Option.map_none, squeezed, Error.squeeze, Text.squeeze_cons hopening]
        · simp only [Option.map_some, squeezed, Text.squeeze_cons hopening]

theorem ends_of_take? {s span rest : List Char} (hs : Unquoted s)
    (h : take? s = .ok (some (span, rest))) :
    ∃ opening body closing, span = opening :: body ++ [closing] ∧
      Text.isBlank opening = false ∧ Text.isBlank closing = false := by
  cases s with
  | nil => cases h
  | cons c s =>
      have hquote := hs c (List.mem_cons_self ..)
      simp only [take?] at h
      split at h
      · cases h
      next closing hc =>
        obtain ⟨hopening, hclosing, -⟩ := closer?_bracket hc hquote
        simp only [takeBody?, hquote, Bool.false_eq_true, if_false] at h
        split at h
        next found hfound =>
          obtain ⟨⟨span', rest'⟩, htake, rfl⟩ := Option.map_eq_some_iff.1 hfound
          obtain ⟨body, rfl, -⟩ := nesting?_of_takeBracketed? htake
          obtain ⟨rfl, -⟩ := Prod.mk.inj (Option.some.inj (Except.ok.inj h))
          exact ⟨c, body, closing, rfl, hopening, hclosing⟩
        · cases h

section Ends

variable {s span rest : List Char} (hs : Unquoted s) (h : take? s = .ok (some (span, rest)))

include hs h

theorem squeeze_span_append (t : List Char) : squeeze (span ++ t) = squeeze span ++ squeeze t := by
  obtain ⟨opening, body, closing, rfl, -, hclosing⟩ := ends_of_take? hs h
  exact Text.squeeze_append hclosing (opening :: body) t

theorem inner_squeeze : inner (squeeze span) = squeeze (inner span) := by
  obtain ⟨opening, body, closing, rfl, hopening, hclosing⟩ := ends_of_take? hs h
  rw [List.cons_append, Text.squeeze_cons hopening, Text.squeeze_append_cons hclosing]
  simp [inner, squeeze]

end Ends

/-! ### Arguments -/

theorem take?_of_isBlank {c : Char} (h : Text.isBlank c = true) (s : List Char) :
    take? (c :: s) = .ok none := by
  have hc : closer? c = none :=
    Text.forall_blank (P := fun c => closer? c = none) rfl rfl rfl rfl rfl c h
  simp only [take?, hc]

theorem any_head?_of_takeArgument {s a : List Char} {more : Option (List Char)}
    (h : takeArgument s = .ok (a, more)) :
    a.head?.any Text.isBlank = s.head?.any Text.isBlank := by
  rw [takeArgument_append h]
  cases a with
  | nil => cases more <;> rfl
  | cons c a => rfl

theorem takeArgument_squeeze {s : List Char} (hs : Unquoted s) :
    takeArgument (squeeze s) =
      squeezed (fun a => (squeeze a.1, a.2.map squeeze)) (takeArgument s) := by
  have hblank : ∀ {c s} {r : Except Error (Option (List Char × List Char))},
      take? (c :: s) = r → r ≠ .ok none → Text.isBlank c = false := by
    intro c s r h hr
    rw [← Bool.not_eq_true]
    exact fun hc => hr (h.symm.trans (take?_of_isBlank hc s))
  fun_induction takeArgument s with
  | case1 => exact takeArgument_nil
  | case2 c tail hcomma =>
      obtain rfl : c = ',' := by simpa using hcomma
      rw [Text.squeeze_cons rfl, takeArgument_comma]
      rfl
  | case3 c tail hcomma e he =>
      have hc := hblank he (by simp)
      have htake := take?_squeeze hs
      rw [he, Text.squeeze_cons hc] at htake
      rw [Text.squeeze_cons hc, takeArgument_of_error (by simpa using hcomma) htake]
      rfl
  | case4 c tail hcomma hnone ih =>
      by_cases hc : Text.isBlank c = true
      · rw [squeeze, if_pos hc]
        rcases htail : takeArgument tail with e | ⟨a, more⟩
        · have ih := ih hs.tail
          rw [htail] at ih
          split
          · exact ih
          · rw [takeArgument_of_none (by decide) rfl, ih]
            rfl
        · have ih := ih hs.tail
          rw [htail] at ih
          simp only [Except.map, squeezed_ok, squeeze, if_pos hc, any_head?_of_takeArgument htail]
          split
          · exact ih
          · rw [takeArgument_of_none (by decide) rfl, ih]
            rfl
      · have hc : Text.isBlank c = false := by simpa using hc
        have htake := take?_squeeze hs
        rw [hnone, Text.squeeze_cons hc] at htake
        rw [Text.squeeze_cons hc, takeArgument_of_none (by simpa using hcomma) htake, ih hs.tail]
        rcases takeArgument tail with e | ⟨a, more⟩
        · rfl
        · simp only [Except.map, squeezed_ok, Text.squeeze_cons hc]
  | case5 c tail hcomma span rest hspan hlt ih =>
      have hc := hblank hspan (by simp)
      have htake := take?_squeeze hs
      rw [hspan, Text.squeeze_cons hc] at htake
      rw [Text.squeeze_cons hc, takeArgument_of_some (by simpa using hcomma) htake,
        ih (hs.suffix (take?_suffix hspan))]
      rcases takeArgument rest with e | ⟨a, more⟩
      · rfl
      · simp only [Except.map, squeezed_ok, squeeze_span_append hs hspan]

theorem pieces_squeeze {s : List Char} (hs : Unquoted s) :
    pieces (squeeze s) = squeezed (List.map squeeze) (pieces s) := by
  fun_induction pieces s with
  | case1 s e he =>
      rw [pieces_eq, takeArgument_squeeze hs, he]
      rfl
  | case2 s a ha =>
      rw [pieces_eq, takeArgument_squeeze hs, ha]
      simp [Text.trim_squeeze]
  | case3 s a rest ha hlt ih =>
      have hrest : rest <:+ s := by
        rw [takeArgument_append ha]
        exact (List.suffix_cons ',' rest).trans (List.suffix_append a _)
      rw [pieces_eq, takeArgument_squeeze hs, ha]
      simp only [squeezed_ok, Option.map_some, ih (hs.suffix hrest), Text.trim_squeeze]
      cases pieces rest <;> rfl

theorem arguments_eq (s : List Char) :
    arguments s = (pieces s).map fun all => if all = [[]] then [] else all := by
  refine congrArg ((pieces s).map ·) (funext fun all => ?_)
  split
  · rfl
  next h => rw [if_neg h]

theorem arguments_squeeze {s : List Char} (hs : Unquoted s) :
    arguments (squeeze s) = squeezed (List.map squeeze) (arguments s) := by
  rw [arguments_eq, arguments_eq, pieces_squeeze hs]
  rcases pieces s with e | all
  · rfl
  · have hempty : List.map squeeze all = [[]] ↔ all = [[]] := by simp [List.map_eq_singleton_iff]
    simp only [Except.map, squeezed_ok, hempty]
    split <;> rfl

end Span

/-! ## Levels -/

namespace Tokens

open Typings.Span (Unquoted)

def squeeze (t : Tokens) : Tokens := ⟨t.items.map Text.squeeze, t.joiner⟩

def Spans.squeeze (found : Spans) : Spans :=
  ⟨Text.squeeze found.taken, Text.squeeze found.rest, found.fault.map Error.squeeze⟩

def Sight.squeeze : Sight → Sight
  | .finish rest => .finish (Text.squeeze rest)
  | .joiner found rest => .joiner found (Text.squeeze rest)
  | .token item rest => .token (Text.squeeze item) (Text.squeeze rest)
  | .foreign rest => .foreign (Text.squeeze rest)
  | .unclosed cause rest => .unclosed cause.squeeze (Text.squeeze rest)

theorem takeSpans_squeeze {s : List Char} (hs : Unquoted s) :
    takeSpans (Text.squeeze s) = (takeSpans s).squeeze := by
  have htake := Span.take?_squeeze hs
  fun_induction takeSpans s with
  | case1 s e h =>
      rw [h] at htake
      exact takeSpans_of_error htake
  | case2 s h =>
      rw [h] at htake
      exact takeSpans_of_none htake
  | case3 s span rest h hlt more ih =>
      have hrest := hs.suffix (Span.take?_suffix h)
      rw [h] at htake
      rw [takeSpans_of_some htake, ih hrest (Span.take?_squeeze hrest)]
      simp only [Spans.squeeze, Span.squeeze_span_append hs h]
      rfl

theorem endsToken_squeeze (s : List Char) : endsToken (Text.squeeze s) = endsToken s := by
  have hany : ∀ s, endsToken s = !s.head?.any fun c =>
      !(Text.isBlank c || isTerminator c || (joiner? c).isSome || isCloser c) := by
    intro s
    rw [endsToken]
    cases s.head? with
    | none => rfl
    | some c => exact (Bool.not_not _).symm
  rw [hany, hany, Text.any_head?_squeeze (Text.forall_blank rfl rfl rfl rfl rfl)]

theorem sightOfSpans_squeeze {lead s : List Char} (hlead : ∀ c ∈ lead, Text.isBlank c = false)
    (hs : Unquoted s) {ends : List Char → Bool} (hends : ∀ s, ends (Text.squeeze s) = ends s) :
    sightOfSpans lead (Text.squeeze s) ends = (sightOfSpans lead s ends).squeeze := by
  unfold sightOfSpans
  rw [takeSpans_squeeze hs]
  simp only [Spans.squeeze, hends]
  cases (takeSpans s).fault with
  | some e => rfl
  | none =>
      simp only [Option.map_none, ← Text.squeeze_append_of_word hlead]
      split <;> rfl

theorem sightOfName_squeeze {s : List Char} (hs : Unquoted s) :
    sightOfName (Text.squeeze s) = (sightOfName s).squeeze := by
  unfold sightOfName
  rw [Text.takeName?_squeeze]
  rcases h : Text.takeName? s with _ | ⟨name, after⟩
  · rfl
  · exact sightOfSpans_squeeze (Text.word_of_takeName? h) (hs.suffix (Text.takeName?_suffix h))
      endsToken_squeeze

theorem lookAt_squeeze {c : Char} {tail : List Char} (hc : Text.isBlank c = false)
    (hs : Unquoted (c :: tail)) :
    lookAt c (Text.squeeze tail) = (lookAt c tail).squeeze := by
  unfold lookAt
  rw [← Text.squeeze_cons hc, sightOfSpans_squeeze (by simp) hs (fun _ => rfl),
    sightOfName_squeeze hs]
  split
  · rfl
  split
  · rfl
  split
  · rfl
  split <;> rfl

theorem look_squeeze {s : List Char} (hs : Unquoted s)
    (hhead : s.head?.any Text.isBlank = false) : look (Text.squeeze s) = (look s).squeeze := by
  cases s with
  | nil => rfl
  | cons c tail =>
      have hc : Text.isBlank c = false := hhead
      rw [Text.squeeze_cons hc]
      by_cases harrow : ∃ rest, c = '=' ∧ tail = '>' :: rest
      · obtain ⟨rest, rfl, rfl⟩ := harrow
        rw [Text.squeeze_cons rfl]
        rfl
      · have harrow' : ∀ rest, c = '=' → Text.squeeze tail = '>' :: rest → False := by
          intro rest heq hrest
          have heat := Text.eat?_squeeze (c := '>') rfl tail
          rw [hrest] at heat
          obtain ⟨rest', hrest', -⟩ := Option.map_eq_some_iff.1 heat.symm
          exact harrow ⟨rest', heq, Text.eat?_eq_some_iff.1 hrest'⟩
        rw [look.eq_3 c _ harrow', look.eq_3 c tail fun rest h h' => harrow ⟨rest, h, h'⟩]
        exact lookAt_squeeze hc hs

theorem scan_squeeze (start : List Char) {s : List Char} (hs : Unquoted s)
    (joiner : Option Joiner) :
    scan (Text.squeeze start) (Text.squeeze s) joiner =
      (squeezed squeeze (scan start s joiner).1, Text.squeeze (scan start s joiner).2) := by
  have hlook : ∀ {s sight}, Unquoted s → look (Text.skipBlanks s) = sight →
      look (Text.skipBlanks (Text.squeeze s)) = sight.squeeze ∧ Unquoted sight.rest := by
    rintro s _ hs rfl
    have hblanks := hs.suffix (Text.skipBlanks_suffix s)
    rw [Text.skipBlanks_squeeze]
    exact ⟨look_squeeze hblanks (Text.any_head?_skipBlanks s), hblanks.suffix (look_suffix _)⟩
  fun_induction scan start s joiner with
  | case1 s joiner rest hfront =>
      have hsight := look_of_front hfront
      rw [scan_eq, (hlook hs hsight).1]
      rfl
  | case2 s joiner found rest hlt hfront _ hjoiner ih =>
      have hsight := look_of_front hfront
      rw [scan_eq, (hlook hs hsight).1]
      simp only [Front.sight, Sight.squeeze, if_pos hjoiner]
      exact ih (hlook hs hsight).2
  | case3 s joiner found rest hlt hfront _ hjoiner =>
      have hsight := look_of_front hfront
      rw [scan_eq, (hlook hs hsight).1, Text.skipBlanks_squeeze]
      simp only [Front.sight, Sight.squeeze, if_neg hjoiner]
      rfl
  | case4 s joiner item rest hlt hfront _ level stop hscan ih =>
      have hsight := look_of_front hfront
      rw [scan_eq, (hlook hs hsight).1]
      simp only [Front.sight, Sight.squeeze, ih (hlook hs hsight).2, hscan]
      cases level <;> rfl
  | case5 s joiner rest hfront =>
      have hsight := look_of_front hfront
      rw [scan_eq, (hlook hs hsight).1]
      rfl
  | case6 s joiner e rest hfront =>
      have hsight := look_of_front hfront
      rw [scan_eq, (hlook hs hsight).1]
      rfl

theorem take_squeeze {s : List Char} (hs : Unquoted s) :
    take (Text.squeeze s) = (squeezed squeeze (take s).1, Text.squeeze (take s).2) :=
  scan_squeeze s hs none

end Tokens

/-! ## Objects -/

namespace Object

open Typings.Span (Unquoted)

def Entry.squeeze (entry : Entry) : Entry := ⟨entry.slot, squeezed Tokens.squeeze entry.value⟩

def Scan.squeeze (found : Scan) : Scan :=
  ⟨found.entries.map Entry.squeeze, squeezed Text.squeeze found.outcome⟩

/-! ### Heads of properties -/

theorem expectColon_squeeze (start s : List Char) :
    expectColon (Text.squeeze start) (Text.squeeze s) =
      squeezed Text.squeeze (expectColon start s) := by
  unfold expectColon
  rw [Text.skipBlanks_squeeze, Text.eat?_squeeze rfl]
  cases Text.eat? ':' (Text.skipBlanks s) <;> rfl

theorem skipSpan_squeeze {s : List Char} (hs : Unquoted s) :
    skipSpan (Text.squeeze s) = squeezed Text.squeeze (skipSpan s) := by
  unfold skipSpan
  rw [Span.take?_squeeze hs]
  rcases Span.take? s with e | _ | found <;> rfl

theorem takeMark_squeeze (s : List Char) :
    takeMark (Text.squeeze s) = ((takeMark s).1, Text.squeeze (takeMark s).2) := by
  unfold takeMark
  rw [Text.eat?_squeeze rfl]
  cases Text.eat? '?' s <;> rfl

def squeezeHead (found : Slot × List Char) : Slot × List Char := (found.1, Text.squeeze found.2)

theorem dynamicHead_squeeze {s : List Char} (hs : Unquoted s) :
    dynamicHead (Text.squeeze s) = squeezed squeezeHead (dynamicHead s) := by
  unfold dynamicHead
  rw [skipSpan_squeeze hs]
  cases skipSpan s with
  | error e => rfl
  | ok rest =>
      simp only [squeezed_ok, Text.skip_squeeze (c := '?') rfl, expectColon_squeeze]
      cases expectColon s (Text.skip '?' rest) <;> rfl

theorem skipModifier_squeeze (s : List Char) :
    skipModifier (Text.squeeze s) = Text.squeeze (skipModifier s) := by
  unfold skipModifier
  rw [Text.eatKeyword?_squeeze (Text.isBlank_of_isIdentifier rfl)]
  cases Text.eatKeyword? "readonly" s with
  | none => rfl
  | some rest =>
      simp only [Option.map_some, Text.skipBlanks_squeeze]
      rw [Text.any_head?_squeeze (Text.forall_blank rfl rfl rfl rfl rfl)]
      split <;> rfl

theorem skipParameters_eq (start s : List Char) :
    skipParameters start s =
      if s.head? = some '<' then
        match skipSpan s with
        | .error e => .error e
        | .ok rest =>
            if rest.head? = some '(' then skipSpan rest else .error (.malformedProperty start)
      else if s.head? = some '(' then skipSpan s
      else .ok s := by
  unfold skipParameters
  split
  next tail =>
    rw [List.head?_cons, if_pos rfl]
    cases skipSpan ('<' :: tail) with
    | error e => rfl
    | ok rest => exact ite_congr (by simp) (fun _ => rfl) fun _ => rfl
  · simp only [List.head?_cons, if_true]
    rfl
  next hangle hround =>
    have hhead : ∀ c, s.head? = some c → ∃ tail, s = c :: tail := fun c h =>
      ⟨_, (List.head?_eq_some_iff.1 h).choose_spec⟩
    rw [if_neg fun h => (hhead '<' h).elim hangle, if_neg fun h => (hhead '(' h).elim hround]

theorem skipParameters_squeeze (start : List Char) {s : List Char} (hs : Unquoted s) :
    skipParameters (Text.squeeze start) (Text.squeeze s) =
      squeezed Text.squeeze (skipParameters start s) := by
  rw [skipParameters_eq, skipParameters_eq, skipSpan_squeeze hs]
  simp only [Text.head?_squeeze_eq_some_iff (c := '<') rfl,
    Text.head?_squeeze_eq_some_iff (c := '(') rfl]
  split
  · rcases h : skipSpan s with e | rest
    · rfl
    · simp only [squeezed_ok, Text.head?_squeeze_eq_some_iff (c := '(') rfl,
        skipSpan_squeeze (hs.suffix (skipSpan_suffix h))]
      split <;> rfl
  split <;> rfl

theorem namedHead_squeeze {s : List Char} (hs : Unquoted s) :
    namedHead (Text.squeeze s) = squeezed squeezeHead (namedHead s) := by
  unfold namedHead
  rw [skipModifier_squeeze, Text.takeWord?_squeeze]
  rcases h : Text.takeWord? (skipModifier s) with _ | ⟨key, rest⟩
  · rfl
  · have hmark : Unquoted (takeMark rest).2 :=
      hs.suffix ((takeMark_suffix rest).trans
        ((Text.takeWord?_suffix h).trans (skipModifier_suffix s)))
    simp only [Option.map_some, takeMark_squeeze, skipParameters_squeeze s hmark]
    cases skipParameters s (takeMark rest).2 with
    | error e => rfl
    | ok rest =>
        simp only [squeezed_ok, expectColon_squeeze]
        cases expectColon s rest <;> rfl

theorem head_squeeze {c : Char} {tail : List Char} (hc : Text.isBlank c = false)
    (hs : Unquoted (c :: tail)) :
    head (c :: Text.squeeze tail) = squeezed squeezeHead (head (c :: tail)) := by
  have hquote := hs c (List.mem_cons_self ..)
  simp only [head, hquote, Bool.false_eq_true, if_false]
  rw [← Text.squeeze_cons hc, dynamicHead_squeeze hs, namedHead_squeeze hs]
  split
  · rfl
  split <;> rfl

/-! ### Bodies -/

theorem scanEntries_squeeze (start : List Char) {s : List Char} (hs : Unquoted s) :
    scanEntries (Text.squeeze start) (Text.squeeze s) = (scanEntries start s).squeeze := by
  have hfront : ∀ {s c tail}, Unquoted s → Text.skipBlanks s = c :: tail →
      Text.skipBlanks (Text.squeeze s) = c :: Text.squeeze tail ∧ Text.isBlank c = false ∧
        Unquoted (c :: tail) := by
    intro s c tail hs hblanks
    have hc := Text.any_head?_skipBlanks s
    rw [hblanks, List.head?_cons, Option.any_some] at hc
    rw [Text.skipBlanks_squeeze, hblanks, Text.squeeze_cons hc]
    exact ⟨rfl, hc, hblanks ▸ hs.suffix (Text.skipBlanks_suffix s)⟩
  fun_induction scanEntries start s with
  | case1 s hblanks =>
      rw [scanEntries_eq, Text.skipBlanks_squeeze, hblanks]
      rfl
  | case2 s c tail hblanks hlt hclose =>
      rw [scanEntries_eq, (hfront hs hblanks).1]
      simp only [if_pos hclose]
      rfl
  | case3 s c tail hblanks hlt hclose hterm ih =>
      obtain ⟨hsqueezed, -, htail⟩ := hfront hs hblanks
      rw [scanEntries_eq, hsqueezed]
      simp only [if_neg hclose, if_pos hterm]
      exact ih htail.tail
  | case4 s c tail hblanks hlt hclose hterm e hhead =>
      obtain ⟨hsqueezed, hc, htail⟩ := hfront hs hblanks
      rw [scanEntries_eq, hsqueezed]
      simp only [if_neg hclose, if_neg hterm, head_squeeze hc htail, hhead]
      rfl
  | case5 s c tail hblanks hlt hclose hterm slot rest hhead e after htake =>
      obtain ⟨hsqueezed, hc, htail⟩ := hfront hs hblanks
      have hrest := htail.suffix (head_suffix hhead)
      rw [scanEntries_eq, hsqueezed]
      simp only [if_neg hclose, if_neg hterm, head_squeeze hc htail, hhead, squeezed_ok,
        squeezeHead, Tokens.take_squeeze hrest, htake]
      rfl
  | case6 s c tail hblanks hlt hclose hterm slot rest hhead value after htake hafter more ih =>
      obtain ⟨hsqueezed, hc, htail⟩ := hfront hs hblanks
      have hrest := htail.suffix (head_suffix hhead)
      have hstop := Tokens.take_suffix rest
      rw [htake] at hstop
      rw [scanEntries_eq, hsqueezed]
      simp only [if_neg hclose, if_neg hterm, head_squeeze hc htail, hhead, squeezed_ok,
        squeezeHead, Tokens.take_squeeze hrest, htake, ih (hrest.suffix hstop)]
      rfl

theorem scan_squeeze {s : List Char} (hs : Unquoted s) :
    scan (Text.squeeze s) = (scan s).squeeze := by
  unfold scan
  rw [Text.eat?_squeeze rfl]
  rcases h : Text.eat? '\x7b' s with _ | body
  · rfl
  · exact scanEntries_squeeze s (hs.suffix (Text.eat?_suffix h))

end Object

end Typings
