import Typings.Proofs.Brackets
import Typings.Proofs.Scans
import Typings.Proofs.Squeeze

/-!
# Texts that are one token

A text in which every bracket is matched can stand inside brackets of any kind, and a name with
such groups behind it is one token wherever a token may end.
-/

namespace Typings

/-! ## Matched brackets -/

namespace Span

def Neutral (s : List Char) : Prop :=
  ∀ opening closing, closer? opening = some closing → isQuote opening = false →
    ∀ depth, nesting? opening closing depth s = some depth

variable {s t : List Char}

theorem Neutral.nil : Neutral [] := fun _ _ _ _ _ => rfl

theorem Neutral.append (hs : Neutral s) (ht : Neutral t) : Neutral (s ++ t) := by
  intro opening closing h hquote depth
  rw [nesting?_append, hs opening closing h hquote, Option.bind_some, ht opening closing h hquote]

theorem neutral_of_plain (h : s.any (fun c => isOpener c || Tokens.isCloser c) = false) :
    Neutral s := by
  intro opening closing hcloser hquote depth
  induction s with
  | nil => rfl
  | cons c s ih =>
      rw [List.any_cons, Bool.or_eq_false_iff, Bool.or_eq_false_iff] at h
      have hopening : c ≠ opening := by
        rintro rfl
        simp [isOpener, hcloser] at h
      have hclosing : c ≠ closing := by
        rintro rfl
        obtain ⟨-, rfl⟩ | ⟨-, rfl⟩ | ⟨-, rfl⟩ | ⟨-, rfl⟩ := closer?_cases hcloser hquote
        all_goals exact absurd h.1.2 (by decide)
      simpa [nesting?, hopening, hclosing] using ih h.2

section Enclosed

variable {opening closing : Char} (h : closer? opening = some closing)
  (hquote : isQuote opening = false)

include h hquote

theorem Neutral.enclosed (hs : Neutral s) : Neutral (opening :: s ++ [closing]) := by
  intro opening' closing' h' hquote' depth
  by_cases hsame : opening = opening'
  · subst hsame
    obtain rfl := Option.some.inj (h.symm.trans h')
    have hne := (closer?_bracket h hquote).2.2
    have hinside := hs opening closing h hquote (depth + 1)
    simp [nesting?, nesting?_append, hinside, hne.symm]
  · have hinside := hs opening' closing' h' hquote' depth
    have hdistinct : opening ≠ closing' ∧ closing ≠ opening' ∧ closing ≠ closing' := by
      obtain ⟨rfl, rfl⟩ | ⟨rfl, rfl⟩ | ⟨rfl, rfl⟩ | ⟨rfl, rfl⟩ := closer?_cases h hquote <;>
        obtain ⟨rfl, rfl⟩ | ⟨rfl, rfl⟩ | ⟨rfl, rfl⟩ | ⟨rfl, rfl⟩ := closer?_cases h' hquote' <;>
        first
        | exact absurd rfl hsame
        | decide
    simp [nesting?, nesting?_append, hinside, hsame, hdistinct]

theorem take?_of_nesting? (hs : nesting? opening closing 0 s = some 0) (rest : List Char) :
    take? (opening :: s ++ closing :: rest) = .ok (some (opening :: s ++ [closing], rest)) := by
  have hne := (closer?_bracket h hquote).2.2
  simp only [List.cons_append, take?, h, takeBody?, hquote, Bool.false_eq_true, if_false,
    takeBracketed?_of_nesting? hne hs, Option.map_some]

theorem take?_enclosed (hs : Neutral s) (rest : List Char) :
    take? (opening :: s ++ closing :: rest) = .ok (some (opening :: s ++ [closing], rest)) :=
  take?_of_nesting? h hquote (hs opening closing h hquote 0) rest

end Enclosed

end Span

/-! ## Names -/

namespace Text

variable {name : List Char}

section WordCharacters

variable {c : Char} (h : isWord c = true)

include h

theorem toNat_of_isWord :
    (48 ≤ c.toNat ∧ c.toNat ≤ 57) ∨ (65 ≤ c.toNat ∧ c.toNat ≤ 90) ∨
      (97 ≤ c.toNat ∧ c.toNat ≤ 122) ∨ c = '_' ∨ c = '$' := by
  delta isWord Char.isAlphanum Char.isAlpha Char.isUpper Char.isLower Char.isDigit at h
  simp only [Bool.or_eq_true, Bool.and_eq_true, decide_eq_true_eq, beq_iff_eq, ge_iff_le,
    UInt32.le_iff_toNat_le] at h
  change ((((65 ≤ c.toNat ∧ c.toNat ≤ 90) ∨ (97 ≤ c.toNat ∧ c.toNat ≤ 122)) ∨
    (48 ≤ c.toNat ∧ c.toNat ≤ 57)) ∨ c = '_') ∨ c = '$' at h
  tauto

theorem isSpace_of_isWord : isSpace c = false := by
  rcases toNat_of_isWord h with h | h | h | rfl | rfl
  all_goals
    first
    | rfl
    | simp only [isSpace, Bool.or_eq_false_iff, Bool.and_eq_false_iff, decide_eq_false_iff_not,
        beq_eq_false_iff_ne]
      omega

theorem ne_of_isWord {d : Char} (hd : isWord d = false) : c ≠ d := by
  rintro rfl
  simp [h] at hd

theorem closer?_of_isWord : Span.closer? c = none := by
  unfold Span.closer?
  split
  all_goals first | rfl | exact absurd h (by decide)

theorem isCloser_of_isWord : Tokens.isCloser c = false := by
  simp [Tokens.isCloser, ne_of_isWord h (d := '\x7d') rfl, ne_of_isWord h (d := ')') rfl,
    ne_of_isWord h (d := ']') rfl, ne_of_isWord h (d := '>') rfl]

theorem isTerminator_of_isWord : Tokens.isTerminator c = false := by
  simp [Tokens.isTerminator, ne_of_isWord h (d := ';') rfl, ne_of_isWord h (d := ',') rfl]

theorem joiner?_of_isWord : Tokens.joiner? c = none := by
  unfold Tokens.joiner?
  split
  all_goals first | rfl | exact absurd h (by decide)

end WordCharacters

theorem ne_nil_of_isIdentifier (h : isIdentifier name = true) : name ≠ [] := by
  rintro rfl
  cases h

theorem exists_cons_of_isIdentifier (h : isIdentifier name = true) :
    ∃ c tail, name = c :: tail ∧ isWord c = true := by
  obtain ⟨c, tail, rfl⟩ := List.exists_cons_of_ne_nil (ne_nil_of_isIdentifier h)
  exact ⟨c, tail, rfl, isWord_of_isIdentifier h c (List.mem_cons_self ..)⟩

theorem takeWhile_append_of_name (h : isIdentifier name = true) {rest : List Char}
    (hrest : startsWord rest = false) : (name ++ rest).takeWhile isWord = name := by
  have hnil : rest.takeWhile isWord = [] := by
    cases rest with
    | nil => rfl
    | cons c rest =>
        have hc : ¬ isWord c = true := by simpa [startsWord] using hrest
        exact List.takeWhile_cons_of_neg hc
  rw [List.takeWhile_append_of_pos (isWord_of_isIdentifier h), hnil, List.append_nil]

theorem takeWord?_append_of_name (h : isIdentifier name = true) {rest : List Char}
    (hrest : startsWord rest = false) : takeWord? (name ++ rest) = some (name, rest) := by
  have htake := takeWhile_append_of_name h hrest
  have hdrop : (name ++ rest).dropWhile isWord = rest := by
    have happend := List.takeWhile_append_dropWhile (p := isWord) (l := name ++ rest)
    rw [htake] at happend
    exact List.append_cancel_left happend
  have hstart : startsWord (name ++ rest) = true := by
    obtain ⟨c, tail, rfl, hc⟩ := exists_cons_of_isIdentifier h
    exact hc
  rw [takeWord?, hstart, if_pos rfl, htake, hdrop]

def endsName (s : List Char) : Bool := s.head?.all fun c => !isWord c && c != '.'

theorem nameTail_word_append (h : ∀ c ∈ name, isWord c = true) (rest : List Char) :
    nameTail (name ++ rest) = (name ++ (nameTail rest).1, (nameTail rest).2) := by
  induction name with
  | nil => rfl
  | cons c name ih =>
      rw [List.forall_mem_cons] at h
      rw [List.cons_append, nameTail, h.1, ih h.2]
      rfl

theorem nameTail_append_of_word (h : ∀ c ∈ name, isWord c = true) {rest : List Char}
    (hrest : endsName rest = true) : nameTail (name ++ rest) = (name, rest) := by
  have hnil : nameTail rest = ([], rest) := by
    cases rest with
    | nil => rfl
    | cons c rest =>
        have hc : isWord c = false ∧ (c == '.') = false := by simpa [endsName] using hrest
        simp [nameTail, hc]
  rw [nameTail_word_append h, hnil, List.append_nil]

theorem takeName?_append_of_name (h : isIdentifier name = true) {rest : List Char}
    (hrest : endsName rest = true) : takeName? (name ++ rest) = some (name, rest) := by
  have hword := isWord_of_isIdentifier h
  obtain ⟨c, tail, rfl, hc⟩ := exists_cons_of_isIdentifier h
  have hminus : eat? '-' (c :: tail ++ rest) = none := by
    simp [eat?, ne_of_isWord hc (d := '-') rfl]
  have hstart : startsWord (c :: tail ++ rest) = true := hc
  rw [takeName?_eq, hminus]
  simp only [hstart, if_true, nameTail_append_of_word hword hrest]

/-! ## Texts without spaces around them -/

def Tight (s : List Char) : Prop :=
  s ≠ [] ∧ s.head?.any isSpace = false ∧ s.getLast?.any isSpace = false

theorem Tight.append {s t : List Char} (hs : Tight s) (ht : Tight t) (between : List Char) :
    Tight (s ++ between ++ t) := by
  obtain ⟨c, s, rfl⟩ := List.exists_cons_of_ne_nil hs.1
  refine ⟨by simp, by simpa using hs.2.1, ?_⟩
  rw [List.getLast?_append_of_ne_nil _ ht.1]
  exact ht.2.2

theorem trim_of_tight {s : List Char} (h : Tight s) : trim s = s := by
  obtain ⟨hne, hfirst, hlast⟩ := h
  have hstart : trimStart s = s := by
    obtain ⟨c, s, rfl⟩ := List.exists_cons_of_ne_nil hne
    exact List.dropWhile_cons_of_neg (by simpa using hfirst)
  rw [trim, hstart]
  obtain ⟨init, last, rfl⟩ : ∃ init last, s = init ++ [last] :=
    ⟨s.dropLast, s.getLast hne, (List.dropLast_concat_getLast hne).symm⟩
  have hspace : isSpace last = false := by simpa using hlast
  rw [trimEnd_concat, hspace, if_neg Bool.false_ne_true]

end Text

/-! ## Tokens -/

namespace Tokens

open Typings.Span (Neutral)

inductive Adjoined : List Char → Prop
  | nil : Adjoined []
  | cons {opening closing : Char} {body rest : List Char}
      (h : Span.closer? opening = some closing) (hquote : Span.isQuote opening = false)
      (hbody : Neutral body) (hrest : Adjoined rest) : Adjoined (opening :: body ++ closing :: rest)

/-- A text that is one token: groups alone, or a name and the groups behind it. -/
inductive Atom : List Char → Prop
  | groups {s : List Char} (hs : Adjoined s) (hne : s ≠ []) : Atom s
  | name {name s : List Char} (hname : Text.isIdentifier name = true) (hs : Adjoined s) :
      Atom (name ++ s)

variable {s t : List Char}

theorem neutral_of_isIdentifier (h : Text.isIdentifier s = true) : Neutral s := by
  refine Span.neutral_of_plain (List.any_eq_false.2 fun c hc => ?_)
  have hword := Text.isWord_of_isIdentifier h c hc
  simp [Span.isOpener, Text.closer?_of_isWord hword, Text.isCloser_of_isWord hword]

theorem Adjoined.append (hs : Adjoined s) (ht : Adjoined t) : Adjoined (s ++ t) := by
  induction hs with
  | nil => exact ht
  | cons h hquote hbody _ ih =>
      rw [List.append_assoc, List.cons_append]
      exact .cons h hquote hbody ih

theorem Adjoined.neutral (hs : Adjoined s) : Neutral s := by
  induction hs with
  | nil => exact .nil
  | cons h hquote hbody _ ih =>
      rw [List.append_cons]
      exact (hbody.enclosed h hquote).append ih

theorem Atom.append (hs : Atom s) (ht : Adjoined t) : Atom (s ++ t) := by
  cases hs with
  | groups hs hne => exact .groups (hs.append ht) (by simp [hne])
  | name hname hs =>
      rw [List.append_assoc]
      exact .name hname (hs.append ht)

theorem Atom.neutral (hs : Atom s) : Neutral s := by
  cases hs with
  | groups hs _ => exact hs.neutral
  | name hname hs => exact (neutral_of_isIdentifier hname).append hs.neutral

theorem takeSpans_adjoined (hs : Adjoined s) {rest : List Char}
    (hrest : rest.head?.any Span.isOpener = false) : takeSpans (s ++ rest) = ⟨s, rest, none⟩ := by
  induction hs with
  | nil =>
      refine takeSpans_of_none ?_
      cases rest with
      | nil => rfl
      | cons c rest =>
          have hc : Span.closer? c = none := by simpa [Span.isOpener] using hrest
          simp only [List.nil_append, Span.take?, hc]
  | @cons opening closing body groups h hquote hbody _ ih =>
      have htake := Span.take?_enclosed h hquote hbody (groups ++ rest)
      rw [show opening :: body ++ closing :: groups ++ rest =
        opening :: body ++ closing :: (groups ++ rest) by simp, takeSpans_of_some htake, ih]
      simp

/-! ### What may follow a token -/

theorem isOpener_of_ends {c : Char}
    (h : (Text.isBlank c || isTerminator c || (joiner? c).isSome || isCloser c) = true) :
    Span.isOpener c = false ∧ Text.isWord c = false ∧ c ≠ '.' := by
  rw [Bool.or_eq_true, Bool.or_eq_true, Bool.or_eq_true] at h
  obtain ((h | h) | h) | h := h
  · exact ⟨Text.forall_blank (P := fun c => Span.isOpener c = false) rfl rfl rfl rfl rfl c h,
      Text.isWord_of_isBlank c h, by rintro rfl; cases h⟩
  · simp only [isTerminator, Bool.or_eq_true, beq_iff_eq] at h
    rcases h with rfl | rfl <;> decide
  · unfold joiner? at h
    split at h
    · decide
    · decide
    · cases h
  · simp only [isCloser, Bool.or_eq_true, beq_iff_eq] at h
    obtain ((rfl | rfl) | rfl) | rfl := h <;> decide

theorem not_opener_of_endsToken (h : endsToken s = true) : s.head?.any Span.isOpener = false := by
  cases s with
  | nil => rfl
  | cons c s => exact (isOpener_of_ends h).1

theorem endsName_of_endsToken (h : endsToken s = true) : Text.endsName s = true := by
  cases s with
  | nil => rfl
  | cons c s => simpa [Text.endsName] using (isOpener_of_ends h).2

theorem Adjoined.endsName (hs : Adjoined s) {rest : List Char} (hrest : endsToken rest = true) :
    Text.endsName (s ++ rest) = true := by
  cases hs with
  | nil => exact endsName_of_endsToken hrest
  | cons h hquote _ _ =>
      obtain ⟨rfl, -⟩ | ⟨rfl, -⟩ | ⟨rfl, -⟩ | ⟨rfl, -⟩ := Span.closer?_cases h hquote <;> rfl

/-! ### Reading a token -/

theorem sightOfSpans_adjoined (lead : List Char) (hs : Adjoined s) {rest : List Char}
    (hrest : endsToken rest = true) {ends : List Char → Bool} (hends : ends rest = true) :
    sightOfSpans lead (s ++ rest) ends = .token (lead ++ s) rest := by
  unfold sightOfSpans
  rw [takeSpans_adjoined hs (not_opener_of_endsToken hrest)]
  simp only [hends, if_true]

theorem look_atom (hs : Atom s) {rest : List Char} (hrest : endsToken rest = true) :
    look (s ++ rest) = .token s rest := by
  cases hs with
  | groups hs hne =>
      have hsight : sightOfSpans [] (s ++ rest) (fun _ => true) = .token s rest :=
        sightOfSpans_adjoined [] hs hrest rfl
      cases hs with
      | nil => exact absurd rfl hne
      | cons h hquote hbody hgroups =>
          obtain ⟨rfl, -⟩ | ⟨rfl, -⟩ | ⟨rfl, -⟩ | ⟨rfl, -⟩ := Span.closer?_cases h hquote
          all_goals exact hsight
  | @name name groups hname hs =>
      have hname' := Text.takeName?_append_of_name hname (hs.endsName hrest)
      have hsight : sightOfName (name ++ (groups ++ rest)) = .token (name ++ groups) rest := by
        rw [sightOfName, hname']
        exact sightOfSpans_adjoined name hs hrest hrest
      rw [List.append_assoc]
      obtain ⟨c, name, rfl, hc⟩ := Text.exists_cons_of_isIdentifier hname
      have harrow : ∀ tail, c = '=' → name ++ (groups ++ rest) = '>' :: tail → False :=
        fun _ heq => absurd heq (Text.ne_of_isWord hc rfl)
      rw [List.cons_append, look.eq_3 c _ harrow]
      simp only [lookAt, Text.isTerminator_of_isWord hc, Text.isCloser_of_isWord hc,
        Text.joiner?_of_isWord hc, Span.isOpener, Text.closer?_of_isWord hc]
      exact hsight

theorem Adjoined.last_eq_closer (hs : Adjoined s) (hne : s ≠ []) :
    ∃ c, s.getLast? = some c ∧ isCloser c = true := by
  induction hs with
  | nil => exact absurd rfl hne
  | @cons opening closing body groups h hquote _ _ ih =>
      cases groups with
      | nil =>
          refine ⟨closing, List.getLast?_concat .., ?_⟩
          obtain ⟨-, rfl⟩ | ⟨-, rfl⟩ | ⟨-, rfl⟩ | ⟨-, rfl⟩ := Span.closer?_cases h hquote <;> rfl
      | cons c groups =>
          obtain ⟨d, hd, hcloser⟩ := ih (by simp)
          rw [List.append_cons, List.getLast?_append_of_ne_nil _ (by simp)]
          exact ⟨d, hd, hcloser⟩

theorem Atom.tight (hs : Atom s) : Text.Tight s := by
  have hspace : ∀ c, isCloser c = true → Text.isSpace c = false := by
    intro c hc
    simp only [isCloser, Bool.or_eq_true, beq_iff_eq] at hc
    obtain ((rfl | rfl) | rfl) | rfl := hc <;> rfl
  cases hs with
  | groups hs hne =>
      obtain ⟨d, hd, hcloser⟩ := hs.last_eq_closer hne
      refine ⟨hne, ?_, by rw [hd]; exact hspace d hcloser⟩
      cases hs with
      | nil => rfl
      | cons h hquote _ _ =>
          obtain ⟨rfl, -⟩ | ⟨rfl, -⟩ | ⟨rfl, -⟩ | ⟨rfl, -⟩ := Span.closer?_cases h hquote <;> rfl
  | @name name groups hname hs =>
      have hword := Text.isWord_of_isIdentifier hname
      have hne := Text.ne_nil_of_isIdentifier hname
      refine ⟨by simp [hne], ?_, ?_⟩
      · obtain ⟨c, name, rfl, hc⟩ := Text.exists_cons_of_isIdentifier hname
        exact Text.isSpace_of_isWord hc
      · by_cases hgroups : groups = []
        · rw [hgroups, List.append_nil, List.getLast?_eq_some_getLast hne]
          exact Text.isSpace_of_isWord (hword _ (List.getLast_mem hne))
        · obtain ⟨d, hd, hcloser⟩ := hs.last_eq_closer hgroups
          rw [List.getLast?_append_of_ne_nil _ hgroups, hd]
          exact hspace d hcloser

theorem skipBlanks_atom (hs : Atom s) (rest : List Char) :
    Text.skipBlanks (s ++ rest) = s ++ rest := by
  obtain ⟨hne, hfirst, -⟩ := hs.tight
  obtain ⟨c, s, rfl⟩ := List.exists_cons_of_ne_nil hne
  refine List.dropWhile_cons_of_neg fun hblank => ?_
  have hspace := Text.isSpace_of_isBlank hblank
  simp [hspace] at hfirst

theorem scan_atom (hs : Atom s) (start : List Char) {rest : List Char}
    (hrest : endsToken rest = true) (joiner : Option Joiner) :
    scan start (s ++ rest) joiner =
      ((scan start rest joiner).1.map fun tokens => { tokens with items := s :: tokens.items },
        (scan start rest joiner).2) := by
  rw [scan_eq, skipBlanks_atom hs, look_atom hs hrest]

theorem scan_blank {c : Char} (hc : Text.isBlank c = true) (start s : List Char)
    (joiner : Option Joiner) : scan start (c :: s) joiner = scan start s joiner := by
  rw [scan_eq, scan_eq start s, show Text.skipBlanks (c :: s) = Text.skipBlanks s from
    List.dropWhile_cons_of_pos hc]

/-- A level that has come to `s` ends there, and `rest` is behind it. -/
structure Stops (s rest : List Char) : Prop where
  ends : endsToken s = true
  look : look (Text.skipBlanks s) = .finish rest

theorem stops_nil : Stops [] [] := ⟨rfl, rfl⟩

theorem stops_semicolon (rest : List Char) : Stops (';' :: rest) rest := ⟨rfl, rfl⟩

theorem Stops.scan {rest : List Char} (h : Stops s rest) (start : List Char)
    (joiner : Option Joiner) : scan start s joiner = (.ok ⟨[], joiner⟩, rest) := by
  rw [scan_eq, h.look]

theorem take_atom (hs : Atom s) : take s = (.ok ⟨[s], none⟩, []) := by
  have h := scan_atom hs s (show endsToken [] = true from rfl) none
  rwa [List.append_nil, stops_nil.scan] at h

end Tokens

/-! ## Arguments -/

namespace Span

open Tokens (Adjoined Atom)

variable {s : List Char}

theorem takeArgument_plain (h : ∀ c ∈ s, c ≠ ',' ∧ closer? c = none) (rest : List Char) :
    takeArgument (s ++ rest) = (takeArgument rest).map fun a => (s ++ a.1, a.2) := by
  induction s with
  | nil => cases h : takeArgument rest <;> simp [h, Except.map]
  | cons c s ih =>
      rw [List.forall_mem_cons] at h
      have htake : take? (c :: (s ++ rest)) = .ok none := by simp only [take?, h.1.2]
      rw [List.cons_append, takeArgument_of_none h.1.1 htake, ih h.2]
      cases takeArgument rest <;> rfl

theorem plain_of_isIdentifier (h : Text.isIdentifier s = true) :
    ∀ c ∈ s, c ≠ ',' ∧ closer? c = none := fun c hc =>
  have hword := Text.isWord_of_isIdentifier h c hc
  ⟨Text.ne_of_isWord hword rfl, Text.closer?_of_isWord hword⟩

theorem takeArgument_adjoined (hs : Adjoined s) (rest : List Char) :
    takeArgument (s ++ rest) = (takeArgument rest).map fun a => (s ++ a.1, a.2) := by
  induction hs with
  | nil => cases h : takeArgument rest <;> simp [h, Except.map]
  | @cons opening closing body groups h hquote hbody _ ih =>
      have hcomma : opening ≠ ',' := by
        rintro rfl
        cases h
      have htake := take?_enclosed h hquote hbody (groups ++ rest)
      rw [List.cons_append] at htake
      rw [show opening :: body ++ closing :: groups ++ rest =
        opening :: (body ++ closing :: (groups ++ rest)) by simp,
        takeArgument_of_some hcomma htake, ih]
      cases takeArgument rest <;> simp [Except.map]

theorem takeArgument_atom (hs : Atom s) (rest : List Char) :
    takeArgument (s ++ rest) = (takeArgument rest).map fun a => (s ++ a.1, a.2) := by
  cases hs with
  | groups hs _ => exact takeArgument_adjoined hs rest
  | name hname hs =>
      rw [List.append_assoc, takeArgument_plain (plain_of_isIdentifier hname),
        takeArgument_adjoined hs]
      cases takeArgument rest <;> simp [Except.map]

theorem arguments_of_single (h : takeArgument s = .ok (s, none)) (htight : Text.Tight s) :
    arguments s = .ok [s] := by
  rw [arguments, pieces_eq, h]
  simp only [Text.trim_of_tight htight]
  obtain ⟨c, s, rfl⟩ := List.exists_cons_of_ne_nil htight.1
  rfl

end Span

end Typings
