import Mathlib.Data.List.TakeWhile
import Typings.Proofs.Action
import Typings.Proofs.Bytewise.Tokens

/-!
# The text of a level

What is read of a level are its tokens with blanks and joiners between them, and at most one
terminator.  So nothing but these gets lost, and the cursor stops at a known place.
-/

namespace Typings

namespace Tokens

/-! ## What stands at the front -/

section Fronts

open Bytewise.Reads

variable {s rest : List Char}

theorem cases_of_finish (h : look s = .finish rest) :
    (s = [] ∧ rest = []) ∨ (∃ c, isTerminator c = true ∧ s = c :: rest) ∨
      s = rest ∧ rest.head?.any isCloser = true := by
  rcases s with _ | ⟨c, tail⟩
  · cases h
    exact .inl ⟨rfl, rfl⟩
  · cases hterminator : isTerminator c
    · cases hcloser : isCloser c
      · rcases hjoiner : joiner? c with _ | found
        · have htoken := isToken_look hterminator hcloser hjoiner tail
          rw [h] at htoken
          exact htoken.elim
        · rw [look_of_joiner tail hterminator hcloser hjoiner] at h
          cases h
      · rw [look_of_closer tail hterminator hcloser] at h
        cases h
        exact .inr (.inr ⟨rfl, hcloser⟩)
    · rw [look_of_terminator tail hterminator] at h
      cases h
      exact .inr (.inl ⟨c, hterminator, rfl⟩)

theorem cases_of_joiner {found : Joiner} (h : look s = .joiner found rest) :
    ∃ c, joiner? c = some found ∧ s = c :: rest := by
  rcases s with _ | ⟨c, tail⟩
  · cases h
  · cases hterminator : isTerminator c
    · cases hcloser : isCloser c
      · rcases hjoiner : joiner? c with _ | found'
        · have htoken := isToken_look hterminator hcloser hjoiner tail
          rw [h] at htoken
          exact htoken.elim
        · rw [look_of_joiner tail hterminator hcloser hjoiner] at h
          cases h
          exact ⟨c, hjoiner, rfl⟩
      · rw [look_of_closer tail hterminator hcloser] at h
        cases h
    · rw [look_of_terminator tail hterminator] at h
      cases h

theorem ne_nil_of_token {item : List Char} (h : look s = .token item rest) : item ≠ [] := by
  rintro rfl
  have happend := append_of_look h
  have hlength := length_lt_of_look h
  rw [List.nil_append] at happend
  rw [happend] at hlength
  exact absurd hlength (Nat.lt_irrefl _)

end Fronts

/-! ## Tokens and what stands between them -/

/-- Tokens with a gap behind each, and a gap in front of them all. -/
structure Woven where
  lead : List Char
  parts : List (List Char × List Char)

namespace Woven

def text (w : Woven) : List Char := w.lead ++ w.parts.flatMap fun part => part.1 ++ part.2

def items (w : Woven) : List (List Char) := w.parts.map Prod.fst

def gaps (w : Woven) : List (List Char) := w.lead :: w.parts.map Prod.snd

def indent (front : List Char) (w : Woven) : Woven := { w with lead := front ++ w.lead }

def behind (front item : List Char) (w : Woven) : Woven := ⟨front, (item, w.lead) :: w.parts⟩

theorem text_indent (front : List Char) (w : Woven) : (w.indent front).text = front ++ w.text :=
  List.append_assoc ..

theorem text_behind (front item : List Char) (w : Woven) :
    (w.behind front item).text = front ++ (item ++ w.text) := by
  simp only [text, behind, List.flatMap_cons, List.append_assoc]

end Woven

/-- What may stand between the tokens of a level: blanks, and the joiner that the level has. -/
def IsGap (joiner : Option Joiner) (gap : List Char) : Prop :=
  ∀ c ∈ gap, Text.isBlank c = true ∨ ∃ found, joiner? c = some found ∧ joiner = some found

/-- The tokens of a level with its gaps, which hold the joiner that it did not have to begin
with. -/
structure Level (joiner : Option Joiner) (t : Tokens) (w : Woven) : Prop where
  items_eq : w.items = t.items
  ne_nil : ∀ item ∈ t.items, item ≠ []
  gaps : ∀ gap ∈ w.gaps, IsGap t.joiner gap
  joined : t.joiner = joiner ∨ joiner = none ∧
    ∃ found, t.joiner = some found ∧ ∃ gap ∈ w.gaps, ∃ c ∈ gap, joiner? c = some found

/-- How a level ends: what is taken along there, and what is left. -/
inductive LevelEnd : List Char → List Char → Prop
  | text : LevelEnd [] []
  | terminator {c : Char} {rest : List Char} (h : isTerminator c = true) : LevelEnd [c] rest
  | closer {rest : List Char} (h : rest.head?.any isCloser = true) : LevelEnd [] rest

variable {joiner : Option Joiner} {t : Tokens} {w : Woven}

namespace Level

theorem indent (h : Level joiner t w) {front : List Char} (hfront : IsGap t.joiner front) :
    Level joiner t (w.indent front) where
  items_eq := h.items_eq
  ne_nil := h.ne_nil
  gaps := by
    obtain ⟨hlead, hmore⟩ := List.forall_mem_cons.1 h.gaps
    exact List.forall_mem_cons.2 ⟨List.forall_mem_append.2 ⟨hfront, hlead⟩, hmore⟩
  joined := by
    refine h.joined.imp_right fun ⟨hnone, found, hfound, gap, hgap, c, hc, hjoiner⟩ =>
      ⟨hnone, found, hfound, ?_⟩
    rcases List.mem_cons.1 hgap with rfl | hgap
    · exact ⟨front ++ w.lead, List.mem_cons_self, c, List.mem_append_right _ hc, hjoiner⟩
    · exact ⟨gap, List.mem_cons_of_mem _ hgap, c, hc, hjoiner⟩

theorem behind (h : Level joiner t w) {front item : List Char} (hfront : IsGap t.joiner front)
    (hitem : item ≠ []) :
    Level joiner { t with items := item :: t.items } (w.behind front item) where
  items_eq := congrArg (item :: ·) h.items_eq
  ne_nil := List.forall_mem_cons.2 ⟨hitem, h.ne_nil⟩
  gaps := List.forall_mem_cons.2 ⟨hfront, h.gaps⟩
  joined := by
    refine h.joined.imp_right fun ⟨hnone, found, hfound, gap, hgap, hc⟩ => ?_
    exact ⟨hnone, found, hfound, gap, List.mem_cons_of_mem _ hgap, hc⟩

theorem join {found : Joiner} (h : Level (some found) t w)
    (hjoiner : joiner.all (· == found) = true) {c : Char} (hc : joiner? c = some found) :
    Level joiner t (w.indent [c]) := by
  have hfound : t.joiner = some found := h.joined.resolve_right fun hnone => nomatch hnone.1
  have hgap : IsGap t.joiner [c] := by
    intro d hd
    obtain rfl := List.mem_singleton.1 hd
    exact .inr ⟨found, hc, hfound⟩
  have hindent := h.indent hgap
  refine { hindent with joined := ?_ }
  cases joiner with
  | some active =>
      obtain rfl : active = found := by simpa using hjoiner
      exact .inl hfound
  | none =>
      exact .inr ⟨rfl, found, hfound, [c] ++ w.lead, List.mem_cons_self, c, List.mem_cons_self, hc⟩

end Level

/-! ## Reading a level -/

theorem exists_blanks (s : List Char) : ∃ blanks, s = blanks ++ Text.skipBlanks s ∧
    ∀ joiner, IsGap joiner blanks :=
  ⟨s.takeWhile Text.isBlank, List.takeWhile_append_dropWhile.symm, fun _ _ hc =>
    .inl (List.mem_takeWhile_imp hc)⟩

theorem level_scan (start s : List Char) (joiner : Option Joiner) :
    ∀ t, (scan start s joiner).1 = .ok t → ∃ w ending,
      s = w.text ++ (ending ++ (scan start s joiner).2) ∧ Level joiner t w ∧
        LevelEnd ending (scan start s joiner).2 := by
  fun_induction scan start s joiner with
  | case1 s joiner rest hfront =>
      rintro _ ⟨⟩
      obtain ⟨blanks, hs, hblanks⟩ := exists_blanks s
      have hlevel : Level joiner ⟨[], joiner⟩ ⟨blanks, []⟩ :=
        ⟨rfl, List.forall_mem_nil _, List.forall_mem_singleton.2 (hblanks joiner), .inl rfl⟩
      have htext : (⟨blanks, []⟩ : Woven).text = blanks := List.append_nil _
      dsimp only
      obtain ⟨hnil, rfl⟩ | ⟨c, hc, hcons⟩ | ⟨heq, hcloser⟩ := cases_of_finish (look_of_front hfront)
      · exact ⟨_, [], by rw [htext, List.nil_append, ← hnil]; exact hs, hlevel, .text⟩
      · rw [hcons] at hs
        exact ⟨_, [c], by rw [htext]; exact hs, hlevel, .terminator hc⟩
      · exact ⟨_, [], by rw [htext, List.nil_append, ← heq]; exact hs, hlevel, .closer hcloser⟩
  | case2 s joiner found rest hlt hfront _ hjoiner ih =>
      intro t ht
      obtain ⟨blanks, hs, hblanks⟩ := exists_blanks s
      obtain ⟨c, hc, hcons⟩ := cases_of_joiner (look_of_front hfront)
      obtain ⟨w, ending, hrest, hlevel, hend⟩ := ih t ht
      refine ⟨(w.indent [c]).indent blanks, ending, ?_, (hlevel.join hjoiner hc).indent (hblanks _),
        hend⟩
      rw [Woven.text_indent, Woven.text_indent, List.append_assoc, List.append_assoc, ← hrest,
        List.singleton_append, ← hcons]
      exact hs
  | case3 => rintro t ⟨⟩
  | case4 s joiner item rest hlt hfront _ level stop hscan ih =>
      intro t ht
      obtain ⟨t', hlevel', rfl⟩ := Object.map_ok ht
      obtain ⟨blanks, hs, hblanks⟩ := exists_blanks s
      have hlook := look_of_front hfront
      obtain ⟨w, ending, hrest, hlevel, hend⟩ := ih t' (by rw [hscan, hlevel'])
      rw [hscan] at hrest hend
      refine ⟨w.behind blanks item, ending, ?_, hlevel.behind (hblanks _) (ne_nil_of_token hlook),
        hend⟩
      rw [Woven.text_behind, List.append_assoc, List.append_assoc, ← hrest, append_of_look hlook]
      exact hs
  | case5 => rintro t ⟨⟩
  | case6 => rintro t ⟨⟩

end Tokens

/-! ## Where the cursor goes -/

namespace Bytewise

open Text
open Tokens (Woven Level LevelEnd)

def Scan.measuredLevel : Scan (Tokens × Nat) := do
  let start ← pos
  let level ← takeLevel
  return (level, (← pos) - start)

theorem Reads.measuredLevel {text s : List Char} :
    Reads text s Scan.measuredLevel ((Tokens.take s).1.map fun t =>
      ((t, offsetOf text (Tokens.take s).2 - offsetOf text s), (Tokens.take s).2)) := by
  refine pos.bind ?_
  have htake : Reads text s Scan.takeLevel _ := takeLevel
  cases hlevel : (Tokens.take s).1 with
  | error e =>
      rw [hlevel] at htake
      exact htake.bind_error
  | ok t =>
      rw [hlevel] at htake
      exact htake.bind (pos.bind (.pure _))

/-! ### Cursors inside a character -/

section Inside

variable {α β : Type} {text : List Char} {n : Nat}

theorem bind_of_done {x : Scan α} {f : α → Scan β} {c c' : Cursor} {a : α}
    (h : x c = done (.ok (a, c'))) : (x >>= f) c = f a c' := by
  show (x c >>= fun p => f p.1 p.2) = _
  rw [h]
  rfl

theorem bind_of_stuck {x : Scan α} {f : α → Scan β} {c : Cursor} (h : x c = stuck) :
    (x >>= f) c = stuck := by
  show (x c >>= fun p => f p.1 p.2) = _
  rw [h]
  rfl

theorem exists_left_of_inside (h : ¬ IsBoundary text n) (hle : n ≤ byteLength text) :
    ∃ u, (units text)[n]? = some u ∧ ¬ IsAscii u := by
  induction text generalizing n with
  | nil => exact absurd ⟨[], [], rfl, (Nat.le_zero.1 hle).symm⟩ h
  | cons c s ih =>
      have hunits : units (c :: s) = units [c] ++ units s := units_append [c] s
      have hlength : (units [c]).length = c.utf8Size := by simp
      rw [hunits]
      rcases Nat.lt_or_ge n c.utf8Size with hlt | hge
      · have hc : ¬ IsAscii c := by
          intro hascii
          rw [utf8Size_of_isAscii hascii] at hlt
          obtain rfl : n = 0 := by omega
          exact h ⟨[], c :: s, rfl, rfl⟩
        rw [List.getElem?_append_left (by rwa [hlength]),
          List.getElem?_eq_getElem (by rwa [hlength])]
        exact ⟨_, rfl, not_isAscii_of_mem_units hc (List.getElem_mem _)⟩
      · have hrest : ¬ IsBoundary s (n - c.utf8Size) := by
          rintro ⟨before, after, rfl, hbefore⟩
          refine h ⟨c :: before, after, rfl, ?_⟩
          rw [byteLength_cons, hbefore]
          omega
        rw [List.getElem?_append_right (by rwa [hlength]), hlength]
        exact ih hrest (by rw [byteLength_cons] at hle; omega)

/-- No level is read from inside a character: not even the error can be quoted. -/
theorem measuredLevel_inside (h : ¬ IsBoundary text n) (hle : n ≤ byteLength text) :
    Scan.measuredLevel ⟨text, n⟩ = stuck := by
  obtain ⟨u, hu, hascii⟩ := exists_left_of_inside h hle
  have hleft : (Cursor.mk text n).left.head? = some u := by
    rw [Cursor.left, List.head?_drop, hu]
  obtain ⟨more, hmore⟩ := List.head?_eq_some_iff.1 hleft
  have hblanks : Scan.skipBlanks ⟨text, n⟩ = done (.ok ((), ⟨text, n⟩)) := by
    have hnone : ((Cursor.mk text n).left.takeWhile isBlank).length = 0 := by
      rw [hmore, List.takeWhile_cons_of_neg (by simp [asciiOnly_isBlank.eq_false hascii])]
      rfl
    show Scan.step _ ⟨text, n⟩ = _
    rw [hnone]
    rfl
  have hpeek : Scan.peek ⟨text, n⟩ = done (.ok (some u, ⟨text, n⟩)) := by
    show done (.ok ((Cursor.mk text n).left.head?, _)) = _
    rw [hleft]
  have hquote : Scan.textFrom n ⟨text, n⟩ = stuck := by
    have hslice : slice? text n (byteLength text) = none := by
      rw [← Option.not_isSome_iff_eq_none, isSome_slice?_iff]
      exact fun hsome => h hsome.2.2.1
    show (slice text n (byteLength text) >>= fun quoted => done (.ok (quoted, _))) = _
    rw [slice, hslice]
    rfl
  have hplain : (u == '=') = false := beq_eq_false_iff_ne.2 (ne_of_isAscii (by decide) hascii)
  have hskip : Scan.skipToken n u ⟨text, n⟩ = stuck := by
    have hsees : Scan.seesTwo '=' (· == '>') ⟨text, n⟩ = done (.ok (false, ⟨text, n⟩)) := by
      show done (.ok ((Cursor.mk text n).left.head? == some '=' && _, _)) = _
      rw [hleft, Option.some_beq_some, hplain]
      rfl
    rw [Scan.skipToken, bind_of_done hsees]
    dsimp only
    rw [asciiOnly_isOpener.eq_false hascii,
      (asciiOnly_isWord.or (asciiOnly_beq (by decide))).eq_false hascii]
    exact bind_of_stuck hquote
  have hround : ∀ next joiner, Scan.levelRound n next joiner ⟨text, n⟩ = stuck := by
    intro next joiner
    rw [Scan.levelRound, bind_of_done hblanks, bind_of_done hpeek]
    dsimp only
    have hjoiner : Tokens.joiner? u = none := by
      have hnone := asciiOnly_joiner?.eq_false hascii
      rwa [Option.isSome_eq_false_iff, Option.isNone_iff_eq_none] at hnone
    rw [asciiOnly_isTerminator.eq_false hascii, asciiOnly_isCloser.eq_false hascii, hjoiner]
    exact (bind_of_done rfl).trans (bind_of_stuck hskip)
  have hlevel : Scan.takeLevel ⟨text, n⟩ = stuck := hround _ _
  exact (bind_of_done rfl).trans (bind_of_stuck hlevel)

end Inside

/--
What is read of a level from byte `pos` on are its tokens, none of which is empty, with blanks and
its joiner in front of them, between them and behind them, and then at most one terminator.  The
cursor goes just as far; what is left there is nothing, stands behind the terminator, or begins with
a closer.
-/
theorem level_lossless {text : List Char} {pos : Nat} (hpos : pos ≤ byteLength text) {t : Tokens}
    {consumed : Nat} {c : Cursor}
    (h : Scan.measuredLevel ⟨text, pos⟩ = done (.ok ((t, consumed), c))) :
    ∃ w ending rest, Level none t w ∧ LevelEnd ending rest ∧
      c = ⟨text, pos + consumed⟩ ∧ consumed = byteLength (w.text ++ ending) ∧
      slice? text pos c.pos = some (w.text ++ ending) ∧
      slice? text c.pos (byteLength text) = some rest ∧
      Tokens.take (w.text ++ (ending ++ rest)) = (.ok t, rest) := by
  by_cases hboundary : IsBoundary text pos
  · obtain ⟨before, s, rfl, rfl⟩ := hboundary
    have hread := (@Reads.measuredLevel (before ++ s) s (List.suffix_append _ _)).1
    rw [Cursor.facing, offsetOf_append, h] at hread
    rcases htake : Tokens.take s with ⟨e | t', rest⟩
    · rw [htake] at hread
      cases hread
    · obtain ⟨w, ending, hs, hlevel, hend⟩ := Tokens.level_scan s s none t' (by
        rw [← Tokens.take, htake])
      rw [← Tokens.take, htake] at hs hend
      have hplace : before ++ s = (before ++ (w.text ++ ending)) ++ rest := by
        rw [hs]
        simp only [List.append_assoc]
      have hoffset : offsetOf (before ++ s) rest =
          byteLength before + byteLength (w.text ++ ending) := by
        rw [hplace, offsetOf_append, byteLength_append]
      rw [htake] at hread
      have hsame : ((t, consumed), c) =
          ((t', offsetOf (before ++ s) rest - byteLength before), .facing (before ++ s) rest) :=
        Except.ok.inj (Option.some.inj hread)
      obtain ⟨hfound, rfl⟩ := Prod.mk.inj hsame
      obtain ⟨rfl, hconsumed⟩ := Prod.mk.inj hfound
      rw [hoffset, Nat.add_sub_cancel_left] at hconsumed
      refine ⟨w, ending, rest, hlevel, hend, ?_, hconsumed, ?_, ?_, by rw [← hs, htake]⟩
      · rw [Cursor.facing, hoffset, hconsumed]
      · rw [Cursor.facing, hoffset, hplace, List.append_assoc]
        exact slice?_append before (w.text ++ ending) rest
      · exact slice?_end (hplace ▸ List.suffix_append _ _)
  · rw [measuredLevel_inside hboundary hpos] at h
    cases h

def joinedLevel : List Char := "ö | 'ß,'|\n|a.b<C>[] ; d".toList

theorem level_lossless_joined : ∃ w ending rest,
    Level none ⟨["'ß,'".toList, "a.b<C>[]".toList], some .union⟩ w ∧ LevelEnd ending rest ∧
      slice? joinedLevel 2 23 = some (w.text ++ ending) ∧
      w.text ++ ending = " | 'ß,'|\n|a.b<C>[] ;".toList ∧ rest = " d".toList := by
  have htake : Tokens.take " | 'ß,'|\n|a.b<C>[] ; d".toList =
      (.ok ⟨["'ß,'".toList, "a.b<C>[]".toList], some .union⟩, " d".toList) :=
    Prod.ext (eq_ok_of_toOption (by decide +kernel)) (by decide +kernel)
  have hlevel : Scan.measuredLevel ⟨joinedLevel, 2⟩ =
      done (.ok ((⟨["'ß,'".toList, "a.b<C>[]".toList], some .union⟩, 21), ⟨joinedLevel, 23⟩)) := by
    have hread := (@Reads.measuredLevel joinedLevel " | 'ß,'|\n|a.b<C>[] ; d".toList
      ⟨"ö".toList, rfl⟩).1
    rw [htake] at hread
    exact hread
  obtain ⟨w, ending, rest, hweaves, hend, -, -, hread, hrest, -⟩ :=
    level_lossless (by decide +kernel) hlevel
  have hread' : slice? joinedLevel 2 23 = some " | 'ß,'|\n|a.b<C>[] ;".toList := by decide +kernel
  have hrest' : slice? joinedLevel 23 (byteLength joinedLevel) = some " d".toList := by
    decide +kernel
  refine ⟨w, ending, rest, hweaves, hend, hread, ?_, ?_⟩
  · exact Option.some.inj (hread.symm.trans hread')
  · exact Option.some.inj (hrest.symm.trans hrest')

end Bytewise

end Typings
