import Typings.Proofs.Braces
import Typings.Proofs.NestingLimit
import Typings.Proofs.TokenText

/-!
# Function types

The parameter list and the arrow of a function type are two tokens on the level of its return type.
A level of several tokens is unknown, unless a joiner stands between two of them; a joiner of the
return type therefore joins the parameter list and the arrow as well.
-/

namespace Typings

def Text.functionType (parameters result : List Char) : List Char :=
  '(' :: parameters ++ ')' :: " => ".toList ++ result

namespace Tokens

variable {parameters result rest : List Char} {level : Tokens}

theorem scan_of_ok {start s : List Char} {joiner : Option Joiner}
    (h : (scan start s joiner).1 = .ok level) (start' : List Char) :
    scan start' s joiner = (.ok level, (scan start s joiner).2) := by
  fun_induction scan start s joiner generalizing level with
  | case1 s joiner rest hfront =>
      rw [scan_eq, look_of_front hfront]
      exact Prod.ext h rfl
  | case2 s joiner found rest hlt hfront _ hjoiner ih =>
      rw [scan_eq, look_of_front hfront]
      simp only [Front.sight, if_pos hjoiner]
      exact ih h
  | case3 => cases h
  | case4 s joiner item rest hlt hfront _ tail stop hscan ih =>
      obtain ⟨level, htail, rfl⟩ := Object.map_ok h
      have hrest := ih (by rw [hscan, htail])
      rw [hscan] at hrest
      rw [scan_eq, look_of_front hfront]
      simp only [Front.sight, hrest, Except.map]
  | case5 => cases h
  | case6 => cases h

theorem scan_arrow (start s : List Char) (joiner : Option Joiner) :
    scan start (" => ".toList ++ s) joiner =
      ((scan start s joiner).1.map
          fun tokens => { tokens with items := ['=', '>'] :: tokens.items },
        (scan start s joiner).2) := by
  change scan start (' ' :: '=' :: '>' :: ' ' :: s) joiner = _
  rw [scan_blank rfl, scan_eq,
    show look (Text.skipBlanks ('=' :: '>' :: ' ' :: s)) = .token ['=', '>'] (' ' :: s) from rfl]
  dsimp only
  rw [scan_blank rfl]

theorem take_functionType (hparameters : Span.nesting? '(' ')' 0 parameters = some 0)
    (hresult : take result = (.ok level, rest)) :
    take (Text.functionType parameters result) =
      (.ok ⟨('(' :: parameters ++ [')']) :: ['=', '>'] :: level.items, level.joiner⟩, rest) := by
  have hspan : Span.take? (Text.functionType parameters result) =
      .ok (some ('(' :: parameters ++ [')'], " => ".toList ++ result)) := by
    rw [Text.functionType, List.append_assoc, List.cons_append]
    exact Span.take?_of_nesting? rfl rfl hparameters _
  have hnone : takeSpans (" => ".toList ++ result) = ⟨[], " => ".toList ++ result, none⟩ :=
    takeSpans_of_none rfl
  have hlook : look (Text.skipBlanks (Text.functionType parameters result)) =
      sightOfSpans [] (Text.functionType parameters result) fun _ => true := rfl
  have hlevel := scan_of_ok (congrArg Prod.fst hresult) (Text.functionType parameters result)
  rw [show (scan result result none).2 = rest from congrArg Prod.snd hresult] at hlevel
  rw [take, scan_eq, hlook, sightOfSpans, takeSpans_of_some hspan, hnone]
  simp only [if_true, scan_arrow, hlevel]
  simp [Except.map]

end Tokens

namespace Reading

variable {σ : Type}

theorem gives_length_inOrder (members : List (Action σ Expr)) :
    (inOrder members).Gives fun es => es.length = members.length := by
  induction members with
  | nil => exact .pure rfl
  | cons member members ih =>
      exact (Action.Gives.any member).bind fun e _ =>
        ih.bind fun es hes => .pure (congrArg (· + 1) hes)

theorem gives_joined (generic : Option (List Char)) (scope : Scope σ) (n : Nat)
    (items : List (List Char)) (joiner : Joiner) :
    ((Term.ofLevel generic (n + 1) (.ok ⟨items, some joiner⟩)).resolve scope).Gives fun e =>
      ∃ members, e = .compound joiner members ∧ members.length = items.length := by
  rw [resolve_ofLevel_succ]
  exact (gives_length_inOrder _).bind fun es hes => .pure ⟨es, rfl, hes.trans (List.length_map _)⟩

theorem exists_level_of_parse {generic : Option (List Char)} {scope : Scope σ} {text : List Char}
    {e : Expr} {s : σ}
    (h : ((parse (some maxNesting) generic scope text).eval ⟨0, s⟩).1 =
      .ok (e, Text.byteLength text)) :
    ∃ level, Tokens.take text = (.ok level, []) := by
  rw [eval_parse_new] at h
  obtain ⟨e', hlevel, hpair⟩ := Object.map_ok h
  obtain ⟨rfl, hoffset⟩ := Prod.mk.inj hpair
  have hrest : (Tokens.take text).2 = [] :=
    (Text.offsetOf_eq_byteLength_iff (Tokens.take_suffix text)).1 hoffset
  rw [Term.take, show maxNesting = 255 + 1 from rfl, resolve_ofLevel_succ] at hlevel
  rcases htake : Tokens.take text with ⟨error | level, rest⟩
  · rw [htake] at hlevel
    cases hlevel
  · rw [htake] at hrest
    exact ⟨level, by rw [← hrest]⟩

/--
A function type whose return type is read by itself and to its end.  It is unknown, and all of it is
taken, unless its return type has a joiner; what is read then is a compound of the members of the
return type and two more, the parameter list and the arrow.
-/
theorem parse_functionType (generic : Option (List Char)) (scope : Scope σ)
    {parameters result : List Char} {e : Expr} {s : σ}
    (hparameters : Span.nesting? '(' ')' 0 parameters = some 0)
    (hresult : ((parse (some maxNesting) generic scope result).eval ⟨0, s⟩).1 =
      .ok (e, Text.byteLength result)) :
    ∃ level, Tokens.take result = (.ok level, []) ∧
      let text := Text.functionType parameters result
      let run := (parse (some maxNesting) generic scope text).eval ⟨0, s⟩
      (level.joiner = none → run = (.ok (.unknown, Text.byteLength text), ⟨0, s⟩)) ∧
        ∀ joiner, level.joiner = some joiner → ∀ read consumed, run.1 = .ok (read, consumed) →
          ∃ members, read = .compound joiner members ∧
            members.length = level.items.length + 2 ∧ consumed = Text.byteLength text := by
  obtain ⟨level, hlevel⟩ := exists_level_of_parse hresult
  have htokens := Tokens.take_functionType hparameters hlevel
  refine ⟨level, hlevel, ?_⟩
  dsimp only
  rw [eval_parse_new, Term.take, htokens, show maxNesting = 255 + 1 from rfl]
  dsimp only
  refine ⟨fun hjoiner => ?_, fun joiner hjoiner read consumed hread => ?_⟩
  · rw [resolve_ofLevel_succ, hjoiner]
    rfl
  · rw [hjoiner] at hread
    obtain ⟨compound, hcompound, hpair⟩ := Object.map_ok hread
    obtain ⟨rfl, rfl⟩ := Prod.mk.inj hpair
    obtain ⟨members, rfl, hlength⟩ := gives_joined generic scope 255 _ joiner _ _ hcompound
    exact ⟨members, rfl, hlength, rfl⟩

theorem parse_functionType_number : ∃ e,
    ((parse (some maxNesting) none .empty "number;".toList).eval ⟨0, ()⟩).1 = .ok (e, 7) ∧
      Span.nesting? '(' ')' 0 "x: (string)".toList = some 0 ∧
      (parse (some maxNesting) none .empty "(x: (string)) => number;".toList).eval ⟨0, ()⟩ =
        (.ok (.unknown, 24), ⟨0, ()⟩) := by
  have hread : (((parse (some maxNesting) none .empty "number;".toList).eval ⟨0, ()⟩).1.toOption.map
      Prod.snd) = some 7 := by decide +kernel
  obtain ⟨⟨e, consumed⟩, he, rfl⟩ := Option.map_eq_some_iff.1 hread
  have hresult := eq_ok_of_toOption he
  have hparameters : Span.nesting? '(' ')' 0 "x: (string)".toList = some 0 := by decide
  obtain ⟨level, hlevel, hunknown, -⟩ := parse_functionType none .empty hparameters hresult
  have hplain : (Tokens.take "number;".toList).1.toOption.map (·.joiner) = some none := by
    decide +kernel
  rw [hlevel] at hplain
  exact ⟨e, hresult, hparameters, hunknown (Option.some.inj hplain)⟩

/-- The return type is a type by itself, and the parameter list in front of it is none. -/
theorem not_unknown_of_union :
    Span.nesting? '(' ')' 0 "x: string".toList = some 0 ∧
      (((parse (some maxNesting) none .empty "string | number".toList).eval ⟨0, ()⟩).1.map
        Prod.snd) = .ok 15 ∧
      (((parse (some maxNesting) none .empty "(x: string) => string | number".toList).eval
        ⟨0, ()⟩).1.map Prod.snd) = .error (.malformedDeclaration "x: string".toList) := by
  decide +kernel

end Reading

end Typings
