import Typings.Expr.Display
import Typings.Proofs.Brackets
import Typings.Proofs.Levels
import Typings.Proofs.Scans
import Typings.Proofs.Shapes

/-!
# Braces inside and outside an object

Two scans decide where an object ends.  The span that a token is counts all braces of the text, and
the object parser stops at the first closing brace in front of a property.  Between them stand the
texts that the object parser passes over whole, and `Object.consumed_iff_braces_match` says that
the two ends are one if and only if the braces in these texts match.
-/

namespace Typings

theorem Text.offsetOf_eq_byteLength_iff {s rest : List Char} (h : rest <:+ s) :
    offsetOf s rest = byteLength s ↔ rest = [] := by
  obtain ⟨before, rfl⟩ := h
  rw [offsetOf_append, byteLength_append]
  cases rest with
  | nil => simp
  | cons c rest =>
      have := c.utf8Size_pos
      simp only [byteLength_cons, reduceCtorEq, iff_false]
      omega

namespace Object

/-! ## What is passed over -/

/--
The texts that the properties of a body are passed over by, from `s` on: each head up to its colon,
and the tokens of each value.
-/
def passedFrom (s : List Char) : List (List Char) :=
  match hs : Text.skipBlanks s with
  | [] => []
  | c :: tail =>
      have hlt : tail.length < s.length := by
        have := Text.length_skipBlanks_le s
        simp only [hs, List.length_cons] at this
        omega
      if c == '\x7d' then []
      else if Tokens.isTerminator c then passedFrom tail
      else match h : head (c :: tail) with
        | .error _ => []
        | .ok (_, rest) =>
            match ht : Tokens.take rest with
            | (.error _, _) => []
            | (.ok value, after) =>
                have : after.length < s.length := by
                  have hr := length_head h
                  have ha := Tokens.length_take_le rest
                  rw [ht] at ha
                  simp only [List.length_cons] at *
                  omega
                (c :: tail).take ((c :: tail).length - rest.length) ::
                  value.items ++ passedFrom after
termination_by s.length

def passed (token : List Char) : List (List Char) :=
  match Text.eat? '\x7b' token with
  | none => []
  | some body => passedFrom body

variable {x : Char}

/-- A closed body is made of what is passed over, its closing brace, separators and the rest. -/
theorem count_scanEntries (hx : Tokens.isSeparator x = false) (start s : List Char) :
    ∀ rest, (scanEntries start s).outcome = .ok rest →
      s.count x = (passedFrom s).flatten.count x + ['\x7d'].count x + rest.count x := by
  fun_induction passedFrom s with
  | case1 s hs => 
      intro rest h
      rw [scanEntries_eq, hs] at h
      cases h
  | case2 s c tail hs hlt hclose => 
      intro rest h
      obtain rfl : c = '\x7d' := by simpa using hclose
      rw [scanEntries_eq, hs] at h
      cases h
      rw [← Tokens.count_skipBlanks hx s, hs]
      simp [List.count_cons]
      omega
  | case3 s c tail hs hlt hclose hterm ih => 
      intro rest h
      have hcx : c ≠ x := by
        rintro rfl
        simp [Tokens.isSeparator, hterm] at hx
      simp only [scanEntries_eq _ s, hs, if_neg hclose, if_pos hterm] at h
      rw [← Tokens.count_skipBlanks hx s, hs, List.count_cons_of_ne hcx]
      exact ih rest h
  | case4 s c tail hs hlt hclose hterm e hhead =>
      intro rest h
      simp only [scanEntries_eq _ s, hs, if_neg hclose, if_neg hterm, hhead] at h
      cases h
  | case5 s c tail hs hlt hclose hterm slot rest hhead e after htake =>
      intro rest h
      simp only [scanEntries_eq _ s, hs, if_neg hclose, if_neg hterm, hhead, htake] at h
      cases h
  | case6 s c tail hs hlt hclose hterm slot behind hhead value after htake hafter ih =>
      intro rest h
      simp only [scanEntries_eq _ s, hs, if_neg hclose, if_neg hterm, hhead, htake] at h
      have hlead : (c :: tail).take ((c :: tail).length - behind.length) ++ behind = c :: tail := by
        obtain ⟨lead, hlead⟩ := head_suffix hhead
        rw [← hlead]
        simp
      have hcount := congrArg (List.count x) hlead
      rw [List.count_append, Tokens.count_take hx htake, ih rest h] at hcount
      rw [← Tokens.count_skipBlanks hx s, hs, ← hcount]
      simp only [List.cons_append, List.flatten_cons, List.flatten_append, List.count_append]
      omega

/-! ## The two ends -/

theorem braces_of_take? {token tail : List Char} (htoken : token = '\x7b' :: tail)
    (hspan : Span.take? token = .ok (some (token, []))) :
    ∃ body, tail = body ++ ['\x7d'] ∧ Span.nesting? '\x7b' '\x7d' 0 body = some 0 := by
  subst htoken
  simp only [Span.take?, Span.closer?, Span.takeBody?, Span.isQuote] at hspan
  split at hspan
  next found hfound =>
    obtain rfl := Option.some.inj (Except.ok.inj hspan)
    obtain ⟨⟨span, rest⟩, hbracketed, hpair⟩ := Option.map_eq_some_iff.1 hfound
    obtain ⟨hspan, rfl⟩ := Prod.mk.inj hpair
    obtain rfl := (List.cons.inj hspan).2
    exact Span.nesting?_of_takeBracketed? hbracketed
  · cases hspan

theorem shape_of_braces (generic : Option (List Char)) {token tail : List Char}
    (htoken : token = '\x7b' :: tail) (hspan : Span.take? token = .ok (some (token, []))) :
    Term.shape generic token = .object token := by
  obtain ⟨body, rfl, -⟩ := braces_of_take? htoken hspan
  have hlast : token.getLast? = some '\x7d' := by
    rw [htoken, ← List.cons_append, List.getLast?_concat]
  rw [Term.shape_of_take? generic hspan (by rw [hlast]; decide), htoken]
  rfl

theorem rest_eq_nil_iff {token tail rest : List Char} (htoken : token = '\x7b' :: tail)
    (hspan : Span.take? token = .ok (some (token, []))) (hscan : (scan token).outcome = .ok rest) :
    rest = [] ↔ (passed token).flatten.count '\x7b' = (passed token).flatten.count '\x7d' := by
  obtain ⟨body, rfl, hbody⟩ := braces_of_take? htoken hspan
  have heat : Text.eat? '\x7b' token = some (body ++ ['\x7d']) := Text.eat?_eq_some_iff.2 htoken
  simp only [scan, heat] at hscan
  simp only [passed, heat]
  have hopening := count_scanEntries (x := '\x7b') rfl token _ rest hscan
  have hclosing := count_scanEntries (x := '\x7d') rfl token _ rest hscan
  have hbraces : ['\x7d'].count '\x7b' = 0 ∧ ['\x7d'].count '\x7d' = 1 := ⟨rfl, rfl⟩
  have hne : '\x7b' ≠ '\x7d' := by decide
  generalize (passedFrom (body ++ ['\x7d'])).flatten = texts at hopening hclosing ⊢
  constructor
  · rintro rfl
    have hwhole := Span.count_nesting? hne hbody
    simp only [List.count_append, List.count_nil] at hopening hclosing
    omega
  · intro hmatch
    by_cases hrest : rest = []
    · exact hrest
    -- what has been read is no more than the inside of the span, so no closer in it is unmatched
    obtain ⟨before, hbefore⟩ := scanEntries_suffix hscan
    obtain ⟨init, last, rfl⟩ : ∃ init last, rest = init ++ [last] :=
      ⟨rest.dropLast, rest.getLast hrest, (List.dropLast_concat_getLast hrest).symm⟩
    obtain ⟨rfl, hlast⟩ := List.append_inj' ((List.append_assoc ..).trans hbefore) rfl
    rw [Span.nesting?_append] at hbody
    obtain ⟨depth, hdepth, -⟩ := Option.bind_eq_some_iff.1 hbody
    have hinside := Span.count_nesting? hne hdepth
    rw [← hlast] at hopening hclosing hbraces
    simp only [List.count_append] at hopening hclosing
    omega

end Object

namespace Reading

variable {σ : Type}

theorem gives_object (outcome : Except Error (List Char)) (properties : List (Property Expr))
    (dynamic : Option Expr) (entries : List (Object.Slot × Action σ Expr)) :
    (object outcome properties dynamic entries).Gives fun e =>
      (∃ rest, outcome = .ok rest) ∧ ∃ properties dynamic, e = .object properties dynamic := by
  induction entries generalizing properties dynamic with
  | nil =>
      cases outcome with
      | ok rest => exact .pure ⟨⟨rest, rfl⟩, properties, dynamic, rfl⟩
      | error e => exact .throw e
  | cons entry entries ih =>
      obtain ⟨slot, value⟩ := entry
      cases slot with
      | named key optional => exact (Action.Gives.any value).bind fun _ _ => ih _ _
      | dynamic => exact (Action.Gives.any value).bind fun _ _ => ih _ _

end Reading

namespace Object

variable {σ : Type}

/--
Whenever a token in braces is read, at any depth, the expression is an object and the object parser
has come to an end of it.  That end is the end of the token if and only if the texts passed over on
the way have, taken together, as many closing braces as opening ones.
-/
theorem consumed_iff_braces_match (generic : Option (List Char)) (scope : Scope σ) (n : Nat)
    {token tail : List Char} {s s' : σ} {e : Expr} (htoken : token = '\x7b' :: tail)
    (hspan : Span.take? token = .ok (some (token, [])))
    (hrun : ((Term.ofLevel generic n (.ok ⟨[token], none⟩)).resolve scope).eval s = (.ok e, s')) :
    (∃ properties dynamic, e = .object properties dynamic) ∧
      ∃ rest, (Term.takeObject generic token).2 = .ok rest ∧
        (Text.offsetOf token rest = Text.byteLength token ↔
          (passed token).flatten.count '\x7b' = (passed token).flatten.count '\x7d') := by
  have hshape := shape_of_braces generic htoken hspan
  match n with
  | 0 =>
      rw [Reading.resolve_ofLevel_zero] at hrun
      cases hrun
  | 1 =>
      rw [Reading.resolve_ofLevel_succ, Reading.step, hshape] at hrun
      cases hrun
  | n + 2 =>
      rw [Reading.resolve_ofLevel_succ, Reading.step, hshape] at hrun
      obtain ⟨⟨rest, hrest⟩, hobject⟩ :=
        Reading.gives_object _ _ _ _ s e (congrArg Prod.fst hrun)
      refine ⟨hobject, rest, hrest, ?_⟩
      rw [← rest_eq_nil_iff htoken hspan hrest]
      exact Text.offsetOf_eq_byteLength_iff (scan_suffix hrest)

def nestedObject : List Char := "\x7b a: \x7b b: string \x7d; c(x: \x7b\x7d): any \x7d".toList

theorem consumed_iff_braces_match_nested : ∃ rest,
    (Term.takeObject none nestedObject).2 = .ok rest ∧ Text.offsetOf nestedObject rest = 35 := by
  have hrun : (((Term.ofLevel none maxNesting (.ok ⟨[nestedObject], none⟩)).resolve
      Scope.empty).eval ()).1.toOption.map Expr.display =
        some "\x7b a: \x7b b: string; \x7d; c: any; \x7d" := by decide +kernel
  obtain ⟨e, he, -⟩ := Option.map_eq_some_iff.1 hrun
  obtain ⟨-, rest, hrest, hend⟩ := consumed_iff_braces_match none Scope.empty maxNesting
    (show nestedObject = '\x7b' :: nestedObject.tail by decide +kernel) rfl
    (Prod.ext (eq_ok_of_toOption he) rfl)
  exact ⟨rest, hrest, (hend.2 (by decide +kernel)).trans (by decide +kernel)⟩

def quotedBrace : List Char := "\x7b '\x7b': string \x7d b: number \x7d".toList

/-- The brace in quotes counts for the span and not for the object parser, so that `b` is lost. -/
theorem property_lost_behind_quoted_brace : ∃ e rest,
    Span.take? quotedBrace = .ok (some (quotedBrace, [])) ∧
      ((Term.ofLevel none maxNesting (.ok ⟨[quotedBrace], none⟩)).resolve Scope.empty).eval () =
        (.ok e, ()) ∧
      e.display = "\x7b \x7b: string; \x7d" ∧
      (Term.takeObject none quotedBrace).2 = .ok rest ∧
      Text.offsetOf quotedBrace rest = 15 ∧ Text.byteLength quotedBrace = 27 := by
  have hrun : (((Term.ofLevel none maxNesting (.ok ⟨[quotedBrace], none⟩)).resolve
      Scope.empty).eval ()).1.toOption.map Expr.display = some "\x7b \x7b: string; \x7d" := by
    decide +kernel
  have hrest : (Term.takeObject none quotedBrace).2.toOption = some " b: number \x7d".toList := by
    decide +kernel
  obtain ⟨e, he, hdisplay⟩ := Option.map_eq_some_iff.1 hrun
  exact ⟨e, " b: number \x7d".toList, rfl, Prod.ext (eq_ok_of_toOption he) rfl, hdisplay,
    eq_ok_of_toOption hrest, by decide +kernel, by decide +kernel⟩

end Object

end Typings
