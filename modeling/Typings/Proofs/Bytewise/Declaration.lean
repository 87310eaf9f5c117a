import Typings.Declaration
import Typings.Proofs.Bytewise.Term

/-!
# Declarations by bytes

The header of a declaration is read with a cursor in the text behind the name.  Each base of the
heritage is cut out from where its name begins.
-/

namespace Typings.Bytewise

open Text

variable (d : Declaration)

/-! ## Headers -/

def typeParameter (parameters : List Char) : Checked (Option (List Char)) := do
  match ← arguments parameters with
  | [] => raise .malformedDeclaration d.sourceText
  | [parameter] =>
      match ← Scan.run parameter Scan.takeWord with
      | none => raise .malformedDeclaration d.sourceText
      | some word => return some word
  | _ :: _ :: _ =>
      if d.kind = .classType then return none else throw (.severalParameters d.name parameters)

namespace Scan

def takeParameters : Scan (Option (List Char)) := do
  match ← sees (· == '<') with
  | false => return none
  | true =>
      match ← pair (← rest) with
      | none => fail .malformedDeclaration d.sourceText
      | some span =>
          advance (byteLength span)
          typeParameter d (← inner span)

def skipArguments : Scan Unit := do
  match ← sees (· == '<') with
  | false => return ()
  | true =>
      match ← pair (← rest) with
      | none => fail .malformedDeclaration d.sourceText
      | some span => advance (byteLength span)

def takeBase : Scan (List Char) := do
  let start ← pos
  match ← takeName with
  | none => fail .malformedDeclaration d.sourceText
  | some _ =>
      skipArguments d
      sliceFrom start

def baseRound (next : Unit → Scan (List (List Char))) (_ : Unit) : Scan (List (List Char)) := do
  skipBlanks
  let base ← takeBase d
  skipBlanks
  match ← eat ',' with
  | false => return [base]
  | true => return base :: (← next ())

def takeBases : Scan (List (List Char)) := repeated (baseRound d) ()

def takeHeritage (keyword : String) : Scan (List (List Char)) := do
  match ← eatKeyword keyword with
  | false => return []
  | true => takeBases d

def header : Scan Declaration.Header := do
  skipBlanks
  let generic ← takeParameters d
  skipBlanks
  if d.kind = .interface ∨ d.kind = .classType then
    let extended ← takeHeritage d "extends"
    let _ ← takeHeritage d "implements"
    return ⟨generic, extended, ← rest⟩
  else return ⟨generic, [], ← rest⟩

def meaning : Scan (List Char) := do
  skipBlanks
  match ← eat '=' with
  | false => fail .malformedDeclaration d.sourceText
  | true => rest

end Scan

def header : Checked Declaration.Header := Scan.run d.body (Scan.header d)

/-! ## The declared type -/

def term (generic : Option (List Char)) (text : List Char) : Checked Term :=
  ExceptT.lift (parse generic text)

def written : Checked Declaration.Written :=
  match d.kind with
  | .typeAlias => do
      let h ← header d
      let text ← Scan.run h.rest (Scan.meaning d)
      return ⟨← term h.generic text, []⟩
  | .interface => do
      let h ← header d
      let body ← term h.generic h.rest
      return ⟨body, ← h.extended.mapM (term h.generic)⟩
  | .classType => do
      let _ ← header d
      return ⟨.unknown, []⟩
  | .enumeration => return ⟨.unknown, []⟩

/-! ## Headers are the same -/

variable {d} {text s : List Char}

theorem typeParameter_eq (parameters : List Char) :
    typeParameter d parameters = done (d.typeParameter parameters) := by
  rw [typeParameter, Declaration.typeParameter, arguments_eq]
  rcases Span.arguments parameters with e | _ | ⟨parameter, _ | ⟨second, more⟩⟩
  · rfl
  · rw [done_ok_bind, raise_eq]
    rfl
  · rw [done_ok_bind]
    dsimp only
    rcases hword : takeWord? parameter with _ | ⟨word, rest⟩
    · rw [(Yields.of_reads (Reads.takeWord_none hword)).run]
      exact (done_ok_bind _ _).trans (raise_eq _ _)
    · rw [(Yields.of_reads (Reads.takeWord_some hword)).run]
      rfl
  · rw [done_ok_bind]
    dsimp only
    split <;> rfl

namespace Reads

theorem takeParameters : Reads text s (Scan.takeParameters d) (d.takeParameters s) := by
  unfold Scan.takeParameters Declaration.takeParameters
  by_cases hangle : (s.head? == some '<') = true
  · rw [if_pos hangle]
    refine (sees_true (asciiOnly_beq (by decide)) ((head?_any_beq _ _).trans hangle)).bind ?_
    refine rest.bind ?_
    rcases htake : Span.take? s with e | _ | ⟨span, behind⟩
    · exact (pair_error htake).bind_error
    · exact (pair_none htake).bind (.fail _ _)
    · exact (pair_some htake).bind ((advance_span htake).bind ((inner htake).bind
        (lift (typeParameter_eq (Span.inner span)))))
  · rw [if_neg hangle]
    refine (sees_false (asciiOnly_beq (by decide)) ?_).bind (.pure none)
    rw [head?_any_beq]
    exact Bool.eq_false_iff.2 hangle

theorem takeBase : Reads text s (Scan.takeBase d) (d.takeBase s) := by
  refine of_suffix fun hs => pos.bind ?_
  unfold Declaration.takeBase
  rcases hname : takeName? s with _ | ⟨name, after⟩
  · exact (takeName_none hname).bind (.fail _ _)
  have hparts := takeName?_append hname
  have hcut (base behind : List Char) (hbase : base ++ behind = s) :
      Reads text behind (Scan.sliceFrom (offsetOf text s)) (.ok (base, behind)) := by
    subst hbase
    exact sliceFrom hs
  refine (takeName_some hname).bind ?_
  unfold Scan.skipArguments
  dsimp only
  by_cases hangle : (after.head? == some '<') = true
  · rw [if_pos hangle]
    have hsees : Reads text after (Scan.sees (· == '<')) (.ok (true, after)) :=
      sees_true (asciiOnly_beq (by decide)) ((head?_any_beq _ _).trans hangle)
    rcases htake : Span.take? after with e | _ | ⟨span, behind⟩
    · exact (hsees.bind (rest.bind (pair_error htake).bind_error)).bind_error
    · exact (hsees.bind (rest.bind ((pair_none htake).bind (.fail _ _)))).bind_error
    · refine (hsees.bind (rest.bind ((pair_some htake).bind (advance_span htake)))).bind
        (hcut (name ++ span) behind ?_)
      rw [List.append_assoc, Span.take?_append htake, hparts]
  · rw [if_neg hangle]
    have hsees : Reads text after (Scan.sees (· == '<')) (.ok (false, after)) :=
      sees_false (asciiOnly_beq (by decide))
        ((head?_any_beq _ _).trans (Bool.eq_false_iff.2 hangle))
    exact (hsees.bind (.pure ())).bind (hcut name after hparts)

theorem takeBases : Reads text s (Scan.takeBases d) (d.takeBases s) := by
  refine repeated (fun _ s => d.takeBases s) (fun _ s next ih => ?_) ()
  rw [Declaration.takeBases]
  have hfirst : Reads text (Text.skipBlanks s) (Scan.takeBase d) _ := takeBase
  refine skipBlanks.bind ?_
  split
  next e hbase =>
    rw [hbase] at hfirst
    exact hfirst.bind_error
  next base after hbase =>
    rw [hbase] at hfirst
    refine hfirst.bind (skipBlanks.bind ?_)
    split
    next hcomma => exact (eat_none (by decide) hcomma).bind (.pure [base])
    next more hcomma =>
      refine (eat_some (by decide) hcomma).bind ?_
      have hshort : more.length < s.length := by
        have hbases := Declaration.length_takeBase hbase
        have hs := length_skipBlanks_le s
        have hafter := length_skipBlanks_le after
        have hmore := congrArg List.length (eat?_eq_some_iff.1 hcomma)
        rw [List.length_cons] at hmore
        omega
      have hbases := ih () more hshort
      rcases hmore : d.takeBases more with e | ⟨bases, behind⟩ <;> rw [hmore] at hbases
      · exact hbases.bind_error
      · exact hbases.bind (.pure (base :: bases))

theorem takeHeritage (keyword : String) :
    Reads text s (Scan.takeHeritage d keyword) (d.takeHeritage keyword s) := by
  unfold Scan.takeHeritage Declaration.takeHeritage
  rcases hkeyword : eatKeyword? keyword s with _ | rest
  · exact (eatKeyword_none hkeyword).bind (.pure [])
  · exact (eatKeyword_some hkeyword).bind takeBases

end Reads

theorem Yields.header : Yields text d.body (Scan.header d) d.header := by
  unfold Scan.header Declaration.header
  refine Reads.skipBlanks.yields ?_
  have hparameters : Reads text (skipBlanks d.body) (Scan.takeParameters d) _ :=
    Reads.takeParameters
  rcases hgeneric : d.takeParameters (skipBlanks d.body) with e | ⟨generic, s⟩ <;>
    rw [hgeneric] at hparameters
  · exact .of_reads hparameters.bind_error
  refine hparameters.yields (Reads.skipBlanks.yields ?_)
  show Yields text _ _ (if d.kind = .interface ∨ d.kind = .classType then _ else _)
  split
  · have hextends : Reads text (skipBlanks s) (Scan.takeHeritage d "extends") _ :=
      Reads.takeHeritage "extends"
    dsimp only
    rcases hextended : d.takeHeritage "extends" (skipBlanks s) with e | ⟨extended, s⟩ <;>
      rw [hextended] at hextends
    · exact .of_reads hextends.bind_error
    refine hextends.yields ?_
    have himplements : Reads text s (Scan.takeHeritage d "implements") _ :=
      Reads.takeHeritage "implements"
    show Yields text s _ (d.takeHeritage "implements" s >>= fun p =>
      pure (Declaration.Header.mk generic extended p.2))
    rcases himplemented : d.takeHeritage "implements" s with e | ⟨implemented, s⟩ <;>
      rw [himplemented] at himplements
    · exact .of_reads himplements.bind_error
    · exact himplements.yields (Reads.rest.yields (.pure _))
  · exact Reads.rest.yields (.pure _)

theorem header_eq (d : Declaration) : header d = done d.header := Yields.header.run

/-! ## Declared types are the same -/

theorem term_eq (generic : Option (List Char)) (text : List Char) :
    term generic text = done (.ok (Term.parse generic text)) := by
  rw [term, parse_eq]
  rfl

theorem Yields.meaning (h : List Char) :
    Yields text h (Scan.meaning d)
      ((eat? '=' (skipBlanks h)).elim (.error (.malformedDeclaration d.sourceText)) .ok) := by
  refine Reads.skipBlanks.yields ?_
  rcases heat : eat? '=' (skipBlanks h) with _ | rest
  · exact (Reads.eat_none (by decide) heat).yields (.fail _ _)
  · exact (Reads.eat_some (by decide) heat).yields (.of_reads Reads.rest)

theorem mapM_term (generic : Option (List Char)) (texts : List (List Char)) :
    texts.mapM (term generic) = (done (.ok (texts.map (Term.parse generic))) : Checked _) := by
  induction texts with
  | nil => rfl
  | cons text texts ih =>
      rw [List.mapM_cons, term_eq, ih]
      rfl

theorem written_eq (d : Declaration) : written d = done d.written := by
  unfold written Declaration.written
  rw [header_eq]
  cases d.kind with
  | typeAlias =>
      refine bind_done (fun h => ?_) d.header
      have hmeaning : Yields h.rest h.rest (Scan.meaning d) _ := Yields.meaning h.rest
      rw [hmeaning.run]
      rcases eat? '=' (skipBlanks h.rest) with _ | text
      · rfl
      · show (term h.generic text >>= fun body => pure (Declaration.Written.mk body [])) = _
        rw [term_eq]
        rfl
  | interface =>
      refine bind_done (fun h => ?_) d.header
      rw [term_eq, mapM_term]
      rfl
  | classType => exact bind_done (fun _ => rfl) d.header
  | enumeration => rfl

end Typings.Bytewise
