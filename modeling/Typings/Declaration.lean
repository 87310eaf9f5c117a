import Typings.Statement.Head
import Typings.Term.Parser
import Typings.Term.Resolve

/-!
# Declarations

A declaration keeps the text behind its name.  Its header, the type parameter and the heritage, is
read from that text; members of classes and enumerations are not looked at.
-/

namespace Typings

structure Declaration where
  identity : Identity
  kind : DeclarationKind
  body : List Char
  exported : Bool
  offset : Nat
  parsed : Option Expr
  deriving Repr

namespace Declaration

def name (d : Declaration) : String := d.identity.name

def sourceText (d : Declaration) : List Char :=
  d.kind.keyword.toList ++ ' ' :: d.name.toList ++ d.body

/-! ## Header -/

structure Header where
  generic : Option (List Char)
  extended : List (List Char)
  rest : List Char
  deriving DecidableEq, Repr

/-- The one type parameter.  A class with several has none that counts. -/
def typeParameter (d : Declaration) (parameters : List Char) :
    Except Error (Option (List Char)) :=
  match Span.arguments parameters with
  | .error e => .error e
  | .ok [] => .error (.malformedDeclaration d.sourceText)
  | .ok [parameter] =>
      match Text.takeWord? parameter with
      | none => .error (.malformedDeclaration d.sourceText)
      | some (word, _) => .ok (some word)
  | .ok _ =>
      if d.kind = .classType then .ok none else .error (.severalParameters d.name parameters)

def takeParameters (d : Declaration) (s : List Char) :
    Except Error (Option (List Char) × List Char) :=
  if s.head? == some '<' then
    match Span.take? s with
    | .error e => .error e
    | .ok none => .error (.malformedDeclaration d.sourceText)
    | .ok (some (span, rest)) =>
        (d.typeParameter (Span.inner span)).map fun generic => (generic, rest)
  else .ok (none, s)

def takeBase (d : Declaration) (s : List Char) : Except Error (List Char × List Char) :=
  match Text.takeName? s with
  | none => .error (.malformedDeclaration d.sourceText)
  | some (name, rest) =>
      if rest.head? == some '<' then
        match Span.take? rest with
        | .error e => .error e
        | .ok none => .error (.malformedDeclaration d.sourceText)
        | .ok (some (span, rest)) => .ok (name ++ span, rest)
      else .ok (name, rest)

theorem takeBase_append {d : Declaration} {s base rest : List Char}
    (h : d.takeBase s = .ok (base, rest)) : base ++ rest = s := by
  unfold takeBase at h
  split at h
  · simp at h
  next name after hn =>
    split at h
    · split at h
      · simp at h
      · simp at h
      next span r hs =>
        simp only [Except.ok.injEq, Prod.mk.injEq] at h
        rw [← h.1, ← h.2, List.append_assoc, Span.take?_append hs, Text.takeName?_append hn]
    · simp only [Except.ok.injEq, Prod.mk.injEq] at h
      rw [← h.1, ← h.2, Text.takeName?_append hn]

theorem length_takeBase {d : Declaration} {s base rest : List Char}
    (h : d.takeBase s = .ok (base, rest)) : rest.length ≤ s.length := by
  rw [← takeBase_append h, List.length_append]
  omega

def takeBases (d : Declaration) (s : List Char) :
    Except Error (List (List Char) × List Char) :=
  match h : d.takeBase (Text.skipBlanks s) with
  | .error e => .error e
  | .ok (base, rest) =>
      match hc : Text.eat? ',' (Text.skipBlanks rest) with
      | none => .ok ([base], Text.skipBlanks rest)
      | some more =>
          have : more.length < s.length := by
            have h1 := length_takeBase h
            have h2 := Text.length_skipBlanks_le s
            have h3 := Text.length_skipBlanks_le rest
            have h4 := congrArg List.length (Text.eat?_eq_some_iff.1 hc)
            simp only [List.length_cons] at h4
            omega
          (d.takeBases more).map fun (bases, rest) => (base :: bases, rest)
termination_by s.length

def takeHeritage (d : Declaration) (keyword : String) (s : List Char) :
    Except Error (List (List Char) × List Char) :=
  match Text.eatKeyword? keyword s with
  | none => .ok ([], s)
  | some rest => d.takeBases rest

def header (d : Declaration) : Except Error Header := do
  let (generic, rest) ← d.takeParameters (Text.skipBlanks d.body)
  let rest := Text.skipBlanks rest
  if d.kind = .interface ∨ d.kind = .classType then
    let (extended, rest) ← d.takeHeritage "extends" rest
    let (_, rest) ← d.takeHeritage "implements" rest
    return ⟨generic, extended, rest⟩
  else return ⟨generic, [], rest⟩

def superclass (d : Declaration) : Except Error (Option (List Char)) :=
  if d.kind = .classType then d.header.map fun h => h.extended.head? else .ok none

/-! ## The declared type -/

structure Written where
  body : Term
  bases : List Term

def written (d : Declaration) : Except Error Written :=
  match d.kind with
  | .typeAlias => do
      let h ← d.header
      match Text.eat? '=' (Text.skipBlanks h.rest) with
      | none => throw (.malformedDeclaration d.sourceText)
      | some rest => return ⟨Term.parse h.generic rest, []⟩
  | .interface => do
      let h ← d.header
      return ⟨Term.parse h.generic h.rest, h.extended.map (Term.parse h.generic)⟩
  | .classType => do
      let _ ← d.header
      return ⟨.unknown, []⟩
  | .enumeration => .ok ⟨.unknown, []⟩

/-- The body is resolved before the bases, which it comes behind in the result. -/
def Written.resolve {σ : Type} (w : Written) (scope : Scope σ) : Action σ Expr := do
  let body ← w.body.resolve scope
  if w.bases.isEmpty then return body
  else return .compound .intersection ((← Term.resolveAll scope w.bases) ++ [body])

end Declaration

end Typings
