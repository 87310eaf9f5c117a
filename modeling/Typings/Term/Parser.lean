import Typings.Decimal.Notation
import Typings.Term
import Typings.Term.Object

/-!
# Reading terms

A level with operators is a compound; a level of one token is what that token says; any other
level is unknown.  The nesting of levels is limited, and a level too deep is an invalid part.
-/

namespace Typings.Term

/-! ## One token -/

/-- What a token says by itself; the texts in it are still to be read. -/
inductive Shape where
  | invalid (cause : Error)
  | array (element : List Char)
  | group (inside : List Char)
  | object (text : List Char)
  | literal (value : Literal)
  | primitive (kind : Primitive)
  | generic
  | named (name : String) (arguments : Option (List (List Char)))
  | unknown
  deriving DecidableEq, Repr

def arrayElement? (token : List Char) : Option (List Char) :=
  (Text.stripTail? ['[', ']'] token).filter (!·.isEmpty)

def spanShape (token : List Char) : Shape :=
  match token with
  | '"' :: _ | '\'' :: _ =>
      .literal (.string (String.ofList (Span.unescape (Span.inner token))))
  | '(' :: _ => .group (Span.inner token)
  | '\x7b' :: _ => .object token
  | _ => .unknown

def keywordLiteral? (token : List Char) : Option Literal :=
  if token == "true".toList then some (.boolean true)
  else if token == "false".toList then some (.boolean false)
  else if token.head?.any fun c => c.isDigit || c == '-' then
    (Decimal.read? token).map .number
  else none

def nameShape (token : List Char) : Shape :=
  match Text.takeName? token with
  | none => .unknown
  | some (name, []) => .named (String.ofList name) none
  | some (name, rest) =>
      match Span.take? rest with
      | .error e => .invalid e
      | .ok (some (span, [])) =>
          if rest.head? == some '<' then
            match Span.arguments (Span.inner span) with
            | .error e => .invalid e
            | .ok arguments => .named (String.ofList name) (some arguments)
          else .unknown
      | .ok _ => .unknown

def wordShape (generic : Option (List Char)) (token : List Char) : Shape :=
  match Primitive.ofKeyword? (String.ofList token) with
  | some kind => .primitive kind
  | none =>
      match keywordLiteral? token with
      | some value => .literal value
      | none => if generic = some token then .generic else nameShape token

def shape (generic : Option (List Char)) (token : List Char) : Shape :=
  match arrayElement? token with
  | some element => .array element
  | none =>
      match Span.take? token with
      | .error e => .invalid e
      | .ok (some (_, [])) => spanShape token
      | .ok _ => wordShape generic token

/-! ## Levels -/

def bodyOf (value : Except Error Tokens → Term) (outcome : Except Error (List Char)) :
    List Object.Entry → Body
  | [] => match outcome with
    | .ok _ => .closed
    | .error e => .broken e
  | ⟨.named key optional, v⟩ :: entries =>
      .property key optional (value v) (bodyOf value outcome entries)
  | ⟨.dynamic, v⟩ :: entries => .dynamic (value v) (bodyOf value outcome entries)

def objectOf (value : Except Error Tokens → Term) (text : List Char) : Term :=
  let scan := Object.scan text
  .object (bodyOf value scan.outcome scan.entries)

/-- The term of a level, with at most `n` levels from this one inwards. -/
def ofLevel (generic : Option (List Char)) : Nat → Except Error Tokens → Term
  | 0, _ => .invalid .nestingTooDeep
  | _ + 1, .error e => .invalid e
  | n + 1, .ok ⟨items, some joiner⟩ =>
      .compound joiner (items.map fun item => ofLevel generic n (Tokens.take item).1)
  | n + 1, .ok ⟨[token], none⟩ =>
      let inside := fun text => ofLevel generic n (Tokens.take text).1
      match shape generic token with
      | .invalid e => .invalid e
      | .array element => .array (inside element)
      | .group text => inside text
      | .object text =>
          match n with
          | 0 => .invalid .nestingTooDeep
          | m + 1 => objectOf (ofLevel generic m) text
      | .literal value => .literal value
      | .primitive kind => .primitive kind
      | .generic => .generic
      | .named name none => .named name none
      | .named name (some arguments) => .named name (some (arguments.map inside))
      | .unknown => .unknown
  | _ + 1, .ok _ => .unknown

def take (generic : Option (List Char)) (s : List Char) : Term × List Char :=
  let (level, rest) := Tokens.take s
  (ofLevel generic maxNesting level, rest)

def parse (generic : Option (List Char)) (s : List Char) : Term := (take generic s).1

def takeObject (generic : Option (List Char)) (s : List Char) : Body × Except Error (List Char) :=
  let scan := Object.scan s
  (bodyOf (ofLevel generic (maxNesting - 1)) scan.outcome scan.entries, scan.outcome)

end Typings.Term
