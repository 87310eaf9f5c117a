import Typings.Text

/-!
# JSON tokens

Words, numbers, strings and marks, with white space between them.  A string may be well formed and
still have no text, when it holds half of a surrogate pair.  The value of a number is not kept.
-/

namespace Typings.Json

/-! ## Strings -/

inductive StringUnit where
  | plain (c : Char)
  | code (unit : Nat)
  deriving DecidableEq, Repr

def isHighSurrogate (unit : Nat) : Bool := 0xd800 ≤ unit && unit < 0xdc00

def isLowSurrogate (unit : Nat) : Bool := 0xdc00 ≤ unit && unit < 0xe000

def ofSurrogates (high low : Nat) : Char :=
  Char.ofNat (0x10000 + (high - 0xd800) * 0x400 + (low - 0xdc00))

def textOfUnits : List StringUnit → Option (List Char)
  | [] => some []
  | .plain c :: units => (textOfUnits units).map (c :: ·)
  | .code high :: .code low :: units =>
      if isHighSurrogate high && isLowSurrogate low then
        (textOfUnits units).map (ofSurrogates high low :: ·)
      else if isHighSurrogate high || isLowSurrogate high then none
      else (textOfUnits (.code low :: units)).map (Char.ofNat high :: ·)
  | .code unit :: units =>
      if isHighSurrogate unit || isLowSurrogate unit then none
      else (textOfUnits units).map (Char.ofNat unit :: ·)

def hexDigit? (c : Char) : Option Nat :=
  if c.isDigit then some (c.toNat - '0'.toNat)
  else if 'a' ≤ c ∧ c ≤ 'f' then some (c.toNat - 'a'.toNat + 10)
  else if 'A' ≤ c ∧ c ≤ 'F' then some (c.toNat - 'A'.toNat + 10)
  else none

def hexCode? (digits : List Char) : Option Nat :=
  digits.foldlM (fun n c => (hexDigit? c).map (n * 16 + ·)) 0

def escaped? : Char → Option Char
  | '"' => some '"'
  | '\\' => some '\\'
  | '/' => some '/'
  | 'b' => some '\x08'
  | 'f' => some '\x0c'
  | 'n' => some '\n'
  | 'r' => some '\r'
  | 't' => some '\t'
  | _ => none

def takeString? : List Char → Option (List StringUnit × List Char)
  | [] => none
  | '"' :: s => some ([], s)
  | '\\' :: 'u' :: a :: b :: c :: d :: s =>
      match hexCode? [a, b, c, d], takeString? s with
      | some unit, some (units, rest) => some (.code unit :: units, rest)
      | _, _ => none
  | '\\' :: c :: s =>
      match escaped? c, takeString? s with
      | some c, some (units, rest) => some (.plain c :: units, rest)
      | _, _ => none
  | c :: s =>
      if c.toNat < 0x20 then none
      else (takeString? s).map fun (units, rest) => (.plain c :: units, rest)

/-! ## Numbers -/

def skipDigits (s : List Char) : List Char := s.dropWhile Char.isDigit

def skipDigits? (s : List Char) : Option (List Char) :=
  if s.head?.any Char.isDigit then some (skipDigits s) else none

def skipWhole? : List Char → Option (List Char)
  | '0' :: s => some s
  | s => skipDigits? s

def skipFraction? : List Char → Option (List Char)
  | '.' :: s => skipDigits? s
  | s => some s

def skipSign : List Char → List Char
  | '+' :: s => s
  | '-' :: s => s
  | s => s

def skipExponent? : List Char → Option (List Char)
  | 'e' :: s => skipDigits? (skipSign s)
  | 'E' :: s => skipDigits? (skipSign s)
  | s => some s

def skipNumber? (s : List Char) : Option (List Char) :=
  (skipWhole? ((Text.stripLead? ['-'] s).getD s)).bind fun s =>
    (skipFraction? s).bind skipExponent?

/-! ## Tokens -/

inductive Token where
  | openBrace
  | closeBrace
  | openBracket
  | closeBracket
  | colon
  | comma
  | null
  | bool (value : Bool)
  | number
  | string (text : Option String)
  deriving DecidableEq, Repr

namespace Token

def mark? : Char → Option Token
  | '\x7b' => some openBrace
  | '\x7d' => some closeBrace
  | '[' => some openBracket
  | ']' => some closeBracket
  | ':' => some colon
  | ',' => some comma
  | _ => none

def isSpace (c : Char) : Bool := c == ' ' || c == '\t' || c == '\n' || c == '\r'

def literals : List (List Char × Token) :=
  [("null".toList, null), ("true".toList, bool true), ("false".toList, bool false)]

def take? : List Char → Option (Token × List Char)
  | [] => none
  | '"' :: s =>
      (takeString? s).map fun (units, rest) =>
        (string ((textOfUnits units).map String.ofList), rest)
  | c :: s =>
      match mark? c with
      | some token => some (token, s)
      | none =>
          match literals.findSome? fun l => (Text.stripLead? l.1 (c :: s)).map (l.2, ·) with
          | some found => some found
          | none => (skipNumber? (c :: s)).map (number, ·)

def readUpTo : Nat → List Char → Option (List Token)
  | n, s =>
      match s.dropWhile isSpace, n with
      | [], _ => some []
      | _, 0 => none
      | s, n + 1 =>
          match take? s with
          | none => none
          | some (token, rest) => (readUpTo n rest).map (token :: ·)

def ofText? (s : List Char) : Option (List Token) := readUpTo s.length s

end Token

end Typings.Json
