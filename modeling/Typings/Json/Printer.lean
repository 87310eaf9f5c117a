import Typings.Json

/-!
# JSON texts

Two layouts of one value: without any white space, and indented by two blanks for reading.
-/

namespace Typings.Json

/-! ## Leaves -/

/-- A point or an exponent is always written, and a power of ten below `-5` or above `15`. -/
def numberStyle : Decimal.Style where
  tie := .even
  positional := fun e => -5 ≤ e && e < 16
  wholeTail := ['.', '0']
  infinity := fun _ => "null".toList

def escapeChar (c : Char) : List Char :=
  match c with
  | '"' => ['\\', '"']
  | '\\' => ['\\', '\\']
  | '\x08' => ['\\', 'b']
  | '\x0c' => ['\\', 'f']
  | '\n' => ['\\', 'n']
  | '\r' => ['\\', 'r']
  | '\t' => ['\\', 't']
  | c =>
      if c.toNat < 0x20 then
        ['\\', 'u', '0', '0', Nat.digitChar (c.toNat / 16), Nat.digitChar (c.toNat % 16)]
      else [c]

def writeString (s : String) : List Char :=
  '"' :: s.toList.flatMap escapeChar ++ ['"']

def writeBool (b : Bool) : List Char := if b then "true".toList else "false".toList

/-! ## Compact layout -/

mutual

def compact : Json → List Char
  | .null => "null".toList
  | .bool b => writeBool b
  | .number x => Decimal.write numberStyle x
  | .string s => writeString s
  | .array items => '[' :: compactItems items ++ [']']
  | .object fields => '\x7b' :: compactFields fields ++ ['\x7d']

def compactItems : List Json → List Char
  | [] => []
  | [value] => value.compact
  | value :: items => value.compact ++ ',' :: compactItems items

def compactFields : List (String × Json) → List Char
  | [] => []
  | [(key, value)] => writeString key ++ ':' :: value.compact
  | (key, value) :: fields =>
      writeString key ++ ':' :: value.compact ++ ',' :: compactFields fields

end

/-! ## Indented layout -/

def newLine (depth : Nat) : List Char := '\n' :: List.replicate (2 * depth) ' '

mutual

def indented (depth : Nat) : Json → List Char
  | .null => "null".toList
  | .bool b => writeBool b
  | .number x => Decimal.write numberStyle x
  | .string s => writeString s
  | .array [] => ['[', ']']
  | .array items => '[' :: indentedItems (depth + 1) items ++ newLine depth ++ [']']
  | .object [] => ['\x7b', '\x7d']
  | .object fields => '\x7b' :: indentedFields (depth + 1) fields ++ newLine depth ++ ['\x7d']

def indentedItems (depth : Nat) : List Json → List Char
  | [] => []
  | [value] => newLine depth ++ value.indented depth
  | value :: items => newLine depth ++ value.indented depth ++ ',' :: indentedItems depth items

def indentedFields (depth : Nat) : List (String × Json) → List Char
  | [] => []
  | [(key, value)] => newLine depth ++ writeString key ++ ':' :: ' ' :: value.indented depth
  | (key, value) :: fields =>
      newLine depth ++ writeString key ++ ':' :: ' ' :: value.indented depth ++
        ',' :: indentedFields depth fields

end

def compactText (j : Json) : String := String.ofList j.compact

def prettyText (j : Json) : String := String.ofList (j.indented 0)

end Typings.Json
