import Typings.Text.Hidden

/-!
# Quoted text

The form in which a string literal is shown: between double quotes, with a short escape for some
control characters and the code point in hexadecimal for the other hidden characters.
-/

namespace Typings.Text

def shortEscape? : Char → Option Char
  | '"' => some '"'
  | '\\' => some '\\'
  | '\n' => some 'n'
  | '\r' => some 'r'
  | '\t' => some 't'
  | '\x00' => some '0'
  | _ => none

def quoteChar (c : Char) : List Char :=
  match shortEscape? c with
  | some e => ['\\', e]
  | none =>
      if isHidden c then ['\\', 'u', '\x7b'] ++ Nat.toDigits 16 c.toNat ++ ['\x7d'] else [c]

def quote (s : List Char) : List Char := '"' :: s.flatMap quoteChar ++ ['"']

end Typings.Text
