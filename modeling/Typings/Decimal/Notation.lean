import Typings.Decimal.Shortest
import Typings.Word

/-!
# Decimal numerals

Reading and writing of numerals.  Numerals are written with the fewest digits that read back; a
`Style` decides how those digits are laid out.
-/

namespace Typings.Decimal

/-! ## Reading -/

def digitValue (c : Char) : Nat := c.toNat - '0'.toNat

def naturalOf (digits : List Char) : Nat :=
  digits.foldl (fun n c => 10 * n + digitValue c) 0

def readExponent? : List Char → Option Int
  | [] => some 0
  | c :: s =>
      if c == 'e' || c == 'E' then
        let (negative, digits) := match s with
          | '-' :: digits => (true, digits)
          | '+' :: digits => (false, digits)
          | digits => (false, digits)
        if digits.isEmpty || !digits.all Char.isDigit then none
        else some (if negative then -naturalOf digits else naturalOf digits)
      else none

def readUnsigned? (negative : Bool) (s : List Char) : Option Binary64 :=
  let whole := s.takeWhile Char.isDigit
  let (fraction, tail) := match s.dropWhile Char.isDigit with
    | '.' :: rest => (rest.takeWhile Char.isDigit, rest.dropWhile Char.isDigit)
    | rest => ([], rest)
  if whole.isEmpty && fraction.isEmpty then none
  else (readExponent? tail).map fun exponent =>
    Binary64.ofDecimal negative (naturalOf (whole ++ fraction)) (exponent - fraction.length)

def read? : List Char → Option Binary64
  | '-' :: s => readUnsigned? true s
  | s => readUnsigned? false s

/-! ## Writing -/

structure Style where
  tie : Tie
  positional : Int → Bool
  wholeTail : List Char
  infinity : Bool → List Char

def zeros (n : Nat) : List Char := List.replicate n '0'

def writePositional (style : Style) (digits : List Char) (power : Int) : List Char :=
  if 0 ≤ power then digits ++ zeros power.toNat ++ style.wholeTail
  else
    let places := (-power).toNat
    if places < digits.length then
      digits.take (digits.length - places) ++ '.' :: digits.drop (digits.length - places)
    else '0' :: '.' :: zeros (places - digits.length) ++ digits

def writeScientific (digits : List Char) (exponent : Int) : List Char :=
  let mantissa := match digits with
    | [] => []
    | [d] => [d]
    | d :: more => d :: '.' :: more
  let sign := if exponent < 0 then '-' else '+'
  mantissa ++ 'e' :: sign :: Nat.toDigits 10 exponent.natAbs

def writeUnsigned (style : Style) (mantissa : Nat) (exponent : Int) : List Char :=
  let (digits, power) := shortest style.tie mantissa exponent
  let digits := Nat.toDigits 10 digits
  let scientific := power + digits.length - 1
  if style.positional scientific then writePositional style digits power
  else writeScientific digits scientific

def signed (negative : Bool) (s : List Char) : List Char := if negative then '-' :: s else s

def write (style : Style) : Binary64 → List Char
  | .infinite negative => style.infinity negative
  | .finite negative mantissa exponent =>
      signed negative (writeUnsigned style mantissa exponent)

end Typings.Decimal
