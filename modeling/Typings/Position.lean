import Typings.Text

/-!
# Lines and columns
-/

namespace Typings.Text

structure Position where
  line : Nat
  column : Nat
  deriving DecidableEq, Repr

def positionAfter (before : List Char) : Position where
  line := before.count '\n' + 1
  column := (before.reverse.takeWhile (· != '\n')).length + 1

/--
The position of a byte offset.  An offset beyond the source counts as its end, and so does one
inside a character.
-/
def positionAt (s : List Char) (offset : Nat) : Position :=
  match splitAtByte? (min offset (byteLength s)) s with
  | some (before, _) => positionAfter before
  | none => positionAfter s

end Typings.Text
