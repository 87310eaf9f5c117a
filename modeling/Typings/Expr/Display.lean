import Typings.Decimal.Notation
import Typings.Expr
import Typings.Text.Quoted

/-!
# Expressions as text

The text of an expression follows the syntax it was read from.
-/

namespace Typings

def Literal.numberStyle : Decimal.Style where
  tie := .up
  positional := fun _ => true
  wholeTail := []
  infinity := fun negative => (if negative then "-inf" else "inf").toList

def Literal.write : Literal → List Char
  | .string value => Text.quote value.toList
  | .number value => Decimal.write numberStyle value
  | .boolean value => (if value then "true" else "false").toList

def Joiner.separator : Joiner → List Char
  | .union => [' ', '|', ' ']
  | .intersection => [' ', '&', ' ']

namespace Expr

def isCompound : Expr → Bool
  | .compound _ _ => true
  | _ => false

mutual

def write : Expr → List Char
  | .reference target none => target.name.toList
  | .reference target (some argument) => target.name.toList ++ '<' :: argument.write ++ ['>']
  | .literal value => value.write
  | .primitive kind => kind.keyword.toList
  | .array element =>
      if element.isCompound then '(' :: element.write ++ [')', '[', ']']
      else element.write ++ ['[', ']']
  | .object [] none => ['\x7b', '\x7d']
  | .object properties none => '\x7b' :: ' ' :: writeProperties properties ++ ['\x7d']
  | .object properties (some dynamic) =>
      '\x7b' :: ' ' :: writeProperties properties ++
        "[key: string]: ".toList ++ dynamic.write ++ [';', ' ', '\x7d']
  | .promise inner => "Promise<".toList ++ inner.write ++ ['>']
  | .compound joiner members => writeMembers joiner members
  | .generic => "<generic>".toList
  | .unknown => "unknown".toList

def writeProperties : List (Property Expr) → List Char
  | [] => []
  | ⟨key, optional, value⟩ :: properties =>
      key.toList ++ (if optional then ['?', ':', ' '] else [':', ' ']) ++ value.write ++
        [';', ' '] ++ writeProperties properties

def writeMembers (joiner : Joiner) : List Expr → List Char
  | [] => []
  | [member] => member.write
  | member :: members => member.write ++ joiner.separator ++ writeMembers joiner members

end

def display (e : Expr) : String := String.ofList e.write

end Expr

end Typings
