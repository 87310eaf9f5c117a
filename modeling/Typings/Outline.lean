import Typings.Expr.Display

/-!
# Outlines

An outline shows a type as lines, one for each of its parts.  A part that belongs to another one
stands below it and one level deeper, behind a label where its place has a name.
-/

namespace Typings

structure OutlineLine where
  depth : Nat
  text : List Char
  deriving DecidableEq, Repr

def OutlineLine.write (l : OutlineLine) : List Char :=
  List.replicate (2 * l.depth) ' ' ++ l.text ++ ['\n']

def writeOutline (lines : List OutlineLine) : String :=
  String.ofList (Text.trimEnd (lines.flatMap OutlineLine.write))

def Joiner.heading : Joiner → String
  | .union => "union"
  | .intersection => "intersection"

def propertyLabel (key : String) (optional : Bool) : String :=
  key ++ (if optional then "?: " else ": ")

namespace Expr

def heading (base : Path) : Expr → List Char
  | .reference target _ => ("reference " ++ target.displayRelative base).toList
  | .literal value => "literal ".toList ++ value.write
  | .primitive kind => ("primitive " ++ kind.keyword).toList
  | .array _ => "array".toList
  | .object _ _ => "object".toList
  | .promise _ => "promise".toList
  | .compound joiner _ => joiner.heading.toList
  | .generic => "generic".toList
  | .unknown => "unknown".toList

mutual

def outline (base : Path) (depth : Nat) (label : String) : Expr → List OutlineLine
  | .reference target (some argument) =>
      ⟨depth, label.toList ++ heading base (.reference target (some argument))⟩ ::
        argument.outline base (depth + 1) "argument: "
  | .array element =>
      ⟨depth, label.toList ++ heading base (.array element)⟩ ::
        element.outline base (depth + 1) ""
  | .object properties none =>
      ⟨depth, label.toList ++ heading base (.object properties none)⟩ ::
        outlineProperties base (depth + 1) properties
  | .object properties (some dynamic) =>
      ⟨depth, label.toList ++ heading base (.object properties (some dynamic))⟩ ::
        (outlineProperties base (depth + 1) properties ++
          dynamic.outline base (depth + 1) "[key]: ")
  | .promise inner =>
      ⟨depth, label.toList ++ heading base (.promise inner)⟩ ::
        inner.outline base (depth + 1) ""
  | .compound joiner members =>
      ⟨depth, label.toList ++ heading base (.compound joiner members)⟩ ::
        outlineMembers base (depth + 1) members
  | e => [⟨depth, label.toList ++ heading base e⟩]

def outlineProperties (base : Path) (depth : Nat) : List (Property Expr) → List OutlineLine
  | [] => []
  | ⟨key, optional, value⟩ :: properties =>
      value.outline base depth (propertyLabel key optional) ++
        outlineProperties base depth properties

def outlineMembers (base : Path) (depth : Nat) : List Expr → List OutlineLine
  | [] => []
  | member :: members =>
      member.outline base depth "" ++ outlineMembers base depth members

end

end Expr

end Typings
