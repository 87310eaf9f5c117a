import Typings.Decimal.Binary64
import Typings.Identity
import Typings.Tokens

/-!
# Type expressions

The structure of a type after its names have been resolved.
-/

namespace Typings

inductive Primitive where
  | date
  | string
  | number
  | boolean
  | null
  | undefined
  | any
  deriving DecidableEq, Repr

def Primitive.keyword : Primitive → String
  | .date => "Date"
  | .string => "string"
  | .number => "number"
  | .boolean => "boolean"
  | .null => "null"
  | .undefined => "undefined"
  | .any => "any"

def Primitive.all : List Primitive :=
  [.date, .string, .number, .boolean, .null, .undefined, .any]

def Primitive.ofKeyword? (word : String) : Option Primitive :=
  Primitive.all.find? fun p => p.keyword == word

theorem Primitive.ofKeyword?_keyword (p : Primitive) : ofKeyword? p.keyword = some p := by
  cases p <;> decide

inductive Literal where
  | string (value : String)
  | number (value : Decimal.Binary64)
  | boolean (value : Bool)
  deriving DecidableEq, Repr

structure Property (α : Type) where
  key : String
  optional : Bool
  value : α
  deriving DecidableEq, Repr

inductive Expr where
  | reference (target : Identity) (argument : Option Expr)
  | literal (value : Literal)
  | primitive (kind : Primitive)
  | array (element : Expr)
  | object (properties : List (Property Expr)) (dynamic : Option Expr)
  | promise (inner : Expr)
  | compound (joiner : Joiner) (members : List Expr)
  /-- The type parameter of the declaration itself. -/
  | generic
  | unknown
  deriving Repr

namespace Property

variable {α : Type}

def insert (p : Property α) : List (Property α) → List (Property α)
  | [] => [p]
  | q :: qs => if q.key = p.key then p :: qs else q :: insert p qs

end Property

end Typings
