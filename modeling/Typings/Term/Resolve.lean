import Typings.OrderedMap
import Typings.Term

/-!
# Resolving the names of a term

Names are looked up from left to right, and the first failure ends the work.  A look-up may change
a state, such as the files loaded so far, also when it fails.
-/

namespace Typings

/-- A computation on a state that may fail; a failure keeps the state. -/
abbrev Action (σ : Type) := ExceptT Error (StateM σ)

/-- What a generic type stands for when its name is not declared. -/
inductive Form where
  | allOptional
  /-- An object without named properties, the second argument being the type of its values. -/
  | record
  | promise
  deriving DecidableEq, Repr

abbrev Forms := OrderedMap String Form

def Forms.standard : Forms :=
  ⟨[("Partial", .allOptional), ("Record", .record), ("Promise", .promise)]⟩

structure Scope (σ : Type) where
  lookup : String → Action σ (Option Identity)
  forms : Forms

variable {σ : Type}

def Property.madeOptional {α : Type} (p : Property α) : Property α := { p with optional := true }

def Expr.madePartial : Expr → Expr
  | .object properties dynamic => .object (properties.map Property.madeOptional) dynamic
  | _ => .unknown

mutual

def Term.resolve (scope : Scope σ) : Term → Action σ Expr
  | .invalid cause => throw cause
  | .literal value => pure (.literal value)
  | .primitive kind => pure (.primitive kind)
  | .array element => do return .array (← element.resolve scope)
  | .object body => do
      let (properties, dynamic) ← body.resolve scope [] none
      return .object properties dynamic
  | .compound joiner members => do return .compound joiner (← Term.resolveAll scope members)
  | .named name none => do
      match ← scope.lookup name with
      | some target => return .reference target none
      | none => return .unknown
  | .named name (some [argument]) => do
      match ← scope.lookup name with
      | some target => return .reference target (some (← argument.resolve scope))
      | none =>
          match scope.forms.get? name with
          | some .allOptional => return (← argument.resolve scope).madePartial
          | some .promise => return .promise (← argument.resolve scope)
          | _ => return .unknown
  | .named name (some [_, value]) => do
      match ← scope.lookup name with
      | some target => return .reference target (some .unknown)
      | none =>
          match scope.forms.get? name with
          | some .record => return .object [] (some (← value.resolve scope))
          | _ => return .unknown
  | .named name (some _) => do
      match ← scope.lookup name with
      | some target => return .reference target (some .unknown)
      | none => return .unknown
  | .generic => pure .generic
  | .unknown => pure .unknown

def Term.resolveAll (scope : Scope σ) : List Term → Action σ (List Expr)
  | [] => pure []
  | term :: terms => do
      let e ← term.resolve scope
      return e :: (← Term.resolveAll scope terms)

def Body.resolve (scope : Scope σ) (properties : List (Property Expr)) (dynamic : Option Expr) :
    Body → Action σ (List (Property Expr) × Option Expr)
  | .closed => pure (properties, dynamic)
  | .broken cause => throw cause
  | .property key optional value rest => do
      let e ← value.resolve scope
      rest.resolve scope (Property.insert ⟨key, optional, e⟩ properties) dynamic
  | .dynamic value rest => do
      let e ← value.resolve scope
      rest.resolve scope properties (some e)

end

end Typings
