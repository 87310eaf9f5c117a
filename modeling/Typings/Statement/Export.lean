import Typings.Statement.Clause

/-!
# Export statements without a declaration
-/

namespace Typings

inductive Reexport.Clause where
  | all
  | namespaceName (name : String)
  | named (bindings : List Binding)
  deriving DecidableEq, Repr

structure Reexport where
  clause : Reexport.Clause
  specifier : String
  deriving DecidableEq, Repr

namespace Reexport

def takeClause (statement s : List Char) :
    Except Error (Option (Reexport.Clause × List Char)) :=
  match s with
  | '*' :: tail =>
      let rest := Text.skipBlanks tail
      if (Text.eatKeyword? "as" rest).isSome then
        (Clause.takeNamespace statement rest).map fun (name, rest) =>
          some (.namespaceName name, rest)
      else .ok (some (.all, rest))
  | '\x7b' :: _ =>
      (Clause.takeBindings statement s).map fun (bindings, rest) => some (.named bindings, rest)
  | _ => .ok none

def parse? (statement : List Char) : Except Error (Option Reexport) :=
  match Text.eatKeyword? "export" statement with
  | none => .ok none
  | some rest =>
      match takeClause statement (Clause.skipTypeModifier (Text.skipBlanks rest)) with
      | .error e => .error e
      | .ok none => .ok none
      | .ok (some (clause, rest)) =>
          match Text.eatKeyword? "from" (Text.skipBlanks rest) with
          | none => .ok none
          | some rest =>
              (Clause.specifier statement rest).map fun specifier => some ⟨clause, specifier⟩

end Reexport

namespace LocalExport

def defaultName? (statement : List Char) : Option String := do
  let rest ← Text.eatKeyword? "export" statement
  let rest ← Text.eatKeyword? "default" (Text.skipBlanks rest)
  let (name, rest) ← Text.takeWord? (Text.skipBlanks rest)
  if Clause.isEnd rest then some (String.ofList name) else none

def isEmpty (statement : List Char) : Bool :=
  Option.isSome do
    let rest ← Text.eatKeyword? "export" statement
    let rest ← Text.eat? '\x7b' (Text.skipBlanks rest)
    let rest ← Text.eat? '\x7d' (Text.skipBlanks rest)
    if Clause.isEnd rest then some () else none

def bindings? (statement : List Char) : Except Error (Option (List Binding)) :=
  match Text.eatKeyword? "export" statement with
  | none => .ok none
  | some rest =>
      let rest := Clause.skipTypeModifier (Text.skipBlanks rest)
      if rest.head? == some '\x7b' then
        match Clause.takeBindings statement rest with
        | .error e => .error e
        | .ok (bindings, rest) =>
            if Clause.isEnd rest then .ok (some bindings)
            else .error (.malformedDeclaration statement)
      else .ok none

end LocalExport

end Typings
