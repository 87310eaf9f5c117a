import Typings.Statement
import Typings.Statement.Export
import Typings.Statement.Head

/-!
# Meanings of export statements

What a statement that is no import says about the exports of its module.
-/

namespace Typings

inductive Meaning where
  | reexport (taken : Reexport)
  | declaration (head : Head)
  | defaultExport (name : String)
  | emptyExport
  | localExports (bindings : List Binding)
  | value (name : String)
  deriving DecidableEq, Repr

def Statement.meaning (s : Statement) : Except Error Meaning :=
  match Reexport.parse? s.text with
  | .error e => .error e
  | .ok (some taken) => .ok (.reexport taken)
  | .ok none =>
      if let some head := Head.parse? s.text then .ok (.declaration head)
      else if let some name := LocalExport.defaultName? s.text then .ok (.defaultExport name)
      else if LocalExport.isEmpty s.text then .ok .emptyExport
      else match LocalExport.bindings? s.text with
        | .error e => .error e
        | .ok (some bindings) => .ok (.localExports bindings)
        | .ok none =>
            match ValueDeclaration.name? s.text with
            | some name => .ok (.value name)
            | none => .error (.malformedDeclaration s.text)

end Typings
