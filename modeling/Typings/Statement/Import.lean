import Typings.Statement.Clause

/-!
# Import statements
-/

namespace Typings

structure Import where
  defaultName : Option String
  namespaceName : Option String
  named : List Binding
  specifier : String
  deriving DecidableEq, Repr

namespace Import

def isSideEffect (i : Import) : Bool :=
  i.defaultName.isNone && i.namespaceName.isNone && i.named.isEmpty

structure Subject where
  defaultName : Option String
  namespaceName : Option String
  named : List Binding

def takeGroup? (statement s : List Char) (defaultName : Option String) :
    Option (Except Error (Subject × List Char)) :=
  match s with
  | '\x7b' :: _ =>
      some ((Clause.takeBindings statement s).map fun (named, rest) =>
        (⟨defaultName, none, named⟩, rest))
  | '*' :: tail =>
      some ((Clause.takeNamespace statement tail).map fun (name, rest) =>
        (⟨defaultName, some name, []⟩, rest))
  | _ => none

def takeSubject (statement s : List Char) : Except Error (Subject × List Char) :=
  match takeGroup? statement s none with
  | some group => group
  | none =>
      match Text.takeWord? s with
      | none => .error (.malformedDeclaration statement)
      | some (name, rest) =>
          let name := String.ofList name
          let rest := Text.skipBlanks rest
          match Text.eat? ',' rest with
          | none => .ok (⟨some name, none, []⟩, rest)
          | some rest =>
              (takeGroup? statement (Text.skipBlanks rest) (some name)).getD
                (.error (.malformedDeclaration statement))

def parse (statement : List Char) : Except Error Import :=
  match Text.eatKeyword? "import" statement with
  | none => .error (.malformedDeclaration statement)
  | some rest =>
      let rest := Text.skipBlanks rest
      if rest.head?.any Span.isQuote then
        (Clause.specifier statement rest).map fun specifier => ⟨none, none, [], specifier⟩
      else
        match takeSubject statement (Clause.skipTypeModifier rest) with
        | .error e => .error e
        | .ok (subject, rest) =>
            match Text.eatKeyword? "from" (Text.skipBlanks rest) with
            | none => .error (.malformedDeclaration statement)
            | some rest =>
                (Clause.specifier statement rest).map fun specifier =>
                  ⟨subject.defaultName, subject.namespaceName, subject.named, specifier⟩

end Import

end Typings
