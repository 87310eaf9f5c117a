import Typings.Span
import Typings.Word

/-!
# Parts of import and export statements

Errors about a statement quote the whole statement, which is passed along as `statement`.
-/

namespace Typings

/-- A name in an import or export list, and the name it is given there. -/
structure Binding where
  name : String
  newName : Option String
  deriving DecidableEq, Repr

namespace Binding

def introduced (b : Binding) : String := b.newName.getD b.name

def ofWords? : List String → Option Binding
  | [name] => some ⟨name, none⟩
  | ["type", name] => some ⟨name, none⟩
  | [name, "as", newName] => some ⟨name, some newName⟩
  | ["type", name, "as", newName] => some ⟨name, some newName⟩
  | _ => none

def isValid (b : Binding) : Bool :=
  Text.isIdentifier b.name.toList && b.newName.all fun newName => Text.isIdentifier newName.toList

def ofEntry? (entry : List Char) : Option Binding :=
  (ofWords? ((Text.words entry).map String.ofList)).filter isValid

def ofEntries (statement : List Char) : List (List Char) → Except Error (List Binding)
  | [] => .ok []
  | [] :: entries => ofEntries statement entries
  | entry :: entries =>
      match ofEntry? entry with
      | none => .error (.malformedDeclaration statement)
      | some binding => (ofEntries statement entries).map (binding :: ·)

end Binding

namespace Clause

def takeBindings (statement s : List Char) : Except Error (List Binding × List Char) :=
  match Span.take? s with
  | .error e => .error e
  | .ok none => .error (.malformedDeclaration statement)
  | .ok (some (span, rest)) =>
      match Span.arguments (Span.inner span) with
      | .error e => .error e
      | .ok entries => (Binding.ofEntries statement entries).map fun bindings => (bindings, rest)

/-- The text behind the modifier `type`, which is no modifier where a type is called so. -/
def skipTypeModifier (s : List Char) : List Char :=
  match Text.eatKeyword? "type" s with
  | none => s
  | some rest =>
      let rest := Text.skipBlanks rest
      if (Text.eatKeyword? "from" rest).isSome || rest.head? == some ',' then s else rest

def takeNamespace (statement s : List Char) : Except Error (String × List Char) :=
  match Text.eatKeyword? "as" (Text.skipBlanks s) with
  | none => .error (.malformedDeclaration statement)
  | some rest =>
      match Text.takeWord? (Text.skipBlanks rest) with
      | none => .error (.malformedDeclaration statement)
      | some (name, rest) => .ok (String.ofList name, rest)

def isEnd (s : List Char) : Bool :=
  (Text.skipBlanks (Text.skip ';' (Text.skipBlanks s))).isEmpty

def specifier (statement s : List Char) : Except Error String :=
  match Span.take? (Text.skipBlanks s) with
  | .error e => .error e
  | .ok none => .error (.malformedDeclaration statement)
  | .ok (some (span, rest)) =>
      if span.head?.any Span.isQuote && isEnd rest then .ok (String.ofList (Span.inner span))
      else .error (.malformedDeclaration statement)

end Clause

end Typings
