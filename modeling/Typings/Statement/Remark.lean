import Typings.Diagnostic
import Typings.Resolver
import Typings.Statement.Import
import Typings.Statement.Meaning

/-!
# Remarks on statements

Which statements, or parts of them, are understood and skipped, and what is said about each.
-/

namespace Typings

structure Remark where
  notice : Notice
  arguments : List String
  deriving DecidableEq, Repr

def Import.remark? (i : Import) : Option Remark :=
  if i.isSideEffect then some ⟨.sideEffectImport, [i.specifier]⟩
  else if !Specifier.isRelative i.specifier then some ⟨.libraryImport, [i.specifier]⟩
  else i.namespaceName.map fun name => ⟨.namespaceImport, [name, i.specifier]⟩

def Import.bindsTypes (i : Import) : Bool :=
  Specifier.isRelative i.specifier && (i.defaultName.isSome || !i.named.isEmpty)

def Meaning.remark? (statement : List Char) : Meaning → Option Remark
  | .reexport ⟨clause, specifier⟩ =>
      if !Specifier.isRelative specifier then some ⟨.libraryReexport, [specifier]⟩
      else match clause with
        | .namespaceName _ => some ⟨.wildcardRename, [String.ofList statement]⟩
        | _ => none
  | .value name => some ⟨.valueDeclaration, [name]⟩
  | _ => none

end Typings
