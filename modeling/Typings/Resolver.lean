import Typings.Path

/-!
# Module specifiers

A relative specifier names a declaration file next to the file it is written in.  It is written
with the suffix of source files, which gives way to the suffix of declaration files.
-/

namespace Typings

structure ResolverOptions where
  declarationSuffix : String
  sourceSuffix : String
  stripComments : Bool
  deriving DecidableEq, Repr

namespace ResolverOptions

def standard : ResolverOptions := ⟨".d.ts", ".js", true⟩

instance : Inhabited ResolverOptions := ⟨standard⟩

end ResolverOptions

namespace Specifier

def isRelative (specifier : String) : Bool :=
  let s := specifier.toList
  specifier == "." || specifier == ".." || ['.', '/'].isPrefixOf s || ['.', '.', '/'].isPrefixOf s

def withDeclarationSuffix (options : ResolverOptions) (p : Path) : Path :=
  let s := p.text.toList
  let declaration := options.declarationSuffix.toList
  let source := options.sourceSuffix.toList
  if (Text.stripTail? declaration s).isSome then p
  else
    let stem := if source.isEmpty then s else (Text.stripTail? source s).getD s
    Path.ofChars (stem ++ declaration)

def resolve (options : ResolverOptions) (importer : Path) (specifier : String) : Path :=
  let directory := importer.parent?.getD ⟨""⟩
  withDeclarationSuffix options (directory.join ⟨specifier⟩).normalize

end Specifier

end Typings
