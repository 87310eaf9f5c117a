import Typings.Identity

/-!
# Errors

An error ends the work on the file or declaration where it arises.  `Error.message` is the only
place where errors are put into words.
-/

namespace Typings

def maxNesting : Nat := 256

def maxExcerpt : Nat := 80

inductive ReadFailure where
  | missing
  | belowFile
  | isDirectory
  | nameTooLong
  | nulInName
  | notUnicode
  deriving DecidableEq, Repr

def ReadFailure.message : ReadFailure → String
  | .missing => "No such file or directory (os error 2)"
  | .belowFile => "Not a directory (os error 20)"
  | .isDirectory => "Is a directory (os error 21)"
  | .nameTooLong => "File name too long (os error 36)"
  | .nulInName => "file name contained an unexpected NUL byte"
  | .notUnicode => "stream did not contain valid UTF-8"

inductive Error where
  | fileNotFound (path : Path)
  | unreadable (path : Path) (reason : ReadFailure)
  | unresolvedImport (name : String) (file : Path)
  | unresolvedAlias (newName : String) (file : Path) (target : Identity)
  | unbalanced (opening closing : Char) (text : List Char)
  | malformedDeclaration (text : List Char)
  | malformedProperty (text : List Char)
  | severalParameters (name : String) (parameters : List Char)
  | mixedDelimiters (text : List Char)
  | nestingTooDeep
  | inFile (file : Path) (cause : Error)
  | inDeclaration (declaration : Identity) (cause : Error)
  deriving DecidableEq, Repr

inductive Error.Kind where
  | fileNotFound
  | unreadable
  | unresolvedImport
  | unresolvedAlias
  | unbalanced
  | malformedDeclaration
  | malformedProperty
  | severalParameters
  | mixedDelimiters
  | nestingTooDeep
  deriving DecidableEq, Repr

namespace Error

/-- The innermost error; the wrappers only say where it arose. -/
def root : Error → Error
  | inFile _ cause => cause.root
  | inDeclaration _ cause => cause.root
  | e => e

def kind : Error → Kind
  | fileNotFound _ => .fileNotFound
  | unreadable _ _ => .unreadable
  | unresolvedImport _ _ => .unresolvedImport
  | unresolvedAlias _ _ _ => .unresolvedAlias
  | unbalanced _ _ _ => .unbalanced
  | malformedDeclaration _ => .malformedDeclaration
  | malformedProperty _ => .malformedProperty
  | severalParameters _ _ => .severalParameters
  | mixedDelimiters _ => .mixedDelimiters
  | nestingTooDeep => .nestingTooDeep
  | inFile _ cause => cause.kind
  | inDeclaration _ cause => cause.kind

/-! ## Wording -/

def excerpt (text : List Char) : List Char :=
  let text := Text.trim text
  if text.length ≤ maxExcerpt then text else text.take maxExcerpt ++ ['.', '.', '.']

def message : Error → String
  | fileNotFound path => "file doesn't exist: " ++ path.text
  | unreadable path reason => "failed to read " ++ path.text ++ ": " ++ reason.message
  | unresolvedImport name file => "couldn't find export \"" ++ name ++ "\" in " ++ file.text
  | unresolvedAlias newName file target =>
      "alias \"" ++ newName ++ "\" in " ++ file.text ++ " refers to " ++ target.display ++
        ", which is not exported"
  | unbalanced opening closing text =>
      "could not find a pair of " ++ String.ofList [opening, closing] ++ " in " ++
        String.ofList (excerpt text)
  | malformedDeclaration text => "invalid content: " ++ String.ofList (excerpt text)
  | malformedProperty text => "invalid object property: " ++ String.ofList (excerpt text)
  | severalParameters name parameters =>
      "`" ++ name ++ "` declares more than one generic parameter: <" ++
        String.ofList (Text.trim parameters) ++ ">"
  | mixedDelimiters text =>
      "cannot use both | and & in the same expression: " ++ String.ofList (excerpt text)
  | nestingTooDeep => "expression nesting exceeds " ++ toString maxNesting ++ " levels"
  | inFile file cause => "in " ++ file.text ++ ": " ++ cause.message
  | inDeclaration declaration cause => "in " ++ declaration.display ++ ": " ++ cause.message

end Error

end Typings
