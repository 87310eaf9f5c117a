import Typings.Position

/-!
# Diagnostics

Statements that are understood but not supported are skipped, and each skip is noted.
-/

namespace Typings

inductive Category where
  | warning
  | message
  deriving DecidableEq, Repr

inductive Notice where
  | libraryImport
  | libraryReexport
  | wildcardRename
  | namespaceImport
  | sideEffectImport
  | valueDeclaration
  deriving DecidableEq, Repr

namespace Notice

def code : Notice → Nat
  | .libraryImport => 9001
  | .libraryReexport => 9002
  | .wildcardRename => 9003
  | .namespaceImport => 9004
  | .sideEffectImport => 9005
  | .valueDeclaration => 9006

def category : Notice → Category
  | .wildcardRename => .warning
  | .namespaceImport => .warning
  | _ => .message

def template : Notice → String
  | .libraryImport => "Skipping library import: \x7b0\x7d"
  | .libraryReexport => "Skipping library re-export: \x7b0\x7d"
  | .wildcardRename => "Skipping wildcard rename export: \x7b0\x7d"
  | .namespaceImport => "Skipping namespace import '\x7b0\x7d' from '\x7b1\x7d'"
  | .sideEffectImport => "Skipping side-effect import: \x7b0\x7d"
  | .valueDeclaration => "Skipping value declaration '\x7b0\x7d'"

end Notice

/-! ## Filling a template -/

/-- Every occurrence of `pattern` replaced, from left to right; `pattern` is not empty. -/
def Text.replaceFrom (pattern replacement : List Char) : Nat → List Char → List Char
  | _, [] => []
  | passed + 1, _ :: s => replaceFrom pattern replacement passed s
  | 0, c :: s =>
      if pattern.isPrefixOf (c :: s) then
        replacement ++ replaceFrom pattern replacement (pattern.length - 1) s
      else c :: replaceFrom pattern replacement 0 s

def Text.replace (pattern replacement s : List Char) : List Char :=
  replaceFrom pattern replacement 0 s

def fillFrom (template : List Char) : Nat → List String → List Char
  | _, [] => template
  | i, argument :: arguments =>
      let mark := '\x7b' :: Nat.toDigits 10 i ++ ['\x7d']
      fillFrom (Text.replace mark argument.toList template) (i + 1) arguments

/-- The template with its marks replaced in order, also inside earlier arguments. -/
def fill (template : String) (arguments : List String) : String :=
  String.ofList (fillFrom template.toList 0 arguments)

/-! ## Diagnostics -/

structure Diagnostic where
  file : String
  start : Nat
  length : Nat
  text : String
  category : Category
  code : Nat
  deriving DecidableEq, Repr

def clamped (n : Nat) : Nat := min n (UInt32.size - 1)

theorem clamped_eq {n : Nat} (h : n < UInt32.size) : clamped n = n :=
  Nat.min_eq_left (Nat.le_pred_of_lt h)

def Notice.diagnostic (notice : Notice) (file : String) (start length : Nat)
    (arguments : List String) : Diagnostic where
  file := file
  start := clamped start
  length := clamped length
  text := fill notice.template arguments
  category := notice.category
  code := notice.code

/-! ## Report lines -/

def Category.label : Category → String
  | .warning => "warning"
  | .message => "message"

def cyan : String := "\x1b[36m"

def yellow : String := "\x1b[33m"

def brightBlack : String := "\x1b[90m"

def resetStyle : String := "\x1b[0m"

/-- The text in a style, which is taken up again after any reset inside the text. -/
def styled (style text : String) : String :=
  style ++ String.ofList (Text.replace resetStyle.toList (resetStyle ++ style).toList text.toList) ++
    resetStyle

def Category.style : Category → String
  | .warning => yellow
  | .message => cyan

def Diagnostic.reportLine (d : Diagnostic) (color : Bool) (source : List Char) : String :=
  let position := Text.positionAt source d.start
  let location := d.file ++ ":" ++ toString position.line ++ ":" ++ toString position.column
  let code := "DTS" ++ toString d.code
  if color then
    styled cyan location ++ " - " ++ styled d.category.style d.category.label ++ " " ++
      styled brightBlack code ++ ": " ++ d.text
  else location ++ " - " ++ d.category.label ++ " " ++ code ++ ": " ++ d.text

end Typings
