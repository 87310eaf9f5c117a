import Typings.Word

/-!
# Heads of declarations
-/

namespace Typings

inductive DeclarationKind where
  | typeAlias
  | interface
  | classType
  | enumeration
  deriving DecidableEq, Repr

def DeclarationKind.keyword : DeclarationKind → String
  | .typeAlias => "type"
  | .interface => "interface"
  | .classType => "class"
  | .enumeration => "enum"

def DeclarationKind.all : List DeclarationKind := [.typeAlias, .interface, .classType, .enumeration]

def DeclarationKind.ofKeyword? (word : String) : Option DeclarationKind :=
  DeclarationKind.all.find? fun kind => kind.keyword == word

/-! ## Runs of keywords -/

namespace Text

def eatFirst? (keywords : List String) (s : List Char) : Option (String × List Char) :=
  keywords.findSome? fun keyword => (eatKeyword? keyword s).map fun rest => (keyword, rest)

theorem length_eatFirst? {keywords : List String} {s rest : List Char} {keyword : String}
    (proper : ∀ k ∈ keywords, k.toList ≠ []) (h : eatFirst? keywords s = some (keyword, rest)) :
    rest.length < s.length := by
  obtain ⟨k, hk, h⟩ := List.exists_of_findSome?_eq_some h
  simp only [eatKeyword?, Option.map_eq_some_iff, Option.filter_eq_some_iff,
    stripLead?_eq_some_iff, Prod.mk.injEq] at h
  obtain ⟨a, ⟨ha, -⟩, -, rfl⟩ := h
  have := congrArg List.length ha
  have := List.length_pos_iff.2 (proper k hk)
  simp only [List.length_append] at *
  omega

def takeKeywords (keywords : List String) (proper : ∀ k ∈ keywords, k.toList ≠ [])
    (s : List Char) : List String × List Char :=
  match h : eatFirst? keywords s with
  | none => ([], s)
  | some (keyword, rest) =>
      have := length_eatFirst? proper h
      have := length_skipBlanks_le rest
      let (more, rest) := takeKeywords keywords proper (skipBlanks rest)
      (keyword :: more, rest)
termination_by s.length

end Text

/-! ## Heads -/

structure Head where
  exported : Bool
  isDefault : Bool
  kind : DeclarationKind
  name : String
  body : List Char
  deriving DecidableEq, Repr

namespace Head

def modifiers : List String := ["declare", "abstract", "default", "const"]

/-- The head of a statement that declares a type.  Only an enumeration may be constant. -/
def parse? (statement : List Char) : Option Head := do
  let afterExport := Text.eatKeyword? "export" statement
  let (found, rest) :=
    Text.takeKeywords modifiers (by decide) (Text.skipBlanks (afterExport.getD statement))
  let (word, rest) ← Text.takeWord? rest
  let kind ← DeclarationKind.ofKeyword? (String.ofList word)
  if found.contains "const" && kind != .enumeration then none
  else
    let (name, body) ← Text.takeWord? (Text.skipBlanks rest)
    some ⟨afterExport.isSome, found.contains "default", kind, String.ofList name, body⟩

end Head

namespace ValueDeclaration

def modifiers : List String := ["export", "declare", "default", "async"]

def keywords : List String := ["function", "const", "let", "var"]

def name? (statement : List Char) : Option String := do
  let (_, rest) := Text.takeKeywords modifiers (by decide) statement
  let (keyword, rest) ← Text.eatFirst? keywords rest
  let rest := if keyword = "function" then Text.skip '*' rest else rest
  let (name, _) ← Text.takeWord? (Text.skipBlanks rest)
  some (String.ofList name)

end ValueDeclaration

end Typings
