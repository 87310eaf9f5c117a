import Typings.Comment
import Typings.Word

/-!
# Top-level statements

A line that begins with a word and a blank in its first column opens a statement.  Any other line
that is not blank continues the statement before it; the trimmed lines are joined by blanks.
-/

namespace Typings

structure Statement where
  text : List Char
  offset : Nat
  deriving DecidableEq, Repr

namespace Statement

def leadingWord (s : Statement) : List Char := s.text.takeWhile Text.isWord

def lines : List Char → List (List Char)
  | [] => []
  | c :: s =>
      if c == '\n' then [c] :: lines s
      else match lines s with
        | [] => [[c]]
        | line :: more => (c :: line) :: more

theorem flatten_lines (s : List Char) : (lines s).flatten = s := by
  induction s with
  | nil => rfl
  | cons c s ih =>
      simp only [lines]
      split
      · simp [ih]
      · split
        next h => simp only [h, List.flatten_nil] at ih; simp [← ih]
        next line more h => simp only [h, List.flatten_cons] at ih; simp [← ih]

def opens (line : List Char) : Bool :=
  Text.startsWord line && (line.dropWhile Text.isWord).head? == some ' '

/-- The statements of lines that begin at byte `offset`, after the one still being read. -/
def chunk (offset : Nat) (current : Option Statement) : List (List Char) → List Statement
  | [] => current.toList
  | line :: more =>
      let next := offset + Text.byteLength line
      let text := Text.trim line
      if text.isEmpty then chunk next current more
      else if opens line then current.toList ++ chunk next (some ⟨text, offset⟩) more
      else match current with
        | some s => chunk next (some { s with text := s.text ++ ' ' :: text }) more
        | none =>
            let indent := Text.byteLength line - Text.byteLength (Text.trimStart line)
            chunk next (some ⟨text, offset + indent⟩) more

def ofSource (source : List Char) (stripComments : Bool) : List Statement :=
  chunk 0 none (lines (if stripComments then Comment.strip source else source))

def isImport (s : Statement) : Bool := s.leadingWord == "import".toList

end Statement

end Typings
