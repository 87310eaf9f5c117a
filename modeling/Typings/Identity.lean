import Typings.Path

/-!
# Identities of declared types

A declared type is known by its file, its name and whether it is the file's default export.
-/

namespace Typings

structure Identity where
  file : Path
  name : String
  isDefault : Bool
  deriving DecidableEq, Repr

namespace Identity

/-- Whether both name one type: spellings of the file that mean one path count as equal. -/
def same (a b : Identity) : Bool :=
  a.file.same b.file && a.name == b.name && a.isDefault == b.isDefault

def compare (a b : Identity) : Ordering :=
  (a.file.compare b.file).then
    ((compareOfLessAndEq a.name b.name).then (Ord.compare a.isDefault b.isDefault))

theorem same_iff {a b : Identity} :
    a.same b = true ↔
      a.file.components = b.file.components ∧ a.name = b.name ∧ a.isDefault = b.isDefault := by
  simp [same, Path.same_iff, and_assoc]

/-! ## Display -/

def displayAt (file : Path) (a : Identity) : String :=
  "<" ++ file.text ++ (if a.isDefault then " => " else " -> ") ++ a.name ++ ">"

def display (a : Identity) : String := a.displayAt a.file

def displayRelative (a : Identity) (base : Path) : String :=
  match a.file.stripBase? base with
  | some below => a.displayAt (Path.join ⟨"."⟩ below)
  | none => a.display

end Identity

end Typings
