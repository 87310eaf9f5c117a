import Typings.Error
import Typings.OrderedMap

/-!
# File trees

A tree of directories and files without links.  Paths are looked up from the root, name by name;
what stands before a slash has to be a directory.
-/

namespace Typings

/-- A file's content is its text, or nothing if its bytes are no text. -/
inductive FileNode where
  | file (content : Option (List Char))
  | directory
  deriving DecidableEq, Repr

abbrev Location := List (List Char)

structure FileTree where
  nodes : OrderedMap Location FileNode
  workingDirectory : Location
  deriving DecidableEq, Repr

namespace FileTree

def size (t : FileTree) : Nat := t.nodes.size

/-! ## Limits -/

def maxNameBytes : Nat := 255

def maxPathBytes : Nat := 4095

def isTooLong (p : Path) : Bool := Text.byteLength p.text.toList > maxPathBytes

/-! ## Nodes -/

def pathOf (here : Location) : Path := Path.ofComponents (.root :: here.map .name)

def node? (t : FileTree) (here : Location) : Option FileNode :=
  if here.isEmpty then some .directory else t.nodes.get? here

/-! ## Changes -/

def parents (here : Location) : List Location :=
  ((List.range here.length).map here.take).filter (!·.isEmpty)

def write (t : FileTree) (here : Location) (node : FileNode) : FileTree :=
  let nodes := (parents here).foldl (fun nodes above => nodes.insert above .directory) t.nodes
  { t with nodes := nodes.insert here node }

def remove (t : FileTree) (here : Location) : FileTree :=
  { t with nodes := ⟨t.nodes.entries.filter fun e => e.1 != here⟩ }

def ofWorkingDirectory (here : Location) : FileTree :=
  (FileTree.mk .empty here).write here .directory

/-! ## Look-up -/

def onward (t : FileTree) (here there : Location) : Except ReadFailure Location :=
  if t.node? here = some .directory then .ok there else .error .belowFile

def child (t : FileTree) (here : Location) (name : List Char) : Except ReadFailure Location :=
  let there := here ++ [name]
  if isTooLong (pathOf there) then .error .nameTooLong
  else if t.node? here ≠ some .directory then .error .belowFile
  else if Text.byteLength name > maxNameBytes then .error .nameTooLong
  else if (t.node? there).isSome then .ok there
  else .error .missing

def step (t : FileTree) (here : Location) : Path.Component → Except ReadFailure Location
  | .root => t.onward here []
  | .current => t.onward here here
  | .parent => t.onward here here.dropLast
  | .name chars => t.child here chars

def walk (t : FileTree) (here : Location) : List Path.Component → Except ReadFailure Location
  | [] => .ok here
  | c :: cs =>
      match t.step here c with
      | .error e => .error e
      | .ok here => walk t here cs

/-- Whether the spelling asks for a directory, as `a/` and `a/.` do. -/
def asksDirectory (p : Path) : Bool :=
  match p.anatomy.2.reverse with
  | piece :: _ :: _ => Path.isFiller piece
  | _ => false

def hasNul (p : Path) : Bool := p.text.toList.contains '\x00'

/-- The place that a path names, found component by component: only the places on the way count. -/
def locate (t : FileTree) (p : Path) : Except ReadFailure Location :=
  if hasNul p then .error .nulInName
  else if p.text.isEmpty then .error .missing
  else
    match t.walk t.workingDirectory p.components with
    | .error e => .error e
    | .ok here =>
        if asksDirectory p && t.node? here ≠ some .directory then .error .belowFile else .ok here

def lookUp (t : FileTree) (p : Path) : Except ReadFailure FileNode :=
  if !hasNul p && isTooLong p then .error .nameTooLong
  else
    match t.locate p with
    | .error e => .error e
    | .ok here =>
        match t.node? here with
        | some node => .ok node
        | none => .error .missing

def place (t : FileTree) (p : Path) : Location :=
  ((pathOf t.workingDirectory).join p).normalize.components.filterMap fun
    | .name chars => some chars
    | _ => none

def canonicalize (t : FileTree) (p : Path) : Except ReadFailure Path :=
  (t.locate p).map pathOf

def read (t : FileTree) (p : Path) : Except ReadFailure (List Char) :=
  match t.lookUp p with
  | .error e => .error e
  | .ok .directory => .error .isDirectory
  | .ok (.file none) => .error .notUnicode
  | .ok (.file (some text)) => .ok text

def isFile (t : FileTree) (p : Path) : Bool :=
  match t.lookUp p with
  | .ok (.file _) => true
  | _ => false

end FileTree

end Typings
