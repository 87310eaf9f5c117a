import Typings.FileTree
import Typings.Module
import Typings.Resolver

/-!
# Stores

A store holds the modules loaded so far, each under the one spelling of its file's path.  Modules
stay in the store; files are read once.
-/

namespace Typings

structure Store where
  options : ResolverOptions
  modules : OrderedMap Path Module
  depth : Nat
  /-- The depth of the outermost running scan whose unfinished table has been read. -/
  partialFloor : Option Nat

/-- Work on a store that may fail; what was found out before the failure is kept. -/
abbrev Query := Action Store

namespace Store

def ofOptions (options : ResolverOptions) : Store := ⟨options, .empty, 0, none⟩

def module? (s : Store) (path : Path) : Option Module := s.modules.get? path

def updateModule (s : Store) (path : Path) (f : Module → Module) : Store :=
  { s with modules := s.modules.modify path f }

def paths (s : Store) : List Path :=
  s.modules.keys.mergeSort fun p q => (p.compare q).isLE

/-! ## The running scans -/

def enterScan (s : Store) : Store := { s with depth := s.depth + 1 }

def notePartialRead (s : Store) (depth : Nat) : Store :=
  { s with partialFloor := some (match s.partialFloor with
      | none => depth
      | some floor => min floor depth) }

/-- Whether no unfinished table of a scan further out than `depth` has been read. -/
def isComplete (s : Store) (depth : Nat) : Bool :=
  s.partialFloor.all fun floor => depth ≤ floor

def exitScan (s : Store) (depth : Nat) : Store :=
  { s with depth := depth, partialFloor := if s.isComplete depth then none else s.partialFloor }

end Store

/-! ## Queries -/

namespace Query

variable {α : Type}

def ofExcept : Except Error α → Query α
  | .ok a => pure a
  | .error e => throw e

def observe (q : Query α) : Query (Except Error α) := ExceptT.lift (ExceptT.run q)

def current (path : Path) : Query Module := do
  match (← get).module? path with
  | some m => return m
  | none => throw (.fileNotFound path)

def update (path : Path) (f : Module → Module) : Query Unit :=
  modify fun s => s.updateModule path f

end Query

/-! ## Loading -/

/-- The spelling under which a file's module is kept; the file has to exist. -/
def FileTree.key (files : FileTree) (p : Path) : Except Error Path :=
  let normal := p.normalize
  match files.canonicalize normal with
  | .ok key => .ok key
  | .error .missing => .error (.fileNotFound normal)
  | .error reason => .error (.unreadable normal reason)

/-- The key of the module of a file, which is read when it is asked for the first time. -/
def FileTree.load (files : FileTree) (p : Path) : Query Path := do
  let key ← Query.ofExcept (files.key p)
  if ((← get).module? key).isSome then return key
  match files.read key with
  | .error reason => throw (.unreadable key reason)
  | .ok text =>
      modify fun s =>
        { s with modules := s.modules.insert key (Module.ofText key text s.options.stripComments) }
      return key

end Typings
