import Typings.Proofs.Operations
import Typings.Proofs.Query

/-!
# Requests

What can be asked of a store, and the stores that sequences of requests lead to.
-/

namespace Typings

/-- What can be asked of a store: paths are looked up first, as `load` does it. -/
inductive Request where
  | load (file : Path)
  | exports (file : Path)
  | exportNamed (file : Path) (name : String)
  | declaration (file : Path) (name : String)
  | declarations (file : Path)
  | imports (file : Path)
  | lookup (file : Path) (name : String)
  | typeOf (file : Path) (name : String)
  | resolveTerm (file : Path) (term : Term)
  | declarationOf (a : Identity)
  | resolve (file : Path) (name : String)

namespace Request

def asking {α : Type} (files : FileTree) (file : Path) (q : Path → Query α) : Query Unit := do
  let key ← files.load file
  let _ ← q key

def perform (files : FileTree) : Request → Query Unit
  | .load file => asking files file fun key => pure key
  | .exports file => asking files file files.exports
  | .exportNamed file name => asking files file fun key => files.exportNamed key name
  | .declaration file name => asking files file fun key => files.declaration? key name
  | .declarations file => asking files file files.declarations
  | .imports file => asking files file files.imports
  | .lookup file name => asking files file fun key => files.lookup key name
  | .typeOf file name => asking files file fun key => do
      match ← files.declaration? key name with
      | none => pure none
      | some d => some <$> files.typeOf key d
  | .resolveTerm file term => asking files file fun key => term.resolve (files.scope key)
  | .declarationOf a => do let _ ← files.declarationOf a
  | .resolve file name => do let _ ← files.resolve file name

def performBy (files : FileTree) (tableOf : TableOf) : Request → Query Unit
  | .load file => asking files file fun key => pure key
  | .exports file => asking files file tableOf
  | .exportNamed file name =>
      asking files file fun key => ExportScan.exportedBy tableOf key name
  | .declaration file name =>
      asking files file fun key => FileTree.declarationBy? tableOf key name
  | .declarations file => asking files file (FileTree.declarationsBy tableOf)
  | .imports file => asking files file (files.importsBy tableOf)
  | .lookup file name => asking files file fun key => files.lookupBy tableOf key name
  | .typeOf file name => asking files file fun key => do
      match ← FileTree.declarationBy? tableOf key name with
      | none => pure none
      | some d => some <$> files.typeOfBy tableOf key d
  | .resolveTerm file term =>
      asking files file fun key => term.resolve (files.scopeBy tableOf key)
  | .declarationOf a => do let _ ← files.declarationOfBy tableOf a
  | .resolve file name => do let _ ← files.resolveBy tableOf file name

end Request

/-- The stores that sequences of requests lead to from `s`. -/
inductive Store.After (files : FileTree) (s : Store) : Store → Prop
  | here : After files s s
  | request {s' : Store} (h : After files s s') (r : Request) :
      After files s ((r.perform files).eval s').2

abbrev Store.Session (files : FileTree) (options : ResolverOptions) : Store → Prop :=
  Store.After files (.ofOptions options)

def FileTree.exportsOf (files : FileTree) (file : Path) : Query ExportTable := do
  files.exports (← files.load file)

end Typings
