import Typings.Store.Imports

/-!
# Resolving declarations

The body of a declaration is resolved in its own module: names are those of its declarations,
then of its imports, then of its exports.
-/

namespace Typings

structure Resolved where
  identity : Identity
  type : Expr
  deriving Repr

namespace FileTree

variable (files : FileTree)

def lookup (path : Path) (name : String) : Query (Option Identity) := do
  match (← Query.current path).localIdentity? name with
  | some found => return some found
  | none =>
      match (← files.imports path).get? name with
      | some found => return some found
      | none => return (← files.tableOf path).names.get? name

def scope (path : Path) : Scope Store where
  lookup := files.lookup path
  forms := Forms.standard

/-- The type of a declaration of a loaded module, which is worked out once. -/
def typeOf (path : Path) (d : Declaration) : Query Expr := do
  match d.parsed with
  | some e => return e
  | none =>
      let work : Query Expr := do
        let written ← Query.ofExcept d.written
        written.resolve (files.scope path)
      match ← Query.observe work with
      | .error e => throw (.inDeclaration d.identity e)
      | .ok e =>
          Query.update path (·.setParsed d.name e)
          return e

def declarationOf (a : Identity) : Query Declaration := do
  let path ← files.load a.file
  match ← files.declaration? path a.name with
  | some d => return d
  | none => throw (.unresolvedImport a.name a.file)

def resolve (p : Path) (name : String) : Query Resolved := do
  let path ← files.load p
  let identity ← files.exportNamed path name
  let owner ← files.load identity.file
  let d ← files.declarationOf identity
  return ⟨identity, ← files.typeOf owner d⟩

end FileTree

end Typings
