import Typings.Store.Resolve

/-!
# Operations over any way to find tables

The operations on a store with the way in which they ask for export tables left open.  They are
those of the library for the tables that export scans find.
-/

namespace Typings

variable (files : FileTree) (tableOf : TableOf)

namespace ImportScan

def takeImportBy (path : Path) (found : OrderedMap String Identity) (i : Import) :
    Query (OrderedMap String Identity) := do
  let target ← files.load (Specifier.resolve (← get).options path i.specifier)
  let found ← match i.defaultName with
    | none => pure found
    | some name => do
        let identity ← ExportScan.exportedBy tableOf target "default"
        Query.update path (·.addAlias name identity)
        pure (found.insert name identity)
  i.named.foldlM (fun found b => do
    let identity ← ExportScan.bind tableOf path target b
    return found.insert b.introduced identity) found

def takeStatementBy (path : Path) (found : OrderedMap String Identity) (s : Statement) :
    Query (OrderedMap String Identity) := do
  let i ← Query.ofExcept (Import.parse s.text)
  if let some remark := i.remark? then Query.update path (·.addImportNote s remark)
  if i.bindsTypes then takeImportBy files tableOf path found i else return found

end ImportScan

namespace FileTree

def importsBy (path : Path) : Query (OrderedMap String Identity) := do
  let m ← Query.current path
  if let some found := m.imports then return found
  else
    Query.update path fun m => { m with importNotes := [] }
    let statements := m.statements.filter (·.isImport)
    match ← Query.observe (statements.foldlM (ImportScan.takeStatementBy files tableOf path) .empty) with
    | .error e => throw (.inFile path e)
    | .ok found =>
        Query.update path fun m => { m with imports := some found }
        return found

def declarationBy? (path : Path) (name : String) : Query (Option Declaration) := do
  let _ ← tableOf path
  return (← Query.current path).locals.get? name

def declarationsBy (path : Path) : Query (List Declaration) := do
  let _ ← tableOf path
  return (← Query.current path).locals.values

def lookupBy (path : Path) (name : String) : Query (Option Identity) := do
  match (← Query.current path).localIdentity? name with
  | some found => return some found
  | none =>
      match (← files.importsBy tableOf path).get? name with
      | some found => return some found
      | none => return (← tableOf path).names.get? name

def scopeBy (path : Path) : Scope Store where
  lookup := files.lookupBy tableOf path
  forms := Forms.standard

def typeOfBy (path : Path) (d : Declaration) : Query Expr := do
  match d.parsed with
  | some e => return e
  | none =>
      let work : Query Expr := do
        let written ← Query.ofExcept d.written
        written.resolve (files.scopeBy tableOf path)
      match ← Query.observe work with
      | .error e => throw (.inDeclaration d.identity e)
      | .ok e =>
          Query.update path (·.setParsed d.name e)
          return e

def declarationOfBy (a : Identity) : Query Declaration := do
  let path ← files.load a.file
  match ← declarationBy? tableOf path a.name with
  | some d => return d
  | none => throw (.unresolvedImport a.name a.file)

def resolveBy (p : Path) (name : String) : Query Resolved := do
  let path ← files.load p
  let identity ← ExportScan.exportedBy tableOf path name
  let owner ← files.load identity.file
  let d ← files.declarationOfBy tableOf identity
  return ⟨identity, ← files.typeOfBy tableOf owner d⟩

end FileTree

end Typings
