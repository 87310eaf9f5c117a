import Typings.Store.Exports

/-!
# Import scans

A module's imports are found by one pass over its import statements.  Every imported type is known
under the name that the statement introduces.
-/

namespace Typings

namespace ImportScan

def takeImport (files : FileTree) (path : Path) (found : OrderedMap String Identity)
    (i : Import) : Query (OrderedMap String Identity) := do
  let target ← files.load (Specifier.resolve (← get).options path i.specifier)
  let found ← match i.defaultName with
    | none => pure found
    | some name => do
        let identity ← files.exportNamed target "default"
        Query.update path (·.addAlias name identity)
        pure (found.insert name identity)
  i.named.foldlM (fun found b => do
    let identity ← ExportScan.bind files.tableOf path target b
    return found.insert b.introduced identity) found

def takeStatement (files : FileTree) (path : Path) (found : OrderedMap String Identity)
    (s : Statement) : Query (OrderedMap String Identity) := do
  let i ← Query.ofExcept (Import.parse s.text)
  if let some remark := i.remark? then Query.update path (·.addImportNote s remark)
  if i.bindsTypes then takeImport files path found i else return found

end ImportScan

namespace FileTree

variable (files : FileTree)

/-- The types that a loaded module imports, by the names they have there. -/
def imports (path : Path) : Query (OrderedMap String Identity) := do
  let m ← Query.current path
  if let some found := m.imports then return found
  else
    Query.update path fun m => { m with importNotes := [] }
    let statements := m.statements.filter (·.isImport)
    match ← Query.observe (statements.foldlM (ImportScan.takeStatement files path) .empty) with
    | .error e => throw (.inFile path e)
    | .ok found =>
        Query.update path fun m => { m with imports := some found }
        return found

end FileTree

end Typings
