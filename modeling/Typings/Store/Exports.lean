import Typings.Store

/-!
# Export scans

A module's exports are found by one pass over its statements, which may ask other modules for
their exports.  A module whose scan is running answers from its unfinished table.  A table built
on an unfinished table of a scan further out may miss names, so it is used but not kept.
-/

namespace Typings

/-- How the export table of another module is found during a scan. -/
abbrev TableOf := Path → Query ExportTable

namespace ExportScan

/-! ## One statement -/

def exportedBy (tableOf : TableOf) (path : Path) (name : String) : Query Identity := do
  let table ← tableOf path
  Query.ofExcept ((← Query.current path).lookupExport table name)

/-- The type that `b` takes from `target`; a new name is noted in the module `path`. -/
def bind (tableOf : TableOf) (path target : Path) (b : Binding) : Query Identity := do
  let found ← exportedBy tableOf target b.name
  if let some newName := b.newName then Query.update path (·.addAlias newName found)
  return found

def takeBinding (tableOf : TableOf) (path target : Path) (b : Binding) : Query Unit := do
  let found ← bind tableOf path target b
  Query.update path (·.updatePending fun table =>
    (if b.name = "default" ∧ b.newName = none then table.setDefault found else table).add found)

/-- Takes over exports of another file.  A wildcard with a name of its own exports nothing. -/
def takeReexport (files : FileTree) (tableOf : TableOf) (path : Path) (r : Reexport) :
    Query Unit := do
  let file := Specifier.resolve (← get).options path r.specifier
  match r.clause with
  | .namespaceName _ => return
  | .all =>
      let target ← files.load file
      let taken ← tableOf target
      Query.update path (·.updatePending (·.merge taken))
  | .named bindings =>
      let target ← files.load file
      bindings.forM (takeBinding tableOf path target)

def takeDeclaration (path : Path) (s : Statement) (h : Head) : Query Unit := do
  let identity : Identity := ⟨path, h.name, h.isDefault⟩
  Query.update path (·.addLocal ⟨identity, h.kind, h.body, h.exported, s.offset, none⟩)
  if h.exported then Query.update path (·.updatePending (·.add identity))

def takeDefault (path : Path) (s : Statement) (name : String) : Query Unit := do
  match ((← Query.current path).locals.get? name).filter (!·.exported) with
  | none => throw (.malformedDeclaration s.text)
  | some d => Query.update path (·.updatePending (·.setDefault d.identity))

def takeLocal (path : Path) (b : Binding) : Query Unit := do
  let m ← Query.current path
  match m.localIdentity? b.name with
  | none => throw (m.unresolved b.name)
  | some found =>
      if let some newName := b.newName then Query.update path (·.addAlias newName found)
      Query.update path (·.updatePending (·.add found))

def take (files : FileTree) (tableOf : TableOf) (path : Path) (s : Statement) :
    Meaning → Query Unit
  | .reexport r => takeReexport files tableOf path r
  | .declaration h => takeDeclaration path s h
  | .defaultExport name => takeDefault path s name
  | .emptyExport => return
  | .localExports bindings => bindings.forM (takeLocal path)
  | .value _ => return

def takeStatement (files : FileTree) (tableOf : TableOf) (path : Path) (s : Statement) :
    Query Unit := do
  let meaning ← Query.ofExcept s.meaning
  match meaning.remark? s.text with
  | some remark => Query.update path (·.addExportNote s remark)
  | none => take files tableOf path s meaning

/-! ## One module -/

def begin (path : Path) (depth : Nat) : Query Unit := do
  modify Store.enterScan
  Query.update path fun m =>
    { m with pending := some ⟨depth, .empty⟩, locals := .empty, exportNotes := [] }

def finish (path : Path) (depth : Nat) : Query (ExportTable × Bool) := do
  let m ← Query.current path
  let complete := (← get).isComplete depth
  Query.update path fun m => { m with pending := none }
  modify (·.exitScan depth)
  return ((m.pending.map Pending.table).getD .empty, complete)

/-- Scans a module whose scan is not running.  A complete table is kept. -/
def scan (files : FileTree) (tableOf : TableOf) (path : Path) : Query (ExportTable × Bool) := do
  let depth := (← get).depth
  begin path depth
  let statements := (← Query.current path).statements.filter (!·.isImport)
  let outcome ← Query.observe (statements.forM (takeStatement files tableOf path))
  let (table, complete) ← finish path depth
  match outcome with
  | .error e => throw (.inFile path e)
  | .ok _ =>
      if complete then Query.update path fun m => { m with exports := some table }
      return (table, complete)

/--
The export table of a loaded module as it is known now, with at most `n` scans inside each other.
Every running scan is of another file, so the number of files is enough.
-/
def tableOf (files : FileTree) : Nat → TableOf
  | n, path => do
      let m ← Query.current path
      if let some table := m.exports then return table
      else if let some pending := m.pending then
        modify (·.notePartialRead pending.depth)
        return pending.table
      else match n with
        | 0 => throw (m.unresolved "*")
        | n + 1 => return (← scan files (tableOf files n) path).1

end ExportScan

/-! ## Exports of a module -/

namespace FileTree

variable (files : FileTree)

def tableOf : TableOf := ExportScan.tableOf files files.size

def exports (path : Path) : Query ExportTable := do
  let m ← Query.current path
  if let some table := m.exports then return table
  else if m.pending.isSome then throw (m.unresolved "*")
  else
    let (table, complete) ← ExportScan.scan files files.tableOf path
    if complete then return table else throw (m.unresolved "*")

/-- The type that a loaded module exports under a name; `default` names the default export. -/
def exportNamed (path : Path) (name : String) : Query Identity :=
  ExportScan.exportedBy files.tableOf path name

def declaration? (path : Path) (name : String) : Query (Option Declaration) := do
  let _ ← files.tableOf path
  return (← Query.current path).locals.get? name

def declarations (path : Path) : Query (List Declaration) := do
  let _ ← files.tableOf path
  return (← Query.current path).locals.values

end FileTree

end Typings
