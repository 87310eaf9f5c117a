import Typings.Declaration
import Typings.Diagnostic
import Typings.ExportTable
import Typings.Statement.Remark

/-!
# Modules

A module is one declaration file: its statements, and what has been found out about them so far.
-/

namespace Typings

/-- An export table under construction, and how many scans were running when it was begun. -/
structure Pending where
  depth : Nat
  table : ExportTable
  deriving DecidableEq, Repr

structure Module where
  path : Path
  text : List Char
  statements : List Statement
  locals : OrderedMap String Declaration
  aliases : OrderedMap String Identity
  imports : Option (OrderedMap String Identity)
  exports : Option ExportTable
  pending : Option Pending
  importNotes : List Diagnostic
  exportNotes : List Diagnostic

namespace Module

def ofText (path : Path) (text : List Char) (stripComments : Bool) : Module where
  path := path
  text := text
  statements := Statement.ofSource text stripComments
  locals := .empty
  aliases := .empty
  imports := none
  exports := none
  pending := none
  importNotes := []
  exportNotes := []

def diagnostics (m : Module) : List Diagnostic := m.importNotes ++ m.exportNotes

def localIdentity? (m : Module) (name : String) : Option Identity :=
  (m.locals.get? name).map Declaration.identity

def unresolved (m : Module) (name : String) : Error := .unresolvedImport name m.path

def note (m : Module) (s : Statement) (r : Remark) : Diagnostic :=
  r.notice.diagnostic m.path.text s.offset (Text.byteLength s.text) r.arguments

/--
The type exported under a name.  A new name counts as exported when the type it was given to is.
-/
def lookupExport (m : Module) (table : ExportTable) (name : String) : Except Error Identity :=
  match table.get? name with
  | some target => .ok target
  | none =>
      match m.aliases.get? name with
      | none => .error (m.unresolved name)
      | some target =>
          if table.containsIdentity target then .ok target
          else .error (.unresolvedAlias name m.path target)

/-! ## Changes -/

def addAlias (m : Module) (newName : String) (target : Identity) : Module :=
  { m with aliases := m.aliases.insert newName target }

def addLocal (m : Module) (d : Declaration) : Module :=
  { m with locals := m.locals.insert d.name d }

def addImportNote (m : Module) (s : Statement) (r : Remark) : Module :=
  { m with importNotes := m.importNotes ++ [m.note s r] }

def addExportNote (m : Module) (s : Statement) (r : Remark) : Module :=
  { m with exportNotes := m.exportNotes ++ [m.note s r] }

def updatePending (m : Module) (f : ExportTable → ExportTable) : Module :=
  { m with pending := m.pending.map fun p => { p with table := f p.table } }

def setParsed (m : Module) (name : String) (e : Expr) : Module :=
  { m with locals := m.locals.modify name fun d => { d with parsed := some e } }

end Module

end Typings
