import Typings.Expr.Json
import Typings.Json.Printer
import Typings.Outline
import Typings.Settings
import Typings.Store.Resolve

/-!
# Answers

A run answers with the types that were asked for, or else with the table of all exports.  Both are
written as indented JSON or as an outline.
-/

namespace Typings

/-! ## As JSON -/

def Resolved.toJson (r : Resolved) : Json :=
  .object [("identity", r.identity.toJson), ("expression", r.type.toJson)]

def ExportTable.toJson (t : ExportTable) : Json :=
  .object (("names", .object (t.names.entries.map fun e => (e.1, e.2.toJson))) ::
    Json.optionalField "default" (t.defaultExport.map Identity.toJson))

/-! ## As an outline -/

def Resolved.outline (base : Path) (r : Resolved) : List OutlineLine :=
  ⟨0, (r.identity.displayRelative base).toList⟩ :: r.type.outline base 1 ""

def ExportTable.line (base : Path) (name : String) (a : Identity) : OutlineLine :=
  ⟨0, (name ++ " " ++ a.displayRelative base).toList⟩

def ExportTable.outline (base : Path) (t : ExportTable) : List OutlineLine :=
  t.names.entries.map (fun e => line base e.1 e.2) ++
    t.defaultExport.toList.map (line base "default")

/-! ## Answers -/

inductive Answer where
  | types (entries : List Resolved)
  | exports (table : ExportTable)

namespace Answer

def toJson : Answer → Json
  | .types entries => .array (entries.map Resolved.toJson)
  | .exports table => table.toJson

def outline (base : Path) : Answer → List OutlineLine
  | .types entries => entries.flatMap (Resolved.outline base)
  | .exports table => table.outline base

def write (a : Answer) (settings : Settings) : String :=
  match settings.format with
  | .json => a.toJson.prettyText
  | .tree => writeOutline (a.outline settings.baseDir)

end Answer

end Typings
