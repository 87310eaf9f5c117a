import Typings.Identity
import Typings.OrderedMap

/-!
# Export tables

The names that a module makes available, in the order of their first registration.
-/

namespace Typings

structure ExportTable where
  names : OrderedMap String Identity
  defaultExport : Option Identity
  deriving DecidableEq, Repr

namespace ExportTable

def empty : ExportTable := ⟨.empty, none⟩

/-- The name `default` asks for the default export, whatever is registered under that name. -/
def get? (t : ExportTable) (name : String) : Option Identity :=
  if name = "default" then t.defaultExport else t.names.get? name

def containsIdentity (t : ExportTable) (a : Identity) : Bool :=
  t.defaultExport.any (·.same a) || t.names.values.any (·.same a)

def size (t : ExportTable) : Nat :=
  t.names.size + if t.defaultExport.isSome then 1 else 0

def setDefault (t : ExportTable) (a : Identity) : ExportTable := { t with defaultExport := some a }

def add (t : ExportTable) (a : Identity) : ExportTable where
  names := t.names.insert a.name a
  defaultExport := if a.isDefault then some a else t.defaultExport

/-- Takes over all names of `u`, and its default export where there is none yet. -/
def merge (t u : ExportTable) : ExportTable where
  names := t.names.merge u.names
  defaultExport := t.defaultExport.or u.defaultExport

end ExportTable

end Typings
