import Typings.Decimal.Notation

/-!
# JSON values

Objects are lists of fields in the order in which they are written.
-/

namespace Typings

inductive Json where
  | null
  | bool (value : Bool)
  | number (value : Decimal.Binary64)
  | string (value : String)
  | array (items : List Json)
  | object (fields : List (String × Json))
  deriving Repr

namespace Json

def optionalField (key : String) : Option Json → List (String × Json)
  | none => []
  | some value => [(key, value)]

end Json

end Typings
