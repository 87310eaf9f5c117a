import Typings.Expr

/-!
# Types as written

A term is a type whose names have not been resolved.  A part that cannot be read stays in its
place as `invalid`: whether it matters depends on the names around it, because the arguments of a
name that nothing resolves are never looked at.
-/

namespace Typings

mutual

inductive Term where
  | invalid (cause : Error)
  | literal (value : Literal)
  | primitive (kind : Primitive)
  | array (element : Term)
  | object (body : Body)
  | compound (joiner : Joiner) (members : List Term)
  | named (name : String) (arguments : Option (List Term))
  | generic
  | unknown

inductive Body where
  | closed
  | broken (cause : Error)
  | property (key : String) (optional : Bool) (value : Term) (rest : Body)
  | dynamic (value : Term) (rest : Body)

end

end Typings
