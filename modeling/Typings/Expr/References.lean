import Typings.Expr

/-!
# References of an expression

The declared types an expression points at, in the order of first mention: a reference before its
argument, properties before the index signature.
-/

namespace Typings.Expr

def noteReference (seen : List Identity) (target : Identity) : List Identity :=
  if seen.any target.same then seen else seen ++ [target]

mutual

def collectReferences (seen : List Identity) : Expr → List Identity
  | .reference target none => noteReference seen target
  | .reference target (some argument) => collectReferences (noteReference seen target) argument
  | .array element => collectReferences seen element
  | .object properties none => collectFromProperties seen properties
  | .object properties (some dynamic) =>
      collectReferences (collectFromProperties seen properties) dynamic
  | .promise inner => collectReferences seen inner
  | .compound _ members => collectFromMembers seen members
  | .literal _ | .primitive _ | .generic | .unknown => seen

def collectFromProperties (seen : List Identity) : List (Property Expr) → List Identity
  | [] => seen
  | ⟨_, _, value⟩ :: properties => collectFromProperties (collectReferences seen value) properties

def collectFromMembers (seen : List Identity) : List Expr → List Identity
  | [] => seen
  | member :: members => collectFromMembers (collectReferences seen member) members

end

def references (e : Expr) : List Identity := collectReferences [] e

end Typings.Expr
