import Typings.Expr
import Typings.Json

/-!
# Expressions as JSON

Every shape is an object whose field `type` comes first.  Absent parts are left out.
-/

namespace Typings

def Identity.toJson (a : Identity) : Json :=
  .object [("file", .string a.file.text), ("name", .string a.name), ("default", .bool a.isDefault)]

def Literal.toJson : Literal → Json
  | .string value => .string value
  | .number value => .number value
  | .boolean value => .bool value

def Joiner.tag : Joiner → String
  | .union => "union"
  | .intersection => "intersection"

namespace Expr

mutual

def toJson : Expr → Json
  | .reference target none =>
      .object [("type", .string "reference"), ("identity", target.toJson)]
  | .reference target (some argument) =>
      .object [("type", .string "reference"), ("identity", target.toJson),
        ("argument", argument.toJson)]
  | .literal value => .object [("type", .string "literal"), ("value", value.toJson)]
  | .primitive kind => .object [("type", .string "primitive"), ("kind", .string kind.keyword)]
  | .array element => .object [("type", .string "array"), ("element", element.toJson)]
  | .object properties none =>
      .object [("type", .string "object"), ("properties", .object (propertyFields properties))]
  | .object properties (some dynamic) =>
      .object [("type", .string "object"), ("properties", .object (propertyFields properties)),
        ("dynamic", dynamic.toJson)]
  | .promise inner =>
      .object [("type", .string "wrapped"), ("kind", .string "Promise"), ("inner", inner.toJson)]
  | .compound joiner members =>
      .object [("type", .string joiner.tag), ("members", .array (memberItems members))]
  | .generic => .object [("type", .string "generic")]
  | .unknown => .object [("type", .string "unknown")]

def propertyFields : List (Property Expr) → List (String × Json)
  | [] => []
  | ⟨key, optional, value⟩ :: properties =>
      (key, .object (("value", value.toJson) ::
        if optional then [("optional", .bool true)] else [])) :: propertyFields properties

def memberItems : List Expr → List Json
  | [] => []
  | member :: members => member.toJson :: memberItems members

end

end Expr

end Typings
