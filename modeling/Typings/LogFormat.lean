/-!
# Log layouts

A log is written as flat lines, as an indented tree or as JSON objects.
-/

namespace Typings

inductive LogFormat where
  | text
  | tree
  | json
  deriving DecidableEq, Repr

def LogFormat.ofSetting (value : String) : LogFormat :=
  match value.toLower with
  | "tree" => .tree
  | "json" => .json
  | _ => .text

end Typings
