import Typings.Json.Reading
import Typings.Resolver

/-!
# Configurations

A configuration is a JSON record; what it leaves out has the standard value.
-/

namespace Typings

structure Config where
  resolver : ResolverOptions
  /-- The directory that paths are shown from, seen from the directory of the configuration. -/
  baseDir : Option Path
  deriving DecidableEq, Repr

namespace Config

def standard : Config := ⟨.standard, none⟩

def fileName : String := "dtsgen.json"

/-- What is said of a text that is no configuration; its faults are not told apart. -/
def malformed : String := "failed to parse dtsgen config JSON: <json error>"

def resolverKeys : List String := ["declarationSuffix", "sourceSuffix", "stripComments"]

def resolverOf? (r : Json.Reading) : Option ResolverOptions := do
  let fields ← r.record? resolverKeys
  let standard := ResolverOptions.standard
  return {
    declarationSuffix :=
      ← Json.Reading.stringField? fields "declarationSuffix" standard.declarationSuffix
    sourceSuffix := ← Json.Reading.stringField? fields "sourceSuffix" standard.sourceSuffix
    stripComments := ← Json.Reading.boolField? fields "stripComments" standard.stripComments }

def keys : List String := ["resolver", "baseDir"]

def resolverField? (fields : List (String × Json.Reading)) : Option ResolverOptions :=
  match fields.lookup "resolver" with
  | none => some .standard
  | some r => resolverOf? r

def baseDirField? (fields : List (String × Json.Reading)) : Option (Option Path) :=
  match fields.lookup "baseDir" with
  | none => some none
  | some .null => some none
  | some (.string text) => text.map fun text => some ⟨text⟩
  | some _ => none

def ofReading? (r : Json.Reading) : Option Config := do
  let fields ← r.record? keys
  return ⟨← resolverField? fields, ← baseDirField? fields⟩

def ofText? (s : List Char) : Option Config := (Json.Reading.ofText? s).bind ofReading?

end Config

end Typings
