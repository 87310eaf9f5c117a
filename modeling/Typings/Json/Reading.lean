import Typings.Json.Token

/-!
# Reading JSON

A text is read token by token.  Values whose end has not been seen yet are kept as frames, the
innermost first, so that values may be nested to any depth.
-/

namespace Typings.Json

inductive Reading where
  | null
  | bool (value : Bool)
  | number
  | string (text : Option String)
  | array (items : List Reading)
  | object (fields : List (Option String × Reading))
  deriving Repr

namespace Reading

/-! ## Unfinished values -/

inductive Frame where
  | array (items : List Reading)
  | object (fields : List (Option String × Reading))
  | field (fields : List (Option String × Reading)) (key : Option String)

inductive Awaited where
  | value
  | valueOrClose
  | key
  | keyOrClose
  | colon
  | commaOrClose
  | nothing (result : Reading)

structure State where
  awaited : Awaited
  frames : List Frame

def start : State := ⟨.value, []⟩

def State.complete (value : Reading) : List Frame → Option State
  | [] => some ⟨.nothing value, []⟩
  | .array items :: frames => some ⟨.commaOrClose, .array (value :: items) :: frames⟩
  | .field fields key :: frames => some ⟨.commaOrClose, .object ((key, value) :: fields) :: frames⟩
  | .object _ :: _ => none

def State.close (frames : List Frame) : Token → Option State
  | .closeBracket =>
      match frames with
      | .array items :: frames => complete (.array items.reverse) frames
      | _ => none
  | .closeBrace =>
      match frames with
      | .object fields :: frames => complete (.object fields.reverse) frames
      | _ => none
  | _ => none

def State.openValue (frames : List Frame) : Token → Option State
  | .null => complete .null frames
  | .bool value => complete (.bool value) frames
  | .number => complete .number frames
  | .string text => complete (.string text) frames
  | .openBracket => some ⟨.valueOrClose, .array [] :: frames⟩
  | .openBrace => some ⟨.keyOrClose, .object [] :: frames⟩
  | _ => none

def State.openKey (frames : List Frame) : Token → Option State
  | .string key =>
      match frames with
      | .object fields :: frames => some ⟨.colon, .field fields key :: frames⟩
      | _ => none
  | _ => none

def State.afterComma : List Frame → Option State
  | .array items :: frames => some ⟨.value, .array items :: frames⟩
  | .object fields :: frames => some ⟨.key, .object fields :: frames⟩
  | _ => none

def State.step (s : State) (token : Token) : Option State :=
  match s.awaited with
  | .value => openValue s.frames token
  | .valueOrClose => (close s.frames token).or (openValue s.frames token)
  | .key => openKey s.frames token
  | .keyOrClose => (close s.frames token).or (openKey s.frames token)
  | .colon => if token = .colon then some ⟨.value, s.frames⟩ else none
  | .commaOrClose => if token = .comma then afterComma s.frames else close s.frames token
  | .nothing _ => none

def State.result? (s : State) : Option Reading :=
  match s.awaited with
  | .nothing result => some result
  | _ => none

/-! ## Whole texts -/

def ofTokens? (tokens : List Token) : Option Reading :=
  (tokens.foldlM State.step start).bind State.result?

def ofText? (s : List Char) : Option Reading := (Token.ofText? s).bind ofTokens?

/-! ## Records -/

def distinctKeys : List (String × Reading) → Bool
  | [] => true
  | field :: fields => !(fields.map Prod.fst).contains field.1 && distinctKeys fields

/--
The fields of a record with the given keys.  It is written as an object, where other keys are
ignored, or as an array in the order of the keys.
-/
def record? (keys : List String) : Reading → Option (List (String × Reading))
  | .object fields => do
      let named ← fields.mapM fun (key, value) => key.map (·, value)
      let known := named.filter fun field => keys.contains field.1
      if distinctKeys known then return known else none
  | .array items => if items.length ≤ keys.length then some (keys.zip items) else none
  | _ => none

def stringField? (fields : List (String × Reading)) (key absent : String) : Option String :=
  match fields.lookup key with
  | none => some absent
  | some (.string text) => text
  | some _ => none

def boolField? (fields : List (String × Reading)) (key : String) (absent : Bool) : Option Bool :=
  match fields.lookup key with
  | none => some absent
  | some (.bool value) => some value
  | some _ => none

end Reading

end Typings.Json
