import Typings.Term.Resolve
import Typings.Term.Size

/-!
# Reading a type in one pass

A type is read while its names are looked up, and the levels that have been entered and not yet
left are counted.  Without a limit on that count the same pass ends because the texts inside a text
get shorter.
-/

namespace Typings

/-- What a reader keeps: the number of levels around it, and what look-ups change. -/
structure Reading (σ : Type) where
  depth : Nat
  names : σ

namespace Reading

variable {σ α : Type}

def lookup (scope : Scope σ) (name : String) : Action (Reading σ) (Option Identity) :=
  ExceptT.mk fun r =>
    let (found, names) := (scope.lookup name).run.run r.names
    (found, { r with names := names })

/-- One level around `inside`; it is left on every way out. -/
def nested (limit : Option Nat) (inside : Action (Reading σ) α) : Action (Reading σ) α :=
  ExceptT.mk do
    let r ← get
    if limit.any (· < r.depth + 1) then return .error .nestingTooDeep
    set { r with depth := r.depth + 1 }
    let outcome ← inside.run
    modify fun r => { r with depth := r.depth - 1 }
    return outcome

/-! ## What a token makes of its parts -/

def inOrder : List (Action σ Expr) → Action σ (List Expr)
  | [] => pure []
  | first :: more => do
      let e ← first
      return e :: (← inOrder more)

def applied (found : Option Identity) (form : Option Form) :
    List (Action σ Expr) → Action σ Expr
  | [argument] =>
      match found, form with
      | some target, _ => do return .reference target (some (← argument))
      | none, some .allOptional => do return (← argument).madePartial
      | none, some .promise => do return .promise (← argument)
      | none, _ => pure .unknown
  | [_, value] =>
      match found, form with
      | some target, _ => pure (.reference target (some .unknown))
      | none, some .record => do return .object [] (some (← value))
      | none, _ => pure .unknown
  | _ =>
      match found with
      | some target => pure (.reference target (some .unknown))
      | none => pure .unknown

def object (outcome : Except Error (List Char)) (properties : List (Property Expr))
    (dynamic : Option Expr) : List (Object.Slot × Action σ Expr) → Action σ Expr
  | [] =>
      match outcome with
      | .ok _ => pure (.object properties dynamic)
      | .error e => throw e
  | (.named key optional, value) :: entries => do
      let e ← value
      object outcome (Property.insert ⟨key, optional, e⟩ properties) dynamic entries
  | (.dynamic, value) :: entries => do
      let e ← value
      object outcome properties (some e) entries

/-! ## Levels -/

def level (limit : Option Nat) (generic : Option (List Char)) (scope : Scope σ)
    (tokens : Except Error Tokens) : Action (Reading σ) Expr :=
  nested limit <| match tokens with
    | .error e => throw e
    | .ok ⟨items, some joiner⟩ => do
        let members := items.attach.map fun item =>
          level limit generic scope (Tokens.take item.1).1
        return .compound joiner (← inOrder members)
    | .ok ⟨[token], none⟩ =>
        match _ : Term.shape generic token with
        | .invalid e => throw e
        | .array element => do return .array (← level limit generic scope (Tokens.take element).1)
        | .group text => level limit generic scope (Tokens.take text).1
        | .object text =>
            nested limit <| object (Object.scan text).outcome [] none <|
              (Object.scan text).entries.attach.map fun entry =>
                (entry.1.slot, level limit generic scope entry.1.value)
        | .literal value => pure (.literal value)
        | .primitive kind => pure (.primitive kind)
        | .generic => pure .generic
        | .named name none => do
            match ← lookup scope name with
            | some target => return .reference target none
            | none => return .unknown
        | .named name (some arguments) => do
            let inside := arguments.attach.map fun argument =>
              level limit generic scope (Tokens.take argument.1).1
            applied (← lookup scope name) (scope.forms.get? name) inside
        | .unknown => pure .unknown
    | .ok _ => pure .unknown
termination_by Tokens.sizeOf tokens
decreasing_by
  · exact Tokens.size_member_lt item.2
  · exact Tokens.size_text_lt ‹_› (by simp [Term.Shape.texts])
  · exact Tokens.size_text_lt ‹_› (by simp [Term.Shape.texts])
  · exact Nat.lt_of_succ_lt (Tokens.size_value_lt ‹_› entry.2)
  · have hshape : Term.shape generic token = .named name (some arguments) := ‹_›
    exact Tokens.size_text_lt hshape argument.2

/-! ## Texts -/

/-- The expression that `text` begins with, and how many bytes it takes with its terminator. -/
def parse (limit : Option Nat) (generic : Option (List Char)) (scope : Scope σ)
    (text : List Char) : Action (Reading σ) (Expr × Nat) := do
  let (tokens, rest) := Tokens.take text
  return (← level limit generic scope tokens, Text.offsetOf text rest)

def parseEach (limit : Option Nat) (generic : Option (List Char)) (scope : Scope σ) :
    List (List Char) → Reading σ → List (Except Error (Expr × Nat)) × Reading σ
  | [], r => ([], r)
  | text :: texts, r =>
      let (answer, r) := (parse limit generic scope text).run.run r
      let (answers, r) := parseEach limit generic scope texts r
      (answer :: answers, r)

end Reading

end Typings
