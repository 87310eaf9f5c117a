import Typings.Text

/-!
# File paths

A path keeps its spelling for display.  What it means is its list of components: repeated
slashes, inner `.` components and a trailing slash say nothing.
-/

namespace Typings

structure Path where
  text : String
  deriving DecidableEq, Repr, Inhabited

namespace Path

/-- The order of the constructors is the order of components in a sorted list of paths. -/
inductive Component where
  | root
  | current
  | parent
  | name (chars : List Char)
  deriving DecidableEq, Repr, Ord

/-! ## Anatomy of a spelling -/

def ofChars (s : List Char) : Path := ⟨String.ofList s⟩

def isAbsolute (p : Path) : Bool := p.text.toList.head? == some '/'

/-- The leading root or `.`, and the pieces between the slashes that follow. -/
def anatomy (p : Path) : Option Component × List (List Char) :=
  match p.text.toList with
  | '/' :: body => (some .root, Text.cut (· == '/') body)
  | s =>
      match Text.cut (· == '/') s with
      | ['.'] :: body => (some .current, body)
      | body => (none, body)

def isFiller (piece : List Char) : Bool := piece == [] || piece == ['.']

def pieceComponent? (piece : List Char) : Option Component :=
  if isFiller piece then none
  else if piece == ['.', '.'] then some .parent
  else some (.name piece)

def components (p : Path) : List Component :=
  p.anatomy.1.toList ++ p.anatomy.2.filterMap pieceComponent?

def joinPieces (pieces : List (List Char)) : List Char := ['/'].intercalate pieces

def ofAnatomy : Option Component → List (List Char) → Path
  | some .root, body => ofChars ('/' :: joinPieces body)
  | some .current, [] => ofChars ['.']
  | some .current, body => ofChars ('.' :: '/' :: joinPieces body)
  | _, body => ofChars (joinPieces body)

def dropTrailingFillers (pieces : List (List Char)) : List (List Char) :=
  (pieces.reverse.dropWhile isFiller).reverse

/-! ## Comparison -/

def same (p q : Path) : Bool := p.components == q.components

def compare (p q : Path) : Ordering := Ord.compare p.components q.components

theorem same_iff {p q : Path} : p.same q = true ↔ p.components = q.components := by
  simp [same]

/-! ## Composition -/

def join (p q : Path) : Path :=
  if q.isAbsolute then q
  else
    let s := p.text.toList
    if s.isEmpty || s.getLast? == some '/' then ofChars (s ++ q.text.toList)
    else ofChars (s ++ '/' :: q.text.toList)

def parent? (p : Path) : Option Path :=
  let (anchor, body) := p.anatomy
  let body := dropTrailingFillers body
  if body.isEmpty then
    if anchor = some .current then some ⟨""⟩ else none
  else some (ofAnatomy anchor (dropTrailingFillers body.dropLast))

def dropPieces : Nat → List (List Char) → List (List Char)
  | 0, pieces => pieces.dropWhile isFiller
  | n + 1, pieces => dropPieces n (pieces.dropWhile isFiller).tail

/-- What is left of `p` below `base`, in the spelling of `p`. -/
def stripBase? (p base : Path) : Option Path :=
  if base.components.isPrefixOf p.components then
    let (anchor, body) := p.anatomy
    let body := dropTrailingFillers body
    if base.components.isEmpty then some (ofAnatomy anchor body)
    else some (ofAnatomy none (dropPieces (base.components.length - anchor.toList.length) body))
  else none

/-! ## Normal form -/

def pushNormal (absolute : Bool) (done : List Component) : Component → List Component
  | .current => done
  | .parent =>
      match done with
      | .name _ :: rest => rest
      | _ => if absolute then done else .parent :: done
  | c => c :: done

def componentChars : Component → List Char
  | .root => []
  | .current => ['.']
  | .parent => ['.', '.']
  | .name chars => chars

def ofComponents : List Component → Path
  | .root :: cs => ofChars ('/' :: joinPieces (cs.map componentChars))
  | cs => ofChars (joinPieces (cs.map componentChars))

/--
Without `.`; each `..` cancels the name before it, disappears at the root, and stays only at the
front of a relative path.
-/
def normalize (p : Path) : Path :=
  ofComponents (p.components.foldl (pushNormal p.isAbsolute) []).reverse

end Path

end Typings
