import Typings.Path

/-!
# Command line arguments

Words are taken in from left to right.  A value is held back until the next word shows that it is
complete; only then is it checked, so that of two faults the one found first is reported.
-/

namespace Typings

inductive OutputFormat where
  | json
  | tree
  deriving DecidableEq, Repr

def OutputFormat.all : List OutputFormat := [.json, .tree]

def OutputFormat.name : OutputFormat → String
  | .json => "json"
  | .tree => "tree"

def OutputFormat.ofName? (s : String) : Option OutputFormat :=
  all.find? fun format => format.name == s.toLower

structure Arguments where
  file : Path
  names : List String
  all : Bool
  format : Option OutputFormat
  baseDir : Option Path
  config : Option Path
  noColor : Bool
  deriving DecidableEq, Repr

namespace Arguments

inductive Refusal where
  | missingFile
  | conflict
  | invalidValue
  | unknown
  | unexpectedValue
  | help
  | version
  deriving DecidableEq, Repr

/-! ## Words -/

inductive Flag where
  | all
  | noColor
  | help
  | version
  deriving DecidableEq, Repr

inductive Slot where
  | file
  | format
  | baseDir
  | config
  deriving DecidableEq, Repr

inductive LongName where
  | flag (flag : Flag)
  | slot (slot : Slot)
  deriving DecidableEq, Repr

def LongName.ofString? : String → Option LongName
  | "all" => some (.flag .all)
  | "no-color" => some (.flag .noColor)
  | "help" => some (.flag .help)
  | "version" => some (.flag .version)
  | "format" => some (.slot .format)
  | "base-dir" => some (.slot .baseDir)
  | "baseDir" => some (.slot .baseDir)
  | "config" => some (.slot .config)
  | _ => none

def Flag.ofLetter? : Char → Option Flag
  | 'h' => some .help
  | 'V' => some .version
  | _ => none

inductive Word where
  /-- Everything behind it is a value. -/
  | separator
  | long (name : String) (value : Option String)
  | short (letter : Char)
  | value (text : String)
  deriving DecidableEq, Repr

def Word.ofLong (s : List Char) : Word :=
  .long (String.ofList (s.takeWhile (· != '='))) <|
    match s.dropWhile (· != '=') with
    | [] => none
    | _ :: text => some (String.ofList text)

def Word.ofString (s : String) : Word :=
  match s.toList with
  | ['-', '-'] => .separator
  | '-' :: '-' :: s => ofLong s
  | '-' :: letter :: _ => .short letter
  | _ => .value s

/-! ## Taking words in -/

structure Draft where
  file : Option Path
  names : List String
  flags : List Flag
  format : Option OutputFormat
  baseDir : Option Path
  config : Option Path

structure State where
  draft : Draft
  /-- What the last words were for, with its value if that has been seen. -/
  held : Option (Slot × Option String)
  valuesOnly : Bool

def start : State := ⟨⟨none, [], [], none, none, none⟩, none, false⟩

def fill {α : Type} (current value : Option α) : Except Refusal (Option α) :=
  if current.isSome then .error .conflict
  else match value with
    | none => .error .invalidValue
    | some a => .ok (some a)

def path? (text : String) : Option Path := if text.isEmpty then none else some ⟨text⟩

def Draft.set (d : Draft) (text : String) : Slot → Except Refusal Draft
  | .file => (fill d.file (path? text)).map fun file => { d with file := file }
  | .format => (fill d.format (OutputFormat.ofName? text)).map fun f => { d with format := f }
  | .baseDir => (fill d.baseDir (path? text)).map fun p => { d with baseDir := p }
  | .config => (fill d.config (path? text)).map fun p => { d with config := p }

def State.commit (s : State) : Except Refusal State :=
  match s.held with
  | none => .ok s
  | some (_, none) => .error .invalidValue
  | some (slot, some text) =>
      (s.draft.set text slot).map fun draft => { s with draft := draft, held := none }

def State.hold (s : State) (slot : Slot) (value : Option String) : Except Refusal State :=
  s.commit.map fun s => { s with held := some (slot, value) }

def State.takeFlag (s : State) (flag : Flag) : Except Refusal State :=
  match s.commit with
  | .error e => .error e
  | .ok s =>
      match flag with
      | .help => .error .help
      | .version => .error .version
      | _ =>
          if s.draft.flags.contains flag then .error .conflict
          else .ok { s with draft := { s.draft with flags := flag :: s.draft.flags } }

def State.takePlain (s : State) (text : String) : Except Refusal State :=
  match s.commit with
  | .error e => .error e
  | .ok s =>
      if s.draft.file.isNone then .ok { s with held := some (.file, some text) }
      else .ok { s with draft := { s.draft with names := s.draft.names ++ [text] } }

def State.takeWord (s : State) : Word → Except Refusal State
  | .separator => .ok { s with valuesOnly := true }
  | .long name value =>
      match LongName.ofString? name, value with
      | none, _ => .error .unknown
      | some (.flag _), some _ => .error .unexpectedValue
      | some (.flag flag), none => s.takeFlag flag
      | some (.slot slot), some text => (s.hold slot (some text)).bind State.commit
      | some (.slot slot), none => s.hold slot none
  | .short letter =>
      match Flag.ofLetter? letter with
      | some flag => s.takeFlag flag
      | none => .error .unknown
  | .value text =>
      match s.held with
      | some (slot, none) => .ok { s with held := some (slot, some text) }
      | _ => s.takePlain text

def State.take (s : State) (text : String) : Except Refusal State :=
  if s.valuesOnly then s.takePlain text else s.takeWord (Word.ofString text)

def Draft.finish (d : Draft) : Except Refusal Arguments :=
  if d.flags.contains .all && !d.names.isEmpty then .error .conflict
  else match d.file with
    | none => .error .missingFile
    | some file =>
        .ok {
          file := file
          names := d.names
          all := d.flags.contains .all
          format := d.format
          baseDir := d.baseDir
          config := d.config
          noColor := d.flags.contains .noColor }

def ofWords (words : List String) : Except Refusal Arguments := do
  let s ← words.foldlM State.take start
  (← s.commit).draft.finish

end Arguments

end Typings
