import Typings.Arguments
import Typings.Config
import Typings.FileTree

/-!
# Settings

The settings of a run come from its arguments and from a configuration; arguments count for more.
-/

namespace Typings

inductive ConfigFault where
  | unreadable (path : Path) (reason : ReadFailure)
  | malformed (path : Path)
  deriving DecidableEq, Repr

def ConfigFault.message : ConfigFault → String
  | .unreadable path reason => "failed to read config: " ++ path.text ++ ": " ++ reason.message
  | .malformed path => "failed to parse config: " ++ path.text ++ ": " ++ Config.malformed

/-- The configuration in a file, with its base directory seen from the directory of the file. -/
def Config.load (files : FileTree) (path : Path) : Except ConfigFault Config :=
  match files.read path with
  | .error reason => .error (.unreadable path reason)
  | .ok text =>
      match ofText? text with
      | none => .error (.malformed path)
      | some config =>
          let directory := path.parent?.getD ⟨""⟩
          .ok { config with baseDir := config.baseDir.map directory.join }

structure Settings where
  resolver : ResolverOptions
  baseDir : Path
  format : OutputFormat
  color : Bool
  deriving DecidableEq, Repr

namespace Settings

def root (args : Arguments) (cwd : Path) : Path := cwd.join args.file

def besideRoot? (root : Path) : Option Path := root.parent?.map fun p => p.join ⟨Config.fileName⟩

/-- The configuration that is asked for, or else the one beside the root, if there is one. -/
def configPath? (files : FileTree) (args : Arguments) (cwd : Path) : Option Path :=
  match args.config with
  | some path => some (cwd.join path)
  | none => (besideRoot? (root args cwd)).filter files.isFile

def config (files : FileTree) (args : Arguments) (cwd : Path) : Except ConfigFault Config :=
  match configPath? files args cwd with
  | some path => Config.load files path
  | none => .ok .standard

def writtenBaseDir (args : Arguments) (config : Config) (cwd : Path) : Path :=
  match args.baseDir, config.baseDir with
  | some path, _ => cwd.join path
  | none, some path => path
  | none, none => (root args cwd).parent?.getD cwd

def resolve (files : FileTree) (args : Arguments) (cwd : Path) : Except ConfigFault Settings :=
  (config files args cwd).map fun config =>
    let baseDir := writtenBaseDir args config cwd
    { resolver := config.resolver
      baseDir := (files.canonicalize baseDir).toOption.getD baseDir
      format := args.format.getD .json
      color := !args.noColor }

end Settings

end Typings
