import Typings.Run

/-!
# The command line program

Files are looked up when a run asks for them: a run that misses a file is started again once the
file is there.
-/

namespace Typings.CommandLine

def usage : String :=
  "Extract structural type descriptions from TypeScript declaration files\n\n" ++
  "Usage: dtsgen [OPTIONS] <FILE> [NAMES]...\n\n" ++
  "Arguments:\n" ++
  "  <FILE>      Root declaration file\n" ++
  "  [NAMES]...  Exported names to resolve; without names, the export table is printed\n\n" ++
  "Options:\n" ++
  "      --all              Resolve every export of the root file\n" ++
  "      --format <FORMAT>  Output format: json or tree\n" ++
  "      --base-dir <DIR>   Directory file paths are shown relative to\n" ++
  "      --config <FILE>    JSON config file [default: dtsgen.json next to the root file]\n" ++
  "      --no-color         Disable colored diagnostics\n" ++
  "  -h, --help             Print help\n" ++
  "  -V, --version          Print version"

def version : String := "dtsgen 0.1.0"

def Refusal.text : Arguments.Refusal → String
  | .missingFile => "error: the root declaration file was not provided"
  | .conflict => "error: the arguments cannot be used together"
  | .invalidValue => "error: a value is missing or invalid"
  | .unknown => "error: unexpected argument found"
  | .unexpectedValue => "error: a flag takes no value"
  | .help => usage
  | .version => version

def directoryCode : UInt32 := 21

def probe (p : Path) : IO (Option FileNode) := do
  try
    let bytes ← IO.FS.readBinFile p.text
    return some (.file ((String.fromUTF8? bytes).map String.toList))
  catch e =>
    match e with
    | .inappropriateType _ code _ => return if code = directoryCode then some .directory else none
    | _ => return none

def discover (files : FileTree) (p : Path) : IO FileTree := do
  match ← probe p with
  | some node => return files.write (files.place p) node
  | none => return files

def settingPaths (args : Arguments) (cwd : Path) : List Path :=
  let root := Settings.root args cwd
  root :: (Settings.besideRoot? root).toList ++ args.config.toList.map cwd.join

def fail (message : String) : IO UInt32 := do
  IO.eprintln ("Error: " ++ message)
  return 1

def succeed (o : Outcome) : IO UInt32 := do
  unless o.report.isEmpty do IO.eprintln o.report
  IO.println o.output
  return 0

/-- Runs until no file is missing that has not been looked for. -/
partial def attempt (files : FileTree) (args : Arguments) (cwd : Path) (tried : List Path) :
    IO UInt32 := do
  match run files args cwd with
  | .ok o => succeed o
  | .error e =>
      match e.missing? with
      | none => fail e.message
      | some path =>
          if tried.contains path then fail e.message
          else attempt (← discover files path) args cwd (path :: tried)

def start (args : Arguments) (cwd : Path) : IO UInt32 := do
  let here := (FileTree.ofWorkingDirectory []).place cwd
  let files ← (settingPaths args cwd).foldlM discover (FileTree.ofWorkingDirectory here)
  match Settings.resolve files args cwd with
  | .error fault => fail fault.message
  | .ok settings => attempt (← discover files settings.baseDir) args cwd []

end Typings.CommandLine

open Typings in
def main (words : List String) : IO UInt32 := do
  match Arguments.ofWords words with
  | .error .help => IO.println CommandLine.usage; return 0
  | .error .version => IO.println CommandLine.version; return 0
  | .error refusal => IO.eprintln (CommandLine.Refusal.text refusal); return 2
  | .ok args => CommandLine.start args ⟨(← IO.currentDir).toString⟩
