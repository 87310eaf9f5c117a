import Typings.Answer

/-!
# Runs

A run reads the root file and whatever other files it needs, answers what was asked for, and
reports the statements that were skipped in all files that it has read.
-/

namespace Typings

inductive Task where
  | loading (root : Path)
  | readingExports (file : Path)
  | resolving (name : String)
  deriving DecidableEq, Repr

def Task.failure : Task → String
  | .loading root => "failed to load " ++ root.text
  | .readingExports file => "failed to read exports of " ++ file.text
  | .resolving name => "failed to resolve export `" ++ name ++ "`"

inductive RunFailure where
  | config (fault : ConfigFault)
  | during (task : Task) (cause : Error)
  deriving DecidableEq, Repr

namespace RunFailure

def message : RunFailure → String
  | config fault => fault.message
  | during task cause => task.failure ++ ": " ++ cause.message

def cause? : RunFailure → Option Error
  | config _ => none
  | during _ cause => some cause

def missing? (e : RunFailure) : Option Path :=
  match e.cause?.map Error.root with
  | some (.fileNotFound path) => some path
  | _ => none

end RunFailure

structure Outcome where
  output : String
  diagnostics : List Diagnostic
  report : String
  deriving DecidableEq, Repr

namespace Run

abbrev Session := ExceptT RunFailure (StateM Store)

def during {α : Type} (task : Task) (q : Query α) : Session α :=
  ExceptT.adapt (RunFailure.during task) q

def types (files : FileTree) (root : Path) (names : List String) : Session Answer := do
  return .types (← names.mapM fun name => during (.resolving name) (files.resolve root name))

def exportNames (table : ExportTable) : List String :=
  table.names.keys ++ if table.defaultExport.isSome then ["default"] else []

def answer (files : FileTree) (args : Arguments) (root : Path) : Session Answer := do
  let path ← during (.loading root) (files.load root)
  if args.all then
    let table ← during (.readingExports path) (files.exports path)
    types files root (exportNames table)
  else if args.names.isEmpty then
    return .exports (← during (.readingExports root) (files.exports path))
  else types files root args.names

def notes (s : Store) : List (Diagnostic × List Char) :=
  (s.paths.filterMap s.module?).flatMap fun m => m.diagnostics.map (·, m.text)

def outcome (settings : Settings) (a : Answer) (s : Store) : Outcome where
  output := a.write settings
  diagnostics := (notes s).map Prod.fst
  report := "\n".intercalate ((notes s).map fun (d, text) => d.reportLine settings.color text)

end Run

def run (files : FileTree) (args : Arguments) (cwd : Path) : Except RunFailure Outcome :=
  match Settings.resolve files args cwd with
  | .error fault => .error (.config fault)
  | .ok settings =>
      let session := Run.answer files args (Settings.root args cwd)
      match session.run.run (Store.ofOptions settings.resolver) with
      | (.error e, _) => .error e
      | (.ok a, store) => .ok (Run.outcome settings a store)

end Typings
