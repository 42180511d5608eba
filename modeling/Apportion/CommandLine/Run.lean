import Apportion.CommandLine.Arguments
import Apportion.CommandLine.Report

/-!
Running a command: the settings are loaded, the command's own options are put over them, and the build
is run. The outcome says what to print and how the program ends.
-/
namespace Apportion.CommandLine

inductive Outcome
  | done (output : String)
  | failed (activity : String) (cause : BuildError)
  | stopped (reason : Stop)

namespace Outcome

def version : String := "pkgsplit 0.4.0\n"

def usage : String :=
  "Usage: pkgsplit [--json] [-v] <COMMAND> [OPTIONS]\n\n" ++
  "Commands:\n" ++
  "  build  Split the emitted tree into packages\n" ++
  "  plan   Print the planned changes as JSON\n" ++
  "  help   Print this text\n\n" ++
  "Options of the commands:\n" ++
  "  -d, --directory <DIR>  Project directory\n" ++
  "  -c, --config <FILE>    Settings file\n" ++
  "      --report <FILE>    Emit report\n" ++
  "      --out-dir <DIR>    Emission root, relative to the project directory\n" ++
  "  -j, --jobs <COUNT>     Tasks at a time, 0 for as many as there are processors\n" ++
  "      --json             Print JSON instead of text\n" ++
  "  -v, --verbose          Log more\n" ++
  "  -h, --help             Print this text\n" ++
  "      --dry-run          Plan without writing anything (build only)\n" ++
  "      --no-ignore-list   Do not write the ignore list (build only)\n"

def code : Outcome → UInt32
  | done _ | stopped .help | stopped .version => 0
  | failed .. => 1
  | stopped (.usage _) => 2

def output : Outcome → String
  | done text => text
  | stopped .version => version
  | stopped .help => usage
  | failed .. | stopped (.usage _) => ""

def complaint? : Outcome → Option String
  | failed activity cause => some (cause.report activity ++ "\n")
  | stopped (.usage cause) => some s!"error: {cause.message}\n\n{usage}"
  | done _ | stopped .help | stopped .version => none

end Outcome

variable {m : Type → Type} [Monad m] [Workspace m]

/-- The settings of a project with the warnings about its file; an error comes with what failed. -/
def settingsOf (env : Settings.Environment) (root : Path) (arguments : ProjectArguments) :
    m (Except (String × BuildError) (Settings × List KeyWarning)) := do
  match arguments.config with
  | some name =>
    let file := root.join name
    match ← Settings.load (m := m) file with
    | .error e => return .error (s!"loading {file.text}", e)
    | .ok (settings, warnings) => return .ok (settings.withEnvironment env, warnings)
  | none =>
    let loaded ← Settings.loadProject (m := m) env root
    return loaded.mapError fun e => ("loading configuration", e)

/-- The settings under the options of the command line. -/
def ProjectArguments.over (arguments : ProjectArguments) (s : Settings) : Settings :=
  { s with
    emit := ⟨arguments.outDir.getD s.emit.outDir, arguments.report.getD s.emit.report⟩
    apply := ⟨arguments.jobs.getD s.apply.jobs⟩ }

/-- A build of the project, with its options changed at last. -/
def buildProject (env : Settings.Environment) (current : Path) (arguments : ProjectArguments)
    (activity : String) (change : BuildOptions → BuildOptions) (describe : BuildResult → String) :
    m Outcome := do
  let root := (current.join arguments.directory).normalize
  match ← settingsOf (m := m) env root arguments with
  | .error (activity, e) => return .failed activity e
  | .ok (settings, warnings) => do
    for w in warnings do
      Workspace.warn w.warning
    let settings := arguments.over settings
    match ← Build.run (m := m) (settings.emitter root) settings.discovery
        (change (settings.options root)) with
    | .error e => return .failed s!"{activity} {root.text}" e
    | .ok result => return .done (describe result)

def Command.run (env : Settings.Environment) (current : Path) : Command → m Outcome
  | .build project dryRun ignoreList json =>
    buildProject env current project "splitting"
      (fun o => { o with
        dryRun := dryRun
        ignore := if ignoreList then o.ignore else none })
      (fun r => if json then r.toJson.pretty ++ "\n" else r.describe)
  | .plan project =>
    buildProject env current project "planning" (fun o => { o with dryRun := true })
      (fun r => r.changes.toJson.pretty ++ "\n")

def run (env : Settings.Environment) (current : Path) (arguments : List String) : m Outcome :=
  match Command.parse arguments with
  | .error reason => return .stopped reason
  | .ok command => command.run env current

end Apportion.CommandLine
