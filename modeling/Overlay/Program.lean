import Overlay.Command.Arguments
import Overlay.Command.Run
import Overlay.Log.Console
import Overlay.Log.Filter

namespace Overlay

structure Environment where
  cache : Option String
  home : Option String
  filter : Option String
  deriving DecidableEq, Repr

structure Clock where
  started : String
  now : String
  deriving DecidableEq, Repr

structure Transcript where
  exitCode : Nat
  output : String
  errors : String
  log : String
  deriving DecidableEq, Repr

inductive Plan where
  | refuse
  | answer (text : String)
  | work (i : Invocation)
  deriving DecidableEq, Repr

namespace Program

open Text (unlines)

def name : String := "cfgpatch"

def version : String := "0.1.0"

def versionLine : String := s!"{name} {version}\n"

def usage : String := unlines
  ["Parse, order and merge configuration patch fragments",
    "",
    s!"Usage: {name} [OPTIONS] COMMAND",
    "",
    "Commands:",
    "  merge PATHS    Merge fragments and print the resulting tree",
    "  check PATHS    Validate fragments and report the status of each one",
    "  order PATHS    Print the resolved module merge order",
    "  query PATHS    Merge fragments and print the value or class at a dotted path",
    "  version        Print version information",
    "",
    "Options:",
    "  -v, --verbose             Enable verbose output",
    "  -c, --config CONFIG       Engine configuration file",
    "      --no-parallel         Disable parallel parsing and registration",
    "      --require-registration",
    "                            Reject fragments that carry no registration class",
    "      --skip-invalid        Skip fragments that fail to parse or register",
    "      --host-version VERSION",
    "                            Host version checked against every requiredVersion",
    "      --format FORMAT       Output format of merge and query: text or json",
    "      --path PATH           Dotted path for query",
    "  -h, --help                Print help",
    "  -V, --version             Print version"]

def plan (args : List String) : Plan :=
  match Invocation.read args with
  | .error .usage => .refuse
  | .error .help => .answer usage
  | .error .version => .answer versionLine
  | .ok i => if i.command = .version then .answer versionLine else .work i

def logDirectory? (env : Environment) : Option String :=
  (env.cache.or (env.home.map fun home => Path.join home ".cache")).map fun cache =>
    Path.join cache name

def logName (command : CommandName) : String := command.text ++ ".log"

def consoleFilter (env : Environment) (verbose : Bool) : Filter :=
  (env.filter.bind Filter.read?).getD (.atLeast (if verbose then .debug else .info))

def logHeader (command : CommandName) (clock : Clock) : String :=
  s!"# {name} {version} {command.text}, started {clock.started}"

def causeText (label message : String) : String :=
  label ++ message.replace "\n" ("\n" ++ .ofList (List.replicate label.length ' '))

def causeTexts : List String → List String
  | [] => []
  | [message] => ["", "Caused by:", causeText "    " message]
  | messages =>
    "" :: "Caused by:" :: messages.mapIdx fun n message => causeText s!"    {n}: " message

def failureLines : List String → List String
  | [] => []
  | message :: causes => s!"Error: {message}" :: causeTexts causes

def logText (command : CommandName) (clock : Clock) (told : List Event) : String :=
  unlines (logHeader command clock :: told.filterMap (Event.logLine? clock.now))

def run (world : World) (env : Environment) (clock : Clock) (log : Option String) (i : Invocation) :
    Transcript :=
  let (result, progress) := { i with parallel := false }.run world log
  let shown := progress.events.filter (consoleFilter env i.verbose).shows
  let failure := match result with
    | .ok () => []
    | .error e => failureLines e.messages
  { exitCode := if result.isOk then 0 else 1
    output := progress.output
    errors := unlines (shown.map Event.consoleLine ++ failure)
    log := logText i.command.name clock progress.events }

def placeLog (files : FileSystem) (env : Environment) (fileName : String) :
    FileSystem × Option String :=
  match logDirectory? env with
  | none => (files, none)
  | some directory =>
    let (files, made) := files.makeDirectory directory
    (files, if made then some (Path.join directory fileName) else none)

/-- Files, of which the log holds what has been told so far. Where it cannot be written, nothing
changes. -/
def filesWith (files : FileSystem) (log : Option String) (text : String) : FileSystem :=
  match log with
  | none => files
  | some path => files.write path text.toUTF8

def worldWith (files : FileSystem) (log : Option String) (text : List Event → String) : World :=
  fun told => (filesWith files log (text told)).look

/-- A run on files. The log is begun before any file is looked at, and every event is written into
it as it is told. -/
def runOn (files : FileSystem) (env : Environment) (clock : Clock) (i : Invocation) :
    FileSystem × Transcript :=
  let command := i.command.name
  let (files, log) := placeLog files env (logName command)
  let world := worldWith files log (logText command clock)
  let transcript := run world env clock log i
  (filesWith files log transcript.log, transcript)

end Program

end Overlay
