import Overlay.Command
import Overlay.Log.Summary
import Overlay.Settings
import Overlay.Tree.Json
import Overlay.Tree.Render

namespace Overlay

inductive CommandError where
  | settings (error : SettingsError)
  | invalidSetting (path : String) (error : InvalidSetting)
  | load (error : LoadError)
  | session (error : SessionError)
  | query (fragments : Nat) (error : QueryError)
  | rejected (fragments : Nat)
  | skipped (fragments : Nat)
  deriving Repr

def SessionError.messages (e : SessionError) : List String :=
  match e with
  | resolve cause => [e.message, cause.message]
  | merge cause => [e.message, cause.message]
  | fragments _ | transition .. => [e.message]

def CommandError.messages : CommandError → List String
  | settings error => error.messages
  | invalidSetting path error => [s!"invalid configuration in {path}", error.message]
  | load error => error.messages
  | session error => error.messages
  | query fragments error => [s!"querying {fragments} fragment(s)", error.message]
  | rejected fragments => [s!"check failed: {fragments} fragment(s) rejected"]
  | skipped fragments => [s!"{fragments} fragment(s) skipped"]

structure Progress where
  output : String
  events : List Event
  summary : Summary
  deriving Repr

abbrev Work := ExceptT CommandError (StateM Progress)

namespace Work

def print (text : String) : Work Unit :=
  modify fun p => { p with output := p.output ++ text }

def tell (events : List Event) : Work Unit :=
  modify fun p => { p with events := p.events ++ events }

def heading (text : String) : Work Unit := tell [⟨.info, .stage, text⟩]

def note (lines : Summary) : Work Unit :=
  modify fun p => { p with summary := p.summary ++ lines }

def require {ε α : Type} (wrap : ε → CommandError) : Except ε α → Work α
  | .ok a => pure a
  | .error e => throw (wrap e)

def attempt {α : Type} (work : Work α) : Work (Except CommandError α) :=
  ExceptT.lift work.run

def summarize (log : Option String) : Work Unit := do
  tell ((← get).summary.events log)

end Work

/-- What the choices of a command make of the settings: they may be stricter or skip more, and give
another host version. -/
def Settings.override (s : Settings) (i : Invocation) : Settings :=
  { s with
    parallel := s.parallel && i.parallel
    requireRegistration := s.requireRegistration || i.requireRegistration
    onError := if i.skipInvalid then .skip else s.onError
    hostVersion := i.hostVersion.or s.hostVersion }

namespace Invocation

open Work

def tellWarnings (warnings : List SettingsWarning) : Work Unit := do
  tell [Settings.warningsEvent warnings]
  unless warnings.isEmpty do
    tell [⟨.warn, .summary, s!"found {warnings.length} configuration warning(s):"⟩]
    tell (warnings.map fun w => ⟨.warn, .summary, s!"  {w.source} [{w.item}]: {w.message}"⟩)

def prepare (world : World) (i : Invocation) : Work (SessionOptions × List Source) := do
  heading "Loading configuration"
  let path := i.config.getD Settings.defaultPath
  let settings := (← require .settings (Settings.load (world (← get).events) path)).override i
  tell [⟨.debug, .summary, s!"config: {path}"⟩]
  tellWarnings (settings.warnings path)
  let options ← require (.invalidSetting path) settings.sessionOptions
  heading "Loading fragments"
  let (events, loaded) := world.load (← get).events i.command.paths settings.extensions
  tell events
  let sources ← require .load loaded
  tell [⟨.info, .summary, s!"loaded {sources.length} fragment(s)"⟩]
  return (options, sources)

def failSession {α : Type} (error : SessionError) : Work α := do
  match error with
  | .fragments errors =>
    tell (errors.map fun e => ⟨.error, .summary, e.message⟩)
    note (Summary.ofErrors errors)
  | error => tell [⟨.error, .summary, error.message⟩]
  throw (.session error)

def finish {α : Type} (step : Step α) : Work α := do
  tell step.events
  match step.result with
  | .ok a => return a
  | .error e => failSession e

def runSession (options : SessionOptions) (sources : List Source) : Work Outcome := do
  heading "Merging fragments"
  let outcome ← finish (Session.run options sources)
  note (Summary.ofReport outcome.report)
  return outcome

def merge (world : World) (log : Option String) (i : Invocation) (format : OutputFormat) :
    Work Unit := do
  let (options, sources) ← prepare world i
  let result ← attempt (runSession options sources)
  if let .ok outcome := result then
    match format with
    | .text => print outcome.tree.text
    | .json => print (outcome.tree.json.pretty "" ++ "\n")
  summarize log
  let _ ← require id result

def check (world : World) (log : Option String) (i : Invocation) : Work Unit := do
  let (options, sources) ← prepare world i
  let result ← attempt (runSession options sources)
  summarize log
  let failed := (← get).summary.count .failed
  -- rejected fragments are counted before the session's own failure is told
  if failed > 0 then throw (.rejected failed)
  let outcome ← require id result
  let modules := outcome.order.length
  let classes := outcome.tree.root.children.length
  tell [⟨.info, .summary, s!"{modules} module(s), {classes} top-level class(es)"⟩]
  let skipped := outcome.report.count .skipped
  if skipped > 0 then throw (.skipped skipped)

def printRecord (r : Record) : Work Unit := do
  let required := ", ".intercalate (r.dependencies.map Dependency.identity)
  tell [⟨.debug, .summary, s!"{r.identity} from {r.source} requires [{required}]"⟩]
  print (r.identity ++ "\n")

def order (world : World) (i : Invocation) : Work Unit := do
  let (options, sources) ← prepare world i
  heading "Resolving merge order"
  let step := (((Session.new options).parse sources).andThen Session.register).andThen
    Session.resolve
  finish step
  step.session.order.forM printRecord

def query (world : World) (i : Invocation) (path : String) (format : OutputFormat) : Work Unit := do
  let (options, sources) ← prepare world i
  let outcome ← runSession options sources
  let entry ← require (.query outcome.report.fragments.length) (outcome.tree.lookup path)
  match format with
  | .text => print entry.text
  | .json => print (entry.json.pretty "" ++ "\n")

def work (world : World) (log : Option String) (i : Invocation) : Work Unit :=
  match i.command with
  | .merge _ format => merge world log i format
  | .check _ => check world log i
  | .order _ => order world i
  | .query _ path format => query world i path format
  | .version => pure ()

def run (world : World) (log : Option String) (i : Invocation) :
    Except CommandError Unit × Progress :=
  (i.work world log).run.run ⟨"", [], []⟩

end Invocation

end Overlay
