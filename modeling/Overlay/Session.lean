import Overlay.Fragment.Parse
import Overlay.Record.Extract
import Overlay.Registry.Resolve
import Overlay.Tree.Trace
/-!
A session takes a list of fragments through four stages: parsing, registering, resolving, merging.
Every stage follows on a certain one, a failed session stays failed, and a finished one has handed
out its tree. A stage tells the session after it, its result and the events on the way.
-/

namespace Overlay

inductive Stage where
  | empty
  | parsing
  | registering
  | resolving
  | merging
  | finalized
  | failed
  deriving DecidableEq, Repr

def Stage.name : Stage → String
  | empty => "Empty"
  | parsing => "Parsing"
  | registering => "Registering"
  | resolving => "Resolving"
  | merging => "Merging"
  | finalized => "Finalized"
  | failed => "Failed"

inductive ErrorPolicy where
  | reject
  | skip
  deriving DecidableEq, Repr

def ErrorPolicy.name : ErrorPolicy → String
  | reject => "reject"
  | skip => "skip"

/-- The choices for a session. In parallel, several fragments are not reported one by one while they
are parsed and registered, and their records come to the registry in any order. `Session.register`
stands for the order of the inputs, `Session.registerArriving` for the others. -/
structure SessionOptions where
  registration : RegistrationOptions
  hostVersion : Option DeclaredVersion
  onError : ErrorPolicy
  parallel : Bool
  deriving DecidableEq, Repr

inductive SessionError where
  | fragments (errors : List FragmentError)
  | resolve (error : ResolveError)
  | merge (error : MergeError)
  | transition (current requested : Stage)
  deriving DecidableEq, Repr

def SessionError.message : SessionError → String
  | fragments errors => s!"{errors.length} fragment(s) failed"
  | resolve error => s!"dependency resolution failed: {error.message}"
  | merge error => s!"merge failed: {error.message}"
  | transition current requested =>
    s!"invalid session transition from {current.name} to {requested.name}"

/-- A session. For every source there is what it declares, or nothing if it does not parse. -/
structure Session where
  options : SessionOptions
  stage : Stage
  sources : List Source
  forests : List (Option Forest)
  errors : List FragmentError
  registry : Registry
  order : List Record
  deriving Repr

inductive FragmentStatus where
  | merged
  | skipped
  | failed
  deriving DecidableEq, Repr

structure FragmentReport where
  index : Nat
  source : String
  identity : Option String
  status : FragmentStatus
  deriving DecidableEq, Repr

structure Report where
  fragments : List FragmentReport
  errors : List FragmentError
  deriving DecidableEq, Repr

def Report.count (r : Report) (status : FragmentStatus) : Nat :=
  r.fragments.countP fun f => f.status = status

structure Outcome where
  tree : Tree
  order : List Record
  report : Report
  deriving DecidableEq, Repr

structure Step (α : Type) where
  session : Session
  result : Except SessionError α
  events : List Event

namespace Session

def new (options : SessionOptions) : Session :=
  ⟨options, .empty, [], [], [], .empty, []⟩

/-- Goes on to a stage if the session is at the stage before; otherwise nothing happens. -/
def enter {α : Type} (s : Session) (before next : Stage) (work : Session → Step α) : Step α :=
  if s.stage = before then
    let step := work { s with stage := next }
    { step with
      events := ⟨.trace, .session, s!"session {before.name} -> {next.name}"⟩ :: step.events }
  else ⟨s, .error (.transition s.stage next), []⟩

def fail {α : Type} (s : Session) (error : SessionError) (events : List Event) : Step α :=
  ⟨{ s with stage := .failed }, .error error,
    events ++ [⟨.debug, .session, s!"session failed in {s.stage.name}: {error.message}"⟩]⟩

def parseSource (index : Nat) (source : Source) : Except FragmentError Forest :=
  (Fragment.parse source.text).mapError fun e => ⟨source.name, index, .parse e⟩

def parseEvent (source : Source) : Except FragmentError Forest → Event
  | .ok forest => ⟨.debug, .session, s!"parsed {source.name} ({forest.length} classes)"⟩
  | .error e => ⟨.debug, .session, s!"parse failed: {e.message}"⟩

/-- Whether a number of fragments is worked on at the same time. One alone never is. -/
def inParallel (s : Session) (fragments : Nat) : Bool := s.options.parallel && 1 < fragments

def error? {ε α : Type} : Except ε α → Option ε
  | .ok _ => none
  | .error e => some e

def parse (s : Session) (sources : List Source) : Step Unit :=
  s.enter .empty .parsing fun s =>
    let results := sources.mapIdx parseSource
    let errors := s.errors ++ results.filterMap error?
    -- at work in parallel, the fragments are not told about
    let told := if s.inParallel sources.length then [] else List.zipWith parseEvent sources results
    ⟨{ s with
        sources := sources
        forests := s.forests ++ results.map Except.toOption
        errors := errors },
      .ok (),
      told ++ [⟨.info, .session,
        s!"parsed {sources.length} fragment(s), {errors.length} with errors"⟩]⟩

def parsed (s : Session) : List (Nat × Source × Forest) :=
  (s.sources.zip s.forests).zipIdx.filterMap fun ((source, forest), index) =>
    forest.map fun forest => (index, source, forest)

def extracted (s : Session) : List (Except FragmentError Record) :=
  s.parsed.map fun (index, source, forest) =>
    Record.extract s.options.registration source index forest

def registerAll (r : Registry) : List (Except FragmentError Record) → Registry × List FragmentError
  | [] => (r, [])
  | .error e :: rest =>
    let (last, errors) := registerAll r rest
    (last, e :: errors)
  | .ok x :: rest =>
    let (next, loser) := r.insert x
    let (last, errors) := registerAll next rest
    (last, loser.toList ++ errors)

def recordEvent (r : Record) : Event :=
  let mark := if r.registered then "" else " (unregistered)"
  ⟨.debug, .session, s!"registered {r.source} as '{r.identity}'{mark}"⟩

def sortErrors (errors : List FragmentError) : List FragmentError :=
  errors.mergeSort fun a b => a.index ≤ b.index

/-- Goes on with a registry, and with the errors on the way to it. Whether the session goes on with
errors is a matter of policy. -/
def settle (s : Session) (records : List (Except FragmentError Record)) (registry : Registry)
    (lost : List FragmentError) : Step Unit :=
  let errors := sortErrors (s.errors ++ lost)
  let s := { s with registry := registry, errors := errors }
  let told := if s.inParallel records.length then []
    else records.filterMap fun r => r.toOption.map recordEvent
  let events := told ++ [⟨.info, .session, s!"registered {registry.size} module(s)"⟩]
  if errors.isEmpty then ⟨s, .ok (), events⟩
  else
    match s.options.onError with
    | .reject => s.fail (.fragments errors) events
    | .skip =>
      ⟨s, .ok (), events ++ errors.map fun e =>
        ⟨.warn, .session, s!"skipping fragment: {e.message}"⟩⟩

def register (s : Session) : Step Unit :=
  s.enter .parsing .registering fun s =>
    let records := s.extracted
    let (registry, lost) := registerAll .empty records
    s.settle records registry lost

/-- The same by workers whose records come to the registry in some order. It decides only which
holder the error of a duplicate names. -/
def registerArriving (arrivals : List Record) (s : Session) : Step Unit :=
  s.enter .parsing .registering fun s =>
    let records := s.extracted
    let (registry, lost) := Registry.empty.insertAll arrivals
    s.settle records registry (records.filterMap error? ++ lost)

def resolve (s : Session) : Step Unit :=
  s.enter .registering .resolving fun s =>
    let order := s.registry.resolve s.options.hostVersion
    let events := Registry.resolveEvents order
    match order with
    | .ok order =>
      ⟨{ s with order := order }, .ok (),
        events ++ [⟨.info, .session, s!"resolved order of {order.length} module(s)"⟩]⟩
    | .error e => s.fail (.resolve e) events

def forest? (s : Session) (r : Record) : Option Forest := s.forests[r.index]?.join

def fragments (s : Session) : List (String × Forest) :=
  s.order.filterMap fun r => (s.forest? r).map fun forest => (r.source, forest)

def reportOf (s : Session) (source : Source) (index : Nat) : FragmentReport :=
  { index
    source := source.name
    identity := (s.registry.records.find? fun r => r.index = index).map Record.identity
    status := if s.errors.any fun e => e.index = index then .skipped else .merged }

def report (s : Session) : Report :=
  ⟨s.sources.mapIdx fun index source => s.reportOf source index, s.errors⟩

def merge (s : Session) : Step Outcome :=
  s.enter .resolving .merging fun s =>
    let events := Tree.empty.applyAllEvents s.fragments
    match Tree.merge s.fragments with
    | .error e => s.fail (.merge e) events
    | .ok tree =>
      -- the order is handed out with the tree
      ⟨{ s with stage := .finalized, order := [] }, .ok ⟨tree, s.order, s.report⟩,
        events ++ [⟨.info, .session, s!"merged {s.order.length} fragment(s)"⟩]⟩

end Session

namespace Step

def andThen {α β : Type} (step : Step α) (next : Session → Step β) : Step β :=
  match step.result with
  | .ok _ =>
    let last := next step.session
    { last with events := step.events ++ last.events }
  | .error e => ⟨step.session, .error e, step.events⟩

end Step

def Session.run (options : SessionOptions) (sources : List Source) : Step Outcome :=
  ((((Session.new options).parse sources).andThen register).andThen resolve).andThen merge

def Session.runArriving (options : SessionOptions) (sources : List Source)
    (arrivals : List Record) : Step Outcome :=
  ((((Session.new options).parse sources).andThen (registerArriving arrivals)).andThen
    resolve).andThen merge

end Overlay
