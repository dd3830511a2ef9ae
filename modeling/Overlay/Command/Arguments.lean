import Overlay.Attempt
import Overlay.Command
import Overlay.Text.Split

namespace Overlay

inductive Refusal where
  | usage
  | help
  | version
  deriving DecidableEq, Repr

inductive Switch where
  | verbose
  | noParallel
  | requireRegistration
  | skipInvalid
  deriving DecidableEq, Repr

inductive Parameter where
  | config
  | hostVersion
  | path
  | format
  deriving DecidableEq, Repr

inductive Meaning where
  | switch (s : Switch)
  | parameter (p : Parameter)
  | help
  | version
  deriving DecidableEq, Repr

inductive Scope where
  | front
  | behind (command : CommandName)
  deriving DecidableEq, Repr

namespace Scope

def long? : Scope → String → Option Meaning
  | _, "verbose" => some (.switch .verbose)
  | _, "no-parallel" => some (.switch .noParallel)
  | _, "require-registration" => some (.switch .requireRegistration)
  | _, "skip-invalid" => some (.switch .skipInvalid)
  | _, "config" => some (.parameter .config)
  | _, "host-version" => some (.parameter .hostVersion)
  | _, "help" => some .help
  | front, "version" => some .version
  | behind .merge, "format" | behind .query, "format" => some (.parameter .format)
  | behind .query, "path" => some (.parameter .path)
  | _, _ => none

def short? : Scope → Char → Option Meaning
  | _, 'v' => some (.switch .verbose)
  | _, 'c' => some (.parameter .config)
  | _, 'h' => some .help
  | front, 'V' => some .version
  | _, _ => none

def takesPaths : Scope → Bool
  | front | behind .version => false
  | behind _ => true

end Scope

def OutputFormat.find? : String → Option OutputFormat
  | "text" => some .text
  | "json" => some .json
  | _ => none

structure Choices where
  switches : List Switch
  parameters : List (Parameter × String)
  paths : List String
  deriving DecidableEq, Repr

namespace Choices

def none : Choices := ⟨[], [], []⟩

def on (c : Choices) (s : Switch) : Bool := c.switches.contains s

def value? (c : Choices) (p : Parameter) : Option String := c.parameters.lookup p

def switchOn (c : Choices) (s : Switch) : Except Refusal Choices :=
  if c.on s then .error .usage else .ok { c with switches := s :: c.switches }

def accepts (p : Parameter) (value : String) : Bool :=
  match p with
  | .config => !value.isEmpty
  | .format => (OutputFormat.find? value).isSome
  | .hostVersion | .path => true

def assign (c : Choices) (p : Parameter) (value : String) : Except Refusal Choices :=
  if (c.value? p).isSome || !accepts p value then .error .usage
  else .ok { c with parameters := (p, value) :: c.parameters }

def addPath (c : Choices) (path : String) : Except Refusal Choices :=
  if path.isEmpty then .error .usage else .ok { c with paths := c.paths ++ [path] }

/-- Reads a name of a choice, behind two dashes, with a value if there is an equals sign. What is
still without a value is handed back. -/
def readLong (scope : Scope) (c : Choices) (name : String) (value : Option String) :
    Except Refusal (Choices × Option Parameter) :=
  match scope.long? name, value with
  | some (.switch s), .none => do return (← c.switchOn s, .none)
  | some (.parameter p), .none => .ok (c, some p)
  | some (.parameter p), some v => do return (← c.assign p v, .none)
  | some .help, .none => .error .help
  | some .version, .none => .error .version
  | _, _ => .error .usage

def readShort (scope : Scope) (c : Choices) :
    List Char → Except Refusal (Choices × Option Parameter)
  | [] => .ok (c, .none)
  | letter :: rest =>
    match scope.short? letter with
    | some (.switch s) => do readShort scope (← c.switchOn s) rest
    | some (.parameter p) =>
      match rest with
      | [] => .ok (c, some p)
      | '=' :: value => do return (← c.assign p (.ofList value), .none)
      | value => do return (← c.assign p (.ofList value), .none)
    | some .help => .error .help
    | some .version => .error .version
    | .none => .error .usage

end Choices

inductive Argument where
  | word
  | divider
  | long (name : String) (value : Option String)
  | short (letters : List Char)
  deriving DecidableEq, Repr

def Argument.ofText (text : String) : Argument :=
  match text.toList with
  | ['-', '-'] => divider
  | '-' :: '-' :: rest =>
    match Text.splitOn '=' rest with
    | name :: value :: more =>
      long (.ofList name) (some (.ofList (Text.joinWith '=' (value :: more))))
    | _ => long (.ofList rest) none
  | '-' :: letter :: rest => short (letter :: rest)
  | _ => word

namespace Choices

/-- Reads the arguments of one side. In front of the command they end at the first word. Behind it
words are paths, and so is all that follows the divider. -/
def read (scope : Scope) : (awaiting : Option Parameter) → Choices → List String →
    Except Refusal (Choices × List String)
  | some _, _, [] => .error .usage
  | some p, c, arg :: rest => do
    match Argument.ofText arg with
    | .word => read scope .none (← c.assign p arg) rest
    | _ => .error .usage
  | .none, c, [] => .ok (c, [])
  | .none, c, arg :: rest => do
    match Argument.ofText arg with
    | .word =>
      -- in front, the first word is the command
      if scope = .front then return (c, arg :: rest)
      else if scope.takesPaths then read scope .none (← c.addPath arg) rest
      else .error .usage
    | .divider =>
      -- behind the divider dashes mean nothing
      if scope.takesPaths then return (← rest.foldlM addPath c, [])
      else if scope = .front || !rest.isEmpty then .error .usage
      else return (c, [])
    | .long name value =>
      let (c, awaiting) ← c.readLong scope name value
      read scope awaiting c rest
    | .short letters =>
      let (c, awaiting) ← c.readShort scope letters
      read scope awaiting c rest

def command (c : Choices) (name : CommandName) : Except Refusal Command :=
  let format := ((c.value? .format).bind OutputFormat.find?).getD .text
  if c.paths.isEmpty && name ≠ .version then .error .usage
  else
    match name with
    | .merge => .ok (.merge c.paths format)
    | .check => .ok (.check c.paths)
    | .order => .ok (.order c.paths)
    | .query =>
      match c.value? .path with
      | some path => .ok (.query c.paths path format)
      | .none => .error .usage
    | .version => .ok .version

def invocation (front behind : Choices) (command : Command) : Invocation :=
  let on (s : Switch) : Bool := front.on s || behind.on s
  let value? (p : Parameter) : Option String := (behind.value? p).or (front.value? p)
  { command
    verbose := on .verbose
    config := value? .config
    parallel := !on .noParallel
    requireRegistration := on .requireRegistration
    skipInvalid := on .skipInvalid
    hostVersion := value? .hostVersion }

end Choices

def helpWord : String := "help"

def hasHelp (word : String) : Bool := word = helpWord || (CommandName.find? word).isSome

def Invocation.read (args : List String) : Except Refusal Invocation := do
  let (front, rest) ← Choices.none.read .front none args
  match rest with
  | [] => .error .usage
  | word :: rest =>
    match CommandName.find? word with
    | some name =>
      let (behind, _) ← Choices.none.read (.behind name) none rest
      return front.invocation behind (← behind.command name)
    | none =>
      .error (if word = helpWord && rest.length ≤ 1 && rest.all hasHelp then .help else .usage)

end Overlay
