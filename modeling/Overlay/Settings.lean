import Overlay.Files.Load
import Overlay.Session
import Overlay.Toml

namespace Overlay

structure Settings where
  registrationClass : String
  requireRegistration : Bool
  hostVersion : Option String
  onError : ErrorPolicy
  parallel : Bool
  extensions : List String
  deriving DecidableEq, Repr

inductive SettingsError where
  | unreadable (path : String) (fault : ReadFault)
  | malformed (path : String)
  deriving DecidableEq, Repr

def tomlFault : String := "TOML parse error"

def SettingsError.messages : SettingsError → List String
  | unreadable path fault =>
    [s!"loading {path}", s!"Failed to read config file: {path}", fault.message]
  | malformed path => [s!"loading {path}", s!"Failed to parse TOML config: {path}", tomlFault]

inductive InvalidSetting where
  | emptyRegistrationClass
  | hostVersion (fault : Version.Fault)
  deriving DecidableEq, Repr

def InvalidSetting.message : InvalidSetting → String
  | emptyRegistrationClass => "invalid value for 'registration_class': must not be empty"
  | hostVersion fault => s!"invalid value for 'host_version': {fault.message}"

structure SettingsWarning where
  source : String
  item : String
  message : String
  deriving DecidableEq, Repr

namespace Settings

def defaultPath : String := "cfgpatch.toml"

def default : Settings :=
  ⟨defaultRegistrationClass, false, none, .reject, true, ["cpp"]⟩

def policyNamed? (name : String) : Option ErrorPolicy :=
  if name = ErrorPolicy.reject.name then some .reject
  else if name = ErrorPolicy.skip.name then some .skip
  else none

def isHollow : Toml → Bool
  | .array items => items.isEmpty
  | .table _ entries => entries.isEmpty
  | _ => false

/-- A policy is a string, or a table whose only entry bears its name and is empty. -/
def policy? : Toml → Option ErrorPolicy
  | .text name => policyNamed? name
  | .table _ [(name, value)] => if isHollow value then policyNamed? name else none
  | _ => none

def flag? : Toml → Option Bool
  | .flag value => some value
  | _ => none

def text? : Toml → Option String
  | .text value => some value
  | _ => none

def texts? : Toml → Option (List String)
  | .array items => items.mapM text?
  | _ => none

def set (s : Settings) : String × Toml → Option Settings
  | ("registration_class", v) => (text? v).map fun x => { s with registrationClass := x }
  | ("require_registration", v) => (flag? v).map fun x => { s with requireRegistration := x }
  | ("host_version", v) => (text? v).map fun x => { s with hostVersion := some x }
  | ("on_fragment_error", v) => (policy? v).map fun x => { s with onError := x }
  | ("parallel", v) => (flag? v).map fun x => { s with parallel := x }
  | ("fragment_extensions", v) => (texts? v).map fun x => { s with extensions := x }
  | _ => none

/-- The settings in a document; what it does not name has its default. -/
def read? (document : String) : Option Settings := do
  (← Toml.readDocument? document).foldlM set default

def load (disk : Disk) (path : String) : Except SettingsError Settings :=
  match disk path with
  | none => .ok default
  | some node =>
    match node.text with
    | .error fault => .error (.unreadable path fault)
    | .ok document =>
      match read? document with
      | some s => .ok s
      | none => .error (.malformed path)

def sessionOptions (s : Settings) : Except InvalidSetting SessionOptions := do
  let className := Text.trim s.registrationClass
  if className.isEmpty then .error .emptyRegistrationClass
  else
    let host ← (s.hostVersion.mapM DeclaredVersion.read).mapError .hostVersion
    return ⟨⟨className, s.requireRegistration⟩, host, s.onError, s.parallel⟩

def warnings (s : Settings) (source : String) : List SettingsWarning :=
  let warning (applies : Bool) (item message : String) : List SettingsWarning :=
    if applies then [⟨source, item, message⟩] else []
  warning s.extensions.isEmpty "fragment_extensions"
      "no extensions configured; directories will yield no fragments" ++
    s.extensions.flatMap (fun ext => warning (ext.startsWith ".") "fragment_extensions"
      s!"extension '{ext}' should be given without the leading dot") ++
    warning (nameKey s.registrationClass ≠ nameKey defaultRegistrationClass) "registration_class"
      s!"'{s.registrationClass}' differs from the conventional '{defaultRegistrationClass}'" ++
    warning (s.requireRegistration && s.onError = .skip) "require_registration"
      "unregistered fragments will be skipped silently under on_fragment_error = \"skip\""

def warningsEvent (warnings : List SettingsWarning) : Event :=
  ⟨.debug, .settings, s!"engine validator: {warnings.length} warning(s)"⟩

end Settings

end Overlay
