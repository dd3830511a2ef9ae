import Overlay.Digest
import Overlay.Fragment.Error
import Overlay.Record

namespace Overlay.Record

open FragmentError (Cause)

def readVersion (field : RecordField) (text : String) : Except Cause DeclaredVersion :=
  (DeclaredVersion.read text).mapError (.version field text)

def scalarText (field : RecordField) : Value → Except Cause String
  | .scalar (.number literal) => .ok literal
  | .scalar (.text value) => .ok value
  | _ => .error (.registration (.notScalar field))

def versionProperty (module : Declaration) (field : RecordField) :
    Except Cause (Option DeclaredVersion) :=
  match module.property? field.name with
  | none => .ok none
  | some p => do
    let version ← readVersion field (← scalarText field p.value)
    return some version

def itemText (field : RecordField) (item : Scalar) : Except Cause String :=
  match item.text? with
  | some text => .ok text
  | none => .error (.registration (.notText field item))

def textsProperty (module : Declaration) (field : RecordField) : Except Cause (List String) :=
  match module.property? field.name with
  | none => .ok []
  | some p =>
    match p.value with
    | .array items => items.mapM (itemText field)
    | .scalar _ => .error (.registration (.notArray field))

def readDependency (entry : String) : Except Cause Dependency := do
  let d ← (Dependency.read entry).mapError (.version .requiredAddons entry)
  if d.identity.isEmpty then .error (.registration (.emptyIdentity entry)) else return d

/-- Reads dependencies in their order. Of several on one module the first counts. -/
def readDependencies : (known : List Dependency) → List String → Except Cause (List Dependency)
  | known, [] => .ok known
  | known, entry :: entries => do
    let d ← readDependency entry
    let isKnown := (Roster.keys known).contains (keyOf d)
    readDependencies (if isKnown then known else known ++ [d]) entries

/-- The one class that the registration class has to hold. -/
def moduleOf (registration : Declaration) : Except Cause Declaration :=
  match registration.children with
  | [] => .error (.registration (.noModule registration.name))
  | [module] => .ok module
  | modules => .error (.registration
      (.severalModules registration.name (modules.map Declaration.name)))

def extractCause (options : RegistrationOptions) (source : Source) (index : Nat) (forest : Forest) :
    Except Cause Record := do
  -- a version given along is read in any case, and first
  let given ← source.version.mapM (readVersion .declaredVersion)
  let digest := Digest.ofText source.text
  match Forest.find? forest options.className with
  | none =>
    if options.required then .error (.registration (.missing options.className))
    else return ⟨source.name, false, given, none, [], [], [], source.name, index, digest⟩
  | some registration =>
    let module ← moduleOf registration
    let requiredVersion ← versionProperty module .requiredVersion
    -- the declared version is not even read if another one counts
    let version ← match given with
      | some v => pure (some v)
      | none => versionProperty module .version
    let dependencies ← readDependencies [] (← textsProperty module .requiredAddons)
    let units ← textsProperty module .units
    let weapons ← textsProperty module .weapons
    return ⟨module.name, true, version, requiredVersion, dependencies, units, weapons,
      source.name, index, digest⟩

def extract (options : RegistrationOptions) (source : Source) (index : Nat) (forest : Forest) :
    Except FragmentError Record :=
  (extractCause options source index forest).mapError fun cause => ⟨source.name, index, cause⟩

end Overlay.Record
