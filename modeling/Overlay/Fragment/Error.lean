import Overlay.Fragment
import Overlay.Fragment.ParseError
import Overlay.Version.Read

namespace Overlay

inductive RecordField where
  | declaredVersion
  | requiredVersion
  | version
  | requiredAddons
  | units
  | weapons
  deriving DecidableEq, Repr

def RecordField.name : RecordField → String
  | declaredVersion => "declared version"
  | requiredVersion => "requiredVersion"
  | version => "version"
  | requiredAddons => "requiredAddons"
  | units => "units"
  | weapons => "weapons"

inductive RegistrationFault where
  | missing (className : String)
  | noModule (className : String)
  | severalModules (className : String) (modules : List String)
  | notScalar (field : RecordField)
  | notArray (field : RecordField)
  | notText (field : RecordField) (item : Scalar)
  | emptyIdentity (entry : String)
  deriving DecidableEq, Repr

def RegistrationFault.message : RegistrationFault → String
  | missing className => s!"no '{className}' class found"
  | noModule className => s!"'{className}' declares no module class"
  | severalModules className modules =>
    let names := ", ".intercalate modules
    s!"'{className}' declares {modules.length} module classes ({names}); expected exactly one"
  | notScalar field => s!"'{field.name}' must be a number or a string"
  | notArray field => s!"'{field.name}' must be an array"
  | notText field item => s!"'{field.name}' must contain only strings, found {item.written}"
  | emptyIdentity entry => s!"requiredAddons entry '{entry}' has an empty module identity"

inductive FragmentError.Cause where
  | parse (error : ParseError)
  | registration (fault : RegistrationFault)
  | duplicate (identity : String) (holder : String)
  | version (field : RecordField) (text : String) (fault : Version.Fault)
  deriving DecidableEq, Repr

def FragmentError.Cause.message : FragmentError.Cause → String
  | parse error => error.message
  | registration fault => s!"registration error: {fault.message}"
  | duplicate identity holder => s!"duplicate module '{identity}' (already registered by {holder})"
  | version field text fault => s!"invalid {field.name} '{text}': {fault.message}"

structure FragmentError where
  source : String
  index : Nat
  cause : FragmentError.Cause
  deriving DecidableEq, Repr

def FragmentError.message (e : FragmentError) : String := s!"{e.source}: {e.cause.message}"

end Overlay
