import Overlay.Record.Dependency

namespace Overlay

/-- A fragment as it is handed in. A version given along with it counts more than one that the
fragment declares. -/
structure Source where
  name : String
  text : String
  version : Option String
  deriving DecidableEq, Repr

/-- What is known of a module. A fragment without registration stands under the name of its
source. -/
structure Record where
  identity : String
  registered : Bool
  version : Option DeclaredVersion
  requiredVersion : Option DeclaredVersion
  dependencies : List Dependency
  units : List String
  weapons : List String
  source : String
  index : Nat
  digest : String
  deriving DecidableEq, Repr

instance : Named Record := ⟨Record.identity⟩

structure RegistrationOptions where
  className : String
  required : Bool
  deriving DecidableEq, Repr

def defaultRegistrationClass : String := "CfgPatches"

def RegistrationOptions.default : RegistrationOptions := ⟨defaultRegistrationClass, false⟩

end Overlay
