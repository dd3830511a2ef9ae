import Overlay.Text.Position
import Overlay.Name
import Overlay.Token

namespace Overlay

open Text (Position)

/-- A single value. A number is kept as it is written, so that `0.10` stays `0.10`. -/
inductive Scalar where
  | number (literal : String)
  | text (value : String)
  | flag (value : Bool)
  deriving DecidableEq, Repr

inductive Value where
  | scalar (s : Scalar)
  | array (items : List Scalar)
  deriving DecidableEq, Repr

def flagText : Bool → String
  | true => "true"
  | false => "false"

namespace Scalar

def written : Scalar → String
  | number literal => literal
  | text value => quoted value
  | flag value => flagText value

def plain : Scalar → String
  | number literal => literal
  | text value => value
  | flag value => flagText value

def text? : Scalar → Option String
  | text value => some value
  | _ => none

end Scalar

namespace Value

def isArray : Value → Bool
  | array _ => true
  | scalar _ => false

def scalar? : Value → Option Scalar
  | scalar s => some s
  | array _ => none

def array? : Value → Option (List Scalar)
  | array items => some items
  | scalar _ => none

def written : Value → String
  | scalar s => s.written
  | array items => "\x7b" ++ ", ".intercalate (items.map Scalar.written) ++ "\x7d"

end Value

/-- A property declaration. With `append` the elements are to be added to an array declared
earlier. -/
structure Property where
  name : String
  value : Value
  append : Bool
  position : Position
  deriving DecidableEq, Repr

instance : Named Property := ⟨Property.name⟩

/-- A class declaration: a mere announcement of the name, or a body with an optional base. -/
inductive Declaration where
  | forward (name : String) (position : Position)
  | body (name : String) (base : Option String) (properties : List Property)
      (children : List Declaration) (position : Position)
  deriving Repr

namespace Declaration

def name : Declaration → String
  | forward name _ => name
  | body name _ _ _ _ => name

instance : Named Declaration := ⟨name⟩

def position : Declaration → Position
  | forward _ position => position
  | body _ _ _ _ position => position

def isForward : Declaration → Bool
  | forward _ _ => true
  | body _ _ _ _ _ => false

def base : Declaration → Option String
  | forward _ _ => none
  | body _ base _ _ _ => base

def properties : Declaration → List Property
  | forward _ _ => []
  | body _ _ properties _ _ => properties

def children : Declaration → List Declaration
  | forward _ _ => []
  | body _ _ _ children _ => children

def child? (d : Declaration) (name : String) : Option Declaration :=
  Roster.find? (nameKey name) d.children

def property? (d : Declaration) (name : String) : Option Property :=
  Roster.find? (nameKey name) d.properties

end Declaration

abbrev Forest := List Declaration

def Forest.find? (forest : Forest) (name : String) : Option Declaration :=
  Roster.find? (nameKey name) forest

end Overlay
