namespace Overlay

inductive Level where
  | trace
  | debug
  | info
  | warn
  | error
  deriving DecidableEq, Repr

inductive Target where
  | session
  | merge
  | order
  | loader
  | settings
  | summary
  | stage
  deriving DecidableEq, Repr

def Target.shortText : Target → String
  | session => "session"
  | merge => "merge"
  | order => "graph"
  | loader => "loader"
  | settings => "config::validation"
  | summary => "logging::logger"
  | stage => "stage"

def Target.text (t : Target) : String := "cfgpatch::" ++ t.shortText

structure Event where
  level : Level
  target : Target
  message : String
  deriving DecidableEq, Repr

end Overlay
