namespace Overlay

inductive OutputFormat where
  | text
  | json
  deriving DecidableEq, Repr

inductive Command where
  | merge (paths : List String) (format : OutputFormat)
  | check (paths : List String)
  | order (paths : List String)
  | query (paths : List String) (path : String) (format : OutputFormat)
  | version
  deriving DecidableEq, Repr

inductive CommandName where
  | merge
  | check
  | order
  | query
  | version
  deriving DecidableEq, Repr

namespace CommandName

def text : CommandName → String
  | merge => "merge"
  | check => "check"
  | order => "order"
  | query => "query"
  | version => "version"

def all : List CommandName := [merge, check, order, query, version]

def find? (text : String) : Option CommandName := all.find? fun name => name.text = text

end CommandName

namespace Command

def name : Command → CommandName
  | merge .. => .merge
  | check .. => .check
  | order .. => .order
  | query .. => .query
  | version => .version

def paths : Command → List String
  | merge paths _ | check paths | order paths | query paths _ _ => paths
  | version => []

end Command

structure Invocation where
  command : Command
  verbose : Bool
  config : Option String
  parallel : Bool
  requireRegistration : Bool
  skipInvalid : Bool
  hostVersion : Option String
  deriving DecidableEq, Repr

end Overlay
