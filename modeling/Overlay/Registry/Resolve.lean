import Overlay.Log.Event
import Overlay.Order
import Overlay.Registry
/-!
The order in which the modules of a registry are merged: each after the modules it depends on, and
otherwise by key. Before that every dependency has to be registered, and every requirement on a
version has to be met, that of the host's version too.
-/

namespace Overlay

inductive ResolveError where
  | missing (source identity dependency : String)
  | unmet (source identity dependency : String) (requirement : Requirement)
      (found : Option DeclaredVersion)
  | hostTooOld (source identity : String) (required host : DeclaredVersion)
  | cycle (identities : List String)
  deriving DecidableEq, Repr

def ResolveError.message : ResolveError → String
  | missing source identity dependency =>
    s!"{source}: module '{identity}' requires '{dependency}', which is not registered"
  | unmet source identity dependency requirement found =>
    let found := (found.map DeclaredVersion.raw).getD "no declared version"
    s!"{source}: module '{identity}' requires {dependency} {requirement.text}, found {found}"
  | hostTooOld source identity required host =>
    s!"{source}: module '{identity}' requires host >= {required.raw}, found {host.raw}"
  | cycle identities => "dependency cycle detected: " ++ " → ".intercalate identities

namespace Registry

/-- The module that a dependency names. Fragments without registration are no modules. -/
def target? (records : List Record) (d : Dependency) : Option Record :=
  records.find? fun r => r.registered && keyOf r = keyOf d

def targetIndex? (records : List Record) (d : Dependency) : Option Nat :=
  records.findIdx? fun r => r.registered && keyOf r = keyOf d

def missingDependency? (records : List Record) (r : Record) : Option ResolveError :=
  r.dependencies.findSome? fun d =>
    match target? records d with
    | none => some (.missing r.source r.identity d.identity)
    | some _ => none

def meets (r : Record) (requirement : Requirement) : Bool :=
  r.version.any fun v => v.satisfies requirement

def unmetDependency? (records : List Record) (r : Record) : Option ResolveError :=
  r.dependencies.findSome? fun d =>
    match target? records d, d.requirement with
    | some t, some requirement =>
      if meets t requirement then none
      else some (.unmet r.source r.identity t.identity requirement t.version)
    | _, _ => none

def unmetHost? (host : DeclaredVersion) (r : Record) : Option ResolveError :=
  r.requiredVersion.bind fun required =>
    if compare required.version host.version = .gt then
      some (.hostTooOld r.source r.identity required host)
    else none

/-- The first fault of the dependencies, apart from cycles. -/
def fault? (records : List Record) (host : Option DeclaredVersion) : Option ResolveError :=
  -- all records are looked through for one kind of fault before the next
  records.findSome? (missingDependency? records) <|>
    records.findSome? (unmetDependency? records) <|>
    host.bind fun host => records.findSome? (unmetHost? host)

def graph (records : List Record) : Order.Graph :=
  records.map fun r => r.dependencies.filterMap (targetIndex? records)

def select (records : List Record) (order : List Nat) : List Record :=
  order.filterMap fun i => records[i]?

def resolve (r : Registry) (host : Option DeclaredVersion) : Except ResolveError (List Record) :=
  match fault? r.records host with
  | some e => .error e
  | none =>
    match Order.sort (graph r.records) with
    | .ok order => .ok (select r.records order)
    | .error cycle => .error (.cycle ((select r.records cycle).map Record.identity))

def resolveEvents : Except ResolveError (List Record) → List Event
  | .ok order =>
    [⟨.debug, .order, "resolved order: " ++ ", ".intercalate (order.map Record.identity)⟩]
  | .error _ => []

end Registry

end Overlay
