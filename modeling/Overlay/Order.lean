/-!
Putting the nodes of a graph into an order in which each comes after the nodes it requires. Among
the nodes that could come next the least is taken. Each node carries the count of its requirements
that are still to come; it gets ready when the count reaches zero. The nodes that are left in the
end contain a cycle.
-/

namespace Overlay.Order

/-- For each node the nodes it requires, possibly repeated. Nodes are positions in the list. -/
abbrev Graph := List (List Nat)

def requires (g : Graph) (i : Nat) : List Nat := g[i]?.getD []

def dependents (g : Graph) (i : Nat) : List Nat :=
  (List.range g.length).flatMap fun j => List.replicate ((requires g j).count i) j

/-- The counts of requirements still to come, the nodes that are ready, least first, and the nodes
placed so far, in order. -/
structure Progress where
  missing : List Nat
  ready : List Nat
  placed : List Nat
  deriving DecidableEq, Repr

def addReady (i : Nat) : List Nat → List Nat
  | [] => [i]
  | j :: js => if i < j then i :: j :: js else if i = j then j :: js else j :: addReady i js

namespace Progress

def start (g : Graph) : Progress :=
  ⟨g.map List.length, (List.range g.length).filter fun i => (requires g i).isEmpty, []⟩

def missingOf (p : Progress) (i : Nat) : Nat := p.missing[i]?.getD 0

def release (p : Progress) (i : Nat) : Progress :=
  let left := p.missingOf i - 1
  { p with
    missing := p.missing.set i left
    ready := if left = 0 then addReady i p.ready else p.ready }

def step (g : Graph) (p : Progress) : Progress :=
  match p.ready with
  | [] => p
  | i :: rest =>
    -- a node that requires `i` several times is released as often
    (dependents g i).foldl release { p with ready := rest, placed := p.placed ++ [i] }

def steps (g : Graph) : Nat → Progress → Progress
  | 0, p => p
  | n + 1, p => steps g n (p.step g)

/-- The end of the process. Every step places a node of its own, so there are as many steps as
nodes at most. -/
def final (g : Graph) : Progress := steps g g.length (start g)

def waits (p : Progress) (i : Nat) : Bool := 0 < p.missingOf i

end Progress

def least? : List Nat → Option Nat
  | [] => none
  | i :: is =>
    match least? is with
    | none => some i
    | some j => some (min i j)

/-- Follows requirements that wait, the least at each node, until a node comes up again; the way
from there on is a cycle. The way never visits a node twice, so `fuel` is the number of nodes. -/
def chase (g : Graph) (waits : Nat → Bool) : (fuel : Nat) → (way : List Nat) → (i : Nat) → List Nat
  | 0, _, _ => []
  | fuel + 1, way, i =>
    match least? ((requires g i).filter waits) with
    | none => []
    | some j =>
      -- `i` is on the way now, so a node that requires itself closes a cycle
      let way := way ++ [i]
      if way.contains j then way.dropWhile (· ≠ j) else chase g waits fuel way j

def closeCycle (cycle : List Nat) : List Nat :=
  match least? cycle with
  | none => []
  | some i => cycle.dropWhile (· ≠ i) ++ cycle.takeWhile (· ≠ i) ++ [i]

def cycleOf (g : Graph) (waits : Nat → Bool) : List Nat :=
  match (List.range g.length).find? waits with
  | none => []
  | some i => closeCycle (chase g waits g.length [] i)

def sort (g : Graph) : Except (List Nat) (List Nat) :=
  let p := Progress.final g
  if p.placed.length = g.length then .ok p.placed else .error (cycleOf g p.waits)

end Overlay.Order
