import Overlay.Log.Event
import Overlay.Tree.Merge

namespace Overlay

inductive MergeStep where
  | skip (name : String)
  | override (scope : List String) (name : String)
  | create (scope : List String) (name : String)
  | appendToNothing (property : String)
  | appendOverScalar (property : String)
  | changeShape (property : String)
  | applied
  deriving DecidableEq, Repr

namespace MergeStep

def pathText (scope : List String) (name : String) : String := ".".intercalate (scope ++ [name])

def event (source : String) : MergeStep → Event
  | skip name => ⟨.trace, .merge, s!"{source}: forward declaration of '{name}' skipped"⟩
  | override scope name => ⟨.debug, .merge, s!"{source}: override " ++ pathText scope name⟩
  | create scope name => ⟨.debug, .merge, s!"{source}: create " ++ pathText scope name⟩
  | appendToNothing property =>
    ⟨.debug, .merge, s!"{source}: '{property}' += with no existing array, treated as assignment"⟩
  | appendOverScalar property =>
    ⟨.warn, .merge, s!"{source}: '{property}' += over a scalar, treated as assignment"⟩
  | changeShape property =>
    ⟨.warn, .merge, s!"{source}: '{property}' changes between scalar and array"⟩
  | applied => ⟨.debug, .merge, s!"applied {source}"⟩

def ofProperty (c : Class) (p : Property) : List MergeStep :=
  match c.property? (keyOf p) with
  | none => if p.append then [appendToNothing p.name] else []
  | some m =>
    if p.append then
      if m.value.isArray && p.value.isArray then [] else [appendOverScalar p.name]
    else if m.value.isArray != p.value.isArray then [changeShape p.name]
    else []

def ofProperties (c : Class) : List Property → List MergeStep
  | [] => []
  | p :: ps => ofProperty c p ++ ofProperties (c.assign p) ps

def ofHead (t : Tree) (scope : List String) (name : String) (base : Option String)
    (properties : List Property) : List MergeStep :=
  match t.seed scope name base with
  | .error _ => []
  | .ok seed =>
    match (t.at? scope).bind fun level => level.child? (nameKey name) with
    | some c => override scope name :: ofProperties c properties
    | none => create scope name :: ofProperties (.seeded name seed) properties

end MergeStep

/-- What merging results in, with the steps on the way. After a failure there are no more steps. -/
structure TracedMerge where
  steps : List MergeStep
  result : Except UnknownBase Tree

namespace TracedMerge

def andThen (m : TracedMerge) (next : Tree → TracedMerge) : TracedMerge :=
  match m.result with
  | .error e => ⟨m.steps, .error e⟩
  | .ok t =>
    let further := next t
    ⟨m.steps ++ further.steps, further.result⟩

@[simp] theorem result_andThen (m : TracedMerge) (next : Tree → TracedMerge) :
    (m.andThen next).result = m.result >>= fun t => (next t).result := by
  unfold andThen
  cases m.result <;> rfl

end TracedMerge

namespace Tree

def enterTraced (t : Tree) (scope : List String) (name : String) (base : Option String)
    (properties : List Property) : TracedMerge :=
  ⟨MergeStep.ofHead t scope name base properties, t.enter scope name base properties⟩

mutual

def declareTraced (t : Tree) (scope : List String) : Declaration → TracedMerge
  | .forward name _ => ⟨[.skip name], .ok t⟩
  | .body name base properties children _ =>
    (t.enterTraced scope name base properties).andThen fun t =>
      declareAllTraced t (scope ++ [nameKey name]) children

def declareAllTraced (t : Tree) (scope : List String) : List Declaration → TracedMerge
  | [] => ⟨[], .ok t⟩
  | d :: ds => (declareTraced t scope d).andThen fun t => declareAllTraced t scope ds

end

mutual

/-- Telling the steps makes no difference to the result. -/
theorem result_declareTraced (t : Tree) (scope : List String) :
    (d : Declaration) → (t.declareTraced scope d).result = t.declare scope d
  | .forward _ _ => by simp only [declareTraced, declare]
  | .body name _ _ children _ => by
    simp only [declareTraced, declare, TracedMerge.result_andThen, enterTraced]
    congr 1
    funext t
    exact result_declareAllTraced t (scope ++ [nameKey name]) children

theorem result_declareAllTraced (t : Tree) (scope : List String) :
    (ds : List Declaration) → (t.declareAllTraced scope ds).result = t.declareAll scope ds
  | [] => by simp only [declareAllTraced, declareAll]
  | d :: ds => by
    simp only [declareAllTraced, declareAll, TracedMerge.result_andThen,
      result_declareTraced t scope d]
    congr 1
    funext t
    exact result_declareAllTraced t scope ds

end

def applyEvents (t : Tree) (source : String) (forest : Forest) : List Event :=
  let done := (t.declareAllTraced [] forest).andThen fun t => ⟨[.applied], .ok t⟩
  done.steps.map (·.event source)

def applyAllEvents (t : Tree) : List (String × Forest) → List Event
  | [] => []
  | (source, forest) :: rest =>
    t.applyEvents source forest ++
      match t.apply source forest with
      | .ok t => t.applyAllEvents rest
      | .error _ => []

end Tree

end Overlay
