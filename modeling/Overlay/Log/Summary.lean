import Overlay.Session
import Overlay.Text.Colour

namespace Overlay

open Text (Colour)

structure SummaryLine where
  source : String
  identity : Option String
  status : FragmentStatus
  message : Option String
  deriving DecidableEq, Repr

abbrev Summary := List SummaryLine

def FragmentStatus.icon : FragmentStatus → String
  | merged => "✓"
  | skipped => "○"
  | failed => "✗"

def FragmentStatus.colour : FragmentStatus → Colour
  | merged => .green
  | skipped => .yellow
  | failed => .red

def FragmentStatus.name : FragmentStatus → String
  | merged => "merged"
  | skipped => "skipped"
  | failed => "failed"

namespace SummaryLine

/-- The identity with the source, or the source alone where the identity says no more. -/
def label (l : SummaryLine) : String :=
  match l.identity with
  | some identity => if identity = l.source then l.source else s!"{identity} ({l.source})"
  | none => l.source

def text (l : SummaryLine) : String :=
  let reason := match l.message with
    | some message => s!" ({message})"
    | none => ""
  l.status.colour.paint s!"{l.status.icon} {l.label}{reason}"

end SummaryLine

namespace Summary

def ofReport (r : Report) : Summary :=
  r.fragments.map fun f =>
    { source := f.source
      identity := f.identity
      status := f.status
      message := (r.errors.find? fun e => e.index = f.index).map FragmentError.message }

def ofErrors (errors : List FragmentError) : Summary :=
  errors.map fun e => ⟨e.source, none, .failed, none⟩

def count (s : Summary) (status : FragmentStatus) : Nat := s.countP fun l => l.status = status

def total (s : Summary) (status : FragmentStatus) : String :=
  status.colour.paint s!"{s.count status} {status.name}"

def texts (s : Summary) (log : Option String) : List String :=
  let totals := ", ".intercalate ([.merged, .skipped, .failed].map s.total)
  s.map SummaryLine.text ++ [s!"{s.length} fragments: {totals}"] ++
    (log.map fun path => Colour.dim.paint s!"log: {path}").toList

def events (s : Summary) (log : Option String) : List Event :=
  if s.isEmpty then []
  else ⟨.info, .stage, "Summary"⟩ :: (s.texts log).map fun text => ⟨.info, .summary, text⟩

end Summary

end Overlay
