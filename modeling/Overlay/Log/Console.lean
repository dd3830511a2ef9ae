import Overlay.Log.Event
import Overlay.Text.Colour

namespace Overlay

namespace Event

open Text (Colour)

def consoleLine (e : Event) : String :=
  let message := Colour.plain e.message
  match e.level, e.target with
  | .error, _ => s!"ERROR {message}"
  | .warn, _ => s!"WARN  {message}"
  | .info, .stage => s!"==> {message}"
  | .info, _ => s!"  {message}"
  | .debug, target | .trace, target => s!"  {target.shortText}: {message}"

def logLine? (time : String) (e : Event) : Option String :=
  let message := Colour.plain e.message
  match e.level, e.target with
  | .error, _ => some s!"[{time}]     [error] {message}"
  | .warn, _ => some s!"[{time}]     [warn] {message}"
  | .info, .stage => some s!"[{time}] ==> {message}"
  | .info, _ => some s!"[{time}]     {message}"
  | .debug, target => some s!"[{time}]     [debug] {target.shortText}: {message}"
  | .trace, _ => none

end Event

end Overlay
