import Overlay.Name
import Overlay.Version.Requirement

namespace Overlay

open Version (Fault)

structure Dependency where
  identity : String
  requirement : Option Requirement
  deriving DecidableEq, Repr

instance : Named Dependency := ⟨Dependency.identity⟩

def endsIdentity (c : Char) : Bool :=
  Text.isBlank c || c == '<' || c == '>' || c == '=' || c == '^' || c == '~' || c == '*'

def Dependency.read (entry : String) : Except Fault Dependency :=
  let cs := Text.trimChars entry.toList
  let identity := String.ofList (cs.takeWhile fun c => !endsIdentity c)
  match Text.trimChars (cs.dropWhile fun c => !endsIdentity c) with
  | [] => .ok ⟨identity, none⟩
  | c :: rest => do
    let requirement ← Requirement.read (c :: rest)
    return ⟨identity, some requirement⟩

end Overlay
