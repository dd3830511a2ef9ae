import Overlay.Files
import Overlay.Log.Event
import Overlay.Record

namespace Overlay

inductive ReadFault where
  | missing
  | longPath
  | isDirectory
  | notUtf8
  deriving DecidableEq, Repr

def ReadFault.message : ReadFault → String
  | missing => "No such file or directory (os error 2)"
  | longPath => "File name too long (os error 36)"
  | isDirectory => "Is a directory (os error 21)"
  | notUtf8 => "stream did not contain valid UTF-8"

inductive LoadError where
  | missing (path : String)
  | unreadable (path : String) (fault : ReadFault)
  | unsearchable (searched path : String) (fault : ReadFault)
  deriving DecidableEq, Repr

def LoadError.messages : LoadError → List String
  | missing path => [s!"no such file or directory: {path}"]
  | unreadable path fault => [s!"reading {path}", fault.message]
  | unsearchable searched path fault =>
    [s!"walking {searched}", s!"IO error for operation on {path}: {fault.message}", fault.message]

namespace FileNode

def text : FileNode → Except ReadFault String
  | directory _ => .error .isDirectory
  | file bytes =>
    match String.fromUTF8? bytes with
    | some text => .ok text
    | none => .error .notUtf8

end FileNode

namespace Disk

def text (disk : Disk) (path : String) : Except ReadFault String :=
  match disk path with
  | some node => node.text
  | none => .error (if Path.isLong path then .longPath else .missing)

def hasExtension (extensions : List String) (fileName : String) : Bool :=
  match Path.extension? fileName with
  | none => false
  | some ext => extensions.any fun e => e.map Char.toLower = ext.map Char.toLower

mutual

/-- The path `own` of a file whose name passes, the paths of such files below a directory, or the
path of a directory that is too long to be searched. -/
def filesBelow (passes : String → Bool) (own : String) : FileNode → Except String (List String)
  | .file _ => .ok (if passes (Path.fileName own) then [own] else [])
  | .directory entries => if Path.isLong own then .error own else filesAmong passes own entries

def filesAmong (passes : String → Bool) (path : String) :
    List (String × FileNode) → Except String (List String)
  | [] => .ok []
  | (name, node) :: rest =>
    filesBelow passes (Path.join path name) node >>= fun first =>
      filesAmong passes path rest >>= fun others => .ok (first ++ others)

end

def expand (disk : Disk) (extensions : List String) (path : String) :
    Except LoadError (List String) :=
  match disk path with
  | none => .error (.missing path)
  | some (.file _) => .ok [path]
  | some (.directory entries) =>
    (filesAmong (hasExtension extensions) path entries).mapError fun long =>
      .unsearchable path long .longPath

def dropRepeats : List String → List String
  | [] => []
  | path :: rest =>
    match dropRepeats rest with
    | [] => [path]
    | next :: more =>
      if Path.compare path next = .eq then path :: more else path :: next :: more

def arrange (paths : List String) : List String :=
  dropRepeats (paths.mergeSort fun a b => (Path.compare a b).isLE)

def discover (disk : Disk) (paths extensions : List String) : Except LoadError (List String) := do
  return arrange (← paths.mapM (expand disk extensions)).flatten

def readSource (disk : Disk) (path : String) : Except LoadError Source :=
  match disk.text path with
  | .ok text => .ok ⟨path, text, none⟩
  | .error fault => .error (.unreadable path fault)

end Disk

def Source.loadedEvent (s : Source) : Event :=
  ⟨.debug, .loader, s!"loaded {s.name} ({s.text.utf8ByteSize} bytes)"⟩

/-- What stands at the paths, given what has been told so far: what is told may be kept in a file
that is itself among those that are read. -/
abbrev World := List Event → Disk

namespace World

def still (disk : Disk) : World := fun _ => disk

def readAll (world : World) (told : List Event) :
    List String → List Event × Except LoadError (List Source)
  | [] => ([], .ok [])
  | path :: rest =>
    match (world told).readSource path with
    | .error e => ([], .error e)
    | .ok source =>
      let event := source.loadedEvent
      let (events, sources) := world.readAll (told ++ [event]) rest
      (event :: events, sources.map (source :: ·))

def load (world : World) (told : List Event) (paths extensions : List String) :
    List Event × Except LoadError (List Source) :=
  match (world told).discover paths extensions with
  | .error e => ([], .error e)
  | .ok files => world.readAll told files

end World

end Overlay
