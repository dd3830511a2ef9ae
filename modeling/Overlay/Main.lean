import Overlay.Program
import Std.Time.Format

namespace Overlay.Program

/-- Reads a file, or a directory with those of the files in it whose names pass. -/
partial def readNode (passes : String → Bool) (path : String) : IO (Option FileNode) := do
  if path.isEmpty then return none
  let place := (← IO.currentDir) / path
  if ← place.isDir then
    let listed ← place.readDir
    let entries ← listed.toList.filterMapM fun entry => do
      let name := entry.fileName
      if passes name || (← entry.path.isDir) then
        return (← readNode passes (Path.join path name)).map fun node => (name, node)
      else return none
    return some (.directory entries)
  else if ← place.pathExists then return some (.file (← IO.FS.readBinFile place))
  else return none

/-- Adds what stands at some paths. Directories come first, so that no file given by its own path is
lost with one that it lies in. -/
def readPaths (passes : String → Bool) (files : FileSystem) (paths : List String) :
    IO FileSystem := do
  let nodes ← paths.filterMapM fun path => do
    return (← readNode passes path).map fun node => (path, node)
  let (directories, plain) := nodes.partition fun (_, node) => node matches .directory _
  return (directories ++ plain).foldl (fun files (path, node) => files.place path node) files

def readFiles (i : Invocation) : IO FileSystem := do
  let working := (Path.segments (← IO.currentDir).toString).filter (!·.isEmpty)
  let settingsPath := i.config.getD Settings.defaultPath
  let bare ← readPaths (fun _ => false) (.empty working) [settingsPath]
  let settings := (Settings.load bare.look settingsPath).toOption.getD .default
  let files ← readPaths (Disk.hasExtension settings.extensions) (.empty working) i.command.paths
  readPaths (fun _ => false) files [settingsPath]

def readClock : IO Clock := do
  let time := Std.Time.PlainDateTime.ofWallTime (.ofTimestamp (← Std.Time.Timestamp.now) .zero)
  return ⟨time.format "uuuu-MM-dd HH:mm:ss" ++ " UTC", time.format "HH:mm:ss.SSS"⟩

def makeLogPath (env : Environment) (command : CommandName) : IO (Option String) := do
  match logDirectory? env with
  | none => return none
  | some directory =>
    try
      IO.FS.createDirAll directory
      return some (Path.join directory (logName command))
    catch _ => return none

def keepLog (path text : String) : IO Bool := do
  try
    IO.FS.writeFile path text
    return true
  catch _ => return false

/-- Runs a command and gives back the code to end with. The log holds all that has been told when
the run is over; what a run would find in it meanwhile is put among the files that are read. -/
def execute (i : Invocation) : IO UInt32 := do
  let env : Environment :=
    ⟨← IO.getEnv "XDG_CACHE_HOME", ← IO.getEnv "HOME", ← IO.getEnv "RUST_LOG"⟩
  let clock ← readClock
  let command := i.command.name
  let log ← makeLogPath env command
  let kept ← log.filterM fun path => keepLog path (logText command clock [])
  let world := worldWith (← readFiles i) kept (logText command clock)
  let transcript := run world env clock log i
  if let some path := kept then
    let _ ← keepLog path transcript.log
  IO.print transcript.output
  IO.eprint transcript.errors
  return transcript.exitCode.toUInt32

end Overlay.Program

def main (args : List String) : IO UInt32 := do
  match Overlay.Program.plan args with
  | .refuse =>
    IO.eprint Overlay.Program.usage
    return 2
  | .answer text =>
    IO.print text
    return 0
  | .work i => Overlay.Program.execute i
