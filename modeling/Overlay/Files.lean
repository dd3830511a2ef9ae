import Overlay.Entries
import Overlay.Files.Path

namespace Overlay

inductive FileNode where
  | file (bytes : ByteArray)
  | directory (entries : List (String × FileNode))

namespace FileNode

def at? : FileNode → List String → Option FileNode
  | node, [] => some node
  | file _, _ :: _ => none
  | directory entries, name :: names => (entries.lookup name).bind fun inner => inner.at? names

def put (new : FileNode) : List String → FileNode → FileNode
  | [], _ => new
  | _ :: _, file bytes => file bytes
  | [name], directory entries => directory (Entries.put name new entries)
  | name :: names, directory entries =>
    match entries.lookup name with
    | some inner => directory (Entries.put name (put new names inner) entries)
    | none => directory entries

/-- What segments of a path lead to, as the names from the root. A dot, or nothing between slashes,
asks for a directory and stays there; two dots lead to the directory above, and at the root stay. -/
def follow (root : FileNode) (here : List String) : List String → Option (List String)
  | [] => some here
  | segment :: rest =>
    match root.at? here with
    | some (directory entries) =>
      if segment = "" ∨ segment = "." then follow root here rest
      else if segment = ".." then follow root here.dropLast rest
      else
        match entries.lookup segment with
        | some _ => follow root (here ++ [segment]) rest
        | none => none
    | _ => none

/-- Makes the directories that are missing along segments, one after the other, and tells whether
the segments lead to a directory then. What has been made stays in any case. -/
def makeAlong (root : FileNode) (here : List String) : List String → FileNode × Bool
  | [] => (root, true)
  | segment :: rest =>
    if segment = "" ∨ segment = "." then makeAlong root here rest
    else if segment = ".." then makeAlong root here.dropLast rest
    else
      let names := here ++ [segment]
      match root.at? names with
      | some (directory _) => makeAlong root names rest
      | some (file _) => (root, false)
      | none =>
        if Path.isLongName segment then (root, false)
        else makeAlong ((directory []).put names root) names rest

end FileNode

abbrev Disk := String → Option FileNode

structure FileSystem where
  root : FileNode
  working : List String

namespace FileSystem

def empty (working : List String) : FileSystem :=
  ⟨((FileNode.directory []).makeAlong [] working).1, working⟩

def start (files : FileSystem) (path : String) : List String :=
  if path.startsWith "/" then [] else files.working

def resolve (files : FileSystem) (path : String) : Option (List String) :=
  if path.isEmpty || Path.isLong path then none
  else files.root.follow (files.start path) (Path.segments path)

def look (files : FileSystem) : Disk := fun path => (files.resolve path).bind files.root.at?

def makeDirectory (files : FileSystem) (path : String) : FileSystem × Bool :=
  if Path.isLong path then (files, false)
  else
    let (root, made) := files.root.makeAlong (files.start path) (Path.segments path)
    ({ files with root := root }, made)

/-- Writes a file, in place of the file that is there. Without a directory to write it into, or with
a directory at the path, nothing happens. -/
def write (files : FileSystem) (path : String) (bytes : ByteArray) : FileSystem :=
  let name := Path.fileName path
  if Path.isLong path || Path.isLongName name || Path.inner? name ≠ some (.name name) then files
  else
    match files.root.follow (files.start path) (Path.segments path).dropLast with
    | none => files
    | some here =>
      let names := here ++ [name]
      match files.root.at? names with
      | some (.directory _) => files
      | _ => { files with root := (FileNode.file bytes).put names files.root }

def place (files : FileSystem) (path : String) : FileNode → FileSystem
  | .file bytes => (files.makeDirectory (Path.parent path)).1.write path bytes
  | .directory entries =>
    let files := (files.makeDirectory path).1
    match files.resolve path with
    | none => files
    | some names => { files with root := (FileNode.directory entries).put names files.root }

end FileSystem

end Overlay
