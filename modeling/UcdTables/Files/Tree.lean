import UcdTables.Files.Failure
import UcdTables.Text.Fields

/-!
# A tree of files

The files and directories that a program sees, and how a path leads to one of them. A path is
followed name by name from the root or from the working directory, and every name but the last has
to lead to a directory.

* `FileTree.readText` reads a file as a text.
* `FileTree.write` makes a file or replaces what it holds. It changes no other file, and it makes
  no directory.
-/

namespace UcdTables

/-- What stands at a place of the tree. -/
inductive FileNode where
  | directory
  | file (contents : ByteArray)

/-- The names on the way from the root to a place. -/
abbrev Place := List String

/-- The places that are taken, and the working directory. The root is a directory. -/
structure FileTree where
  nodes : List (Place × FileNode)
  workingDirectory : Place

/-- A path: the names on it, where they start, and whether a slash ends it. -/
structure Path where
  absolute : Bool
  names : List String
  slashEnds : Bool
  deriving DecidableEq

namespace Path

/-- The greatest number of bytes of a path. -/
def maxBytes : Nat := 4095

/-- The greatest number of bytes of a name on a path. -/
def maxNameBytes : Nat := 255

/-- The path that a text writes. Several slashes count as one. -/
def ofText (text : String) : Except FileFailure Path :=
  let chars := text.toList
  if chars = [] then .error .notFound
  else if '\x00' ∈ chars then .error .nulInPath
  else if maxBytes < text.utf8ByteSize then .error .nameTooLong
  else .ok {
    absolute := chars.head? = some '/'
    names := ((Text.fields '/' chars).filter (· ≠ [])).map String.ofList
    slashEnds := chars.getLast? = some '/' }

end Path

namespace FileTree

/-- What stands at a place. -/
def node? (t : FileTree) (place : Place) : Option FileNode :=
  if place = [] then some .directory else t.nodes.lookup place

/-- Whether a directory stands at a place. -/
def isDirectory (t : FileTree) (place : Place) : Bool :=
  match t.node? place with
  | some .directory => true
  | some (.file _) | none => false

/-- The tree with a node at a place, instead of what stood there. -/
def put (t : FileTree) (place : Place) (node : FileNode) : FileTree :=
  { t with nodes := (place, node) :: t.nodes.filter (·.1 ≠ place) }

/-- The tree with directories at a place and on the way to it. -/
def addDirectory (t : FileTree) (place : Place) : FileTree :=
  (List.range place.length).foldl (fun t n => t.put (place.take (n + 1)) .directory) t

/-- The tree with a file at a place and directories on the way to it. -/
def addFile (t : FileTree) (place : Place) (contents : ByteArray) : FileTree :=
  (t.addDirectory place.dropLast).put place (.file contents)

/-- A tree of nothing but the working directory and the directories on the way to it. -/
def ofWorkingDirectory (place : Place) : FileTree := (FileTree.mk [] place).addDirectory place

/-- Where a name leads from a directory. -/
def step (t : FileTree) (here : Place) (name : String) : Except FileFailure Place :=
  if name = "." then .ok here
  else if name = ".." then .ok here.dropLast
  else if Path.maxNameBytes < name.utf8ByteSize then .error .nameTooLong
  else if (t.node? (here ++ [name])).isSome then .ok (here ++ [name])
  else .error .notFound

/-- Where a list of names leads. Each name is looked up in a directory. -/
def walk (t : FileTree) (here : Place) : List String → Except FileFailure Place
  | [] => .ok here
  | name :: names =>
    if t.isDirectory here then do
      let next ← t.step here name
      t.walk next names
    else .error .notADirectory

/-- Where a path starts. -/
def start (t : FileTree) (path : Path) : Place := if path.absolute then [] else t.workingDirectory

/-- Reads the file at a path. -/
def read (t : FileTree) (path : String) : Except FileFailure ByteArray := do
  let path ← Path.ofText path
  let place ← t.walk (t.start path) path.names
  match t.node? place with
  | some (.file contents) => if path.slashEnds then throw .notADirectory else pure contents
  | some .directory => throw .isADirectory
  | none => throw .notFound

/-- Reads the file at a path as a text. -/
def readText (t : FileTree) (path : String) : Except FileFailure String := do
  let contents ← t.read path
  match String.fromUTF8? contents with
  | some text => pure text
  | none => throw .notText

/-- The place that a path names for a file to be written. -/
def target (t : FileTree) (path : Path) : Except FileFailure Place :=
  match path.names.getLast? with
  | none => .error .isADirectory
  | some name => do
    let parent ← t.walk (t.start path) path.names.dropLast
    if !t.isDirectory parent then throw .notADirectory
    else if path.slashEnds || name = "." || name = ".." then throw .isADirectory
    else if Path.maxNameBytes < name.utf8ByteSize then throw .nameTooLong
    else if t.isDirectory (parent ++ [name]) then throw .isADirectory
    else pure (parent ++ [name])

/-- Writes a text to the file at a path. -/
def write (t : FileTree) (path : String) (text : String) : Except FileFailure FileTree := do
  let place ← t.target (← Path.ofText path)
  pure (t.put place (.file text.toUTF8))

/-- The files of the tree. -/
def files (t : FileTree) : List (Place × ByteArray) :=
  t.nodes.filterMap fun
    | (place, .file contents) => some (place, contents)
    | (_, .directory) => none

end FileTree

end UcdTables
