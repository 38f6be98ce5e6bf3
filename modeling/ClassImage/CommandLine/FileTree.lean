import ClassImage.Bytes

/-!
# Files and paths

A file tree holds files and directories under absolute places, each the list of names that lead to
it from the root. A path names a place relative to a working directory; going through a name asks
that the place reached so far is a directory. A name has at most 255 bytes, a path at most 4095, and
neither holds a NUL character.
-/

namespace ClassImage.CommandLine

/-! ### Paths -/

/-- Cuts a text at its slashes; `piece` is the current piece, reversed, and `done` the pieces before
it, the latest first. -/
def splitOnto (piece : List Char) (done : List String) : List Char → List String
  | [] => ((String.ofList piece.reverse) :: done).reverse
  | '/' :: rest => splitOnto [] (String.ofList piece.reverse :: done) rest
  | c :: rest => splitOnto (c :: piece) done rest

/-- A way through a file tree. -/
structure Path where
  /-- Whether it starts at the root. -/
  absolute : Bool
  /-- The names to go through; two dots lead one up. -/
  names : List String
  /-- Whether what it leads to must be a directory, as a slash at the end asks. -/
  toDirectory : Bool
  /-- Whether what it leads to cannot be made, as a single dot at the end asks. -/
  toPresent : Bool
deriving DecidableEq, Repr

/-- The path that a text stands for. Empty names and single dots lead nowhere. -/
def Path.ofString (text : String) : Path :=
  let pieces := splitOnto [] [] text.toList
  let last := pieces.getLast?.getD ""
  { absolute := text.toList.head? == some '/'
    names := pieces.filter fun piece => piece ≠ "" ∧ piece ≠ "."
    toDirectory := last == "" || last == "."
    toPresent := (pieces.filter (· ≠ "")).getLast? == some "." }

/-- The path that leads on from a directory. An absolute path replaces it, and nothing is put in
front of a path from an empty one. -/
def joinPath (directory path : String) : String :=
  if path.toList.head? = some '/' then path
  else if directory = "" ∨ directory.toList.getLast? = some '/' then directory ++ path
  else directory ++ "/" ++ path

/-- A path, given from its end, without the slashes and single dots that it ends in. -/
def trimPathEnd : List Char → List Char
  | [] => []
  | c :: rest =>
    if c = '/' ∧ rest ≠ [] ∨ c = '.' ∧ rest.head? = some '/' then trimPathEnd rest else c :: rest

/-- The directory in which the last name of a path stands; empty if that is the working
directory. -/
def parentPath (path : String) : String :=
  String.ofList (trimPathEnd ((trimPathEnd path.toList.reverse).dropWhile (· ≠ '/'))).reverse

/-- Whether a path can be used at all. -/
def isUsablePath (path : String) : Bool :=
  path.utf8ByteSize < 4096 && !path.toList.contains '\x00'

/-! ### File trees -/

/-- What stands at a place. -/
inductive Node where
  | file (content : Bytes)
  | directory
deriving DecidableEq, Repr

/-- Files and directories under their places. The root is a directory. -/
structure FileTree where
  nodes : List (List String × Node)
deriving DecidableEq, Repr

/-- What a change leaves of a file tree, and whether it could be made to its end. -/
structure Attempt where
  tree : FileTree
  complete : Bool
deriving DecidableEq, Repr

/-- The tree after a complete change, and another one if the change could not be made to its end. -/
def Attempt.getD (attempt : Attempt) (tree : FileTree) : FileTree :=
  if attempt.complete then attempt.tree else tree

namespace FileTree

/-- What stands at a place. -/
def node? (tree : FileTree) (place : List String) : Option Node :=
  if place = [] then some .directory else tree.nodes.lookup place

/-- The tree with a new node at a place. -/
def set (tree : FileTree) (place : List String) (node : Node) : FileTree :=
  ⟨(place, node) :: tree.nodes.filter fun entry => entry.1 ≠ place⟩

/-- The place one name further. -/
def step (place : List String) (name : String) : Option (List String) :=
  if name = ".." then some place.dropLast
  else if name.utf8ByteSize ≤ 255 then some (place ++ [name])
  else none

/-- The place that names lead to. Each name is looked up in a directory; only what the last one
leads to need not exist. -/
def walk (tree : FileTree) : List String → List String → Option (List String)
  | place, [] => some place
  | place, name :: rest =>
    match tree.node? place with
    | some .directory =>
      match step place name with
      | some place => tree.walk place rest
      | none => none
    | _ => none

/-- The place that a path leads to from a working directory. -/
def place? (tree : FileTree) (working : List String) (path : String) : Option (List String) :=
  let way := Path.ofString path
  if isUsablePath path then tree.walk (if way.absolute then [] else working) way.names else none

/-- What a path leads to. -/
def lookup? (tree : FileTree) (working : List String) (path : String) : Option Node := do
  let node ← tree.node? (← tree.place? working path)
  match node with
  | .file _ => if (Path.ofString path).toDirectory then none else some node
  | .directory => some node

/-- Makes the directory at a place, unless it is there. -/
def makeDirectory (tree : FileTree) (place : List String) : Option FileTree :=
  match tree.node? place with
  | none => some (tree.set place .directory)
  | some .directory => some tree
  | some (.file _) => none

/-- Makes the directories that names lead through, one after the other. Those made before one that
cannot be made stay. -/
def makeDirectoriesFrom (tree : FileTree) : List String → List String → Attempt
  | _, [] => ⟨tree, true⟩
  | place, name :: rest =>
    match tree.node? place with
    | some .directory =>
      match step place name with
      | none => ⟨tree, false⟩
      | some place =>
        match tree.makeDirectory place with
        | none => ⟨tree, false⟩
        | some tree => tree.makeDirectoriesFrom place rest
    | _ => ⟨tree, false⟩

/-- Makes the directory that a path leads to, with those on the way. If the path ends in a single
dot, the directory itself must be there. -/
def makeDirectories (tree : FileTree) (working : List String) (path : String) : Attempt :=
  let way := Path.ofString path
  let start := if way.absolute then [] else working
  if !isUsablePath path then ⟨tree, false⟩
  else if way.toPresent then
    let attempt := tree.makeDirectoriesFrom start way.names.dropLast
    { attempt with
      complete := attempt.complete && attempt.tree.lookup? working path == some .directory }
  else tree.makeDirectoriesFrom start way.names

/-- Writes the file that a path leads to; its directory must be there. -/
def writeFile (tree : FileTree) (working : List String) (path : String) (content : Bytes) :
    Attempt :=
  match tree.place? working path with
  | none => ⟨tree, false⟩
  | some place =>
    if tree.node? place = some .directory ∨ (Path.ofString path).toDirectory then ⟨tree, false⟩
    else ⟨tree.set place (.file content), true⟩

/-- The names in a directory, in order. -/
def names (tree : FileTree) (place : List String) : List String :=
  (tree.nodes.filterMap fun (other, _) =>
    if other.dropLast = place then other.getLast? else none).mergeSort fun a b => a ≤ b

/-- The files in and below a directory with their paths, which start with `path`. Directories are
entered where their names stand in order. The first argument bounds the depth. -/
def filesFrom (tree : FileTree) : Nat → List String → String → List (String × Bytes)
  | 0, _, _ => []
  | depth + 1, place, path =>
    (tree.names place).flatMap fun name =>
      let place := place ++ [name]
      let path := joinPath path name
      match tree.node? place with
      | some (.file content) => [(path, content)]
      | some .directory => tree.filesFrom depth place path
      | none => []

/-- The files in and below a directory with their paths. -/
def files (tree : FileTree) (place : List String) (path : String) : List (String × Bytes) :=
  tree.filesFrom (tree.nodes.length + 1) place path

end FileTree

end ClassImage.CommandLine
