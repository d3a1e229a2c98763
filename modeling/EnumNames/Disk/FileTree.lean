import EnumNames.Disk.Operations

/-!
A disk held in memory: files, directories and links under one root. It decides like a file system
where a path leads and with which error an operation fails.
-/

namespace EnumNames

/-- The name of the place itself comes first, the name next to the root last. -/
abbrev Location := List String

inductive Node where
  | file (bytes : ByteArray)
  | directory
  | link (target : String)

/-- The first node of a location counts. -/
structure FileTree where
  nodes : List (Location × Node)
  workingDirectory : Location

namespace FileTree

/-- The root is always a directory. -/
def node? (tree : FileTree) (location : Location) : Option Node :=
  if location = [] then some .directory else tree.nodes.lookup location

def erase (tree : FileTree) (location : Location) : FileTree :=
  { tree with nodes := tree.nodes.filter (·.1 ≠ location) }

def insert (tree : FileTree) (location : Location) (node : Node) : FileTree :=
  { tree with nodes := (location, node) :: (tree.erase location).nodes }

/-- Only the working directory and the directories above it exist. -/
def start (workingDirectory : Location) : FileTree :=
  let above := (List.range workingDirectory.length).map workingDirectory.drop
  { nodes := above.map fun location => (location, .directory), workingDirectory }

/-- The path starts at the working directory. -/
def relativePath? (tree : FileTree) (location : Location) : Option String :=
  let depth := location.length - tree.workingDirectory.length
  if 0 < depth ∧ location.drop depth = tree.workingDirectory then
    some ("/".intercalate (location.take depth).reverse)
  else
    none

/-- This is everything in the working directory and below it. -/
def listing (tree : FileTree) : List (String × Node) :=
  tree.nodes.filterMap fun (location, node) =>
    (tree.relativePath? location).map fun path => (path, node)

/-- A path leads to a node or to a free place in a directory. The mark tells that the last name had
a slash behind it. -/
structure Place where
  location : Location
  node : Option Node
  hasSlash : Bool

/-- Following more links than this counts as a loop. -/
def linkLimit : Nat := 40

def nameLimit : Nat := 255

def pathLimit : Nat := 4096

/-- Empty segments do not matter, except behind the last name. -/
def names (path : String) : List String := (Path.segments path).filter (· ≠ "")

def origin (here : Location) (path : String) : Location :=
  if Path.isAbsolute path then [] else here

/-- An operation treats the last name of a path in one of these ways: it looks at the node itself,
it follows a link, or it follows a link and makes a file where there is none. -/
inductive LastName where
  | itself
  | followed
  | written
  deriving DecidableEq, Repr, Inhabited

/-- The walk stands in a directory and goes on by the remaining names. The target of a link is
followed from the directory of the link. -/
def walk (tree : FileTree) (last : LastName) (hasSlash : Bool) (links : Nat) (here : Location) :
    List String → Except OsError Place
  | [] => .ok ⟨here, some .directory, hasSlash⟩
  | name :: rest =>
    if name = "." then walk tree last hasSlash links here rest
    else if name = ".." then walk tree last hasSlash links here.tail rest
    else if rest = [] ∧ last = .written ∧ hasSlash then .error .isDirectory
    else if nameLimit < name.utf8ByteSize then .error .nameTooLong
    else
      match tree.node? (name :: here) with
      | none => if rest = [] then .ok ⟨name :: here, none, hasSlash⟩ else .error .noEntry
      | some .directory => walk tree last hasSlash links (name :: here) rest
      | some (.file bytes) =>
        if rest = [] then .ok ⟨name :: here, some (.file bytes), hasSlash⟩
        else .error .notDirectory
      | some (.link target) =>
        if rest = [] ∧ last = .itself then .ok ⟨name :: here, some (.link target), hasSlash⟩
        else
          match links with
          | 0 => .error .linkLoop
          | links + 1 =>
            if target = "" then .error .noEntry
            else
              walk tree last (hasSlash || (rest = [] && Path.endsWithSlash target)) links
                (origin here target) (names target ++ rest)
termination_by rest => (links, rest.length)

def hasZero (path : String) : Bool := path.toList.contains '\x00'

/-- This is where a path of any length leads. -/
def resolve (tree : FileTree) (last : LastName) (path : String) : Except OsError Place :=
  if hasZero path then .error .zeroInPath
  else if path = "" then .error .noEntry
  else
    tree.walk last (Path.endsWithSlash path) linkLimit (origin tree.workingDirectory path)
      (names path)

def checkLength (path : String) : Except OsError Unit :=
  if pathLimit ≤ path.utf8ByteSize then .error .nameTooLong else .ok ()

/-- An operation takes no path that is too long, however short the path to the same place is. -/
def find (tree : FileTree) (last : LastName) (path : String) : Except OsError Place := do
  if ¬ hasZero path then
    checkLength path
  tree.resolve last path

/-- Only a directory may have a slash behind its name. -/
def Place.existing (place : Place) : Except OsError (Location × Node) :=
  match place.node with
  | none => .error .noEntry
  | some (.file bytes) =>
    if place.hasSlash then .error .notDirectory else .ok (place.location, .file bytes)
  | some node => .ok (place.location, node)

def follow (tree : FileTree) (path : String) : Except OsError (Location × Node) := do
  (← tree.find .followed path).existing

def kind (tree : FileTree) (path : String) : Except OsError FileKind := do
  match ← tree.follow path with
  | (_, .directory) => return .directory
  | _ => return .file

/-- The path from the root names no links. Segments are followed one by one, so that only the path
from the root can be too long. -/
def canonical (tree : FileTree) (path : String) : Except OsError String := do
  let (location, _) ← (← tree.resolve .followed path).existing
  let text := "/" ++ "/".intercalate location.reverse
  checkLength text
  return text

def read (tree : FileTree) (path : String) : Except OsError ByteArray := do
  match ← tree.follow path with
  | (_, .file bytes) => return bytes
  | _ => throw .isDirectory

/-- A file is replaced or made, but never a directory. -/
def write (tree : FileTree) (path : String) (bytes : ByteArray) : Except OsError FileTree := do
  let place ← tree.find .written path
  match place.node with
  | some .directory => throw .isDirectory
  | _ => return tree.insert place.location (.file bytes)

/-- Nothing is replaced, and only a directory may have a slash behind its name. -/
def makeNode (tree : FileTree) (path : String) (node : Node) : Except OsError FileTree := do
  let place ← tree.find .itself path
  match place.node, node with
  | some _, _ => throw .alreadyExists
  | none, .directory => return tree.insert place.location node
  | none, node =>
    if place.hasSlash then throw .noEntry else return tree.insert place.location node

def makeDirectory (tree : FileTree) (path : String) : Except OsError FileTree :=
  tree.makeNode path .directory

/-- A link may lead to nothing. -/
def makeLink (tree : FileTree) (path target : String) : Except OsError FileTree :=
  tree.makeNode path (.link target)

/-- A link is removed, not what it leads to. -/
def remove (tree : FileTree) (path : String) : Except OsError FileTree := do
  let place ← tree.find .itself path
  match place.node with
  | none => throw .noEntry
  | some .directory => throw .isDirectory
  | some _ => if place.hasSlash then throw .notDirectory else return tree.erase place.location

/-- An operation that fails changes nothing. -/
def change (operation : FileTree → Except OsError FileTree) :
    StateM FileTree (Except OsError Unit) := fun tree =>
  match operation tree with
  | .ok next => (.ok (), next)
  | .error cause => (.error cause, tree)

instance : Disk (StateM FileTree) where
  kind path := fun tree => (tree.kind path, tree)
  canonical path := fun tree => (tree.canonical path, tree)
  read path := fun tree => (tree.read path, tree)
  write path bytes := change (·.write path bytes)
  makeDirectory path := change (·.makeDirectory path)
  remove path := change (·.remove path)

end FileTree

end EnumNames
