/-
  A tree of files in memory, and the paths that lead through it.

  A path is followed component by component. What a component is looked up in has to be a
  directory, so `missing/../file` leads nowhere, and neither does `file/..`.
-/
import PropCalc.Storage

namespace PropCalc

/-- What a name in a directory stands for. -/
inductive FileNode
  | directory
  /-- Of contents that are no text nothing is kept. -/
  | file (content : Option String)
  /-- A device that reads as empty. What is written to it is lost, unless it is refused. -/
  | sink (refusal : Option FileError)
  deriving DecidableEq, Repr

/-- Files by their places, which are the names that lead to them from the root. -/
structure FileTree where
  nodes : List (List String × FileNode)
  /-- The working directory, where relative paths start. -/
  home : List String
  deriving DecidableEq, Repr

namespace FileTree

/-- The most bytes that a name may have. -/
def nameBound : Nat := 255

/-- The most bytes that a path may have. -/
def pathBound : Nat := 4095

/-- What is at a place. The working directory exists, and so does all that lies above it or
    above a node. -/
def node? (t : FileTree) (place : List String) : Option FileNode :=
  match t.nodes.lookup place with
  | some node => some node
  | none =>
    if place.isPrefixOf t.home || t.nodes.any fun (other, _) => place.isPrefixOf other then
      some .directory
    else none

/-- The place with a node put there instead of what it held. -/
def put (t : FileTree) (place : List String) (node : FileNode) : FileTree :=
  { t with nodes := (place, node) :: t.nodes.filter fun (other, _) => other ≠ place }

/-! ## Paths -/

/-- The place that a component leads to from another place. Nothing need be there. Above the
    root is the root. -/
def enter (t : FileTree) (place : List String) (component : String) :
    Except FileError (List String) :=
  match t.node? place with
  | none => .error .notFound
  | some .directory =>
    if component ∈ ["", "."] then .ok place
    else if component = ".." then .ok place.dropLast
    else if component.utf8ByteSize > nameBound then .error .nameTooLong
    else .ok (place ++ [component])
  | some _ => .error .notDirectory

/-- What stands between the slashes of a path. -/
def components (path : String) : Except FileError (List String) :=
  if '\x00' ∈ path.toList then .error .nulInPath
  else if path.utf8ByteSize > pathBound then .error .nameTooLong
  else if path.isEmpty then .error .notFound
  else .ok ((path.toList.splitOn '/').map String.ofList)

/-- The place that components lead to. An absolute path has an empty one in front. -/
def follow (t : FileTree) (components : List String) : Except FileError (List String) :=
  components.foldlM t.enter (if components.head? = some "" then [] else t.home)

/-- The components to follow for writing. A name with slashes after it can only be a
    directory's, so it is not looked up: writing fails as it does for the directory that the
    name would be in. -/
def writingComponents (components : List String) : List String :=
  match components.reverse with
  | "" :: before =>
    match before.dropWhile (·.isEmpty) with
    | [] => components
    | name :: above => if name ∈ [".", ".."] then components else above.reverse ++ ["."]
  | _ => components

/-! ## Files -/

/-- Reads a file. -/
def read (t : FileTree) (path : String) : Except FileError String := do
  match t.node? (← t.follow (← components path)) with
  | none => .error .notFound
  | some .directory => .error .isDirectory
  | some (.file none) => .error .notText
  | some (.file (some text)) => .ok text
  | some (.sink _) => .ok ""

/-- Puts a text into a file that may be new. -/
def write (t : FileTree) (path text : String) : Except FileError FileTree := do
  let place ← t.follow (writingComponents (← components path))
  match t.node? place with
  | some .directory => .error .isDirectory
  | some (.sink (some reason)) => .error reason
  | some (.sink none) => .ok t
  | _ => .ok (t.put place (.file (some text)))

/-- The tree as a storage. -/
def storage : Storage (StateM FileTree) where
  read path := do return (← get).read path
  write path text := do
    match (← get).write path text with
    | .ok t => set t; return .ok ()
    | .error e => return .error e

end FileTree

end PropCalc
