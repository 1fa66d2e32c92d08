import CaretContext.Settings

/-!
# File trees

What stands at a path, given files by name. A path is followed name by name, and everything in front
of its last name has to be a directory.
-/

namespace CaretContext

/-- A place in a file system: the names that lead to it, the last one first. They start at the working
directory, or with an empty name at the root. -/
abbrev Place := List String

namespace Place

def workingDirectory : Place := []

def root : Place := [""]

/-- The place that a name leads to. Beyond the working directory only the way back is known, and the
root is its own parent. -/
def enter (place : Place) (name : String) : Place :=
  if name = "" || name = "." then place
  else if name = ".." then
    match place with
    | [] => [".."]
    | ".." :: parents => ".." :: ".." :: parents
    | [""] => [""]
    | _ :: parent => parent
  else name :: place

/-- Whether the place is a directory whatever files there are. -/
def isGiven (place : Place) : Bool := place = root || place.all (· = "..")

end Place

def FileState.isMissing : FileState → Bool
  | missing => true
  | _ => false

/-- Files at their places. Whatever holds a file is a directory. -/
structure FileTree where
  files : List (Place × FileState)

namespace FileTree

def namesOf (path : String) : List String := (path.toList.splitOn '/').map String.ofList

/-- The place that a path leads to when every name in it is taken as it is. -/
def placeOf (path : String) : Place := (namesOf path).reverse

def ofPaths (files : List (String × FileState)) : FileTree :=
  ⟨files.map fun (path, state) => (placeOf path, state)⟩

def stateAt (tree : FileTree) (place : Place) : FileState :=
  match tree.files.lookup place with
  | some state => state
  | none =>
    let holds (file : Place × FileState) : Bool := !file.2.isMissing && place.isSuffixOf file.1
    if place.isGiven || tree.files.any holds then .directory else .missing

/-- Follows the names from a place on. Each of them has to be looked up in a directory. -/
def follow (tree : FileTree) : Place → List String → Except ReadError Place
  | place, [] => .ok place
  | place, name :: names =>
    match tree.stateAt place with
    | .directory => tree.follow (place.enter name) names
    | .missing => .error .notFound
    | _ => .error .notDirectory

def find (tree : FileTree) (path : String) : Except ReadError Place :=
  match namesOf path with
  | "" :: names => tree.follow .root names
  | names => tree.follow .workingDirectory names

def state (tree : FileTree) (path : String) : FileState :=
  match tree.find path with
  | .ok place => tree.stateAt place
  | .error cause => if h : cause = .notFound then .missing else .unreadable cause h

end FileTree

end CaretContext
