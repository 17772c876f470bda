/-
  MixinCss.Files.Tree

  Directories and files as a value. Reading and writing are functions on it
  and fail as a file system does. A path is looked up by the place it leads to
  from the working directory, however it is spelled.
-/

import MixinCss.Files.Path

namespace MixinCss

/-- What may be done with a file. -/
structure Access where
  readable : Bool
  writable : Bool
deriving DecidableEq, Repr, Inhabited

def Access.full : Access := ⟨true, true⟩

/-- What is at a place. Every directory may be entered, listed and added to. -/
inductive Entry where
  | directory
  | file (content : Text) (access : Access)
deriving DecidableEq, Repr, Inhabited

/-- All directories and files that are known, by place. -/
structure FileTree where
  /-- The working directory. -/
  home : Place
  entries : List (Place × Entry)
deriving Repr, Inhabited

/-- Why a file cannot be read or written. -/
inductive FileFault where
  /-- A file stands where a directory is to be made. -/
  | notDirectory (path : Text)
  /-- A directory stands where a file is to be written. -/
  | openDirectory (path : Text)
  /-- A directory stands where a file is to be read. -/
  | readDirectory (path : Text)
  | openMissing (path : Text)
  /-- A file stands where the path of a file leads through. -/
  | openThroughFile (path : Text)
  /-- A file refuses to be read or to be written. -/
  | openDenied (path : Text)
deriving DecidableEq, Repr

def FileFault.message : FileFault → Text
  | .notDirectory path => utf8 "mkdir " ++ path ++ utf8 ": not a directory"
  | .openDirectory path => utf8 "open " ++ path ++ utf8 ": is a directory"
  | .readDirectory path => utf8 "read " ++ path ++ utf8 ": is a directory"
  | .openMissing path => utf8 "open " ++ path ++ utf8 ": no such file or directory"
  | .openThroughFile path => utf8 "open " ++ path ++ utf8 ": not a directory"
  | .openDenied path => utf8 "open " ++ path ++ utf8 ": permission denied"

namespace FileTree

/-- Only the working directory and those above it exist. -/
def empty (home : Place) : FileTree := ⟨home, []⟩

/-- The place that a text leads to. -/
def place (t : FileTree) (path : Text) : Place := (Path.ofText path).place t.home

/-- All directories and files. The working directory and those above it always
    exist. -/
def known (t : FileTree) : List (Place × Entry) :=
  (t.home.chain.map fun place => (place, Entry.directory)) ++ t.entries

/-- What is at a place. -/
def at? (t : FileTree) (place : Place) : Option Entry :=
  if place.names.isPrefixOf t.home.names then some .directory else t.entries.lookup place

/-- What a path leads to. -/
def find? (t : FileTree) (p : Path) : Option Entry := t.at? (p.place t.home)

/-- Puts an entry at a place in place of what is there. -/
def put (t : FileTree) (place : Place) (e : Entry) : FileTree :=
  { t with entries := (place, e) :: t.entries.filter fun entry => entry.1 != place }

/-- Makes one directory unless it is there. -/
def makeDirectory (t : FileTree) (p : Path) : Except FileFault FileTree :=
  match t.find? p with
  | some .directory => .ok t
  | some (.file _ _) => .error (.notDirectory p.text)
  | none => .ok (t.put (p.place t.home) .directory)

/-- Makes a directory and those above it. -/
def makeDirectories (t : FileTree) (p : Path) : Except FileFault FileTree :=
  p.chain.foldlM makeDirectory t

/-- Whether a file is at a place. -/
def holdsFile (t : FileTree) (place : Place) : Bool :=
  match t.at? place with
  | some (.file _ _) => true
  | _ => false

/-- Whether some directory on the way to a path is a file. -/
def isBelowFile (t : FileTree) (p : Path) : Bool :=
  p.chain.dropLast.any fun ancestor => t.holdsFile (ancestor.place t.home)

/-- The content of a file. -/
def read (t : FileTree) (path : Text) : Except FileFault Text :=
  let p := Path.ofText path
  match t.find? p with
  | some (.file content access) =>
    if access.readable then .ok content else .error (.openDenied path)
  | some .directory => .error (.readDirectory path)
  | none =>
    if t.isBelowFile p then .error (.openThroughFile path) else .error (.openMissing path)

/-- Writes a file. One that is there keeps its access; a new one is made in a
    directory that is there. -/
def write (t : FileTree) (path content : Text) : Except FileFault FileTree :=
  let p := Path.ofText path
  match t.find? p with
  | some .directory => .error (.openDirectory path)
  | some (.file _ access) =>
    if access.writable then .ok (t.put (t.place path) (.file content access))
    else .error (.openDenied path)
  | none =>
    if t.isBelowFile p then .error (.openThroughFile path)
    else
      match t.find? (Path.directory path) with
      | some .directory => .ok (t.put (t.place path) (.file content .full))
      | _ => .error (.openMissing path)

/-- Removes what is at a place, with all it holds. -/
def remove (t : FileTree) (place : Place) : FileTree :=
  { t with entries := t.entries.filter fun entry => !place.names.isPrefixOf entry.1.names }

/-- The names inside of a directory. -/
def names (t : FileTree) (p : Path) : List Text :=
  let place := p.place t.home
  t.known.filterMap fun entry =>
    if entry.1.parent = place then entry.1.names.getLast? else none

/-- The entries below a path, each with the names that lead to it. -/
def below (t : FileTree) (p : Path) : List (List Text × Entry) :=
  let place := p.place t.home
  t.known.filterMap fun entry =>
    let way := entry.1.names.drop place.names.length
    if place.names.isPrefixOf entry.1.names ∧ way ≠ [] then some (way, entry.2) else none

/-- The entries below the working directory by their paths from there, a
    directory before what it holds and the names inside of one in byte order. -/
def listing (t : FileTree) : List (Path × Entry) :=
  ((t.below ⟨false, []⟩).map fun entry => (⟨false, entry.1⟩, entry.2))
    |>.mergeSort fun a b => Path.segmentsNotAfter a.1.segments b.1.segments

end FileTree

end MixinCss
