/-
  MixinCss.Main

  The program. It reads the files that a command line is about, runs it on
  them, and writes back what has changed.
-/

import MixinCss.Command
import Std.Time

namespace MixinCss.Program

/-! ## Reading -/

/-- A place as the operating system takes it. -/
def placeName (place : Place) : String :=
  (String.fromUTF8? ⟨(Path.text ⟨true, place.names⟩).toArray⟩).getD ""

/-- A file as it can be opened. Opening it to add to its end leaves it as it is. -/
def gatherFile (e : IO.FS.DirEntry) : IO Entry := do
  let writable ←
    try
      discard (IO.FS.Handle.mk e.path .append)
      pure true
    catch _ => pure false
  try
    return .file (← IO.FS.readBinFile e.path).data.toList ⟨true, writable⟩
  catch _ => return .file [] ⟨false, writable⟩

/-- An entry of a directory with all that is below it. Links are not followed
    and what cannot be listed is left out. -/
partial def gather (place : Place) (e : IO.FS.DirEntry) : IO (List (Place × Entry)) := do
  let here : Place := ⟨place.names ++ [utf8 e.fileName]⟩
  try
    match (← e.path.symlinkMetadata).type with
    | .dir =>
      let inner ← (← e.path.readDir).toList.mapM (gather here)
      return (here, .directory) :: inner.flatten
    | .file => return [(here, ← gatherFile e)]
    | _ => return []
  catch _ => return []

/-- What is at a place; the inside of a directory is read if it is wanted. -/
def look (inside : Bool) (place : Place) : IO (List (Place × Entry)) := do
  let e : IO.FS.DirEntry := ⟨".", placeName place⟩
  try
    match (← e.path.metadata).type with
    | .dir =>
      let inner ← if inside then (← e.path.readDir).toList.mapM (gather place) else pure []
      return (place, .directory) :: inner.flatten
    | .file => return [(place, ← gatherFile e)]
    | _ => return []
  catch _ => return []

/-- Adds to a tree what a path leads to and what stands on the way to it. -/
def addPath (inside : Bool) (t : FileTree) (path : Text) : IO FileTree := do
  let place := t.place path
  let way ← place.parent.chain.mapM (look false)
  let target ← look inside place
  return (way.flatten ++ target).foldl (fun t (place, entry) => t.put place entry) t

/-- The working directory of the process. -/
def home : IO Place := do
  return (Path.ofText (utf8 (← IO.currentDir).toString)).place .root

/-- The environment of the process. -/
def environment : IO Environment := do
  try
    let block ← IO.FS.readBinFile "/proc/self/environ"
    return ((Text.split 0 block.data.toList).filter fun entry => entry.contains (ascii '=')).map
      fun entry =>
        (entry.takeWhile (· != ascii '='), (entry.dropWhile (· != ascii '=')).drop 1)
  catch _ => return []

/-- The time of day as a report shows it. -/
def timestamp : IO Text := do
  let now ← Std.Time.DateTime.now
  return utf8 (now.format "uuuu-MM-dd'T'HH:mm:ssXXX")

/-! ## Writing -/

/-- Writes the entries of a tree that are not the same in an older one. -/
def store (old new : FileTree) : IO Unit := do
  let changed := new.entries.filter fun (place, entry) => old.at? place != some entry
  for (place, entry) in changed do
    if entry = .directory then IO.FS.createDirAll (placeName place)
  for (place, entry) in changed do
    if let .file content _ := entry then
      IO.FS.writeBinFile (placeName place) ⟨content.toArray⟩

def print (stream : IO.FS.Stream) (t : Text) : IO Unit := do
  stream.write ⟨t.toArray⟩
  stream.flush

end MixinCss.Program

open MixinCss MixinCss.Program in
/-- Runs the command line of the process. -/
def main (args : List String) : IO UInt32 := do
  let line := args.map utf8
  let start : World := ⟨.empty (← home), ← environment, ← timestamp⟩
  let world ←
    match Request.ofLine line with
    | .error _ => pure start
    | .ok r =>
      let known ← [standardConfigPath, r.flags.configPath].foldlM (addPath false) start.tree
      let tree ← ({ start with tree := known }.places r).foldlM (addPath true) known
      pure { start with tree := tree }
  let outcome := world.run line
  store world.tree outcome.tree
  print (← IO.getStdout) outcome.stdout
  print (← IO.getStderr) outcome.stderr
  return outcome.exitCode.toUInt32
