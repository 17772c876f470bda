/-
  MixinCss.Files.Path

  Paths of files, taken apart at slashes. The steps `.` and `..` are carried
  out on the text alone: `a/../b` is `b`. Paths that are not rooted start from
  the working directory and may leave it upward. Different paths may lead to the
  same place: `s/a`, `../w/s/a` and `/x/w/s/a` do so in the directory `/x/w`.
-/

import MixinCss.Text.Basic

namespace MixinCss

/-- A path in its shortest form: no empty segment, no `.`, and `..` only at the
    start of a path that is not rooted. -/
structure Path where
  rooted : Bool
  segments : List Text
deriving DecidableEq, Repr, Inhabited

namespace Path

/-- The segment that leads to the directory above. -/
def up : Text := utf8 ".."

/-- Goes one step down from a place, given by its segments with the last one
    first. -/
def walk (rooted : Bool) (place : List Text) (segment : Text) : List Text :=
  if segment.isEmpty || segment = utf8 "." then place
  else if segment = up then
    match place with
    | [] => if rooted then [] else [up]
    | last :: rest => if last = up then up :: place else rest
  else segment :: place

/-- The path that a text spells. -/
def ofText (t : Text) : Path :=
  let rooted := t.startsWith [ascii '/']
  ⟨rooted, ((Text.split (ascii '/') t).foldl (walk rooted) []).reverse⟩

def text (p : Path) : Text :=
  let body := Text.join [ascii '/'] p.segments
  if p.rooted then ascii '/' :: body
  else if p.segments.isEmpty then utf8 "."
  else body

/-- The shortest text for the same path. -/
def clean (t : Text) : Text := (ofText t).text

/-- `b` below `a`; an empty text is no step. -/
def join (a b : Text) : Text :=
  if a.isEmpty then if b.isEmpty then [] else clean b
  else if b.isEmpty then clean a
  else clean (a ++ [ascii '/'] ++ b)

/-- Both lists without the beginning they share. -/
def dropShared : List Text → List Text → List Text × List Text
  | a :: as, b :: bs => if a = b then dropShared as bs else (a :: as, b :: bs)
  | as, bs => (as, bs)

/-- The way from `base` to `target`. There is none between a rooted path and
    one that is not, nor out of a directory whose name is not known. -/
def relative? (base target : Text) : Option Text :=
  let b := ofText base
  let t := ofText target
  if b = t then some (utf8 ".")
  else if b.rooted != t.rooted then none
  else
    let (above, below) := dropShared b.segments t.segments
    if above.head? = some up then none
    else some (Text.join [ascii '/'] (List.replicate above.length up ++ below))

/-- The way from a directory to a file, or the file itself if there is none. An
    empty directory is the working directory. -/
def relativeTo (directory file : Text) : Text :=
  let base := if directory.isEmpty then utf8 "." else directory
  (relative? base file).getD file

/-- The last point of the last segment and what follows it. -/
def extension (t : Text) : Text :=
  let back := t.reverse.takeWhile (· != ascii '/')
  if back.contains (ascii '.') then
    ascii '.' :: (back.takeWhile (· != ascii '.')).reverse
  else []

/-- The directory of a file. -/
def directory (t : Text) : Path :=
  ofText (t.reverse.dropWhile (· != ascii '/')).reverse

/-- Paths from the nearest ancestor below the root to the path itself. -/
def chain (p : Path) : List Path :=
  (List.range p.segments.length).map fun n => { p with segments := p.segments.take (n + 1) }

/-- Segments compare one by one, so a directory comes before what it holds and
    all of that before its next sibling. -/
def segmentsNotAfter : List Text → List Text → Bool
  | [], _ => true
  | _ :: _, [] => false
  | a :: as, b :: bs => if a = b then segmentsNotAfter as bs else Text.before a b

end Path

/-- Where something stands in the file system: the names that lead there from
    the root. There are no links, so one thing has one place. -/
structure Place where
  names : List Text
deriving DecidableEq, Repr, Inhabited

namespace Place

def root : Place := ⟨[]⟩

/-- The directory that holds a place; the root holds itself. -/
def parent (place : Place) : Place := ⟨place.names.dropLast⟩

/-- One step on from a place. -/
def step (place : Place) (segment : Text) : Place :=
  if segment = Path.up then place.parent else ⟨place.names ++ [segment]⟩

/-- The directories from the root, which is not among them, down to a place. -/
def chain (place : Place) : List Place :=
  (List.range place.names.length).map fun n => ⟨place.names.take (n + 1)⟩

end Place

/-- The place that a path leads to from the working directory `home`. -/
def Path.place (home : Place) (p : Path) : Place :=
  p.segments.foldl Place.step (if p.rooted then .root else home)

end MixinCss
