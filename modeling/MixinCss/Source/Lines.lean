/-
  MixinCss.Source.Lines

  Lines and columns of a source. A line ends with a line feed, a carriage return
  or both in that order. The table of line starts is computed once for a
  source, and the place of every node is looked up in it.
-/

import MixinCss.Sheet.Basic
import MixinCss.Text.Utf8

namespace MixinCss

/-- The offsets after the line ends of a text that starts at `offset`. -/
def lineStartsFrom (offset : Nat) : Text → List Nat
  | [] => []
  | b :: rest =>
    if b = ascii '\n' then (offset + 1) :: lineStartsFrom (offset + 1) rest
    else if b = ascii '\r' then
      match rest with
      | [] => [offset + 1]
      | c :: more =>
        if c = ascii '\n' then (offset + 2) :: lineStartsFrom (offset + 2) more
        else (offset + 1) :: lineStartsFrom (offset + 1) (c :: more)
    else lineStartsFrom (offset + 1) rest

/-- The offsets at which the lines of a text begin. -/
def startsOfLines (t : Text) : List Nat := 0 :: lineStartsFrom 0 t

/-- A text together with the table of its lines. -/
structure Source where
  text : Text
  starts : List Nat

namespace Source

def ofText (t : Text) : Source := ⟨t, startsOfLines t⟩

/-- The place of an offset: its line is the last one that begins at or before
    it, and its column counts the runes of that line in front of it. -/
def pos (s : Source) (offset : Nat) : Pos :=
  let before := s.starts.takeWhile (· ≤ offset)
  let start := before.getLast?.getD 0
  let column := Text.runeCount ((s.text.drop start).take (offset - start)) + 1
  ⟨offset, max 1 before.length, column⟩

end Source

end MixinCss
