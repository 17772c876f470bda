/-
  MixinCss.Sheet.Selector

  Nested selectors. `&` stands for the selector of the enclosing rule; where
  either side is a list, every combination is written out.
-/

import MixinCss.Text.Space

namespace MixinCss.Selector

/-- The parts of a selector list, cut at the commas outside of parentheses and
    brackets. `depth` counts the open ones less the closed ones, so a closing
    one too many hides the commas behind it. -/
def cut (depth : Int) : Text → List Text
  | [] => [[]]
  | b :: rest =>
    let inside :=
      if b = ascii '(' || b = ascii '[' then depth + 1
      else if b = ascii ')' || b = ascii ']' then depth - 1
      else depth
    if b = ascii ',' && depth = 0 then [] :: cut depth rest
    else
      match cut inside rest with
      | [] => [[b]]
      | part :: parts => (b :: part) :: parts

/-- The selectors of a list without the white space around them. -/
def alternatives (selector : Text) : List Text := (cut 0 selector).map Text.trim

/-- The byte that stands for the enclosing selector. -/
def parentMark : UInt8 := ascii '&'

/-- Replaces `&` by the selector of the enclosing rule. A selector without `&`
    and one without an enclosing rule stay as they are. -/
def substitute (selector parent : Text) : Text :=
  if parent.isEmpty || !selector.contains parentMark then selector
  else
    let parents := alternatives parent
    Text.join (utf8 ", ") <| (alternatives selector).flatMap fun s =>
      if s.contains parentMark then parents.map fun p => s.replaceByte parentMark p
      else [s]

end MixinCss.Selector
