/-
  MixinCss.Report.Style

  Styled text for a terminal. Whether styles are applied at all and whether
  they come out as escape sequences are two questions: a terminal without
  colors still gets text that has been laid out.
-/

import MixinCss.Text.Width

namespace MixinCss

/-- How styled text is written. -/
inductive Palette where
  /-- Styles are off: the text stays as it is. -/
  | off
  /-- The text is laid out but not colored. -/
  | plain
  /-- The text is laid out and colored by escape sequences. -/
  | ansi
deriving DecidableEq, Repr

inductive Style where
  | cyan
  | red
  | yellow
  | green
  | gray
deriving DecidableEq, Repr

namespace Style

/-- The parameters of the escape sequence of a style. -/
def code : Style → String
  | .cyan => "1;36"
  | .red => "1;31"
  | .yellow => "1;33"
  | .green => "1;32"
  | .gray => "90"

/-- A line inside of the escape sequences of a style. -/
def wrap (s : Style) (line : Text) : Text :=
  utf8 "\x1b[" ++ utf8 s.code ++ utf8 "m" ++ line ++ utf8 "\x1b[0m"

/-- Text in a style. Tabs become four spaces, and the lines, once they are
    colored, are filled up with spaces to the width of the widest. -/
def render (s : Style) (palette : Palette) (t : Text) : Text :=
  let color (line : Text) := if palette = .ansi then s.wrap line else line
  if palette = .off then t
  else
    let untabbed := Text.replace t [ascii '\t'] (utf8 "    ")
    let lines := Text.split (ascii '\n') (Text.replace untabbed (utf8 "\r\n") (utf8 "\n"))
    let colored := lines.map color
    let widest := (colored.map Text.displayWidth).foldl max 0
    Text.join [ascii '\n'] <| colored.map fun line =>
      line ++ Text.spaces (widest - line.displayWidth)

end Style

end MixinCss
