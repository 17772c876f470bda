/-
  MixinCss.Text.Space

  White space in the sense of the Unicode property White_Space, and trimming.
-/

import MixinCss.Text.Utf8

namespace MixinCss

/-- Code points with the property White_Space. -/
def isSpaceCode (c : Nat) : Bool :=
  (0x09 ≤ c && c ≤ 0x0D) || c == 0x20 || c == 0x85 || c == 0xA0 || c == 0x1680 ||
  (0x2000 ≤ c && c ≤ 0x200A) || c == 0x2028 || c == 0x2029 || c == 0x202F ||
  c == 0x205F || c == 0x3000

def Rune.isSpace (r : Rune) : Bool := isSpaceCode r.code

namespace Text

/-- `t` without the white space at both ends. -/
def trim (t : Text) : Text :=
  ofRunes ((t.runes.dropWhile Rune.isSpace).reverse.dropWhile Rune.isSpace).reverse

end Text

end MixinCss
