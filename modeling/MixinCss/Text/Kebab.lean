/-
  MixinCss.Text.Kebab

  Words joined by dashes: `lineHeight` becomes `line-height`. A dash is put
  where small letters, capitals and digits meet; a run of capitals is one word
  whose last capital belongs to the small letters after it.
-/

import MixinCss.Text.Space

namespace MixinCss.Text

/-- Whether a word may end between `b` and `next`: the class of byte changes. -/
def classChanges (b next : UInt8) : Bool :=
  (Byte.isUpper b && (Byte.isLower next || Byte.isDigit next)) ||
  (Byte.isLower b && (Byte.isUpper next || Byte.isDigit next)) ||
  (Byte.isDigit b && (Byte.isUpper next || Byte.isLower next))

/-- Bytes that separate words. -/
def isWordGap (b : UInt8) : Bool :=
  b == ascii ' ' || b == ascii '_' || b == ascii '-' || b == ascii '.'

/-- The kebab form of what follows `previous`. -/
def kebabAfter (previous : Option UInt8) : Text → Text
  | [] => []
  | b :: rest =>
    let written :=
      match rest with
      | next :: _ =>
        if classChanges b next then
          let acronymEnds := Byte.isUpper b && Byte.isLower next && previous.any Byte.isUpper
          let wordEnds := Byte.isLower b || Byte.isDigit b || Byte.isDigit next
          (if acronymEnds then [ascii '-'] else []) ++ [Byte.lower b] ++
            (if wordEnds then [ascii '-'] else [])
        else if isWordGap b then [ascii '-']
        else [Byte.lower b]
      | [] => if isWordGap b then [ascii '-'] else [Byte.lower b]
    written ++ kebabAfter (some b) rest

/-- The kebab form of a name, white space at its ends dropped. -/
def kebab (t : Text) : Text := kebabAfter none t.trim

/-- `head` and the kebab form of `key` joined by a dash. The keys in `plain`
    and all keys under an empty `head` stand alone. -/
def underHead (head : Text) (plain : List Text) (key : Text) : Text :=
  if head.isEmpty || plain.contains key then kebab key
  else head ++ [ascii '-'] ++ kebab key

end MixinCss.Text
