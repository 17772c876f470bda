/-
  MixinCss.Text.Utf8

  Characters inside byte text. A text is cut into runes from the left: a
  well-formed UTF-8 sequence is one rune, and a byte that starts none is a rune
  of its own that stands for U+FFFD. The bytes of the runes put together are
  the text again (`runes_flatMap_bytes`).
-/

import MixinCss.Text.Basic

namespace MixinCss

/-- A code point with the bytes that spell it. -/
structure Rune where
  code : Nat
  bytes : Text
deriving DecidableEq, Repr

/-- The code point that stands for bytes which are not UTF-8. -/
def replacementCode : Nat := 0xFFFD

namespace Rune

/-- A byte that is no part of a well-formed sequence. -/
def isStray (r : Rune) : Bool :=
  match r.bytes with
  | [b] => 0x80 ≤ b
  | _ => false

/-- The UTF-8 spelling of a code point. -/
def encode (code : Nat) : Text :=
  if code < 0x80 then [code.toUInt8]
  else if code < 0x800 then
    [(0xC0 + code / 0x40).toUInt8, (0x80 + code % 0x40).toUInt8]
  else if code < 0x10000 then
    [(0xE0 + code / 0x1000).toUInt8, (0x80 + code / 0x40 % 0x40).toUInt8,
      (0x80 + code % 0x40).toUInt8]
  else
    [(0xF0 + code / 0x40000).toUInt8, (0x80 + code / 0x1000 % 0x40).toUInt8,
      (0x80 + code / 0x40 % 0x40).toUInt8, (0x80 + code % 0x40).toUInt8]

/-- The rune spelled as UTF-8; a stray byte becomes the replacement character. -/
def spelled (r : Rune) : Text := if r.isStray then encode replacementCode else r.bytes

end Rune

namespace Utf8

/-- A continuation byte between `low` and `high`. -/
def between (low high b : UInt8) : Bool := low ≤ b && b ≤ high

def isContinuation (b : UInt8) : Bool := between 0x80 0xBF b

/-- The range of the second byte after the first byte `b`, and how many bytes
    follow `b`. The ranges exclude overlong forms, surrogates and code points
    above U+10FFFF. -/
def shape (b : UInt8) : Option (UInt8 × UInt8 × Nat) :=
  if between 0xC2 0xDF b then some (0x80, 0xBF, 1)
  else if b = 0xE0 then some (0xA0, 0xBF, 2)
  else if b = 0xED then some (0x80, 0x9F, 2)
  else if between 0xE1 0xEF b then some (0x80, 0xBF, 2)
  else if b = 0xF0 then some (0x90, 0xBF, 3)
  else if b = 0xF4 then some (0x80, 0x8F, 3)
  else if between 0xF1 0xF3 b then some (0x80, 0xBF, 3)
  else none

/-- Six bits of each continuation byte added to those of the bytes before it. -/
def extend (high : Nat) (b : UInt8) : Nat := 0x40 * high + (b.toNat - 0x80)

/-- The code point that `b` starts and the number of bytes of `rest` that belong
    to it, if `b` starts a well-formed sequence. -/
def decode (b : UInt8) (rest : Text) : Option (Nat × Nat) :=
  if b < 0x80 then some (b.toNat, 0)
  else
    match shape b, rest with
    | some (low, high, 1), c :: _ =>
      if between low high c then some (extend (b.toNat - 0xC0) c, 1) else none
    | some (low, high, 2), c :: d :: _ =>
      if between low high c && isContinuation d then
        some (extend (extend (b.toNat - 0xE0) c) d, 2)
      else none
    | some (low, high, 3), c :: d :: e :: _ =>
      if between low high c && isContinuation d && isContinuation e then
        some (extend (extend (extend (b.toNat - 0xF0) c) d) e, 3)
      else none
    | _, _ => none

end Utf8

namespace Text

/-- The runes of a text from left to right. -/
def runes : Text → List Rune
  | [] => []
  | b :: rest =>
    match Utf8.decode b rest with
    | some (code, n) => ⟨code, b :: rest.take n⟩ :: runes (rest.drop n)
    | none => ⟨replacementCode, [b]⟩ :: runes rest
termination_by t => t.length
decreasing_by
  · simp only [List.length_drop, List.length_cons]; omega
  · simp

def ofRunes (rs : List Rune) : Text := rs.flatMap Rune.bytes

/-- The number of runes, a stray byte counting as one. -/
def runeCount (t : Text) : Nat := t.runes.length

/-- Whether the whole text is well-formed UTF-8. -/
def isUtf8 (t : Text) : Bool := t.runes.all fun r => !r.isStray

/-- Well-formed text as a string; a stray byte becomes U+FFFD. -/
def toString (t : Text) : String :=
  String.ofList (t.runes.map fun r => Char.ofNat r.code)

/-- The bytes of the runes of a text, put together, are the text. -/
theorem runes_flatMap_bytes (t : Text) : ofRunes t.runes = t := by
  fun_induction runes t with
  | case1 => rfl
  | case2 b rest code n h ih =>
    simp only [ofRunes, List.flatMap_cons] at ih ⊢
    rw [ih]
    simp
  | case3 b rest h ih =>
    simp only [ofRunes, List.flatMap_cons] at ih ⊢
    rw [ih]
    rfl

end Text

end MixinCss
