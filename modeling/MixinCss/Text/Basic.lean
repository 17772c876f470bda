/-
  MixinCss.Text.Basic

  Text as the bytes it is stored in. A source need not be valid UTF-8 and every
  offset in the library counts bytes, so the carrier is a list of bytes; what
  is about characters stands in `MixinCss.Text.Utf8`.
-/

namespace MixinCss

/-- Text is a list of bytes. -/
abbrev Text := List UInt8

/-- The bytes of a string constant. -/
def utf8 (s : String) : Text := s.toUTF8.data.toList

/-- The byte of an ASCII character. -/
@[inline] def ascii (c : Char) : UInt8 := c.toUInt8

namespace Byte

def isDigit (b : UInt8) : Bool := 0x30 ≤ b && b ≤ 0x39

def isLower (b : UInt8) : Bool := 0x61 ≤ b && b ≤ 0x7a

def isUpper (b : UInt8) : Bool := 0x41 ≤ b && b ≤ 0x5a

def isLetter (b : UInt8) : Bool := isLower b || isUpper b

/-- ASCII capitals become small letters, every other byte stays. -/
def lower (b : UInt8) : UInt8 := if isUpper b then b + 0x20 else b

def isHexDigit (b : UInt8) : Bool :=
  isDigit b || (0x61 ≤ b && b ≤ 0x66) || (0x41 ≤ b && b ≤ 0x46)

/-- The value of a decimal or hexadecimal digit. -/
def digitValue (b : UInt8) : Nat :=
  if isDigit b then b.toNat - 0x30
  else if isLower b then b.toNat - 0x61 + 10
  else if isUpper b then b.toNat - 0x41 + 10
  else 0

end Byte

namespace Text

/-- Decimal digits of a natural number. -/
def ofNat (n : Nat) : Text := (Nat.toDigits 10 n).map Char.toUInt8

/-- Decimal digits of an integer, with a sign only when it is negative. -/
def ofInt (i : Int) : Text :=
  match i with
  | .ofNat n => ofNat n
  | .negSucc n => ascii '-' :: ofNat (n + 1)

/-- The number that a run of decimal digits spells. -/
def toNat (digits : Text) : Nat := digits.foldl (fun n b => 10 * n + Byte.digitValue b) 0

/-- Lower-case digits of `n` in base sixteen, filled up with zeros to `width`. -/
def hex (width n : Nat) : Text :=
  let digits := (Nat.toDigits 16 n).map Char.toUInt8
  List.replicate (width - digits.length) (ascii '0') ++ digits

def spaces (n : Nat) : Text := List.replicate n (ascii ' ')

/-- Filled up on the left with spaces to `width` bytes. -/
def padLeft (t : Text) (width : Nat) : Text := spaces (width - t.length) ++ t

/-- Whether `t` begins with `head`. -/
def startsWith (t head : Text) : Bool := head.isPrefixOf t

/-- Whether `t` ends with `tail`. -/
def endsWith (t tail : Text) : Bool := tail.isSuffixOf t

/-- The text after `head`, if `t` begins with it. -/
def after? (t head : Text) : Option Text :=
  if head.isPrefixOf t then some (t.drop head.length) else none

/-- `t` without `tail` at its end; unchanged if it does not end so. -/
def dropTail (t tail : Text) : Text :=
  if tail.isSuffixOf t then t.take (t.length - tail.length) else t

/-- The parts of `t` between the bytes `sep`; a text without `sep` is one part. -/
def split (sep : UInt8) : Text → List Text
  | [] => [[]]
  | b :: rest =>
    if b = sep then [] :: split sep rest
    else
      match split sep rest with
      | [] => [[b]]
      | part :: parts => (b :: part) :: parts

/-- The parts joined with `sep` between them. -/
def join (sep : Text) : List Text → Text
  | [] => []
  | [part] => part
  | part :: parts => part ++ sep ++ join sep parts

/-- Every line followed by a line feed. -/
def lines (ls : List Text) : Text := ls.flatMap (· ++ [ascii '\n'])

/-- Replaces every occurrence of the byte `b` by `replacement`. -/
def replaceByte (t : Text) (b : UInt8) (replacement : Text) : Text :=
  t.flatMap fun c => if c = b then replacement else [c]

/-- Replaces the occurrences of `needle`, from the left and without overlap.
    `skip` bytes belong to an occurrence that has been replaced already. -/
def replaceFrom (needle replacement : Text) (skip : Nat) : Text → Text
  | [] => []
  | b :: rest =>
    match skip with
    | k + 1 => replaceFrom needle replacement k rest
    | 0 =>
      if !needle.isEmpty && needle.isPrefixOf (b :: rest) then
        replacement ++ replaceFrom needle replacement (needle.length - 1) rest
      else b :: replaceFrom needle replacement 0 rest

/-- Replaces every occurrence of a text that is not empty. -/
def replace (t needle replacement : Text) : Text := replaceFrom needle replacement 0 t

/-- Whether `needle` occurs in a text. -/
def occursIn (needle : Text) : Text → Bool
  | [] => needle.isEmpty
  | b :: rest => needle.isPrefixOf (b :: rest) || occursIn needle rest

/-- Bytes compare as unsigned numbers, and a proper beginning comes first. -/
def before : Text → Text → Bool
  | [], [] => false
  | [], _ :: _ => true
  | _ :: _, [] => false
  | a :: as, b :: bs => if a = b then before as bs else a < b

/-- Reflexive form of `before`, the order in which names are sorted. -/
def notAfter (a b : Text) : Bool := !before b a

/-- Texts in byte order. -/
def sort (ts : List Text) : List Text := ts.mergeSort notAfter

/-- Drops bytes satisfying `p` from both ends. -/
def trimBytes (p : UInt8 → Bool) (t : Text) : Text :=
  ((t.dropWhile p).reverse.dropWhile p).reverse

theorem dropTail_append (t tail : Text) : (t ++ tail).dropTail tail = t := by
  have hsuffix : tail.isSuffixOf (t ++ tail) = true :=
    List.isSuffixOf_iff_suffix.mpr (List.suffix_append t tail)
  rw [dropTail, hsuffix, if_pos rfl, List.length_append, Nat.add_sub_cancel, List.take_left]

@[simp] theorem join_nil (sep : Text) : join sep [] = [] := rfl

@[simp] theorem join_singleton (sep part : Text) : join sep [part] = part := rfl

theorem split_ne_nil (sep : UInt8) (t : Text) : split sep t ≠ [] := by
  cases t with
  | nil => simp [split]
  | cons b rest =>
    unfold split
    split
    · simp
    · split <;> simp

/-- Joining the parts with the separator gives the text back. -/
theorem join_split (sep : UInt8) (t : Text) : join [sep] (split sep t) = t := by
  induction t with
  | nil => rfl
  | cons b rest ih =>
    unfold split
    split
    · rename_i h
      cases hs : split sep rest with
      | nil => exact absurd hs (split_ne_nil sep rest)
      | cons part parts => rw [hs] at ih; simp [join, ih, h]
    · cases hs : split sep rest with
      | nil => exact absurd hs (split_ne_nil sep rest)
      | cons part parts =>
        rw [hs] at ih
        cases parts with
        | nil => simpa [join] using ih
        | cons p ps => simpa [join] using ih

end Text

end MixinCss
