/-
  MixinCss.Source.Excerpt

  The place of an error with the line around it. The source is walked from its
  start; besides line feeds and carriage returns the separators U+2028 and
  U+2029 end a line, and a character of several bytes is one step. The excerpt
  shows the line, shortened around the column if it is long, over a caret.
-/

import MixinCss.Source.Lines
import MixinCss.Text.Graphic
import MixinCss.Token.Lexer

namespace MixinCss

namespace Excerpt

/-- The low six bits of the byte at index `i`. -/
def sixBits (t : Text) (i : Nat) : Nat := (t[i]?.getD 0).toNat % 0x40

/-- The code point that a first byte of 0xC0 or more and the bytes after it
    spell if their marking bits are not looked at. -/
def looseCode (b : UInt8) (rest : Text) : Nat :=
  match Lexer.sequence b rest with
  | 2 => b.toNat % 0x20 * 0x40 + sixBits rest 0
  | 3 => b.toNat % 0x10 * 0x1000 + sixBits rest 0 * 0x40 + sixBits rest 1
  | 4 =>
    b.toNat % 0x08 * 0x40000 + sixBits rest 0 * 0x1000 + sixBits rest 1 * 0x40 +
      sixBits rest 2
  | _ => b.toNat

/-- The number of bytes of one step, and whether it ends the line. -/
def step (b : UInt8) (rest : Text) : Nat × Bool :=
  if b = ascii '\n' then (1, true)
  else if b = ascii '\r' then (if rest.head? = some (ascii '\n') then 2 else 1, true)
  else if 0xC0 ≤ b then
    let code := looseCode b rest
    (Lexer.sequence b rest, code == 0x2028 || code == 0x2029)
  else (1, false)

/-- Where a walk over a source stands: the number of the line, the text from
    the start of the line on, and the bytes of it that lie behind. -/
structure Walk where
  line : Nat
  start : Text
  passed : Nat

/-- Walks on for `left` bytes. A step that would go beyond them is not made. -/
def walk (w : Walk) (left : Nat) : Text → Walk
  | [] => w
  | b :: rest =>
    if left = 0 then w
    else
      let (n, ends) := step b rest
      if 1 < n ∧ left < n then w
      else
        let next := rest.drop (n - 1)
        let w := if ends then ⟨w.line + 1, next, 0⟩ else ⟨w.line, w.start, w.passed + n⟩
        walk w (left - n) next
termination_by t => t.length
decreasing_by simp only [List.length_drop, List.length_cons]; omega

/-- Line and column of an offset. -/
def locate (source : Text) (offset : Nat) : Walk := walk ⟨1, source, 0⟩ offset source

def Walk.column (w : Walk) : Nat := Text.runeCount (w.start.take w.passed) + 1

/-- The longest line that is shown whole. -/
def limit : Nat := 60

/-- A part of the line that fits: the text in front, the runes, the text behind
    and the column of the caret. -/
def shorten (rs : List Rune) (column : Nat) : Text × List Rune × Text × Nat :=
  let n := rs.length
  if n ≤ limit then ([], rs, [], column)
  else if column ≤ 40 then ([], rs.take 57, utf8 "...", column)
  else if n - 23 ≤ column then (utf8 "...", rs.drop (n - 44), [], column - (n - 47))
  else (utf8 "...", (rs.drop (column - 21)).take 41, utf8 "...", 24)

/-- A character of the excerpt; what has no picture is shown as a middle dot. -/
def shown (r : Rune) : Text :=
  if isGraphicCode r.code then r.spelled else utf8 "·"

/-- What lies behind on the line, and all that follows up to its end. -/
def Walk.text (w : Walk) : Text :=
  w.start.take w.passed ++
    (w.start.drop w.passed).takeWhile fun b => b != ascii '\n' && b != ascii '\r'

/-- The line of the source over a caret that marks the column. -/
def context (w : Walk) : Text :=
  let (front, rs, rear, column) := shorten w.text.runes w.column
  (Text.ofNat w.line).padLeft 5 ++ utf8 ": " ++ front ++ rs.flatMap shown ++ rear ++
    [ascii '\n'] ++ Text.spaces (6 + column) ++ [ascii '^']

end Excerpt

end MixinCss
