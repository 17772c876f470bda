/-
  MixinCss.Text.Quoted

  Quoted text for messages. Quotes and backslashes are escaped, printable
  characters stand for themselves and everything else is written as an escape,
  so the quoted form is one line of printable text.
-/

import MixinCss.Text.Graphic
import MixinCss.Text.Utf8

namespace MixinCss.Text

/-- The escapes that have a letter of their own. -/
def letterEscape? (code : Nat) : Option Char :=
  match code with
  | 0x07 => some 'a'
  | 0x08 => some 'b'
  | 0x0C => some 'f'
  | 0x0A => some 'n'
  | 0x0D => some 'r'
  | 0x09 => some 't'
  | 0x0B => some 'v'
  | _ => none

/-- One rune inside quotes. -/
def quoteRune (r : Rune) : Text :=
  if r.isStray then utf8 "\\x" ++ r.bytes.flatMap fun b => hex 2 b.toNat
  else if r.code = 0x22 || r.code = 0x5C then ascii '\\' :: r.bytes
  else if isPrintCode r.code then r.bytes
  else
    match letterEscape? r.code with
    | some c => [ascii '\\', ascii c]
    | none =>
      if r.code < 0x80 then utf8 "\\x" ++ hex 2 r.code
      else if r.code < 0x10000 then utf8 "\\u" ++ hex 4 r.code
      else utf8 "\\U" ++ hex 8 r.code

/-- `t` between double quotes. -/
def quoted (t : Text) : Text :=
  ascii '"' :: t.runes.flatMap quoteRune ++ [ascii '"']

/-- A character between single quotes. -/
def quotedCharacter (code : Nat) : Text :=
  let inner :=
    if code = 0x27 then utf8 "\\'"
    else if code = 0x22 then [ascii '"']
    else quoteRune ⟨code, Rune.encode code⟩
  [ascii '\''] ++ inner ++ [ascii '\'']

end MixinCss.Text
