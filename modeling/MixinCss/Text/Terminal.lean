/-
  MixinCss.Text.Terminal

  What a terminal shows of a text. A terminal reads escape sequences and control
  strings and does not show them: an escape starts one, and the bytes behind it
  say which it is and where it ends. So do the control bytes from 0x80 to 0x9F,
  unless they belong to a character.
-/

import MixinCss.Text.Utf8

namespace MixinCss

/-- What a terminal is reading. -/
inductive Terminal where
  /-- Characters, which are shown. -/
  | ground
  /-- The byte behind an escape. -/
  | escape
  /-- The last bytes of a sequence. -/
  | intermediate
  /-- The parameters of a control sequence, `ESC [`. -/
  | sequence
  /-- An operating system command, `ESC ]`, which a bell may end. -/
  | command
  /-- A string for the terminal: `ESC X`, `ESC ^` or `ESC _`. -/
  | message
  /-- A device control string, `ESC P`, at its first byte. -/
  | device
  /-- The parameters of a device control string. -/
  | deviceParameters
  /-- The bytes between the parameters of a device control string and its data. -/
  | deviceIntermediate
  /-- The data of a device control string. -/
  | deviceData
deriving DecidableEq, Repr

namespace Terminal

/-- What is read behind an escape and the byte `b`. -/
def opened (b : UInt8) : Terminal :=
  if b = ascii '[' then .sequence
  else if b = ascii ']' then .command
  else if b = ascii 'P' then .device
  else if b = ascii 'X' || b = ascii '^' || b = ascii '_' then .message
  else .ground

/-- Whether a byte keeps a sequence where it is. -/
def isIdle (b : UInt8) : Bool := b < 0x20 || b = 0x7F

/-- What is read behind an ASCII byte that is neither an escape nor cancels
    what was read. -/
def nextAscii (s : Terminal) (b : UInt8) : Terminal :=
  match s with
  | .ground => .ground
  | .escape => if isIdle b then .escape else if b < 0x30 then .intermediate else opened b
  | .intermediate => if isIdle b || b < 0x30 then .intermediate else .ground
  | .sequence =>
    if isIdle b || 0x30 ≤ b && b < 0x40 then .sequence
    else if b < 0x30 then .intermediate
    else .ground
  | .command => if b = 0x07 then .ground else .command
  | .message => .message
  | .device =>
    if 0x08 ≤ b && b ≤ 0x0D then .deviceData
    else if isIdle b then .device
    else if b < 0x30 then .deviceIntermediate
    else if b < 0x40 then .deviceParameters
    else .deviceData
  | .deviceParameters =>
    if isIdle b || 0x30 ≤ b && b < 0x40 then .deviceParameters
    else if b < 0x30 then .deviceIntermediate
    else .deviceData
  | .deviceIntermediate => if isIdle b || b < 0x30 then .deviceIntermediate else .deviceData
  | .deviceData => .deviceData

/-- Whether any byte belongs to what is read, also one that is not ASCII. -/
def takesAll (s : Terminal) : Bool := s = .command || s = .deviceData

/-- What is read behind a byte that starts no character. -/
def next (s : Terminal) (b : UInt8) : Terminal :=
  if b = 0x1B then if s = .device then .deviceData else .escape
  else if b = 0x18 || b = 0x1A || b = 0x9C then .ground
  else if b < 0x80 then s.nextAscii b
  else if s.takesAll then s
  -- A control byte stands for an escape and the byte that lies 0x40 lower.
  else if b < 0xA0 then opened (b - 0x40)
  else .ground

/-- The code points that are shown of a text, with nothing in the place of each
    byte that is not shown. The first `skip` bytes belong to the character in
    front of the text. -/
def view (s : Terminal) (skip : Nat) : Text → List (Option Nat)
  | [] => []
  | b :: rest =>
    match skip with
    | n + 1 => view s n rest
    | 0 =>
      -- A byte that may start a character of several bytes ends what was read.
      if 0xC2 ≤ b && b ≤ 0xF4 && !s.takesAll then
        match Utf8.decode b rest with
        | some (code, n) => some code :: view .ground n rest
        | none => some replacementCode :: view .ground 0 rest
      else if s = .ground && 0x20 ≤ b && b < 0x7F then some b.toNat :: view .ground 0 rest
      else none :: view (s.next b) 0 rest

end Terminal

end MixinCss
