/-!
# UTF-8

Characters as bytes and back.  Decoding never fails: every maximal part of an ill-formed sequence
is replaced by one U+FFFD.  A part is maximal if it is the longest beginning of some well-formed
sequence, or else a single byte that begins none.

The decoder is a machine that reads one byte at a time.  Between characters it owes nothing;
inside a character it remembers the bits read so far and the range that the next byte must lie in.
-/

namespace Oberon.Text.Utf8

/-- The character that stands for ill-formed input. -/
def replacement : Char := '\uFFFD'

/-- The bytes of one character. -/
def encodeChar (c : Char) : List UInt8 :=
  let n := c.toNat
  if n < 0x80 then
    [n.toUInt8]
  else if n < 0x800 then
    [(0xC0 + n / 64).toUInt8, (0x80 + n % 64).toUInt8]
  else if n < 0x10000 then
    [(0xE0 + n / 4096).toUInt8, (0x80 + n / 64 % 64).toUInt8, (0x80 + n % 64).toUInt8]
  else
    [(0xF0 + n / 262144).toUInt8, (0x80 + n / 4096 % 64).toUInt8, (0x80 + n / 64 % 64).toUInt8,
      (0x80 + n % 64).toUInt8]

/-- The bytes of a text. -/
def encode (text : List Char) : List UInt8 := text.flatMap encodeChar

/-- A character of which some bytes have been read: the bits of these, the bounds of the byte that
may follow, and how many bytes are needed after that one. -/
structure Pending where
  value : Nat
  low : Nat
  high : Nat
  more : Nat
  deriving DecidableEq, Repr

/-- What the first byte of a longer character leaves to be read.  The range of the second byte
keeps out overlong forms, surrogates and values past U+10FFFF. -/
def lead? (byte : Nat) : Option Pending :=
  if byte < 0xC2 then none
  else if byte < 0xE0 then some ⟨byte - 0xC0, 0x80, 0xBF, 0⟩
  else if byte = 0xE0 then some ⟨0, 0xA0, 0xBF, 1⟩
  else if byte = 0xED then some ⟨13, 0x80, 0x9F, 1⟩
  else if byte < 0xF0 then some ⟨byte - 0xE0, 0x80, 0xBF, 1⟩
  else if byte = 0xF0 then some ⟨0, 0x90, 0xBF, 2⟩
  else if byte < 0xF4 then some ⟨byte - 0xF0, 0x80, 0xBF, 2⟩
  else if byte = 0xF4 then some ⟨4, 0x80, 0x8F, 2⟩
  else none

/-- Reads a byte between characters. -/
def first (byte : Nat) : List Char × Option Pending :=
  if byte < 0x80 then
    ([Char.ofNat byte], none)
  else
    match lead? byte with
    | none => ([replacement], none)
    | some pending => ([], some pending)

/-- Reads a byte: the characters it completes, and the character it leaves unfinished. -/
def step (state : Option Pending) (byte : Nat) : List Char × Option Pending :=
  match state with
  | none => first byte
  | some pending =>
    if pending.low ≤ byte ∧ byte ≤ pending.high then
      let value := pending.value * 64 + (byte - 0x80)
      match pending.more with
      | 0 => ([Char.ofNat value], none)
      | more + 1 => ([], some ⟨value, 0x80, 0xBF, more⟩)
    else
      let (done, next) := first byte
      (replacement :: done, next)

/-- Decodes bytes after an unfinished character. -/
def decodeFrom (state : Option Pending) : List UInt8 → List Char
  | [] => if state.isSome then [replacement] else []
  | byte :: rest =>
    let (done, next) := step state byte.toNat
    done ++ decodeFrom next rest

/-- The text of a sequence of bytes. -/
def decode (bytes : List UInt8) : List Char := decodeFrom none bytes

end Oberon.Text.Utf8
