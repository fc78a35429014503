import TreeSieve.Text.Basic

/-!
# UTF-8

* `Utf8.encode` writes a text as bytes.
* `Utf8.decode` reads bytes. Where they are not well formed, every longest run that could begin a
  character, and every byte that could not, is read as one replacement character.

Decoding is a fold over the bytes: what is known of an unfinished character is how many bytes it
lacks, its value so far, and the range in which its next byte must lie.
-/

namespace TreeSieve.Utf8

/-- The character that stands for bytes that are not well formed. -/
def replacement : Char := '\uFFFD'

/-- A character whose bytes have not all been read: `lacking + 1` more are needed, and the next one
must lie between `low` and `high`. -/
structure Unfinished where
  lacking : Nat
  value : Nat
  low : Nat
  high : Nat

/-- The state of decoding: the characters read, the last one first, and an unfinished one. -/
structure State where
  done : Text
  unfinished : Option Unfinished

/-- Adds a finished character. -/
def State.push (s : State) (c : Char) : State := ⟨c :: s.done, none⟩

/-- Reads a byte where a character begins. The narrower ranges for the second byte exclude
overlong forms, surrogates and values above the last code point. -/
def State.start (s : State) (b : Nat) : State :=
  if b < 0x80 then s.push (Char.ofNat b)
  else if 0xC2 ≤ b && b ≤ 0xDF then ⟨s.done, some ⟨0, b - 0xC0, 0x80, 0xBF⟩⟩
  else if b = 0xE0 then ⟨s.done, some ⟨1, 0, 0xA0, 0xBF⟩⟩
  else if b = 0xED then ⟨s.done, some ⟨1, 0xD, 0x80, 0x9F⟩⟩
  else if 0xE1 ≤ b && b ≤ 0xEF then ⟨s.done, some ⟨1, b - 0xE0, 0x80, 0xBF⟩⟩
  else if b = 0xF0 then ⟨s.done, some ⟨2, 0, 0x90, 0xBF⟩⟩
  else if b = 0xF4 then ⟨s.done, some ⟨2, 4, 0x80, 0x8F⟩⟩
  else if 0xF1 ≤ b && b ≤ 0xF3 then ⟨s.done, some ⟨2, b - 0xF0, 0x80, 0xBF⟩⟩
  else s.push replacement

/-- Reads one byte. A byte that cannot continue the unfinished character ends it as a replacement
and is read again as a first byte. -/
def State.step (s : State) (byte : UInt8) : State :=
  let b := byte.toNat
  match s.unfinished with
  | none => s.start b
  | some u =>
    if u.low ≤ b && b ≤ u.high then
      let value := u.value * 64 + (b - 0x80)
      match u.lacking with
      | 0 => s.push (Char.ofNat value)
      | n + 1 => ⟨s.done, some ⟨n, value, 0x80, 0xBF⟩⟩
    else (s.push replacement).start b

/-- The text read, with a replacement for a character that the end of the bytes cut off. -/
def State.finish (s : State) : Text :=
  match s.unfinished with
  | none => s.done.reverse
  | some _ => (replacement :: s.done).reverse

/-- The text that the bytes stand for. -/
def decode (bytes : List UInt8) : Text := (bytes.foldl State.step ⟨[], none⟩).finish

/-- The bytes of a character: six bits of its number in each byte but the first. -/
def encodeChar (c : Char) : List UInt8 :=
  let n := c.toNat
  let tail (unit : Nat) : UInt8 := UInt8.ofNat (0x80 + n / unit % 0x40)
  if n < 0x80 then [UInt8.ofNat n]
  else if n < 0x800 then [UInt8.ofNat (0xC0 + n / 0x40), tail 1]
  else if n < 0x10000 then [UInt8.ofNat (0xE0 + n / 0x1000), tail 0x40, tail 1]
  else [UInt8.ofNat (0xF0 + n / 0x40000), tail 0x1000, tail 0x40, tail 1]

/-- The bytes of a text. -/
def encode (t : Text) : List UInt8 := t.flatMap encodeChar

end TreeSieve.Utf8
