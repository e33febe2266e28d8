/-!
# Byte texts

A byte text need not be UTF-8.  `Glyph.decode` splits any byte sequence into characters and stray
bytes, where a byte is stray if no well-formed UTF-8 sequence begins at it; `Glyph.encode` puts
the bytes back. Reading a text as characters shows U+FFFD for every stray byte.
-/

namespace ClauseCode

/-- One unit of a byte text: a character, or a byte that belongs to none. -/
inductive Glyph where
  | char (c : Char)
  | stray (byte : UInt8)
  deriving DecidableEq, Repr

namespace Glyph

/-- The character U+FFFD that stands for a stray byte. -/
def replacement : Char := '\ufffd'

/-- The character that a unit shows. -/
def toChar : Glyph → Char
  | char c => c
  | stray _ => replacement

/-- Whether a byte continues a UTF-8 sequence. -/
def isTail (b : Nat) : Bool := 0x80 ≤ b && b ≤ 0xBF

/-- The character of a two-byte sequence. -/
def two (b₀ b₁ : Nat) : Option Char :=
  if 0xC2 ≤ b₀ && b₀ ≤ 0xDF && isTail b₁ then
    some (Char.ofNat ((b₀ - 0xC0) * 0x40 + (b₁ - 0x80)))
  else none

/-- The character of a three-byte sequence: no overlong form and no surrogate. -/
def three (b₀ b₁ b₂ : Nat) : Option Char :=
  let low := if b₀ = 0xE0 then 0xA0 else 0x80
  let high := if b₀ = 0xED then 0x9F else 0xBF
  if 0xE0 ≤ b₀ && b₀ ≤ 0xEF && low ≤ b₁ && b₁ ≤ high && isTail b₂ then
    some (Char.ofNat ((b₀ - 0xE0) * 0x1000 + (b₁ - 0x80) * 0x40 + (b₂ - 0x80)))
  else none

/-- The character of a four-byte sequence: no overlong form and nothing beyond U+10FFFF. -/
def four (b₀ b₁ b₂ b₃ : Nat) : Option Char :=
  let low := if b₀ = 0xF0 then 0x90 else 0x80
  let high := if b₀ = 0xF4 then 0x8F else 0xBF
  if 0xF0 ≤ b₀ && b₀ ≤ 0xF4 && low ≤ b₁ && b₁ ≤ high && isTail b₂ && isTail b₃ then
    some (Char.ofNat
      ((b₀ - 0xF0) * 0x40000 + (b₁ - 0x80) * 0x1000 + (b₂ - 0x80) * 0x40 + (b₃ - 0x80)))
  else none

/-- The first unit of the byte text `b :: bs`, and the number of bytes of `bs` that it uses up. -/
def first (b : UInt8) (bs : List UInt8) : Glyph × Nat :=
  if b.toNat < 0x80 then (char (Char.ofNat b.toNat), 0)
  else
    match bs with
    | [] => (stray b, 0)
    | b₁ :: bs =>
      match two b.toNat b₁.toNat with
      | some c => (char c, 1)
      | none =>
        match bs with
        | [] => (stray b, 0)
        | b₂ :: bs =>
          match three b.toNat b₁.toNat b₂.toNat with
          | some c => (char c, 2)
          | none =>
            match bs with
            | [] => (stray b, 0)
            | b₃ :: _ =>
              match four b.toNat b₁.toNat b₂.toNat b₃.toNat with
              | some c => (char c, 3)
              | none => (stray b, 0)

/-- The units of a byte text put before `acc` in reverse, after `skip` bytes that are already
read. -/
def decodeOnto (acc : List Glyph) : (skip : Nat) → List UInt8 → List Glyph
  | _, [] => acc
  | skip + 1, _ :: bs => decodeOnto acc skip bs
  | 0, b :: bs => decodeOnto ((first b bs).1 :: acc) (first b bs).2 bs

/-- The units of a byte text. -/
def decode (bs : List UInt8) : List Glyph := (decodeOnto [] 0 bs).reverse

/-- The UTF-8 bytes of a character. -/
def charBytes (c : Char) : List UInt8 :=
  let n := c.toNat
  if n < 0x80 then [n.toUInt8]
  else if n < 0x800 then [(0xC0 + n / 0x40).toUInt8, (0x80 + n % 0x40).toUInt8]
  else if n < 0x10000 then
    [(0xE0 + n / 0x1000).toUInt8, (0x80 + n / 0x40 % 0x40).toUInt8, (0x80 + n % 0x40).toUInt8]
  else
    [(0xF0 + n / 0x40000).toUInt8, (0x80 + n / 0x1000 % 0x40).toUInt8,
      (0x80 + n / 0x40 % 0x40).toUInt8, (0x80 + n % 0x40).toUInt8]

/-- The bytes of a unit. -/
def bytes : Glyph → List UInt8
  | char c => charBytes c
  | stray b => [b]

/-- The bytes of a sequence of units. -/
def encode (gs : List Glyph) : List UInt8 := gs.flatMap bytes

end Glyph

/-- The character with the number of a byte.  A byte below 0x80 stands for it. -/
def byteChar (b : UInt8) : Char := Char.ofNat b.toNat

/-- The UTF-8 bytes of a text. -/
def textBytes (s : String) : List UInt8 := s.toList.flatMap Glyph.charBytes

end ClauseCode
