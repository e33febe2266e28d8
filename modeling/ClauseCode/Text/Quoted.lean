import ClauseCode.Text.Classes
import ClauseCode.Text.Glyph

/-!
# Quoted texts

A text in messages stands between double quotes, a character between single ones.  The quote and
the backslash are escaped by a backslash, printable characters stand as they are, seven control
characters have a letter, and all other characters are written by their number in base sixteen:
`\x` with two digits below 0x80, `\u` with four, `\U` with eight.  A stray byte is written `\x`
with two digits.
-/

namespace ClauseCode.Quoted

/-- The lower-case digits of `n` in base sixteen, filled up with zeros to `width` places. -/
def hex (width n : Nat) : List Char :=
  let digits := Nat.toDigits 16 n
  List.replicate (width - digits.length) '0' ++ digits

/-- The letter that stands for a control character after a backslash. -/
def controlLetter : Char → Option Char
  | '\x07' => some 'a'
  | '\x08' => some 'b'
  | '\x0c' => some 'f'
  | '\n' => some 'n'
  | '\r' => some 'r'
  | '\t' => some 't'
  | '\x0b' => some 'v'
  | _ => none

/-- A character as it stands between two `quote` characters. -/
def escape (quote c : Char) : List Char :=
  if c = quote || c = '\\' then ['\\', c]
  else if Text.isPrintable c then [c]
  else
    match controlLetter c with
    | some letter => ['\\', letter]
    | none =>
      if c.toNat < 0x80 then '\\' :: 'x' :: hex 2 c.toNat
      else if c.toNat < 0x10000 then '\\' :: 'u' :: hex 4 c.toNat
      else '\\' :: 'U' :: hex 8 c.toNat

/-- A unit of a byte text as it stands between two `quote` characters. -/
def escapeGlyph (quote : Char) : Glyph → List Char
  | .char c => escape quote c
  | .stray b => '\\' :: 'x' :: hex 2 b.toNat

/-- A text between double quotes. -/
def text (s : String) : String :=
  String.ofList ('"' :: (s.toList.flatMap (escape '"') ++ ['"']))

/-- A byte text between double quotes. -/
def glyphs (gs : List Glyph) : String :=
  String.ofList ('"' :: (gs.flatMap (escapeGlyph '"') ++ ['"']))

/-- A character between single quotes. -/
def char (c : Char) : String := String.ofList ('\'' :: (escape '\'' c ++ ['\'']))

/-- A unit of a byte text between single quotes. -/
def glyph (g : Glyph) : String := String.ofList ('\'' :: (escapeGlyph '\'' g ++ ['\'']))

end ClauseCode.Quoted
