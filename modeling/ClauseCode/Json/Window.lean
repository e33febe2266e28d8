import ClauseCode.Text.Glyph

/-!
# Reading through a window

A text comes in piece by piece.  What the reader sees of it is a window: a stretch of bytes with
room for a certain number of them.  When the reader asks for a byte behind the window, the window
moves up to the end of the last complete value, so that the value at hand is in it from its first
byte.  A window that stands there already is too small for that value, and its room is doubled.
The room is also doubled while it is small beside the part of the text that is done with.

Only messages depend on the window, because they show what the reader sees and do not wait for more.
-/

namespace ClauseCode.Json

/-- The part of a text that the reader sees. -/
structure Window where
  /-- The number of bytes before it. -/
  start : Nat
  /-- The number of bytes it has room for. -/
  room : Nat
  deriving DecidableEq, Repr

namespace Window

/-- The window at the beginning of a text. -/
def first : Window := ⟨0, 64⟩

/-- The number of bytes before its end. -/
def stop (w : Window) : Nat := w.start + w.room

/-- A window with more room than this is not doubled for speed. -/
def ampleRoom : Nat := 2048

/-- Whether the room is doubled when the last complete value ends at `mark`. -/
def doubles (w : Window) (mark : Nat) : Bool :=
  w.start = mark || (w.room ≤ ampleRoom && w.room < mark / 2)

/-- Moves up to `mark`, where the last complete value ends. -/
def move (w : Window) (mark : Nat) : Window :=
  ⟨mark, if w.doubles mark then 2 * w.room else w.room⟩

/-- The window once the byte at `offset` was asked for. -/
def ask (w : Window) (mark offset : Nat) : Window :=
  if offset < w.stop then w else w.move mark

/-- The window once `n` bytes from `offset` on were asked for, one after another. -/
def askAll (w : Window) (mark offset : Nat) : (n : Nat) → Window
  | 0 => w
  | n + 1 => (w.ask mark offset).askAll mark (offset + 1) n

/-- No message shows more units than this. -/
def shownUnits : Nat := 6

/-- The bytes that are seen of the units `gs`, which begin at `offset`. -/
def view (w : Window) (offset : Nat) (gs : List Glyph) : List UInt8 :=
  (Glyph.encode (gs.take shownUnits)).take (w.stop - offset)

end Window

end ClauseCode.Json
