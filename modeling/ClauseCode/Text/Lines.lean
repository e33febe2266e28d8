import ClauseCode.Text.Classes
import ClauseCode.Text.Glyph

/-!
# Pieces and lines of texts

A text is a sequence of characters, of bytes, or of the units of a byte text, and so the functions
here work on sequences of any elements.  A sequence is split at every separator, and pieces are put
together with a separator between them; the pieces hold no separator, and there is one piece more
than there are separators.  Trimming takes elements away at both ends.

Indentation is taken away from the lines of a text: the least number of leading spaces among the
lines that have any, and the white space at the ends of the result (`Spacing.dedent`).

Where the order of several elements does not count, a `Choice` says which of them is met first.
-/

namespace ClauseCode

/-- Says which of the elements `x :: xs` is met first, where they come in no order. -/
def Choice (α : Type) : Type := (x : α) → (xs : List α) → {y // y ∈ x :: xs}

/-- The order in which the elements are listed. -/
def Choice.first {α : Type} : Choice α := fun x _ => ⟨x, List.mem_cons_self⟩

namespace Text

variable {α : Type}

/-! ### Separators -/

/-- Splits the rest of a sequence at `sep`, with the elements of the piece at hand and the finished
pieces each in reverse. -/
def splitOnto [DecidableEq α] (sep : α) (piece : List α) (done : List (List α)) :
    List α → List (List α)
  | [] => (piece.reverse :: done).reverse
  | x :: xs =>
    if x = sep then splitOnto sep [] (piece.reverse :: done) xs
    else splitOnto sep (x :: piece) done xs

/-- The pieces of a sequence between the occurrences of `sep`. -/
def pieces [DecidableEq α] (sep : α) (xs : List α) : List (List α) := splitOnto sep [] [] xs

/-- Pieces put together with `sep` between them. -/
def joinPieces (sep : α) : List (List α) → List α
  | [] => []
  | [p] => p
  | p :: q :: ps => p ++ sep :: joinPieces sep (q :: ps)

/-- A sequence without the elements at its two ends that satisfy `p`. -/
def trimEnds (p : α → Bool) (xs : List α) : List α :=
  ((xs.dropWhile p).reverse.dropWhile p).reverse

/-! ### Indentation -/

/-- The elements of a text that set its lines: the space, the line break, and white space of any
kind. -/
structure Spacing (α : Type) where
  /-- The space that lines are indented with. -/
  space : α
  /-- What ends a line. -/
  newline : α
  /-- Whether an element is white space. -/
  isBlank : α → Bool
  newline_ne_space : newline ≠ space
  isBlank_space : isBlank space = true
  isBlank_newline : isBlank newline = true

namespace Spacing

variable [DecidableEq α] (S : Spacing α)

/-- The number of spaces that a line starts with. -/
def leadingSpaces (l : List α) : Nat := (l.takeWhile (· = S.space)).length

/-- The least number of leading spaces among the lines that start with one, at most `bound`. -/
def commonIndent (bound : Nat) (ls : List (List α)) : Nat :=
  ls.foldl (fun m l => if S.leadingSpaces l = 0 then m else min m (S.leadingSpaces l)) bound

/-- A line without its first `n` elements if these are all spaces, and as it is otherwise. -/
def unindent (n : Nat) (l : List α) : List α := if n ≤ S.leadingSpaces l then l.drop n else l

/-- A text without its common indentation and without white space at its ends. -/
def dedent (xs : List α) : List α :=
  let ls := pieces S.newline xs
  trimEnds S.isBlank (joinPieces S.newline (ls.map (S.unindent (S.commonIndent xs.length ls))))

/-- The spacing of texts of characters. -/
def chars : Spacing Char := ⟨' ', '\n', Text.isBlank, by decide, by decide, by decide⟩

/-- The spacing of byte texts. -/
def glyphs : Spacing Glyph :=
  ⟨.char ' ', .char '\n', fun g => Text.isBlank g.toChar, by decide, by decide, by decide⟩

end Spacing

/-- A text without its common indentation and without white space at its ends. -/
def dedent (s : String) : String := String.ofList (Spacing.chars.dedent s.toList)

/-- A byte text without its common indentation and without white space at its ends. -/
def dedentBytes (bs : List UInt8) : List UInt8 :=
  Glyph.encode (Spacing.glyphs.dedent (Glyph.decode bs))

end Text

end ClauseCode
