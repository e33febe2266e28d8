import ClauseCode.Json.Reader
import ClauseCode.Json.Window

/-!
# Reading an input

A scan takes the reader through the units of an input and moves the window along.  It ends with
the values that are complete, and with an error unless the input ends between two values.
-/

namespace ClauseCode.Json

/-- What comes after the last byte of an input: its end, or a failure to read on. -/
inductive Ending where
  | eof
  | failure (reason : String)
  deriving DecidableEq, Repr

/-- The reason of a failure that means no more than that a value is not complete. -/
def shortOfInput : String := "unexpected end of JSON input"

/-- The error of an input that ends where it must not. -/
def Ending.error : Ending → ReadError
  | eof => .unexpectedEnd
  | failure reason => if reason = shortOfInput then .unexpectedEnd else .failed reason

/-- The complete values at the end of the input, and the error if it does not end between two
values. -/
def Reader.finish (r : Reader) (ending : Ending) : List Json × Option ReadError :=
  match r.phase, ending with
  | .number part text, .eof =>
    if part.mayEnd then
      let r := r.deliver (.number (String.ofList text.reverse))
      (r.done.reverse, if r.frames.isEmpty then none else some .unexpectedEnd)
    else (r.done.reverse, some .unexpectedEnd)
  | .value _, .eof => (r.done.reverse, if r.frames.isEmpty then none else some .unexpectedEnd)
  | _, _ => (r.done.reverse, some ending.error)

/-- A reader on its way through an input. -/
structure Scan where
  /-- The reader. -/
  reader : Reader
  /-- The number of bytes that it has taken. -/
  offset : Nat
  /-- The number of bytes up to the end of the last complete value. -/
  mark : Nat
  /-- What it sees of the input. -/
  window : Window

namespace Scan

/-- At the beginning of an input. -/
def start : Scan := ⟨.start, 0, 0, .first⟩

/-- The scan with the reader in a new state at `offset`.  If this takes the reader out of a value,
the value ends there. -/
def advance (s : Scan) (r : Reader) (offset : Nat) : Scan :=
  { s with
    reader := r
    offset := offset
    mark := if r.isIdle && !s.reader.isIdle then offset else s.mark }

/-- Asks for the next byte. -/
def ask (s : Scan) : Scan := { s with window := s.window.ask s.mark s.offset }

/-- Ends a number that a unit cannot continue. -/
def settle (s : Scan) (g : Glyph) : Scan := s.advance (s.reader.settle g) s.offset

/-- Takes a unit whose first byte was asked for, and asks for its other bytes. -/
def step (s : Scan) (g : Glyph) : Except Fault Scan :=
  match s.reader.step g with
  | .error f => .error f
  | .ok r =>
    let n := g.bytes.length
    let w := s.window.askAll s.mark (s.offset + 1) (n - 1)
    .ok ({ s with window := w }.advance r (s.offset + n))

/-- Reads the rest of an input. -/
def run (ending : Ending) (s : Scan) : List Glyph → List Json × Option ReadError
  | [] => s.reader.finish ending
  | g :: gs =>
    let s := s.ask.settle g
    match s.step g with
    | .ok s' => run ending s' gs
    | .error f =>
      (s.reader.done.reverse, some (f.seen g (s.window.view s.offset (g :: gs))))

end Scan

/-- An input: bytes, and what comes after them. -/
structure Input where
  /-- The bytes that can be read. -/
  bytes : List UInt8
  /-- What comes after them. -/
  ending : Ending := .eof

/-- The values in an input before its first error, and that error. -/
def readAll (input : Input) : List Json × Option ReadError :=
  Scan.start.run input.ending (Glyph.decode input.bytes)

end ClauseCode.Json
