import ClauseCode.Text.Quoted

/-!
# Errors in a JSON text

A `Fault` says what is wrong where the reader stands.  A `ReadError` also says what its message
shows of the text: the character at that place, or the escape sequence around it, as far as the
text had come in by then.
-/

namespace ClauseCode.Json

/-- Where a character cannot stand. -/
inductive Place where
  | valueStart
  | keyStart
  | afterKey
  | afterMember
  | afterElement
  | literal (word : String) (expected : Char)
  | number
  | string
  deriving DecidableEq, Repr

/-- The name of a place in messages. -/
def Place.text : Place → String
  | valueStart => "looking for beginning of value"
  | keyStart => "looking for beginning of object key string"
  | afterKey => "after object key"
  | afterMember => "after object key:value pair"
  | afterElement => "after array element"
  | literal word expected =>
    "in literal " ++ word ++ " (expecting " ++ Quoted.char expected ++ ")"
  | number => "in numeric literal"
  | string => "in string"

/-- What is wrong with the unit of a text that comes next. -/
inductive Fault where
  | misplaced (place : Place)
  /-- The unit makes an escape sequence of `size` bytes that begins with `before` mean nothing. -/
  | badEscape (before : List Char) (size : Nat)
  /-- The unit begins an array or object that is nested too deeply. -/
  | tooDeep
  deriving DecidableEq, Repr

/-- What is wrong with a text. -/
inductive ReadError where
  /-- The text ends within a value. -/
  | unexpectedEnd
  | misplaced (g : Glyph) (place : Place)
  /-- An escape sequence that means nothing, with as many of its bytes as were seen. -/
  | badEscape (bytes : List UInt8)
  | tooDeep
  /-- The rest of the text could not be got. -/
  | failed (reason : String)
  deriving DecidableEq, Repr

/-- The error of a fault at the unit `g`, where `view` are the bytes that are seen from there on.
A character that is not seen to its end shows its first byte. -/
def Fault.seen (g : Glyph) (view : List UInt8) : Fault → ReadError
  | misplaced place => .misplaced ((Glyph.decode view).headD g) place
  | badEscape before size => .badEscape ((before.flatMap Glyph.charBytes ++ view).take size)
  | tooDeep => .tooDeep

/-- Whether a piece of text can be shown between backquotes. -/
def isPlain (gs : List Glyph) : Bool :=
  gs.all fun g =>
    let c := g.toChar
    !(c = '`' || c = Glyph.replacement || Text.isBlank c || !Text.isPrintable c)

/-- An escape sequence in a message. -/
def showEscape (bytes : List UInt8) : String :=
  let gs := Glyph.decode bytes
  if isPlain gs then "`" ++ String.ofList (gs.map Glyph.toChar) ++ "`" else Quoted.glyphs gs

/-- The message for a text that is wrong. -/
def ReadError.message : ReadError → String
  | unexpectedEnd => "unexpected EOF"
  | misplaced g place => "invalid character " ++ Quoted.glyph g ++ " " ++ place.text
  | badEscape bytes => "invalid escape sequence " ++ showEscape bytes ++ " in string"
  | tooDeep => "exceeded max depth"
  | failed reason => reason

end ClauseCode.Json
