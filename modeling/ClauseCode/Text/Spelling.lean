import ClauseCode.Text.Classes
import ClauseCode.Text.Glyph

/-!
# Spelling of names

A variable is spelled with an underscore or an upper-case letter first and with underscores,
letters and decimal digits throughout.  An atom is spelled bare unless it could be taken for
something else: it is quoted if it is empty, reads as a variable or as a numeral, or holds one of
fourteen special characters.
-/

namespace ClauseCode.Spelling

/-- What stands within quotes for a special character; the characters without one are plain. -/
def special : Char → Option (List Char)
  | ' ' => some [' ']
  | '\n' => some ['\\', 'n']
  | '\t' => some ['\\', 't']
  | '\x0b' => some ['\\', 'v']
  | '\x0c' => some ['\\', 'f']
  | '\r' => some ['\\', 'r']
  | ',' => some [',']
  | '(' => some ['(']
  | ')' => some [')']
  | '[' => some ['[']
  | ']' => some [']']
  | '"' => some ['\\', '"']
  | '\\' => some ['\\', '\\']
  | '_' => some ['_']
  | _ => none

/-- Whether a character may stand in a variable name. -/
def isNamePart (c : Char) : Bool := c = '_' || Text.isLetter c || Text.isDigit c

/-- Whether a character may begin a variable name. -/
def beginsVar (c : Char) : Bool := c = '_' || Text.isUpper c

/-- Whether a text is the name of a variable. -/
def isVarName : List Char → Bool
  | [] => false
  | c :: cs => beginsVar c && (c :: cs).all isNamePart

/-- Whether a text is made of decimal digits only. -/
def isNumeral (cs : List Char) : Bool := !cs.isEmpty && cs.all Text.isDigit

/-- Whether an atom of this name is spelled without quotes. -/
def isBare (cs : List Char) : Bool :=
  !(cs.any (fun c => (special c).isSome) || cs.isEmpty || isVarName cs || isNumeral cs)

/-- A character within quotes. -/
def escape (c : Char) : List Char := (special c).getD [c]

/-- A name within quotes. -/
def quoted (cs : List Char) : List Char := '"' :: (cs.flatMap escape ++ ['"'])

/-- The spelling of an atom, from its name. -/
def atomChars (cs : List Char) : List Char := if isBare cs then cs else quoted cs

/-- The spelling of an atom, from its name. -/
def atom (name : String) : String := String.ofList (atomChars name.toList)

/-- Whether a text is the name of a variable. -/
def isVar (name : String) : Bool := isVarName name.toList

/-! ### Names that are byte texts -/

/-- The characters that a byte text shows. -/
def shown (bs : List UInt8) : List Char := (Glyph.decode bs).map Glyph.toChar

/-- The spelling of an atom whose name is a byte text: a bare name keeps its bytes, and a quoted one
shows its stray bytes as U+FFFD. -/
def atomBytes (bs : List UInt8) : List UInt8 :=
  if isBare (shown bs) then bs else (quoted (shown bs)).flatMap Glyph.charBytes

end ClauseCode.Spelling
