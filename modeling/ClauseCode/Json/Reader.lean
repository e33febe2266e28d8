import ClauseCode.Json.Basic
import ClauseCode.Json.Fault

/-!
# Reading JSON

A text holds any number of JSON values, one after another.  The reader is a machine that takes one
unit of the text at a time: it knows which part of a value it is in (`Phase`), the arrays and
objects around it (`Frame`), and the values that are complete.  A number ends at the first
character that cannot continue it, so that a character is first used to `settle` a number and then
to take a `step`.

A value is complete as soon as its last character is read, and a number when the next one is.
What follows a complete value cannot spoil it.
-/

namespace ClauseCode.Json

/-! ### The parts of a value -/

/-- An array or an object around the value at hand. -/
inductive Frame where
  /-- The elements read so far, the last one first. -/
  | array (items : List Json)
  /-- The members read so far, the last one first, and the key of the member at hand. -/
  | object (members : List (String × Json)) (key : String)

/-- How far a number has been read. -/
inductive NumberPart where
  | minus
  | zero
  | whole
  | point
  | fraction
  | mark
  | markSign
  | exponent
  deriving DecidableEq, Repr

/-- Whether a number may end here. -/
def NumberPart.mayEnd : NumberPart → Bool
  | zero | whole | fraction | exponent => true
  | _ => false

/-- Whether a character is an ASCII digit. -/
def isDigit (c : Char) : Bool := '0' ≤ c && c ≤ '9'

/-- The part of a number that a character leads to, if it can continue the number. -/
def NumberPart.next (part : NumberPart) (c : Char) : Option NumberPart :=
  match part with
  | minus => if c = '0' then some zero else if isDigit c then some whole else none
  | zero => fractionOrMark c
  | whole => if isDigit c then some whole else fractionOrMark c
  | point => if isDigit c then some fraction else none
  | fraction => if isDigit c then some fraction else markOnly c
  | mark => if c = '+' || c = '-' then some markSign else if isDigit c then some exponent else none
  | markSign => if isDigit c then some exponent else none
  | exponent => if isDigit c then some exponent else none
where
  /-- After the whole part. -/
  fractionOrMark (c : Char) : Option NumberPart := if c = '.' then some .point else markOnly c
  /-- After the digits before an exponent. -/
  markOnly (c : Char) : Option NumberPart := if c = 'e' || c = 'E' then some .mark else none

/-- A unit of a string: a character, or half a surrogate pair written as an escape sequence. -/
inductive StringUnit where
  | char (c : Char)
  | half (code : Nat)

/-- Whether a code is the first half of a surrogate pair. -/
def isHighHalf (n : Nat) : Bool := 0xD800 ≤ n && n < 0xDC00

/-- Whether a code is the second half of a surrogate pair. -/
def isLowHalf (n : Nat) : Bool := 0xDC00 ≤ n && n < 0xE000

/-- The unit of a string that the escape sequence of a code stands for. -/
def StringUnit.ofCode (n : Nat) : StringUnit :=
  if isHighHalf n || isLowHalf n then half n else char (Char.ofNat n)

/-- The character of a surrogate pair. -/
def pairChar (high low : Nat) : Char :=
  Char.ofNat (0x10000 + (high - 0xD800) * 0x400 + (low - 0xDC00))

/-- The characters of the units in `units`, the last one first, put before `cs`.  Two halves of a
pair that meet make one character, any other half is U+FFFD. -/
def assemble (cs : List Char) : List StringUnit → List Char
  | [] => cs
  | .char c :: us => assemble (c :: cs) us
  | .half low :: .half high :: us =>
    if isLowHalf low && isHighHalf high then assemble (pairChar high low :: cs) us
    else assemble (Glyph.replacement :: cs) (.half high :: us)
  | .half _ :: us => assemble (Glyph.replacement :: cs) us

/-- Which part of a value the reader is in. -/
inductive Phase where
  /-- Before a value; right after `[` the array may also end. -/
  | value (mayClose : Bool)
  /-- Before a key; right after `\x7b` the object may also end. -/
  | key (mayClose : Bool)
  /-- Before the colon after a key. -/
  | colon
  /-- After an element or a member. -/
  | after
  /-- In a literal, before the letters in `left`. -/
  | literal (word : String) (left : List Char) (result : Json)
  /-- In a number, with its characters so far, the last one first. -/
  | number (part : NumberPart) (text : List Char)
  /-- In a string or a key, with its units so far, the last one first. -/
  | string (isKey : Bool) (units : List StringUnit)
  /-- After a backslash. -/
  | escape (isKey : Bool) (units : List StringUnit)
  /-- After `\u` and fewer than four digits, the last one first. -/
  | code (isKey : Bool) (units : List StringUnit) (digits : List Char)

/-- The state of the reader. -/
structure Reader where
  /-- The part of a value it is in. -/
  phase : Phase
  /-- The arrays and objects around it, the innermost first. -/
  frames : List Frame
  /-- The complete values, the last one first. -/
  done : List Json

namespace Reader

/-- Before the first value. -/
def start : Reader := ⟨.value false, [], []⟩

/-- Arrays and objects nest to this depth. -/
def maxDepth : Nat := 10000

/-- Whether the reader stands between two values. -/
def isIdle (r : Reader) : Bool :=
  match r.phase, r.frames with
  | .value _, [] => true
  | _, _ => false

/-- Takes a complete value to where it belongs. -/
def deliver (r : Reader) (v : Json) : Reader :=
  match r.frames with
  | [] => ⟨.value false, [], v :: r.done⟩
  | .array items :: fs => ⟨.after, .array (v :: items) :: fs, r.done⟩
  | .object members key :: fs => ⟨.after, .object (setMember key v members) key :: fs, r.done⟩

/-- Ends the array or object at hand. -/
def close (r : Reader) : Reader :=
  match r.frames with
  | [] => r
  | .array items :: fs => deliver { r with frames := fs } (.array items.reverse)
  | .object members _ :: fs => deliver { r with frames := fs } (.object members.reverse)

/-- Begins an array or object. -/
def enter (r : Reader) (f : Frame) (p : Phase) : Except Fault Reader :=
  if r.frames.length < maxDepth then .ok { r with phase := p, frames := f :: r.frames }
  else .error .tooDeep

/-- Ends a string or a key. -/
def endString (r : Reader) (isKey : Bool) (units : List StringUnit) : Reader :=
  let s := String.ofList (assemble [] units)
  if isKey then
    match r.frames with
    | .object members _ :: fs => { r with phase := .colon, frames := .object members s :: fs }
    | _ => r
  else deliver r (.string s)

/-- Whether a character may stand between the parts of a value. -/
def isSpace (c : Char) : Bool := c = ' ' || c = '\t' || c = '\n' || c = '\r'

/-- Begins a value. -/
def startValue (r : Reader) (mayClose : Bool) (c : Char) : Except Fault Reader :=
  if c = '\x7b' then r.enter (.object [] "") (.key true)
  else if c = '[' then r.enter (.array []) (.value true)
  else if c = ']' && mayClose then .ok r.close
  else if c = '"' then .ok { r with phase := .string false [] }
  else if c = '-' then .ok { r with phase := .number .minus ['-'] }
  else if c = '0' then .ok { r with phase := .number .zero ['0'] }
  else if isDigit c then .ok { r with phase := .number .whole [c] }
  else if c = 't' then .ok { r with phase := .literal "true" ['r', 'u', 'e'] (.bool true) }
  else if c = 'f' then .ok { r with phase := .literal "false" ['a', 'l', 's', 'e'] (.bool false) }
  else if c = 'n' then .ok { r with phase := .literal "null" ['u', 'l', 'l'] .null }
  else .error (.misplaced .valueStart)

/-- Goes on after an element or a member. -/
def goOn (r : Reader) (g : Glyph) : Except Fault Reader :=
  match r.frames with
  | .array _ :: _ =>
    if g = .char ',' then .ok { r with phase := .value false }
    else if g = .char ']' then .ok r.close
    else .error (.misplaced .afterElement)
  | .object _ _ :: _ =>
    if g = .char ',' then .ok { r with phase := .key false }
    else if g = .char '\x7d' then .ok r.close
    else .error (.misplaced .afterMember)
  | [] => .error (.misplaced .valueStart)

/-- The unit that a letter after a backslash stands for. -/
def escapeLetter : Char → Option Char
  | '"' => some '"'
  | '\\' => some '\\'
  | '/' => some '/'
  | 'b' => some '\x08'
  | 'f' => some '\x0c'
  | 'n' => some '\n'
  | 'r' => some '\r'
  | 't' => some '\t'
  | _ => none

/-- The value of a digit in base sixteen. -/
def hexValue (c : Char) : Option Nat :=
  if isDigit c then some (c.toNat - '0'.toNat)
  else if 'a' ≤ c && c ≤ 'f' then some (c.toNat - 'a'.toNat + 10)
  else if 'A' ≤ c && c ≤ 'F' then some (c.toNat - 'A'.toNat + 10)
  else none

/-- The value of digits in base sixteen, the last one first. -/
def hexCode : List Char → Nat
  | [] => 0
  | c :: cs => 16 * hexCode cs + (hexValue c).getD 0

/-- Takes a unit after `\u` and fewer than four digits. -/
def takeCode (r : Reader) (isKey : Bool) (units : List StringUnit) (digits : List Char)
    (g : Glyph) : Except Fault Reader :=
  if (hexValue g.toChar).isNone then .error (.badEscape ('\\' :: 'u' :: digits.reverse) 6)
  else if digits.length < 3 then
    .ok { r with phase := .code isKey units (g.toChar :: digits) }
  else .ok { r with phase := .string isKey (.ofCode (hexCode (g.toChar :: digits)) :: units) }

/-- Takes a unit after a backslash. -/
def takeEscape (r : Reader) (isKey : Bool) (units : List StringUnit) (g : Glyph) :
    Except Fault Reader :=
  if g = .char 'u' then .ok { r with phase := .code isKey units [] }
  else
    match escapeLetter g.toChar with
    | some c => .ok { r with phase := .string isKey (.char c :: units) }
    | none => .error (.badEscape ['\\'] 2)

/-- Takes a unit within a string. -/
def takeString (r : Reader) (isKey : Bool) (units : List StringUnit) (g : Glyph) :
    Except Fault Reader :=
  if g = .char '"' then .ok (r.endString isKey units)
  else if g = .char '\\' then .ok { r with phase := .escape isKey units }
  else if g.toChar.toNat < 0x20 then .error (.misplaced .string)
  else .ok { r with phase := .string isKey (.char g.toChar :: units) }

/-- Takes a unit within a literal. -/
def takeLiteral (r : Reader) (word : String) (left : List Char) (v : Json) (g : Glyph) :
    Except Fault Reader :=
  match left with
  | [] => .ok (r.deliver v)
  | c :: cs =>
    if g = .char c then
      if cs.isEmpty then .ok (r.deliver v) else .ok { r with phase := .literal word cs v }
    else .error (.misplaced (.literal word c))

/-- Ends a number that a unit cannot continue. -/
def settle (r : Reader) (g : Glyph) : Reader :=
  match r.phase with
  | .number part text =>
    if part.mayEnd && (part.next g.toChar).isNone then
      r.deliver (.number (String.ofList text.reverse))
    else r
  | _ => r

/-- Takes a unit that does not end a number. -/
def step (r : Reader) (g : Glyph) : Except Fault Reader :=
  match r.phase with
  | .value mayClose =>
    match g with
    | .char c => if isSpace c then .ok r else r.startValue mayClose c
    | .stray _ => .error (.misplaced .valueStart)
  | .key mayClose =>
    if isSpace g.toChar then .ok r
    else if g = .char '"' then .ok { r with phase := .string true [] }
    else if g = .char '\x7d' && mayClose then .ok r.close
    else .error (.misplaced .keyStart)
  | .colon =>
    if isSpace g.toChar then .ok r
    else if g = .char ':' then .ok { r with phase := .value false }
    else .error (.misplaced .afterKey)
  | .after => if isSpace g.toChar then .ok r else r.goOn g
  | .literal word left v => r.takeLiteral word left v g
  | .number part text =>
    match part.next g.toChar with
    | some part' => .ok { r with phase := .number part' (g.toChar :: text) }
    | none => .error (.misplaced .number)
  | .string isKey units => r.takeString isKey units g
  | .escape isKey units => r.takeEscape isKey units g
  | .code isKey units digits => r.takeCode isKey units digits g

end Reader

end ClauseCode.Json
