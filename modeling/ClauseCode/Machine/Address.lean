import ClauseCode.Text.Decimal

/-!
# Addresses

A value of the machine lives in a register or in a slot of the environment on the stack.  The
registers that hold the arguments of a call are written `A0`, `A1`, …; they are the registers
`X0`, `X1`, ….  An instruction shows a register as an argument if its level is shallow.
-/

namespace ClauseCode

/-- Where a value lives. -/
inductive Address where
  | reg (index : Int)
  | stack (index : Int)
  deriving DecidableEq, Repr

/-- Whether an instruction is about an argument (`shallow`) or about a term within another
(`deep`).  Levels are numbered, and no instruction needs those beyond the first two. -/
inductive Level where
  | shallow
  | deep
  | other (n : Int)
  deriving DecidableEq, Repr

namespace Level

/-- The level of a given number. -/
def ofInt (n : Int) : Level := if n = 0 then shallow else if n = 1 then deep else other n

/-- The text of a level. -/
def text : Level → String
  | shallow => "shallow"
  | deep => "deep"
  | other n => "Level(" ++ Decimal.text n ++ ")"

end Level

namespace Address

/-- The text of an address. -/
def text : Address → String
  | reg n => "X" ++ Decimal.text n
  | stack n => "Y" ++ Decimal.text n

/-- The text of an argument register. -/
def argText (n : Int) : String := "A" ++ Decimal.text n

/-- The text of an address in an instruction of a given level. -/
def textAt : Level → Address → String
  | .shallow, reg n => argText n
  | _, a => a.text

/-- The address that is left when its index is kept in a word of 64 bits. -/
def wrapped : Address → Address
  | reg n => reg (wrapWord n)
  | stack n => stack (wrapWord n)

/-! ### Reading addresses -/

/-- Why a text is no address. -/
inductive ParseError where
  | badForm (source : String)
  | badIndex (source : String) (error : Decimal.Error)
  deriving DecidableEq, Repr

/-- The message for a text that is no address. -/
def ParseError.message : ParseError → String
  | badForm s => Quoted.text s ++ " doesn't match an address pattern"
  | badIndex s e => "invalid index for address " ++ Quoted.text s ++ ": " ++ e.message

/-- The messages of what brought an error about. -/
def ParseError.causes : ParseError → List String
  | badForm _ => []
  | badIndex _ e => [e.message]

/-- The address and the level that a letter with an index stands for. -/
def ofLetter (letter : Char) (index : Int) : Option (Address × Level) :=
  if letter = 'A' then some (reg index, .shallow)
  else if letter = 'X' then some (reg index, .deep)
  else if letter = 'Y' then some (stack index, .deep)
  else none

/-- Reads an address: one of the letters A, X and Y, and digits.  An argument register is
shallow. -/
def parse (s : String) : Except ParseError (Address × Level) :=
  match s.toList with
  | letter :: d :: ds =>
    if (ofLetter letter 0).isSome && (d :: ds).all Decimal.isDigit then
      match Decimal.parse (String.ofList (d :: ds)) with
      | .error e => .error (.badIndex s e)
      | .ok n =>
        match ofLetter letter n with
        | some a => .ok a
        | none => .error (.badForm s)
    else .error (.badForm s)
  | _ => .error (.badForm s)

/-- Reads an address from a byte text, whose bytes are read as characters. -/
def parseBytes (bs : List UInt8) : Option (Address × Level) :=
  (parse (String.ofList (bs.map byteChar))).toOption

end Address

end ClauseCode
