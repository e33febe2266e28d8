import ClauseCode.Machine.Address
import ClauseCode.Machine.Functor

/-!
# Instructions

Instructions come in two directions.  The code of a clause head *checks* the arguments of a call:
`get` instructions look at an argument, `unify` instructions at the subterms of the structure or
list before them.  The code of a goal *builds* the arguments of a call: `put` instructions write
an argument, `set` instructions the subterms of the structure or list before them.  The same nine
operations occur in both directions.
-/

namespace ClauseCode

/-- A value that fits into a single cell. -/
inductive Constant where
  | atom (name : String)
  | int (value : Int)
  deriving DecidableEq, Repr

/-- The text of a constant. -/
def Constant.text : Constant → String
  | atom name => Spelling.atom name
  | int n => Decimal.text n

/-- What code does with the arguments of a call. -/
inductive Direction where
  /-- Code of a head. -/
  | check
  /-- Code of a goal. -/
  | build
  deriving DecidableEq, Repr

/-- An instruction of the machine. -/
inductive Instruction where
  /-- A constant in a register. -/
  | constant (dir : Direction) (level : Level) (value : Constant) (reg : Address)
  /-- A list cell in a register; its head and tail follow. -/
  | list (dir : Direction) (level : Level) (reg : Address)
  /-- A structure in a register; its arguments follow. -/
  | struct (dir : Direction) (symbol : Symbol) (arity : Int) (reg : Address)
  /-- An argument and an address that is used for the first time. -/
  | argVariable (dir : Direction) (reg : Address) (arg : Int)
  /-- An argument and an address that holds a value. -/
  | argValue (dir : Direction) (reg : Address) (arg : Int)
  /-- A constant within a structure or list. -/
  | subConstant (dir : Direction) (value : Constant)
  /-- A subterm and an address that is used for the first time. -/
  | subVariable (dir : Direction) (addr : Address)
  /-- A subterm and an address that holds a value. -/
  | subValue (dir : Direction) (addr : Address)
  /-- A number of subterms without a name. -/
  | void (dir : Direction) (count : Int)
  deriving DecidableEq, Repr

/-- The word that begins the name of an instruction about an argument. -/
def Direction.argWord : Direction → String
  | check => "get_"
  | build => "put_"

/-- The word that begins the name of an instruction about a subterm. -/
def Direction.subWord : Direction → String
  | check => "unify_"
  | build => "set_"

namespace Instruction

/-- The direction that an instruction is named for. -/
def dir : Instruction → Direction
  | constant d .. | list d .. | struct d .. | argVariable d .. | argValue d .. => d
  | subConstant d .. | subVariable d .. | subValue d .. | void d .. => d

/-- Whether an instruction may occur in code of a given direction.  Copying an argument register
into an address belongs to both: a goal does it to save a register before it writes to it. -/
def fits (d : Direction) : Instruction → Bool
  | argVariable .check _ _ => true
  | i => i.dir = d

/-- The text of an instruction. -/
def text : Instruction → String
  | constant d level c reg => d.argWord ++ "constant " ++ c.text ++ ", " ++ reg.textAt level
  | list d level reg => d.argWord ++ "list " ++ reg.textAt level
  | struct d symbol arity reg =>
    d.argWord ++ "structure " ++ symbol.text ++ "/" ++ Decimal.text arity ++ ", " ++ reg.text
  | argVariable d reg arg => d.argWord ++ "variable " ++ reg.text ++ ", " ++ Address.argText arg
  | argValue d reg arg => d.argWord ++ "value " ++ reg.text ++ ", " ++ Address.argText arg
  | subConstant d c => d.subWord ++ "constant " ++ c.text
  | subVariable d addr => d.subWord ++ "variable " ++ addr.text
  | subValue d addr => d.subWord ++ "value " ++ addr.text
  | void d n => d.subWord ++ "void " ++ Decimal.text n

end Instruction

/-! ### The instructions that a direction chooses -/

namespace Direction

/-- Copies argument `arg` into a register, in either direction. -/
def moveArg (_ : Direction) (reg : Address) (arg : Int) : Instruction := .argVariable .check reg arg

/-- Refers to a nested structure or list: in a head it is put aside to be checked later, in a goal
it is built already. -/
def nested : Direction → Address → Instruction
  | check, reg => .subVariable check reg
  | build, reg => .subValue build reg

/-- Whether an instruction is the void of a direction. -/
def isVoid (d : Direction) : Instruction → Bool
  | .void d' _ => d' = d
  | _ => false

/-- Changes the count of a void of a direction. -/
def mapVoid (f : Int → Int) (d : Direction) : Instruction → Instruction
  | .void d' n => if d' = d then .void d' (f n) else .void d' n
  | i => i

/-- Adds one to the count of a void, which is a word of 64 bits. -/
def incrementVoid (d : Direction) : Instruction → Instruction := d.mapVoid nextWord

/-- Adds one to the count of a void, however large. -/
def lengthenVoid (d : Direction) : Instruction → Instruction := d.mapVoid (· + 1)

end Direction

end ClauseCode
