import ClauseCode.Machine.Instruction
import ClauseCode.Term.Basic

/-!
# Instructions as terms

An instruction can be written as a compound that looks like its text, as in `get_structure(f/2,
X0)`.  The first operand names the address or the value, the second the register.
`Instruction.ofTerm` reads this form and `Instruction.toTerm` writes it.
-/

namespace ClauseCode

namespace Instruction

/-- Why the operands of an instruction cannot be read. -/
inductive OperandError where
  | functorKind (term : Term)
  | functorText (error : Functor.ParseError)
  | addressKind (term : Term)
  | addressText (error : Address.ParseError)
  | notArgument (term : Term)
  | notConstant (term : Term)
  | notInt (term : Term)
  | unknown (functor : Functor)
  deriving Repr

/-- The message for operands that cannot be read. -/
def OperandError.message : OperandError → String
  | functorKind t => "functor must be an atom, got " ++ t.text
  | functorText e => e.message
  | addressKind t => "invalid address " ++ t.text
  | addressText e => e.message
  | notArgument t => "expected argument register, got " ++ t.text
  | notConstant t => "invalid constant " ++ t.text
  | notInt t => "expected int, got " ++ t.text
  | unknown f => "unhandled instruction " ++ f.text

/-- The messages of what brought an error about. -/
def OperandError.causes : OperandError → List String
  | functorText e => e.causes
  | addressText e => e.causes
  | _ => []

/-- Why a term is no instruction. -/
inductive DecodeError where
  | notCompound (term : Term)
  | operand (term : Term) (error : OperandError)
  deriving Repr

/-- The message for a term that is no instruction. -/
def DecodeError.message : DecodeError → String
  | notCompound t => "invalid instruction representation " ++ t.text
  | operand t e => "decode " ++ t.text ++ ": " ++ e.message

/-- The messages of what brought an error about, the nearest first. -/
def DecodeError.causes : DecodeError → List String
  | notCompound _ => []
  | operand _ e => e.message :: e.causes

/-! ### Operands -/

/-- Reads a functor, written as an atom. -/
def functorOperand : Term → Except OperandError Functor
  | .atom name =>
    match Functor.parse name with
    | .ok f => .ok f
    | .error e => .error (.functorText e)
  | t => .error (.functorKind t)

/-- Reads an address, written as a variable or an atom. -/
def addressOperand : Term → Except OperandError (Address × Level)
  | .var name | .atom name =>
    match Address.parse name with
    | .ok a => .ok a
    | .error e => .error (.addressText e)
  | t => .error (.addressKind t)

/-- Reads the number of an argument register. -/
def argOperand (t : Term) : Except OperandError Int :=
  match addressOperand t with
  | .ok (.reg n, .shallow) => .ok n
  | .ok _ => .error (.notArgument t)
  | .error e => .error e

/-- Reads a constant. -/
def constantOperand : Term → Except OperandError Constant
  | .atom name => .ok (.atom name)
  | .int n => .ok (.int n)
  | t => .error (.notConstant t)

/-- Reads an integer. -/
def intOperand : Term → Except OperandError Int
  | .int n => .ok n
  | t => .error (.notInt t)

/-! ### Mnemonics -/

/-- What an instruction does: one of nine operations. -/
inductive Mnemonic where
  | constant
  | list
  | struct
  | argVariable
  | argValue
  | subConstant
  | subVariable
  | subValue
  | void
  deriving DecidableEq, Repr

/-- The operations, in the order above. -/
def Mnemonic.all : List Mnemonic :=
  [constant, list, struct, argVariable, argValue, subConstant, subVariable, subValue, void]

/-- The name of an operation in a direction. -/
def Mnemonic.name (d : Direction) : Mnemonic → String
  | constant => d.argWord ++ "constant"
  | list => d.argWord ++ "list"
  | struct => d.argWord ++ "structure"
  | argVariable => d.argWord ++ "variable"
  | argValue => d.argWord ++ "value"
  | subConstant => d.subWord ++ "constant"
  | subVariable => d.subWord ++ "variable"
  | subValue => d.subWord ++ "value"
  | void => d.subWord ++ "void"

/-- Each operation in each direction. -/
def Mnemonic.table : List (Direction × Mnemonic) :=
  Mnemonic.all.map (Direction.check, ·) ++ Mnemonic.all.map (Direction.build, ·)

/-- The direction and the operation of a name. -/
def Mnemonic.ofName (name : String) : Option (Direction × Mnemonic) :=
  Mnemonic.table.find? fun p => p.2.name p.1 = name

/-! ### Reading and writing -/

/-- Reads the operands of an operation from left to right. -/
def ofOperands (d : Direction) (op : Mnemonic) (args : List Term) :
    Except OperandError Instruction :=
  match op, args with
  | .constant, [c, a] => do
    let c ← constantOperand c
    let (reg, level) ← addressOperand a
    return .constant d level c reg
  | .list, [a] => do
    let (reg, level) ← addressOperand a
    return .list d level reg
  | .struct, [f, a] => do
    let f ← functorOperand f
    let (reg, _) ← addressOperand a
    return .struct d f.symbol f.arity reg
  | .argVariable, [a, k] => do
    let (reg, _) ← addressOperand a
    let k ← argOperand k
    return .argVariable d reg k
  | .argValue, [a, k] => do
    let (reg, _) ← addressOperand a
    let k ← argOperand k
    return .argValue d reg k
  | .subConstant, [c] => do
    let c ← constantOperand c
    return .subConstant d c
  | .subVariable, [a] => do
    let (addr, _) ← addressOperand a
    return .subVariable d addr
  | .subValue, [a] => do
    let (addr, _) ← addressOperand a
    return .subValue d addr
  | .void, [n] => do
    let n ← intOperand n
    return .void d n
  | _, _ => .error (.unknown ⟨op.name d, args.length⟩)

/-- Reads an instruction from its name and its operands. -/
def ofParts (functor : String) (args : List Term) : Except OperandError Instruction :=
  match Mnemonic.ofName functor with
  | some (d, op) => ofOperands d op args
  | none => .error (.unknown ⟨functor, args.length⟩)

/-- Reads an instruction that is written as a term. -/
def ofTerm (t : Term) : Except DecodeError Instruction :=
  match t with
  | .comp functor args _ =>
    match ofParts functor args with
    | .ok i => .ok i
    | .error e => .error (.operand t e)
  | _ => .error (.notCompound t)

/-- A constant as a term. -/
def constantTerm : Constant → Term
  | .atom name => .atom name
  | .int n => .int n

/-- An instruction as a term. -/
def toTerm : Instruction → Term
  | constant d level c reg =>
    .apply (Mnemonic.constant.name d) [constantTerm c, .var (reg.textAt level)]
  | list d level reg => .apply (Mnemonic.list.name d) [.var (reg.textAt level)]
  | struct d symbol arity reg =>
    .apply (Mnemonic.struct.name d) [.atom (Functor.text ⟨symbol.name, arity⟩), .var reg.text]
  | argVariable d reg arg =>
    .apply (Mnemonic.argVariable.name d) [.var reg.text, .var (Address.argText arg)]
  | argValue d reg arg =>
    .apply (Mnemonic.argValue.name d) [.var reg.text, .var (Address.argText arg)]
  | subConstant d c => .apply (Mnemonic.subConstant.name d) [constantTerm c]
  | subVariable d addr => .apply (Mnemonic.subVariable.name d) [.var addr.text]
  | subValue d addr => .apply (Mnemonic.subValue.name d) [.var addr.text]
  | void d n => .apply (Mnemonic.void.name d) [.int n]

end Instruction

end ClauseCode
