import ClauseCode.Machine.Address
import ClauseCode.Text.Lines

/-!
# Allocation policies

While a clause is compiled, a policy says where its variables live and which registers are free.
It is asked for the address of a variable once, when the variable is first met; afterwards the
compiler remembers the answer.  Any policy will do for the compiler, also one that answers the same
register for several variables.  The compiler keeps the addresses of variables in no order, and so
which of these variables it comes upon first may be different each time; this is left to the policy
as well (`pick`).

The `standard` policy keeps variables in place where it can, and `table` gives the addresses of some
variables beforehand.  `traced` writes down what another policy was asked and what it answered, and
`inWords` keeps the numbers that it answers in words of 64 bits.
-/

namespace ClauseCode

/-- Where the variables of a clause live. -/
structure Policy where
  /-- What the policy remembers. -/
  State : Type
  /-- The start for a clause whose widest head or goal has `numArgs` arguments, with its permanent
  variables. -/
  start : (numArgs : Int) → (permanent : List String) → State
  /-- The address of a variable, with the head argument where it is first met if it is met there. -/
  var : State → (name : String) → (arg : Option Int) → Address × State
  /-- A fresh register. -/
  temp : State → Int × State
  /-- The number of registers, those of the arguments included. -/
  registers : State → Int
  /-- Which of several variables in a register is come upon first. -/
  pick : State → Choice String × State

namespace Policy

/-- What the standard policy remembers. -/
structure Counters where
  /-- The next free register. -/
  top : Int
  /-- The next free stack slot. -/
  slots : Int
  /-- The variables that live on the stack. -/
  permanent : List String
  deriving Repr

/-- Permanent variables take stack slots in turn, a variable first met as a head argument stays in
its register, and everything else takes the registers after those of the arguments. -/
def standard : Policy where
  State := Counters
  start numArgs permanent := ⟨numArgs, 0, permanent⟩
  var s x arg :=
    if s.permanent.contains x then (.stack s.slots, { s with slots := s.slots + 1 })
    else
      match arg with
      | some k => (.reg k, s)
      | none => (.reg s.top, { s with top := s.top + 1 })
  temp s := (s.top, { s with top := s.top + 1 })
  registers s := s.top
  pick s := (.first, s)

/-- What a policy with a table remembers. -/
structure TableState where
  /-- The next free register. -/
  top : Int
  /-- The first address of the table that was needed and could not be read. -/
  failure : Option Address.ParseError
  deriving Repr

/-- Variables live at the address that a table gives for them, and in fresh registers otherwise.
The fresh registers begin at `top`, or after those of the arguments. -/
def table (homes : String → Option (Except Address.ParseError Address)) (top : Option Int) :
    Policy where
  State := TableState
  start numArgs _ := ⟨top.getD numArgs, none⟩
  var s x _ :=
    match homes x with
    | none => (.reg s.top, { s with top := s.top + 1 })
    | some (.ok a) => (a, s)
    | some (.error e) => (.reg s.top, { s with failure := s.failure.or (some e) })
  temp s := (s.top, { s with top := s.top + 1 })
  registers s := s.top
  pick s := (.first, s)

/-- A policy whose registers and slots are numbered by words of 64 bits. -/
def inWords (P : Policy) : Policy where
  State := P.State
  start := P.start
  var s x arg :=
    let (a, s) := P.var s x arg
    (a.wrapped, s)
  temp s :=
    let (r, s) := P.temp s
    (wrapWord r, s)
  registers s := wrapWord (P.registers s)
  pick := P.pick

/-! ### Traces -/

/-- What a policy was asked and what it answered. -/
inductive Call where
  | start (numArgs : Int) (permanent : List String)
  | var (name : String) (arg : Option Int) (answer : Address)
  | temp (answer : Int)
  deriving DecidableEq, Repr

/-- Puts a name in its place in a list in increasing order. -/
def insertName (x : String) : List String → List String
  | [] => [x]
  | y :: ys => if x < y then x :: y :: ys else y :: insertName x ys

/-- Names in increasing order. -/
def sortNames (xs : List String) : List String := xs.foldr insertName []

/-- The text of a call. -/
def Call.text : Call → String
  | start n permanent =>
    "new " ++ Decimal.text n ++ " [" ++ String.intercalate " " (sortNames permanent) ++ "]"
  | var x arg a => "var " ++ x ++ " " ++ Decimal.text (arg.getD (-1)) ++ " -> " ++ a.text
  | temp r => "temp -> " ++ (Address.reg r).text

/-- A policy that also writes down its calls, the last one first. -/
def traced (P : Policy) : Policy where
  State := P.State × List Call
  start numArgs permanent := (P.start numArgs permanent, [.start numArgs permanent])
  var s x arg :=
    let (a, s') := P.var s.1 x arg
    (a, s', .var x arg a :: s.2)
  temp s :=
    let (r, s') := P.temp s.1
    (r, s', .temp r :: s.2)
  registers s := P.registers s.1
  pick s :=
    let (choice, s') := P.pick s.1
    (choice, s', s.2)

end Policy

end ClauseCode
