import ClauseCode.Machine.Instruction

/-!
# Code

Code grows by one instruction at a time, and a run of voids is kept as a single void with their
number. A void enters with the count one; only the last instruction is looked at.

Counts are words of 64 bits where instructions are pushed onto any code (`push`).  Where code is
made from its first instruction on (`pack`), a run is counted without a bound: a word is too short
only for more instructions than it can number.
-/

namespace ClauseCode.Code

/-- A void that does not stand for a single subterm. -/
structure VoidError where
  /-- The count of the void. -/
  count : Int
  /-- The void. -/
  instruction : Instruction
  deriving DecidableEq, Repr

/-- The message for a void that does not stand for a single subterm. -/
def VoidError.message (e : VoidError) : String :=
  "wam.Push: void instruction with count " ++ Decimal.text e.count ++ ": " ++ e.instruction.text

/-- Code in reverse with one void more, where `grow` adds one to the count of a void. -/
def addVoid (grow : Instruction → Instruction) (d : Direction) : List Instruction → List Instruction
  | [] => [.void d 1]
  | i :: code => if d.isVoid i then grow i :: code else .void d 1 :: i :: code

/-- Code in reverse with one instruction more. -/
def pushOnto (grow : Instruction → Instruction) (d : Direction) (code : List Instruction)
    (i : Instruction) : Except VoidError (List Instruction) :=
  match i with
  | .void d' n =>
    if d' = d then if n = 1 then .ok (addVoid grow d code) else .error ⟨n, i⟩
    else .ok (i :: code)
  | _ => .ok (i :: code)

/-- Code with one instruction more. -/
def push (d : Direction) (code : List Instruction) (i : Instruction) :
    Except VoidError (List Instruction) :=
  match pushOnto d.incrementVoid d code.reverse i with
  | .ok code => .ok code.reverse
  | .error e => .error e

/-- Code in reverse with several instructions more. -/
def pushAllOnto (grow : Instruction → Instruction) (d : Direction) (code : List Instruction) :
    List Instruction → Except VoidError (List Instruction)
  | [] => .ok code
  | i :: is =>
    match pushOnto grow d code i with
    | .ok code => pushAllOnto grow d code is
    | .error e => .error e

/-- The code that instructions make one after another. -/
def pack (d : Direction) (is : List Instruction) : Except VoidError (List Instruction) :=
  match pushAllOnto d.lengthenVoid d [] is with
  | .ok code => .ok code.reverse
  | .error e => .error e

end ClauseCode.Code
