import ClauseCode.Text.Quoted

/-!
# Decimal integers

Integers are words of 64 bits.  `Decimal.parse` reads an optional sign and ASCII digits; it says
whether a text fails for its form or for its size.  Digits are read from the left, and a number
that reaches 2^64, which is `0x10000000000000000`, is out of range whatever follows.
-/

namespace ClauseCode

/-- The integer that a 64-bit word shows after arithmetic gave `n`. -/
def wrapWord (n : Int) : Int := Int.bmod n 0x10000000000000000

/-- The number after `n`, in a word of 64 bits. -/
def nextWord (n : Int) : Int := wrapWord (n + 1)

theorem wrapWord_of_bounds {n : Int} (hlow : -0x8000000000000000 ≤ n)
    (hhigh : n < 0x8000000000000000) : wrapWord n = n :=
  Int.bmod_eq_of_le_mul_two (by omega) (by omega)

theorem nextWord_wrapWord (n : Int) : nextWord (wrapWord n) = wrapWord (n + 1) :=
  Int.bmod_add_bmod

namespace Decimal

/-- The decimal text of an integer. -/
def text (n : Int) : String := toString n

/-- Why a text is no integer. -/
inductive Fault where
  | malformed
  | outOfRange
  deriving DecidableEq, Repr

/-- A text that could not be read as an integer. -/
structure Error where
  /-- The text. -/
  source : String
  /-- What is wrong with it. -/
  fault : Fault
  deriving DecidableEq, Repr

/-- The words for a fault. -/
def Fault.message : Fault → String
  | .malformed => "invalid syntax"
  | .outOfRange => "value out of range"

/-- The message for a text that is no integer. -/
def Error.message (e : Error) : String :=
  "strconv.Atoi: parsing " ++ Quoted.text e.source ++ ": " ++ e.fault.message

/-- Whether a character is one of the ten ASCII digits. -/
def isDigit (c : Char) : Bool := '0' ≤ c && c ≤ '9'

/-- The value of an ASCII digit. -/
def digitValue (c : Char) : Nat := c.toNat - 48

/-- Reads digits onto the number `n`. -/
def magnitude (n : Nat) : List Char → Except Fault Nat
  | [] => .ok n
  | c :: cs =>
    if isDigit c then
      let m := n * 10 + digitValue c
      if 0x10000000000000000 ≤ m then .error .outOfRange else magnitude m cs
    else .error .malformed

/-- Reads at least one digit. -/
def digits : List Char → Except Fault Nat
  | [] => .error .malformed
  | c :: cs => magnitude 0 (c :: cs)

/-- Reads digits after a sign, with the result bounded by a signed word. -/
def signed (negative : Bool) (cs : List Char) : Except Fault Int :=
  match digits cs with
  | .error e => .error e
  | .ok n =>
    if negative then if n ≤ 0x8000000000000000 then .ok (-(n : Int)) else .error .outOfRange
    else if n < 0x8000000000000000 then .ok (n : Int) else .error .outOfRange

/-- Reads an optional sign and digits. -/
def ofChars : List Char → Except Fault Int
  | '-' :: cs => signed true cs
  | '+' :: cs => signed false cs
  | cs => signed false cs

/-- Reads a text as an integer. -/
def parse (s : String) : Except Error Int :=
  match ofChars s.toList with
  | .ok n => .ok n
  | .error fault => .error ⟨s, fault⟩

end Decimal

end ClauseCode
