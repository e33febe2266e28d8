import ClauseCode.Compile.Code
import ClauseCode.Compile.Draft
import ClauseCode.Json.Basic

/-!
# Compiled clauses

A clause is brought into normal form, its head and its goals are compiled one after another with
the same draft, and runs of voids are put together.  Compiling fails only if the clause has no
normal form.

A compiled clause is shown as a listing with one instruction on each line, or as JSON.

Compiling also writes a log of debug entries: a message and named fields in alphabetical order.  On
a line, a value is quoted unless it is made of letters, digits and a few signs of ASCII.
-/

namespace ClauseCode

/-! ### The log -/

namespace Log

/-- A debug entry. -/
structure Entry where
  /-- What happened. -/
  message : String
  /-- The fields, in the order of their names. -/
  fields : List (String × String)
  deriving DecidableEq, Repr

/-- Whether a character needs no quotes around it. -/
def isPlain (c : Char) : Bool :=
  ('a' ≤ c && c ≤ 'z') || ('A' ≤ c && c ≤ 'Z') || ('0' ≤ c && c ≤ '9') ||
    "-._/@^+".toList.contains c

/-- A value on a line. -/
def value (s : String) : String := if s.toList.all isPlain then s else Quoted.text s

/-- The line of an entry. -/
def Entry.line (e : Entry) : String :=
  String.intercalate " "
    ("level=debug" :: ("msg=" ++ value e.message) ::
      e.fields.map fun f => f.1 ++ "=" ++ value f.2) ++ "\n"

end Log

/-! ### Code of a clause -/

/-- The code that prepares a call, and what is called. -/
structure CompiledGoal where
  /-- The predicate that is called. -/
  symbol : Symbol
  /-- Its arity. -/
  arity : Int
  /-- The code that builds its arguments. -/
  code : List Instruction
  deriving DecidableEq, Repr

/-- The functor that a goal calls. -/
def CompiledGoal.functor (g : CompiledGoal) : Functor := ⟨g.symbol.name, g.arity⟩

/-- The code of a clause. -/
structure CompiledClause where
  /-- The predicate that the clause belongs to. -/
  functor : Functor
  /-- The number of registers it uses, those of the arguments included. -/
  registers : Int
  /-- The number of stack slots it uses. -/
  permanent : Nat
  /-- The code that checks the arguments. -/
  head : List Instruction
  /-- The calls. -/
  goals : List CompiledGoal
  deriving DecidableEq, Repr

/-- Why a clause is not compiled. -/
inductive CompileError where
  | noNormalForm (error : Clause.NormalizeError)
  /-- The code has a void that does not stand for a single subterm. -/
  | badVoid (error : Code.VoidError)
  deriving Repr

/-- The message for a clause that is not compiled. -/
def CompileError.message : CompileError → String
  | noNormalForm e => e.message
  | badVoid e => e.message

namespace Compound

variable {P : Policy}

/-- The code of a head or a goal, and the draft after it. -/
def code (dir : Direction) (c : Compound) (d : Draft P) :
    Except Code.VoidError (List Instruction × Draft P) :=
  let d := d.write dir c
  match Code.pack dir d.emitted.reverse with
  | .ok is => .ok (is, { d with part := d.part + 1 })
  | .error e => .error e

/-- The functor of a compound. -/
def indicator (c : Compound) : Functor := ⟨c.functor, c.args.length⟩

/-- The code of several goals, and the draft after them. -/
def goals (d : Draft P) : List Compound → Except Code.VoidError (List CompiledGoal × Draft P)
  | [] => .ok ([], d)
  | c :: cs =>
    match c.code .build d with
    | .error e => .error e
    | .ok (is, d) =>
      match goals d cs with
      | .error e => .error e
      | .ok (gs, d) => .ok (⟨c.indicator.symbol, c.args.length, is⟩ :: gs, d)

end Compound

/-- The code of a clause in normal form, and the final state of the allocation policy. -/
def NormalClause.compile (P : Policy) (c : NormalClause) :
    Except Code.VoidError (CompiledClause × P.State) :=
  match c.head.code .check (Draft.start P c.width c.permanent) with
  | .error e => .error e
  | .ok (head, d) =>
    match Compound.goals d c.body with
    | .error e => .error e
    | .ok (goals, d) =>
      .ok (⟨c.head.indicator, P.registers d.pool, c.permanent.length, head, goals⟩, d.pool)

namespace Clause

/-- The code of a clause under an allocation policy, and the final state of the policy. -/
def compileWith (P : Policy) (c : Clause) : Except CompileError (CompiledClause × P.State) :=
  match c.normalize with
  | .error e => .error (.noNormalForm e)
  | .ok n =>
    match n.compile P with
    | .error e => .error (.badVoid e)
    | .ok r => .ok r

/-- The code of a clause under the standard policy. -/
def compile (c : Clause) : Except CompileError CompiledClause :=
  match c.compileWith .standard with
  | .error e => .error e
  | .ok (r, _) => .ok r

end Clause

namespace CompiledClause

/-- The lines of a listing that show code. -/
def codeLines (is : List Instruction) : List String := is.map fun i => "  " ++ i.text ++ "\n"

/-- The lines of a listing that show a goal. -/
def goalLines (g : CompiledGoal) : List String :=
  codeLines g.code ++ ["  call " ++ g.symbol.text ++ "/" ++ Decimal.text g.arity ++ "\n"]

/-- The lines of a listing. -/
def listingLines (c : CompiledClause) : List String :=
  ("% " ++ c.functor.text ++ "\n") :: codeLines c.head ++
    if c.goals.isEmpty then ["  proceed\n"] else c.goals.flatMap goalLines

/-- The listing of a compiled clause. -/
def listing (c : CompiledClause) : String := String.join c.listingLines

/-- Code as a JSON value. -/
def codeJson (is : List Instruction) : Json := .array (is.map fun i => .string i.text)

/-- A goal as a JSON value. -/
def goalJson (g : CompiledGoal) : Json :=
  .object [("Functor", .string g.functor.text), ("Kind", .string g.symbol.kind.text),
    ("Code", codeJson g.code)]

/-- A compiled clause as a JSON value. -/
def toJson (c : CompiledClause) : Json :=
  .object [("Functor", .string c.functor.text),
    ("NumRegisters", .number (Decimal.text c.registers)),
    ("NumPermanent", .number (Decimal.text c.permanent)), ("Head", codeJson c.head),
    ("Goals", .array (c.goals.map goalJson))]

/-- The entry that the log gets for a compiled clause. -/
def logEntry (c : CompiledClause) : Log.Entry :=
  ⟨"compiled clause",
    [("functor", c.functor.text), ("goals", Decimal.text c.goals.length),
      ("head", Decimal.text c.head.length), ("num_permanent", Decimal.text c.permanent),
      ("num_registers", Decimal.text c.registers)]⟩

end CompiledClause

/-! ### Programs -/

/-- The entry that the log gets for the clause with number `n` that is not compiled. -/
def CompileError.logEntry (n : Nat) (e : CompileError) : Log.Entry :=
  ⟨"compile failed", [("clause", Decimal.text n), ("error", e.message)]⟩

/-- Compiles clauses in order up to the first that fails, and writes the log.  The first clause has
the number `n`. -/
def compileFrom (n : Nat) : List Clause → Except CompileError (List CompiledClause) × List Log.Entry
  | [] => (.ok [], [])
  | c :: cs =>
    match c.compile with
    | .error e => (.error e, [e.logEntry n])
    | .ok r =>
      match compileFrom (n + 1) cs with
      | (.error e, log) => (.error e, r.logEntry :: log)
      | (.ok rs, log) => (.ok (r :: rs), r.logEntry :: log)

/-- Compiles clauses in order up to the first that fails, and writes the log. -/
def compileAll (cs : List Clause) : Except CompileError (List CompiledClause) × List Log.Entry :=
  compileFrom 0 cs

end ClauseCode
