import ClauseCode.Term.Basic

/-!
# Clauses

A clause `head :- goal₁, …, goalₙ.` says that its head holds if its goals do.  In normal form the
head and the goals are compounds: an atom becomes a compound without arguments, and a variable `X`
among the goals becomes `call(X)`.

The head of a clause in normal form and its first goal make one chunk, and each later goal is a
chunk of its own.  A variable that occurs in two chunks must outlive a call: it is permanent.
-/

namespace ClauseCode

/-- A head and the goals of its body. -/
structure Clause where
  /-- What the clause defines. -/
  head : Term
  /-- The goals, in order. -/
  body : List Term
  deriving Repr

/-- A functor applied to arguments. -/
structure Compound where
  /-- The functor's name. -/
  functor : String
  /-- The arguments, in order. -/
  args : List Term
  deriving Repr

/-- A compound as a term. -/
def Compound.toTerm (c : Compound) : Term := .apply c.functor c.args

/-- A clause whose head and goals are compounds. -/
structure NormalClause where
  /-- What the clause defines. -/
  head : Compound
  /-- The goals, in order. -/
  body : List Compound
  deriving Repr

/-- A clause in normal form as a clause. -/
def NormalClause.toClause (c : NormalClause) : Clause := ⟨c.head.toTerm, c.body.map (·.toTerm)⟩

namespace Clause

/-- The text of a clause. -/
def text (c : Clause) : String :=
  match c.body with
  | [] => c.head.text ++ "."
  | body => c.head.text ++ " :-\n  " ++ String.intercalate ",\n  " (Term.texts body) ++ "."

/-- Where a term stands in a clause. -/
inductive Place where
  | head
  | body
  deriving DecidableEq, Repr

/-- A clause without normal form, and the first term that stands in its way. -/
structure NormalizeError where
  /-- Where the term stands. -/
  place : Place
  /-- The clause. -/
  clause : Clause
  /-- The term. -/
  term : Term
  deriving Repr

/-- The message for a clause without normal form. -/
def NormalizeError.message (e : NormalizeError) : String :=
  match e.place with
  | .head =>
    "invalid head term for clause " ++ e.clause.text ++ ": " ++ e.term.text ++
      " (must be atom or comp)"
  | .body =>
    "invalid body term for clause " ++ e.clause.text ++ ": " ++ e.term.text ++
      " (must be atom, var or comp)"

/-- The compound that a head stands for. -/
def headCompound : Term → Option Compound
  | .atom name => some ⟨name, []⟩
  | .comp functor args _ => some ⟨functor, args⟩
  | _ => none

/-- The compound that a goal stands for. -/
def goalCompound : Term → Option Compound
  | .atom name => some ⟨name, []⟩
  | .var x => if x = Term.anonymous then none else some ⟨"call", [.var x]⟩
  | .comp functor args _ => some ⟨functor, args⟩
  | _ => none

/-- The compounds that the goals stand for, or the first goal that stands for none. -/
def goalCompounds : List Term → Except Term (List Compound)
  | [] => .ok []
  | t :: ts =>
    match goalCompound t with
    | none => .error t
    | some c =>
      match goalCompounds ts with
      | .error u => .error u
      | .ok cs => .ok (c :: cs)

/-- The normal form of a clause. -/
def normalize (c : Clause) : Except NormalizeError NormalClause :=
  match headCompound c.head with
  | none => .error ⟨.head, c, c.head⟩
  | some head =>
    match goalCompounds c.body with
    | .error t => .error ⟨.body, c, t⟩
    | .ok body => .ok ⟨head, body⟩

end Clause

/-! ### Permanent variables -/

namespace NormalClause

/-- Notes the variable `x` of a goal: it is permanent if it was seen before. -/
def noteVar (acc : List String × List String) (x : String) : List String × List String :=
  if acc.1.contains x then (acc.1, Term.note acc.2 x) else (acc.1 ++ [x], acc.2)

/-- Notes the variables of a goal. -/
def noteGoal (acc : List String × List String) (goal : Compound) : List String × List String :=
  goal.toTerm.vars.foldl noteVar acc

/-- The permanent variables of a clause; the anonymous variable is never one. -/
def permanent (c : NormalClause) : List String :=
  match c.body with
  | first :: second :: rest =>
    let seen := first.toTerm.varsOnto c.head.toTerm.vars
    ((second :: rest).foldl noteGoal (seen, [])).2.filter (· ≠ Term.anonymous)
  | _ => []

/-- The number of arguments of the widest head or goal. -/
def width (c : NormalClause) : Nat :=
  c.body.foldl (fun n g => max n g.args.length) c.head.args.length

end NormalClause

end ClauseCode
