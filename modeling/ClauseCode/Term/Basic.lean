import ClauseCode.Text.Decimal
import ClauseCode.Text.Spelling

/-!
# Terms

A term is an atom, an integer, a variable, a compound or a list.  A list `[t₁, …, tₙ | T]` is a
chain of cells: the first has head `t₁` and the rest of the chain as its tail, the last has head
`tₙ` and tail `T`. A chain has at least one cell by its type; the constructors here also keep its
tail from being a chain, so that each list has one representation.

Compounds and lists remember whether a variable occurs in them, so that closed subterms are not
searched again.  `vars` lists each variable once, in the order of first occurrence: the arguments of
a compound from left to right, the heads of a list and then its tail.

Two terms are identical if they have the same structure (`same`).  Lists are compared cell by cell,
so that it does not matter how they were put together.

In the text of a term, atoms are spelled as `Spelling.atom` says, compounds show their functor as it
is, and a list shows its tail after a bar unless that is the empty list.
-/

namespace ClauseCode

/-- A term of the logic language. -/
inductive Term where
  /-- A symbol. -/
  | atom (name : String)
  /-- An integer of 64 bits. -/
  | int (value : Int)
  /-- A variable; `_` is anonymous. -/
  | var (name : String)
  /-- A functor applied to arguments, and whether a variable occurs in them. -/
  | comp (functor : String) (args : List Term) (hasVar : Bool)
  /-- A chain of cells with the heads `head :: rest`, its tail, and whether a variable occurs in
  it. -/
  | list (head : Term) (rest : List Term) (tail : Term) (hasVar : Bool)
  deriving Repr

namespace Term

/-- The name of the anonymous variable. -/
def anonymous : String := "_"

/-- The atom that stands for the list without elements. -/
def nil : Term := atom "[]"

/-- Whether a variable occurs in a term, as the term remembers it. -/
def hasVar : Term → Bool
  | atom _ => false
  | int _ => false
  | var _ => true
  | comp _ _ b => b
  | list _ _ _ b => b

/-! ### Constructors -/

/-- A name that is not the name of a variable. -/
structure NameError where
  /-- The name. -/
  name : String
  deriving DecidableEq, Repr

/-- The message for a bad variable name. -/
def NameError.message (e : NameError) : String :=
  "NewVar: invalid name: " ++ Quoted.text e.name

/-- The variable of a given name. -/
def ofName (name : String) : Except NameError Term :=
  if Spelling.isVar name then .ok (var name) else .error ⟨name⟩

/-- A functor applied to arguments. -/
def apply (functor : String) (args : List Term) : Term := comp functor args (args.any hasVar)

/-- A chain of cells with the given heads, at least one, and a tail that is no chain. -/
def chain (head : Term) (rest : List Term) (tail : Term) : Term :=
  list head rest tail ((head :: rest).any hasVar || tail.hasVar)

/-- The list that begins with `terms` and goes on with `tail`. -/
def prepend (terms : List Term) (tail : Term) : Term :=
  match terms, tail with
  | [], _ => tail
  | t :: ts, list head rest tail _ => chain t (ts ++ head :: rest) tail
  | t :: ts, _ => chain t ts tail

/-- The list of the given terms. -/
def ofList (terms : List Term) : Term := prepend terms nil

/-- The list whose last term is its tail; there is none without terms. -/
def ofImproper : List Term → Option Term
  | [] => none
  | t :: ts => some (prepend (t :: ts).dropLast ((t :: ts).getLast (List.cons_ne_nil t ts)))

/-! ### Parts of a list -/

/-- The chain that is left of `head :: rest` after `n` cells. -/
def afterCells (n : Nat) (head : Term) (rest : List Term) (tail : Term) (hasVar : Bool) : Term :=
  match (head :: rest).drop n with
  | [] => tail
  | t :: ts => if hasVar then prepend (t :: ts) tail else list t ts tail false

/-- Why a part of a list cannot be taken. -/
inductive ListError where
  | notAList (term : Term)
  | badIndex (n : Int)
  deriving Repr

/-- The part of a list from its `n`-th term on; at the end this is its tail. -/
def slice (t : Term) (n : Int) : Except ListError Term :=
  match t with
  | list head rest tail b =>
    if n < 0 || n > (head :: rest).length then .error (.badIndex n)
    else .ok (afterCells n.toNat head rest tail b)
  | _ => .error (.notAList t)

/-- The head and the tail of the first cell of a list. -/
def cell (t : Term) : Except ListError (Term × Term) :=
  match t with
  | list head rest tail b => .ok (head, afterCells 1 head rest tail b)
  | _ => .error (.notAList t)

/-- The terms directly below a term: the arguments of a compound, the head and the tail of the first
cell of a list. -/
def children : Term → List Term
  | comp _ args _ => args
  | list head rest tail b => [head, afterCells 1 head rest tail b]
  | _ => []

/-! ### Size -/

mutual

/-- The number of occurrences in a term, where each cell of a list counts as one. -/
def weight : Term → Nat
  | comp _ args _ => 1 + weightAll args
  | list head rest tail _ => 1 + head.weight + weightCells rest + tail.weight
  | _ => 1

/-- The number of occurrences in the terms of a list. -/
def weightAll : List Term → Nat
  | [] => 0
  | t :: ts => t.weight + weightAll ts

/-- The number of occurrences in the cells with the given heads. -/
def weightCells : List Term → Nat
  | [] => 0
  | t :: ts => 1 + t.weight + weightCells ts

end

/-! ### Variables -/

/-- Adds a name at the end of a list that does not have it. -/
def note (xs : List String) (x : String) : List String := if xs.contains x then xs else xs ++ [x]

mutual

/-- The variables in `xs` and then those of a term that are new. -/
def varsOnto : Term → List String → List String
  | atom _, xs => xs
  | int _, xs => xs
  | var x, xs => note xs x
  | comp _ args b, xs => if b then varsOntoAll args xs else xs
  | list head rest tail b, xs =>
    if b then tail.varsOnto (varsOntoAll rest (head.varsOnto xs)) else xs

/-- The variables in `xs` and then those of several terms that are new. -/
def varsOntoAll : List Term → List String → List String
  | [], xs => xs
  | t :: ts, xs => varsOntoAll ts (t.varsOnto xs)

end

/-- The variables of a term, each once, in the order of first occurrence. -/
def vars (t : Term) : List String := t.varsOnto []

/-- Whether a variable occurs in a term. -/
def occurs (x : String) (t : Term) : Bool := t.vars.contains x

/-! ### Identity -/

mutual

/-- Whether two terms are identical. -/
def same : Term → Term → Bool
  | atom a, u => match u with
    | atom b => a = b
    | _ => false
  | int m, u => match u with
    | int n => m = n
    | _ => false
  | var x, u => match u with
    | var y => x = y
    | _ => false
  | comp f args _, u => match u with
    | comp g args' _ => f = g && args.length = args'.length && sameAll args args'
    | _ => false
  | list head rest tail _, u => match u with
    | list head' rest' tail' b =>
      same head head' && sameCells rest (same tail) (afterCells 1 head' rest' tail' b)
    | _ => false

/-- Whether two sequences are identical term by term as far as both go. -/
def sameAll : List Term → List Term → Bool
  | t :: ts, us => match us with
    | u :: us => same t u && sameAll ts us
    | [] => true
  | [], _ => true

/-- Whether a term begins with cells of the given heads and goes on as `next` demands. -/
def sameCells : List Term → (Term → Bool) → Term → Bool
  | [], next, u => next u
  | t :: ts, next, u => match u with
    | list head rest tail b => same t head && sameCells ts next (afterCells 1 head rest tail b)
    | _ => false

end

/-! ### Texts -/

/-- Whether a term is the empty list. -/
def isNil : Term → Bool
  | atom name => name = "[]"
  | _ => false

mutual

/-- The text of a term. -/
def text : Term → String
  | atom name => Spelling.atom name
  | int value => Decimal.text value
  | var name => name
  | comp functor args _ => functor ++ "(" ++ String.intercalate ", " (texts args) ++ ")"
  | list head rest tail _ =>
    let items := String.intercalate ", " (head.text :: texts rest)
    if tail.isNil then "[" ++ items ++ "]" else "[" ++ items ++ "|" ++ tail.text ++ "]"

/-- The texts of several terms. -/
def texts : List Term → List String
  | [] => []
  | t :: ts => t.text :: texts ts

end

/-- The message for a part of a list that cannot be taken. -/
def ListError.message : ListError → String
  | notAList t => t.text ++ " is not a list"
  | badIndex n => "(*List).Slice: invalid index " ++ Decimal.text n

end Term

end ClauseCode
