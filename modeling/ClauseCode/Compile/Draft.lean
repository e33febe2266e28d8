import ClauseCode.Clause
import ClauseCode.Compile.Policy
import ClauseCode.Compile.Traversal
import ClauseCode.Machine.Instruction

/-!
# Code of a head or a goal

The compiler visits the occurrences of a head or a goal in the order of the direction and writes
the instructions for each.  On the way it keeps a draft: the state of the allocation policy, the
current address of each variable met so far, the register of each nested structure or list, and
the instructions.

A goal writes to argument registers that may still hold variables.  Before argument `k` is
written, a variable that lives in register `k` is moved away if it is still needed: if it is a
direct child of the argument, or occurs in a later argument.  If several variables live there, only
the one that the compiler comes upon first is looked at.
-/

namespace ClauseCode

/-- A nested structure or list: the head (0) or goal (1, 2, …) it stands in, and its place there. -/
structure SlotKey where
  /-- The number of the head or goal. -/
  part : Nat
  /-- The depth of the occurrence. -/
  depth : Nat
  /-- The path of the occurrence. -/
  path : List Nat
  deriving DecidableEq, Repr

/-- What the compiler knows while it compiles a clause. -/
structure Draft (P : Policy) where
  /-- The state of the allocation policy. -/
  pool : P.State
  /-- The current address of each variable met so far, the last one first. -/
  homes : List (String × Address)
  /-- The register of each nested structure or list met so far, the last one first. -/
  slots : List (SlotKey × Int)
  /-- The number of the head or goal at hand. -/
  part : Nat
  /-- The number of arguments visited. -/
  argsSeen : Nat
  /-- The instructions of the head or goal at hand, the last one first. -/
  emitted : List Instruction

namespace Draft

variable {P : Policy}

/-- The draft before the head. -/
def start (P : Policy) (numArgs : Nat) (permanent : List String) : Draft P :=
  ⟨P.start numArgs permanent, [], [], 0, 0, []⟩

/-- Writes an instruction. -/
def emit (d : Draft P) (i : Instruction) : Draft P := { d with emitted := i :: d.emitted }

/-- Takes a fresh register. -/
def temp (d : Draft P) : Int × Draft P :=
  let (r, pool) := P.temp d.pool
  (r, { d with pool })

/-- Chooses which of several variables is come upon first. -/
def pick (d : Draft P) : Choice String × Draft P :=
  let (choice, pool) := P.pick d.pool
  (choice, { d with pool })

/-- The current address of a variable, if it was met. -/
def home? (d : Draft P) (x : String) : Option Address := d.homes.lookup x

/-- Gives a variable that is met for the first time its address. -/
def newVar (d : Draft P) (x : String) (arg : Option Int) : Address × Draft P :=
  let (a, pool) := P.var d.pool x arg
  (a, { d with pool, homes := (x, a) :: d.homes })

/-- Gives a variable another address. -/
def moveVar (d : Draft P) (x : String) (a : Address) : Draft P :=
  { d with homes := d.homes.map fun h => if h.1 = x then (x, a) else h }

/-- The register of a nested structure or list: the one it has, or a fresh one at its first
mention.  In a head it is first mentioned by the term around it, in a goal when it is visited
itself. -/
def slot (d : Draft P) (o : Occurrence) : Int × Draft P :=
  let key : SlotKey := ⟨d.part, o.depth, o.path⟩
  match d.slots.lookup key with
  | some r => (r, d)
  | none =>
    let (r, d) := d.temp
    (r, { d with slots := (key, r) :: d.slots })

/-- Whether a term is the variable `x`. -/
def isVar (x : String) : Term → Bool
  | .var y => y = x
  | _ => false

/-- Whether variable `x` is needed once argument `k` is begun: as a direct child of that argument,
or in a later one. -/
def isNeeded (args : List Term) (arg : Term) (k : Nat) (x : String) : Bool :=
  arg.children.any (isVar x) || (args.drop (k + 1)).any (Term.occurs x)

/-- The variables that live in register `k`. -/
def residents (d : Draft P) (k : Nat) : List String :=
  (d.homes.filter fun h => h.2 = .reg k).map Prod.fst

/-- The variable in register `k` that is come upon first, if there is one. -/
def resident (d : Draft P) (k : Nat) : Option String × Draft P :=
  match d.residents k with
  | [] => (none, d)
  | x :: xs =>
    let (choice, d) := d.pick
    (some (choice x xs), d)

/-- Moves the variable that is come upon in register `k` away if it is still needed, and says where
to. -/
def relocate (d : Draft P) (args : List Term) (arg : Term) (k : Nat) : Option Int × Draft P :=
  match d.resident k with
  | (none, d) => (none, d)
  | (some x, d) =>
    if isNeeded args arg k x then
      let (r, d) := d.temp
      (some r, d.moveVar x (.reg r))
    else (none, d)

/-- Makes register `k` free to be written.  A head writes to no argument register. -/
def free (dir : Direction) (args : List Term) (arg : Term) (k : Nat) (d : Draft P) : Draft P :=
  match dir with
  | .check => d
  | .build =>
    match d.relocate args arg k with
    | (some r, d) => d.emit (dir.moveArg (.reg r) k)
    | (none, d) => d

/-- Writes the instruction for a child of a structure or list. -/
def subterm (dir : Direction) (d : Draft P) (o : Occurrence) : Draft P :=
  match o.term with
  | .var x =>
    if x = Term.anonymous then d.emit (.void dir 1)
    else
      match d.home? x with
      | some a => d.emit (.subValue dir a)
      | none =>
        let (a, d) := d.newVar x none
        d.emit (.subVariable dir a)
  | .atom name => d.emit (.subConstant dir (.atom name))
  | .int n => d.emit (.subConstant dir (.int n))
  | .comp .. | .list .. =>
    let (r, d) := d.slot o
    d.emit (dir.nested (.reg r))

/-- Writes the instructions for a variable that is argument `k`. -/
def argVar (dir : Direction) (args : List Term) (k : Nat) (x : String) (d : Draft P) : Draft P :=
  if x = Term.anonymous then
    match dir with
    | .check => d
    | .build =>
      let (r, d) := (d.free dir args (.var x) k).temp
      d.emit (.argVariable dir (.reg r) k)
  else
    match d.home? x with
    | some a => if a = .reg k then d else (d.free dir args (.var x) k).emit (.argValue dir a k)
    | none =>
      let (a, d) := d.newVar x (match dir with | .check => some (k : Int) | .build => none)
      if a = .reg k then d else (d.free dir args (.var x) k).emit (.argVariable dir a k)

/-- Writes the instructions for a constant that is argument `k`. -/
def argConstant (dir : Direction) (args : List Term) (k : Nat) (t : Term) (c : Constant)
    (d : Draft P) : Draft P :=
  (d.free dir args t k).emit (.constant dir .shallow c (.reg k))

/-- The register of a structure or list: that of argument `k` if it is one, that of its slot
otherwise. -/
def compoundReg (dir : Direction) (args : List Term) (k : Nat) (o : Occurrence) (d : Draft P) :
    Int × Draft P :=
  match o.level with
  | .shallow => (k, d.free dir args o.term k)
  | _ => d.slot o

/-- Writes the instructions for one occurrence, with `k` as its argument number if it is shallow. -/
def visitAt (dir : Direction) (args : List Term) (k : Nat) (o : Occurrence) (d : Draft P) :
    Draft P :=
  match o.term with
  | .var x => if o.level = .shallow then d.argVar dir args k x else d
  | .atom name => if o.level = .shallow then d.argConstant dir args k o.term (.atom name) else d
  | .int n => if o.level = .shallow then d.argConstant dir args k o.term (.int n) else d
  | .comp f ts _ =>
    let (r, d) := d.compoundReg dir args k o
    let functor : Functor := ⟨f, ts.length⟩
    o.children.foldl (subterm dir) (d.emit (.struct dir functor.symbol functor.arity (.reg r)))
  | .list .. =>
    let (r, d) := d.compoundReg dir args k o
    o.children.foldl (subterm dir) (d.emit (.list dir o.level (.reg r)))

/-- Writes the instructions for one occurrence.  The arguments are visited in order, so that
counting them gives their numbers. -/
def visit (dir : Direction) (args : List Term) (d : Draft P) (o : Occurrence) : Draft P :=
  if o.isRoot then d
  else if o.level = .shallow then
    visitAt dir args d.argsSeen o { d with argsSeen := d.argsSeen + 1 }
  else visitAt dir args 0 o d

end Draft

/-- The traversal whose order a direction follows. -/
def Direction.traversal : Direction → Term → Traversal
  | check, t => .levels t
  | build, t => .bottomUp t

/-- The draft after the instructions of a head or a goal. -/
def Draft.write {P : Policy} (dir : Direction) (c : Compound) (d : Draft P) : Draft P :=
  (dir.traversal c.toTerm).collect.foldl (Draft.visit dir c.args)
    { d with argsSeen := 0, emitted := [] }

end ClauseCode
