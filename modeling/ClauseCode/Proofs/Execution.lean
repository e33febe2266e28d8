import ClauseCode.Proofs.Packing
import ClauseCode.Proofs.Tree

/-!
# Running code

The machine has an address space whose registers and stack slots hold trees.  Checking code
compares the arguments of a call with a head: a structure or list instruction looks at a node and
leaves its children to be taken one by one by the instructions that follow.  Building code writes
the arguments of a call: a structure or list instruction empties its address at once and leaves a
node to be filled one child at a time; the address can be read again when the last child is there.

A run ends in one of three ways.  It succeeds, it meets a tree that it does not expect
(`mismatch`), or it is `stuck`: it reads an address without content, or it takes or supplies a
child where there is none to take or supply.

`run_expand` says that it does not matter to a run whether voids are put together.
-/

namespace ClauseCode

/-- Why a run ends early. -/
inductive Fault where
  /-- A tree is not the one that the code expects. -/
  | mismatch
  /-- The code makes no sense at this point. -/
  | stuck
  deriving DecidableEq, Repr

/-- What the next instruction about a subterm is about. -/
inductive Focus where
  /-- The children of a node that are still to be looked at. -/
  | take (rest : List (Tree ℕ))
  /-- A node for an address, with the number of children that are missing and those that are
  there. -/
  | fill (target : Address) (kind : Kind) (missing : ℕ) (done : List (Tree ℕ))
  deriving Repr

/-- The state of the machine. -/
structure Machine where
  /-- What the registers and the stack slots hold. -/
  mem : Address → Option (Tree ℕ)
  /-- What the next instruction about a subterm is about. -/
  focus : Focus
  /-- The next new variable. -/
  next : ℕ

namespace Machine

/-- Stores a tree at an address. -/
def store (s : Machine) (a : Address) (u : Tree ℕ) : Machine :=
  { s with mem := fun b => if b = a then some u else s.mem b }

/-- Discards the content of an address. -/
def discard (s : Machine) (a : Address) : Machine :=
  { s with mem := fun b => if b = a then none else s.mem b }

/-- The content of an address. -/
def fetch (s : Machine) (a : Address) : Except Fault (Tree ℕ) :=
  match s.mem a with
  | some u => .ok u
  | none => .error .stuck

/-- Goes on only if a test succeeds. -/
def expect (s : Machine) (b : Bool) : Except Fault Machine :=
  if b then .ok s else .error .mismatch

/-- Leaves the children of a node to be taken, if the tree is a node of the given kind and
width. -/
def enter (s : Machine) (k : Kind) (n : Int) : Tree ℕ → Except Fault Machine
  | .node k' us =>
    if k' = k ∧ (us.length : Int) = n then .ok { s with focus := .take us } else .error .mismatch
  | _ => .error .mismatch

/-- Stores a node that has all its children. -/
def settle (s : Machine) : Machine :=
  match s.focus with
  | .fill a k 0 us => { s.store a (.node k us) with focus := .take [] }
  | _ => s

/-- Begins a node with `n` children at an address. -/
def begin (s : Machine) (a : Address) (k : Kind) (n : ℕ) : Machine :=
  settle { s.discard a with focus := .fill a k n [] }

/-- Supplies a child of the node at hand. -/
def supply (s : Machine) (u : Tree ℕ) : Except Fault Machine :=
  match s.focus with
  | .fill a k (n + 1) us => .ok (settle { s with focus := .fill a k n (us ++ [u]) })
  | _ => .error .stuck

/-- Takes a new variable. -/
def invent (s : Machine) : Tree ℕ × Machine := (.var s.next, { s with next := s.next + 1 })

/-- Passes over one child, or supplies a new variable as one. -/
def passOne (s : Machine) : Direction → Except Fault Machine
  | .check =>
    match s.focus with
    | .take (_ :: us) => .ok { s with focus := .take us }
    | _ => .error .stuck
  | .build => s.invent.2.supply s.invent.1

/-- Passes over several children. -/
def pass (s : Machine) (d : Direction) : ℕ → Except Fault Machine
  | 0 => .ok s
  | n + 1 => s.passOne d >>= fun s => s.pass d n

/-- Takes the next child of the node at hand. -/
def takeOne (s : Machine) (f : Machine → Tree ℕ → Except Fault Machine) : Except Fault Machine :=
  match s.focus with
  | .take (u :: us) => f { s with focus := .take us } u
  | _ => .error .stuck

/-- What an instruction about a whole argument, structure or list does. -/
def stepArg (s : Machine) : Instruction → Except Fault Machine
  | .constant .check _ c a => s.fetch a >>= fun u => s.expect (u = .constant c)
  | .struct .check f n a => s.fetch a >>= s.enter (.functor f.name) n
  | .list .check _ a => s.fetch a >>= s.enter .cell 2
  | .argVariable .check a k => s.fetch (.reg k) >>= fun u => .ok (s.store a u)
  | .argValue .check a k => s.fetch a >>= fun u => s.fetch (.reg k) >>= fun v => s.expect (u = v)
  | .constant .build _ c a => .ok (s.store a (.constant c))
  | .struct .build f n a => .ok (s.begin a (.functor f.name) n.toNat)
  | .list .build _ a => .ok (s.begin a .cell 2)
  | .argVariable .build a k => .ok ((s.invent.2.store a s.invent.1).store (.reg k) s.invent.1)
  | .argValue .build a k => s.fetch a >>= fun u => .ok (s.store (.reg k) u)
  | _ => .error .stuck

/-- What an instruction about a subterm does. -/
def stepSub (s : Machine) : Instruction → Except Fault Machine
  | .subConstant .check c => s.takeOne fun s u => s.expect (u = .constant c)
  | .subVariable .check a => s.takeOne fun s u => .ok (s.store a u)
  | .subValue .check a => s.takeOne fun s u => s.fetch a >>= fun v => s.expect (u = v)
  | .subConstant .build c => s.supply (.constant c)
  | .subVariable .build a => (s.invent.2.store a s.invent.1).supply s.invent.1
  | .subValue .build a => s.fetch a >>= s.supply
  | .void d n => s.pass d n.toNat
  | _ => .error .stuck

/-- What an instruction does.  One about a whole argument, structure or list comes only when no
child is left to be taken or supplied. -/
def step (s : Machine) (i : Instruction) : Except Fault Machine :=
  match i with
  | .subConstant .. | .subVariable .. | .subValue .. | .void .. => s.stepSub i
  | _ =>
    match s.focus with
    | .take [] => s.stepArg i
    | _ => .error .stuck

/-- Runs code. -/
def run (s : Machine) : List Instruction → Except Fault Machine
  | [] => .ok s
  | i :: is => s.step i >>= fun s => s.run is

theorem run_append (s : Machine) (is js : List Instruction) :
    s.run (is ++ js) = s.run is >>= fun s => s.run js := by
  induction is generalizing s with
  | nil => rfl
  | cons i is ih =>
    rw [List.cons_append, run, run]
    cases h : s.step i with
    | error e => rfl
    | ok s' => exact ih s'

theorem run_concat (s : Machine) (is : List Instruction) (i : Instruction) :
    s.run (is ++ [i]) = s.run is >>= fun s => s.step i := by
  rw [run_append]
  refine congrArg _ (funext fun s' => ?_)
  rw [run]
  cases s'.step i <;> rfl

/-! ### Packed code -/

theorem step_void (s : Machine) (d : Direction) (n : Int) :
    s.step (.void d n) = s.pass d n.toNat := rfl

theorem step_void_one (s : Machine) (d : Direction) : s.step (.void d 1) = s.passOne d := by
  show (s.passOne d >>= fun s => .ok s) = s.passOne d
  cases s.passOne d <;> rfl

theorem run_replicate_void (s : Machine) (d : Direction) (n : ℕ) :
    s.run (List.replicate n (.void d 1)) = s.pass d n := by
  induction n generalizing s with
  | zero => rfl
  | succ n ih =>
    rw [List.replicate_succ, run, pass, step_void_one]
    exact congrArg _ (funext fun s' => ih s')

theorem run_singleton (s : Machine) (i : Instruction) : s.run [i] = s.step i := by
  rw [← List.nil_append [i], run_concat]
  rfl

theorem run_expandOne (s : Machine) (d : Direction) (i : Instruction) :
    s.run (Code.expandOne d i) = s.step i := by
  by_cases hv : d.isVoid i = true
  · obtain ⟨n, rfl⟩ := Code.isVoid_iff.1 hv
    rw [Code.expandOne_void, run_replicate_void, step_void]
  · rw [Bool.not_eq_true] at hv
    rw [Code.expandOne_of_not_isVoid hv, run_singleton]

/-- Taking voids apart does not change what code does. -/
theorem run_expand (s : Machine) (d : Direction) (is : List Instruction) :
    s.run (Code.expand d is) = s.run is := by
  induction is generalizing s with
  | nil => rfl
  | cons i is ih =>
    rw [Code.expand, List.flatMap_cons, run_append, run_expandOne, run]
    exact congrArg _ (funext fun s' => ih s')

end Machine

end ClauseCode
