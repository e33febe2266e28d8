import ClauseCode.Compile.Draft
import ClauseCode.Proofs.Tree
import Mathlib.Algebra.GroupWithZero.Nat

/-!
# Code by recursion

The compiler visits the occurrences of a head or a goal one after another and finds the register
of a nested term again by the place where it stands.  Here the same code is written by recursion
on the tree that a term is read as, and the registers are handed on from one call to the next:

* a goal builds each nested node before the node that holds it (`build`), and hands the registers
  of the children to the instructions for the node (`fill`);
* a head puts aside the children of a node that are nodes themselves, each with a register
  (`split`), and comes back to them in a queue (`checkQueue`).

The places are then not needed any more, and `core` leaves them out of a draft.  That both ways
write the same code is shown in `ClauseCode.Proofs.Visits`.
-/

namespace ClauseCode

/-- The instruction that begins a node. -/
def Kind.opener (k : Kind) (dir : Direction) (level : Level) (n : Nat) (a : Address) :
    Instruction :=
  match k with
  | .functor f => .struct dir (Functor.symbol ⟨f, n⟩) n a
  | .cell => .list dir level a

namespace Draft

variable {P : Policy}

/-- A draft without what it knows about places. -/
def core (d : Draft P) : Draft P := { d with slots := [], part := 0, argsSeen := 0 }

/-! ### The operations of a draft -/

theorem newVar_eq (d : Draft P) (x : String) (arg : Option Int) :
    d.newVar x arg = ((P.var d.pool x arg).1,
      { d with
        pool := (P.var d.pool x arg).2
        homes := (x, (P.var d.pool x arg).1) :: d.homes }) :=
  rfl

@[simp] theorem core_homes (d : Draft P) : d.core.homes = d.homes := rfl

@[simp] theorem core_emitted (d : Draft P) : d.core.emitted = d.emitted := rfl

@[simp] theorem core_emit (d : Draft P) (i : Instruction) : (d.emit i).core = d.core.emit i := rfl

@[simp] theorem core_newVar_fst (d : Draft P) (x : String) (arg : Option Int) :
    (d.core.newVar x arg).1 = (d.newVar x arg).1 := rfl

@[simp] theorem core_home? (d : Draft P) (x : String) : d.core.home? x = d.home? x := rfl

/-- The head argument that a policy is told about when a variable is first met as argument `k`. -/
def firstArg (dir : Direction) (k : Nat) : Option Int :=
  match dir with
  | .check => some k
  | .build => none

theorem argVar_blank (d : Draft P) (dir : Direction) (args : List Term) (k : Nat) :
    d.argVar dir args k Term.anonymous =
      match dir with
      | .check => d
      | .build =>
        let r := (d.free .build args (.var Term.anonymous) k).temp
        r.2.emit (.argVariable .build (.reg r.1) k) := by
  unfold argVar
  rw [if_pos rfl]
  cases dir <;> rfl

theorem argVar_known {d : Draft P} {x : String} {a : Address} (hx : x ≠ Term.anonymous)
    (h : d.home? x = some a) (dir : Direction) (args : List Term) (k : Nat) :
    d.argVar dir args k x =
      if a = .reg k then d else (d.free dir args (.var x) k).emit (.argValue dir a k) := by
  unfold argVar
  rw [if_neg hx, h]

theorem argVar_new {d : Draft P} {x : String} (hx : x ≠ Term.anonymous) (h : d.home? x = none)
    (dir : Direction) (args : List Term) (k : Nat) :
    d.argVar dir args k x =
      let v := d.newVar x (firstArg dir k)
      if v.1 = .reg k then v.2
      else (v.2.free dir args (.var x) k).emit (.argVariable dir v.1 k) := by
  unfold argVar
  rw [if_neg hx, h]
  rfl

/-! ### The variables in a register -/

theorem mem_residents {d : Draft P} {x : String} {k : Nat} :
    x ∈ d.residents k ↔ (x, .reg k) ∈ d.homes := by
  simp [residents]

/-- Either nothing lives in a register, or some variable that lives there is come upon. -/
theorem resident_cases (d : Draft P) (k : Nat) :
    (d.residents k = [] ∧ d.resident k = (none, d)) ∨
      ∃ x, (x, .reg k) ∈ d.homes ∧ d.resident k = (some x, d.pick.2) := by
  unfold resident
  cases h : d.residents k with
  | nil => exact Or.inl ⟨rfl, rfl⟩
  | cons x xs =>
    refine Or.inr ⟨d.pick.1 x xs, mem_residents.1 ?_, rfl⟩
    rw [h]
    exact (d.pick.1 x xs).2

theorem core_resident (d : Draft P) (k : Nat) :
    d.core.resident k = ((d.resident k).1, (d.resident k).2.core) := by
  have hcore : d.core.residents k = d.residents k := rfl
  unfold resident
  rw [hcore]
  cases d.residents k <;> rfl

@[simp] theorem pick_standard (d : Draft .standard) : d.pick.2 = d := rfl

theorem resident_standard (d : Draft .standard) (k : Nat) :
    d.resident k = ((d.residents k).head?, d) := by
  unfold resident
  cases d.residents k <;> rfl

/-! ### Looking up a variable -/

section Homes

variable {d : Draft P} {x y : String} {a : Address}

theorem home?_newVar_self (d : Draft P) (x : String) (arg : Option Int) :
    (d.newVar x arg).2.home? x = some (d.newVar x arg).1 :=
  List.lookup_cons_self

theorem home?_newVar_of_ne (d : Draft P) (arg : Option Int) (h : y ≠ x) :
    (d.newVar x arg).2.home? y = d.home? y :=
  lookup_cons_of_ne h _ _

theorem home?_moveVar (d : Draft P) (x y : String) (a : Address) :
    (d.moveVar x a).home? y = if y = x then (d.home? x).map fun _ => a else d.home? y :=
  lookup_map_set d.homes x y a

/-- Moving a variable changes only its address. -/
theorem map_fst_moveVar (d : Draft P) (x : String) (a : Address) :
    (d.moveVar x a).homes.map Prod.fst = d.homes.map Prod.fst := by
  show (d.homes.map _).map Prod.fst = _
  rw [List.map_map]
  refine List.map_congr_left fun h _ => ?_
  by_cases hh : h.1 = x
  · simp [hh]
  · simp [hh]

theorem mem_homes_of_home? (h : d.home? x = some a) : (x, a) ∈ d.homes := mem_of_lookup h

theorem home?_of_mem (hnodup : (d.homes.map Prod.fst).Nodup) (h : (x, a) ∈ d.homes) :
    d.home? x = some a :=
  (lookup_eq_some_iff_mem hnodup).2 h

theorem not_mem_homes_of_home? (h : d.home? x = none) : x ∉ d.homes.map Prod.fst :=
  lookup_eq_none_iff_not_mem.1 h

end Homes

/-! ### Nodes -/

/-- Writes the instruction for a child without children. -/
def leaf (dir : Direction) (d : Draft P) : Tree String → Draft P
  | .var x =>
    if x = Term.anonymous then d.emit (.void dir 1)
    else
      match d.home? x with
      | some a => d.emit (.subValue dir a)
      | none => (d.newVar x none).2.emit (.subVariable dir (d.newVar x none).1)
  | .constant c => d.emit (.subConstant dir c)
  | .node .. => d

/-- Writes the instructions for the children of a node, with the registers of those that are
built. -/
def fill (d : Draft P) : List (Tree String) → List Int → Draft P
  | .node .. :: ts, r :: rs => fill (d.emit (.subValue .build (.reg r))) ts rs
  | t :: ts, _ :: rs => fill (d.leaf .build t) ts rs
  | _, _ => d

mutual

/-- Builds a node below an argument, and says in which register. -/
def build (d : Draft P) : Tree String → Int × Draft P
  | .node k ts =>
    let b := d.buildAll ts
    let r := b.2.temp
    (r.1, (r.2.emit (k.opener .build .deep ts.length (.reg r.1))).fill ts b.1)
  | _ => (0, d)

/-- Builds the nodes among several trees. -/
def buildAll (d : Draft P) : List (Tree String) → List Int × Draft P
  | [] => ([], d)
  | t :: ts =>
    let b := d.build t
    let bs := b.2.buildAll ts
    (b.1 :: bs.1, bs.2)

end

/-- A node that is checked later. -/
structure Deferred where
  /-- The register that it is put aside in. -/
  reg : Int
  /-- What it stands for. -/
  kind : Kind
  /-- Its children. -/
  children : List (Tree String)

/-- Writes the instructions for the children of a node, and puts aside those that are nodes. -/
def split (d : Draft P) : List (Tree String) → List Deferred × Draft P
  | [] => ([], d)
  | .node k us :: ts =>
    let r := d.temp
    let rest := (r.2.emit (.subVariable .check (.reg r.1))).split ts
    (⟨r.1, k, us⟩ :: rest.1, rest.2)
  | t :: ts => (d.leaf .check t).split ts

/-- The number of inner nodes of what is checked later. -/
def deferredNodes (q : List Deferred) : Nat := (q.map fun e => 1 + Tree.nodesAll e.children).sum

theorem deferredNodes_append (q q' : List Deferred) :
    deferredNodes (q ++ q') = deferredNodes q + deferredNodes q' := by
  simp [deferredNodes]

theorem deferredNodes_split (d : Draft P) (ts : List (Tree String)) :
    deferredNodes (d.split ts).1 = Tree.nodesAll ts := by
  induction ts generalizing d with
  | nil => rfl
  | cons t ts ih =>
    cases t with
    | var x => simpa [split, Tree.nodesAll, Tree.nodes] using ih _
    | constant c => simpa [split, Tree.nodesAll, Tree.nodes] using ih _
    | node k us =>
      have := ih (d.temp.2.emit (.subVariable .check (.reg d.temp.1)))
      simp only [deferredNodes] at this
      simp [split, deferredNodes, Tree.nodesAll, Tree.nodes, this]

/-- Checks what was put aside, in the order in which it was. -/
def checkQueue (d : Draft P) : List Deferred → Draft P
  | [] => d
  | e :: q =>
    let s := (d.emit (e.kind.opener .check .deep e.children.length (.reg e.reg))).split e.children
    s.2.checkQueue (q ++ s.1)
termination_by q => deferredNodes q
decreasing_by
  rw [deferredNodes_append, deferredNodes_split]
  simp [deferredNodes]
  omega

/-! ### Arguments -/

/-- Builds argument `k` of a goal. -/
def buildArg (args : List Term) (k : Nat) (d : Draft P) (t : Term) : Draft P :=
  match t.read with
  | .var x => d.argVar .build args k x
  | .constant c => d.argConstant .build args k t c
  | .node kind ts =>
    let b := d.buildAll ts
    ((b.2.free .build args t k).emit (kind.opener .build .shallow ts.length (.reg k))).fill ts b.1

/-- Builds the arguments of a goal from number `k` on. -/
def buildArgs (args : List Term) (k : Nat) (d : Draft P) : List Term → Draft P
  | [] => d
  | t :: ts => buildArgs args (k + 1) (buildArg args k d t) ts

/-- Checks argument `k` of a head, and puts aside the nodes below it. -/
def checkArg (args : List Term) (k : Nat) (d : Draft P) (t : Term) : List Deferred × Draft P :=
  match t.read with
  | .var x => ([], d.argVar .check args k x)
  | .constant c => ([], d.argConstant .check args k t c)
  | .node kind ts => (d.emit (kind.opener .check .shallow ts.length (.reg k))).split ts

/-- Checks the arguments of a head from number `k` on, and puts aside the nodes below them. -/
def checkArgs (args : List Term) (k : Nat) (d : Draft P) : List Term → List Deferred × Draft P
  | [] => ([], d)
  | t :: ts =>
    let c := checkArg args k d t
    let cs := checkArgs args (k + 1) c.2 ts
    (c.1 ++ cs.1, cs.2)

/-- The draft after the code of a head or a goal. -/
def compose (dir : Direction) (args : List Term) (d : Draft P) : Draft P :=
  let d := { d with emitted := [] }
  match dir with
  | .check => (checkArgs args 0 d args).2.checkQueue (checkArgs args 0 d args).1
  | .build => buildArgs args 0 d args

end Draft

end ClauseCode
