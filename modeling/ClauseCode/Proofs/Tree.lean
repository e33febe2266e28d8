import ClauseCode.Machine.Instruction
import ClauseCode.Proofs.Pairs
import ClauseCode.Term.Basic
import Mathlib.Data.List.Basic

/-!
# The cell reading of terms

A term is read as a tree: variables and constants are its leaves, and its inner nodes are
compounds and list cells.  A list `[t₁, …, tₙ | T]` is read as `n` nested cells, so that the
reading does not depend on how the list was put together, nor on what its parts remember about
their variables.

Trees are taken over any type of variables.  Terms are read as trees over names; the machine
works with trees over numbers.

The main statement is `Term.read_eq_node`: below a compound or a list, the reading is that of the
children which the traversals visit.
-/

namespace ClauseCode

/-- What an inner node of a tree stands for. -/
inductive Kind where
  /-- A compound with a given functor. -/
  | functor (name : String)
  /-- A list cell. -/
  | cell
  deriving DecidableEq, Repr

/-- A tree with variables from `V`. -/
inductive Tree (V : Type) where
  | var (v : V)
  | constant (c : Constant)
  | node (kind : Kind) (children : List (Tree V))
  deriving Repr

namespace Tree

variable {V W : Type}

/-- Induction on a tree, with the hypothesis for all children of a node. -/
@[elab_as_elim, induction_eliminator]
theorem inductionOn {motive : Tree V → Prop} (var : ∀ v, motive (.var v))
    (constant : ∀ c, motive (.constant c))
    (node : ∀ k ts, (∀ t ∈ ts, motive t) → motive (.node k ts)) (t : Tree V) : motive t :=
  @Tree.rec V motive (fun ts => ∀ t ∈ ts, motive t) var constant node (by simp)
    (fun _ _ ht hts => List.forall_mem_cons.2 ⟨ht, hts⟩) t

mutual

/-- Whether two trees are the same. -/
def decEq [DecidableEq V] : (t u : Tree V) → Decidable (t = u)
  | var v, var w => decidable_of_iff (v = w) (by simp)
  | constant c, constant c' => decidable_of_iff (c = c') (by simp)
  | node k ts, node k' us =>
    match instDecidableEqKind k k', decEqAll ts us with
    | isTrue h, isTrue h' => isTrue (by rw [h, h'])
    | isFalse h, _ => isFalse (by simp [h])
    | _, isFalse h => isFalse (by simp [h])
  | var _, constant _ => isFalse (by simp)
  | var _, node .. => isFalse (by simp)
  | constant _, var _ => isFalse (by simp)
  | constant _, node .. => isFalse (by simp)
  | node .., var _ => isFalse (by simp)
  | node .., constant _ => isFalse (by simp)

/-- Whether two sequences of trees are the same. -/
def decEqAll [DecidableEq V] : (ts us : List (Tree V)) → Decidable (ts = us)
  | [], [] => isTrue rfl
  | t :: ts, u :: us =>
    match decEq t u, decEqAll ts us with
    | isTrue h, isTrue h' => isTrue (by rw [h, h'])
    | isFalse h, _ => isFalse (by simp [h])
    | _, isFalse h => isFalse (by simp [h])
  | [], _ :: _ => isFalse (by simp)
  | _ :: _, [] => isFalse (by simp)

end

instance [DecidableEq V] : DecidableEq (Tree V) := decEq

mutual

/-- The variables of a tree from left to right, one entry for each occurrence. -/
def vars : Tree V → List V
  | var v => [v]
  | constant _ => []
  | node _ ts => varsAll ts

/-- The variables of several trees. -/
def varsAll : List (Tree V) → List V
  | [] => []
  | t :: ts => t.vars ++ varsAll ts

end

mutual

/-- The number of inner nodes of a tree. -/
def nodes : Tree V → Nat
  | var _ => 0
  | constant _ => 0
  | node _ ts => 1 + nodesAll ts

/-- The number of inner nodes of several trees. -/
def nodesAll : List (Tree V) → Nat
  | [] => 0
  | t :: ts => t.nodes + nodesAll ts

end

mutual

/-- The tree that is left when each variable is replaced by a tree. -/
def bind (f : V → Tree W) : Tree V → Tree W
  | var v => f v
  | constant c => constant c
  | node k ts => node k (bindAll f ts)

/-- Replaces the variables of several trees. -/
def bindAll (f : V → Tree W) : List (Tree V) → List (Tree W)
  | [] => []
  | t :: ts => t.bind f :: bindAll f ts

end

theorem varsAll_eq_flatMap (ts : List (Tree V)) : varsAll ts = ts.flatMap vars := by
  induction ts with
  | nil => rfl
  | cons t ts ih => rw [varsAll, ih, List.flatMap_cons]

@[simp] theorem vars_var (v : V) : (var v).vars = [v] := rfl

@[simp] theorem vars_constant (c : Constant) : (constant c : Tree V).vars = [] := rfl

@[simp] theorem mem_vars_node {v : V} {k : Kind} {ts : List (Tree V)} :
    v ∈ (node k ts).vars ↔ ∃ t ∈ ts, v ∈ t.vars := by
  rw [vars, varsAll_eq_flatMap, List.mem_flatMap]

theorem bindAll_eq_map (f : V → Tree W) (ts : List (Tree V)) : bindAll f ts = ts.map (bind f) := by
  induction ts with
  | nil => rfl
  | cons t ts ih => rw [bindAll, ih, List.map_cons]

/-- A tree whose list cells have a head and a tail. -/
inductive Proper : Tree V → Prop
  | var (v : V) : Proper (.var v)
  | constant (c : Constant) : Proper (.constant c)
  | node {k : Kind} {ts : List (Tree V)} (hk : k = .cell → ts.length = 2)
      (hts : ∀ t ∈ ts, Proper t) : Proper (.node k ts)

theorem proper_node_iff {k : Kind} {ts : List (Tree V)} :
    (node k ts).Proper ↔ (k = .cell → ts.length = 2) ∧ ∀ t ∈ ts, t.Proper := by
  constructor
  · rintro (_ | _ | ⟨hk, hts⟩)
    exact ⟨hk, hts⟩
  · rintro ⟨hk, hts⟩
    exact Proper.node hk hts

end Tree

/-! ### Matching -/

mutual

/-- Whether a tree over names becomes a given tree when each name is replaced as `σ` says.  The
anonymous variable stands for any tree, and for another one at each place. -/
def Tree.Matches (σ : String → Tree ℕ) : Tree String → Tree ℕ → Prop
  | .var x, u => x = Term.anonymous ∨ u = σ x
  | .constant c, u => u = .constant c
  | .node k ts, u => ∃ us, u = .node k us ∧ Tree.MatchesAll σ ts us

/-- Whether several trees match, one by one. -/
def Tree.MatchesAll (σ : String → Tree ℕ) : List (Tree String) → List (Tree ℕ) → Prop
  | [], us => us = []
  | t :: ts, us => ∃ v vs, us = v :: vs ∧ t.Matches σ v ∧ Tree.MatchesAll σ ts vs

end

namespace Tree

variable {σ : String → Tree ℕ}

theorem matchesAll_iff {ts : List (Tree String)} {us : List (Tree ℕ)} :
    MatchesAll σ ts us ↔ List.Forall₂ (Matches σ) ts us := by
  induction ts generalizing us with
  | nil => rw [MatchesAll, List.forall₂_nil_left_iff]
  | cons t ts ih =>
    rw [MatchesAll, List.forall₂_cons_left_iff]
    constructor
    · rintro ⟨v, vs, rfl, hv, hvs⟩
      exact ⟨v, vs, hv, ih.1 hvs, rfl⟩
    · rintro ⟨v, vs, hv, hvs, rfl⟩
      exact ⟨v, vs, rfl, hv, ih.2 hvs⟩

@[simp] theorem matches_constant {c : Constant} {u : Tree ℕ} :
    (constant c).Matches σ u ↔ u = constant c := by
  rw [Matches]

@[simp] theorem matches_anonymous {u : Tree ℕ} : (var Term.anonymous).Matches σ u := by
  rw [Matches]
  exact Or.inl rfl

theorem matches_var {x : String} (hx : x ≠ Term.anonymous) {u : Tree ℕ} :
    (var x).Matches σ u ↔ u = σ x := by
  rw [Matches]
  exact or_iff_right hx

theorem matches_node {k : Kind} {ts : List (Tree String)} {u : Tree ℕ} :
    (node k ts).Matches σ u ↔ ∃ us, u = node k us ∧ List.Forall₂ (Matches σ) ts us := by
  rw [Matches]
  exact exists_congr fun us => and_congr_right fun _ => matchesAll_iff

/-- Whether a tree matches depends only on the values of the names that occur. -/
theorem Matches.congr {σ' : String → Tree ℕ} {t : Tree String} {u : Tree ℕ}
    (h : t.Matches σ u) (hσ : ∀ x ∈ t.vars, x ≠ Term.anonymous → σ' x = σ x) :
    t.Matches σ' u := by
  induction t generalizing u with
  | var x =>
    by_cases hx : x = Term.anonymous
    · subst hx
      exact matches_anonymous
    · rw [matches_var hx] at h ⊢
      rw [hσ x (by simp) hx, h]
  | constant c => exact matches_constant.2 (matches_constant.1 h)
  | node k ts ih =>
    obtain ⟨us, rfl, hus⟩ := matches_node.1 h
    refine matches_node.2 ⟨us, rfl, forall₂_imp_of_mem hus fun t ht v hv => ?_⟩
    exact ih t ht hv fun x hx => hσ x (mem_vars_node.2 ⟨t, ht, hx⟩)

end Tree

/-! ### Reading terms -/

namespace Term

/-- Induction on a term, with the hypothesis for all arguments of a compound and all parts of a
list. -/
@[elab_as_elim, induction_eliminator]
theorem inductionOn {motive : Term → Prop} (atom : ∀ name, motive (.atom name))
    (int : ∀ n, motive (.int n)) (var : ∀ x, motive (.var x))
    (comp : ∀ f args b, (∀ t ∈ args, motive t) → motive (.comp f args b))
    (list : ∀ head rest tail b, motive head → (∀ t ∈ rest, motive t) → motive tail →
      motive (.list head rest tail b)) (t : Term) : motive t :=
  @Term.rec motive (fun ts => ∀ t ∈ ts, motive t) atom int var comp list (by simp)
    (fun _ _ ht hts => List.forall_mem_cons.2 ⟨ht, hts⟩) t

mutual

/-- The reading of a term. -/
def read : Term → Tree String
  | atom name => .constant (.atom name)
  | int n => .constant (.int n)
  | var x => .var x
  | comp f args _ => .node (.functor f) (readAll args)
  | list head rest tail _ => .node .cell [head.read, readCells rest tail.read]

/-- The readings of several terms. -/
def readAll : List Term → List (Tree String)
  | [] => []
  | t :: ts => t.read :: readAll ts

/-- The reading of cells with the given heads that go on with a given tree. -/
def readCells : List Term → Tree String → Tree String
  | [], u => u
  | t :: ts, u => .node .cell [t.read, readCells ts u]

end

theorem readAll_eq_map (ts : List Term) : readAll ts = ts.map read := by
  induction ts with
  | nil => rfl
  | cons t ts ih => rw [readAll, ih, List.map_cons]

theorem readCells_append (ts us : List Term) (u : Tree String) :
    readCells (ts ++ us) u = readCells ts (readCells us u) := by
  induction ts with
  | nil => rfl
  | cons t ts ih => rw [List.cons_append, readCells, readCells, ih]

theorem read_chain (head : Term) (rest : List Term) (tail : Term) :
    (chain head rest tail).read = readCells (head :: rest) tail.read := by
  rw [chain, read, readCells]

/-- A list is read cell by cell, whatever its tail is. -/
theorem read_prepend (ts : List Term) (tail : Term) :
    (prepend ts tail).read = readCells ts tail.read := by
  unfold prepend
  split
  · rfl
  · rw [read_chain, ← List.cons_append, readCells_append, read, ← readCells]
  · exact read_chain _ _ _

theorem read_afterCells (n : Nat) (head : Term) (rest : List Term) (tail : Term) (b : Bool) :
    (afterCells n head rest tail b).read = readCells ((head :: rest).drop n) tail.read := by
  unfold afterCells
  split
  next h => rw [h, readCells]
  next t ts h =>
    rw [h]
    split
    · exact read_prepend _ _
    · rw [read, readCells]

mutual

theorem proper_read : ∀ t : Term, t.read.Proper
  | atom _ => .constant _
  | int _ => .constant _
  | var _ => .var _
  | comp f args _ => by
    rw [read]
    exact .node (by simp) (proper_readAll args)
  | list head rest tail _ => by
    rw [read]
    refine .node (by simp) ?_
    simpa using ⟨proper_read head, proper_readCells rest (proper_read tail)⟩

theorem proper_readAll : ∀ ts : List Term, ∀ t ∈ readAll ts, t.Proper
  | [] => by simp [readAll]
  | t :: ts => by
    rw [readAll]
    simpa using ⟨proper_read t, proper_readAll ts⟩

theorem proper_readCells : ∀ (ts : List Term) {u : Tree String}, u.Proper → (readCells ts u).Proper
  | [], _, hu => hu
  | t :: ts, _, hu => by
    rw [readCells]
    refine .node (by simp) ?_
    simpa using ⟨proper_read t, proper_readCells ts hu⟩

end

/-- The kind of the node that a compound or a list is read as. -/
def kind? : Term → Option Kind
  | comp f _ _ => some (.functor f)
  | list .. => some .cell
  | _ => none

/-- A compound or a list is read as a node over the readings of its children. -/
theorem read_eq_node {t : Term} {k : Kind} (h : t.kind? = some k) :
    t.read = .node k (t.children.map read) := by
  cases t with
  | comp f args b =>
    simp only [kind?, Option.some.injEq] at h
    rw [read, readAll_eq_map, children, ← h]
  | list head rest tail b =>
    simp only [kind?, Option.some.injEq] at h
    rw [read, children, ← h, List.map_cons, List.map_cons, List.map_nil, read_afterCells,
      List.drop_one, List.tail_cons]
  | atom | int | var => simp [kind?] at h

theorem read_eq_node_iff {t : Term} {k : Kind} {ts : List (Tree String)} :
    t.read = .node k ts ↔ t.kind? = some k ∧ t.children.map read = ts := by
  constructor
  · intro h
    cases hk : t.kind? with
    | none => cases t <;> simp_all [kind?, read]
    | some k' =>
      rw [read_eq_node hk] at h
      simpa using h
  · rintro ⟨hk, rfl⟩
    exact read_eq_node hk

theorem read_eq_var_iff {t : Term} {x : String} : t.read = .var x ↔ t = .var x := by
  cases t <;> simp [read]

/-- A term that is neither a compound nor a list has no children. -/
theorem children_eq_nil_of_kind? {t : Term} (h : t.kind? = none) : t.children = [] := by
  cases t <;> simp_all [kind?, children]

end Term

end ClauseCode
