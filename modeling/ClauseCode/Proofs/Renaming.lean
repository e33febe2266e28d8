import ClauseCode.Clause
import ClauseCode.Proofs.Layout

/-!
# Renaming variables

A map of names that is injective and leaves the anonymous variable alone changes nothing in the
code of a clause: every operation of the compiler commutes with it.  The names themselves are only
compared with each other, so that the homes of variables and the list of permanent variables are
renamed along with the terms (`Draft.rename`), and all addresses and instructions stay the same
(`Draft.compose_rename`).
-/

namespace ClauseCode

/-! ### Terms -/

/-- A tree with its variables renamed. -/
def Tree.rename {V W : Type} (r : V → W) (t : Tree V) : Tree W := t.bind fun v => .var (r v)

namespace Tree

variable {V W : Type} (r : V → W)

@[simp] theorem rename_var (v : V) : (var v).rename r = var (r v) := rfl

@[simp] theorem rename_constant (c : Constant) : (constant c : Tree V).rename r = constant c := rfl

@[simp] theorem rename_node (k : Kind) (ts : List (Tree V)) :
    (node k ts).rename r = node k (ts.map (rename r)) := by
  rw [rename, bind, bindAll_eq_map]
  rfl

end Tree

namespace Term

mutual

/-- A term with its variables renamed. -/
def rename (r : String → String) : Term → Term
  | atom name => atom name
  | int n => int n
  | var x => var (r x)
  | comp f args b => comp f (renameAll r args) b
  | list head rest tail b => list (head.rename r) (renameAll r rest) (tail.rename r) b

/-- Several terms with their variables renamed. -/
def renameAll (r : String → String) : List Term → List Term
  | [] => []
  | t :: ts => t.rename r :: renameAll r ts

end

variable {r : String → String}

theorem renameAll_eq_map (r : String → String) (ts : List Term) :
    renameAll r ts = ts.map (rename r) := by
  induction ts with
  | nil => rfl
  | cons t ts ih => rw [renameAll, ih, List.map_cons]

mutual

theorem read_rename (r : String → String) : ∀ t : Term, (t.rename r).read = t.read.rename r
  | atom _ => rfl
  | int _ => rfl
  | var _ => rfl
  | comp f args b => by
    rw [rename, read, read, Tree.rename_node, readAll_rename]
  | list head rest tail b => by
    rw [rename, read, read, Tree.rename_node, read_rename r head, read_rename r tail,
      readCells_rename]
    rfl

theorem readAll_rename (r : String → String) :
    ∀ ts : List Term, readAll (renameAll r ts) = (readAll ts).map (Tree.rename r)
  | [] => rfl
  | t :: ts => by
    rw [renameAll, readAll, readAll, read_rename r t, readAll_rename r ts, List.map_cons]

theorem readCells_rename (r : String → String) : ∀ (ts : List Term) (u : Tree String),
    readCells (renameAll r ts) (u.rename r) = (readCells ts u).rename r
  | [], _ => rfl
  | t :: ts, u => by
    rw [renameAll, readCells, readCells, Tree.rename_node, read_rename r t, readCells_rename r ts]
    rfl

end

theorem hasVar_rename (t : Term) : (t.rename r).hasVar = t.hasVar := by
  cases t <;> rfl

theorem any_hasVar_rename (ts : List Term) :
    (ts.map (rename r)).any hasVar = ts.any hasVar := by
  rw [List.any_map]
  exact congrArg ts.any (funext hasVar_rename)

theorem rename_chain (head : Term) (rest : List Term) (tail : Term) :
    (chain head rest tail).rename r =
      chain (head.rename r) (rest.map (rename r)) (tail.rename r) := by
  rw [chain, chain, rename, renameAll_eq_map, ← List.map_cons, any_hasVar_rename, hasVar_rename]

theorem rename_prepend (ts : List Term) (tail : Term) :
    (prepend ts tail).rename r = prepend (ts.map (rename r)) (tail.rename r) := by
  cases ts with
  | nil => rfl
  | cons t ts =>
    cases tail with
    | list head rest tail b =>
      rw [prepend, rename_chain, List.map_append, List.map_cons, rename, renameAll_eq_map]
      rfl
    | atom | int | var | comp => exact rename_chain ..

theorem rename_afterCells (n : ℕ) (head : Term) (rest : List Term) (tail : Term) (b : Bool) :
    (afterCells n head rest tail b).rename r =
      afterCells n (head.rename r) (rest.map (rename r)) (tail.rename r) b := by
  unfold afterCells
  rw [← List.map_cons, ← List.map_drop]
  cases (head :: rest).drop n with
  | nil => rfl
  | cons t ts =>
    cases b with
    | true => exact rename_prepend (t :: ts) tail
    | false =>
      rw [List.map_cons]
      dsimp only
      rw [if_neg (by simp), if_neg (by simp), rename, renameAll_eq_map]

theorem children_rename (t : Term) : (t.rename r).children = t.children.map (rename r) := by
  cases t with
  | atom | int | var => rfl
  | comp f args b => rw [rename, children, children, renameAll_eq_map]
  | list head rest tail b =>
    rw [rename, children, children, renameAll_eq_map, List.map_cons, List.map_singleton,
      rename_afterCells]

/-! ### The variables of a term -/

theorem note_rename (hr : Function.Injective r) (xs : List String) (x : String) :
    note (xs.map r) (r x) = (note xs x).map r := by
  unfold note
  have hmem : (xs.map r).contains (r x) = xs.contains x := by
    simp [hr.eq_iff]
  rw [hmem]
  split
  · rfl
  · rw [List.map_append, List.map_singleton]

mutual

theorem varsOnto_rename (hr : Function.Injective r) : ∀ (t : Term) (xs : List String),
    (t.rename r).varsOnto (xs.map r) = (t.varsOnto xs).map r
  | atom _, _ => rfl
  | int _, _ => rfl
  | var x, xs => note_rename hr xs x
  | comp f args b, xs => by
    rw [rename, varsOnto, varsOnto, varsOntoAll_rename hr args]
    split <;> rfl
  | list head rest tail b, xs => by
    rw [rename, varsOnto, varsOnto, varsOnto_rename hr head, varsOntoAll_rename hr rest,
      varsOnto_rename hr tail]
    split <;> rfl

theorem varsOntoAll_rename (hr : Function.Injective r) : ∀ (ts : List Term) (xs : List String),
    varsOntoAll (renameAll r ts) (xs.map r) = (varsOntoAll ts xs).map r
  | [], _ => rfl
  | t :: ts, xs => by
    rw [renameAll, varsOntoAll, varsOntoAll, varsOnto_rename hr t, varsOntoAll_rename hr ts]

end

theorem vars_rename (hr : Function.Injective r) (t : Term) : (t.rename r).vars = t.vars.map r :=
  varsOnto_rename hr t []

theorem occurs_rename (hr : Function.Injective r) (x : String) (t : Term) :
    occurs (r x) (t.rename r) = occurs x t := by
  rw [occurs, occurs, vars_rename hr]
  simp [hr.eq_iff]

end Term

/-! ### Drafts -/

/-- A renaming: no two variables get the same name, and the anonymous variable keeps its own. -/
structure Renaming (r : String → String) : Prop where
  injective : Function.Injective r
  anonymous : r Term.anonymous = Term.anonymous

theorem Renaming.eq_anonymous_iff {r : String → String} (hr : Renaming r) (x : String) :
    r x = Term.anonymous ↔ x = Term.anonymous := by
  constructor
  · intro h
    exact hr.injective (h.trans hr.anonymous.symm)
  · rintro rfl
    exact hr.anonymous

/-- Counters with the permanent variables renamed. -/
def Policy.Counters.rename (r : String → String) (c : Policy.Counters) : Policy.Counters :=
  { c with permanent := c.permanent.map r }

theorem Policy.Counters.var_rename {r : String → String} (hr : Renaming r) (c : Policy.Counters)
    (x : String) (arg : Option Int) :
    Policy.standard.var (c.rename r) (r x) arg =
      ((Policy.standard.var c x arg).1,
        Policy.Counters.rename r (Policy.standard.var c x arg).2) := by
  have hmem : (c.rename r).permanent.contains (r x) = c.permanent.contains x := by
    simp [Policy.Counters.rename, hr.injective.eq_iff]
  simp only [Policy.standard, hmem]
  split
  · rfl
  · cases arg <;> rfl

namespace Draft

variable {r : String → String}

/-- A draft with the variables renamed that it knows about. -/
def rename (r : String → String) (d : Draft .standard) : Draft .standard :=
  { d with
    pool := d.counters.rename r
    homes := d.homes.map fun h => (r h.1, h.2) }

/-- A node that is checked later, with its variables renamed. -/
def Deferred.rename (r : String → String) (e : Deferred) : Deferred :=
  { e with children := e.children.map (Tree.rename r) }

@[simp] theorem rename_emit (d : Draft .standard) (i : Instruction) :
    (d.rename r).emit i = (d.emit i).rename r := rfl

@[simp] theorem rename_temp (d : Draft .standard) :
    (d.rename r).temp = (d.temp.1, d.temp.2.rename r) := rfl

section

variable (hr : Renaming r)
include hr

theorem home?_rename (d : Draft .standard) (x : String) :
    (d.rename r).home? (r x) = d.home? x := by
  unfold home?
  show (d.homes.map fun h => (r h.1, h.2)).lookup (r x) = _
  induction d.homes with
  | nil => rfl
  | cons h homes ih =>
    obtain ⟨y, a⟩ := h
    rw [List.map_cons]
    by_cases hxy : x = y
    · subst hxy
      rw [List.lookup_cons_self, List.lookup_cons_self]
    · rw [lookup_cons_of_ne (hr.injective.ne hxy), lookup_cons_of_ne hxy, ih]

theorem newVar_rename (d : Draft .standard) (x : String) (arg : Option Int) :
    (d.rename r).newVar (r x) arg = ((d.newVar x arg).1, (d.newVar x arg).2.rename r) := by
  have hvar : Policy.standard.var (d.rename r).pool (r x) arg =
      ((Policy.standard.var d.pool x arg).1,
        Policy.Counters.rename r (Policy.standard.var d.pool x arg).2) :=
    d.counters.var_rename hr x arg
  rw [newVar_eq, newVar_eq, hvar]
  rfl

theorem moveVar_rename (d : Draft .standard) (x : String) (a : Address) :
    (d.rename r).moveVar (r x) a = (d.moveVar x a).rename r := by
  unfold moveVar rename
  congr 1
  rw [List.map_map, List.map_map]
  refine List.map_congr_left fun h _ => ?_
  by_cases hx : h.1 = x
  · simp [hx]
  · simp [hx, hr.injective.eq_iff]

theorem isNeeded_rename (args : List Term) (t : Term) (k : ℕ) (x : String) :
    isNeeded (args.map (Term.rename r)) (t.rename r) k (r x) = isNeeded args t k x := by
  have hvar : ∀ u : Term, isVar (r x) (u.rename r) = isVar x u := by
    intro u
    cases u with
    | var y => simp [Term.rename, isVar, hr.injective.eq_iff]
    | atom | int | comp | list => rfl
  unfold isNeeded
  rw [Term.children_rename, ← List.map_drop, List.any_map, List.any_map]
  congr 1
  · exact congrArg t.children.any (funext hvar)
  · exact congrArg (args.drop (k + 1)).any (funext fun u => Term.occurs_rename hr.injective x u)

theorem free_rename (dir : Direction) (args : List Term) (t : Term) (k : ℕ) (d : Draft .standard) :
    (d.rename r).free dir (args.map (Term.rename r)) (t.rename r) k =
      (d.free dir args t k).rename r := by
  cases dir with
  | check => rfl
  | build =>
    -- Homes are searched by address, and a renaming keeps the addresses and the order.
    have hhead : ((d.rename r).residents k).head? = (d.residents k).head?.map r := by
      rw [residents, residents, ← List.head?_map, List.map_map]
      show ((d.homes.map fun h => (r h.1, h.2)).filter _ |>.map Prod.fst).head? = _
      rw [List.filter_map, List.map_map]
      rfl
    unfold free relocate
    rw [resident_standard, resident_standard, hhead]
    cases (d.residents k).head? with
    | none => rfl
    | some x =>
      rw [Option.map_some]
      dsimp only
      rw [isNeeded_rename hr]
      by_cases hneed : isNeeded args t k x = true
      · rw [if_pos hneed, if_pos hneed, rename_temp, moveVar_rename hr]
        rfl
      · rw [if_neg hneed, if_neg hneed]

theorem leaf_rename (dir : Direction) (d : Draft .standard) (t : Tree String) :
    (d.rename r).leaf dir (t.rename r) = (d.leaf dir t).rename r := by
  cases t with
  | var x =>
    rw [Tree.rename_var, leaf, leaf, home?_rename hr, newVar_rename hr]
    by_cases hx : x = Term.anonymous
    · rw [if_pos hx, if_pos ((hr.eq_anonymous_iff x).2 hx)]
      rfl
    · rw [if_neg hx, if_neg (mt (hr.eq_anonymous_iff x).1 hx)]
      cases d.home? x <;> rfl
  | constant c => rfl
  | node k ts =>
    rw [Tree.rename_node]
    rfl

theorem argVar_rename (dir : Direction) (args : List Term) (k : ℕ) (x : String)
    (d : Draft .standard) :
    (d.rename r).argVar dir (args.map (Term.rename r)) k (r x) =
      (d.argVar dir args k x).rename r := by
  have hfree : ∀ d : Draft .standard,
      (d.rename r).free dir (args.map (Term.rename r)) (.var (r x)) k =
        (d.free dir args (.var x) k).rename r := free_rename hr dir args (.var x) k
  by_cases hx : x = Term.anonymous
  · subst hx
    rw [hr.anonymous] at hfree ⊢
    rw [argVar_blank, argVar_blank]
    cases dir with
    | check => rfl
    | build =>
      dsimp only
      rw [hfree]
      rfl
  · have hx' : r x ≠ Term.anonymous := mt (hr.eq_anonymous_iff x).1 hx
    cases h : d.home? x with
    | some a =>
      rw [argVar_known hx h, argVar_known hx' ((home?_rename hr d x).trans h), hfree]
      split <;> rfl
    | none =>
      rw [argVar_new hx h, argVar_new hx' ((home?_rename hr d x).trans h), newVar_rename hr]
      dsimp only
      rw [hfree]
      split <;> rfl

/-! ### Goals -/

theorem fill_rename (d : Draft .standard) (ts : List (Tree String)) (rs : List Int) :
    (d.rename r).fill (ts.map (Tree.rename r)) rs = (d.fill ts rs).rename r := by
  induction ts generalizing d rs with
  | nil => cases rs <;> rfl
  | cons t ts ih =>
    cases rs with
    | nil => cases t <;> rfl
    | cons q rs =>
      cases t with
      | node k us =>
        rw [List.map_cons, Tree.rename_node, fill, fill, rename_emit, ih]
      | var x =>
        show ((d.rename r).leaf .build ((Tree.var x).rename r)).fill _ rs = _
        rw [leaf_rename hr, ih]
        rfl
      | constant c =>
        show ((d.rename r).leaf .build ((Tree.constant c).rename r)).fill _ rs = _
        rw [leaf_rename hr, ih]
        rfl

omit hr in
theorem buildAll_rename {ts : List (Tree String)} (hts : ∀ t ∈ ts, ∀ d : Draft .standard,
      (d.rename r).build (t.rename r) = ((d.build t).1, (d.build t).2.rename r))
    (d : Draft .standard) :
    (d.rename r).buildAll (ts.map (Tree.rename r)) =
      ((d.buildAll ts).1, (d.buildAll ts).2.rename r) := by
  induction ts generalizing d with
  | nil => rfl
  | cons t ts ih =>
    rw [List.map_cons, buildAll, buildAll, hts t (by simp) d]
    dsimp only
    rw [ih fun t ht => hts t (by simp [ht])]

theorem build_rename (t : Tree String) (d : Draft .standard) :
    (d.rename r).build (t.rename r) = ((d.build t).1, (d.build t).2.rename r) := by
  induction t generalizing d with
  | var x => rfl
  | constant c => rfl
  | node k ts ih =>
    rw [Tree.rename_node, build, build, buildAll_rename ih]
    dsimp only
    rw [rename_temp, rename_emit, fill_rename hr, List.length_map]

/-! ### Heads -/

theorem split_rename (d : Draft .standard) (ts : List (Tree String)) :
    (d.rename r).split (ts.map (Tree.rename r)) =
      ((d.split ts).1.map (Deferred.rename r), (d.split ts).2.rename r) := by
  induction ts generalizing d with
  | nil => rfl
  | cons t ts ih =>
    cases t with
    | node k us =>
      rw [List.map_cons, Tree.rename_node, split, split, rename_temp]
      dsimp only
      rw [rename_emit, ih]
      rfl
    | var x =>
      show ((d.rename r).leaf .check ((Tree.var x).rename r)).split _ = _
      rw [leaf_rename hr, ih]
      rfl
    | constant c =>
      show ((d.rename r).leaf .check ((Tree.constant c).rename r)).split _ = _
      rw [leaf_rename hr, ih]
      rfl

theorem checkQueue_rename (d : Draft .standard) (q : List Deferred) :
    (d.rename r).checkQueue (q.map (Deferred.rename r)) = (d.checkQueue q).rename r := by
  fun_induction checkQueue d q with
  | case1 d => rw [List.map_nil, checkQueue]
  -- The recursion of the queue is not structural, so the induction follows the function.
  | case2 d e q s ih =>
    rw [List.map_cons, checkQueue]
    dsimp only [Deferred.rename]
    rw [List.length_map, rename_emit, split_rename hr]
    dsimp only
    rw [← List.map_append]
    exact ih

/-! ### Arguments -/

theorem buildArg_rename (args : List Term) (k : ℕ) (d : Draft .standard) (t : Term) :
    buildArg (args.map (Term.rename r)) k (d.rename r) (t.rename r) =
      (buildArg args k d t).rename r := by
  rw [buildArg, buildArg, Term.read_rename]
  cases t.read with
  | var x => exact argVar_rename hr .build args k x d
  | constant c =>
    rw [Tree.rename_constant]
    dsimp only
    rw [argConstant, argConstant, free_rename hr, rename_emit]
  | node kind ts =>
    rw [Tree.rename_node]
    dsimp only
    rw [buildAll_rename fun t _ => build_rename hr t]
    dsimp only
    rw [free_rename hr, rename_emit, fill_rename hr, List.length_map]

theorem buildArgs_rename (args : List Term) (k : ℕ) (d : Draft .standard) (ts : List Term) :
    buildArgs (args.map (Term.rename r)) k (d.rename r) (ts.map (Term.rename r)) =
      (buildArgs args k d ts).rename r := by
  induction ts generalizing k d with
  | nil => rfl
  | cons t ts ih => rw [List.map_cons, buildArgs, buildArgs, buildArg_rename hr, ih]

theorem checkArg_rename (args : List Term) (k : ℕ) (d : Draft .standard) (t : Term) :
    checkArg (args.map (Term.rename r)) k (d.rename r) (t.rename r) =
      ((checkArg args k d t).1.map (Deferred.rename r), (checkArg args k d t).2.rename r) := by
  rw [checkArg, checkArg, Term.read_rename]
  cases t.read with
  | var x =>
    rw [Tree.rename_var]
    dsimp only
    rw [argVar_rename hr, List.map_nil]
  | constant c =>
    rw [Tree.rename_constant]
    dsimp only
    rw [argConstant, argConstant, free_rename hr, rename_emit, List.map_nil]
  | node kind ts =>
    rw [Tree.rename_node]
    dsimp only
    rw [rename_emit, split_rename hr, List.length_map]

theorem checkArgs_rename (args : List Term) (k : ℕ) (d : Draft .standard) (ts : List Term) :
    checkArgs (args.map (Term.rename r)) k (d.rename r) (ts.map (Term.rename r)) =
      ((checkArgs args k d ts).1.map (Deferred.rename r), (checkArgs args k d ts).2.rename r) := by
  induction ts generalizing k d with
  | nil => rfl
  | cons t ts ih =>
    rw [List.map_cons, checkArgs, checkArgs, checkArg_rename hr]
    dsimp only
    rw [ih, List.map_append]

/-- The code of a head or a goal does not depend on the names of variables. -/
theorem compose_rename (dir : Direction) (args : List Term) (d : Draft .standard) :
    (d.rename r).compose dir (args.map (Term.rename r)) = (d.compose dir args).rename r := by
  have hd : ({ d.rename r with emitted := [] } : Draft .standard) =
      { d with emitted := [] }.rename r := rfl
  unfold compose
  dsimp only
  rw [hd]
  cases dir with
  | check =>
    dsimp only
    rw [checkArgs_rename hr, checkQueue_rename hr]
  | build => exact buildArgs_rename hr args 0 _ args

end

end Draft

end ClauseCode
