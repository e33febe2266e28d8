import ClauseCode.Proofs.Faithful
import ClauseCode.Proofs.Operations

/-!
# The compiler stops only for a clause without normal form

Compiling rests on operations that are partial: a term may be no constant, a list may have no first
cell, there may be fewer arguments than are asked for, and a void may stand for more than one
subterm.  The compiler is written so that these cases do not come up, and so it does not say that
they could.  Here it is written down once more, with each partial operation as a check that may
fail with a `Trap`, in the place where it is used: `Checked.compileWith`.

None of the checks ever fails, whatever the policy answers (`Checked.compileWith_eq`).  A list has a
first cell; the arguments are visited in order, so that counting them never passes their number; and
voids are written one by one.  What remains are the clauses without normal form;
`Clause.Rejected` says which they are (`Clause.normalize_eq_error_iff`).
-/

namespace ClauseCode

/-- A check that fails. -/
inductive Trap where
  /-- A term of a kind that is not expected. -/
  | unhandled (t : Term)
  /-- The first cell of what has none. -/
  | noCell (error : Term.ListError)
  /-- The terms from position `n` on, where there are fewer than `n`. -/
  | outOfBounds (n length : Nat)
  /-- A void that does not stand for a single subterm. -/
  | badVoid (error : Code.VoidError)
  deriving Repr

namespace Checked

variable {P : Policy}

/-! ### Partial operations -/

/-- The constant that a term is. -/
def constant : Term → Except Trap Constant
  | .atom name => .ok (.atom name)
  | .int n => .ok (.int n)
  | t => .error (.unhandled t)

/-- The terms from position `n` on. -/
def termsFrom (n : Nat) (ts : List Term) : Except Trap (List Term) :=
  if n ≤ ts.length then .ok (ts.drop n) else .error (.outOfBounds n ts.length)

/-- The head and the tail of the first cell of a list. -/
def cell (t : Term) : Except Trap (Term × Term) := do
  let (head, _) ← t.cell.mapError .noCell
  let tail ← (t.slice 1).mapError .noCell
  return (head, tail)

/-- The occurrences directly below an occurrence. -/
def children (o : Occurrence) : Except Trap (List Occurrence) :=
  match o.term with
  | .atom _ | .int _ | .var _ => .ok []
  | .comp _ args _ => .ok (Occurrence.childrenFrom o.depth o.path 0 args)
  | .list .. => do
    let (head, tail) ← cell o.term
    return Occurrence.childrenFrom o.depth o.path 0 [head, tail]

/-- The code that instructions make one after another. -/
def pack (dir : Direction) (is : List Instruction) : Except Trap (List Instruction) :=
  (Code.pack dir is).mapError .badVoid

/-! ### Traversals -/

/-- Goes down to the first leaf of a term at a given depth and path. -/
def descend (stack : List (Occurrence × List Occurrence)) (depth : Nat) (path : List Nat) :
    Term → Except Trap (Occurrence × List (Occurrence × List Occurrence))
  | .comp f (t :: ts) b =>
    descend ((⟨.comp f (t :: ts) b, depth, path⟩, Occurrence.childrenFrom depth path 1 ts) :: stack)
      (depth + 1) (0 :: path) t
  | .list head rest tail b => do
    let (_, u) ← cell (.list head rest tail b)
    descend ((⟨.list head rest tail b, depth, path⟩, Occurrence.childrenFrom depth path 1 [u]) ::
      stack) (depth + 1) (0 :: path) head
  | t => return (⟨t, depth, path⟩, stack)

/-- The next occurrence and the state after it. -/
def next : Traversal → Except Trap (Option (Occurrence × Traversal))
  | .breadthFirst [] => return none
  | .breadthFirst (o :: queue) => do
    let os ← children o
    return some (o, .breadthFirst (queue ++ os))
  | .postOrder [] => return none
  | .postOrder ((o, []) :: stack) => return some (o, .postOrder stack)
  | .postOrder ((o, c :: cs) :: stack) => do
    let (leaf, stack) ← descend ((o, cs) :: stack) c.depth c.path c.term
    return some (leaf, .postOrder stack)

/-- At most `n` of the occurrences still to come. -/
def take : Nat → Traversal → Except Trap (List Occurrence)
  | 0, _ => return []
  | n + 1, s => do
    match ← next s with
    | none => return []
    | some (o, s) => return o :: (← take n s)

/-- The occurrences that a direction visits, in order. -/
def occurrences (dir : Direction) (t : Term) : Except Trap (List Occurrence) := do
  let os ← children (.root t)
  let s : Traversal :=
    match dir with
    | .check => .breadthFirst os
    | .build => .postOrder [(.root t, os)]
  take s.remaining s

/-! ### Code -/

/-- Makes register `k` free to be written for an occurrence with children `os`. -/
def free (dir : Direction) (args : List Term) (os : List Occurrence) (k : Nat) (d : Draft P) :
    Except Trap (Draft P) :=
  match dir with
  | .check => return d
  | .build =>
    match d.resident k with
    | (none, d) => return d
    | (some x, d) => do
      let later ← termsFrom (k + 1) args
      if os.any (fun o => Draft.isVar x o.term) || later.any (Term.occurs x) then
        let (r, d) := d.temp
        return (d.moveVar x (.reg r)).emit (dir.moveArg (.reg r) k)
      else return d

/-- Writes the instruction for a child of a structure or list. -/
def subterm (dir : Direction) (d : Draft P) (o : Occurrence) : Except Trap (Draft P) :=
  match o.term with
  | .atom _ | .int _ => do
    let c ← constant o.term
    return d.emit (.subConstant dir c)
  | .var _ | .comp .. | .list .. => return d.subterm dir o

/-- Writes the instructions for a variable that is argument `k`. -/
def argVar (dir : Direction) (args : List Term) (os : List Occurrence) (k : Nat) (x : String)
    (d : Draft P) : Except Trap (Draft P) :=
  if x = Term.anonymous then
    match dir with
    | .check => return d
    | .build => do
      let (r, d) := (← free dir args os k d).temp
      return d.emit (.argVariable dir (.reg r) k)
  else
    match d.home? x with
    | some a => do
      if a = .reg k then return d
      else return (← free dir args os k d).emit (.argValue dir a k)
    | none => do
      let (a, d) := d.newVar x (Draft.firstArg dir k)
      if a = .reg k then return d
      else return (← free dir args os k d).emit (.argVariable dir a k)

/-- The register of a structure or list: that of argument `k` if it is one, that of its slot
otherwise. -/
def compoundReg (dir : Direction) (args : List Term) (os : List Occurrence) (k : Nat)
    (o : Occurrence) (d : Draft P) : Except Trap (Int × Draft P) := do
  if o.level = .shallow then return (k, ← free dir args os k d) else return d.slot o

/-- Writes the instructions for one occurrence, with `k` as its argument number if it is shallow. -/
def visitAt (dir : Direction) (args : List Term) (k : Nat) (o : Occurrence) (d : Draft P) :
    Except Trap (Draft P) := do
  let os ← children o
  match o.term with
  | .var x => if o.level = .shallow then argVar dir args os k x d else return d
  | .atom _ | .int _ =>
    if o.level = .shallow then
      let c ← constant o.term
      return (← free dir args os k d).emit (.constant dir .shallow c (.reg k))
    else return d
  | .comp f ts _ =>
    let (r, d) ← compoundReg dir args os k o d
    let functor : Functor := ⟨f, ts.length⟩
    os.foldlM (subterm dir) (d.emit (.struct dir functor.symbol functor.arity (.reg r)))
  | .list .. =>
    let (r, d) ← compoundReg dir args os k o d
    os.foldlM (subterm dir) (d.emit (.list dir o.level (.reg r)))

/-- Writes the instructions for one occurrence. -/
def visit (dir : Direction) (args : List Term) (d : Draft P) (o : Occurrence) :
    Except Trap (Draft P) :=
  if o.isRoot then return d
  else if o.level = .shallow then
    visitAt dir args d.argsSeen o { d with argsSeen := d.argsSeen + 1 }
  else visitAt dir args 0 o d

/-- The code of a head or a goal, and the draft after it. -/
def code (dir : Direction) (c : Compound) (d : Draft P) :
    Except Trap (List Instruction × Draft P) := do
  let os ← occurrences dir c.toTerm
  let d ← os.foldlM (visit dir c.args) { d with argsSeen := 0, emitted := [] }
  let is ← pack dir d.emitted.reverse
  return (is, { d with part := d.part + 1 })

/-- The code of several goals, and the draft after them. -/
def goals (d : Draft P) : List Compound → Except Trap (List CompiledGoal × Draft P)
  | [] => return ([], d)
  | c :: cs => do
    let (is, d) ← code .build c d
    let (gs, d) ← goals d cs
    return (⟨c.indicator.symbol, c.args.length, is⟩ :: gs, d)

/-- The code of a clause in normal form, and the final state of the allocation policy. -/
def compile (P : Policy) (n : NormalClause) : Except Trap (CompiledClause × P.State) := do
  let (head, d) ← code .check n.head (Draft.start P n.width n.permanent)
  let (goals, d) ← goals d n.body
  return (⟨n.head.indicator, P.registers d.pool, n.permanent.length, head, goals⟩, d.pool)

/-- The code of a clause under an allocation policy, and the final state of the policy. -/
def compileWith (P : Policy) (c : Clause) :
    Except Trap (Except CompileError (CompiledClause × P.State)) :=
  match c.normalize with
  | .error e => return .error (.noNormalForm e)
  | .ok n => do return .ok (← compile P n)

/-! ### No check fails -/

theorem termsFrom_eq {n : ℕ} {ts : List Term} (h : n ≤ ts.length) :
    termsFrom n ts = pure (ts.drop n) := if_pos h

/-- A list has a first cell. -/
theorem cell_list (head : Term) (rest : List Term) (tail : Term) (b : Bool) :
    cell (.list head rest tail b) = pure (head, .afterCells 1 head rest tail b) := by
  have hindex : ¬ ((1 : Int) < 0 || (1 : Int) > (head :: rest).length) = true := by
    simp only [Bool.or_eq_true, decide_eq_true_eq, List.length_cons]
    omega
  have hslice : (Term.list head rest tail b).slice 1 = .ok (.afterCells 1 head rest tail b) := by
    unfold Term.slice
    exact if_neg hindex
  rw [cell, hslice]
  rfl

theorem children_eq (o : Occurrence) : children o = pure o.children := by
  obtain ⟨t, depth, path⟩ := o
  cases t with
  | atom | int | var | comp => rfl
  | list head rest tail b =>
    unfold children
    rw [cell_list, pure_bind]
    rfl

theorem descend_eq (stack : List (Occurrence × List Occurrence)) (depth : ℕ) (path : List ℕ)
    (t : Term) :
    descend stack depth path t = pure (Traversal.descend stack depth path t) := by
  fun_induction Traversal.descend stack depth path t with
  | case1 stack depth path f t ts b ih => exact ih
  | case2 stack depth path head rest tail b ih =>
    rw [descend, cell_list, pure_bind]
    exact ih
  | case3 stack depth path t hcomp hlist => rw [descend] <;> assumption

theorem next_eq (s : Traversal) : next s = pure s.next := by
  match s with
  | .breadthFirst [] | .postOrder [] | .postOrder ((_, []) :: _) => rfl
  | .breadthFirst (o :: queue) => rw [next, children_eq, pure_bind, Traversal.next]
  | .postOrder ((o, c :: cs) :: stack) => rw [next, descend_eq, pure_bind, Traversal.next]

theorem take_eq (n : ℕ) (s : Traversal) : take n s = pure (Traversal.take n s) := by
  induction n generalizing s with
  | zero => rfl
  | succ n ih =>
    rw [take, next_eq, pure_bind, Traversal.take]
    cases s.next with
    | none => rfl
    | some p =>
      dsimp only
      rw [ih, pure_bind]

theorem occurrences_eq (dir : Direction) (t : Term) :
    occurrences dir t = pure (dir.traversal t).collect := by
  rw [occurrences, children_eq, pure_bind]
  cases dir with
  | check => exact take_eq _ _
  | build => exact take_eq _ _

variable {dir : Direction} {args : List Term} {k : ℕ} {o : Occurrence}

/-- The arguments after one that is visited can be looked at. -/
theorem free_eq (hk : k < args.length) (d : Draft P) :
    free dir args o.children k d = pure (d.free dir args o.term k) := by
  cases dir with
  | check => rfl
  | build =>
    have hany : ∀ x, o.children.any (fun c => Draft.isVar x c.term) =
        o.term.children.any (Draft.isVar x) := by
      intro x
      rw [← Occurrence.map_term_children, List.any_map]
      rfl
    unfold free Draft.free Draft.relocate
    dsimp only
    generalize d.resident k = r
    obtain ⟨x, d'⟩ := r
    cases x with
    | none => rfl
    | some x =>
      dsimp only
      rw [termsFrom_eq hk, pure_bind, hany]
      show (if Draft.isNeeded args o.term k x then _ else _) = _
      split <;> rfl

theorem subterm_eq (dir : Direction) (d : Draft P) (o : Occurrence) :
    subterm dir d o = pure (d.subterm dir o) := by
  obtain ⟨t, depth, path⟩ := o
  cases t <;> rfl

theorem subterms_eq (dir : Direction) (os : List Occurrence) (d : Draft P) :
    os.foldlM (subterm dir) d = pure (os.foldl (Draft.subterm dir) d) := by
  induction os generalizing d with
  | nil => rfl
  | cons o os ih => rw [List.foldlM_cons, subterm_eq, pure_bind, ih, List.foldl_cons]

theorem argVar_eq {x : String} (ho : o.term = .var x) (hk : k < args.length) (d : Draft P) :
    argVar dir args o.children k x d = pure (d.argVar dir args k x) := by
  have hfree : ∀ d : Draft P,
      free dir args o.children k d = pure (d.free dir args (.var x) k) := by
    intro d
    rw [free_eq hk, ho]
  by_cases hx : x = Term.anonymous
  · subst hx
    rw [Draft.argVar_blank]
    unfold argVar
    rw [if_pos rfl]
    cases dir with
    | check => rfl
    | build =>
      dsimp only
      rw [hfree, pure_bind]
  · unfold argVar
    rw [if_neg hx]
    cases hhome : d.home? x with
    | some a =>
      dsimp only
      rw [Draft.argVar_known hx hhome, hfree, pure_bind]
      split <;> rfl
    | none =>
      dsimp only
      rw [Draft.argVar_new hx hhome, hfree, pure_bind]
      dsimp only
      split <;> rfl

theorem compoundReg_eq (hk : o.level = .shallow → k < args.length) (d : Draft P) :
    compoundReg dir args o.children k o d = pure (d.compoundReg dir args k o) := by
  unfold compoundReg Draft.compoundReg
  by_cases hlevel : o.level = .shallow
  · rw [if_pos hlevel, free_eq (hk hlevel), pure_bind, hlevel]
  · rw [if_neg hlevel]
    split
    next h => exact absurd h hlevel
    next => rfl

theorem visitAt_eq (hk : o.level = .shallow → k < args.length) (d : Draft P) :
    visitAt dir args k o d = pure (d.visitAt dir args k o) := by
  unfold visitAt
  rw [children_eq, pure_bind]
  obtain ⟨t, depth, path⟩ := o
  cases t with
  | comp | list =>
    dsimp only
    rw [compoundReg_eq hk, pure_bind]
    exact subterms_eq dir _ _
  | var x =>
    dsimp only
    split
    next hlevel => rw [argVar_eq rfl (hk hlevel), Draft.visitAt_argVar rfl hlevel]
    next hlevel => rw [Draft.visitAt_leaf rfl hlevel]
  | atom | int =>
    dsimp only
    split
    next hlevel =>
      rw [free_eq (hk hlevel), Draft.visitAt_argConstant rfl hlevel]
      rfl
    next hlevel => rw [Draft.visitAt_leaf rfl hlevel]

theorem visit_eq {d : Draft P} (hk : o.depth = 1 → d.argsSeen < args.length) :
    visit dir args d o = pure (d.visit dir args o) := by
  rw [visit, Draft.visit]
  split
  next => rfl
  next hroot =>
    split
    next hlevel => exact visitAt_eq (fun _ => hk (Draft.depth_of_shallow hlevel hroot)) _
    next hlevel => exact visitAt_eq (fun h => absurd h hlevel) _

/-- The visits to the occurrences still to come, with the arguments among them in order. -/
theorem visits_eq {os : List Occurrence} {d : Draft P}
    (hos : args.drop d.argsSeen = Occurrence.arguments os) :
    os.foldlM (visit dir args) d = pure (os.foldl (Draft.visit dir args) d) := by
  induction os generalizing d with
  | nil => rfl
  | cons o os ih =>
    -- The count stays below the number of arguments as long as there is an argument to come.
    obtain ⟨hnext, hlater⟩ := Draft.upcoming_visit dir hos
    have hk : o.depth = 1 → d.argsSeen < args.length := by
      intro hdepth
      obtain ⟨hlt, -⟩ := List.getElem?_eq_some_iff.1 (hnext hdepth)
      exact hlt
    rw [List.foldlM_cons, visit_eq hk, pure_bind, ih hlater, List.foldl_cons]

theorem write_eq (dir : Direction) (c : Compound) (d : Draft P) :
    (dir.traversal c.toTerm).collect.foldlM (visit dir c.args)
      { d with argsSeen := 0, emitted := [] } = pure (d.write dir c) :=
  visits_eq (dir.arguments_traversal c.toTerm).symm

theorem code_eq {c : Compound} {d d' : Draft P} {is : List Instruction}
    (h : c.code dir d = .ok (is, d')) : code dir c d = pure (is, d') := by
  obtain ⟨hpack, rfl⟩ := Compound.code_eq_ok h
  have hpack' : pack dir (d.write dir c).emitted.reverse = pure is := by
    rw [pack, hpack]
    rfl
  rw [code, occurrences_eq, pure_bind, write_eq, pure_bind, hpack', pure_bind]

theorem goals_eq {cs : List Compound} {d d' : Draft P} {gs : List CompiledGoal}
    (h : Compound.goals d cs = .ok (gs, d')) : goals d cs = pure (gs, d') := by
  induction cs generalizing d gs with
  | nil =>
    obtain ⟨rfl, rfl⟩ := Prod.mk.inj (Except.ok.inj h)
    rfl
  | cons c cs ih =>
    obtain ⟨is, d₁, gs₁, hcode, hgoals, rfl⟩ := Compound.goals_cons_eq_ok h
    rw [goals, code_eq hcode, pure_bind]
    dsimp only
    rw [ih hgoals, pure_bind]

theorem compile_eq {n : NormalClause} {k : CompiledClause} {s : P.State}
    (h : n.compile P = .ok (k, s)) : compile P n = pure (k, s) := by
  obtain ⟨d, d', hhead, hgoals, rfl, hk⟩ := NormalClause.compile_eq_ok h
  rw [compile, code_eq hhead, pure_bind]
  dsimp only
  rw [goals_eq hgoals, pure_bind, hk]

/-- No check fails. -/
theorem compileWith_eq (P : Policy) (c : Clause) : compileWith P c = .ok (c.compileWith P) := by
  rw [compileWith]
  cases hn : c.normalize with
  | error e =>
    rw [Clause.compileWith, hn]
    rfl
  | ok n =>
    obtain ⟨k, d, hwith, hcompile, -⟩ := Clause.exists_compileWith hn P
    dsimp only
    rw [hwith, compile_eq hcompile]
    rfl

end Checked

/-! ### Clauses without normal form -/

/-- The terms that are no head. -/
inductive Term.NoHead : Term → Prop
  | int (n : Int) : NoHead (.int n)
  | var (x : String) : NoHead (.var x)
  | list (head : Term) (rest : List Term) (tail : Term) (b : Bool) : NoHead (.list head rest tail b)

/-- The terms that are no goal. -/
inductive Term.NoGoal : Term → Prop
  | int (n : Int) : NoGoal (.int n)
  | anonymous : NoGoal (.var Term.anonymous)
  | list (head : Term) (rest : List Term) (tail : Term) (b : Bool) : NoGoal (.list head rest tail b)

/-- The functor that a goal calls. -/
inductive Term.Calls : Term → Functor → Prop
  | atom (name : String) : Calls (.atom name) ⟨name, 0⟩
  | var {x : String} (hx : x ≠ Term.anonymous) : Calls (.var x) ⟨"call", 1⟩
  | comp (f : String) (args : List Term) (b : Bool) : Calls (.comp f args b) ⟨f, args.length⟩

namespace Clause

/-- What is wrong with a clause: its head is none, or it has a head and the given goal is the first
that is none. -/
inductive Rejected (c : Clause) : NormalizeError → Prop
  | head (h : c.head.NoHead) : Rejected c ⟨.head, c, c.head⟩
  | body {before after : List Term} {t : Term} (hhead : ¬ c.head.NoHead)
      (hbody : c.body = before ++ t :: after) (hbefore : ∀ u ∈ before, ¬ u.NoGoal)
      (ht : t.NoGoal) : Rejected c ⟨.body, c, t⟩

theorem headCompound_eq_none_iff {t : Term} : headCompound t = none ↔ t.NoHead := by
  constructor
  · intro h
    cases t with
    | atom | comp => simp [headCompound] at h
    | int n => exact .int n
    | var x => exact .var x
    | list head rest tail b => exact .list head rest tail b
  · rintro (_ | _ | _) <;> rfl

theorem goalCompound_eq_none_iff {t : Term} : goalCompound t = none ↔ t.NoGoal := by
  constructor
  · intro h
    cases t with
    | atom | comp => simp [goalCompound] at h
    | int n => exact .int n
    | var x =>
      obtain rfl : x = Term.anonymous := by simpa [goalCompound] using h
      exact .anonymous
    | list head rest tail b => exact .list head rest tail b
  · rintro (_ | _ | _) <;> rfl

/-- A goal stands for a call of its functor. -/
theorem calls_goalCompound {t : Term} {g : Compound} (h : goalCompound t = some g) :
    t.Calls g.indicator := by
  cases t with
  | atom name =>
    obtain rfl := Option.some.inj h
    exact .atom name
  | comp f args b =>
    obtain rfl := Option.some.inj h
    exact .comp f args b
  | var x =>
    rw [goalCompound] at h
    split at h
    next => simp at h
    next hx =>
      obtain rfl := Option.some.inj h
      exact .var hx
  | int | list => simp [goalCompound] at h

theorem goalCompounds_cons_eq_error_iff {u t : Term} {ts : List Term} {g : Compound}
    (hu : goalCompound u = some g) :
    goalCompounds (u :: ts) = .error t ↔ goalCompounds ts = .error t := by
  rw [goalCompounds, hu]
  cases goalCompounds ts <;> simp

/-- The first goal that stands for no compound is the one that is named. -/
theorem goalCompounds_eq_error_iff {ts : List Term} {t : Term} :
    goalCompounds ts = .error t ↔
      ∃ before after, ts = before ++ t :: after ∧ (∀ u ∈ before, ¬ u.NoGoal) ∧ t.NoGoal := by
  constructor
  · intro h
    induction ts with
    | nil => simp [goalCompounds] at h
    | cons u ts ih =>
      cases hu : goalCompound u with
      | none =>
        rw [goalCompounds, hu] at h
        obtain rfl := Except.error.inj h
        exact ⟨[], ts, rfl, by simp, goalCompound_eq_none_iff.1 hu⟩
      | some g =>
        have hgood : ¬ u.NoGoal := by simp [← goalCompound_eq_none_iff, hu]
        obtain ⟨before, after, rfl, hbefore, ht⟩ := ih ((goalCompounds_cons_eq_error_iff hu).1 h)
        exact ⟨u :: before, after, rfl, List.forall_mem_cons.2 ⟨hgood, hbefore⟩, ht⟩
  · rintro ⟨before, after, rfl, hbefore, ht⟩
    induction before with
    | nil =>
      show goalCompounds (t :: after) = _
      rw [goalCompounds, goalCompound_eq_none_iff.2 ht]
    | cons u before ih =>
      obtain ⟨hgood, hbefore⟩ := List.forall_mem_cons.1 hbefore
      rw [← goalCompound_eq_none_iff] at hgood
      obtain ⟨g, hu⟩ := Option.ne_none_iff_exists'.1 hgood
      exact (goalCompounds_cons_eq_error_iff hu).2 (ih hbefore)

theorem normalize_eq_error_iff {c : Clause} {e : NormalizeError} :
    c.normalize = .error e ↔ c.Rejected e := by
  rw [normalize]
  cases hhead : headCompound c.head with
  | none =>
    have hbad := headCompound_eq_none_iff.1 hhead
    constructor
    · intro h
      obtain rfl := Except.error.inj h
      exact .head hbad
    · rintro (_ | ⟨hgood, -, -, -⟩)
      · rfl
      · exact absurd hbad hgood
  | some head =>
    have hgood : ¬ c.head.NoHead := by
      rw [← headCompound_eq_none_iff, hhead]
      simp
    dsimp only
    constructor
    · intro h
      split at h
      next t hbody =>
        obtain rfl := Except.error.inj h
        obtain ⟨before, after, hts, hbefore, ht⟩ := goalCompounds_eq_error_iff.1 hbody
        exact .body hgood hts hbefore ht
      next => simp at h
    · rintro (hbad | ⟨-, hts, hbefore, ht⟩)
      · exact absurd hbad hgood
      · rw [goalCompounds_eq_error_iff.2 ⟨_, _, hts, hbefore, ht⟩]

/-- Each goal of a clause in normal form is compiled to a call of its functor. -/
theorem forall₂_calls {P : Policy} {c : Clause} {n : NormalClause} {k : CompiledClause}
    {d : Draft P} (hn : c.normalize = .ok n) (hk : n.Codes P k d) :
    List.Forall₂ (fun t g => t.Calls g.functor) c.body k.goals := by
  have hbody := forall₂_goalCompounds (normalize_eq_ok hn).2
  have hcalls : List.Forall₂ Term.Calls c.body (n.body.map Compound.indicator) := by
    rw [List.forall₂_map_right_iff]
    exact hbody.imp fun _ _ => calls_goalCompound
  rw [← hk.goals.functors, List.forall₂_map_right_iff] at hcalls
  exact hcalls

/-- Under any policy, a clause is compiled without a check that fails; it is not compiled if and
only if it has no normal form, because of the first term that stands in its way; and otherwise its
code has a call for each goal, in order. -/
theorem compiled_or_rejected (P : Policy) (c : Clause) :
    Checked.compileWith P c = .ok (c.compileWith P) ∧
      (∀ e, c.compileWith P = .error e ↔ ∃ r, e = .noNormalForm r ∧ c.Rejected r) ∧
      ((∀ r, ¬ c.Rejected r) → ∃ k s, c.compileWith P = .ok (k, s) ∧
        List.Forall₂ (fun t g => t.Calls g.functor) c.body k.goals) := by
  refine ⟨Checked.compileWith_eq P c, ?_, ?_⟩
  · intro e
    cases hn : c.normalize with
    | error r =>
      have hwith : c.compileWith P = .error (.noNormalForm r) := by rw [compileWith, hn]
      rw [hwith]
      constructor
      · intro h
        obtain rfl := Except.error.inj h
        exact ⟨r, rfl, normalize_eq_error_iff.1 hn⟩
      · rintro ⟨r', rfl, hr'⟩
        have heq : Except.error r = Except.error r' := hn.symm.trans (normalize_eq_error_iff.2 hr')
        rw [Except.error.inj heq]
    | ok n =>
      obtain ⟨k, d, hwith, -⟩ := exists_compileWith hn P
      rw [hwith]
      constructor
      · intro h
        simp at h
      · rintro ⟨r, -, hr⟩
        rw [normalize_eq_error_iff.2 hr] at hn
        simp at hn
  · intro hgood
    cases hn : c.normalize with
    | error r => exact absurd (normalize_eq_error_iff.1 hn) (hgood r)
    | ok n =>
      obtain ⟨k, d, hwith, -, hcodes⟩ := exists_compileWith hn P
      exact ⟨k, d.pool, hwith, forall₂_calls hn hcodes⟩

end Clause

/-- The clause `p(f(X, _), [Y | Z]) :- G, q([Z], Y), r` for a goal `G`. -/
def callingClause (goal : Term) : Clause where
  head := .comp "p" [.comp "f" [.var "X", .var "_"] true, .list (.var "Y") [] (.var "Z") true] true
  body := [goal, .comp "q" [.list (.var "Z") [] .nil true, .var "Y"] true, .atom "r"]

/-- The clause is compiled if its first goal is `X`, and rejected if it is `[Y]`.  The first is also
so under a policy that has all variables in one register, and no check fails. -/
theorem compiled_or_rejected_calling :
    let good := callingClause (.var "X")
    let bad := callingClause (.list (.var "Y") [] .nil true)
    ((∀ r, ¬ good.Rejected r) ∧
      (∃ k s, good.compileWith .standard = .ok (k, s) ∧
        List.Forall₂ (fun t g => t.Calls g.functor) good.body k.goals) ∧
      Checked.compileWith (.crowded .last) good = .ok (good.compileWith (.crowded .last)) ∧
      ∃ k s, good.compileWith (.crowded .last) = .ok (k, s) ∧
        List.Forall₂ (fun t g => t.Calls g.functor) good.body k.goals) ∧
    bad.compileWith .standard =
      .error (.noNormalForm ⟨.body, bad, .list (.var "Y") [] .nil true⟩) := by
  intro good bad
  have hgood : ∀ r, ¬ good.Rejected r := by
    intro r hr
    exact nomatch Clause.normalize_eq_error_iff.2 hr
  have hhead : ¬ bad.head.NoHead := by
    intro h
    exact nomatch h
  have hbad : bad.Rejected ⟨.body, bad, .list (.var "Y") [] .nil true⟩ :=
    .body hhead (List.nil_append _).symm (by simp) (.list ..)
  have hcrowded := Clause.compiled_or_rejected (.crowded .last) good
  refine ⟨⟨hgood, (Clause.compiled_or_rejected .standard good).2.2 hgood, hcrowded.1,
    hcrowded.2.2 hgood⟩, ?_⟩
  exact ((Clause.compiled_or_rejected .standard bad).2.1 _).2 ⟨_, rfl, hbad⟩

end ClauseCode
