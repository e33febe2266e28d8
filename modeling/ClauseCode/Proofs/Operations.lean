import ClauseCode.Proofs.Compilation

/-!
# The operations of the compiler

Compiling a clause is a sequence of small operations on a draft: a register is taken from the
policy, the policy is asked about a variable or chooses one, a variable gets or changes its address,
a place gets its register, and an instruction is written.  For each function of the compiler, the
operations that it performs are listed here; that they give the draft which the function returns is
shown beside.

So the states that the compiler goes through while it compiles a clause are the drafts after the
first few operations of the clause (`NormalClause.operations`), and what holds in each of them can
be shown function by function (`Draft.Always`).
-/

namespace ClauseCode

/-- One change to a draft. -/
inductive Operation where
  /-- A fresh register is taken. -/
  | take
  /-- The policy is asked about a variable. -/
  | ask (name : String) (arg : Option Int)
  /-- It is chosen which of several variables is come upon first. -/
  | pick
  /-- A variable gets its first address. -/
  | settle (name : String) (a : Address)
  /-- A variable gets another address. -/
  | move (name : String) (a : Address)
  /-- A nested structure or list gets its register. -/
  | record (key : SlotKey) (reg : Int)
  /-- An instruction is written. -/
  | emit (i : Instruction)
  /-- An argument is counted. -/
  | count
  /-- The code of a head or a goal begins. -/
  | begin
  /-- The code of a head or a goal ends. -/
  | finish

namespace Draft

variable {P : Policy}

/-- An argument that is visited is the next one to be counted, and the others come after it. -/
theorem upcoming_visit (dir : Direction) {args : List Term} {d : Draft P} {o : Occurrence}
    {os : List Occurrence} (hos : args.drop d.argsSeen = Occurrence.arguments (o :: os)) :
    (o.depth = 1 → args[d.argsSeen]? = some o.term) ∧
      args.drop (d.visit dir args o).argsSeen = Occurrence.arguments os := by
  rw [Occurrence.arguments_cons] at hos
  rw [argsSeen_visit]
  by_cases hdepth : o.depth = 1
  · rw [if_pos hdepth] at hos ⊢
    obtain ⟨hnext, hlater⟩ := drop_eq_cons hos
    exact ⟨fun _ => hnext, hlater⟩
  · rw [if_neg hdepth] at hos ⊢
    exact ⟨fun h => absurd h hdepth, hos⟩

/-- The draft after one operation. -/
def perform (d : Draft P) : Operation → Draft P
  | .take => d.temp.2
  | .ask x arg => { d with pool := (P.var d.pool x arg).2 }
  | .pick => d.pick.2
  | .settle x a => { d with homes := (x, a) :: d.homes }
  | .move x a => d.moveVar x a
  | .record key r => { d with slots := (key, r) :: d.slots }
  | .emit i => d.emit i
  | .count => { d with argsSeen := d.argsSeen + 1 }
  | .begin => { d with argsSeen := 0, emitted := [] }
  | .finish => { d with part := d.part + 1 }

/-- The draft after several operations. -/
def performAll (d : Draft P) (ops : List Operation) : Draft P := ops.foldl perform d

theorem performAll_append (d : Draft P) (ops ops' : List Operation) :
    d.performAll (ops ++ ops') = (d.performAll ops).performAll ops' := List.foldl_append

/-! ### What holds all the time -/

/-- Something holds before some operations, after all of them, and at any time in between. -/
def Always (I : Draft P → Prop) (d : Draft P) (ops : List Operation) : Prop :=
  ∀ done, done <+: ops → I (d.performAll done)

variable {I : Draft P → Prop} {d : Draft P} {op : Operation} {ops ops' : List Operation}

theorem Always.nil (h : I d) : Always I d [] := by
  intro done hdone
  obtain rfl := List.prefix_nil.1 hdone
  exact h

theorem always_cons : Always I d (op :: ops) ↔ I d ∧ Always I (d.perform op) ops := by
  constructor
  · intro h
    refine ⟨h [] List.nil_prefix, fun done hdone => ?_⟩
    exact h (op :: done) (List.cons_prefix_cons.2 ⟨rfl, hdone⟩)
  · rintro ⟨h, hrest⟩ done hdone
    cases done with
    | nil => exact h
    | cons op' done =>
      obtain ⟨rfl, hdone'⟩ := List.cons_prefix_cons.1 hdone
      exact hrest done hdone'

theorem Always.cons (h : I d) (hrest : Always I (d.perform op) ops) : Always I d (op :: ops) :=
  always_cons.2 ⟨h, hrest⟩

theorem Always.append (h : Always I d ops) (h' : Always I (d.performAll ops) ops') :
    Always I d (ops ++ ops') := by
  induction ops generalizing d with
  | nil => exact h'
  | cons op ops ih =>
    obtain ⟨hd, hrest⟩ := always_cons.1 h
    exact Always.cons hd (ih hrest h')

theorem Always.left (h : Always I d (ops ++ ops')) : Always I d ops :=
  fun done hdone => h done (hdone.trans (List.prefix_append ops ops'))

theorem Always.right {d' : Draft P} (h : Always I d (ops ++ ops')) (hd : d.performAll ops = d') :
    Always I d' ops' := by
  subst hd
  intro done hdone
  rw [← performAll_append]
  exact h (ops ++ done) ((List.prefix_append_right_inj ops).2 hdone)

/-- What holds all the time holds in the beginning. -/
theorem Always.initial (h : Always I d ops) : I d := h [] List.nil_prefix

/-- What holds all the time holds in the end. -/
theorem Always.final (h : Always I d ops) : I (d.performAll ops) := h ops (List.prefix_refl ops)

/-- What is done next may rely on what holds by then. -/
theorem Always.andThen {d' : Draft P} (h : Always I d ops) (hd : d.performAll ops = d')
    (hrest : I d' → Always I d' ops') : Always I d (ops ++ ops') := by
  subst hd
  exact h.append (hrest h.final)

/-! ### Variables and places -/

/-- The operations of `newVar`. -/
def newVarOps (d : Draft P) (x : String) (arg : Option Int) : List Operation :=
  [.ask x arg, .settle x (d.newVar x arg).1]

theorem performAll_newVarOps (d : Draft P) (x : String) (arg : Option Int) :
    d.performAll (d.newVarOps x arg) = (d.newVar x arg).2 := rfl

/-- The operations of `slot`. -/
def slotOps (d : Draft P) (o : Occurrence) : List Operation :=
  match d.slots.lookup (d.key o) with
  | some _ => []
  | none => [.take, .record (d.key o) d.temp.1]

theorem performAll_slotOps (d : Draft P) (o : Occurrence) :
    d.performAll (d.slotOps o) = (d.slot o).2 := by
  rw [slotOps]
  cases h : d.slots.lookup (d.key o) with
  | some r => rw [slot_of_known h]; rfl
  | none => rw [slot_of_unknown h]; rfl

/-- The operations of `free`. -/
def freeOps (dir : Direction) (args : List Term) (t : Term) (k : ℕ) (d : Draft P) :
    List Operation :=
  match dir with
  | .check => []
  | .build =>
    match d.resident k with
    | (none, _) => []
    | (some x, d) =>
      if isNeeded args t k x then
        [.pick, .take, .move x (.reg d.temp.1), .emit (Direction.build.moveArg (.reg d.temp.1) k)]
      else [.pick]

theorem performAll_freeOps (dir : Direction) (args : List Term) (t : Term) (k : ℕ)
    (d : Draft P) : d.performAll (d.freeOps dir args t k) = d.free dir args t k := by
  cases dir with
  | check => rfl
  | build =>
    rcases free_cases d args t k with ⟨hnil, heq⟩ | ⟨x, -, hres, ⟨hneed, heq⟩ | ⟨hneed, heq⟩⟩
    · have hres : d.resident k = (none, d) := by rw [resident, hnil]
      simp only [freeOps, hres, heq]
      rfl
    · simp only [freeOps, hres, heq, hneed]
      rfl
    · simp only [freeOps, hres, heq, hneed]
      rfl

/-! ### Subterms and arguments -/

/-- The operations of `subterm`. -/
def subtermOps (dir : Direction) (d : Draft P) (o : Occurrence) : List Operation :=
  match o.term with
  | .var x =>
    if x = Term.anonymous then [.emit (.void dir 1)]
    else
      match d.home? x with
      | some a => [.emit (.subValue dir a)]
      | none => d.newVarOps x none ++ [.emit (.subVariable dir (d.newVar x none).1)]
  | .atom name => [.emit (.subConstant dir (.atom name))]
  | .int n => [.emit (.subConstant dir (.int n))]
  | .comp .. | .list .. => d.slotOps o ++ [.emit (dir.nested (.reg (d.slot o).1))]

theorem performAll_subtermOps (dir : Direction) (d : Draft P) (o : Occurrence) :
    d.performAll (d.subtermOps dir o) = d.subterm dir o := by
  obtain ⟨t, depth, path⟩ := o
  cases t with
  | var x =>
    simp only [subtermOps, subterm]
    split
    · rfl
    · cases d.home? x <;> rfl
  | atom | int => rfl
  | comp | list =>
    simp only [subtermOps, subterm, performAll_append, performAll_slotOps]
    rfl

/-- The operations of several subterms. -/
def subtermsOps (dir : Direction) : Draft P → List Occurrence → List Operation
  | _, [] => []
  | d, o :: os => d.subtermOps dir o ++ subtermsOps dir (d.subterm dir o) os

theorem performAll_subtermsOps (dir : Direction) (d : Draft P) (os : List Occurrence) :
    d.performAll (subtermsOps dir d os) = os.foldl (subterm dir) d := by
  induction os generalizing d with
  | nil => rfl
  | cons o os ih => rw [subtermsOps, performAll_append, performAll_subtermOps, ih, List.foldl_cons]

/-- The operations of `argVar`. -/
def argVarOps (dir : Direction) (args : List Term) (k : ℕ) (x : String) (d : Draft P) :
    List Operation :=
  if x = Term.anonymous then
    match dir with
    | .check => []
    | .build =>
      d.freeOps .build args (.var x) k ++
        [.take, .emit (.argVariable .build (.reg (d.free .build args (.var x) k).temp.1) k)]
  else
    match d.home? x with
    | some a =>
      if a = .reg k then []
      else d.freeOps dir args (.var x) k ++ [.emit (.argValue dir a k)]
    | none =>
      let v := d.newVar x (firstArg dir k)
      d.newVarOps x (firstArg dir k) ++
        if v.1 = .reg k then []
        else v.2.freeOps dir args (.var x) k ++ [.emit (.argVariable dir v.1 k)]

theorem performAll_argVarOps (dir : Direction) (args : List Term) (k : ℕ) (x : String)
    (d : Draft P) : d.performAll (d.argVarOps dir args k x) = d.argVar dir args k x := by
  by_cases hx : x = Term.anonymous
  · subst hx
    rw [argVar_blank]
    cases dir with
    | check => rfl
    | build =>
      simp only [argVarOps, if_true, performAll_append, performAll_freeOps]
      rfl
  · cases hhome : d.home? x with
    | some a =>
      rw [argVar_known hx hhome]
      simp only [argVarOps, if_neg hx, hhome]
      split
      · rfl
      · rw [performAll_append, performAll_freeOps]
        rfl
    | none =>
      rw [argVar_new hx hhome]
      simp only [argVarOps, if_neg hx, hhome, performAll_append, performAll_newVarOps]
      split
      · rfl
      · rw [performAll_append, performAll_freeOps]
        rfl

/-- The operations of `compoundReg`. -/
def compoundRegOps (dir : Direction) (args : List Term) (k : ℕ) (o : Occurrence) (d : Draft P) :
    List Operation :=
  match o.level with
  | .shallow => d.freeOps dir args o.term k
  | _ => d.slotOps o

theorem performAll_compoundRegOps (dir : Direction) (args : List Term) (k : ℕ) (o : Occurrence)
    (d : Draft P) :
    d.performAll (d.compoundRegOps dir args k o) = (d.compoundReg dir args k o).2 := by
  unfold compoundRegOps compoundReg
  cases o.level with
  | shallow => exact performAll_freeOps dir args o.term k d
  | deep | other => exact performAll_slotOps d o

/-! ### Visits -/

/-- The operations of `visitAt`. -/
def visitAtOps (dir : Direction) (args : List Term) (k : ℕ) (o : Occurrence) (d : Draft P) :
    List Operation :=
  match o.term.kind? with
  | some kind =>
    let r := d.compoundReg dir args k o
    let i := kind.opener dir o.level o.term.children.length (.reg r.1)
    d.compoundRegOps dir args k o ++ .emit i :: subtermsOps dir (r.2.emit i) o.children
  | none =>
    if o.level = .shallow then
      match o.term.read with
      | .var x => d.argVarOps dir args k x
      | .constant c =>
        d.freeOps dir args o.term k ++ [.emit (.constant dir .shallow c (.reg k))]
      | .node .. => []
    else []

theorem performAll_visitAtOps (dir : Direction) (args : List Term) (k : ℕ) (o : Occurrence)
    (d : Draft P) : d.performAll (d.visitAtOps dir args k o) = d.visitAt dir args k o := by
  rw [visitAtOps]
  cases hkind : o.term.kind? with
  | some kind =>
    dsimp only
    rw [visitAt_node hkind, performAll_append, performAll_compoundRegOps]
    exact performAll_subtermsOps dir _ o.children
  | none =>
    dsimp only
    by_cases hlevel : o.level = .shallow
    · rw [if_pos hlevel]
      rcases Term.var_or_constant hkind with ⟨x, hx⟩ | ⟨c, hc⟩
      · rw [visitAt_argVar hx hlevel, hx]
        exact performAll_argVarOps dir args k x d
      · rw [visitAt_argConstant hc hlevel, hc]
        dsimp only
        rw [performAll_append, performAll_freeOps]
        rfl
    · -- A leaf below the arguments was written together with the term around it.
      rw [if_neg hlevel, visitAt_leaf hkind hlevel]
      rfl

/-- The operations of `visit`. -/
def visitOps (dir : Direction) (args : List Term) (d : Draft P) (o : Occurrence) :
    List Operation :=
  if o.isRoot then []
  else if o.level = .shallow then
    .count :: visitAtOps dir args d.argsSeen o (d.perform .count)
  else visitAtOps dir args 0 o d

theorem performAll_visitOps (dir : Direction) (args : List Term) (d : Draft P)
    (o : Occurrence) : d.performAll (d.visitOps dir args o) = d.visit dir args o := by
  rw [visitOps, visit]
  split
  · rfl
  · split
    · exact performAll_visitAtOps dir args d.argsSeen o (d.perform .count)
    · exact performAll_visitAtOps dir args 0 o d

/-- The operations of several visits. -/
def visitsOps (dir : Direction) (args : List Term) : Draft P → List Occurrence → List Operation
  | _, [] => []
  | d, o :: os => d.visitOps dir args o ++ visitsOps dir args (d.visit dir args o) os

theorem performAll_visitsOps (dir : Direction) (args : List Term) (d : Draft P)
    (os : List Occurrence) :
    d.performAll (visitsOps dir args d os) = os.foldl (visit dir args) d := by
  induction os generalizing d with
  | nil => rfl
  | cons o os ih => rw [visitsOps, performAll_append, performAll_visitOps, ih, List.foldl_cons]

end Draft

/-! ### Clauses -/

namespace Compound

variable {P : Policy} {d d' : Draft P}

/-- The operations of `code`. -/
def codeOps (dir : Direction) (c : Compound) (d : Draft P) : List Operation :=
  .begin :: (Draft.visitsOps dir c.args (d.perform .begin) (dir.traversal c.toTerm).collect ++
    [.finish])

theorem performAll_codeOps {dir : Direction} {c : Compound} {is : List Instruction}
    (h : c.code dir d = .ok (is, d')) : d.performAll (c.codeOps dir d) = d' := by
  obtain ⟨-, rfl⟩ := code_eq_ok h
  show (d.perform .begin).performAll (_ ++ _) = _
  rw [Draft.performAll_append, Draft.performAll_visitsOps]
  rfl

/-- The operations of `goals`. -/
def goalsOps (d : Draft P) : List Compound → List Operation
  | [] => []
  | c :: cs => c.codeOps .build d ++ goalsOps (d.performAll (c.codeOps .build d)) cs

theorem performAll_goalsOps {cs : List Compound} {gs : List CompiledGoal}
    (h : goals d cs = .ok (gs, d')) : d.performAll (goalsOps d cs) = d' := by
  induction cs generalizing d gs with
  | nil =>
    obtain ⟨-, rfl⟩ := Prod.mk.inj (Except.ok.inj h)
    rfl
  | cons c cs ih =>
    obtain ⟨is, d₁, gs₁, hcode, hgoals, -⟩ := goals_cons_eq_ok h
    rw [goalsOps, Draft.performAll_append, performAll_codeOps hcode, ih hgoals]

end Compound

namespace NormalClause

/-- The operations that compile a clause. -/
def operations (P : Policy) (n : NormalClause) : List Operation :=
  let d := Draft.start P n.width n.permanent
  n.head.codeOps .check d ++
    Compound.goalsOps (d.performAll (n.head.codeOps .check d)) n.body

/-- The operations of a clause lead to the draft that the compiler ends with. -/
theorem performAll_operations {P : Policy} {n : NormalClause} {d d' : Draft P}
    {is : List Instruction} {gs : List CompiledGoal}
    (hhead : n.head.code .check (Draft.start P n.width n.permanent) = .ok (is, d))
    (hgoals : Compound.goals d n.body = .ok (gs, d')) :
    (Draft.start P n.width n.permanent).performAll (n.operations P) = d' := by
  rw [operations, Draft.performAll_append, Compound.performAll_codeOps hhead,
    Compound.performAll_goalsOps hgoals]

end NormalClause

end ClauseCode
