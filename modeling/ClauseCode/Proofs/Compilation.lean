import ClauseCode.Compile.Clause
import ClauseCode.Proofs.Packing
import ClauseCode.Proofs.Steps
import ClauseCode.Proofs.Visits

/-!
# Clauses in normal form are compiled

The code that is written has only voids that stand for single subterms, so that packing it succeeds
(`Compound.exists_code`).  A clause in normal form is therefore always compiled, and its code is
what the recursive form of the compiler writes, packed, head first and then goal by goal
(`Clause.exists_compile`).
-/

namespace ClauseCode

open Code (expand UnitVoids)

variable {P : Policy} {dir : Direction} {args : List Term} {d d' : Draft P}

@[simp] theorem Kind.opener_ne_void (kind : Kind) (dir dir' : Direction) (level : Level)
    (n : ℕ) (a : Address) (m : Int) : kind.opener dir level n a ≠ .void dir' m := by
  cases kind <;> simp [Kind.opener]

namespace Draft

theorem unitVoids_emit {i : Instruction} (h : UnitVoids dir d.emitted)
    (hi : ∀ n, i = .void dir n → n = 1) : UnitVoids dir (d.emit i).emitted :=
  Code.UnitVoids.cons_iff.2 ⟨hi, h⟩

theorem Cleared.unitVoids {k : ℕ} (hd : Cleared dir k d d') (h : UnitVoids dir d.emitted) :
    UnitVoids dir d'.emitted := by
  cases hd with
  | same | kept => exact h
  | @moved _ x _ =>
    exact unitVoids_emit (d := d.pick.2.temp.2.moveVar x (.reg d.pick.2.temp.1)) h (by simp)

theorem Step.unitVoids {s s' : ℕ × Draft P} (h : Step dir args s s')
    (hs : UnitVoids dir s.2.emitted) : UnitVoids dir s'.2.emitted := by
  cases h with
  | blank k d => exact unitVoids_emit hs fun n hn => (Instruction.void.inj hn).2.symm
  | constant | known | attach | resume => exact unitVoids_emit hs (by simp)
  | @unknown _ d x => exact unitVoids_emit (d := (d.newVar x none).2) hs (by simp)
  | putAside _ _ d => exact unitVoids_emit (d := d.temp.2) hs (by simp)
  | begin _ _ d => exact unitVoids_emit (d := d.temp.2) hs (by simp)
  | argSkip | argStay => exact hs
  | @argBlank _ _ _ _ _ d' hd =>
    exact unitVoids_emit (d := d'.temp.2) (hd.unitVoids hs) (by simp)
  | argKnown _ _ _ hd => exact unitVoids_emit (hd.unitVoids hs) (by simp)
  | argUnknown _ _ _ _ hd => exact unitVoids_emit (hd.unitVoids hs) (by simp)
  | argConstant _ hd c => exact unitVoids_emit (hd.unitVoids hs) (by simp)
  | argNode _ hd kind n => exact unitVoids_emit (hd.unitVoids hs) (by simp)

/-- Each void that is written stands for a single subterm. -/
theorem unitVoids_compose (dir : Direction) (args : List Term) (d : Draft P) :
    UnitVoids dir (d.compose dir args).emitted := by
  refine (steps_compose dir args d).preserves (I := fun s => UnitVoids dir s.2.emitted)
    (fun _ _ h hs => h.unitVoids hs) ?_
  intro n hn
  simp at hn

/-- What is written can be packed. -/
theorem exists_pack_compose (dir : Direction) (args : List Term) (d : Draft P) :
    ∃ is, Code.pack dir (d.compose dir args).emitted.reverse = .ok is ∧
      expand dir is = (d.compose dir args).emitted.reverse :=
  Code.exists_pack fun n hn => unitVoids_compose dir args d n (List.mem_reverse.1 hn)

/-- Packed code stands for what was packed. -/
theorem expand_of_pack {is : List Instruction}
    (h : Code.pack dir (d.compose dir args).emitted.reverse = .ok is) :
    expand dir is = (d.compose dir args).emitted.reverse := by
  obtain ⟨js, hpack, hexpand⟩ := exists_pack_compose dir args d
  obtain rfl : is = js := by simpa [h] using hpack
  exact hexpand

end Draft

/-- The code of a head or a goal is what the recursive form of the compiler writes, packed. -/
theorem Compound.exists_code (dir : Direction) (c : Compound) (hd : d.Unstarted) :
    ∃ is d', c.code dir d = .ok (is, d') ∧
      Code.pack dir (d.core.compose dir c.args).emitted.reverse = .ok is ∧
      d'.core = d.core.compose dir c.args ∧ d'.Unstarted := by
  obtain ⟨hcore, hpart, hslots⟩ := Draft.core_write dir c hd
  have hemitted : (d.write dir c).emitted = (d.core.compose dir c.args).emitted := by
    rw [← hcore, Draft.core_emitted]
  obtain ⟨is, hpack, -⟩ := Draft.exists_pack_compose dir c.args d.core
  refine ⟨is, { d.write dir c with part := (d.write dir c).part + 1 }, ?_, hpack, hcore, ?_⟩
  · rw [← hemitted] at hpack
    rw [code, hpack]
  · intro key hkey
    exact hslots key (by
      change (d.write dir c).part + 1 ≤ key.part at hkey
      omega)

/-- The code of a head or a goal is what was written, packed. -/
theorem Compound.code_eq_ok {c : Compound} {is : List Instruction}
    (h : c.code dir d = .ok (is, d')) :
    Code.pack dir (d.write dir c).emitted.reverse = .ok is ∧
      d' = { d.write dir c with part := (d.write dir c).part + 1 } := by
  rw [code] at h
  split at h
  next js hpack =>
    obtain ⟨rfl, rfl⟩ := Prod.mk.inj (Except.ok.inj h)
    exact ⟨hpack, rfl⟩
  next => simp at h

/-- Goals are compiled one after another. -/
theorem Compound.goals_cons_eq_ok {c : Compound} {cs : List Compound} {gs : List CompiledGoal}
    (h : goals d (c :: cs) = .ok (gs, d')) :
    ∃ is d₁ gs₁, c.code .build d = .ok (is, d₁) ∧ goals d₁ cs = .ok (gs₁, d') ∧
      gs = ⟨c.indicator.symbol, c.args.length, is⟩ :: gs₁ := by
  rw [goals] at h
  split at h
  next => simp at h
  next is d₁ hcode =>
    split at h
    next => simp at h
    next gs₁ d₂ hgoals =>
      obtain ⟨rfl, rfl⟩ := Prod.mk.inj (Except.ok.inj h)
      exact ⟨is, d₁, gs₁, hcode, hgoals, rfl⟩

/-- Goals, their code and the drafts before and after it. -/
inductive Compound.Coded : Draft P → List Compound → List CompiledGoal → Draft P → Prop
  | nil (d : Draft P) : Coded d [] [] d
  | cons {d d' : Draft P} {c : Compound} {cs : List Compound} {is : List Instruction}
      {gs : List CompiledGoal}
      (hpack : Code.pack .build (d.compose .build c.args).emitted.reverse = .ok is)
      (hrest : Coded (d.compose .build c.args) cs gs d') :
      Coded d (c :: cs) (⟨c.indicator.symbol, c.args.length, is⟩ :: gs) d'

/-- What the code of goals says about whom it calls. -/
theorem Compound.Coded.functors {cs : List Compound} {gs : List CompiledGoal}
    (h : Coded d cs gs d') : gs.map CompiledGoal.functor = cs.map indicator := by
  induction h with
  | nil d => rfl
  | cons _ _ ih =>
    rw [List.map_cons, List.map_cons, ih]
    rfl

theorem Compound.exists_goals (cs : List Compound) (hd : d.Unstarted) :
    ∃ gs d', goals d cs = .ok (gs, d') ∧ Coded d.core cs gs d'.core := by
  induction cs generalizing d with
  | nil => exact ⟨[], d, rfl, Coded.nil _⟩
  | cons c cs ih =>
    obtain ⟨is, d₁, hcode, hpack, hcore, hd₁⟩ := c.exists_code .build hd
    obtain ⟨gs, d₂, hgoals, hcoded⟩ := ih hd₁
    refine ⟨_, d₂, ?_, Coded.cons hpack (hcore ▸ hcoded)⟩
    rw [goals, hcode]
    dsimp only
    rw [hgoals]

namespace NormalClause

/-- The draft after the head of a clause, without what it knows about places. -/
def afterHead (P : Policy) (n : NormalClause) : Draft P :=
  (Draft.start P n.width n.permanent).compose .check n.head.args

/-- The code of a clause, from what the recursive form of the compiler writes. -/
structure Codes (P : Policy) (n : NormalClause) (k : CompiledClause) (d : Draft P) : Prop where
  functor : k.functor = n.head.indicator
  registers : k.registers = P.registers d.pool
  permanent : k.permanent = n.permanent.length
  head : Code.pack .check (n.afterHead P).emitted.reverse = .ok k.head
  goals : Compound.Coded (n.afterHead P) n.body k.goals d

theorem Codes.expand_head {n : NormalClause} {k : CompiledClause} (h : n.Codes P k d) :
    expand .check k.head = (n.afterHead P).emitted.reverse :=
  Draft.expand_of_pack h.head

theorem unstarted_start (P : Policy) (numArgs : ℕ) (permanent : List String) :
    (Draft.start P numArgs permanent).Unstarted :=
  fun _ _ => rfl

/-- A clause in normal form is compiled. -/
theorem exists_compile (P : Policy) (n : NormalClause) :
    ∃ k d d', n.head.code .check (Draft.start P n.width n.permanent) = .ok (k.head, d) ∧
      d.core = n.afterHead P ∧ n.compile P = .ok (k, d'.pool) ∧ n.Codes P k d' := by
  obtain ⟨is, d, hcode, hpack, hcore, hd⟩ :=
    n.head.exists_code .check (unstarted_start P n.width n.permanent)
  obtain ⟨gs, d', hgoals, hcoded⟩ := Compound.exists_goals n.body hd
  rw [hcore] at hcoded
  refine ⟨⟨n.head.indicator, P.registers d'.pool, n.permanent.length, is, gs⟩, d, d'.core, hcode,
    hcore, ?_, ⟨rfl, rfl, rfl, hpack, hcoded⟩⟩
  rw [compile, hcode]
  dsimp only
  rw [hgoals]
  rfl

/-- A compiled clause has the code of its head and, with the draft after it, that of its goals. -/
theorem compile_eq_ok {n : NormalClause} {k : CompiledClause} {s : P.State}
    (h : n.compile P = .ok (k, s)) :
    ∃ d d', n.head.code .check (Draft.start P n.width n.permanent) = .ok (k.head, d) ∧
      Compound.goals d n.body = .ok (k.goals, d') ∧ s = d'.pool ∧
      k = ⟨n.head.indicator, P.registers d'.pool, n.permanent.length, k.head, k.goals⟩ := by
  rw [compile] at h
  split at h
  next => simp at h
  next is d hcode =>
    split at h
    next => simp at h
    next gs d' hgoals =>
      obtain ⟨rfl, rfl⟩ := Prod.mk.inj (Except.ok.inj h)
      exact ⟨d, d', hcode, hgoals, rfl, rfl⟩

end NormalClause

/-- A clause with a normal form is compiled under any policy. -/
theorem Clause.exists_compileWith {c : Clause} {n : NormalClause} (hn : c.normalize = .ok n)
    (P : Policy) :
    ∃ k d, c.compileWith P = .ok (k, d.pool) ∧ n.compile P = .ok (k, d.pool) ∧ n.Codes P k d := by
  obtain ⟨k, -, d, -, -, hcompile, hcodes⟩ := n.exists_compile P
  refine ⟨k, d, ?_, hcompile, hcodes⟩
  rw [compileWith, hn]
  dsimp only
  rw [hcompile]

/-- The code of a clause under any policy is that of its normal form. -/
theorem Clause.codes_of_compileWith {c : Clause} {P : Policy} {k : CompiledClause} {s : P.State}
    (h : c.compileWith P = .ok (k, s)) : ∃ n d, c.normalize = .ok n ∧ n.Codes P k d := by
  cases hn : c.normalize with
  | error e => simp [compileWith, hn] at h
  | ok n =>
    obtain ⟨k', d, hk', -, hcodes⟩ := exists_compileWith hn P
    obtain ⟨rfl, -⟩ : k' = k ∧ d.pool = s := by simpa [hk'] using h
    exact ⟨n, d, rfl, hcodes⟩

/-- A clause with a normal form is compiled. -/
theorem Clause.exists_compile {c : Clause} {n : NormalClause} (hn : c.normalize = .ok n) :
    ∃ k d d', n.head.code .check (Draft.start .standard n.width n.permanent) = .ok (k.head, d) ∧
      d.core = n.afterHead .standard ∧ c.compile = .ok k ∧ n.Codes .standard k d' := by
  obtain ⟨k, d, d', hcode, hcore, hcompile, hcodes⟩ := n.exists_compile .standard
  refine ⟨k, d, d', hcode, hcore, ?_, hcodes⟩
  rw [compile, compileWith, hn]
  dsimp only
  rw [hcompile]

/-- The clause `path(X, [X|Z]) :- edge(X, Y, _), path(Y, Z).` -/
def pathClause : Clause where
  head := .comp "path" [.var "X", .list (.var "X") [] (.var "Z") true] true
  body := [.comp "edge" [.var "X", .var "Y", .var "_"] true, .comp "path" [.var "Y", .var "Z"] true]

/-- The normal form of `pathClause`. -/
def pathNormal : NormalClause where
  head := ⟨"path", [.var "X", .list (.var "X") [] (.var "Z") true]⟩
  body := [⟨"edge", [.var "X", .var "Y", .var "_"]⟩, ⟨"path", [.var "Y", .var "Z"]⟩]

/-! ### Several variables in a register -/

/-- A policy that has all variables in register 0 and comes upon them as `choice` says. -/
def Policy.crowded (choice : Choice String) : Policy where
  State := Int
  start numArgs _ := numArgs
  var top _ _ := (.reg 0, top)
  temp top := (top, top + 1)
  registers top := top
  pick top := (choice, top)

/-- Of the elements that are listed, the last one. -/
def Choice.last {α : Type} : Choice α := fun x xs =>
  ⟨(x :: xs).getLast (List.cons_ne_nil x xs), List.getLast_mem (List.cons_ne_nil x xs)⟩

/-- The clause `p(X, Y) :- q(a, X)` in normal form. -/
def crowdedNormal : NormalClause where
  head := ⟨"p", [.var "X", .var "Y"]⟩
  body := [⟨"q", [.atom "a", .var "X"]⟩]

/-- If `Y`, which was met last, is come upon in register 0, it is not needed in `q(a, X)`, and
nothing is moved. -/
example : (crowdedNormal.toClause.compileWith (.crowded .first)).toOption.map
    (fun r => r.1.goals.map CompiledGoal.code) =
      some [[.constant .build .shallow (.atom "a") (.reg 0), .argValue .build (.reg 0) 1]] := rfl

/-- If `X` is come upon there, it is moved to register 2. -/
example : (crowdedNormal.toClause.compileWith (.crowded .last)).toOption.map
    (fun r => r.1.goals.map CompiledGoal.code) =
      some [[.argVariable .check (.reg 2) 0, .constant .build .shallow (.atom "a") (.reg 0),
        .argValue .build (.reg 2) 1]] := rfl

end ClauseCode
