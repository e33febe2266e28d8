import ClauseCode.Proofs.Recursion
import Mathlib.Logic.Relation

/-!
# The steps of a draft

Writing the code of a head or a goal is a sequence of small steps.  `Step` says what a step can be
and what is known when it is taken; in particular, a register that is read for a nested node was
written before.  `steps_compose` says that all code comes about by such steps, so that what every
step keeps is true of all code.

A step goes from a number of arguments and a draft to a number of arguments and a draft: the steps
for an argument count it.
-/

namespace ClauseCode

namespace Instruction

/-- The addresses that an instruction writes. -/
def writes : Instruction → List Address
  | constant .build _ _ a => [a]
  | list .build _ a => [a]
  | struct .build _ _ a => [a]
  | argVariable .check a _ => [a]
  | argVariable .build a k => [a, .reg k]
  | argValue .build _ k => [.reg k]
  | subVariable _ a => [a]
  | _ => []

/-- The addresses that an instruction reads. -/
def reads : Instruction → List Address
  | constant .check _ _ a => [a]
  | list .check _ a => [a]
  | struct .check _ _ a => [a]
  | argVariable .check _ k => [.reg k]
  | argValue .check a k => [a, .reg k]
  | argValue .build a _ => [a]
  | subValue _ a => [a]
  | _ => []

/-- The addresses that an instruction mentions. -/
def mentions : Instruction → List Address
  | constant _ _ _ a => [a]
  | list _ _ a => [a]
  | struct _ _ _ a => [a]
  | argVariable _ a k => [a, .reg k]
  | argValue _ a k => [a, .reg k]
  | subVariable _ a => [a]
  | subValue _ a => [a]
  | _ => []

end Instruction

@[simp] theorem Kind.writes_opener_build (k : Kind) (level : Level) (n : Nat) (a : Address) :
    (k.opener .build level n a).writes = [a] := by
  cases k <;> rfl

@[simp] theorem Kind.writes_opener_check (k : Kind) (level : Level) (n : Nat) (a : Address) :
    (k.opener .check level n a).writes = [] := by
  cases k <;> rfl

@[simp] theorem Kind.reads_opener_build (k : Kind) (level : Level) (n : Nat) (a : Address) :
    (k.opener .build level n a).reads = [] := by
  cases k <;> rfl

@[simp] theorem Kind.reads_opener_check (k : Kind) (level : Level) (n : Nat) (a : Address) :
    (k.opener .check level n a).reads = [a] := by
  cases k <;> rfl

namespace Draft

variable {P : Policy}

/-- The addresses that the head or goal at hand writes so far. -/
def written (d : Draft P) : List Address := d.emitted.flatMap Instruction.writes

@[simp] theorem mem_written_emit {d : Draft P} {i : Instruction} {a : Address} :
    a ∈ (d.emit i).written ↔ a ∈ i.writes ∨ a ∈ d.written := by
  rw [written, emit, List.flatMap_cons, List.mem_append]
  rfl

/-- Moves variable `x` out of register `k`. -/
def moveAway (d : Draft P) (x : String) (k : ℕ) : Draft P :=
  (d.temp.2.moveVar x (.reg d.temp.1)).emit (.argVariable .check (.reg d.temp.1) k)

/-- What may happen before argument `k` is written: a goal may come upon a variable in register `k`,
and may move it away. -/
inductive Cleared (dir : Direction) (k : ℕ) (d : Draft P) : Draft P → Prop
  | same : Cleared dir k d d
  | kept (hdir : dir = .build) : Cleared dir k d d.pick.2
  | moved (hdir : dir = .build) {x : String} (hx : (x, .reg k) ∈ d.homes) :
      Cleared dir k d (d.pick.2.moveAway x k)

/-- One step in writing the code of a head or a goal with the given arguments. -/
inductive Step (dir : Direction) (args : List Term) : ℕ × Draft P → ℕ × Draft P → Prop
  /-- A child that is the anonymous variable. -/
  | blank (k : ℕ) (d : Draft P) : Step dir args (k, d) (k, d.emit (.void dir 1))
  /-- A child that is a constant. -/
  | constant (k : ℕ) (d : Draft P) (c : Constant) :
      Step dir args (k, d) (k, d.emit (.subConstant dir c))
  /-- A child that is a variable met before. -/
  | known (k : ℕ) {d : Draft P} {x : String} {a : Address} (h : d.home? x = some a) :
      Step dir args (k, d) (k, d.emit (.subValue dir a))
  /-- A child that is a variable met for the first time. -/
  | unknown (k : ℕ) {d : Draft P} {x : String} (hx : x ≠ Term.anonymous) (h : d.home? x = none) :
      Step dir args (k, d) (k, (d.newVar x none).2.emit (.subVariable dir (d.newVar x none).1))
  /-- A child that is built already. -/
  | attach (hdir : dir = .build) (k : ℕ) {d : Draft P} {r : Int} (hr : .reg r ∈ d.written) :
      Step dir args (k, d) (k, d.emit (.subValue .build (.reg r)))
  /-- A child that is put aside. -/
  | putAside (hdir : dir = .check) (k : ℕ) (d : Draft P) :
      Step dir args (k, d) (k, d.temp.2.emit (.subVariable .check (.reg d.temp.1)))
  /-- The beginning of a nested node that is built. -/
  | begin (hdir : dir = .build) (k : ℕ) (d : Draft P) (kind : Kind) (n : ℕ) :
      Step dir args (k, d) (k, d.temp.2.emit (kind.opener .build .deep n (.reg d.temp.1)))
  /-- The beginning of a nested node that is checked. -/
  | resume (hdir : dir = .check) (k : ℕ) {d : Draft P} {r : Int} (hr : .reg r ∈ d.written)
      (kind : Kind) (n : ℕ) :
      Step dir args (k, d) (k, d.emit (kind.opener .check .deep n (.reg r)))
  /-- An argument that needs no code. -/
  | argSkip {k : ℕ} {t : Term} (hk : args[k]? = some t) (d : Draft P) :
      Step dir args (k, d) (k + 1, d)
  /-- An argument that is the anonymous variable. -/
  | argBlank (hdir : dir = .build) {k : ℕ} {t : Term} (hk : args[k]? = some t) {d d' : Draft P}
      (hd : Cleared dir k d d') :
      Step dir args (k, d) (k + 1, d'.temp.2.emit (.argVariable .build (.reg d'.temp.1) k))
  /-- An argument that is a variable met before. -/
  | argKnown {k : ℕ} {x : String} (hk : args[k]? = some (.var x)) {a : Address} {d d' : Draft P}
      (h : d.home? x = some a) (ha : a ≠ .reg k) (hd : Cleared dir k d d') :
      Step dir args (k, d) (k + 1, d'.emit (.argValue dir a k))
  /-- An argument that is a variable met for the first time and stays where it is. -/
  | argStay {k : ℕ} {x : String} (hk : args[k]? = some (.var x)) {d : Draft P}
      (hx : x ≠ Term.anonymous) (h : d.home? x = none)
      (ha : (d.newVar x (firstArg dir k)).1 = .reg k) :
      Step dir args (k, d) (k + 1, (d.newVar x (firstArg dir k)).2)
  /-- An argument that is a variable met for the first time. -/
  | argUnknown {k : ℕ} {x : String} (hk : args[k]? = some (.var x)) {d d' : Draft P}
      (hx : x ≠ Term.anonymous) (h : d.home? x = none)
      (ha : (d.newVar x (firstArg dir k)).1 ≠ .reg k)
      (hd : Cleared dir k (d.newVar x (firstArg dir k)).2 d') :
      Step dir args (k, d)
        (k + 1, d'.emit (.argVariable dir (d.newVar x (firstArg dir k)).1 k))
  /-- An argument that is a constant. -/
  | argConstant {k : ℕ} {t : Term} (hk : args[k]? = some t) {d d' : Draft P}
      (hd : Cleared dir k d d') (c : Constant) :
      Step dir args (k, d) (k + 1, d'.emit (.constant dir .shallow c (.reg k)))
  /-- The beginning of an argument that is a node. -/
  | argNode {k : ℕ} {t : Term} (hk : args[k]? = some t) {d d' : Draft P}
      (hd : Cleared dir k d d') (kind : Kind) (n : ℕ) :
      Step dir args (k, d) (k + 1, d'.emit (kind.opener dir .shallow n (.reg k)))

/-- Several steps. -/
def Steps (dir : Direction) (args : List Term) : ℕ × Draft P → ℕ × Draft P → Prop :=
  Relation.ReflTransGen (Step dir args)

variable {dir : Direction} {args : List Term} {k k' : ℕ} {d d' : Draft P}

theorem Steps.refl (s : ℕ × Draft P) : Steps dir args s s := Relation.ReflTransGen.refl

theorem Steps.trans {s s' s'' : ℕ × Draft P} (h : Steps dir args s s')
    (h' : Steps dir args s' s'') : Steps dir args s s'' := Relation.ReflTransGen.trans h h'

theorem Step.steps {s s' : ℕ × Draft P} (h : Step dir args s s') : Steps dir args s s' :=
  Relation.ReflTransGen.single h

/-- What every step keeps is kept by several. -/
theorem Steps.preserves {I : ℕ × Draft P → Prop}
    (hstep : ∀ s s', Step dir args s s' → I s → I s') {s s' : ℕ × Draft P}
    (h : Steps dir args s s') (hs : I s) : I s' := by
  induction h with
  | refl => exact hs
  | tail _ h' ih => exact hstep _ _ h' ih

/-! ### Code only grows -/

theorem Cleared.suffix (h : Cleared dir k d d') : d.emitted <:+ d'.emitted := by
  cases h with
  | same | kept => exact List.suffix_refl _
  | moved hdir hx => exact List.suffix_cons _ _

theorem Step.suffix {s s' : ℕ × Draft P} (h : Step dir args s s') :
    s.2.emitted <:+ s'.2.emitted := by
  cases h with
  | blank | constant | known | unknown | attach | putAside | begin | resume =>
    exact List.suffix_cons _ _
  | argSkip | argStay => exact List.suffix_refl _
  | argBlank _ _ hd => exact hd.suffix.trans (List.suffix_cons _ _)
  | argKnown _ _ _ hd => exact hd.suffix.trans (List.suffix_cons _ _)
  | argUnknown _ _ _ _ hd => exact hd.suffix.trans (List.suffix_cons _ _)
  | argConstant _ hd c => exact hd.suffix.trans (List.suffix_cons _ _)
  | argNode _ hd kind n => exact hd.suffix.trans (List.suffix_cons _ _)

theorem Steps.mem_written {s s' : ℕ × Draft P} (h : Steps dir args s s') {a : Address}
    (ha : a ∈ s.2.written) : a ∈ s'.2.written := by
  refine h.preserves (I := fun s => a ∈ s.2.written) (fun s s' hs ha => ?_) ha
  obtain ⟨i, hi, hai⟩ := List.mem_flatMap.1 ha
  exact List.mem_flatMap.2 ⟨i, hs.suffix.subset hi, hai⟩

/-! ### The operations as steps -/

/-- What becomes of the variable that is come upon in register `k`, if there is one. -/
theorem free_cases (d : Draft P) (args : List Term) (t : Term) (k : ℕ) :
    (d.residents k = [] ∧ d.free .build args t k = d) ∨
      ∃ x, (x, .reg k) ∈ d.homes ∧ d.resident k = (some x, d.pick.2) ∧
        ((isNeeded args t k x = false ∧ d.free .build args t k = d.pick.2) ∨
          (isNeeded args t k x = true ∧ d.free .build args t k = d.pick.2.moveAway x k)) := by
  unfold free relocate
  rcases resident_cases d k with ⟨hnil, hres⟩ | ⟨x, hx, hres⟩
  · rw [hres]
    exact Or.inl ⟨hnil, rfl⟩
  · rw [hres]
    refine Or.inr ⟨x, hx, rfl, ?_⟩
    by_cases hneed : isNeeded args t k x = true
    · refine Or.inr ⟨hneed, ?_⟩
      dsimp only
      rw [if_pos hneed]
      rfl
    · refine Or.inl ⟨by simpa using hneed, ?_⟩
      dsimp only
      rw [if_neg hneed]

theorem cleared_free (dir : Direction) (args : List Term) (t : Term) (k : ℕ) (d : Draft P) :
    Cleared dir k d (d.free dir args t k) := by
  cases dir with
  | check => exact Cleared.same
  | build =>
    rcases free_cases d args t k with ⟨-, heq⟩ | ⟨x, hx, -, ⟨-, heq⟩ | ⟨-, heq⟩⟩
    · rw [heq]
      exact Cleared.same
    · rw [heq]
      exact Cleared.kept rfl
    · rw [heq]
      exact Cleared.moved rfl hx

theorem steps_leaf (dir : Direction) (args : List Term) (k : ℕ) (d : Draft P) (t : Tree String) :
    Steps dir args (k, d) (k, d.leaf dir t) := by
  cases t with
  | var x =>
    rw [leaf]
    split
    next => exact (Step.blank k d).steps
    next hx =>
      split
      next a h => exact (Step.known k h).steps
      next h => exact (Step.unknown k hx h).steps
  | constant c => exact (Step.constant k d c).steps
  | node kind ts => exact Steps.refl _

theorem steps_argVar {x : String} (hk : args[k]? = some (.var x)) (dir : Direction)
    (d : Draft P) : Steps dir args (k, d) (k + 1, d.argVar dir args k x) := by
  by_cases hx : x = Term.anonymous
  · subst hx
    rw [argVar_blank]
    cases dir with
    | check => exact (Step.argSkip hk d).steps
    | build => exact (Step.argBlank rfl hk (cleared_free .build args _ k d)).steps
  · cases h : d.home? x with
    | some a =>
      rw [argVar_known hx h]
      split
      next => exact (Step.argSkip hk d).steps
      next ha => exact (Step.argKnown hk h ha (cleared_free dir args _ k d)).steps
    | none =>
      rw [argVar_new hx h]
      dsimp only
      split
      next ha => exact (Step.argStay hk hx h ha).steps
      next ha => exact (Step.argUnknown hk hx h ha (cleared_free dir args _ k _)).steps

theorem steps_argConstant {t : Term} (hk : args[k]? = some t) (dir : Direction) (d : Draft P)
    (c : Constant) : Steps dir args (k, d) (k + 1, d.argConstant dir args k t c) :=
  (Step.argConstant hk (cleared_free dir args t k d) c).steps

theorem steps_argNode {t : Term} (hk : args[k]? = some t) (dir : Direction) (d : Draft P)
    (kind : Kind) (n : ℕ) : Steps dir args (k, d)
      (k + 1, (d.free dir args t k).emit (kind.opener dir .shallow n (.reg k))) :=
  (Step.argNode hk (cleared_free dir args t k d) kind n).steps

/-! ### Goals -/

/-- The registers of the nodes among some trees are written. -/
def Ready (d : Draft P) (ts : List (Tree String)) (rs : List Int) : Prop :=
  List.Forall₂ (fun t r => (∃ kind us, t = .node kind us) → .reg r ∈ d.written) ts rs

theorem Ready.mono {ts : List (Tree String)} {rs : List Int} (h : Ready d ts rs)
    (hsteps : Steps dir args (k, d) (k', d')) : Ready d' ts rs :=
  List.Forall₂.imp (fun _ _ hr ht => hsteps.mem_written (hr ht)) h

theorem steps_fill {ts : List (Tree String)} {rs : List Int} (h : Ready d ts rs) :
    Steps .build args (k, d) (k, d.fill ts rs) := by
  induction ts generalizing d rs with
  | nil =>
    cases h
    exact Steps.refl _
  | cons t ts ih =>
    cases h with
    | @cons _ r _ rs hr hrs =>
    cases t with
    | node kind us =>
      have hstep : Step .build args (k, d) (k, d.emit (.subValue .build (.reg r))) :=
        Step.attach rfl k (hr ⟨kind, us, rfl⟩)
      exact hstep.steps.trans (ih (Ready.mono hrs hstep.steps))
    | var x =>
      have hleaf := steps_leaf .build args k d (.var x)
      exact hleaf.trans (ih (Ready.mono hrs hleaf))
    | constant c =>
      have hleaf := steps_leaf .build args k d (.constant c)
      exact hleaf.trans (ih (Ready.mono hrs hleaf))

theorem steps_buildAll {ts : List (Tree String)}
    (hts : ∀ t ∈ ts, ∀ d : Draft P, Steps .build args (k, d) (k, (d.build t).2) ∧
      ((∃ kind us, t = .node kind us) → .reg (d.build t).1 ∈ (d.build t).2.written)) :
    Steps .build args (k, d) (k, (d.buildAll ts).2) ∧
      Ready (d.buildAll ts).2 ts (d.buildAll ts).1 := by
  induction ts generalizing d with
  | nil => exact ⟨Steps.refl _, List.Forall₂.nil⟩
  | cons t ts ih =>
    obtain ⟨hsteps, hr⟩ := hts t (by simp) d
    obtain ⟨hsteps', hready⟩ := ih (d := (d.build t).2) fun t' ht' => hts t' (by simp [ht'])
    rw [buildAll]
    exact ⟨hsteps.trans hsteps', List.Forall₂.cons (fun ht => hsteps'.mem_written (hr ht)) hready⟩

/-- A nested node is built by steps, and its register is written then. -/
theorem steps_build (args : List Term) (t : Tree String) (k : ℕ) (d : Draft P) :
    Steps .build args (k, d) (k, (d.build t).2) ∧
      ((∃ kind us, t = .node kind us) → .reg (d.build t).1 ∈ (d.build t).2.written) := by
  induction t generalizing d with
  | var x =>
    refine ⟨Steps.refl _, ?_⟩
    rintro ⟨kind, us, h⟩
    simp at h
  | constant c =>
    refine ⟨Steps.refl _, ?_⟩
    rintro ⟨kind, us, h⟩
    simp at h
  | node kind ts ih =>
    obtain ⟨hall, hready⟩ := steps_buildAll (d := d) fun t ht d => ih t ht d
    -- First the nested nodes, then the opener, then the children.
    have hbegin : Step .build args (k, (d.buildAll ts).2) (k, _) :=
      Step.begin rfl k (d.buildAll ts).2 kind ts.length
    have hfill : Steps .build args (k, _) (k, _) := steps_fill (hready.mono hbegin.steps)
    rw [build]
    refine ⟨(hall.trans hbegin.steps).trans hfill, fun _ => hfill.mem_written ?_⟩
    simp

theorem steps_buildArg {t : Term} (hk : args[k]? = some t) :
    Steps .build args (k, d) (k + 1, buildArg args k d t) := by
  rw [buildArg]
  split
  next x hx =>
    rw [Term.read_eq_var_iff] at hx
    subst hx
    exact steps_argVar hk .build d
  next c hc => exact steps_argConstant hk .build d c
  next kind ts ht =>
    obtain ⟨hall, hready⟩ := steps_buildAll (d := d) fun t _ d => steps_build args t k d
    have hnode := steps_argNode hk .build (d.buildAll ts).2 kind ts.length
    exact (hall.trans hnode).trans (steps_fill (hready.mono hnode))

theorem drop_eq_cons {t : Term} {ts : List Term} (h : args.drop k = t :: ts) :
    args[k]? = some t ∧ args.drop (k + 1) = ts :=
  ⟨by rw [← List.head?_drop, h, List.head?_cons], by rw [← List.tail_drop, h, List.tail_cons]⟩

theorem steps_buildArgs {ts : List Term} (hts : args.drop k = ts) :
    Steps .build args (k, d) (k + ts.length, buildArgs args k d ts) := by
  induction ts generalizing k d with
  | nil => exact Steps.refl _
  | cons t ts ih =>
    obtain ⟨hk, hrest⟩ := drop_eq_cons hts
    have hlength : k + (t :: ts).length = k + 1 + ts.length := by
      rw [List.length_cons]
      omega
    rw [buildArgs, hlength]
    exact (steps_buildArg hk).trans (ih hrest)

/-! ### Heads -/

/-- What is put aside is in registers that are written. -/
def Stocked (d : Draft P) (q : List Deferred) : Prop := ∀ e ∈ q, .reg e.reg ∈ d.written

theorem Stocked.mono {q : List Deferred} (h : Stocked d q)
    (hsteps : Steps dir args (k, d) (k', d')) : Stocked d' q :=
  fun e he => hsteps.mem_written (h e he)

theorem Stocked.append {q q' : List Deferred} (h : Stocked d q) (h' : Stocked d q') :
    Stocked d (q ++ q') := by
  intro e he
  rcases List.mem_append.1 he with he | he
  · exact h e he
  · exact h' e he

theorem steps_split (args : List Term) (ts : List (Tree String)) (k : ℕ) (d : Draft P) :
    Steps .check args (k, d) (k, (d.split ts).2) ∧ Stocked (d.split ts).2 (d.split ts).1 := by
  induction ts generalizing d with
  | nil => exact ⟨Steps.refl _, by simp [Stocked, split]⟩
  | cons t ts ih =>
    cases t with
    | node kind us =>
      have hstep : Step .check args (k, d) (k, _) := Step.putAside rfl k d
      obtain ⟨hsteps, hstocked⟩ := ih (d.temp.2.emit (.subVariable .check (.reg d.temp.1)))
      refine ⟨hstep.steps.trans hsteps, ?_⟩
      intro e he
      rcases List.mem_cons.1 he with rfl | he
      · exact hsteps.mem_written (by simp [Instruction.writes])
      · exact hstocked e he
    | var x =>
      obtain ⟨hsteps, hstocked⟩ := ih (d.leaf .check (.var x))
      exact ⟨(steps_leaf .check args k d _).trans hsteps, hstocked⟩
    | constant c =>
      obtain ⟨hsteps, hstocked⟩ := ih (d.leaf .check (.constant c))
      exact ⟨(steps_leaf .check args k d _).trans hsteps, hstocked⟩

theorem steps_checkQueue {q : List Deferred} (h : Stocked d q) :
    Steps .check args (k, d) (k, d.checkQueue q) := by
  fun_induction checkQueue d q with
  | case1 d => exact Steps.refl _
  | case2 d e q s ih =>
    have hopen : Step .check args (k, d) _ :=
      Step.resume rfl k (h e (by simp)) e.kind e.children.length
    obtain ⟨hsteps, hstocked⟩ := steps_split args e.children k
      (d.emit (e.kind.opener .check .deep e.children.length (.reg e.reg)))
    -- Later steps keep what is written, so that the rest of the queue stays in stock.
    have hq : Stocked d q := fun e' he' => h e' (by simp [he'])
    have hall := hopen.steps.trans hsteps
    exact hall.trans (ih ((hq.mono hall).append hstocked))

theorem steps_checkArg {t : Term} (hk : args[k]? = some t) :
    Steps .check args (k, d) (k + 1, (checkArg args k d t).2) ∧
      Stocked (checkArg args k d t).2 (checkArg args k d t).1 := by
  rw [checkArg]
  split
  next x hx =>
    rw [Term.read_eq_var_iff] at hx
    subst hx
    exact ⟨steps_argVar hk .check d, by simp [Stocked]⟩
  next c hc => exact ⟨steps_argConstant hk .check d c, by simp [Stocked]⟩
  next kind ts ht =>
    obtain ⟨hsteps, hstocked⟩ := steps_split args ts (k + 1)
      (d.emit (kind.opener .check .shallow ts.length (.reg k)))
    exact ⟨(steps_argNode hk .check d kind ts.length).trans hsteps, hstocked⟩

theorem steps_checkArgs {ts : List Term} (hts : args.drop k = ts) :
    Steps .check args (k, d) (k + ts.length, (checkArgs args k d ts).2) ∧
      Stocked (checkArgs args k d ts).2 (checkArgs args k d ts).1 := by
  induction ts generalizing k d with
  | nil => exact ⟨Steps.refl _, by simp [Stocked, checkArgs]⟩
  | cons t ts ih =>
    obtain ⟨hk, hrest⟩ := drop_eq_cons hts
    have hlength : k + (t :: ts).length = k + 1 + ts.length := by
      rw [List.length_cons]
      omega
    obtain ⟨harg, hstocked⟩ := steps_checkArg (d := d) hk
    obtain ⟨hargs, hstocked'⟩ := ih (d := (checkArg args k d t).2) hrest
    rw [checkArgs, hlength]
    exact ⟨harg.trans hargs, (hstocked.mono hargs).append hstocked'⟩

/-- All code comes about by steps. -/
theorem steps_compose (dir : Direction) (args : List Term) (d : Draft P) :
    Steps dir args (0, { d with emitted := [] }) (args.length, d.compose dir args) := by
  cases dir with
  | check =>
    obtain ⟨hargs, hstocked⟩ :=
      steps_checkArgs (d := { d with emitted := [] }) (args.drop_zero)
    rw [Nat.zero_add] at hargs
    exact hargs.trans (steps_checkQueue hstocked)
  | build =>
    have hargs := steps_buildArgs (d := { d with emitted := [] }) (args.drop_zero)
    rw [Nat.zero_add] at hargs
    exact hargs

end Draft

end ClauseCode
