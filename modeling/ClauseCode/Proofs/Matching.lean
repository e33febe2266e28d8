import ClauseCode.Proofs.Execution
import ClauseCode.Proofs.Layout

/-!
# Head code matches the head

While the code of a head runs, the question whether the head matches the arguments of a call is
turned into simpler and simpler ones.  At each point there are variables whose values are known,
children of the node at hand that are still to be looked at, and registers whose trees are still to
be looked at.  `Sat` says that a substitution answers all of these questions, and `Tracks` says that
the questions left are worth as much as the question at the start, or that the run has ended because
there is no answer.  Every step of the compiler keeps this; at the end no questions are left.
-/

namespace ClauseCode

namespace Machine

variable {s : Machine}

@[simp] theorem mem_store_self (s : Machine) (a : Address) (u : Tree ℕ) :
    (s.store a u).mem a = some u := if_pos rfl

theorem mem_store_of_ne {a b : Address} (h : b ≠ a) (u : Tree ℕ) :
    (s.store a u).mem b = s.mem b := if_neg h

theorem fetch_eq {a : Address} {u : Tree ℕ} (h : s.mem a = some u) : s.fetch a = .ok u := by
  rw [fetch, h]

/-- An instruction that begins a node looks for a node of its kind. -/
theorem step_opener_check {kind : Kind} {n : ℕ} {a : Address} {u : Tree ℕ}
    (hfocus : s.focus = .take []) (hmem : s.mem a = some u) (hn : kind = .cell → n = 2)
    (level : Level) : s.step (kind.opener .check level n a) = s.enter kind n u := by
  cases kind with
  | functor f => simp only [Kind.opener, step, hfocus, stepArg, fetch_eq hmem]; rfl
  | cell => simp only [Kind.opener, step, hfocus, stepArg, fetch_eq hmem, hn rfl]; rfl

theorem enter_node {kind : Kind} {us : List (Tree ℕ)} {n : ℕ} (h : us.length = n) :
    s.enter kind n (.node kind us) = .ok { s with focus := .take us } := by
  rw [enter, if_pos ⟨rfl, by rw [h]⟩]

theorem enter_eq_mismatch {kind : Kind} {n : ℕ} {u : Tree ℕ}
    (h : ∀ us, u = .node kind us → us.length ≠ n) : s.enter kind n u = .error .mismatch := by
  cases u with
  | node kind' us =>
    rw [enter, if_neg]
    rintro ⟨rfl, hn⟩
    exact h us rfl (by omega)
  | var v => rfl
  | constant c => rfl

end Machine

namespace Matching

open Draft

variable {d d' : Draft .standard} {s : Machine} {σ : String → Tree ℕ} {x : String} {a : Address}
  {units : List (Tree String)} {tasks : List (Int × Tree String)} {u : Tree ℕ}

/-- A state of the machine in which the code goes on: known variables have values, as many children
are left as trees to match them with, and the registers to look at hold trees. -/
structure Ready (d : Draft .standard) (units : List (Tree String))
    (tasks : List (Int × Tree String)) (s : Machine) : Prop where
  homes : ∀ x a, d.home? x = some a → ∃ v, s.mem a = some v
  focus : ∃ us, s.focus = .take us ∧ us.length = units.length
  tasks : ∀ p ∈ tasks, p.1 < d.counters.top ∧ ∃ v, s.mem (.reg p.1) = some v

/-- Whether a substitution answers all questions that are left. -/
structure Sat (d : Draft .standard) (units : List (Tree String))
    (tasks : List (Int × Tree String)) (s : Machine) (σ : String → Tree ℕ) : Prop where
  homes : ∀ x a, d.home? x = some a → s.mem a = some (σ x)
  focus : ∃ us, s.focus = .take us ∧ List.Forall₂ (Tree.Matches σ) units us
  tasks : ∀ p ∈ tasks, ∃ v, s.mem (.reg p.1) = some v ∧ p.2.Matches σ v

/-! ### Questions -/

theorem ready_take {us : List (Tree ℕ)} {t : Tree String} (h : Ready d (t :: units) tasks s)
    (hfocus : s.focus = .take (u :: us)) : Ready d units tasks { s with focus := .take us } := by
  obtain ⟨us', hus', hlen⟩ := h.focus
  rw [hfocus] at hus'
  obtain rfl : u :: us = us' := by simpa using hus'
  exact ⟨h.homes, ⟨us, rfl, by simpa using hlen⟩, h.tasks⟩

/-- The question for a child is answered on its own. -/
theorem sat_take_iff {us : List (Tree ℕ)} {t : Tree String} (hfocus : s.focus = .take (u :: us)) :
    Sat d (t :: units) tasks s σ ↔
      t.Matches σ u ∧ Sat d units tasks { s with focus := .take us } σ := by
  constructor
  · intro h
    obtain ⟨us', hus', hmatch⟩ := h.focus
    rw [hfocus] at hus'
    obtain rfl : u :: us = us' := by simpa using hus'
    obtain ⟨ht, hts⟩ := List.forall₂_cons.1 hmatch
    exact ⟨ht, h.homes, ⟨us, rfl, hts⟩, h.tasks⟩
  · rintro ⟨ht, h⟩
    obtain ⟨us', hus', hmatch⟩ := h.focus
    obtain rfl : us = us' := by simpa using hus'
    exact ⟨h.homes, ⟨u :: us, hfocus, List.Forall₂.cons ht hmatch⟩, h.tasks⟩

theorem ready_tail {p : Int × Tree String} (h : Ready d units (p :: tasks) s) :
    Ready d units tasks s :=
  ⟨h.homes, h.focus, fun q hq => h.tasks q (by simp [hq])⟩

/-- The question for a register is answered on its own. -/
theorem sat_task_iff {r : Int} {t : Tree String} (hmem : s.mem (.reg r) = some u) :
    Sat d units ((r, t) :: tasks) s σ ↔ t.Matches σ u ∧ Sat d units tasks s σ := by
  constructor
  · intro h
    obtain ⟨v, hv, ht⟩ := h.tasks (r, t) (by simp)
    obtain rfl : u = v := Option.some.inj (hmem.symm.trans hv)
    exact ⟨ht, h.homes, h.focus, fun p hp => h.tasks p (by simp [hp])⟩
  · rintro ⟨ht, h⟩
    refine ⟨h.homes, h.focus, fun p hp => ?_⟩
    rcases List.mem_cons.1 hp with rfl | hp
    · exact ⟨u, hmem, ht⟩
    · exact h.tasks p hp

theorem sat_congr {tasks' : List (Int × Tree String)} (h : ∀ p, p ∈ tasks ↔ p ∈ tasks') :
    Sat d units tasks s σ ↔ Sat d units tasks' s σ :=
  ⟨fun hs => ⟨hs.homes, hs.focus, fun p hp => hs.tasks p ((h p).2 hp)⟩,
    fun hs => ⟨hs.homes, hs.focus, fun p hp => hs.tasks p ((h p).1 hp)⟩⟩

/-- A new variable is one more question. -/
theorem sat_newVar_iff (hx : d.home? x = none) (arg : Option Int) :
    Sat (d.newVar x arg).2 units tasks s σ ↔
      s.mem (d.newVar x arg).1 = some (σ x) ∧ Sat d units tasks s σ := by
  constructor
  · intro h
    refine ⟨h.homes x _ (home?_newVar_self d x arg), fun y b hy => h.homes y b ?_, h.focus, h.tasks⟩
    have hne : y ≠ x := by
      rintro rfl
      simp [hx] at hy
    rw [home?_newVar_of_ne d arg hne, hy]
  · rintro ⟨ha, h⟩
    refine ⟨fun y b hy => ?_, h.focus, h.tasks⟩
    by_cases hne : y = x
    · subst hne
      rw [home?_newVar_self] at hy
      rw [← Option.some.inj hy, ha]
    · rw [home?_newVar_of_ne d arg hne] at hy
      exact h.homes y b hy

/-! ### New addresses -/

variable {w : ℕ} {head : List Term}

theorem ne_of_not_allocated {c : Policy.Counters} {b : Address} (ha : ¬ Allocated c a)
    (hb : Allocated c b) : b ≠ a :=
  fun h => ha (h ▸ hb)

theorem not_allocated_newVar (d : Draft .standard) (x : String) :
    ¬ Allocated d.counters (d.newVar x none).1 := by
  by_cases hx : x ∈ d.counters.permanent
  · rw [(newVar_permanent hx none).1]
    exact Int.lt_irrefl _
  · rw [(newVar_temporary hx).1]
    exact Int.lt_irrefl _

theorem not_allocated_temp (d : Draft .standard) : ¬ Allocated d.counters (.reg d.temp.1) :=
  Int.lt_irrefl _

/-- What is stored at a new address changes no question. -/
theorem sat_store_iff (hL : Layout w head d) (hready : Ready d units tasks s)
    (ha : ¬ Allocated d.counters a) (u : Tree ℕ) :
    Sat d units tasks (s.store a u) σ ↔ Sat d units tasks s σ := by
  have hhomes : ∀ y b, d.home? y = some b → (s.store a u).mem b = s.mem b := fun y b hy =>
    Machine.mem_store_of_ne (ne_of_not_allocated ha (hL.allocated (mem_homes_of_home? hy))) u
  have htasks : ∀ p ∈ tasks, (s.store a u).mem (.reg p.1) = s.mem (.reg p.1) := fun p hp =>
    Machine.mem_store_of_ne (ne_of_not_allocated (b := .reg p.1) ha (hready.tasks p hp).1) u
  constructor
  · intro h
    exact ⟨fun y b hy => hhomes y b hy ▸ h.homes y b hy, h.focus,
      fun p hp => htasks p hp ▸ h.tasks p hp⟩
  · intro h
    refine ⟨fun y b hy => ?_, h.focus, fun p hp => ?_⟩
    · rw [hhomes y b hy]
      exact h.homes y b hy
    · rw [htasks p hp]
      exact h.tasks p hp

theorem ready_store (hready : Ready d units tasks s) (hg : Grows d.counters d'.counters)
    (hhomes : ∀ y b, d'.home? y = some b → d.home? y = some b ∨ b = a) (u : Tree ℕ) :
    Ready d' units tasks (s.store a u) := by
  have hsome : ∀ b, (∃ v, s.mem b = some v) → ∃ v, (s.store a u).mem b = some v := by
    rintro b ⟨v, hv⟩
    by_cases hb : b = a
    · subst hb
      exact ⟨u, s.mem_store_self b u⟩
    · exact ⟨v, by rw [Machine.mem_store_of_ne hb, hv]⟩
  refine ⟨fun y b hy => ?_, hready.focus, fun p hp => ?_⟩
  · rcases hhomes y b hy with hy | rfl
    · exact hsome b (hready.homes y b hy)
    · exact ⟨u, s.mem_store_self b u⟩
  · obtain ⟨hlt, hv⟩ := hready.tasks p hp
    exact ⟨Int.lt_of_lt_of_le hlt hg.top, hsome _ hv⟩

theorem home?_newVar_cases {arg : Option Int} {y : String} {b : Address}
    (h : (d.newVar x arg).2.home? y = some b) :
    d.home? y = some b ∨ b = (d.newVar x arg).1 := by
  by_cases hy : y = x
  · subst hy
    rw [home?_newVar_self] at h
    exact Or.inr (Option.some.inj h).symm
  · rw [home?_newVar_of_ne d arg hy] at h
    exact Or.inl h

/-! ### The course of a run -/

/-- The argument registers are as they were, and no new variable was made. -/
structure Kept (w : ℕ) (s s' : Machine) : Prop where
  mem : ∀ r : Int, r < w → s'.mem (.reg r) = s.mem (.reg r)
  next : s'.next = s.next

theorem Kept.refl (w : ℕ) (s : Machine) : Kept w s s := ⟨fun _ _ => rfl, rfl⟩

theorem Kept.trans {s' s'' : Machine} (h : Kept w s s') (h' : Kept w s' s'') : Kept w s s'' :=
  ⟨fun r hr => (h'.mem r hr).trans (h.mem r hr), h'.next.trans h.next⟩

theorem kept_take (s : Machine) (us : List (Tree ℕ)) : Kept w s { s with focus := .take us } :=
  ⟨fun _ _ => rfl, rfl⟩

theorem kept_store (hL : Layout w head d) (ha : ¬ Allocated d.counters a) (u : Tree ℕ) :
    Kept w s (s.store a u) := by
  refine ⟨fun r hr => Machine.mem_store_of_ne (ne_of_not_allocated ha ?_) u, rfl⟩
  have := hL.width_le
  show r < d.counters.top
  omega

/-- What an instruction may do to the questions that are left: turn them into others that are worth
as much, or end the run if there is no answer. -/
inductive Advances (w : ℕ) (d : Draft .standard) (units : List (Tree String))
    (tasks : List (Int × Tree String)) (s : Machine) (d' : Draft .standard)
    (units' : List (Tree String)) (tasks' : List (Int × Tree String)) :
    Except Fault Machine → Prop
  | ok {s' : Machine} (hready : Ready d' units' tasks' s') (hkept : Kept w s s')
      (hsat : ∀ σ, Sat d units tasks s σ ↔ Sat d' units' tasks' s' σ) :
      Advances w d units tasks s d' units' tasks' (.ok s')
  | mismatch (hsat : ∀ σ, ¬ Sat d units tasks s σ) :
      Advances w d units tasks s d' units' tasks' (.error .mismatch)

/-- An instruction that makes a test answers a question if the test is what the question is
about. -/
theorem Advances.expect {units' : List (Tree String)} {tasks' : List (Int × Tree String)}
    {s' : Machine} {p : Prop} [Decidable p] (hready : Ready d' units' tasks' s')
    (hkept : Kept w s s')
    (hsat : ∀ σ, Sat d units tasks s σ ↔ p ∧ Sat d' units' tasks' s' σ) :
    Advances w d units tasks s d' units' tasks' (s'.expect p) := by
  rw [Machine.expect]
  by_cases hp : p
  · rw [if_pos (decide_eq_true hp)]
    exact .ok hready hkept fun σ => (hsat σ).trans (and_iff_right hp)
  · rw [if_neg (by simpa using hp)]
    exact .mismatch fun σ hσ => hp ((hsat σ).1 hσ).1

/-- The code so far, run from `s₀`, has turned the question `M` into those that are left, or has
found out that there is no answer. -/
structure Tracks (M : (String → Tree ℕ) → Prop) (s₀ : Machine) (w : ℕ) (head : List Term)
    (d : Draft .standard) (units : List (Tree String)) (tasks : List (Int × Tree String)) :
    Prop where
  layout : Layout w head d
  proper_units : ∀ t ∈ units, t.Proper
  proper_tasks : ∀ p ∈ tasks, p.2.Proper
  run : (∃ s, s₀.run d.emitted.reverse = .ok s ∧ Ready d units tasks s ∧ Kept w s₀ s ∧
      ∀ σ, M σ ↔ Sat d units tasks s σ) ∨
    (s₀.run d.emitted.reverse = .error .mismatch ∧ ∀ σ, ¬ M σ)

variable {M : (String → Tree ℕ) → Prop} {s₀ : Machine} {units' : List (Tree String)}
  {tasks' : List (Int × Tree String)}

theorem ready_emit (i : Instruction) (h : Ready d units tasks s) : Ready (d.emit i) units tasks s :=
  ⟨h.homes, h.focus, h.tasks⟩

theorem sat_emit_iff (i : Instruction) : Sat (d.emit i) units tasks s σ ↔ Sat d units tasks s σ :=
  ⟨fun h => ⟨h.homes, h.focus, h.tasks⟩, fun h => ⟨h.homes, h.focus, h.tasks⟩⟩

theorem sat_temp_iff : Sat d.temp.2 units tasks s σ ↔ Sat d units tasks s σ :=
  ⟨fun h => ⟨h.homes, h.focus, h.tasks⟩, fun h => ⟨h.homes, h.focus, h.tasks⟩⟩

theorem Tracks.emit {i : Instruction} (h : Tracks M s₀ w head d units tasks)
    (hL : Layout w head d') (hd' : d'.emitted = d.emitted) (hunits : ∀ t ∈ units', t.Proper)
    (htasks : ∀ p ∈ tasks', p.2.Proper)
    (hstep : ∀ s, Ready d units tasks s →
      Advances w d units tasks s d' units' tasks' (s.step i)) :
    Tracks M s₀ w head (d'.emit i) units' tasks' := by
  refine ⟨hL.congr (Grows.refl _) rfl, hunits, htasks, ?_⟩
  show (∃ s, s₀.run (i :: d'.emitted).reverse = .ok s ∧ _) ∨
    (s₀.run (i :: d'.emitted).reverse = .error .mismatch ∧ _)
  rw [List.reverse_cons, hd', Machine.run_concat]
  rcases h.run with ⟨s, hrun, hready, hkept, hsat⟩ | ⟨hrun, hnot⟩
  · rw [hrun]
    show (∃ s', s.step i = .ok s' ∧ _) ∨ (s.step i = .error .mismatch ∧ _)
    have hadv := hstep s hready
    generalize s.step i = r at hadv ⊢
    cases hadv with
    | ok hready' hkept' hsat' =>
      refine Or.inl ⟨_, rfl, ready_emit i hready', hkept.trans hkept', fun σ => ?_⟩
      rw [hsat σ, hsat' σ, sat_emit_iff]
    | mismatch hnot => exact Or.inr ⟨rfl, fun σ hσ => hnot σ ((hsat σ).1 hσ)⟩
  · rw [hrun]
    exact Or.inr ⟨rfl, hnot⟩

/-! ### Children of a node -/

theorem exists_child {t : Tree String} (h : Ready d (t :: units) tasks s) :
    ∃ u us, s.focus = .take (u :: us) := by
  obtain ⟨us, hus, hlen⟩ := h.focus
  match us, hlen with
  | u :: us, _ => exact ⟨u, us, hus⟩

theorem Tracks.blank (h : Tracks M s₀ w head d (.var Term.anonymous :: units) tasks) :
    Tracks M s₀ w head (d.emit (.void .check 1)) units tasks := by
  refine h.emit h.layout rfl (fun t ht => h.proper_units t (by simp [ht])) h.proper_tasks
    fun s hready => ?_
  obtain ⟨u, us, hfocus⟩ := exists_child hready
  have hstep : s.step (.void .check 1) = .ok { s with focus := .take us } := by
    rw [Machine.step_void_one, Machine.passOne, hfocus]
  rw [hstep]
  refine .ok (ready_take hready hfocus) (kept_take s us) fun σ => ?_
  rw [sat_take_iff hfocus]
  exact and_iff_right Tree.matches_anonymous

theorem Tracks.constant {c : Constant} (h : Tracks M s₀ w head d (.constant c :: units) tasks) :
    Tracks M s₀ w head (d.emit (.subConstant .check c)) units tasks := by
  refine h.emit h.layout rfl (fun t ht => h.proper_units t (by simp [ht])) h.proper_tasks
    fun s hready => ?_
  obtain ⟨u, us, hfocus⟩ := exists_child hready
  have hstep : s.step (.subConstant .check c) =
      Machine.expect { s with focus := .take us } (u = .constant c) := by
    simp only [Machine.step, Machine.stepSub, Machine.takeOne, hfocus]
  rw [hstep]
  refine .expect (ready_take hready hfocus) (kept_take s us) fun σ => ?_
  rw [sat_take_iff hfocus, Tree.matches_constant]

theorem Tracks.known (h : Tracks M s₀ w head d (.var x :: units) tasks)
    (hx : x ≠ Term.anonymous) (hhome : d.home? x = some a) :
    Tracks M s₀ w head (d.emit (.subValue .check a)) units tasks := by
  refine h.emit h.layout rfl (fun t ht => h.proper_units t (by simp [ht])) h.proper_tasks
    fun s hready => ?_
  obtain ⟨u, us, hfocus⟩ := exists_child hready
  obtain ⟨v, hv⟩ := hready.homes x a hhome
  have hstep : s.step (.subValue .check a) =
      Machine.expect { s with focus := .take us } (u = v) := by
    simp only [Machine.step, Machine.stepSub, Machine.takeOne, hfocus]
    rw [Machine.fetch_eq (s := { s with focus := .take us }) hv]
    rfl
  -- An answer to the other questions says what the variable is.
  have hval : ∀ σ, Sat d units tasks { s with focus := .take us } σ → v = σ x := fun σ hσ =>
    Option.some.inj (hv.symm.trans (hσ.homes x a hhome))
  rw [hstep]
  refine .expect (ready_take hready hfocus) (kept_take s us) fun σ => ?_
  rw [sat_take_iff hfocus, Tree.matches_var hx]
  exact and_congr_left fun hσ => by rw [hval σ hσ]

theorem step_subVariable_check {us : List (Tree ℕ)} (hfocus : s.focus = .take (u :: us))
    (a : Address) :
    s.step (.subVariable .check a) = .ok (Machine.store { s with focus := .take us } a u) := by
  simp only [Machine.step, Machine.stepSub, Machine.takeOne, hfocus]

theorem Tracks.unknown (h : Tracks M s₀ w head d (.var x :: units) tasks)
    (hx : x ≠ Term.anonymous) (hhome : d.home? x = none) :
    Tracks M s₀ w head ((d.newVar x none).2.emit (.subVariable .check (d.newVar x none).1))
      units tasks := by
  obtain ⟨hL, hg, -⟩ := h.layout.newVar hhome (Or.inl rfl)
  have hfresh := not_allocated_newVar d x
  refine h.emit hL rfl (fun t ht => h.proper_units t (by simp [ht])) h.proper_tasks
    fun s hready => ?_
  obtain ⟨u, us, hfocus⟩ := exists_child hready
  have hready' := ready_take hready hfocus
  rw [step_subVariable_check hfocus]
  refine .ok (ready_store hready' hg (fun y b hy => home?_newVar_cases hy) u) ?_ fun σ => ?_
  · exact (kept_take s us).trans (kept_store h.layout hfresh u)
  · rw [sat_take_iff hfocus, Tree.matches_var hx, sat_newVar_iff hhome, Machine.mem_store_self,
      sat_store_iff h.layout hready' hfresh, Option.some.injEq]

theorem Tracks.leaf {t : Tree String} (h : Tracks M s₀ w head d (t :: units) tasks)
    (ht : ∀ k us, t ≠ .node k us) : Tracks M s₀ w head (d.leaf .check t) units tasks := by
  cases t with
  | var x =>
    rw [Draft.leaf]
    split
    next hx =>
      subst hx
      exact h.blank
    next hx =>
      split
      next a ha => exact h.known hx ha
      next ha => exact h.unknown hx ha
  | constant c => exact h.constant
  | node k us => exact absurd rfl (ht k us)

theorem Tracks.putAside {kind : Kind} {ts : List (Tree String)}
    (h : Tracks M s₀ w head d (.node kind ts :: units) tasks) :
    Tracks M s₀ w head (d.temp.2.emit (.subVariable .check (.reg d.temp.1))) units
      ((d.temp.1, .node kind ts) :: tasks) := by
  obtain ⟨hL, hg⟩ := h.layout.temp
  have hfresh := not_allocated_temp d
  refine h.emit hL rfl (fun t ht => h.proper_units t (by simp [ht])) ?_ fun s hready => ?_
  · intro p hp
    rcases List.mem_cons.1 hp with rfl | hp
    · exact h.proper_units _ (by simp)
    · exact h.proper_tasks p hp
  obtain ⟨u, us, hfocus⟩ := exists_child hready
  have hready' := ready_take hready hfocus
  have hready'' : Ready d.temp.2 units tasks (Machine.store _ (.reg d.temp.1) u) :=
    ready_store hready' hg (fun y b hy => Or.inl hy) u
  rw [step_subVariable_check hfocus]
  refine .ok ⟨hready''.homes, hready''.focus, fun p hp => ?_⟩ ?_ fun σ => ?_
  · rcases List.mem_cons.1 hp with rfl | hp
    · refine ⟨?_, u, Machine.mem_store_self _ _ u⟩
      show d.counters.top < d.counters.top + 1
      omega
    · exact hready''.tasks p hp
  · exact (kept_take s us).trans (kept_store h.layout hfresh u)
  · rw [sat_take_iff hfocus, sat_task_iff (Machine.mem_store_self _ _ u), sat_temp_iff,
      sat_store_iff h.layout hready' hfresh]

/-- Without an instruction, questions may change only into others that are worth as much. -/
theorem Tracks.silent (h : Tracks M s₀ w head d units tasks) (hL : Layout w head d')
    (hd' : d'.emitted = d.emitted) (hunits : ∀ t ∈ units', t.Proper)
    (htasks : ∀ p ∈ tasks', p.2.Proper)
    (hstep : ∀ s, Ready d units tasks s → Ready d' units' tasks' s ∧
      ∀ σ, Sat d units tasks s σ ↔ Sat d' units' tasks' s σ) :
    Tracks M s₀ w head d' units' tasks' := by
  refine ⟨hL, hunits, htasks, ?_⟩
  rw [hd']
  rcases h.run with ⟨s, hrun, hready, hkept, hsat⟩ | hnot
  · obtain ⟨hready', hsat'⟩ := hstep s hready
    exact Or.inl ⟨s, hrun, hready', hkept, fun σ => (hsat σ).trans (hsat' σ)⟩
  · exact Or.inr hnot

theorem Tracks.congr (h : Tracks M s₀ w head d units tasks)
    (hmem : ∀ p, p ∈ tasks ↔ p ∈ tasks') : Tracks M s₀ w head d units tasks' := by
  refine h.silent h.layout rfl h.proper_units (fun p hp => h.proper_tasks p ((hmem p).2 hp))
    fun s hready => ⟨⟨hready.homes, hready.focus, fun p hp => ?_⟩, fun σ => sat_congr hmem⟩
  exact hready.tasks p ((hmem p).2 hp)

/-- What is put aside as a question about a register. -/
def task (e : Deferred) : Int × Tree String := (e.reg, .node e.kind e.children)

theorem Tracks.split {ts : List (Tree String)} (h : Tracks M s₀ w head d ts tasks) :
    Tracks M s₀ w head (d.split ts).2 [] (tasks ++ (d.split ts).1.map task) := by
  induction ts generalizing d tasks with
  | nil => simpa [Draft.split] using h
  | cons t ts ih =>
    cases t with
    | node kind us =>
      refine (ih h.putAside).congr fun p => ?_
      simp only [Draft.split, List.map_cons, List.mem_append, List.mem_cons, task]
      tauto
    | var x => exact ih (h.leaf (by simp))
    | constant c => exact ih (h.leaf (by simp))

/-! ### Nodes -/

theorem focus_nil (h : Ready d [] tasks s) : s.focus = .take [] := by
  obtain ⟨us, hus, hlen⟩ := h.focus
  rw [hus, List.eq_nil_of_length_eq_zero hlen]

/-- The children of a node are as many questions as it has children. -/
theorem sat_enter_iff {us : List (Tree ℕ)} (hfocus : s.focus = .take []) :
    Sat d units tasks { s with focus := .take us } σ ↔
      List.Forall₂ (Tree.Matches σ) units us ∧ Sat d [] tasks s σ := by
  constructor
  · intro h
    obtain ⟨us', hus', hmatch⟩ := h.focus
    obtain rfl : us = us' := by simpa using hus'
    exact ⟨hmatch, h.homes, ⟨[], hfocus, List.Forall₂.nil⟩, h.tasks⟩
  · rintro ⟨hmatch, h⟩
    exact ⟨h.homes, ⟨us, rfl, hmatch⟩, h.tasks⟩

theorem Tracks.open {r : Int} {kind : Kind} {ts : List (Tree String)}
    (h : Tracks M s₀ w head d [] ((r, .node kind ts) :: tasks)) (level : Level) :
    Tracks M s₀ w head (d.emit (kind.opener .check level ts.length (.reg r))) ts tasks := by
  obtain ⟨hcell, hts⟩ := Tree.proper_node_iff.1 (h.proper_tasks (r, .node kind ts) (by simp))
  refine h.emit h.layout rfl hts (fun p hp => h.proper_tasks p (by simp [hp])) fun s hready => ?_
  obtain ⟨-, u, hu⟩ := hready.tasks (r, .node kind ts) (by simp)
  have hfocus := focus_nil hready
  rw [Machine.step_opener_check hfocus hu hcell]
  by_cases hnode : ∃ us, u = .node kind us ∧ us.length = ts.length
  · obtain ⟨us, rfl, hlen⟩ := hnode
    rw [Machine.enter_node hlen]
    refine .ok ⟨hready.homes, ⟨us, rfl, hlen⟩, (ready_tail hready).tasks⟩ (kept_take s us)
      fun σ => ?_
    rw [sat_task_iff hu, sat_enter_iff hfocus, Tree.matches_node]
    simp
  · rw [Machine.enter_eq_mismatch fun us hus hlen => hnode ⟨us, hus, hlen⟩]
    refine .mismatch fun σ hσ => ?_
    rw [sat_task_iff hu, Tree.matches_node] at hσ
    obtain ⟨⟨us, hus, hmatch⟩, -⟩ := hσ
    exact hnode ⟨us, hus, hmatch.length_eq.symm⟩

theorem Tracks.checkQueue {q : List Deferred} (h : Tracks M s₀ w head d [] (q.map task)) :
    Tracks M s₀ w head (d.checkQueue q) [] [] := by
  fun_induction Draft.checkQueue d q with
  | case1 d => exact h
  | case2 d e q s ih =>
    refine ih ?_
    rw [List.map_append]
    exact (Tracks.open h .deep).split

/-! ### Arguments -/

theorem Tracks.argConstant {k : ℕ} {c : Constant} (t : Term)
    (h : Tracks M s₀ w head d [] (((k : Int), .constant c) :: tasks)) :
    Tracks M s₀ w head (d.argConstant .check head k t c) [] tasks := by
  show Tracks M s₀ w head (d.emit _) [] tasks
  refine h.emit h.layout rfl h.proper_units (fun p hp => h.proper_tasks p (by simp [hp]))
    fun s hready => ?_
  obtain ⟨-, u, hu⟩ := hready.tasks ((k : Int), .constant c) (by simp)
  have hstep : s.step (.constant .check .shallow c (.reg k)) = s.expect (u = .constant c) := by
    simp only [Machine.step, focus_nil hready, Machine.stepArg]
    rw [Machine.fetch_eq hu]
    rfl
  rw [hstep]
  refine .expect (ready_tail hready) (Kept.refl w s) fun σ => ?_
  rw [sat_task_iff hu, Tree.matches_constant]

theorem Tracks.argKnown {k : ℕ}
    (h : Tracks M s₀ w head d [] (((k : Int), .var x) :: tasks)) (hx : x ≠ Term.anonymous)
    (hhome : d.home? x = some a) :
    Tracks M s₀ w head (d.emit (.argValue .check a k)) [] tasks := by
  refine h.emit h.layout rfl h.proper_units (fun p hp => h.proper_tasks p (by simp [hp]))
    fun s hready => ?_
  obtain ⟨-, u, hu⟩ := hready.tasks ((k : Int), .var x) (by simp)
  obtain ⟨v, hv⟩ := hready.homes x a hhome
  have hval : ∀ σ, Sat d [] tasks s σ → v = σ x := fun σ hσ =>
    Option.some.inj (hv.symm.trans (hσ.homes x a hhome))
  have hstep : s.step (.argValue .check a k) = s.expect (v = u) := by
    simp only [Machine.step, focus_nil hready, Machine.stepArg]
    rw [Machine.fetch_eq hv, Machine.fetch_eq hu]
    rfl
  rw [hstep]
  refine .expect (ready_tail hready) (Kept.refl w s) fun σ => ?_
  rw [sat_task_iff hu, Tree.matches_var hx]
  exact and_congr_left fun hσ => by rw [hval σ hσ, eq_comm]

theorem Tracks.argStack {k : ℕ}
    (h : Tracks M s₀ w head d [] (((k : Int), .var x) :: tasks)) (hx : x ≠ Term.anonymous)
    (hhome : d.home? x = none) (hperm : x ∈ d.counters.permanent) {arg : Option Int}
    (hL : Layout w head (d.newVar x arg).2) :
    Tracks M s₀ w head ((d.newVar x arg).2.emit (.argVariable .check (d.newVar x arg).1 k)) []
      tasks := by
  obtain ⟨ha, hc⟩ := newVar_permanent hperm arg
  have hfresh : ¬ Allocated d.counters (d.newVar x arg).1 := by
    rw [ha]
    exact Int.lt_irrefl _
  have hg : Grows d.counters (d.newVar x arg).2.counters := by
    rw [hc]
    exact ⟨Int.le_refl _, by dsimp only; omega, rfl⟩
  refine h.emit hL rfl h.proper_units (fun p hp => h.proper_tasks p (by simp [hp]))
    fun s hready => ?_
  obtain ⟨-, u, hu⟩ := hready.tasks ((k : Int), .var x) (by simp)
  have hready' := ready_tail hready
  have hstep : s.step (.argVariable .check (d.newVar x arg).1 k) =
      .ok (s.store (d.newVar x arg).1 u) := by
    simp only [Machine.step, focus_nil hready, Machine.stepArg]
    rw [Machine.fetch_eq hu]
    rfl
  rw [hstep]
  refine .ok (ready_store hready' hg (fun y b hy => home?_newVar_cases hy) u)
    (kept_store h.layout hfresh u) fun σ => ?_
  rw [sat_task_iff hu, Tree.matches_var hx, sat_newVar_iff hhome, Machine.mem_store_self,
    sat_store_iff h.layout hready' hfresh, Option.some.injEq]

/-- A variable that stays in its argument register is known from then on. -/
theorem Tracks.argStay {k : ℕ}
    (h : Tracks M s₀ w head d [] (((k : Int), .var x) :: tasks)) (hx : x ≠ Term.anonymous)
    (hhome : d.home? x = none) (hperm : x ∉ d.counters.permanent)
    (hL : Layout w head (d.newVar x (some (k : Int))).2) :
    Tracks M s₀ w head (d.newVar x (some (k : Int))).2 [] tasks := by
  obtain ⟨ha, hc⟩ := newVar_argument hperm (k : Int)
  refine h.silent hL rfl h.proper_units (fun p hp => h.proper_tasks p (by simp [hp]))
    fun s hready => ?_
  obtain ⟨-, u, hu⟩ := hready.tasks ((k : Int), .var x) (by simp)
  refine ⟨⟨fun y b hy => ?_, hready.focus, fun p hp => ?_⟩, fun σ => ?_⟩
  · rcases home?_newVar_cases hy with hy | rfl
    · exact hready.homes y b hy
    · rw [ha]
      exact ⟨u, hu⟩
  · rw [hc]
    exact (ready_tail hready).tasks p hp
  · rw [sat_task_iff hu, Tree.matches_var hx, sat_newVar_iff hhome, ha, hu, Option.some.injEq]

theorem Tracks.argVar {k : ℕ} (hkw : head.length ≤ w) (hk : head[k]? = some (.var x))
    (h : Tracks M s₀ w head d [] (((k : Int), .var x) :: tasks)) :
    Tracks M s₀ w head (d.argVar .check head k x) [] tasks := by
  by_cases hx : x = Term.anonymous
  · subst hx
    rw [argVar_blank]
    refine h.silent h.layout rfl h.proper_units (fun p hp => h.proper_tasks p (by simp [hp]))
      fun s hready => ⟨ready_tail hready, fun σ => ?_⟩
    obtain ⟨-, u, hu⟩ := hready.tasks ((k : Int), .var Term.anonymous) (by simp)
    rw [sat_task_iff hu]
    exact and_iff_right Tree.matches_anonymous
  · cases hhome : d.home? x with
    | some a =>
      rw [argVar_known hx hhome]
      split
      next ha =>
        -- The variable lives in the register of the argument, so that there is nothing to ask.
        refine h.silent h.layout rfl h.proper_units
          (fun p hp => h.proper_tasks p (by simp [hp])) fun s hready =>
          ⟨ready_tail hready, fun σ => ?_⟩
        obtain ⟨-, u, hu⟩ := hready.tasks ((k : Int), .var x) (by simp)
        rw [sat_task_iff hu, Tree.matches_var hx]
        refine and_iff_right_of_imp fun hσ => ?_
        exact Option.some.inj (hu.symm.trans (hσ.homes x _ (ha ▸ hhome)))
      next ha => exact h.argKnown hx hhome
    | none =>
      have hfits : Layout.Fits w head .check head := ⟨hkw, fun _ => rfl⟩
      obtain ⟨hL, -, -⟩ := h.layout.newVar hhome (Layout.firstArg_cases hfits hk)
      rw [argVar_new hx hhome]
      by_cases hperm : x ∈ d.counters.permanent
      · rw [if_neg (by simp [(newVar_permanent hperm _).1])]
        exact h.argStack hx hhome hperm hL
      · have ha : (d.newVar x (firstArg .check k)).1 = .reg k :=
          (newVar_argument hperm (k : Int)).1
        dsimp only
        rw [if_pos ha]
        exact h.argStay hx hhome hperm hL

theorem Tracks.checkArg {k : ℕ} {t : Term} (hw : head.length ≤ w) (hk : head[k]? = some t)
    (h : Tracks M s₀ w head d [] (((k : Int), t.read) :: tasks)) :
    Tracks M s₀ w head (checkArg head k d t).2 []
      (tasks ++ (Draft.checkArg head k d t).1.map task) := by
  rw [Draft.checkArg]
  split
  next x hx =>
    rw [hx] at h
    rw [Term.read_eq_var_iff] at hx
    simpa using h.argVar hw (hx ▸ hk)
  next c hc =>
    rw [hc] at h
    simpa using h.argConstant t
  next kind ts ht =>
    rw [ht] at h
    exact (Tracks.open h .shallow).split

/-- The arguments from number `k` on as questions about their registers. -/
def argTasks (k : ℕ) : List Term → List (Int × Tree String)
  | [] => []
  | t :: ts => ((k : Int), t.read) :: argTasks (k + 1) ts

theorem Tracks.checkArgs {k : ℕ} {ts : List Term} (hw : head.length ≤ w)
    (hts : head.drop k = ts) (h : Tracks M s₀ w head d [] (argTasks k ts ++ tasks)) :
    Tracks M s₀ w head (checkArgs head k d ts).2 []
      (tasks ++ (Draft.checkArgs head k d ts).1.map task) := by
  induction ts generalizing k d tasks with
  | nil => simpa [Draft.checkArgs, argTasks] using h
  | cons t ts ih =>
    obtain ⟨hk, hrest⟩ := drop_eq_cons hts
    rw [argTasks, List.cons_append] at h
    have harg := h.checkArg hw hk
    rw [List.append_assoc] at harg
    have hargs := ih hrest harg
    rw [List.append_assoc, ← List.map_append] at hargs
    exact hargs

end Matching

/-! ### Calls -/

/-- The machine at a call: the arguments are in their registers, and no node is at hand. -/
structure Machine.Called (s : Machine) (ts : List (Tree ℕ)) : Prop where
  focus : s.focus = .take []
  args : ∀ (k : ℕ) u, ts[k]? = some u → s.mem (.reg k) = some u

namespace Matching

open Draft

variable {s : Machine} {head : List Term} {ts : List (Tree ℕ)} {w : ℕ}

theorem lt_of_mem_argTasks {k : ℕ} {hs : List Term} {p : Int × Tree String}
    (h : p ∈ argTasks k hs) : p.2.Proper ∧ ∃ j, p.1 = ((k + j : ℕ) : Int) ∧ j < hs.length := by
  induction hs generalizing k with
  | nil => simp [argTasks] at h
  | cons t hs ih =>
    rcases List.mem_cons.1 h with rfl | h
    · exact ⟨t.proper_read, 0, rfl, by simp⟩
    · obtain ⟨hp, j, hj, hlt⟩ := ih h
      exact ⟨hp, j + 1, by rw [hj]; congr 1; omega, by simpa using hlt⟩

theorem argTasks_iff {σ : String → Tree ℕ} {k : ℕ} {hs : List Term} {us : List (Tree ℕ)}
    (hlen : us.length = hs.length)
    (hmem : ∀ (j : ℕ) u, us[j]? = some u → s.mem (.reg ((k + j : ℕ) : Int)) = some u) :
    List.Forall₂ (Tree.Matches σ) (hs.map Term.read) us ↔
      ∀ p ∈ argTasks k hs, ∃ v, s.mem (.reg p.1) = some v ∧ p.2.Matches σ v := by
  induction hs generalizing k us with
  | nil =>
    obtain rfl := List.eq_nil_of_length_eq_zero hlen
    simp [argTasks]
  | cons t hs ih =>
    match us, hlen with
    | u :: us, hlen =>
    have hu : s.mem (.reg (k : Int)) = some u := hmem 0 u rfl
    have hlen' : us.length = hs.length := by simpa using hlen
    have hrest := ih (k := k + 1) hlen' fun j v hv => by
      rw [Nat.add_right_comm]
      exact hmem (j + 1) v hv
    rw [List.map_cons, List.forall₂_cons, hrest, argTasks, List.forall_mem_cons, hu]
    simp

/-- The code of a head turns the question whether the head matches a call into the questions what
its variables are. -/
theorem tracks_compose (hw : head.length ≤ w) (perm : List String) (hs : s.Called ts)
    (hlen : ts.length = head.length) :
    Tracks (fun σ => List.Forall₂ (Tree.Matches σ) (head.map Term.read) ts) s w head
      ((Draft.start .standard w perm).compose .check head) [] [] := by
  have hstart : Tracks (fun σ => List.Forall₂ (Tree.Matches σ) (head.map Term.read) ts) s w head
      (Draft.start .standard w perm) [] (argTasks 0 head) := by
    refine ⟨Layout.start w head perm, by simp, fun p hp => (lt_of_mem_argTasks hp).1, Or.inl
      ⟨s, rfl, ⟨by simp [Draft.start, home?], ⟨[], hs.focus, rfl⟩, fun p hp => ?_⟩, Kept.refl w s,
        fun σ => ?_⟩⟩
    · obtain ⟨-, j, hj, hlt⟩ := lt_of_mem_argTasks hp
      refine ⟨?_, ts.get ⟨j, by omega⟩, ?_⟩
      · show p.1 < (w : Int)
        omega
      · rw [hj, Nat.zero_add]
        exact hs.args j _ (by simp)
    · have hmem : ∀ (j : ℕ) u, ts[j]? = some u → s.mem (.reg ((0 + j : ℕ) : Int)) = some u := by
        intro j u hu
        rw [Nat.zero_add]
        exact hs.args j u hu
      rw [argTasks_iff hlen hmem]
      exact ⟨fun h => ⟨by simp [Draft.start, home?], ⟨[], hs.focus, List.Forall₂.nil⟩, h⟩,
        fun h => h.tasks⟩
  rw [← List.append_nil (argTasks 0 head)] at hstart
  exact (hstart.checkArgs hw head.drop_zero).checkQueue

end Matching

end ClauseCode
