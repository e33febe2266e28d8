import ClauseCode.Proofs.Layout
import ClauseCode.Proofs.Operations
import Mathlib.Data.List.Find

/-!
# Homes do not collide

While a clause is compiled under the standard policy, the addresses of its variables and the
registers of its nested terms are all different.  `Separate` says this of a draft.  Each operation
of the compiler keeps it, and so it holds in every state that the compiler goes through
(`NormalClause.always_separate`).

Before a register is written, the variable that is found there first is moved away.  Which one is
found first could depend on the order of the homes; but no register has two variables, and so the
order is of no consequence (`Layout.relocate_reordered`).
-/

namespace ClauseCode

namespace Draft

/-! ### The order of the homes -/

section Order

variable {P : Policy} {d d' : Draft P} {x : String} {a : Address}

/-- Two drafts that differ at most in the order of the homes. -/
structure Reordered (d d' : Draft P) : Prop where
  homes : d'.homes.Perm d.homes
  rest : d' = { d with homes := d'.homes }

theorem home?_eq_some_iff (hnodup : (d.homes.map Prod.fst).Nodup) :
    d.home? x = some a ↔ (x, a) ∈ d.homes :=
  ⟨mem_homes_of_home?, home?_of_mem hnodup⟩

theorem Reordered.home?_eq (h : Reordered d d') (hnodup : (d.homes.map Prod.fst).Nodup)
    (x : String) : d'.home? x = d.home? x := by
  have hnodup' : (d'.homes.map Prod.fst).Nodup := (h.homes.map Prod.fst).nodup_iff.2 hnodup
  ext a
  rw [home?_eq_some_iff hnodup', home?_eq_some_iff hnodup, h.homes.mem_iff]

theorem Reordered.temp (h : Reordered d d') :
    d'.temp.1 = d.temp.1 ∧ Reordered d.temp.2 d'.temp.2 := by
  rw [h.rest]
  exact ⟨rfl, h.homes, rfl⟩

theorem Reordered.moveVar (h : Reordered d d') (x : String) (a : Address) :
    Reordered (d.moveVar x a) (d'.moveVar x a) := by
  refine ⟨h.homes.map _, ?_⟩
  rw [h.rest]
  rfl

end Order

variable {w : ℕ} {head args : List Term} {permanent : List String} {d d' : Draft .standard}
  {x : String} {dir : Direction} {k : ℕ} {o : Occurrence}

/-- What a draft does to free a register does not depend on the order of the homes. -/
theorem Layout.relocate_reordered (hL : Layout w head d) (h : Reordered d d') (args : List Term)
    (t : Term) (k : ℕ) :
    (d'.relocate args t k).1 = (d.relocate args t k).1 ∧
      Reordered (d.relocate args t k).2 (d'.relocate args t k).2 ∧
      ∀ x, (d'.relocate args t k).2.home? x = (d.relocate args t k).2.home? x := by
  -- At most one variable lives in register `k`, and so it is found in any order.
  have hhead : (d'.residents k).head? = (d.residents k).head? := by
    rw [residents, residents, List.head?_map, List.head?_map, List.head?_filter, List.head?_filter]
    congr 1
    refine (List.find?_eq_find?_of_perm h.homes.symm ?_).symm
    rintro ⟨x, a⟩ ⟨hx, ha⟩ ⟨y, b⟩ ⟨hy, hb⟩
    obtain rfl : a = .reg k := by simpa using ha
    obtain rfl : b = .reg k := by simpa using hb
    rw [hL.injective x y _ hx hy]
  have hhome := h.home?_eq hL.nodup
  unfold relocate
  rw [resident_standard, resident_standard, hhead]
  cases (d.residents k).head? with
  | none => exact ⟨rfl, h, hhome⟩
  | some y =>
    dsimp only
    split
    · obtain ⟨hr, htemp⟩ := h.temp
      refine ⟨congrArg some hr, hr ▸ htemp.moveVar y (.reg d'.temp.1), fun x => ?_⟩
      have hmove := home?_moveVar d'.temp.2 y x (.reg d'.temp.1)
      rw [hr, htemp.home?_eq hL.nodup, htemp.home?_eq hL.nodup, ← home?_moveVar] at hmove
      exact hr ▸ hmove
    · exact ⟨rfl, h, hhome⟩

/-! ### One operation -/

/-- The homes of variables and the registers of nested terms are all different. -/
structure Separate (w : ℕ) (head : List Term) (permanent : List String)
    (d : Draft .standard) : Prop where
  layout : Layout w head d
  permanent_eq : d.counters.permanent = permanent
  slots_nodup : (d.slots.map Prod.snd).Nodup
  slots_range : ∀ key r, (key, r) ∈ d.slots → w ≤ r ∧ r < d.counters.top
  slots_apart : ∀ key r x, (key, r) ∈ d.slots → (x, .reg r) ∉ d.homes

namespace Separate

theorem start (w : ℕ) (head : List Term) (permanent : List String) :
    Separate w head permanent (Draft.start .standard w permanent) where
  layout := Layout.start w head permanent
  permanent_eq := rfl
  slots_nodup := List.nodup_nil
  slots_range key r hr := by simp [Draft.start] at hr
  slots_apart key r x hr := by simp [Draft.start] at hr

/-- Only the counters, the homes and the places matter. -/
theorem congr (h : Separate w head permanent d) (hg : Grows d.counters d'.counters)
    (hhomes : d'.homes = d.homes) (hslots : d'.slots = d.slots) :
    Separate w head permanent d' where
  layout := h.layout.congr hg hhomes
  permanent_eq := hg.permanent.trans h.permanent_eq
  slots_nodup := hslots ▸ h.slots_nodup
  slots_range key r hr := by
    obtain ⟨hw, htop⟩ := h.slots_range key r (hslots ▸ hr)
    exact ⟨hw, Int.lt_of_lt_of_le htop hg.top⟩
  slots_apart key r x hr := hhomes ▸ h.slots_apart key r x (hslots ▸ hr)

theorem take (h : Separate w head permanent d) : Separate w head permanent (d.perform .take) :=
  h.congr h.layout.temp.2 rfl rfl

theorem emit (h : Separate w head permanent d) (i : Instruction) :
    Separate w head permanent (d.perform (.emit i)) :=
  h.congr (Grows.refl _) rfl rfl

/-- A place gets a register that was not used before. -/
theorem record (h : Separate w head permanent d) (key : SlotKey) :
    Separate w head permanent ((d.perform .take).perform (.record key d.temp.1)) where
  layout := h.take.layout.congr (Grows.refl _) rfl
  permanent_eq := h.permanent_eq
  slots_nodup := by
    refine List.nodup_cons.2 ⟨fun hmem => ?_, h.slots_nodup⟩
    obtain ⟨⟨key', r⟩, hr, heq⟩ := List.mem_map.1 hmem
    have hlt := (h.slots_range key' r hr).2
    have heq : r = d.counters.top := heq
    omega
  slots_range key' r hr := by
    rcases List.mem_cons.1 hr with hr | hr
    · obtain ⟨-, rfl⟩ := Prod.mk.inj hr
      refine ⟨h.layout.width_le, ?_⟩
      show d.counters.top < d.counters.top + 1
      omega
    · exact h.take.slots_range key' r hr
  slots_apart key' r x hr := by
    rcases List.mem_cons.1 hr with hr | hr
    · obtain ⟨-, rfl⟩ := Prod.mk.inj hr
      exact h.layout.not_mem (a := .reg d.counters.top) (Int.lt_irrefl _) x
    · exact h.slots_apart key' r x hr

/-- A variable that is moved gets a register that was not used before. -/
theorem move (h : Separate w head permanent d) (hx : (x, .reg k) ∈ d.homes) :
    Separate w head permanent ((d.perform .take).perform (.move x (.reg d.temp.1))) where
  layout := (h.layout.moveAway hx).1.congr (Grows.refl _) rfl
  permanent_eq := h.permanent_eq
  slots_nodup := h.slots_nodup
  slots_range := h.take.slots_range
  slots_apart key r y hr hy := by
    rcases Layout.mem_homes_moveVar (d := d.temp.2) hy with ⟨-, heq⟩ | ⟨-, hy⟩
    · have hlt := (h.slots_range key r hr).2
      have heq : r = d.counters.top := Address.reg.inj heq
      omega
    · exact h.slots_apart key r y hr hy

/-- What the policy is told about a variable that is met for the first time. -/
def Told (w : ℕ) (head : List Term) (x : String) (arg : Option Int) : Prop :=
  arg = none ∨ ∃ k : ℕ, arg = some (k : Int) ∧ k < w ∧ head[k]? = some (.var x)

variable {arg : Option Int}

theorem ask (h : Separate w head permanent d) (hx : d.home? x = none) (harg : Told w head x arg) :
    Separate w head permanent (d.perform (.ask x arg)) :=
  h.congr (h.layout.newVar hx harg).2.1 rfl rfl

/-- No place has the register of a new variable. -/
theorem newVar_ne (h : Separate w head permanent d) (harg : Told w head x arg) {key : SlotKey}
    {r : Int} (hr : (key, r) ∈ d.slots) : (d.newVar x arg).1 ≠ .reg r := by
  -- The new register is the next one, or else that of an argument; `r` lies between the two.
  obtain ⟨hw, htop⟩ := h.slots_range key r hr
  by_cases hperm : x ∈ d.counters.permanent
  · rw [(newVar_permanent hperm arg).1]
    simp
  · rcases harg with rfl | ⟨k, rfl, hk, -⟩
    · rw [(newVar_temporary hperm).1]
      intro heq
      have := Address.reg.inj heq
      omega
    · rw [(newVar_argument hperm (k : Int)).1]
      intro heq
      have := Address.reg.inj heq
      omega

theorem newVar (h : Separate w head permanent d) (hx : d.home? x = none)
    (harg : Told w head x arg) : Separate w head permanent (d.newVar x arg).2 where
  layout := (h.layout.newVar hx harg).1
  permanent_eq := (h.ask hx harg).permanent_eq
  slots_nodup := h.slots_nodup
  slots_range := (h.ask hx harg).slots_range
  slots_apart key r y hr hy := by
    rcases List.mem_cons.1 hy with hy | hy
    · exact h.newVar_ne harg hr (Prod.mk.inj hy).2.symm
    · exact h.slots_apart key r y hr hy

/-! ### The operations of the compiler's functions -/

theorem always_emit (h : Separate w head permanent d) (i : Instruction) :
    Always (Separate w head permanent) d [.emit i] :=
  Always.cons h (Always.nil (h.emit i))

theorem always_newVar (h : Separate w head permanent d) (hx : d.home? x = none)
    (harg : Told w head x arg) : Always (Separate w head permanent) d (d.newVarOps x arg) :=
  Always.cons h (Always.cons (h.ask hx harg) (Always.nil (h.newVar hx harg)))

theorem always_slot (h : Separate w head permanent d) (o : Occurrence) :
    Always (Separate w head permanent) d (d.slotOps o) := by
  rw [slotOps]
  split
  · exact Always.nil h
  · exact Always.cons h (Always.cons h.take (Always.nil (h.record (d.key o))))

theorem always_free (h : Separate w head permanent d) (dir : Direction) (args : List Term)
    (t : Term) (k : ℕ) : Always (Separate w head permanent) d (d.freeOps dir args t k) := by
  cases dir with
  | check => exact Always.nil h
  | build =>
    rw [freeOps]
    rcases resident_cases d k with ⟨-, hres⟩ | ⟨x, hx, hres⟩
    · rw [hres]
      exact Always.nil h
    · rw [hres]
      dsimp only
      split
      · exact Always.cons h (Always.cons h (Always.cons h.take ((h.move hx).always_emit _)))
      · exact Always.cons h (Always.nil h)

theorem always_subterm (h : Separate w head permanent d) (dir : Direction) (o : Occurrence) :
    Always (Separate w head permanent) d (d.subtermOps dir o) := by
  rw [subtermOps]
  split
  next x _ =>
    split
    · exact h.always_emit _
    · split
      next => exact h.always_emit _
      next hx =>
        exact (h.always_newVar hx (Or.inl rfl)).andThen rfl fun h' => h'.always_emit _
  next => exact h.always_emit _
  next => exact h.always_emit _
  next => exact (h.always_slot o).andThen rfl fun h' => h'.always_emit _
  next => exact (h.always_slot o).andThen rfl fun h' => h'.always_emit _

theorem always_subterms (h : Separate w head permanent d) (dir : Direction)
    (os : List Occurrence) : Always (Separate w head permanent) d (subtermsOps dir d os) := by
  induction os generalizing d with
  | nil => exact Always.nil h
  | cons o os ih =>
    exact (h.always_subterm dir o).andThen (performAll_subtermOps dir d o) fun h' => ih h'

theorem always_argVar (h : Separate w head permanent d) (hargs : Layout.Fits w head dir args)
    (hk : args[k]? = some (.var x)) :
    Always (Separate w head permanent) d (d.argVarOps dir args k x) := by
  unfold argVarOps
  split
  · cases dir with
    | check => exact Always.nil h
    | build =>
      refine (h.always_free .build args (.var x) k).andThen
        (performAll_freeOps .build args (.var x) k d) fun h' => ?_
      exact Always.cons h' (h'.take.always_emit _)
  · split
    next a _ =>
      split
      · exact Always.nil h
      · exact (h.always_free dir args (.var x) k).andThen rfl fun h' => h'.always_emit _
    next hx =>
      have harg := Layout.firstArg_cases hargs hk
      refine (h.always_newVar hx harg).andThen (performAll_newVarOps d x _) fun h' => ?_
      split
      · exact Always.nil h'
      · exact (h'.always_free dir args (.var x) k).andThen rfl fun h'' => h''.always_emit _

theorem always_compoundReg (h : Separate w head permanent d) (dir : Direction) (args : List Term)
    (k : ℕ) (o : Occurrence) :
    Always (Separate w head permanent) d (d.compoundRegOps dir args k o) := by
  unfold compoundRegOps
  split
  · exact h.always_free dir args o.term k
  · exact h.always_slot o

theorem always_visitAt (h : Separate w head permanent d) (hargs : Layout.Fits w head dir args)
    (hk : o.level = .shallow → args[k]? = some o.term) :
    Always (Separate w head permanent) d (d.visitAtOps dir args k o) := by
  unfold visitAtOps
  split
  next kind _ =>
    refine (h.always_compoundReg dir args k o).andThen
      (performAll_compoundRegOps dir args k o d) fun h' => ?_
    exact Always.cons h' ((h'.emit _).always_subterms dir o.children)
  next =>
    split
    next hlevel =>
      split
      next x hx => exact h.always_argVar hargs (Term.read_eq_var_iff.1 hx ▸ hk hlevel)
      next => exact (h.always_free dir args o.term k).andThen rfl fun h' => h'.always_emit _
      next => exact Always.nil h
    next => exact Always.nil h

theorem always_visit (h : Separate w head permanent d) (hargs : Layout.Fits w head dir args)
    (hk : o.depth = 1 → args[d.argsSeen]? = some o.term) :
    Always (Separate w head permanent) d (d.visitOps dir args o) := by
  rw [visitOps]
  split
  next => exact Always.nil h
  next hroot =>
    split
    next hlevel =>
      have hcount : Separate w head permanent (d.perform .count) := h.congr (Grows.refl _) rfl rfl
      have hdepth := depth_of_shallow hlevel hroot
      exact Always.cons h (hcount.always_visitAt hargs fun _ => hk hdepth)
    next hlevel => exact h.always_visitAt hargs fun hshallow => absurd hshallow hlevel

/-- The visits to the occurrences still to come, with the arguments among them in order. -/
theorem always_visits (h : Separate w head permanent d) (hargs : Layout.Fits w head dir args)
    {os : List Occurrence} (hos : args.drop d.argsSeen = Occurrence.arguments os) :
    Always (Separate w head permanent) d (visitsOps dir args d os) := by
  induction os generalizing d with
  | nil => exact Always.nil h
  | cons o os ih =>
    obtain ⟨hnext, hlater⟩ := upcoming_visit dir hos
    exact (h.always_visit hargs hnext).andThen (performAll_visitOps dir args d o) fun h' =>
      ih h' hlater

end Separate

end Draft

/-! ### Clauses -/

open Draft

theorem Compound.always_code {w : ℕ} {head : List Term} {permanent : List String}
    {d : Draft .standard} {dir : Direction} {c : Compound} (h : Separate w head permanent d)
    (hargs : Layout.Fits w head dir c.args) :
    Always (Separate w head permanent) d (c.codeOps dir d) := by
  have hbegin : Separate w head permanent (d.perform .begin) := h.congr (Grows.refl _) rfl rfl
  have hvisits := hbegin.always_visits hargs (dir.arguments_traversal c.toTerm).symm
  refine Always.cons h (hvisits.andThen rfl fun h' => ?_)
  exact Always.cons h' (Always.nil (h'.congr (Grows.refl _) rfl rfl))

theorem Compound.always_goals {w : ℕ} {head : List Term} {permanent : List String}
    {d : Draft .standard} {cs : List Compound} (h : Separate w head permanent d)
    (hargs : ∀ c ∈ cs, Layout.Fits w head .build c.args) :
    Always (Separate w head permanent) d (goalsOps d cs) := by
  induction cs generalizing d with
  | nil => exact Always.nil h
  | cons c cs ih =>
    refine (always_code h (hargs c List.mem_cons_self)).andThen rfl fun h' => ih h' ?_
    exact fun c' hc' => hargs c' (List.mem_cons_of_mem c hc')

namespace NormalClause

/-- Homes and registers are different in every state that the compiler goes through. -/
theorem always_separate (n : NormalClause) :
    Always (Separate n.width n.head.args n.permanent) (Draft.start .standard n.width n.permanent)
      (n.operations .standard) := by
  have hstart := Separate.start n.width n.head.args n.permanent
  exact (Compound.always_code hstart n.fits_head).andThen rfl fun h' =>
    Compound.always_goals h' fun _ hg => fits_goal hg

/-- The homes of the variables of a clause and the registers of its nested terms are all different,
and they lie where the standard policy puts them.  The order of the homes is of no consequence for
the variable that is moved when a register is freed. -/
structure HomesApart (n : NormalClause) (d : Draft .standard) : Prop where
  injective : ∀ x y a, d.home? x = some a → d.home? y = some a → x = y
  permanent : ∀ x a, d.home? x = some a → x ∈ n.permanent →
    ∃ i, a = .stack i ∧ 0 ≤ i ∧ i < d.counters.slots
  temporary : ∀ x a, d.home? x = some a → x ∉ n.permanent →
    (∃ k : ℕ, a = .reg k ∧ k < n.width ∧ n.head.args[k]? = some (.var x)) ∨
      ∃ r, a = .reg r ∧ n.width ≤ r ∧ r < d.counters.top
  slots_nodup : (d.slots.map Prod.snd).Nodup
  slots_range : ∀ key r, (key, r) ∈ d.slots → n.width ≤ r ∧ r < d.counters.top
  slots_homes : ∀ key r x, (key, r) ∈ d.slots → d.home? x ≠ some (.reg r)
  relocate : ∀ d', d.Reordered d' → ∀ args t k,
    (d'.relocate args t k).1 = (d.relocate args t k).1 ∧
      (d.relocate args t k).2.Reordered (d'.relocate args t k).2 ∧
      ∀ x, (d'.relocate args t k).2.home? x = (d.relocate args t k).2.home? x

theorem homesApart_of_separate {n : NormalClause} {d : Draft .standard}
    (h : Separate n.width n.head.args n.permanent d) : n.HomesApart d where
  injective x y a hx hy :=
    h.layout.injective x y a (mem_homes_of_home? hx) (mem_homes_of_home? hy)
  permanent x a hx hperm := by
    have hlives := h.layout.lives x a (mem_homes_of_home? hx)
    cases a with
    | reg r => exact absurd (h.permanent_eq ▸ hperm) hlives.1
    | stack i => exact ⟨i, rfl, hlives.2⟩
  temporary x a hx hperm := by
    have hlives := h.layout.lives x a (mem_homes_of_home? hx)
    cases a with
    | reg r =>
      rcases hlives.2 with ⟨k, rfl, hk⟩ | hr
      · exact Or.inl ⟨k, rfl, hk⟩
      · exact Or.inr ⟨r, rfl, hr⟩
    | stack i => exact absurd (h.permanent_eq ▸ hlives.1) hperm
  slots_nodup := h.slots_nodup
  slots_range := h.slots_range
  slots_homes key r x hr hx := h.slots_apart key r x hr (mem_homes_of_home? hx)
  relocate _ hd' := h.layout.relocate_reordered hd'

end NormalClause

/-- A clause with a normal form is compiled.  In every state that the compiler goes through on the
way, the homes of variables and the registers of nested terms do not collide. -/
theorem Clause.homes_apart {c : Clause} {n : NormalClause} (hn : c.normalize = .ok n) :
    ∃ k d d', c.compile = .ok k ∧
      n.head.code .check (Draft.start .standard n.width n.permanent) = .ok (k.head, d) ∧
      Compound.goals d n.body = .ok (k.goals, d') ∧
      (Draft.start .standard n.width n.permanent).performAll (n.operations .standard) = d' ∧
      ∀ ops, ops <+: n.operations .standard →
        n.HomesApart ((Draft.start .standard n.width n.permanent).performAll ops) := by
  obtain ⟨k, d₀, hwith, hcompile, -⟩ := exists_compileWith hn .standard
  obtain ⟨d, d', hhead, hgoals, -, -⟩ := NormalClause.compile_eq_ok hcompile
  refine ⟨k, d, d', ?_, hhead, hgoals, NormalClause.performAll_operations hhead hgoals, ?_⟩
  · rw [compile, hwith]
  · intro ops hops
    exact NormalClause.homesApart_of_separate (n.always_separate ops hops)

/-- The clause `p(X, Y, Z) :- q(Y, f(g(X)), Z), r(Z)` in normal form. -/
def movedNormal : NormalClause where
  head := ⟨"p", [.var "X", .var "Y", .var "Z"]⟩
  body := [⟨"q", [.var "Y", .comp "f" [.comp "g" [.var "X"] true] true, .var "Z"]⟩,
    ⟨"r", [.var "Z"]⟩]

/-- In `p(X, Y, Z) :- q(Y, f(g(X)), Z), r(Z)`, `X` is moved from register 0 to register 3 to make
room for `Y`, and `g(X)` is built in register 4. -/
theorem homes_apart_moved : movedNormal.toClause.normalize = .ok movedNormal ∧
    ∃ k d, movedNormal.toClause.compile = .ok k ∧
      (Draft.start .standard movedNormal.width movedNormal.permanent).performAll
        (movedNormal.operations .standard) = d ∧
      d.home? "X" = some (.reg 3) ∧ d.home? "Y" = some (.reg 1) ∧ d.home? "Z" = some (.stack 0) ∧
      d.slots.map Prod.snd = [4] ∧
      ∀ ops, ops <+: movedNormal.operations .standard → movedNormal.HomesApart
        ((Draft.start .standard movedNormal.width movedNormal.permanent).performAll ops) := by
  have hn : movedNormal.toClause.normalize = .ok movedNormal := rfl
  obtain ⟨k, -, d, hcompile, -, -, rfl, hapart⟩ := Clause.homes_apart hn
  exact ⟨hn, k, _, hcompile, rfl, rfl, rfl, rfl, rfl, hapart⟩

end ClauseCode
