import ClauseCode.Proofs.Collisions
import ClauseCode.Proofs.Saving

/-!
# Variables that are moved

A variable is moved at most once while a clause is compiled.  The operations of the compiler move a
variable only out of an argument register and into a register of the code's own, and they give a
first address only to a variable without one (`Orderly`).  So a variable that was moved is never in
an argument register again.

Only the first goal moves variables.  A variable that lives in an argument register after a call
would have to be permanent if it occurred in a later goal, and then it would live on the stack.
-/

namespace ClauseCode

/-- The variable that an operation moves. -/
def Operation.moved? : Operation → Option String
  | .move x _ => some x
  | _ => none

namespace Draft

variable {w : ℕ} {head args : List Term} {permanent : List String} {d d' : Draft .standard}
  {x : String} {dir : Direction} {k : ℕ} {o : Occurrence} {arg : Option Int}
  {ops ops' : List Operation}

/-! ### Operations in good order -/

/-- Whether an operation respects the addresses that variables have: a variable with an address gets
no other, except that it is moved from an argument register to a register after those. -/
def Respects (w : ℕ) (d : Draft .standard) : Operation → Prop
  | .settle x _ => d.home? x = none
  | .move x a => (∃ k : ℕ, k < w ∧ d.home? x = some (.reg k)) ∧ ∃ r, a = .reg r ∧ (w : Int) ≤ r
  | _ => True

/-- Each operation respects the addresses that variables have by then. -/
def Orderly (w : ℕ) : Draft .standard → List Operation → Prop
  | _, [] => True
  | d, op :: ops => d.Respects w op ∧ Orderly w (d.perform op) ops

theorem orderly_append :
    Orderly w d (ops ++ ops') ↔ Orderly w d ops ∧ Orderly w (d.performAll ops) ops' := by
  induction ops generalizing d with
  | nil => exact ⟨fun h => ⟨trivial, h⟩, fun h => h.2⟩
  | cons op ops ih =>
    show _ ∧ Orderly w (d.perform op) (ops ++ ops') ↔ (_ ∧ _) ∧ _
    rw [ih, and_assoc]
    rfl

/-- A variable in a register after those of the arguments is not moved, and no variable is moved
twice. -/
theorem Orderly.moved (h : Orderly w d ops) :
    (∀ x r, d.home? x = some (.reg r) → (w : Int) ≤ r → x ∉ ops.filterMap Operation.moved?) ∧
      (ops.filterMap Operation.moved?).Nodup := by
  induction ops generalizing d with
  | nil => exact ⟨by simp, List.nodup_nil⟩
  | cons op ops ih =>
    obtain ⟨hop, hrest⟩ := h
    obtain ⟨hkeep, hnodup⟩ := ih hrest
    cases op with
    | settle y a =>
      refine ⟨fun x r hx hr => hkeep x r ?_ hr, hnodup⟩
      have hne : x ≠ y := by
        rintro rfl
        have hnone : d.home? x = none := hop
        simp [hx] at hnone
      show ((y, a) :: d.homes).lookup x = _
      rw [lookup_cons_of_ne hne]
      exact hx
    | move y a =>
      obtain ⟨⟨k, hk, hy⟩, r', rfl, hr'⟩ := hop
      have hhome : ∀ x, (d.perform (.move y (.reg r'))).home? x =
          if x = y then (d.home? y).map fun _ => .reg r' else d.home? x := fun x =>
        home?_moveVar d y x (.reg r')
      -- From here on `y` lives after the argument registers.
      have hy' := hkeep y r' (by rw [hhome, if_pos rfl, hy, Option.map_some]) hr'
      refine ⟨fun x r hx hr hmem => ?_, List.nodup_cons.2 ⟨hy', hnodup⟩⟩
      have hne : x ≠ y := by
        rintro rfl
        have : r = k := by simpa using hx.symm.trans hy
        omega
      rcases List.mem_cons.1 hmem with heq | hmem
      · exact hne heq
      · exact hkeep x r (by rw [hhome, if_neg hne, hx]) hr hmem
    | take | ask | pick | record | emit | count | begin | finish => exact ⟨hkeep, hnodup⟩

/-! ### The operations of the compiler's functions -/

theorem orderly_newVar (hx : d.home? x = none) : Orderly w d (d.newVarOps x arg) :=
  ⟨trivial, hx, trivial⟩

theorem orderly_slot (d : Draft .standard) (o : Occurrence) : Orderly w d (d.slotOps o) := by
  rw [slotOps]
  split
  · trivial
  · exact ⟨trivial, trivial, trivial⟩

theorem orderly_free (hL : Layout w head d) (hk : dir = .build → k < w) (args : List Term)
    (t : Term) : Orderly w d (d.freeOps dir args t k) := by
  cases dir with
  | check => trivial
  | build =>
    rw [freeOps]
    rcases resident_cases d k with ⟨-, hres⟩ | ⟨x, hx, hres⟩
    · rw [hres]
      trivial
    · have hhome : d.home? x = some (.reg k) := home?_of_mem hL.nodup hx
      rw [hres]
      dsimp only
      split
      · exact ⟨trivial, trivial, ⟨⟨k, hk rfl, hhome⟩, d.temp.1, rfl, hL.width_le⟩, trivial, trivial⟩
      · exact ⟨trivial, trivial⟩

theorem orderly_subterm (dir : Direction) (d : Draft .standard) (o : Occurrence) :
    Orderly w d (d.subtermOps dir o) := by
  rw [subtermOps]
  split
  next x _ =>
    split
    · exact ⟨trivial, trivial⟩
    · split
      next => exact ⟨trivial, trivial⟩
      next hx => exact orderly_append.2 ⟨orderly_newVar hx, trivial, trivial⟩
  next => exact ⟨trivial, trivial⟩
  next => exact ⟨trivial, trivial⟩
  next => exact orderly_append.2 ⟨orderly_slot d o, trivial, trivial⟩
  next => exact orderly_append.2 ⟨orderly_slot d o, trivial, trivial⟩

theorem orderly_subterms (dir : Direction) (d : Draft .standard) (os : List Occurrence) :
    Orderly w d (subtermsOps dir d os) := by
  induction os generalizing d with
  | nil => trivial
  | cons o os ih =>
    refine orderly_append.2 ⟨orderly_subterm dir d o, ?_⟩
    rw [performAll_subtermOps]
    exact ih _

theorem orderly_argVar (hL : Layout w head d) (hargs : Layout.Fits w head dir args)
    (hk : args[k]? = some (.var x)) : Orderly w d (d.argVarOps dir args k x) := by
  have hw : dir = .build → k < w := fun _ =>
    Nat.lt_of_lt_of_le (List.getElem?_eq_some_iff.1 hk).1 hargs.length_le
  unfold argVarOps
  split
  · cases dir with
    | check => trivial
    | build => exact orderly_append.2 ⟨orderly_free hL hw args _, trivial, trivial, trivial⟩
  · split
    next a _ =>
      split
      · trivial
      · exact orderly_append.2 ⟨orderly_free hL hw args _, trivial, trivial⟩
    next hx =>
      refine orderly_append.2 ⟨orderly_newVar hx, ?_⟩
      rw [performAll_newVarOps]
      have hL' := (hL.newVar hx (Layout.firstArg_cases hargs hk)).1
      split
      · trivial
      · exact orderly_append.2 ⟨orderly_free hL' hw args _, trivial, trivial⟩

theorem orderly_visitAt (hL : Layout w head d) (hargs : Layout.Fits w head dir args)
    (hk : o.level = .shallow → args[k]? = some o.term) :
    Orderly w d (d.visitAtOps dir args k o) := by
  have hw : o.level = .shallow → dir = .build → k < w := fun hlevel _ =>
    Nat.lt_of_lt_of_le (List.getElem?_eq_some_iff.1 (hk hlevel)).1 hargs.length_le
  unfold visitAtOps
  split
  next kind _ =>
    have hreg : Orderly w d (d.compoundRegOps dir args k o) := by
      unfold compoundRegOps
      split
      next hlevel => exact orderly_free hL (hw hlevel) args o.term
      next => exact orderly_slot d o
    refine orderly_append.2 ⟨hreg, trivial, ?_⟩
    rw [performAll_compoundRegOps]
    exact orderly_subterms dir _ o.children
  next =>
    split
    next hlevel =>
      split
      next x hx => exact orderly_argVar hL hargs (Term.read_eq_var_iff.1 hx ▸ hk hlevel)
      next => exact orderly_append.2 ⟨orderly_free hL (hw hlevel) args o.term, trivial, trivial⟩
      next => trivial
    next => trivial

theorem orderly_visit (hL : Layout w head d) (hargs : Layout.Fits w head dir args)
    (hk : o.depth = 1 → args[d.argsSeen]? = some o.term) :
    Orderly w d (d.visitOps dir args o) := by
  rw [visitOps]
  split
  next => trivial
  next hroot =>
    split
    next hlevel =>
      have hcount : Layout w head (d.perform .count) := hL.congr (Grows.refl _) rfl
      have hdepth := depth_of_shallow hlevel hroot
      exact ⟨trivial, orderly_visitAt hcount hargs fun _ => hk hdepth⟩
    next hlevel => exact orderly_visitAt hL hargs fun hshallow => absurd hshallow hlevel

theorem orderly_visits (h : Separate w head permanent d) (hargs : Layout.Fits w head dir args)
    {os : List Occurrence} (hos : args.drop d.argsSeen = Occurrence.arguments os) :
    Orderly w d (visitsOps dir args d os) := by
  induction os generalizing d with
  | nil => trivial
  | cons o os ih =>
    obtain ⟨hnext, hlater⟩ := upcoming_visit dir hos
    have h' := (h.always_visit hargs hnext).final
    rw [performAll_visitOps] at h'
    refine orderly_append.2 ⟨orderly_visit h.layout hargs hnext, ?_⟩
    rw [performAll_visitOps]
    exact ih h' hlater

end Draft

/-! ### Clauses -/

open Draft

theorem Compound.orderly_code {w : ℕ} {head : List Term} {permanent : List String}
    {d : Draft .standard} {dir : Direction} {c : Compound} (h : Separate w head permanent d)
    (hargs : Layout.Fits w head dir c.args) : Orderly w d (c.codeOps dir d) := by
  have hbegin : Separate w head permanent (d.perform .begin) := h.congr (Grows.refl _) rfl rfl
  have hvisits := orderly_visits hbegin hargs (dir.arguments_traversal c.toTerm).symm
  exact ⟨trivial, orderly_append.2 ⟨hvisits, trivial, trivial⟩⟩

theorem Compound.orderly_goals {w : ℕ} {head : List Term} {permanent : List String}
    {d : Draft .standard} {cs : List Compound} (h : Separate w head permanent d)
    (hargs : ∀ c ∈ cs, Layout.Fits w head .build c.args) : Orderly w d (goalsOps d cs) := by
  induction cs generalizing d with
  | nil => trivial
  | cons c cs ih =>
    rw [List.forall_mem_cons] at hargs
    exact orderly_append.2 ⟨orderly_code h hargs.1, ih (always_code h hargs.1).final hargs.2⟩

/-- A variable has to leave register `k` before a goal writes its argument `k`: it lives there, it
is not the argument itself, and it occurs in a later argument or is a child of this one. -/
structure Draft.MustLeave (d : Draft .standard) (goal : Compound) (k : ℕ) (x : String) : Prop where
  named : x ≠ Term.anonymous
  lives : d.home? x = some (.reg k)
  other : goal.args[k]? ≠ some (.var x)
  needed : (∃ j t, k < j ∧ goal.args[j]? = some t ∧ x ∈ t.read.vars) ∨
    ∃ t, goal.args[k]? = some t ∧ .var x ∈ t.children

/-- A variable that is needed occurs in a later argument or is a child of this one. -/
theorem Draft.isNeeded_iff {goal : Compound} (hf : goal.Faithful) {k : ℕ} {t : Term}
    {x : String} : isNeeded goal.args t k x = true ↔
      (∃ j u, k < j ∧ goal.args[j]? = some u ∧ x ∈ u.read.vars) ∨ .var x ∈ t.children := by
  have hchild : t.children.any (isVar x) = true ↔ .var x ∈ t.children := by
    have hvar : ∀ c : Term, isVar x c = true ↔ c = .var x := by
      intro c
      cases c <;> simp [isVar]
    simp [List.any_eq_true, hvar]
  have hlater : (goal.args.drop (k + 1)).any (Term.occurs x) = true ↔
      ∃ j u, k < j ∧ goal.args[j]? = some u ∧ x ∈ u.read.vars := by
    rw [List.any_eq_true]
    constructor
    · rintro ⟨u, hu, hx⟩
      obtain ⟨m, hm⟩ := List.mem_iff_getElem?.1 hu
      rw [List.getElem?_drop] at hm
      refine ⟨k + 1 + m, u, by omega, hm, ?_⟩
      exact (Term.occurs_iff (hf u (List.mem_of_getElem? hm))).1 hx
    · rintro ⟨j, u, hj, hu, hx⟩
      refine ⟨u, List.mem_iff_getElem?.2 ⟨j - (k + 1), ?_⟩, ?_⟩
      · rw [List.getElem?_drop, ← hu]
        congr 1
        omega
      · exact (Term.occurs_iff (hf u (List.mem_of_getElem? hu))).2 hx
  rw [isNeeded, Bool.or_eq_true, hchild, hlater, or_comm]

theorem Draft.leaves_iff {w : ℕ} {head : List Term} {d : Draft .standard} {goal : Compound}
    {k : ℕ} {x : String} (hf : goal.Faithful) (hL : Layout w head d) (hnamed : Named d)
    (hk : k < goal.args.length) : Leaves goal.args k d x ↔ d.MustLeave goal k x := by
  have ht : goal.args[k]? = some goal.args[k] := List.getElem?_eq_getElem hk
  constructor
  · rintro ⟨hlives, hother, t, ht, hneed⟩
    refine ⟨hnamed _ hlives, home?_of_mem hL.nodup hlives, hother, ?_⟩
    exact ((isNeeded_iff hf).1 hneed).imp_right fun hchild => ⟨t, ht, hchild⟩
  · rintro ⟨-, hlives, hother, hneed⟩
    refine ⟨mem_homes_of_home? hlives, hother, _, ht, (isNeeded_iff hf).2 ?_⟩
    refine hneed.imp_right ?_
    rintro ⟨t, ht', hchild⟩
    obtain rfl := Option.some.inj (ht.symm.trans ht')
    exact hchild

/-- A variable that has to leave occurs in the goal. -/
theorem Draft.MustLeave.has {d : Draft .standard} {goal : Compound} {k : ℕ} {x : String}
    (h : d.MustLeave goal k x) : goal.Has x := by
  rcases h.needed with ⟨j, t, -, ht, hx⟩ | ⟨t, ht, hx⟩
  · exact ⟨t, List.mem_of_getElem? ht, hx⟩
  · refine ⟨t, List.mem_of_getElem? ht, ?_⟩
    cases hkind : t.kind? with
    | none => simp [Term.children_eq_nil_of_kind? hkind] at hx
    | some kind =>
      rw [Term.read_eq_node hkind, Tree.mem_vars_node]
      exact ⟨_, List.mem_map.2 ⟨_, hx, rfl⟩, by simp [Term.read]⟩

section Goal

variable {w : ℕ} {head : List Term} {d : Draft .standard} {goal : Compound}
  {is : List Instruction}

/-- The registers that the packed code of a goal saves. -/
theorem Compound.saves_iff (hf : goal.Faithful) (hargs : Layout.Fits w head .build goal.args)
    (hL : Layout w head d) (hnamed : Named d)
    (hpack : Code.pack .build (d.compose .build goal.args).emitted.reverse = .ok is) (j : Int) :
    (∃ a, .argVariable .check a j ∈ is) ↔
      ∃ k : ℕ, j = k ∧ k < goal.args.length ∧ ∃ x, d.MustLeave goal k x := by
  have haddressed := Code.addressed_expand .build is
  rw [expand_of_pack hpack] at haddressed
  have hmem : ∀ a, .argVariable .check a j ∈ is ↔
      .argVariable .check a j ∈ (d.compose .build goal.args).emitted := by
    intro a
    constructor
    · intro h
      have h' := Code.mem_of_addressed haddressed.symm h (by simp [Instruction.mentions])
      exact List.mem_reverse.1 h'
    · intro h
      exact Code.mem_of_addressed haddressed (List.mem_reverse.2 h) (by simp [Instruction.mentions])
  simp only [hmem]
  refine (saved_compose hargs hL hnamed).trans ?_
  refine exists_congr fun k => and_congr_right fun _ => ?_
  constructor
  · rintro ⟨x, hx⟩
    obtain ⟨t, ht, -⟩ := hx.needed
    have hk := (List.getElem?_eq_some_iff.1 ht).1
    exact ⟨hk, x, (leaves_iff hf hL hnamed hk).1 hx⟩
  · rintro ⟨hk, x, hx⟩
    exact ⟨x, (leaves_iff hf hL hnamed hk).2 hx⟩

/-- Packed code saves a register before it writes it, too. -/
theorem Compound.savesFirst {prior : List Instruction}
    (hargs : Layout.Fits w head .build goal.args) (hL : Layout w head d)
    (hB : Books w [] d.counters prior)
    (hpack : Code.pack .build (d.compose .build goal.args).emitted.reverse = .ok is) :
    SavesFirst w goal.args.length is := by
  have haddressed := Code.addressed_expand .build is
  rw [expand_of_pack hpack] at haddressed
  intro pre a j post heq
  rw [heq] at haddressed
  obtain ⟨pre', post', hcode, hpre, hpost⟩ :=
    Code.split_addressed haddressed.symm (by simp [Instruction.mentions])
  obtain ⟨ha, hj, hbefore, i, hi, hw⟩ := savesFirst_compose hargs hL hB pre' a j post' hcode
  have hmentions : ∀ {i : Instruction} {b : Address}, b ∈ i.writes → i.mentions ≠ [] :=
    fun hb => List.ne_nil_of_mem (Instruction.mem_mentions.2 (Or.inr hb))
  refine ⟨ha, hj, fun i hi hw => ?_, i, Code.mem_of_addressed hpost hi (hmentions hw), hw⟩
  exact hbefore i (Code.mem_of_addressed hpre.symm hi (hmentions hw)) hw

end Goal

namespace NormalClause

variable {n : NormalClause} {k : CompiledClause}

/-- No variable is moved twice while a clause is compiled. -/
theorem nodup_moved (n : NormalClause) :
    ((n.operations .standard).filterMap Operation.moved?).Nodup := by
  have hstart := Separate.start n.width n.head.args n.permanent
  have hhead := Compound.orderly_code hstart n.fits_head
  have hgoals := Compound.orderly_goals (Compound.always_code hstart n.fits_head).final
    fun g hg => fits_goal (n := n) hg
  exact (Orderly.moved (orderly_append.2 ⟨hhead, hgoals⟩)).2

theorem named_afterHead (n : NormalClause) : Named (n.afterHead .standard) :=
  (steps_compose .check n.head.args (Draft.start .standard n.width n.permanent)).named
    (by simp [Named, Draft.start])

/-- After the first goal no variable has to leave a register. -/
theorem not_mustLeave (hf : n.Faithful) {first goal : Compound} {rest : List Compound}
    (hbody : n.body = first :: rest) (hgoal : goal ∈ rest) {d : Draft .standard}
    (hL : Layout n.width n.head.args d) (hperm : d.counters.permanent = n.permanent) {j : ℕ}
    (hj : j < goal.args.length) (x : String) : ¬ d.MustLeave goal j x := by
  intro hx
  have hle : goal.args.length ≤ n.width := length_goal_le (by simp [hbody, hgoal])
  obtain ⟨hnot, harg⟩ := hL.lives x _ (mem_homes_of_home? hx.lives)
  -- The variable is a head argument, so that it occurs before and after a call.
  rcases harg with ⟨m, -, -, hhead⟩ | ⟨hw, -⟩
  · have hbefore : n.head.Has x := ⟨.var x, List.mem_of_getElem? hhead, by simp [Term.read]⟩
    have hbody' : n.body = first :: ([] ++ rest) := hbody
    have hmem := mem_permanent hf hbody' hx.named (Or.inl hbefore) ⟨goal, hgoal, hx.has⟩
    exact hnot (hperm ▸ hmem)
  · omega

/-- The code of later goals saves no register. -/
theorem spared (hf : n.Faithful) {first : Compound} {pre cs : List Compound}
    (hbody : n.body = first :: (pre ++ cs)) {d d' : Draft .standard} {gs : List CompiledGoal}
    (h : Compound.Coded d cs gs d') (hL : Layout n.width n.head.args d) (hnamed : Named d)
    (hperm : d.counters.permanent = n.permanent) :
    ∀ g ∈ gs, ∀ a j, .argVariable .check a j ∉ g.code := by
  induction h generalizing pre with
  | nil => simp
  | @cons d d' c cs is gs hpack hrest ih =>
    have hc : c ∈ n.body := by simp [hbody]
    have hfits := fits_goal hc
    obtain ⟨hL', hgrows⟩ := hL.compose hfits
    refine List.forall_mem_cons.2 ⟨fun a j hj => ?_, ?_⟩
    · obtain ⟨m, -, hm, x, hx⟩ :=
        (Compound.saves_iff (hf.body c hc) hfits hL hnamed hpack j).1 ⟨a, hj⟩
      exact not_mustLeave hf hbody (by simp) hL hperm hm x hx
    · have hbody' : n.body = first :: (pre ++ [c] ++ cs) := by simp [hbody]
      have hnamed' := (steps_compose .build c.args d).named hnamed
      exact ih hbody' hL' hnamed' (hgrows.permanent.trans hperm)

namespace Codes

variable {d : Draft .standard} {goal : Compound} {g : CompiledGoal}

/-- Goals after the first save no register. -/
theorem spared_later (h : n.Codes .standard k d) (hf : n.Faithful) :
    ∀ g ∈ k.goals.tail, ∀ a j, .argVariable .check a j ∉ g.code := by
  obtain ⟨hL, hgrows⟩ := n.layout_afterHead
  have hcoded := h.goals
  generalize k.goals = gs at hcoded
  generalize hbody : n.body = cs at hcoded
  cases hcoded with
  | nil => simp
  | @cons _ _ first rest is gs hpack hrest =>
    have hbody' : n.body = first :: ([] ++ rest) := hbody
    have hfits := fits_goal (n := n) (g := first) (by simp [hbody])
    obtain ⟨hL', hgrows'⟩ := hL.compose hfits
    have hnamed := (steps_compose .build first.args (n.afterHead .standard)).named n.named_afterHead
    exact spared hf hbody' hrest hL' hnamed (hgrows'.permanent.trans hgrows.permanent)

theorem pack_first (h : n.Codes .standard k d) (hgoal : n.body.head? = some goal)
    (hg : k.goals.head? = some g) :
    Code.pack .build ((n.afterHead .standard).compose .build goal.args).emitted.reverse =
      .ok g.code := by
  have hcoded := h.goals
  generalize k.goals = gs at hcoded hg
  generalize n.body = cs at hcoded hgoal
  cases hcoded with
  | nil => simp at hgoal
  | cons hpack hrest =>
    obtain rfl := Option.some.inj hgoal
    obtain rfl := Option.some.inj hg
    exact hpack

/-- The first goal saves the registers that a variable has to leave. -/
theorem saves_first (h : n.Codes .standard k d) (hf : n.Faithful)
    (hgoal : n.body.head? = some goal) (hg : k.goals.head? = some g) {j : ℕ}
    (hj : j < goal.args.length) :
    (∃ a, .argVariable .check a j ∈ g.code) ↔
      ∃ x, (n.afterHead .standard).MustLeave goal j x := by
  have hmem := List.mem_of_head? hgoal
  refine (Compound.saves_iff (hf.body goal hmem) (fits_goal hmem) n.layout_afterHead.1
    n.named_afterHead (h.pack_first hgoal hg) j).trans ?_
  constructor
  · rintro ⟨m, hm, -, hx⟩
    obtain rfl : j = m := by omega
    exact hx
  · intro hx
    exact ⟨j, rfl, hj, hx⟩

/-- The first goal saves a register before it writes it, and at a new address. -/
theorem saves_before (h : n.Codes .standard k d) (hgoal : n.body.head? = some goal)
    (hg : k.goals.head? = some g) {pre post : List Instruction} {a : Address} {j : Int}
    (hcode : g.code = pre ++ .argVariable .check a j :: post) :
    (∃ m : ℕ, j = m ∧ m < goal.args.length) ∧ (∀ i ∈ k.head ++ pre, a ∉ i.mentions) ∧
      (∀ i ∈ pre, .reg j ∉ i.writes) ∧ ∃ i ∈ post, .reg j ∈ i.writes := by
  obtain ⟨hB, -⟩ := (Books.start n.width n.permanent).compose n.fits_head
    (Layout.start n.width n.head.args n.permanent)
  obtain ⟨hown, hj, hbefore, hafter⟩ := Compound.savesFirst
    (fits_goal (List.mem_of_head? hgoal)) n.layout_afterHead.1 hB (h.pack_first hgoal hg)
    pre a j post hcode
  refine ⟨hj, ?_, hbefore, hafter⟩
  have hsplit : k.code = (k.head ++ pre) ++ .argVariable .check a j ::
      (post ++ k.goals.tail.flatMap CompiledGoal.code) := by
    rw [CompiledClause.code, List.eq_cons_of_mem_head? hg, List.flatMap_cons, hcode]
    simp
  have hbooks := h.books.1
  rw [hsplit] at hbooks
  exact (hbooks.fresh hown (by simp [Instruction.writes])).1

end Codes

end NormalClause

/-- A clause with a normal form is compiled, and no variable is moved twice on the way.  Goals after
the first save no register.  The first goal saves register `j` when a variable has to leave it, and
it does so before it writes the register and at an address that was not used before. -/
theorem Clause.saves_when_needed {c : Clause} {n : NormalClause} (hc : c.Faithful)
    (hn : c.normalize = .ok n) :
    ∃ k d d', c.compile = .ok k ∧
      n.head.code .check (Draft.start .standard n.width n.permanent) = .ok (k.head, d) ∧
      Compound.goals d n.body = .ok (k.goals, d') ∧
      (Draft.start .standard n.width n.permanent).performAll (n.operations .standard) = d' ∧
      ((n.operations .standard).filterMap Operation.moved?).Nodup ∧
      (∀ g ∈ k.goals.tail, ∀ a j, .argVariable .check a j ∉ g.code) ∧
      ∀ goal g, n.body.head? = some goal → k.goals.head? = some g →
        (∀ j : ℕ, j < goal.args.length →
          ((∃ a, .argVariable .check a j ∈ g.code) ↔ ∃ x, d.MustLeave goal j x)) ∧
        ∀ pre a (j : Int) post, g.code = pre ++ .argVariable .check a j :: post →
          (∃ m : ℕ, j = m ∧ m < goal.args.length) ∧ (∀ i ∈ k.head ++ pre, a ∉ i.mentions) ∧
            (∀ i ∈ pre, .reg j ∉ i.writes) ∧ ∃ i ∈ post, .reg j ∈ i.writes := by
  have hf := hc.normalize hn
  obtain ⟨k, d₁, hwith, hnormal, hcodes⟩ := exists_compileWith hn .standard
  obtain ⟨d, d', hhead, hgoals, -, -⟩ := NormalClause.compile_eq_ok hnormal
  refine ⟨k, d, d', by rw [compile, hwith], hhead, hgoals,
    NormalClause.performAll_operations hhead hgoals, n.nodup_moved, hcodes.spared_later hf, ?_⟩
  intro goal g hgoal hg
  refine ⟨fun j hj => (hcodes.saves_first hf hgoal hg hj).trans ?_,
    fun pre a j post => hcodes.saves_before hgoal hg⟩
  -- Places do not matter to the homes after the head.
  obtain ⟨is, d₂, hhead', -, hcore, -⟩ := n.head.exists_code .check
    (NormalClause.unstarted_start .standard n.width n.permanent)
  obtain ⟨-, rfl⟩ : is = k.head ∧ d₂ = d := by simpa [hhead] using hhead'.symm
  have hafter : d₂.core = n.afterHead .standard := hcore
  rw [← hafter]
  exact exists_congr fun x => ⟨fun h => ⟨h.named, h.lives, h.other, h.needed⟩,
    fun h => ⟨h.named, h.lives, h.other, h.needed⟩⟩

theorem faithful_movedNormal : movedNormal.toClause.Faithful := by
  refine ⟨Term.faithful_apply "p" (by simp [movedNormal, Term.Faithful]), fun t ht => ?_⟩
  obtain rfl | rfl :
      t = .apply "q" [.var "Y", .comp "f" [.comp "g" [.var "X"] true] true, .var "Z"] ∨
        t = .apply "r" [.var "Z"] := by
    simpa [movedNormal, NormalClause.toClause, Compound.toTerm] using ht
  · exact Term.faithful_apply "q" (by simp [Term.Faithful, Term.FaithfulAll])
  · exact Term.faithful_apply "r" (by simp [Term.Faithful])

/-- In `p(X, Y, Z) :- q(Y, f(g(X)), Z), r(Z)` the first goal saves register 0, because `X` occurs in
its second argument, and not register 1, because `Y` was its first argument. -/
theorem saves_moved : movedNormal.toClause.Faithful ∧
    movedNormal.toClause.normalize = .ok movedNormal ∧
    ∃ k g, movedNormal.toClause.compile = .ok k ∧ k.goals.head? = some g ∧
      (∃ a, .argVariable .check a 0 ∈ g.code) ∧ ¬ ∃ a, .argVariable .check a 1 ∈ g.code := by
  have hn : movedNormal.toClause.normalize = .ok movedNormal := rfl
  obtain ⟨k, d, d', hk, hhead, -, -, -, -, hfirst⟩ :=
    Clause.saves_when_needed faithful_movedNormal hn
  have hhomes : (movedNormal.head.code .check (Draft.start .standard movedNormal.width
      movedNormal.permanent)).toOption.map (fun p => p.2.homes) =
      some [("Z", .stack 0), ("Y", .reg 1), ("X", .reg 0)] := rfl
  rw [hhead] at hhomes
  have hhomes' : d.homes = [("Z", .stack 0), ("Y", .reg 1), ("X", .reg 0)] :=
    Option.some.inj hhomes
  have hlen : movedNormal.toClause.compile.toOption.map (fun k => k.goals.length) = some 2 := rfl
  rw [hk] at hlen
  have hlen' : k.goals.length = 2 := Option.some.inj hlen
  obtain ⟨g, hg⟩ : ∃ g, k.goals.head? = some g := by
    cases hgoals : k.goals with
    | nil => simp [hgoals] at hlen'
    | cons g gs => exact ⟨g, rfl⟩
  obtain ⟨hiff, -⟩ := hfirst _ g rfl hg
  refine ⟨faithful_movedNormal, hn, k, g, hk, hg, (hiff 0 (by decide)).2 ⟨"X", ?_⟩, fun hsave => ?_⟩
  · refine ⟨by decide, by simp [home?, hhomes', List.lookup_cons], by simp, Or.inl ?_⟩
    exact ⟨1, _, by decide, rfl, by simp [Term.read, Term.readAll]⟩
  · obtain ⟨x, -, hlives, -, ⟨j, t, hj, ht, hx⟩ | ⟨t, ht, hx⟩⟩ := (hiff 1 (by decide)).1 hsave
    · -- The only later argument is `Z`, which lives on the stack.
      have hlt := (List.getElem?_eq_some_iff.1 ht).1
      obtain rfl : j = 2 := by
        simp only [List.length_cons, List.length_nil] at hlt
        omega
      obtain rfl : Term.var "Z" = t := Option.some.inj ht
      obtain rfl : x = "Z" := by simpa [Term.read] using hx
      simp [home?, hhomes'] at hlives
    · obtain rfl : Term.comp "f" [.comp "g" [.var "X"] true] true = t := Option.some.inj ht
      simp [Term.children] at hx

end ClauseCode
