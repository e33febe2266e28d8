import ClauseCode.Proofs.Compilation
import Mathlib.Data.List.Nodup

/-!
# Where variables live

Under the standard policy a permanent variable lives on the stack.  Any other variable lives in the
register of the head argument where it is first met, or in a register after those of the arguments.
No two variables live at the same address.  `Layout` says all this of a draft, and `Layout.step`
says that every step keeps it.
-/

namespace ClauseCode

namespace Draft

/-! ### The standard policy -/

variable {w : ℕ} {head args : List Term} {d d' : Draft .standard} {x : String} {a : Address}

/-- The counters of the standard policy. -/
def counters (d : Draft .standard) : Policy.Counters := d.pool

@[simp] theorem counters_temp (d : Draft .standard) :
    d.temp.2.counters = { d.counters with top := d.counters.top + 1 } := rfl

theorem newVar_permanent (hx : x ∈ d.counters.permanent) (arg : Option Int) :
    (d.newVar x arg).1 = .stack d.counters.slots ∧
      (d.newVar x arg).2.counters = { d.counters with slots := d.counters.slots + 1 } := by
  have hvar : Policy.standard.var d.counters x arg =
      (.stack d.counters.slots, { d.counters with slots := d.counters.slots + 1 }) :=
    if_pos (by simpa using hx)
  exact Prod.mk.inj hvar

theorem newVar_temporary (hx : x ∉ d.counters.permanent) :
    (d.newVar x none).1 = .reg d.counters.top ∧
      (d.newVar x none).2.counters = { d.counters with top := d.counters.top + 1 } := by
  have hvar : Policy.standard.var d.counters x none =
      (.reg d.counters.top, { d.counters with top := d.counters.top + 1 }) :=
    if_neg (by simpa using hx)
  exact Prod.mk.inj hvar

theorem newVar_argument (hx : x ∉ d.counters.permanent) (k : Int) :
    (d.newVar x (some k)).1 = .reg k ∧ (d.newVar x (some k)).2.counters = d.counters := by
  have hvar : Policy.standard.var d.counters x (some k) = (.reg k, d.counters) :=
    if_neg (by simpa using hx)
  exact Prod.mk.inj hvar

/-- The second counters have counted at least as far as the first. -/
structure Grows (c c' : Policy.Counters) : Prop where
  top : c.top ≤ c'.top
  slots : c.slots ≤ c'.slots
  permanent : c'.permanent = c.permanent

theorem Grows.refl (c : Policy.Counters) : Grows c c := ⟨Int.le_refl _, Int.le_refl _, rfl⟩

theorem Grows.trans {c c' c'' : Policy.Counters} (h : Grows c c') (h' : Grows c' c'') :
    Grows c c'' :=
  ⟨Int.le_trans h.top h'.top, Int.le_trans h.slots h'.slots, h'.permanent.trans h.permanent⟩

/-- Whether the counters are past an address. -/
def Allocated (c : Policy.Counters) : Address → Prop
  | .reg r => r < c.top
  | .stack i => i < c.slots

theorem Allocated.mono {c c' : Policy.Counters} (ha : Allocated c a) (h : Grows c c') :
    Allocated c' a := by
  cases a with
  | reg r => exact Int.lt_of_lt_of_le ha h.top
  | stack i => exact Int.lt_of_lt_of_le ha h.slots

/-- Whether an address is one where a variable may live: the register of a head argument that it
is, an address that was counted for it. -/
def Lives (w : ℕ) (head : List Term) (c : Policy.Counters) (x : String) : Address → Prop
  | .reg r =>
    x ∉ c.permanent ∧
      ((∃ k : ℕ, r = k ∧ k < w ∧ head[k]? = some (.var x)) ∨ (w ≤ r ∧ r < c.top))
  | .stack i => x ∈ c.permanent ∧ 0 ≤ i ∧ i < c.slots

theorem Lives.mono {c c' : Policy.Counters} (ha : Lives w head c x a) (h : Grows c c') :
    Lives w head c' x a := by
  cases a with
  | reg r =>
    obtain ⟨hx, hr⟩ := ha
    refine ⟨h.permanent ▸ hx, hr.imp_right fun hr => ⟨hr.1, ?_⟩⟩
    exact Int.lt_of_lt_of_le hr.2 h.top
  | stack i => exact ⟨h.permanent ▸ ha.1, ha.2.1, Int.lt_of_lt_of_le ha.2.2 h.slots⟩

/-- What is known about the homes of variables: `w` registers are for arguments, and `head` are the
arguments of the head. -/
structure Layout (w : ℕ) (head : List Term) (d : Draft .standard) : Prop where
  width_le : w ≤ d.counters.top
  slots_nonneg : 0 ≤ d.counters.slots
  nodup : (d.homes.map Prod.fst).Nodup
  lives : ∀ x a, (x, a) ∈ d.homes → Lives w head d.counters x a
  injective : ∀ x y a, (x, a) ∈ d.homes → (y, a) ∈ d.homes → x = y

namespace Layout

theorem start (w : ℕ) (head : List Term) (permanent : List String) :
    Layout w head (Draft.start .standard w permanent) where
  width_le := Int.le_refl _
  slots_nonneg := Int.le_refl _
  nodup := List.nodup_nil
  lives x a h := by simp [Draft.start] at h
  injective x y a h := by simp [Draft.start] at h

/-- Only the counters and the homes matter. -/
theorem congr (hL : Layout w head d) (hg : Grows d.counters d'.counters)
    (hhomes : d'.homes = d.homes) : Layout w head d' where
  width_le := Int.le_trans hL.width_le hg.top
  slots_nonneg := Int.le_trans hL.slots_nonneg hg.slots
  nodup := hhomes ▸ hL.nodup
  lives x a h := (hL.lives x a (hhomes ▸ h)).mono hg
  injective x y a h h' := hL.injective x y a (hhomes ▸ h) (hhomes ▸ h')

theorem allocated (hL : Layout w head d) (h : (x, a) ∈ d.homes) : Allocated d.counters a := by
  have hlives := hL.lives x a h
  cases a with
  | reg r =>
    rcases hlives.2 with ⟨k, rfl, hk, -⟩ | hr
    · have := hL.width_le
      show (k : Int) < d.counters.top
      omega
    · exact hr.2
  | stack i => exact hlives.2.2

theorem not_mem (hL : Layout w head d) (ha : ¬ Allocated d.counters a) (y : String) :
    (y, a) ∉ d.homes :=
  fun h => ha (hL.allocated h)

theorem insert (hL : Layout w head d) (hg : Grows d.counters d'.counters)
    (hhomes : d'.homes = (x, a) :: d.homes) (hx : d.home? x = none)
    (hlives : Lives w head d'.counters x a) (hfresh : ∀ y, (y, a) ∉ d.homes) :
    Layout w head d' where
  width_le := Int.le_trans hL.width_le hg.top
  slots_nonneg := Int.le_trans hL.slots_nonneg hg.slots
  nodup := by
    rw [hhomes, List.map_cons, List.nodup_cons]
    exact ⟨not_mem_homes_of_home? hx, hL.nodup⟩
  lives y b h := by
    rw [hhomes, List.mem_cons] at h
    rcases h with h | h
    · obtain ⟨rfl, rfl⟩ := Prod.mk.inj h
      exact hlives
    · exact (hL.lives y b h).mono hg
  injective y z b h h' := by
    rw [hhomes, List.mem_cons] at h h'
    rcases h with h | h <;> rcases h' with h' | h'
    · exact (Prod.mk.inj h).1.trans (Prod.mk.inj h').1.symm
    · exact absurd ((Prod.mk.inj h).2 ▸ h') (hfresh z)
    · exact absurd ((Prod.mk.inj h').2 ▸ h) (hfresh y)
    · exact hL.injective y z b h h'

theorem temp (hL : Layout w head d) :
    Layout w head d.temp.2 ∧ Grows d.counters d.temp.2.counters := by
  have hg : Grows d.counters d.temp.2.counters := by
    refine ⟨?_, Int.le_refl _, rfl⟩
    rw [counters_temp]
    dsimp only
    omega
  exact ⟨hL.congr hg rfl, hg⟩

/-- A new variable gets an address of its own. -/
theorem newVar (hL : Layout w head d) (hx : d.home? x = none) {arg : Option Int}
    (harg : arg = none ∨ ∃ k : ℕ, arg = some (k : Int) ∧ k < w ∧ head[k]? = some (.var x)) :
    Layout w head (d.newVar x arg).2 ∧ Grows d.counters (d.newVar x arg).2.counters ∧
      ∀ y, (y, (d.newVar x arg).1) ∉ d.homes := by
  -- The slot or the register is the next one, except for a head argument that stays in place.
  by_cases hperm : x ∈ d.counters.permanent
  · obtain ⟨ha, hc⟩ := newVar_permanent hperm arg
    have hg : Grows d.counters (d.newVar x arg).2.counters := by
      rw [hc]
      exact ⟨Int.le_refl _, by dsimp only; omega, rfl⟩
    have hfresh : ∀ y, (y, (d.newVar x arg).1) ∉ d.homes := by
      rw [ha]
      exact hL.not_mem (Int.lt_irrefl _)
    refine ⟨hL.insert hg rfl hx ?_ hfresh, hg, hfresh⟩
    show Lives w head _ x (d.newVar x arg).1
    rw [ha, hc]
    exact ⟨hperm, hL.slots_nonneg, by dsimp only; omega⟩
  · rcases harg with rfl | ⟨k, rfl, hkw, hk⟩
    · obtain ⟨ha, hc⟩ := newVar_temporary hperm
      have hg : Grows d.counters (d.newVar x none).2.counters := by
        rw [hc]
        exact ⟨by dsimp only; omega, Int.le_refl _, rfl⟩
      have hfresh : ∀ y, (y, (d.newVar x none).1) ∉ d.homes := by
        rw [ha]
        exact hL.not_mem (Int.lt_irrefl _)
      refine ⟨hL.insert hg rfl hx ?_ hfresh, hg, hfresh⟩
      show Lives w head _ x (d.newVar x none).1
      rw [ha, hc]
      exact ⟨hperm, Or.inr ⟨hL.width_le, by dsimp only; omega⟩⟩
    · obtain ⟨ha, hc⟩ := newVar_argument hperm (k : Int)
      have hg : Grows d.counters (d.newVar x (some (k : Int))).2.counters := by
        rw [hc]
        exact Grows.refl _
      -- Another variable in register `k` would be the same head argument.
      have hfresh : ∀ y, (y, (d.newVar x (some (k : Int))).1) ∉ d.homes := by
        rw [ha]
        intro y hy
        rcases (hL.lives y _ hy).2 with ⟨k', hk', -, hhead⟩ | ⟨hwk, -⟩
        · obtain rfl : k = k' := by exact_mod_cast hk'
          rw [hk] at hhead
          obtain rfl : x = y := by simpa using hhead
          exact not_mem_homes_of_home? hx (List.mem_map.2 ⟨_, hy, rfl⟩)
        · omega
      refine ⟨hL.insert hg rfl hx ?_ hfresh, hg, hfresh⟩
      show Lives w head _ x (d.newVar x (some (k : Int))).1
      rw [ha, hc]
      exact ⟨hperm, Or.inl ⟨k, rfl, hkw, hk⟩⟩

theorem mem_homes_moveVar {d : Draft .standard} {b : Address} {y : String}
    (h : (y, b) ∈ (d.moveVar x a).homes) :
    (y = x ∧ b = a) ∨ (y ≠ x ∧ (y, b) ∈ d.homes) := by
  obtain ⟨⟨z, c⟩, hz, heq⟩ := List.mem_map.1 h
  split at heq
  next => exact Or.inl ⟨(Prod.mk.inj heq).1.symm, (Prod.mk.inj heq).2.symm⟩
  next hne =>
    obtain ⟨rfl, rfl⟩ := Prod.mk.inj heq
    exact Or.inr ⟨hne, hz⟩

/-- A variable that is moved gets an address of its own. -/
theorem moveAway (hL : Layout w head d) {k : ℕ} (hx : (x, .reg k) ∈ d.homes) :
    Layout w head (d.moveAway x k) ∧ Grows d.counters (d.moveAway x k).counters := by
  obtain ⟨hL', hg⟩ := hL.temp
  have hfresh : ∀ y, (y, .reg d.counters.top) ∉ d.homes := hL.not_mem (Int.lt_irrefl _)
  have hmem : ∀ y b, (y, b) ∈ (d.moveAway x k).homes →
      (y = x ∧ b = .reg d.counters.top) ∨ (y ≠ x ∧ (y, b) ∈ d.homes) := fun y b =>
    mem_homes_moveVar (d := d.temp.2)
  refine ⟨⟨hL'.width_le, hL'.slots_nonneg, ?_, ?_, ?_⟩, hg⟩
  · have hkeys : (d.moveAway x k).homes.map Prod.fst = d.homes.map Prod.fst :=
      map_fst_moveVar d.temp.2 x _
    rw [hkeys]
    exact hL.nodup
  · intro y b h
    rcases hmem y b h with ⟨rfl, rfl⟩ | ⟨-, h⟩
    · refine ⟨(hL.lives y _ hx).1, Or.inr ⟨hL.width_le, ?_⟩⟩
      show d.counters.top < d.counters.top + 1
      omega
    · exact (hL.lives y b h).mono hg
  · intro y z b hy hz
    rcases hmem y b hy with ⟨rfl, rfl⟩ | ⟨-, hy'⟩ <;> rcases hmem z _ hz with ⟨rfl, hb⟩ | ⟨-, hz'⟩
    · rfl
    · exact absurd hz' (hfresh z)
    · exact absurd (hb ▸ hy') (hfresh y)
    · exact hL.injective y z _ hy' hz'

theorem cleared {dir : Direction} {k : ℕ} (hL : Layout w head d) (hd : Cleared dir k d d') :
    Layout w head d' ∧ Grows d.counters d'.counters := by
  cases hd with
  | same | kept => exact ⟨hL, Grows.refl _⟩
  | moved hdir hx => exact hL.moveAway hx

/-- The arguments that the steps for a head or a goal are about. -/
structure Fits (w : ℕ) (head : List Term) (dir : Direction) (args : List Term) : Prop where
  length_le : args.length ≤ w
  head_eq : dir = .check → args = head

theorem firstArg_cases {dir : Direction} (hargs : Fits w head dir args) {k : ℕ}
    (hk : args[k]? = some (.var x)) :
    firstArg dir k = none ∨
      ∃ k' : ℕ, firstArg dir k = some (k' : Int) ∧ k' < w ∧ head[k']? = some (.var x) := by
  cases dir with
  | build => exact Or.inl rfl
  | check =>
    obtain ⟨hlt, -⟩ := List.getElem?_eq_some_iff.1 hk
    have hle := hargs.length_le
    exact Or.inr ⟨k, rfl, by omega, hargs.head_eq rfl ▸ hk⟩

/-- Every step keeps the layout, and only counts on. -/
theorem step {dir : Direction} {s s' : ℕ × Draft .standard} (hargs : Fits w head dir args)
    (h : Step dir args s s') (hL : Layout w head s.2) :
    Layout w head s'.2 ∧ Grows s.2.counters s'.2.counters := by
  cases h with
  | blank | constant | known | attach | resume => exact ⟨hL.congr (Grows.refl _) rfl, Grows.refl _⟩
  | unknown k hx h =>
    obtain ⟨hL', hg, -⟩ := hL.newVar h (Or.inl rfl)
    exact ⟨hL'.congr (Grows.refl _) rfl, hg⟩
  | putAside | begin =>
    obtain ⟨hL', hg⟩ := hL.temp
    exact ⟨hL'.congr (Grows.refl _) rfl, hg⟩
  | argSkip => exact ⟨hL, Grows.refl _⟩
  | argBlank _ _ hd =>
    obtain ⟨hL', hg⟩ := hL.cleared hd
    obtain ⟨hL'', hg'⟩ := hL'.temp
    exact ⟨hL''.congr (Grows.refl _) rfl, hg.trans hg'⟩
  | argKnown _ _ _ hd =>
    obtain ⟨hL', hg⟩ := hL.cleared hd
    exact ⟨hL'.congr (Grows.refl _) rfl, hg⟩
  | argStay hk hx h =>
    obtain ⟨hL', hg, -⟩ := hL.newVar h (firstArg_cases hargs hk)
    exact ⟨hL', hg⟩
  | argUnknown hk hx h ha hd =>
    obtain ⟨hL', hg, -⟩ := hL.newVar h (firstArg_cases hargs hk)
    obtain ⟨hL'', hg'⟩ := hL'.cleared hd
    exact ⟨hL''.congr (Grows.refl _) rfl, hg.trans hg'⟩
  | argConstant _ hd | argNode _ hd =>
    obtain ⟨hL', hg⟩ := hL.cleared hd
    exact ⟨hL'.congr (Grows.refl _) rfl, hg⟩

theorem steps {dir : Direction} {s s' : ℕ × Draft .standard} (hargs : Fits w head dir args)
    (h : Steps dir args s s') (hL : Layout w head s.2) :
    Layout w head s'.2 ∧ Grows s.2.counters s'.2.counters := by
  refine h.preserves (I := fun t => Layout w head t.2 ∧ Grows s.2.counters t.2.counters) ?_
    ⟨hL, Grows.refl _⟩
  intro t t' ht hI
  obtain ⟨hL', hg⟩ := step hargs ht hI.1
  exact ⟨hL', hI.2.trans hg⟩

theorem compose {dir : Direction} (hargs : Fits w head dir args) (hL : Layout w head d) :
    Layout w head (d.compose dir args) ∧ Grows d.counters (d.compose dir args).counters :=
  steps hargs (steps_compose dir args d) (hL.congr (Grows.refl _) rfl)

end Layout

end Draft

/-! ### Clauses -/

namespace NormalClause

open Draft

variable {n : NormalClause}

theorem le_foldl_max (cs : List Compound) (m : ℕ) :
    m ≤ cs.foldl (fun n g => max n g.args.length) m := by
  induction cs generalizing m with
  | nil => exact Nat.le_refl m
  | cons c cs ih => exact Nat.le_trans (Nat.le_max_left ..) (ih _)

theorem length_head_le (n : NormalClause) : n.head.args.length ≤ n.width :=
  le_foldl_max n.body _

theorem length_goal_le {g : Compound} (hg : g ∈ n.body) : g.args.length ≤ n.width := by
  unfold width
  generalize n.head.args.length = m
  generalize n.body = cs at hg ⊢
  induction cs generalizing m with
  | nil => simp at hg
  | cons c cs ih =>
    rcases List.mem_cons.1 hg with rfl | hg
    · exact Nat.le_trans (Nat.le_max_right ..) (le_foldl_max cs _)
    · exact ih _ hg

theorem fits_head (n : NormalClause) :
    Layout.Fits n.width n.head.args .check n.head.args :=
  ⟨n.length_head_le, fun _ => rfl⟩

theorem fits_goal {g : Compound} (hg : g ∈ n.body) :
    Layout.Fits n.width n.head.args .build g.args :=
  ⟨length_goal_le hg, by simp⟩

theorem layout_afterHead (n : NormalClause) :
    Layout n.width n.head.args (n.afterHead .standard) ∧
      Grows (Draft.start .standard n.width n.permanent).counters
        (n.afterHead .standard).counters :=
  (Layout.start n.width n.head.args n.permanent).compose n.fits_head

end NormalClause

end ClauseCode
