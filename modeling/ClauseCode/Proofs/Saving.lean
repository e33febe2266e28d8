import ClauseCode.Proofs.Addresses

/-!
# Argument registers that are saved

The code of a goal writes argument registers one after another.  A variable may live in such a
register, and if it is still needed then it is moved away first: an instruction saves the register
at another address.  `Draft.saved_compose` says which registers the code of a goal saves, in terms
of the draft before the goal; `Draft.savesFirst_compose` says that a register is saved at an address
of the code's own before it is written.

Nested terms are built in registers of their own, and building them moves nothing (`Quiet`).  So
only the step from one argument to the next matters.
-/

namespace ClauseCode

namespace Draft

variable {w : ℕ} {head args : List Term} {k : ℕ} {d d' d'' : Draft .standard} {x : String}
  {i : Instruction} {j : Int}

/-- The code at hand saves register `j`. -/
def Saved (d : Draft .standard) (j : Int) : Prop := ∃ a, .argVariable .check a j ∈ d.emitted

/-- An instruction saves no register. -/
def Spares (i : Instruction) : Prop := ∀ a j, i ≠ .argVariable .check a j

theorem spares_opener (kind : Kind) (dir : Direction) (level : Level) (n : ℕ) (a : Address) :
    Spares (kind.opener dir level n a) := by
  intro b j
  cases kind <;> simp [Kind.opener]

theorem saved_emit (hi : Spares i) : (d.emit i).Saved j ↔ d.Saved j := by
  constructor
  · rintro ⟨a, ha⟩
    rcases List.mem_cons.1 ha with rfl | ha
    · exact absurd rfl (hi a j)
    · exact ⟨a, ha⟩
  · rintro ⟨a, ha⟩
    exact ⟨a, List.mem_cons_of_mem _ ha⟩

/-- Only named variables have an address. -/
def Named (d : Draft .standard) : Prop := ∀ h ∈ d.homes, h.1 ≠ Term.anonymous

/-! ### Nested terms -/

/-- No register is saved, and the variables in argument registers stay there and stay alone. -/
structure Quiet (w : ℕ) (d d' : Draft .standard) : Prop where
  saved : ∀ j, d'.Saved j ↔ d.Saved j
  homes : ∀ (k : ℕ) x, k < w → ((x, .reg k) ∈ d'.homes ↔ (x, .reg k) ∈ d.homes)

namespace Quiet

theorem refl (w : ℕ) (d : Draft .standard) : Quiet w d d := ⟨fun _ => Iff.rfl, fun _ _ _ => Iff.rfl⟩

theorem trans (h : Quiet w d d') (h' : Quiet w d' d'') : Quiet w d d'' :=
  ⟨fun j => (h'.saved j).trans (h.saved j),
    fun k x hk => (h'.homes k x hk).trans (h.homes k x hk)⟩

theorem emit (h : Quiet w d d') (hi : Spares i) : Quiet w d (d'.emit i) :=
  ⟨fun j => (saved_emit hi).trans (h.saved j), h.homes⟩

theorem temp (w : ℕ) (d : Draft .standard) : Quiet w d d.temp.2 :=
  ⟨fun _ => Iff.rfl, fun _ _ _ => Iff.rfl⟩

/-- A variable that is met in a goal gets no argument register. -/
theorem newVar (hL : Layout w head d) (x : String) : Quiet w d (d.newVar x none).2 := by
  refine ⟨fun _ => Iff.rfl, fun k y hk => ?_⟩
  have hne : (d.newVar x none).1 ≠ .reg k := by
    have hw := hL.width_le
    by_cases hx : x ∈ d.counters.permanent
    · rw [(newVar_permanent hx none).1]
      simp
    · rw [(newVar_temporary hx).1]
      intro heq
      have := Address.reg.inj heq
      omega
  constructor
  · intro hy
    rcases List.mem_cons.1 hy with heq | hy
    · exact absurd (Prod.mk.inj heq).2.symm hne
    · exact hy
  · intro hy
    exact List.mem_cons_of_mem _ hy

/-- A step that counts no argument is quiet. -/
theorem step {s s' : ℕ × Draft .standard} (h : Step .build args s s') (hL : Layout w head s.2)
    (hk : s'.1 = s.1) : Quiet w s.2 s'.2 := by
  cases h with
  | blank | constant | known | attach => exact (refl w _).emit (by simp [Spares])
  | unknown => exact (newVar hL _).emit (by simp [Spares])
  | begin => exact (temp w _).emit (spares_opener _ _ _ _ _)
  | putAside hdir => simp at hdir
  | resume hdir => simp at hdir
  | argSkip | argBlank | argKnown | argStay | argUnknown | argConstant | argNode =>
    exact absurd hk (Nat.succ_ne_self _)

end Quiet

theorem Step.le {dir : Direction} {s s' : ℕ × Draft .standard} (h : Step dir args s s') :
    s.1 ≤ s'.1 := by
  cases h <;> simp

theorem Steps.le {dir : Direction} {s s' : ℕ × Draft .standard} (h : Steps dir args s s') :
    s.1 ≤ s'.1 :=
  h.preserves (I := fun t => s.1 ≤ t.1) (fun _ _ ht hs => Nat.le_trans hs ht.le) (Nat.le_refl _)

/-- Steps that count no argument are quiet. -/
theorem Quiet.steps (hargs : Layout.Fits w head .build args) (hL : Layout w head d)
    (h : Steps .build args (k, d) (k, d')) : Quiet w d d' := by
  -- The count never falls, so that it is `k` all the time.
  suffices hgen : ∀ s, Steps .build args (k, d) s → s.1 = k → Quiet w d s.2 from hgen _ h rfl
  intro s hs
  induction hs with
  | refl => exact fun _ => Quiet.refl w d
  | @tail s s' hsteps hstep ih =>
    intro hk
    have hle : k ≤ s.1 := Steps.le hsteps
    have hle' := hstep.le
    have hsk : s.1 = k := by omega
    exact (ih hsk).trans (Quiet.step hstep (Layout.steps hargs hsteps hL).1 (by omega))

/-! ### One argument -/

/-- Variable `x` lives in register `k`, argument `k` is not `x`, and `x` is still needed. -/
structure Leaves (args : List Term) (k : ℕ) (d : Draft .standard) (x : String) : Prop where
  lives : (x, .reg k) ∈ d.homes
  other : args[k]? ≠ some (.var x)
  needed : ∃ t, args[k]? = some t ∧ isNeeded args t k x = true

/-- What an argument of a goal does: its register is saved if the variable in it has to leave, and
the variables in later argument registers stay. -/
structure SavesArg (w : ℕ) (args : List Term) (k : ℕ) (d d' : Draft .standard) : Prop where
  saved : ∀ j, d'.Saved j ↔ d.Saved j ∨ (j = k ∧ ∃ x, Leaves args k d x)
  homes : ∀ (m : ℕ) x, k < m → m < w → ((x, .reg m) ∈ d'.homes ↔ (x, .reg m) ∈ d.homes)

theorem leaves_congr (h : ∀ y, (y, .reg k) ∈ d'.homes ↔ (y, .reg k) ∈ d.homes) :
    Leaves args k d' x ↔ Leaves args k d x := by
  constructor
  · intro hx
    exact ⟨(h x).1 hx.lives, hx.other, hx.needed⟩
  · intro hx
    exact ⟨(h x).2 hx.lives, hx.other, hx.needed⟩

/-- What is quiet before or after an argument does not matter. -/
theorem SavesArg.congr {d₁ d₂ : Draft .standard} (h : SavesArg w args k d₁ d₂) (hk : k < w)
    (hbefore : Quiet w d d₁) (hafter : Quiet w d₂ d') : SavesArg w args k d d' where
  saved j := by
    have hleaves : (∃ x, Leaves args k d₁ x) ↔ ∃ x, Leaves args k d x :=
      exists_congr fun x => leaves_congr fun y => hbefore.homes k y hk
    rw [hafter.saved, h.saved, hbefore.saved, hleaves]
  homes m x hm hw := by
    rw [hafter.homes m x hw, h.homes m x hm hw, hbefore.homes m x hw]

/-- Freeing register `k` for a term that is not the variable in it. -/
theorem savesArg_free {t : Term} (hL : Layout w head d) (hk : args[k]? = some t)
    (hother : ∀ x, (x, .reg k) ∈ d.homes → t ≠ .var x) :
    SavesArg w args k d (d.free .build args t k) := by
  rcases free_cases d args t k with ⟨hnil, heq⟩ | ⟨x, hlives, -, hcases⟩
  · rw [heq]
    refine ⟨fun j => ⟨Or.inl, ?_⟩, fun _ _ _ _ => Iff.rfl⟩
    rintro (h | ⟨-, x, hx⟩)
    · exact h
    · have := mem_residents.2 hx.lives
      rw [hnil] at this
      simp at this
  · have hunique : ∀ y, (y, .reg k) ∈ d.homes → y = x := fun y hy => hL.injective y x _ hy hlives
    rcases hcases with ⟨hneed, heq⟩ | ⟨hneed, heq⟩
    · rw [heq]
      refine ⟨fun j => ⟨Or.inl, ?_⟩, fun _ _ _ _ => Iff.rfl⟩
      rintro (h | ⟨-, y, hy⟩)
      · exact h
      · obtain ⟨u, hu, hneed'⟩ := hy.needed
        obtain rfl : t = u := Option.some.inj (hk.symm.trans hu)
        obtain rfl := hunique y hy.lives
        simp [hneed] at hneed'
    · have hleaves : Leaves args k d x := by
        refine ⟨hlives, fun hx => ?_, t, hk, hneed⟩
        exact hother x hlives (Option.some.inj (hk.symm.trans hx))
      rw [heq]
      constructor
      · intro j
        constructor
        · rintro ⟨a, ha⟩
          rcases List.mem_cons.1 ha with hi | ha
          · exact Or.inr ⟨(Instruction.argVariable.inj hi).2.2, x, hleaves⟩
          · exact Or.inl ⟨a, ha⟩
        · rintro (⟨a, ha⟩ | ⟨rfl, -⟩)
          · exact ⟨a, List.mem_cons_of_mem _ ha⟩
          · exact ⟨_, List.mem_cons_self⟩
      · intro m y hm hw
        have hne : y = x → (y, .reg m) ∉ d.homes := by
          rintro rfl hy
          have := (home?_of_mem hL.nodup hlives).symm.trans (home?_of_mem hL.nodup hy)
          simp only [Option.some.injEq, Address.reg.injEq] at this
          omega
        constructor
        · intro hy
          rcases Layout.mem_homes_moveVar (d := d.temp.2) hy with ⟨-, hreg⟩ | ⟨-, hy⟩
          · -- The variable went to a register after those of the arguments.
            have hle := hL.width_le
            have hreg : (m : Int) = d.counters.top := Address.reg.inj hreg
            omega
          · exact hy
        · intro hy
          exact List.mem_map.2 ⟨_, hy, if_neg fun hx => hne hx hy⟩

theorem savesArg_argVar (hL : Layout w head d) (hnamed : Named d)
    (hw : k < w) (hk : args[k]? = some (.var x)) :
    SavesArg w args k d (d.argVar .build args k x) := by
  by_cases hx : x = Term.anonymous
  · subst hx
    rw [argVar_blank]
    have hfree := savesArg_free hL hk fun y hy heq => hnamed _ hy (Term.var.inj heq).symm
    exact hfree.congr hw (Quiet.refl w d) ((Quiet.temp w _).emit (by simp [Spares]))
  · cases hhome : d.home? x with
    | some a =>
      rw [argVar_known hx hhome]
      have hmem := mem_homes_of_home? hhome
      by_cases ha : a = .reg k
      · -- The variable is in place, and no other lives there.
        subst ha
        rw [if_pos rfl]
        refine ⟨fun j => ⟨Or.inl, ?_⟩, fun _ _ _ _ => Iff.rfl⟩
        rintro (h | ⟨-, y, hy⟩)
        · exact h
        · obtain rfl := hL.injective y x _ hy.lives hmem
          exact absurd hk hy.other
      · rw [if_neg ha]
        refine (savesArg_free hL hk fun y hy heq => ?_).congr hw (Quiet.refl w d)
          ((Quiet.refl w _).emit (by simp [Spares]))
        obtain rfl := Term.var.inj heq
        exact ha (Option.some.inj (hhome.symm.trans (home?_of_mem hL.nodup hy)))
    | none =>
      rw [argVar_new hx hhome]
      have hquiet : Quiet w d (d.newVar x (firstArg .build k)).2 := Quiet.newVar hL x
      have hL' := (hL.newVar hhome (Or.inl rfl)).1
      have hself : (x, (d.newVar x (firstArg .build k)).1) ∈
          (d.newVar x (firstArg .build k)).2.homes := List.mem_cons_self
      have hne : (d.newVar x (firstArg .build k)).1 ≠ .reg k := fun heq => by
        have := (hquiet.homes k x hw).1 (heq ▸ hself)
        exact not_mem_homes_of_home? hhome (List.mem_map.2 ⟨_, this, rfl⟩)
      dsimp only
      rw [if_neg hne]
      refine (savesArg_free hL' hk fun y hy heq => ?_).congr hw hquiet
        ((Quiet.refl w _).emit (by simp [Spares]))
      obtain rfl := Term.var.inj heq
      exact not_mem_homes_of_home? hhome (List.mem_map.2 ⟨_, (hquiet.homes k x hw).1 hy, rfl⟩)

theorem savesArg_buildArg {t : Term} (hargs : Layout.Fits w head .build args)
    (hL : Layout w head d) (hnamed : Named d)
    (hk : args[k]? = some t) : SavesArg w args k d (buildArg args k d t) := by
  have hw : k < w := Nat.lt_of_lt_of_le (List.getElem?_eq_some_iff.1 hk).1 hargs.length_le
  rw [buildArg]
  split
  next x hx =>
    rw [Term.read_eq_var_iff] at hx
    subst hx
    exact savesArg_argVar hL hnamed hw hk
  next c hc =>
    refine (savesArg_free hL hk fun x _ ht => ?_).congr hw (Quiet.refl w d)
      ((Quiet.refl w _).emit (by simp [Spares]))
    rw [ht, Term.read] at hc
    simp at hc
  next kind ts ht =>
    obtain ⟨hall, hready⟩ := steps_buildAll (d := d) fun t _ d => steps_build args t k d
    have hbefore : Quiet w d (d.buildAll ts).2 := Quiet.steps hargs hL hall
    have hL' := (Layout.steps hargs hall hL).1
    have hnode := steps_argNode hk .build (d.buildAll ts).2 kind ts.length
    have hafter := Quiet.steps hargs (Layout.steps hargs hnode hL').1
      (steps_fill (k := k + 1) (hready.mono hnode))
    refine (savesArg_free hL' hk fun x _ heq => ?_).congr hw hbefore
      (((Quiet.refl w _).emit (spares_opener _ _ _ _ _)).trans hafter)
    rw [heq, Term.read] at ht
    simp at ht

/-! ### All arguments -/

theorem Named.emit (h : Named d) (i : Instruction) : Named (d.emit i) := h

theorem Named.temp (h : Named d) : Named d.temp.2 := h

theorem Named.newVar (h : Named d) (hx : x ≠ Term.anonymous) (arg : Option Int) :
    Named (d.newVar x arg).2 :=
  List.forall_mem_cons.2 ⟨hx, h⟩

theorem Named.cleared {dir : Direction} (h : Named d) (hd : Cleared dir k d d') : Named d' := by
  cases hd with
  | same | kept => exact h
  | @moved _ x hx =>
    intro p hp
    rcases Layout.mem_homes_moveVar (d := d.temp.2) hp with ⟨heq, -⟩ | ⟨-, hp⟩
    · exact heq ▸ h _ hx
    · exact h _ hp

theorem Step.named {dir : Direction} {s s' : ℕ × Draft .standard} (h : Step dir args s s')
    (hs : Named s.2) : Named s'.2 := by
  cases h with
  | blank | constant | known | attach | putAside | begin | resume | argSkip => exact hs
  | unknown k hx => exact (hs.newVar hx none).emit _
  | argStay _ hx => exact hs.newVar hx _
  | argBlank _ _ hd => exact (hs.cleared hd).temp.emit _
  | argKnown _ _ _ hd => exact (hs.cleared hd).emit _
  | argUnknown _ hx _ _ hd => exact ((hs.newVar hx _).cleared hd).emit _
  | argConstant _ hd => exact (hs.cleared hd).emit _
  | argNode _ hd => exact (hs.cleared hd).emit _

theorem Steps.named {dir : Direction} {s s' : ℕ × Draft .standard} (h : Steps dir args s s')
    (hs : Named s.2) : Named s'.2 :=
  h.preserves (I := fun s => Named s.2) (fun _ _ h hs => h.named hs) hs

theorem saved_buildArgs {ts : List Term} (hargs : Layout.Fits w head .build args)
    (hL : Layout w head d) (hnamed : Named d)
    (hts : args.drop k = ts) :
    (buildArgs args k d ts).Saved j ↔
      d.Saved j ∨ ∃ m : ℕ, j = m ∧ k ≤ m ∧ ∃ x, Leaves args m d x := by
  induction ts generalizing k d with
  | nil =>
    refine ⟨Or.inl, ?_⟩
    rintro (h | ⟨m, -, hm, x, hx⟩)
    · exact h
    · obtain ⟨t, ht, -⟩ := hx.needed
      have hlt := (List.getElem?_eq_some_iff.1 ht).1
      have hlen := List.drop_eq_nil_iff.1 hts
      omega
  | cons t ts ih =>
    obtain ⟨hk, hrest⟩ := drop_eq_cons hts
    have hstep := steps_buildArg (d := d) hk
    have harg := savesArg_buildArg hargs hL hnamed hk
    rw [buildArgs, ih (Layout.steps hargs hstep hL).1 (hstep.named hnamed) hrest, harg.saved,
      or_assoc]
    -- Argument `k` first, and for the later ones it is as if argument `k` were not there.
    have hlater : ∀ m : ℕ, k + 1 ≤ m →
        ((∃ x, Leaves args m (buildArg args k d t) x) ↔ ∃ x, Leaves args m d x) := by
      intro m hm
      refine exists_congr fun x => ?_
      constructor
      · intro hx
        obtain ⟨u, hu, -⟩ := hx.needed
        have hlt := (List.getElem?_eq_some_iff.1 hu).1
        have hle := hargs.length_le
        exact (leaves_congr fun y => harg.homes m y hm (by omega)).1 hx
      · intro hx
        obtain ⟨u, hu, -⟩ := hx.needed
        have hlt := (List.getElem?_eq_some_iff.1 hu).1
        have hle := hargs.length_le
        exact (leaves_congr fun y => harg.homes m y hm (by omega)).2 hx
    refine or_congr_right ?_
    constructor
    · rintro (⟨rfl, hx⟩ | ⟨m, rfl, hm, hx⟩)
      · exact ⟨k, rfl, Nat.le_refl k, hx⟩
      · exact ⟨m, rfl, by omega, (hlater m hm).1 hx⟩
    · rintro ⟨m, rfl, hm, hx⟩
      rcases Nat.eq_or_lt_of_le hm with rfl | hm
      · exact Or.inl ⟨rfl, hx⟩
      · exact Or.inr ⟨m, rfl, hm, (hlater m hm).2 hx⟩

/-- The code of a goal saves the registers whose variable has to leave. -/
theorem saved_compose (hargs : Layout.Fits w head .build args) (hL : Layout w head d)
    (hnamed : Named d) :
    (d.compose .build args).Saved j ↔ ∃ m : ℕ, j = m ∧ ∃ x, Leaves args m d x := by
  have hempty : Layout w head { d with emitted := [] } := hL.congr (Grows.refl _) rfl
  have h := saved_buildArgs (d := { d with emitted := [] }) (j := j) hargs hempty hnamed
    args.drop_zero
  refine h.trans ?_
  have hnone : ¬ ({ d with emitted := [] } : Draft .standard).Saved j := by simp [Saved]
  rw [or_iff_right hnone]
  simp only [Nat.zero_le, true_and]
  refine exists_congr fun m => and_congr_right fun _ => exists_congr fun x => ?_
  exact leaves_congr fun _ => Iff.rfl

/-! ### The order of saving and writing -/

/-- Code saves argument registers below `k`, each at an address of its own and before it writes the
register. -/
def SavesFirst (w k : ℕ) (is : List Instruction) : Prop :=
  ∀ pre a (j : Int) post, is = pre ++ .argVariable .check a j :: post →
    a.Own w ∧ (∃ m : ℕ, j = m ∧ m < k) ∧ (∀ i ∈ pre, .reg j ∉ i.writes) ∧
      ∃ i ∈ post, .reg j ∈ i.writes

namespace SavesFirst

variable {k' : ℕ} {is : List Instruction} {a : Address}

theorem mono (h : SavesFirst w k is) (hk : k ≤ k') : SavesFirst w k' is := by
  intro pre a j post heq
  obtain ⟨ha, ⟨m, hj, hm⟩, hpre, hpost⟩ := h pre a j post heq
  exact ⟨ha, ⟨m, hj, by omega⟩, hpre, hpost⟩

/-- An instruction that saves nothing. -/
theorem other (h : SavesFirst w k is) (hi : Spares i) : SavesFirst w k (is ++ [i]) := by
  intro pre a j post heq
  rcases Code.split_concat heq with ⟨-, rfl⟩ | ⟨post', rfl⟩
  · exact absurd rfl (hi a j)
  · obtain ⟨ha, hj, hpre, i', hi', hw⟩ := h pre a j post' rfl
    have hpost : post = post' ++ [i] := by simpa using heq.symm
    exact ⟨ha, hj, hpre, i', by simp [hpost, hi'], hw⟩

/-- Register `k` is saved and then written. -/
theorem argument (h : SavesFirst w k is) (ha : a.Own w) (hbefore : ∀ i ∈ is, .reg k ∉ i.writes)
    (hi : Spares i) (hw : .reg k ∈ i.writes) :
    SavesFirst w (k + 1) (is ++ [.argVariable .check a k] ++ [i]) := by
  intro pre b j post heq
  rcases Code.split_concat heq with ⟨-, rfl⟩ | ⟨post', heq'⟩
  · exact absurd rfl (hi b j)
  · have hpost : post = post' ++ [i] := by
      rw [heq'] at heq
      simpa using heq.symm
    rcases Code.split_concat heq' with ⟨rfl, hsave⟩ | ⟨post'', rfl⟩
    · obtain ⟨-, rfl, rfl⟩ := Instruction.argVariable.inj hsave
      exact ⟨ha, ⟨k, rfl, Nat.lt_succ_self k⟩, hbefore, i, by simp [hpost], hw⟩
    · obtain ⟨hb, ⟨m, hj, hm⟩, hpre, i', hi', hw'⟩ := h pre b j post'' rfl
      have hpost' : post' = post'' ++ [.argVariable .check a k] := by simpa using heq'.symm
      exact ⟨hb, ⟨m, hj, by omega⟩, hpre, i', by simp [hpost, hpost', hi'], hw'⟩

/-- An argument is written after its register was saved, if it was. -/
theorem cleared (h : SavesFirst w k d.emitted.reverse) (hL : Layout w head d)
    (ha : ArgsWritten w .build k d) (hk : k < w) (hd : Cleared .build k d d') (hi : Spares i)
    (hw : .reg k ∈ i.writes) : SavesFirst w (k + 1) (i :: d'.emitted).reverse := by
  rw [List.reverse_cons]
  cases hd with
  | same | kept => exact (h.other hi).mono (Nat.le_succ k)
  | moved =>
    show SavesFirst w (k + 1) ((_ :: d.emitted).reverse ++ [i])
    rw [List.reverse_cons]
    refine h.argument hL.width_le (fun i' hi' hw' => ?_) hi hw
    -- The registers that are written so far are those of earlier arguments.
    have hmem : (k : Int) ∈ Code.argsWritten w d.emitted.reverse :=
      List.mem_filterMap.2 ⟨.reg k, List.mem_flatMap.2 ⟨i', hi', hw'⟩, if_pos (by omega)⟩
    have := (ha.lt _ hmem).2
    omega

/-- Every step keeps the order. -/
theorem step {s s' : ℕ × Draft .standard} (hargs : Layout.Fits w head .build args)
    (h : Step .build args s s') (hL : Layout w head s.2) (ha : ArgsWritten w .build s.1 s.2)
    (hs : SavesFirst w s.1 s.2.emitted.reverse) : SavesFirst w s'.1 s'.2.emitted.reverse := by
  have hlt : ∀ {k : ℕ} {t : Term}, args[k]? = some t → k < w := fun hk =>
    Nat.lt_of_lt_of_le (List.getElem?_eq_some_iff.1 hk).1 hargs.length_le
  have hemit : ∀ {k : ℕ} {d : Draft .standard} {i : Instruction},
      SavesFirst w k d.emitted.reverse → Spares i → SavesFirst w k (d.emit i).emitted.reverse := by
    intro k d i hd hi
    show SavesFirst w k (i :: d.emitted).reverse
    rw [List.reverse_cons]
    exact hd.other hi
  cases h with
  | blank | constant | known | attach => exact hemit hs (by simp [Spares])
  | @unknown k d x => exact hemit (d := (d.newVar x none).2) hs (by simp [Spares])
  | begin _ k d => exact hemit (d := d.temp.2) hs (spares_opener _ _ _ _ _)
  | putAside hdir => simp at hdir
  | resume hdir => simp at hdir
  | argSkip | argStay => exact hs.mono (Nat.le_succ _)
  | @argBlank _ k t hk d d' hd =>
    have hargument : SavesFirst w (k + 1) (.argVariable .build (.reg d'.temp.1) k ::
        d'.emitted).reverse :=
      hs.cleared hL ha (hlt hk) hd (by simp [Spares]) (by simp [Instruction.writes])
    exact hargument
  | argKnown hk _ _ hd =>
    exact hs.cleared hL ha (hlt hk) hd (by simp [Spares]) (by simp [Instruction.writes])
  | @argUnknown k x hk d d' _ h _ hd =>
    exact cleared (d := (d.newVar x none).2) hs (hL.newVar h (Or.inl rfl)).1 (ha.newVar _ _)
      (hlt hk) hd (by simp [Spares]) (by simp [Instruction.writes])
  | argConstant hk hd =>
    exact hs.cleared hL ha (hlt hk) hd (by simp [Spares]) (by simp [Instruction.writes])
  | argNode hk hd => exact hs.cleared hL ha (hlt hk) hd (spares_opener _ _ _ _ _) (by simp)

end SavesFirst

/-- The code of a goal saves a register before it writes it. -/
theorem savesFirst_compose {prior : List Instruction} (hargs : Layout.Fits w head .build args)
    (hL : Layout w head d) (hB : Books w [] d.counters prior) :
    SavesFirst w args.length (d.compose .build args).emitted.reverse := by
  have hstart : Booked w prior [] { d with emitted := [] } := by
    unfold Booked
    rw [List.reverse_nil, List.append_nil]
    exact hB
  have hall := (steps_compose .build args d).preserves
    (I := fun s => (Layout w head s.2 ∧ Booked w prior [] s.2 ∧ ArgsWritten w .build s.1 s.2) ∧
      SavesFirst w s.1 s.2.emitted.reverse)
    (fun s s' hstep hs => ⟨⟨(Layout.step hargs hstep hs.1.1).1, hs.1.2.1.step hargs hstep hs.1.1,
      hs.1.2.2.step hargs hstep hs.1.2.1⟩, hs.2.step hargs hstep hs.1.1 hs.1.2.2⟩)
    ⟨⟨hL.congr (Grows.refl _) rfl, hstart, by simp, by simp, by simp⟩, by simp [SavesFirst]⟩
  exact hall.2

end Draft

end ClauseCode
