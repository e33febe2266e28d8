import ClauseCode.Proofs.Building

/-!
# Writing the argument registers of a goal

The arguments of a goal are built one after another.  Before argument `k` is written, register `k`
may hold a variable that is still needed; then it is moved away first (`Stage.free`).  So no
variable that is needed later is lost, and each argument register holds its argument in the end
(`Stage.buildArgs`).
-/

namespace ClauseCode.Building

open Draft Matching

variable {C : Setting} {L K : String → Prop} {d d' : Draft .standard} {s s' : Machine} {G G' : Env}
  {x : String} {a : Address} {args : List Term} {t : Term} {k : ℕ}

/-! ### Making room -/

theorem home?_moveAway (d : Draft .standard) (x y : String) (k : ℕ) :
    (d.moveAway x k).home? y =
      if y = x then (d.home? x).map fun _ => .reg d.counters.top else d.home? y :=
  home?_moveVar d.temp.2 x y _

/-- A variable that is needed is moved out of its argument register. -/
theorem Stage.moveAway (h : Stage C L d s G) (hr : Reached C d s) (hidle : s.focus = .take [])
    (hx : d.home? x = some (.reg k)) (hL : L x) :
    ∃ s', Reached C (d.moveAway x k) s' ∧ Stage C L (d.moveAway x k) s' G ∧
      s'.focus = .take [] ∧ Progress none [] d s G (d.moveAway x k) s' G := by
  obtain ⟨u, hu, hmem⟩ := h.valid x _ hL hx
  obtain ⟨hlayout, hgrows⟩ := h.layout.moveAway (mem_homes_of_home? hx)
  have hnew := not_allocated_temp d
  have hstep : s.step (.argVariable .check (.reg d.temp.1) k) =
      .ok (s.store (.reg d.temp.1) u) := by
    simp only [Machine.step, hidle, Machine.stepArg]
    rw [Machine.fetch_eq hmem]
    rfl
  have hr' : Reached C (d.temp.2.moveVar x (.reg d.temp.1)) s := hr
  refine ⟨s.store (.reg d.temp.1) u, hr'.emit hstep, ?_, hidle, Env.Le.refl G, fun _ _ _ => rfl,
    fun b hb _ => Machine.mem_store_of_ne (ne_of_not_allocated hnew hb) u, hgrows⟩
  refine ⟨hlayout, fun y b hy hb => ?_, fun y hy => ?_, fun y b hb => ?_, h.fresh⟩
  · rw [home?_moveAway] at hb
    split at hb
    next hyx =>
      subst hyx
      rw [hx] at hb
      obtain rfl := Option.some.inj hb
      exact ⟨u, hu, Machine.mem_store_self ..⟩
    next hyx =>
      rw [Machine.mem_store_of_ne (ne_of_not_allocated hnew (h.allocated hb))]
      exact h.valid y b hy hb
  · rw [home?_moveAway] at hy
    split at hy
    next hyx => simp [hx] at hy
    next hyx => exact h.unmet y hy
  · rw [home?_moveAway] at hb
    split at hb
    next hyx => exact h.seen y _ (hyx ▸ hx)
    next hyx => exact h.seen y b hb

/-- What holds when register `k` is free for an argument: the variables `K` do not live there, and
those that live elsewhere stay where they are. -/
structure Freed (C : Setting) (L K : String → Prop) (k : ℕ) (d : Draft .standard) (s : Machine)
    (G : Env) (d' : Draft .standard) (s' : Machine) : Prop where
  reached : Reached C d' s'
  stage : Stage C L d' s' G
  idle : s'.focus = .take []
  off : Off K d' (.reg k)
  home : ∀ y b, d.home? y = some b → b ≠ .reg k → d'.home? y = some b
  progress : Progress none [] d s G d' s' G

theorem Stage.free (h : Stage C L d s G) (hr : Reached C d s) (hidle : s.focus = .take [])
    (hkw : k < C.width)
    (hneed : ∀ x, d.home? x = some (.reg k) → isNeeded args t k x = true → L x)
    (hK : ∀ x, K x → C.seen x → x ∉ d.counters.permanent → isNeeded args t k x = true) :
    ∃ s', Freed C L K k d s G (d.free .build args t k) s' := by
  have hsame : Off K d (.reg k) → Freed C L K k d s G d s := fun hoff =>
    ⟨hr, h, hidle, hoff, fun _ _ hb _ => hb, Progress.refl ..⟩
  rcases free_cases d args t k with ⟨hnil, heq⟩ | ⟨y, hmem, -, hcases⟩
  · rw [heq]
    refine ⟨s, hsame fun x b _ hb hbk => ?_⟩
    subst hbk
    have := mem_residents.2 (mem_homes_of_home? hb)
    rw [hnil] at this
    simp at this
  · have hy := home?_of_mem h.layout.nodup hmem
    -- Only `y` lives in register `k`.
    have honly : ∀ x, d.home? x = some (.reg k) → x = y := fun x hx =>
      h.layout.injective x y _ (mem_homes_of_home? hx) hmem
    rcases hcases with ⟨hfalse, heq⟩ | ⟨htrue, heq⟩
    · rw [heq]
      refine ⟨s, hsame fun x b hx hb hbk => ?_⟩
      subst hbk
      obtain rfl := honly x hb
      -- What lives in a register is not permanent, so `K` has it only if it is needed.
      have := hK x hx (h.seen x _ hb) (h.layout.lives x _ hmem).1
      rw [hfalse] at this
      simp at this
    · rw [heq, pick_standard]
      obtain ⟨s', hr', hstage, hidle', hprogress⟩ := h.moveAway hr hidle hy (hneed y hy htrue)
      refine ⟨s', hr', hstage, hidle', fun x b _ hb => ?_, fun x b hb hbk => ?_, hprogress⟩
      · rw [home?_moveAway] at hb
        split at hb
        next hxy =>
          rw [hy] at hb
          obtain rfl := Option.some.inj hb
          have := h.layout.width_le
          simp only [ne_eq, Address.reg.injEq]
          omega
        next hxy =>
          rintro rfl
          exact hxy (honly x hb)
      · have hxy : x ≠ y := by
          rintro rfl
          exact hbk (Option.some.inj (hb.symm.trans hy))
        rw [home?_moveAway, if_neg hxy, hb]

theorem Stage.write (h : Stage C L d s G) (hKL : ∀ x, K x → L x) (hoff : Off K d (.reg k))
    (u : Tree ℕ) : Stage C K d (s.store (.reg k) u) G :=
  (h.mono hKL).change rfl fun x b hx hb => Machine.mem_store_of_ne (hoff x b hx hb) u

/-! ### One argument -/

/-- Whether a variable occurs in an argument after number `k`. -/
def occursAfter (args : List Term) (k : ℕ) (x : String) : Bool :=
  (args.drop (k + 1)).any (Term.occurs x)

/-- What is known about the variables needed before (`L`) and after (`K`) argument `k`: a variable
that is needed after it is permanent or occurs in a later argument. -/
structure Needs (C : Setting) (L K : String → Prop) (args : List Term) (k : ℕ)
    (permanent : List String) : Prop where
  lt : k < C.width
  le : ∀ x, K x → L x
  before : ∀ x, C.seen x → occursAfter args k x = true → L x
  after : ∀ x, K x → C.seen x → x ∉ permanent → occursAfter args k x = true

/-- What holds when argument `k` is built. -/
structure Argued (C : Setting) (K : String → Prop) (k : ℕ) (t : Tree Label) (d : Draft .standard)
    (s : Machine) (G : Env) (d' : Draft .standard) (s' : Machine) (G' : Env) : Prop where
  reached : Reached C d' s'
  stage : Stage C K d' s' G'
  idle : s'.focus = .take []
  arg : ∃ u, s'.mem (.reg k) = some u ∧ Builds G' t u
  progress : Progress (some (.reg k)) t.blanks d s G d' s' G'

theorem isNeeded_leaf (ht : t.children = []) (x : String) :
    isNeeded args t k x = occursAfter args k x := by
  rw [isNeeded, ht]
  rfl

theorem Stage.free_leaf (h : Stage C L d s G) (hr : Reached C d s) (hidle : s.focus = .take [])
    (hneeds : Needs C L K args k d.counters.permanent) (ht : t.children = []) :
    ∃ s', Freed C L K k d s G (d.free .build args t k) s' :=
  h.free hr hidle hneeds.lt
    (fun x hx hn => hneeds.before x (h.seen x _ hx) (by rwa [isNeeded_leaf ht] at hn))
    (fun x hK hseen hperm => by rw [isNeeded_leaf ht]; exact hneeds.after x hK hseen hperm)

theorem Progress.write {ls : List Label} (h : Progress none ls d s G d' s' G') (k : ℕ) (u : Tree ℕ)
    (i : Instruction) :
    Progress (some (.reg k)) ls d s G (d'.emit i) (s'.store (.reg k) u) G' := by
  refine ⟨h.env, h.blanks, fun b hb hne => ?_, h.grows⟩
  rw [Machine.mem_store_of_ne (by simpa using hne), h.mem b hb (by simp)]

theorem Stage.argConstant (h : Stage C L d s G) (hr : Reached C d s) (hidle : s.focus = .take [])
    (hneeds : Needs C L K args k d.counters.permanent) (ht : t.children = []) (c : Constant) :
    ∃ s' G', Argued C K k (.constant c) d s G (d.argConstant .build args k t c) s' G' := by
  obtain ⟨s₁, h₁⟩ := h.free_leaf hr hidle hneeds ht
  have hstep : s₁.step (.constant .build .shallow c (.reg k)) =
      .ok (s₁.store (.reg k) (.constant c)) := by
    simp only [Machine.step, h₁.idle, Machine.stepArg]
  exact ⟨_, G, h₁.reached.emit hstep, (h₁.stage.write hneeds.le h₁.off _).emit _, h₁.idle,
    ⟨_, Machine.mem_store_self .., Builds.constant G c⟩, h₁.progress.write k _ _⟩

theorem Stage.argBlank (h : Stage C L d s G) (hr : Reached C d s) (hidle : s.focus = .take [])
    (hneeds : Needs C L K args k d.counters.permanent) {l : Label} (hl : l.isBlank = true)
    (hG : G l = none) :
    ∃ s' G', Argued C K k (.var l) d s G (d.argVar .build args k Term.anonymous) s' G' := by
  obtain ⟨s₁, h₁⟩ := h.free_leaf (t := .var Term.anonymous) hr hidle hneeds rfl
  rw [argVar_blank]
  generalize d.free .build args (.var Term.anonymous) k = d₁ at h₁ ⊢
  have hnew := not_allocated_temp d₁
  have hstep : s₁.step (.argVariable .build (.reg d₁.temp.1) k) =
      .ok ((s₁.invent.2.store (.reg d₁.temp.1) s₁.invent.1).store (.reg k) s₁.invent.1) := by
    simp only [Machine.step, h₁.idle, Machine.stepArg]
  have hstage : Stage C L d₁.temp.2 (s₁.invent.2.store (.reg d₁.temp.1) s₁.invent.1)
      (G.set l s₁.invent.1) := by
    refine (h₁.stage.invent hl).temp.change rfl fun x b _ hb => ?_
    exact Machine.mem_store_of_ne (ne_of_not_allocated hnew (h₁.stage.allocated hb)) _
  have hr₁ : Reached C d₁.temp.2 s₁ := h₁.reached
  refine ⟨_, _, hr₁.emit hstep, (hstage.write hneeds.le h₁.off _).emit _, h₁.idle,
    ⟨_, Machine.mem_store_self .., Builds.var (Env.set_self ..)⟩, ?_⟩
  have hprogress : Progress none [l] d₁ s₁ G d₁.temp.2
      (s₁.invent.2.store (.reg d₁.temp.1) s₁.invent.1) (G.set l s₁.invent.1) := by
    refine ⟨Env.le_set hG _, fun l' _ hl' => Env.set_of_ne (by simpa using hl') _, fun b hb _ => ?_,
      h₁.stage.layout.temp.2⟩
    exact Machine.mem_store_of_ne (ne_of_not_allocated hnew hb) _
  refine ((h₁.progress.trans hprogress).write k _ _).weaken fun l' hl' => ?_
  obtain rfl : l' = l := by simpa using hl'
  exact Tree.mem_blanks.2 ⟨by simp, hl⟩

theorem Stage.argKnown (h : Stage C L d s G) (hr : Reached C d s) (hidle : s.focus = .take [])
    (hneeds : Needs C L K args k d.counters.permanent) (hx : x ≠ Term.anonymous) (hL : L x)
    (hhome : d.home? x = some a) :
    ∃ s' G', Argued C K k (.var (.named x)) d s G (d.argVar .build args k x) s' G' := by
  obtain ⟨u, hu, hmem⟩ := h.valid x a hL hhome
  rw [argVar_known hx hhome]
  split
  next ha =>
    subst ha
    exact ⟨s, G, hr, h.mono hneeds.le, hidle, ⟨u, hmem, Builds.var hu⟩, Progress.refl ..⟩
  next ha =>
    obtain ⟨s₁, h₁⟩ := h.free_leaf (t := .var x) hr hidle hneeds rfl
    have hmem₁ : s₁.mem a = some u := by
      rw [h₁.progress.mem a (h.allocated hhome) (by simp), hmem]
    have hstep : s₁.step (.argValue .build a k) = .ok (s₁.store (.reg k) u) := by
      simp only [Machine.step, h₁.idle, Machine.stepArg]
      rw [Machine.fetch_eq hmem₁]
      rfl
    exact ⟨_, G, h₁.reached.emit hstep, (h₁.stage.write hneeds.le h₁.off _).emit _, h₁.idle,
      ⟨u, Machine.mem_store_self .., Builds.var hu⟩, h₁.progress.write k u _⟩

theorem Stage.argUnknown (h : Stage C L d s G) (hr : Reached C d s) (hidle : s.focus = .take [])
    (hneeds : Needs C L K args k d.counters.permanent) (hx : x ≠ Term.anonymous)
    (hseen : C.seen x) (hhome : d.home? x = none) :
    ∃ s' G', Argued C K k (.var (.named x)) d s G (d.argVar .build args k x) s' G' := by
  have hnew := not_allocated_newVar d x
  obtain ⟨-, hgrows, -⟩ := h.layout.newVar hhome (Or.inl rfl)
  have hstage := h.hide hhome hseen
  have hself := home?_newVar_self d x none
  have hr₀ : Reached C (d.newVar x none).2 s := hr
  have hak : (d.newVar x none).1 ≠ .reg k := by
    refine (ne_of_not_allocated hnew ?_).symm
    have := h.layout.width_le
    have := hneeds.lt
    show (k : Int) < d.counters.top
    omega
  rw [argVar_new hx hhome]
  show ∃ s' G', Argued C K k (.var (.named x)) d s G (if (d.newVar x none).1 = .reg k then _
    else ((d.newVar x none).2.free .build args (.var x) k).emit
      (.argVariable .build (d.newVar x none).1 k)) s' G'
  rw [if_neg hak]
  generalize hv : d.newVar x none = v at *
  obtain ⟨b, d₁⟩ := v
  dsimp only at *
  -- The new variable does not live in register `k`, so that it is not in the way.
  obtain ⟨s₂, h₂⟩ := hstage.free (K := K) (t := .var x) hr₀ hidle hneeds.lt
    (fun y hy hn => ⟨hneeds.before y (hstage.seen y _ hy) hn, fun hyx => hak
      (Option.some.inj (hself.symm.trans (hyx ▸ hy)))⟩)
    (fun y hK hs hp => hneeds.after y hK hs (hgrows.permanent ▸ hp))
  generalize d₁.free .build args (.var x) k = d₂ at h₂ ⊢
  have hstep : s₂.step (.argVariable .build b k) =
      .ok ((s₂.invent.2.store b s₂.invent.1).store (.reg k) s₂.invent.1) := by
    simp only [Machine.step, h₂.idle, Machine.stepArg]
  have hstage' := (h₂.stage.reveal (h₂.home x b hself hak)).write hneeds.le h₂.off s₂.invent.1
  refine ⟨_, _, h₂.reached.emit hstep, hstage'.emit _, h₂.idle,
    ⟨_, Machine.mem_store_self .., Builds.var (Env.set_self ..)⟩, ?_⟩
  refine ⟨Env.le_set (h.unmet x hhome) _, fun l hl _ => ?_, fun c hc hne => ?_,
    hgrows.trans h₂.progress.grows⟩
  · exact Env.set_of_ne (Label.named_ne_of_isBlank hl x).symm _
  · rw [Machine.mem_store_of_ne (by simpa using hne),
      Machine.mem_store_of_ne (ne_of_not_allocated hnew hc)]
    exact h₂.progress.mem c (hc.mono hgrows) (by simp)

theorem any_isVar_iff {kind : Kind} {us : List (Tree String)} (ht : t.read = .node kind us) :
    t.children.any (isVar x) = true ↔ .var x ∈ us := by
  obtain ⟨-, rfl⟩ := Term.read_eq_node_iff.1 ht
  have hvar : ∀ c : Term, isVar x c = true ↔ c.read = .var x := by
    intro c
    rw [Term.read_eq_var_iff]
    cases c <;> simp [isVar]
  simp only [List.any_eq_true, List.mem_map, hvar]

theorem var_mem_map_names {ts : List (Tree Label)} (hx : x ≠ Term.anonymous) :
    .var x ∈ ts.map Tree.names ↔ .var (.named x) ∈ ts := by
  constructor
  · intro h
    obtain ⟨t, ht, heq⟩ := List.mem_map.1 h
    cases t with
    | var l =>
      cases l with
      | named y =>
        obtain rfl : y = x := by simpa [Label.name] using heq
        exact ht
      | blank i path => exact absurd (Tree.var.inj heq).symm hx
    | constant c => simp at heq
    | node kind us => simp at heq
  · exact fun h => List.mem_map.2 ⟨_, h, rfl⟩

theorem Stage.argNode {kind : Kind} {ts : List (Tree Label)} (h : Stage C L d s G)
    (hr : Reached C d s) (hidle : s.focus = .take [])
    (hneeds : Needs C L K args k d.counters.permanent)
    (hseen : ∀ x, C.seen x → x ≠ Term.anonymous) (ht : t.read = .node kind (ts.map Tree.names))
    (hproper : (Tree.node kind ts).Proper) (huse : Usable C L (.node kind ts))
    (hnodup : (Tree.node kind ts).blanks.Nodup)
    (hblank : ∀ l ∈ (Tree.node kind ts).blanks, G l = none) :
    ∃ s' G', Argued C K k (.node kind ts) d s G (buildArg args k d t) s' G' := by
  obtain ⟨hcell, hts⟩ := Tree.proper_node_iff.1 hproper
  have huse' : ∀ t ∈ ts, Usable C L t := fun t ht x hx =>
    huse x (Tree.mem_vars_node.2 ⟨t, ht, hx⟩)
  rw [Tree.blanks_node] at hnodup hblank
  have hbuildable : ∀ t ∈ ts, Buildable C L t := fun t ht =>
    Stage.build t (hts t ht) (huse' t ht) ((List.nodup_flatMap.1 hnodup).1 t ht)
  obtain ⟨s₁, G₁, h₁⟩ := h.buildAll hbuildable hr hidle hnodup hblank
  rw [buildArg, ht]
  dsimp only
  generalize d.buildAll (ts.map Tree.names) = b at h₁ ⊢
  obtain ⟨rs, d₁⟩ := b
  dsimp only at h₁ ⊢
  have hperm := h₁.progress.grows.permanent
  -- While the node is filled, its children are needed, too.
  let K' : String → Prop := fun x => K x ∨ .var (.named x) ∈ ts
  have hK' : ∀ x, K' x → L x := by
    rintro x (hx | hx)
    · exact hneeds.le x hx
    · exact (huse' _ hx x (by simp)).2.1
  have hany : ∀ x, C.seen x → (t.children.any (isVar x) = true ↔ .var (.named x) ∈ ts) :=
    fun x hx => (any_isVar_iff ht).trans (var_mem_map_names (hseen x hx))
  obtain ⟨s₂, h₂⟩ := h₁.stage.free (K := K') (t := t) h₁.reached h₁.idle hneeds.lt
    (fun x hx hn => by
      have hs := h₁.stage.seen x _ hx
      rw [isNeeded, Bool.or_eq_true, hany x hs] at hn
      rcases hn with hn | hn
      · exact (huse' _ hn x (by simp)).2.1
      · exact hneeds.before x hs hn)
    (fun x hx hs hp => by
      rw [isNeeded, Bool.or_eq_true, hany x hs]
      rcases hx with hx | hx
      · exact Or.inr (hneeds.after x hx hs (hperm ▸ hp))
      · exact Or.inl hx)
  generalize d₁.free .build args t k = d₂ at h₂ ⊢
  have ha : Allocated d₂.counters (.reg k) := by
    have := h₂.stage.layout.width_le
    have := hneeds.lt
    show (k : Int) < d₂.counters.top
    omega
  -- The nested nodes are in registers above the argument registers.
  have hst : Stored C (some (.reg k)) d₂ s₂ G₁ ts rs := by
    refine (h₁.stored.mono h₂.progress).avoid fun r hr _ => ?_
    have := hneeds.lt
    simp only [ne_eq, Address.reg.injEq]
    omega
  obtain ⟨s', G', h'⟩ := (h₂.stage.mono hK').openNode kind h₂.reached h₂.idle h₂.off ha hcell
    (fun l hl x hx => by
      obtain ⟨hne, -, hs⟩ := huse' _ hl x hx
      obtain rfl : Label.named x = l := by simpa using hx
      exact ⟨hne, Or.inr hl, hs⟩)
    (nodup_leafBlanks hnodup) (h₁.blank hnodup hblank) hst .shallow
  rw [List.length_map]
  obtain ⟨us, hmem, hall⟩ := h'.node
  refine ⟨s', G', h'.reached, h'.stage.mono fun x hx => Or.inl hx, h'.idle,
    ⟨_, hmem, Builds.node kind hall⟩, ?_⟩
  exact (((h₁.progress.trans h₂.progress).of_none _).trans h'.progress).weaken fun l hl =>
    mem_blanks_of_parts (by simpa using hl) kind

/-- An argument is built in its register, and what is needed later is kept. -/
theorem Stage.buildArg (u : Tree Label) (h : Stage C L d s G) (hr : Reached C d s)
    (hidle : s.focus = .take []) (hneeds : Needs C L K args k d.counters.permanent)
    (hseen : ∀ x, C.seen x → x ≠ Term.anonymous) (hu : u.names = t.read) (hproper : u.Proper)
    (huse : Usable C L u) (hnodup : u.blanks.Nodup) (hblank : ∀ l ∈ u.blanks, G l = none) :
    ∃ s' G', Argued C K k u d s G (Draft.buildArg args k d t) s' G' := by
  cases u with
  | var l =>
    have ht := hu.symm
    rw [Tree.names_var] at ht
    have hbuild : Draft.buildArg args k d t = d.argVar .build args k l.name := by
      rw [Draft.buildArg, ht]
    rw [hbuild]
    cases l with
    | blank i path => exact h.argBlank hr hidle hneeds rfl (hblank _ List.mem_cons_self)
    | named x =>
      obtain ⟨hx, hL, hs⟩ := huse x (by simp)
      cases hhome : d.home? x with
      | some a => exact h.argKnown hr hidle hneeds hx hL hhome
      | none => exact h.argUnknown hr hidle hneeds hx hs hhome
  | constant c =>
    have ht := hu.symm
    rw [Tree.names_constant] at ht
    have hbuild : Draft.buildArg args k d t = d.argConstant .build args k t c := by
      rw [Draft.buildArg, ht]
    have hchildren : t.children = [] := by
      cases t <;> simp_all [Term.read, Term.children]
    rw [hbuild]
    exact h.argConstant hr hidle hneeds hchildren c
  | node kind ts =>
    rw [Tree.names_node] at hu
    exact h.argNode hr hidle hneeds hseen hu.symm hproper huse hnodup hblank

/-! ### All arguments -/

/-- The variables that are needed from argument `k` on: those that occur there, and those that are
needed after the goal. -/
def Live (args : List Term) (later : String → Prop) (k : ℕ) (x : String) : Prop :=
  (∃ t ∈ args.drop k, x ∈ t.read.vars) ∨ later x

/-- A goal that can be built: its variables are among those that occur up to it, its terms remember
them, and a variable that is needed after it is permanent. -/
structure Ready (C : Setting) (args : List Term) (later : String → Prop)
    (permanent : List String) : Prop where
  length_le : args.length ≤ C.width
  named : ∀ x, C.seen x → x ≠ Term.anonymous
  seen : ∀ t ∈ args, ∀ x ∈ t.read.vars, x ≠ Term.anonymous → C.seen x
  occurs : ∀ t ∈ args, ∀ x, Term.occurs x t = true ↔ x ∈ t.read.vars
  later : ∀ x, C.seen x → later x → x ∈ permanent

variable {later : String → Prop}

theorem Ready.needs {permanent : List String} (h : Ready C args later permanent)
    (hk : args[k]? = some t) :
    Needs C (Live args later k) (Live args later (k + 1)) args k permanent := by
  obtain ⟨hlt, -⟩ := List.getElem?_eq_some_iff.1 hk
  have hle := h.length_le
  have hdrop : args.drop (k + 1) ⊆ args.drop k := by
    rw [← List.tail_drop]
    exact fun _ => List.mem_of_mem_tail
  refine ⟨by omega, fun x hx => ?_, fun x _ hx => ?_, fun x hx hs hp => ?_⟩
  · exact hx.imp_left fun ⟨u, hu, hxu⟩ => ⟨u, hdrop hu, hxu⟩
  · obtain ⟨u, hu, hxu⟩ := List.any_eq_true.1 hx
    exact Or.inl ⟨u, hdrop hu, (h.occurs u (List.mem_of_mem_drop hu) x).1 hxu⟩
  · rcases hx with ⟨u, hu, hxu⟩ | hx
    · exact List.any_eq_true.2 ⟨u, hu, (h.occurs u (List.mem_of_mem_drop hu) x).2 hxu⟩
    · exact absurd (h.later x hs hx) hp

theorem Ready.usable {permanent : List String} (h : Ready C args later permanent)
    (hk : args[k]? = some t) (i : ℕ) (path : List ℕ) :
    Usable C (Live args later k) (t.read.label i path) := by
  intro x hx
  obtain ⟨hmem, hne⟩ := Tree.named_mem_label hx
  have ht : t ∈ args.drop k := by
    refine List.mem_iff_getElem?.2 ⟨0, ?_⟩
    rw [List.getElem?_drop, Nat.add_zero, hk]
  exact ⟨hne, Or.inl ⟨t, ht, hmem⟩, h.seen t (List.mem_of_mem_drop ht) x hmem hne⟩

/-- What holds when the arguments from number `k` on are built. -/
structure ArgsBuilt (C : Setting) (later : String → Prop) (k : ℕ) (us : List (Tree Label))
    (s : Machine) (G : Env) (d' : Draft .standard) (s' : Machine) (G' : Env) : Prop where
  reached : Reached C d' s'
  stage : Stage C later d' s' G'
  args : ∀ (j : ℕ) u, us[j]? = some u →
    ∃ v, s'.mem (.reg ((k + j : ℕ) : Int)) = some v ∧ Builds G' u v
  mem : ∀ r : Int, r < k → s'.mem (.reg r) = s.mem (.reg r)
  env : Env.Le G G'
  blanks : ∀ l, l.isBlank = true → l ∉ us.flatMap Tree.blanks → G' l = G l

theorem Stage.buildArgs {ts : List Term} {permanent : List String}
    (hready : Ready C args later permanent) (hperm : d.counters.permanent = permanent)
    (h : Stage C (Live args later k) d s G) (hr : Reached C d s) (hidle : s.focus = .take [])
    (hts : args.drop k = ts) (i : ℕ)
    (hblank : ∀ l ∈ (Tree.labelAll i [] k (ts.map Term.read)).flatMap Tree.blanks, G l = none) :
    ∃ s' G', ArgsBuilt C later k (Tree.labelAll i [] k (ts.map Term.read)) s G
      (Draft.buildArgs args k d ts) s' G' := by
  induction ts generalizing k d s G with
  | nil =>
    have hlive : ∀ x, later x → Live args later k x := fun x hx => Or.inr hx
    exact ⟨s, G, hr, h.mono hlive, by simp [Tree.labelAll], fun _ _ => rfl, Env.Le.refl G,
      fun _ _ _ => rfl⟩
  | cons t ts ih =>
    obtain ⟨hk, hrest⟩ := drop_eq_cons hts
    rw [List.map_cons, Tree.labelAll, List.flatMap_cons] at hblank
    have hnodup : ((Tree.labelAll i [] k ((t :: ts).map Term.read)).flatMap Tree.blanks).Nodup :=
      Tree.nodup_blanks_labelAll (fun t _ path => t.nodup_blanks_label i path) k
    rw [List.map_cons, Tree.labelAll, List.flatMap_cons, List.nodup_append] at hnodup
    obtain ⟨hnodup, -, hdisj⟩ := hnodup
    obtain ⟨s₁, G₁, h₁⟩ := h.buildArg (t.read.label i [k]) hr hidle
      (hperm ▸ hready.needs hk) hready.named (Tree.names_label ..)
      (Tree.proper_label t.proper_read ..) (hready.usable hk i [k]) hnodup fun l hl =>
        hblank l (List.mem_append_left _ hl)
    -- Each blank has a place of its own, so that the others are still without a tree.
    have hblank₁ : ∀ l ∈ (Tree.labelAll i [] (k + 1) (ts.map Term.read)).flatMap Tree.blanks,
        G₁ l = none :=
      h₁.progress.unused
        (fun l hl => ⟨Tree.isBlank_of_mem_blanks hl, fun hmem => hdisj l hmem l hl rfl⟩)
        (fun l hl => hblank l (List.mem_append_right _ hl))
    obtain ⟨s', G', h'⟩ := ih (h₁.progress.grows.permanent.trans hperm) h₁.stage h₁.reached
      h₁.idle hrest hblank₁
    rw [List.map_cons, Tree.labelAll, Draft.buildArgs]
    refine ⟨s', G', h'.reached, h'.stage, fun j u hu => ?_, fun r hlt => ?_,
      h₁.progress.env.trans h'.env, fun l hl hmem => ?_⟩
    · cases j with
      | zero =>
        obtain rfl : t.read.label i [k] = u := by simpa using hu
        obtain ⟨v, hv, hb⟩ := h₁.arg
        refine ⟨v, ?_, hb.mono h'.env⟩
        rw [Nat.add_zero, h'.mem k (by omega), hv]
      | succ j =>
        rw [← Nat.add_assoc, Nat.add_right_comm]
        exact h'.args j u (by simpa using hu)
    -- Argument registers that are done are below `k` and keep their content.
    · have hw := h.layout.width_le
      have hlt' := (hready.needs hk).lt
      have hne : some (Address.reg r) ≠ some (.reg k) := by
        simp only [ne_eq, Option.some.injEq, Address.reg.injEq]
        omega
      rw [h'.mem r (by omega), h₁.progress.mem (.reg r) (by show r < d.counters.top; omega) hne]
    · rw [List.flatMap_cons, List.mem_append, not_or] at hmem
      rw [h'.blanks l hl hmem.2, h₁.progress.blanks l hl hmem.1]

end ClauseCode.Building
