import ClauseCode.Proofs.HeadCode
import ClauseCode.Proofs.Labels

/-!
# Building the arguments of a goal

The code of a goal is followed step by step, together with an environment that says what the labels
met so far stand for.  `Stage` says what holds at each point: each variable that is still needed is
found at its address, and labels that were given no tree by the head stand for new variables.

A node below an argument is built at new addresses, so that nothing is lost (`Stage.build`).  An
argument overwrites its register, and what lives there and is still needed is moved away before
(`Stage.free`).
-/

namespace ClauseCode

namespace Machine

variable {s : Machine} {a : Address} {kind : Kind} {n : ℕ} {us : List (Tree ℕ)}

/-- A node for an address with some children that lacks others, or that is there. -/
def Filling (s : Machine) (a : Address) (kind : Kind) : ℕ → List (Tree ℕ) → Prop
  | 0, us => s.focus = .take [] ∧ s.mem a = some (.node kind us)
  | n + 1, us => s.focus = .fill a kind (n + 1) us

theorem filling_settle (h : s.focus = .fill a kind n us) :
    s.settle.Filling a kind n us ∧ (∀ b, b ≠ a → s.settle.mem b = s.mem b) ∧
      s.settle.next = s.next := by
  unfold settle
  rw [h]
  cases n with
  | zero => exact ⟨⟨rfl, mem_store_self ..⟩, fun b hb => mem_store_of_ne hb _, rfl⟩
  | succ n => exact ⟨h, fun _ _ => rfl, rfl⟩

theorem filling_begin (s : Machine) (a : Address) (kind : Kind) (n : ℕ) :
    (s.begin a kind n).Filling a kind n [] ∧
      (∀ b, b ≠ a → (s.begin a kind n).mem b = s.mem b) ∧ (s.begin a kind n).next = s.next := by
  obtain ⟨hfill, hmem, hnext⟩ :=
    filling_settle (s := { s.discard a with focus := .fill a kind n [] }) rfl
  exact ⟨hfill, fun b hb => (hmem b hb).trans (if_neg hb), hnext⟩

theorem filling_supply (h : s.Filling a kind (n + 1) us) (u : Tree ℕ) :
    ∃ s', s.supply u = .ok s' ∧ s'.Filling a kind n (us ++ [u]) ∧
      (∀ b, b ≠ a → s'.mem b = s.mem b) ∧ s'.next = s.next := by
  have hfocus : s.focus = .fill a kind (n + 1) us := h
  obtain ⟨hfill, hmem, hnext⟩ :=
    filling_settle (s := { s with focus := .fill a kind n (us ++ [u]) }) rfl
  refine ⟨_, ?_, hfill, hmem, hnext⟩
  rw [supply, hfocus]

/-- An instruction that begins a node leaves its children to be supplied. -/
theorem step_opener_build (hfocus : s.focus = .take []) (hn : kind = .cell → n = 2)
    (level : Level) (a : Address) :
    s.step (kind.opener .build level n a) = .ok (s.begin a kind n) := by
  cases kind with
  | functor f => simp only [Kind.opener, step, hfocus, stepArg, Int.toNat_natCast]; rfl
  | cell => simp only [Kind.opener, step, hfocus, stepArg, hn rfl]

end Machine

namespace Building

open Draft Matching

/-- What stays the same while a goal is built. -/
structure Setting where
  /-- The number of argument registers. -/
  width : ℕ
  /-- The arguments of the head. -/
  head : List Term
  /-- The variables that occur up to this goal. -/
  seen : String → Prop
  /-- The labels that the head gave a tree. -/
  given : Label → Prop
  /-- The first new variable. -/
  first : ℕ
  /-- The machine before the code of the goal. -/
  start : Machine

/-- What holds while a goal is built, if `L` are the variables that are still needed and `G` says
what labels stand for. -/
structure Stage (C : Setting) (L : String → Prop) (d : Draft .standard) (s : Machine) (G : Env) :
    Prop where
  layout : Layout C.width C.head d
  valid : ∀ x a, L x → d.home? x = some a → ∃ u, G (.named x) = some u ∧ s.mem a = some u
  unmet : ∀ x, d.home? x = none → G (.named x) = none
  seen : ∀ x a, d.home? x = some a → C.seen x
  fresh : G.Fresh C.given C.first s.next

/-- The code so far leads to a state of the machine. -/
def Reached (C : Setting) (d : Draft .standard) (s : Machine) : Prop :=
  C.start.run d.emitted.reverse = .ok s

/-- How a stage develops: more labels stand for trees, but the only blanks among them are in `ls`,
and addresses keep what they hold, except for one that is written on purpose. -/
structure Progress (off : Option Address) (ls : List Label) (d : Draft .standard) (s : Machine)
    (G : Env) (d' : Draft .standard) (s' : Machine) (G' : Env) : Prop where
  env : Env.Le G G'
  blanks : ∀ l, l.isBlank = true → l ∉ ls → G' l = G l
  mem : ∀ b, Allocated d.counters b → some b ≠ off → s'.mem b = s.mem b
  grows : Grows d.counters d'.counters

variable {C : Setting} {L K : String → Prop} {d d' d'' : Draft .standard} {s s' s'' : Machine}
  {G G' G'' : Env} {off : Option Address} {ls ls' : List Label} {x : String} {a : Address}

theorem Progress.refl (off : Option Address) (d : Draft .standard) (s : Machine) (G : Env) :
    Progress off [] d s G d s G :=
  ⟨Env.Le.refl G, fun _ _ _ => rfl, fun _ _ _ => rfl, Grows.refl _⟩

theorem Progress.trans (h : Progress off ls d s G d' s' G')
    (h' : Progress off ls' d' s' G' d'' s'' G'') :
    Progress off (ls ++ ls') d s G d'' s'' G'' where
  env := h.env.trans h'.env
  blanks l hl hmem := by
    rw [List.mem_append, not_or] at hmem
    exact (h'.blanks l hl hmem.2).trans (h.blanks l hl hmem.1)
  mem b hb hoff := (h'.mem b (hb.mono h.grows) hoff).trans (h.mem b hb hoff)
  grows := h.grows.trans h'.grows

theorem Progress.weaken (h : Progress off ls d s G d' s' G') (hls : ∀ l ∈ ls, l ∈ ls') :
    Progress off ls' d s G d' s' G' :=
  ⟨h.env, fun l hl hmem => h.blanks l hl fun hl' => hmem (hls l hl'), h.mem, h.grows⟩

/-- Blanks stay without a tree if they are not in `ls`. -/
theorem Progress.unused (h : Progress off ls d s G d' s' G')
    (hls : ∀ l ∈ ls', l.isBlank = true ∧ l ∉ ls) (hG : ∀ l ∈ ls', G l = none) :
    ∀ l ∈ ls', G' l = none :=
  fun l hl => (h.blanks l (hls l hl).1 (hls l hl).2).trans (hG l hl)

/-- An address that was new is no exception. -/
theorem Progress.of_not_allocated (h : Progress (some a) ls d s G d' s' G')
    (ha : ¬ Allocated d.counters a) : Progress none ls d s G d' s' G' :=
  ⟨h.env, h.blanks, fun b hb _ => h.mem b hb (by simpa using ne_of_not_allocated ha hb), h.grows⟩

theorem Progress.of_none (h : Progress none ls d s G d' s' G') (off : Option Address) :
    Progress off ls d s G d' s' G' :=
  ⟨h.env, h.blanks, fun b hb _ => h.mem b hb (by simp), h.grows⟩

theorem Stage.mono (h : Stage C L d s G) (hK : ∀ x, K x → L x) : Stage C K d s G :=
  { h with valid := fun x a hx => h.valid x a (hK x hx) }

theorem Reached.emit {i : Instruction} (h : Reached C d s) (hstep : s.step i = .ok s') :
    Reached C (d.emit i) s' := by
  show C.start.run (i :: d.emitted).reverse = .ok s'
  rw [List.reverse_cons, Machine.run_concat, h]
  exact hstep

/-! ### Small changes of a stage -/

theorem Stage.emit (h : Stage C L d s G) (i : Instruction) : Stage C L (d.emit i) s G where
  layout := h.layout.congr (Grows.refl _) rfl
  valid := h.valid
  unmet := h.unmet
  seen := h.seen
  fresh := h.fresh

theorem Stage.temp (h : Stage C L d s G) : Stage C L d.temp.2 s G where
  layout := h.layout.temp.1
  valid := h.valid
  unmet := h.unmet
  seen := h.seen
  fresh := h.fresh

theorem Stage.allocated (h : Stage C L d s G) (hx : d.home? x = some a) :
    Allocated d.counters a :=
  h.layout.allocated (mem_homes_of_home? hx)

/-- The machine may change where no variable that is needed lives. -/
theorem Stage.change (h : Stage C L d s G) (hnext : s'.next = s.next)
    (hmem : ∀ x b, L x → d.home? x = some b → s'.mem b = s.mem b) : Stage C L d s' G where
  layout := h.layout
  valid x b hx hb := by
    rw [hmem x b hx hb]
    exact h.valid x b hx hb
  unmet := h.unmet
  seen := h.seen
  fresh := hnext ▸ h.fresh

/-- No variable that is needed lives at an address. -/
def Off (L : String → Prop) (d : Draft .standard) (a : Address) : Prop :=
  ∀ x b, L x → d.home? x = some b → b ≠ a

theorem Stage.supply (h : Stage C L d s G) (hoff : Off L d a) {kind : Kind} {n : ℕ}
    {us : List (Tree ℕ)} (hfill : s.Filling a kind (n + 1) us) (u : Tree ℕ) :
    ∃ s', s.supply u = .ok s' ∧ Stage C L d s' G ∧ s'.Filling a kind n (us ++ [u]) ∧
      ∀ b, b ≠ a → s'.mem b = s.mem b := by
  obtain ⟨s', hsupply, hfill', hmem, hnext⟩ := Machine.filling_supply hfill u
  exact ⟨s', hsupply, h.change hnext fun x b hx hb => hmem b (hoff x b hx hb), hfill', hmem⟩

/-- A blank stands for a new variable. -/
theorem Stage.invent (h : Stage C L d s G) {l : Label} (hl : l.isBlank = true) :
    Stage C L d s.invent.2 (G.set l s.invent.1) where
  layout := h.layout
  valid y b hy hb := by
    rw [Env.set_of_ne (Label.named_ne_of_isBlank hl y)]
    exact h.valid y b hy hb
  unmet y hy := by
    rw [Env.set_of_ne (Label.named_ne_of_isBlank hl y)]
    exact h.unmet y hy
  seen := h.seen
  fresh := h.fresh.set l

/-- A variable that has an address, but no tree yet, does not count as needed. -/
theorem Stage.hide (h : Stage C L d s G) (hx : d.home? x = none) (hseen : C.seen x) :
    Stage C (fun y => L y ∧ y ≠ x) (d.newVar x none).2 s G where
  layout := (h.layout.newVar hx (Or.inl rfl)).1
  valid y b hy hb := by
    rw [home?_newVar_of_ne d none hy.2] at hb
    exact h.valid y b hy.1 hb
  unmet y hy := by
    have hyx : y ≠ x := by
      rintro rfl
      simp [home?_newVar_self] at hy
    rw [home?_newVar_of_ne d none hyx] at hy
    exact h.unmet y hy
  seen y b hb := by
    by_cases hyx : y = x
    · exact hyx ▸ hseen
    · rw [home?_newVar_of_ne d none hyx] at hb
      exact h.seen y b hb
  fresh := h.fresh

/-- A variable without a tree stands for a new variable, which is written to its address. -/
theorem Stage.reveal (h : Stage C (fun y => L y ∧ y ≠ x) d s G) (hx : d.home? x = some a) :
    Stage C L d (s.invent.2.store a s.invent.1) (G.set (.named x) s.invent.1) where
  layout := h.layout
  valid y b hy hb := by
    by_cases hyx : y = x
    · subst hyx
      obtain rfl := Option.some.inj (hb.symm.trans hx)
      exact ⟨_, Env.set_self .., Machine.mem_store_self ..⟩
    · have hba : b ≠ a := by
        rintro rfl
        exact hyx (h.layout.injective y x _ (mem_homes_of_home? hb) (mem_homes_of_home? hx))
      rw [Env.set_of_ne (by simpa using hyx), Machine.mem_store_of_ne hba]
      exact h.valid y b ⟨hy, hyx⟩ hb
  unmet y hy := by
    have hyx : y ≠ x := by
      rintro rfl
      simp [hx] at hy
    rw [Env.set_of_ne (by simpa using hyx)]
    exact h.unmet y hy
  seen := h.seen
  fresh := h.fresh.set _

/-- A variable without address gets one, and stands for a new variable. -/
theorem Stage.newVar (h : Stage C L d s G) (hx : d.home? x = none) (hseen : C.seen x) :
    Stage C L (d.newVar x none).2 (s.invent.2.store (d.newVar x none).1 s.invent.1)
      (G.set (.named x) s.invent.1) :=
  (h.hide hx hseen).reveal (home?_newVar_self d x none)

/-! ### Children of a node -/

/-- The named variables of a tree are ones that are still needed and occur up to this goal. -/
def Usable (C : Setting) (L : String → Prop) (t : Tree Label) : Prop :=
  ∀ x, .named x ∈ t.vars → x ≠ Term.anonymous ∧ L x ∧ C.seen x

/-- What holds when one more child is supplied to the node at an address. -/
structure Supplied (C : Setting) (L : String → Prop) (a : Address) (kind : Kind) (n : ℕ)
    (us : List (Tree ℕ)) (t : Tree Label) (ls : List Label) (d : Draft .standard) (s : Machine)
    (G : Env) (d' : Draft .standard) (s' : Machine) (G' : Env) : Prop where
  reached : Reached C d' s'
  stage : Stage C L d' s' G'
  off : Off L d' a
  child : ∃ u, s'.Filling a kind n (us ++ [u]) ∧ Builds G' t u
  progress : Progress (some a) ls d s G d' s' G'

variable {kind : Kind} {n : ℕ} {us : List (Tree ℕ)}

theorem Stage.supply_blank (h : Stage C L d s G) (hr : Reached C d s) (hoff : Off L d a)
    (hfill : s.Filling a kind (n + 1) us) {l : Label} (hl : l.isBlank = true) (hG : G l = none) :
    ∃ s' G', Supplied C L a kind n us (.var l) [l] d s G (d.emit (.void .build 1)) s' G' := by
  obtain ⟨s', hsupply, hstage, hfill', hmem⟩ :=
    (h.invent hl).supply hoff (s := s.invent.2) hfill s.invent.1
  have hstep : s.step (.void .build 1) = .ok s' := by
    rw [Machine.step_void_one]
    exact hsupply
  refine ⟨s', G.set l s.invent.1, hr.emit hstep, hstage.emit _, hoff,
    ⟨_, hfill', Builds.var (Env.set_self ..)⟩, Env.le_set hG _, fun l' _ hl' => ?_,
    fun b _ hb => hmem b (by simpa using hb), Grows.refl _⟩
  have hne : l' ≠ l := by
    rintro rfl
    exact hl' (by simp)
  exact Env.set_of_ne hne _

theorem Stage.supply_constant (h : Stage C L d s G) (hr : Reached C d s) (hoff : Off L d a)
    (hfill : s.Filling a kind (n + 1) us) (c : Constant) :
    ∃ s' G',
      Supplied C L a kind n us (.constant c) [] d s G (d.emit (.subConstant .build c)) s' G' := by
  obtain ⟨s', hsupply, hstage, hfill', hmem⟩ := h.supply hoff hfill (.constant c)
  have hstep : s.step (.subConstant .build c) = .ok s' := hsupply
  exact ⟨s', G, hr.emit hstep, hstage.emit _, hoff, ⟨_, hfill', Builds.constant G c⟩,
    Env.Le.refl G, fun _ _ _ => rfl, fun b _ hb => hmem b (by simpa using hb), Grows.refl _⟩

/-- A child that is found at an address is supplied from there. -/
theorem Stage.supply_value (h : Stage C L d s G) (hr : Reached C d s) (hoff : Off L d a)
    (hfill : s.Filling a kind (n + 1) us) {b : Address} {t : Tree Label} {u : Tree ℕ}
    (hmem : s.mem b = some u) (ht : Builds G t u) :
    ∃ s' G', Supplied C L a kind n us t [] d s G (d.emit (.subValue .build b)) s' G' := by
  obtain ⟨s', hsupply, hstage, hfill', hmem'⟩ := h.supply hoff hfill u
  have hstep : s.step (.subValue .build b) = .ok s' := by
    show (s.fetch b >>= s.supply) = .ok s'
    rw [Machine.fetch_eq hmem]
    exact hsupply
  exact ⟨s', G, hr.emit hstep, hstage.emit _, hoff, ⟨_, hfill', ht⟩,
    Env.Le.refl G, fun _ _ _ => rfl, fun b _ hb => hmem' b (by simpa using hb), Grows.refl _⟩

theorem Stage.supply_newVar (h : Stage C L d s G) (hr : Reached C d s) (hoff : Off L d a)
    (ha : Allocated d.counters a) (hfill : s.Filling a kind (n + 1) us) (hx : d.home? x = none)
    (hseen : C.seen x) :
    ∃ s' G', Supplied C L a kind n us (.var (.named x)) [] d s G
      ((d.newVar x none).2.emit (.subVariable .build (d.newVar x none).1)) s' G' := by
  have hfresh := not_allocated_newVar d x
  have hoff' : Off L (d.newVar x none).2 a := by
    intro y b hy hb
    rcases home?_newVar_cases hb with hb | rfl
    · exact hoff y b hy hb
    · exact (ne_of_not_allocated hfresh ha).symm
  obtain ⟨s', hsupply, hstage, hfill', hmem⟩ := (h.newVar hx hseen).supply hoff' hfill s.invent.1
  have hstep : s.step (.subVariable .build (d.newVar x none).1) = .ok s' := hsupply
  have hr' : Reached C (d.newVar x none).2 s := hr
  refine ⟨s', _, hr'.emit hstep, hstage.emit _, hoff', ⟨_, hfill', Builds.var (Env.set_self ..)⟩,
    Env.le_set (h.unmet x hx) _, fun l hl _ => ?_, fun b hb hne => ?_,
    (h.layout.newVar hx (Or.inl rfl)).2.1⟩
  · exact Env.set_of_ne (Label.named_ne_of_isBlank hl x).symm _
  · rw [hmem b (by simpa using hne), Machine.mem_store_of_ne (ne_of_not_allocated hfresh hb)]
    rfl

theorem Stage.leaf {t : Tree Label} (h : Stage C L d s G) (hr : Reached C d s) (hoff : Off L d a)
    (ha : Allocated d.counters a) (hfill : s.Filling a kind (n + 1) us)
    (ht : ∀ kind ts, t ≠ .node kind ts) (huse : Usable C L t)
    (hblank : ∀ l ∈ t.blanks, G l = none) :
    ∃ s' G', Supplied C L a kind n us t t.blanks d s G (d.leaf .build t.names) s' G' := by
  cases t with
  | var l =>
    cases l with
    | blank i path => exact h.supply_blank hr hoff hfill rfl (hblank _ List.mem_cons_self)
    | named x =>
      obtain ⟨hx, hL, hseen⟩ := huse x (by simp)
      rw [Tree.names_var, Label.name, Draft.leaf, if_neg hx]
      split
      next b hb =>
        obtain ⟨u, hu, hmem⟩ := h.valid x b hL hb
        exact h.supply_value hr hoff hfill hmem (Builds.var hu)
      next hb => exact h.supply_newVar hr hoff ha hfill hb hseen
  | constant c => exact h.supply_constant hr hoff hfill c
  | node kind ts => exact absurd rfl (ht kind ts)

/-- The blanks that are children of a node. -/
def leafBlanks : Tree Label → List Label
  | .node .. => []
  | t => t.blanks

/-- The blanks below a node. -/
def nodeBlanks : Tree Label → List Label
  | .node kind ts => (Tree.node kind ts).blanks
  | _ => []

theorem leafBlanks_sublist (t : Tree Label) : List.Sublist (leafBlanks t) t.blanks := by
  cases t with
  | var l => exact List.Sublist.refl _
  | constant c => exact List.Sublist.refl _
  | node kind ts => exact List.nil_sublist _

theorem mem_blanks_of_leafBlanks {t : Tree Label} {l : Label} (h : l ∈ leafBlanks t) :
    l ∈ t.blanks :=
  (leafBlanks_sublist t).subset h

theorem isBlank_of_mem_leafBlanks {ts : List (Tree Label)} {l : Label}
    (h : l ∈ ts.flatMap leafBlanks) : l.isBlank = true := by
  obtain ⟨t, -, hl⟩ := List.mem_flatMap.1 h
  exact (Tree.mem_blanks.1 (mem_blanks_of_leafBlanks hl)).2

theorem mem_blanks_of_nodeBlanks {t : Tree Label} {l : Label} (h : l ∈ nodeBlanks t) :
    l ∈ t.blanks := by
  cases t with
  | var l => simp [nodeBlanks] at h
  | constant c => simp [nodeBlanks] at h
  | node kind ts => exact h

/-- The blanks of the children of a node are blanks of the node. -/
theorem mem_blanks_of_parts {ts : List (Tree Label)} {l : Label}
    (h : l ∈ ts.flatMap nodeBlanks ++ ts.flatMap leafBlanks) (kind : Kind) :
    l ∈ (Tree.node kind ts).blanks := by
  rw [Tree.blanks_node]
  rw [List.mem_append, List.mem_flatMap, List.mem_flatMap] at h
  rcases h with ⟨t, ht, hl⟩ | ⟨t, ht, hl⟩
  · exact List.mem_flatMap.2 ⟨t, ht, mem_blanks_of_nodeBlanks hl⟩
  · exact List.mem_flatMap.2 ⟨t, ht, mem_blanks_of_leafBlanks hl⟩

/-- The nodes among some trees are found in their registers. -/
def Stored (C : Setting) (off : Option Address) (d : Draft .standard) (s : Machine) (G : Env) :
    List (Tree Label) → List Int → Prop :=
  List.Forall₂ fun t r => (∃ kind us, t = .node kind us) →
    C.width ≤ r ∧ r < d.counters.top ∧ some (.reg r) ≠ off ∧
      ∃ u, s.mem (.reg r) = some u ∧ Builds G t u

theorem Stored.mono {ts : List (Tree Label)} {rs : List Int} (h : Stored C off d s G ts rs)
    (hp : Progress off ls d s G d' s' G') : Stored C off d' s' G' ts rs := by
  refine List.Forall₂.imp (fun t r hr hnode => ?_) h
  obtain ⟨hw, hlt, hne, u, hu, ht⟩ := hr hnode
  have hmem := hp.mem (.reg r) hlt hne
  exact ⟨hw, Int.lt_of_lt_of_le hlt hp.grows.top, hne, u, by rw [hmem, hu], ht.mono hp.env⟩

/-- What holds when all children of the node at an address are supplied. -/
structure Filled (C : Setting) (L : String → Prop) (a : Address) (kind : Kind)
    (us : List (Tree ℕ)) (ts : List (Tree Label)) (d : Draft .standard) (s : Machine) (G : Env)
    (d' : Draft .standard) (s' : Machine) (G' : Env) : Prop where
  reached : Reached C d' s'
  stage : Stage C L d' s' G'
  idle : s'.focus = .take []
  node : ∃ us', s'.mem a = some (.node kind (us ++ us')) ∧ List.Forall₂ (Builds G') ts us'
  progress : Progress (some a) (ts.flatMap leafBlanks) d s G d' s' G'

theorem Stage.fill {ts : List (Tree Label)} {rs : List Int} (h : Stage C L d s G)
    (hr : Reached C d s) (hoff : Off L d a) (ha : Allocated d.counters a)
    (hfill : s.Filling a kind ts.length us) (huse : ∀ l, .var l ∈ ts → Usable C L (.var l))
    (hnodup : (ts.flatMap leafBlanks).Nodup) (hblank : ∀ l ∈ ts.flatMap leafBlanks, G l = none)
    (hst : Stored C (some a) d s G ts rs) :
    ∃ s' G', Filled C L a kind us ts d s G (d.fill (ts.map Tree.names) rs) s' G' := by
  induction ts generalizing d s G us rs with
  | nil =>
    cases hst
    exact ⟨s, G, hr, h, hfill.1, ⟨[], by rw [List.append_nil]; exact hfill.2, .nil⟩,
      Progress.refl ..⟩
  | cons t ts ih =>
    cases hst with
    | @cons _ r _ rs hrt hrs =>
    rw [List.flatMap_cons, List.nodup_append] at hnodup
    obtain ⟨-, hnodup, hdisj⟩ := hnodup
    -- The first child is supplied from its register, or as a leaf.
    have hfirst : ∃ d₁ s₁ G₁, Supplied C L a kind ts.length us t (leafBlanks t) d s G d₁ s₁ G₁ ∧
        d.fill ((t :: ts).map Tree.names) (r :: rs) = d₁.fill (ts.map Tree.names) rs := by
      cases t with
      | node kind' ts' =>
        obtain ⟨-, -, -, u, hu, hb⟩ := hrt ⟨kind', ts', rfl⟩
        obtain ⟨s₁, G₁, h₁⟩ := h.supply_value hr hoff hfill hu hb
        exact ⟨_, s₁, G₁, h₁, by rw [List.map_cons, Tree.names_node, Draft.fill]⟩
      | var l =>
        obtain ⟨s₁, G₁, h₁⟩ := h.leaf hr hoff ha hfill (by simp) (huse l (by simp)) fun l' hl' =>
          hblank l' (List.mem_append_left _ hl')
        exact ⟨_, s₁, G₁, h₁, rfl⟩
      | constant c =>
        obtain ⟨s₁, G₁, h₁⟩ := h.supply_constant hr hoff hfill c
        exact ⟨_, s₁, G₁, h₁, rfl⟩
    obtain ⟨d₁, s₁, G₁, h₁, heq⟩ := hfirst
    obtain ⟨u, hfill₁, hu⟩ := h₁.child
    have hblank₁ : ∀ l ∈ ts.flatMap leafBlanks, G₁ l = none :=
      h₁.progress.unused
        (fun l hl => ⟨isBlank_of_mem_leafBlanks hl, fun hmem => hdisj l hmem l hl rfl⟩)
        (fun l hl => hblank l (List.mem_append_right _ hl))
    -- The other nodes are still in their registers, none of which is `a`.
    obtain ⟨s', G', h'⟩ := ih h₁.stage h₁.reached h₁.off (ha.mono h₁.progress.grows) hfill₁
      (fun l hl => huse l (by simp [hl])) hnodup hblank₁ (Stored.mono hrs h₁.progress)
    obtain ⟨us', hmem, hall⟩ := h'.node
    rw [heq]
    refine ⟨s', G', h'.reached, h'.stage, h'.idle, ⟨u :: us', ?_, ?_⟩, ?_⟩
    · rw [hmem, List.append_assoc, List.singleton_append]
    · exact List.Forall₂.cons (hu.mono h'.progress.env) hall
    · exact h₁.progress.trans h'.progress

/-! ### Nodes below an argument -/

/-- What holds when a tree below an argument is built in register `r`, if it is a node. -/
structure Built (C : Setting) (L : String → Prop) (t : Tree Label) (r : Int) (d : Draft .standard)
    (s : Machine) (G : Env) (d' : Draft .standard) (s' : Machine) (G' : Env) : Prop where
  reached : Reached C d' s'
  stage : Stage C L d' s' G'
  idle : s'.focus = .take []
  stored : (∃ kind us, t = .node kind us) →
    C.width ≤ r ∧ r < d'.counters.top ∧ ∃ u, s'.mem (.reg r) = some u ∧ Builds G' t u
  progress : Progress none (nodeBlanks t) d s G d' s' G'

/-- What holds when the nodes among some trees are built. -/
structure BuiltAll (C : Setting) (L : String → Prop) (ts : List (Tree Label)) (rs : List Int)
    (d : Draft .standard) (s : Machine) (G : Env) (d' : Draft .standard) (s' : Machine)
    (G' : Env) : Prop where
  reached : Reached C d' s'
  stage : Stage C L d' s' G'
  idle : s'.focus = .take []
  stored : Stored C none d' s' G' ts rs
  progress : Progress none (ts.flatMap nodeBlanks) d s G d' s' G'

/-- A tree below an argument that can be built at any point. -/
def Buildable (C : Setting) (L : String → Prop) (t : Tree Label) : Prop :=
  ∀ d s G, Stage C L d s G → Reached C d s → s.focus = .take [] → (∀ l ∈ t.blanks, G l = none) →
    ∃ s' G', Built C L t (d.build t.names).1 d s G (d.build t.names).2 s' G'

theorem Stage.buildAll {ts : List (Tree Label)} (hts : ∀ t ∈ ts, Buildable C L t)
    (h : Stage C L d s G) (hr : Reached C d s) (hidle : s.focus = .take [])
    (hnodup : (ts.flatMap Tree.blanks).Nodup) (hblank : ∀ l ∈ ts.flatMap Tree.blanks, G l = none) :
    ∃ s' G', BuiltAll C L ts (d.buildAll (ts.map Tree.names)).1 d s G
      (d.buildAll (ts.map Tree.names)).2 s' G' := by
  induction ts generalizing d s G with
  | nil => exact ⟨s, G, hr, h, hidle, List.Forall₂.nil, Progress.refl ..⟩
  | cons t ts ih =>
    rw [List.flatMap_cons, List.nodup_append] at hnodup
    obtain ⟨-, hnodup, hdisj⟩ := hnodup
    obtain ⟨s₁, G₁, h₁⟩ := hts t (by simp) d s G h hr hidle fun l hl =>
      hblank l (List.mem_append_left _ hl)
    have hblank₁ : ∀ l ∈ ts.flatMap Tree.blanks, G₁ l = none :=
      h₁.progress.unused
        (fun l hl => ⟨Tree.isBlank_of_mem_blanks hl, fun hmem =>
          hdisj l (mem_blanks_of_nodeBlanks hmem) l hl rfl⟩)
        (fun l hl => hblank l (List.mem_append_right _ hl))
    obtain ⟨s', G', h'⟩ := ih (fun t' ht' => hts t' (by simp [ht'])) h₁.stage h₁.reached h₁.idle
      hnodup hblank₁
    rw [List.map_cons, Draft.buildAll]
    refine ⟨s', G', h'.reached, h'.stage, h'.idle, List.Forall₂.cons (fun hnode => ?_) h'.stored,
      h₁.progress.trans h'.progress⟩
    obtain ⟨hw, hlt, u, hu, hb⟩ := h₁.stored hnode
    refine ⟨hw, Int.lt_of_lt_of_le hlt h'.progress.grows.top, by simp, u, ?_,
      hb.mono h'.progress.env⟩
    rw [h'.progress.mem (.reg _) hlt (by simp), hu]

/-- The blanks that are children of a node are not below a child that is a node. -/
theorem leafBlanks_not_nodeBlanks {ts : List (Tree Label)}
    (hnodup : (ts.flatMap Tree.blanks).Nodup) {l : Label} (hl : l ∈ ts.flatMap leafBlanks) :
    l ∉ ts.flatMap nodeBlanks := by
  intro hl'
  obtain ⟨t, ht, hlt⟩ := List.mem_flatMap.1 hl
  obtain ⟨t', ht', hlt'⟩ := List.mem_flatMap.1 hl'
  have hne : t ≠ t' := by
    rintro rfl
    cases t with
    | var l => simp [nodeBlanks] at hlt'
    | constant c => simp [nodeBlanks] at hlt'
    | node kind us => simp [leafBlanks] at hlt
  -- Different children have no blank in common.
  have hpair := (List.nodup_flatMap.1 hnodup).2
  have : Std.Symm (Function.onFun List.Disjoint Tree.blanks) :=
    ⟨fun _ _ h _ hl hl' => h hl' hl⟩
  exact hpair.forall ht ht' hne (mem_blanks_of_leafBlanks hlt) (mem_blanks_of_nodeBlanks hlt')

theorem nodup_leafBlanks {ts : List (Tree Label)} (hnodup : (ts.flatMap Tree.blanks).Nodup) :
    (ts.flatMap leafBlanks).Nodup := by
  refine hnodup.sublist ?_
  induction ts with
  | nil => exact List.Sublist.refl _
  | cons t ts ih =>
    rw [List.flatMap_cons, List.nodup_append] at hnodup
    exact (leafBlanks_sublist t).append (ih hnodup.2.1)

theorem BuiltAll.blank {ts : List (Tree Label)} {rs : List Int}
    (h : BuiltAll C L ts rs d s G d' s' G') (hnodup : (ts.flatMap Tree.blanks).Nodup)
    (hblank : ∀ l ∈ ts.flatMap Tree.blanks, G l = none) :
    ∀ l ∈ ts.flatMap leafBlanks, G' l = none := by
  refine h.progress.unused
    (fun l hl => ⟨isBlank_of_mem_leafBlanks hl, leafBlanks_not_nodeBlanks hnodup hl⟩)
    (fun l hl => hblank l ?_)
  obtain ⟨t, ht, hlt⟩ := List.mem_flatMap.1 hl
  exact List.mem_flatMap.2 ⟨t, ht, mem_blanks_of_leafBlanks hlt⟩

/-- The node at an address is begun and filled with its children. -/
theorem Stage.openNode (kind : Kind) {ts : List (Tree Label)} {rs : List Int}
    (h : Stage C L d s G) (hr : Reached C d s) (hidle : s.focus = .take []) (hoff : Off L d a)
    (ha : Allocated d.counters a) (hcell : kind = .cell → ts.length = 2)
    (huse : ∀ l, .var l ∈ ts → Usable C L (.var l)) (hnodup : (ts.flatMap leafBlanks).Nodup)
    (hblank : ∀ l ∈ ts.flatMap leafBlanks, G l = none) (hst : Stored C (some a) d s G ts rs)
    (level : Level) :
    ∃ s' G', Filled C L a kind [] ts d s G
      ((d.emit (kind.opener .build level ts.length a)).fill (ts.map Tree.names) rs) s' G' := by
  obtain ⟨hfill, hmem, hnext⟩ := Machine.filling_begin s a kind ts.length
  have hstage : Stage C L (d.emit (kind.opener .build level ts.length a))
      (s.begin a kind ts.length) G :=
    (h.change hnext fun x b hx hb => hmem b (hoff x b hx hb)).emit _
  have hprogress : Progress (some a) [] d s G (d.emit (kind.opener .build level ts.length a))
      (s.begin a kind ts.length) G :=
    ⟨Env.Le.refl G, fun _ _ _ => rfl, fun b _ hb => hmem b (by simpa using hb), Grows.refl _⟩
  obtain ⟨s', G', h'⟩ := hstage.fill (hr.emit (Machine.step_opener_build hidle hcell level a)) hoff
    ha hfill huse hnodup hblank (hst.mono hprogress)
  exact ⟨s', G', h'.reached, h'.stage, h'.idle, h'.node, hprogress.trans h'.progress⟩

theorem Stored.avoid {ts : List (Tree Label)} {rs : List Int} (h : Stored C none d s G ts rs)
    (ha : ∀ r : Int, C.width ≤ r → r < d.counters.top → .reg r ≠ a) :
    Stored C (some a) d s G ts rs := by
  refine List.Forall₂.imp (fun t r hr hnode => ?_) h
  obtain ⟨hw, hlt, -, hu⟩ := hr hnode
  exact ⟨hw, hlt, by simpa using ha r hw hlt, hu⟩

theorem Off.of_not_allocated (h : Stage C L d s G) (ha : ¬ Allocated d.counters a) : Off L d a :=
  fun _ _ _ hb => ne_of_not_allocated ha (h.allocated hb)

/-- A node below an argument is built at new addresses. -/
theorem Stage.build (t : Tree Label) (hproper : t.Proper) (huse : Usable C L t)
    (hnodup : t.blanks.Nodup) : Buildable C L t := by
  induction t with
  | var l =>
    intro d s G h hr hidle _
    exact ⟨s, G, hr, h, hidle, by simp, Progress.refl ..⟩
  | constant c =>
    intro d s G h hr hidle _
    exact ⟨s, G, hr, h, hidle, by simp, Progress.refl ..⟩
  | node kind ts ih =>
    intro d s G h hr hidle hblank
    obtain ⟨hcell, hts⟩ := Tree.proper_node_iff.1 hproper
    have huse' : ∀ t ∈ ts, Usable C L t := fun t ht x hx =>
      huse x (Tree.mem_vars_node.2 ⟨t, ht, hx⟩)
    rw [Tree.blanks_node] at hnodup hblank
    have hbuildable : ∀ t ∈ ts, Buildable C L t := fun t ht =>
      ih t ht (hts t ht) (huse' t ht) ((List.nodup_flatMap.1 hnodup).1 t ht)
    -- The nodes among the children come first, and then the node itself in a new register.
    obtain ⟨s₁, G₁, h₁⟩ := h.buildAll hbuildable hr hidle hnodup hblank
    rw [Tree.names_node, Draft.build]
    generalize hd₁ : d.buildAll (ts.map Tree.names) = b at h₁ ⊢
    obtain ⟨rs, d₁⟩ := b
    dsimp only at h₁ ⊢
    have hnew := not_allocated_temp d₁
    have hoff : Off L d₁ (.reg d₁.temp.1) := Off.of_not_allocated h₁.stage hnew
    have ha : Allocated d₁.temp.2.counters (.reg d₁.temp.1) := by
      show d₁.counters.top < d₁.counters.top + 1
      omega
    have htemp : Progress none [] d₁ s₁ G₁ d₁.temp.2 s₁ G₁ :=
      ⟨Env.Le.refl _, fun _ _ _ => rfl, fun _ _ _ => rfl, h₁.stage.layout.temp.2⟩
    -- The children are in registers that were there before the new one.
    have hst : Stored C (some (.reg d₁.temp.1)) d₁.temp.2 s₁ G₁ ts rs := by
      have hst₁ := h₁.stored.avoid (a := .reg d₁.temp.1) fun r _ hlt =>
        ne_of_not_allocated (b := .reg r) hnew hlt
      exact hst₁.mono (htemp.of_none _)
    have hr₁ : Reached C d₁.temp.2 s₁ := h₁.reached
    obtain ⟨s', G', h'⟩ := h₁.stage.temp.openNode kind hr₁ h₁.idle hoff ha hcell
      (fun l hl => huse' _ hl) (nodup_leafBlanks hnodup) (h₁.blank hnodup hblank) hst .deep
    rw [List.length_map]
    obtain ⟨us, hmem, hall⟩ := h'.node
    have hw := h₁.stage.layout.width_le
    refine ⟨s', G', h'.reached, h'.stage, h'.idle,
      fun _ => ⟨hw, ?_, _, hmem, Builds.node kind hall⟩, ?_⟩
    · exact Int.lt_of_lt_of_le ha h'.progress.grows.top
    · have hlast := ((htemp.of_none _).trans h'.progress).of_not_allocated hnew
      exact (h₁.progress.trans hlast).weaken fun l hl =>
        mem_blanks_of_parts (by simpa using hl) kind

end Building

end ClauseCode
