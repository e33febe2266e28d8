import ClauseCode.Proofs.Steps

/-!
# Every variable gets an address

The code of a head or a goal gives an address to each variable that occurs there
(`covers_compose`), and no step takes the address of a variable away.
-/

namespace ClauseCode.Draft

variable {P : Policy} {dir : Direction} {args : List Term} {k : ℕ} {d d' : Draft P} {x : String}

/-- A draft gives a variable an address. -/
def Met (d : Draft P) (x : String) : Prop := ∃ a, d.home? x = some a

theorem Met.newVar (h : d.Met x) (y : String) (arg : Option Int) : (d.newVar y arg).2.Met x := by
  by_cases hxy : x = y
  · subst hxy
    exact ⟨_, home?_newVar_self d x arg⟩
  · obtain ⟨a, ha⟩ := h
    exact ⟨a, by rw [home?_newVar_of_ne d arg hxy, ha]⟩

theorem Cleared.met (hd : Cleared dir k d d') (h : d.Met x) : d'.Met x := by
  cases hd with
  | same | kept => exact h
  | @moved _ y _ =>
    obtain ⟨a, ha⟩ := h
    have hhome : (d.pick.2.moveAway y k).home? x =
        if x = y then (d.home? y).map fun _ => .reg d.pick.2.temp.1 else d.home? x :=
      home?_moveVar d.pick.2.temp.2 y x _
    by_cases hxy : x = y
    · subst hxy
      exact ⟨.reg d.pick.2.temp.1, by rw [hhome, if_pos rfl, ha, Option.map_some]⟩
    · exact ⟨a, by rw [hhome, if_neg hxy, ha]⟩

/-- No step takes away the address of a variable. -/
theorem Step.met {s s' : ℕ × Draft P} (h : Step dir args s s') (hs : s.2.Met x) : s'.2.Met x := by
  cases h with
  | blank | constant | known | attach | putAside | begin | resume | argSkip => exact hs
  | unknown | argStay => exact hs.newVar _ _
  | argBlank _ _ hd => exact hd.met hs
  | argKnown _ _ _ hd => exact hd.met hs
  | argUnknown _ _ _ _ hd => exact hd.met (hs.newVar _ _)
  | argConstant _ hd => exact hd.met hs
  | argNode _ hd => exact hd.met hs

theorem Steps.met {s s' : ℕ × Draft P} (h : Steps dir args s s') (hs : s.2.Met x) : s'.2.Met x :=
  h.preserves (I := fun s => s.2.Met x) (fun _ _ h hs => h.met hs) hs

/-- A draft gives an address to each variable of a tree. -/
def Covers (d : Draft P) (t : Tree String) : Prop := ∀ x ∈ t.vars, x ≠ Term.anonymous → d.Met x

theorem Steps.covers {s s' : ℕ × Draft P} (h : Steps dir args s s') {t : Tree String}
    (hs : s.2.Covers t) : s'.2.Covers t :=
  fun x hx hne => h.met (hs x hx hne)

theorem covers_node {kind : Kind} {ts : List (Tree String)} (h : ∀ t ∈ ts, d.Covers t) :
    d.Covers (.node kind ts) := by
  intro x hx hne
  obtain ⟨t, ht, hxt⟩ := Tree.mem_vars_node.1 hx
  exact h t ht x hxt hne

theorem covers_constant (d : Draft P) (c : Constant) : d.Covers (.constant c) := by
  intro x hx
  simp at hx

theorem covers_leaf (dir : Direction) (d : Draft P) (x : String) :
    (d.leaf dir (.var x)).Covers (.var x) := by
  intro y hy hne
  rw [Tree.vars_var, List.mem_singleton] at hy
  subst hy
  rw [leaf, if_neg hne]
  split
  next a ha => exact ⟨a, ha⟩
  next ha => exact ⟨_, home?_newVar_self d y none⟩

/-! ### Goals -/

theorem covers_fill {ts : List (Tree String)} {rs : List Int} (hready : Ready d ts rs)
    (hnodes : ∀ t ∈ ts, (∃ kind us, t = .node kind us) → d.Covers t) :
    ∀ t ∈ ts, (d.fill ts rs).Covers t := by
  induction ts generalizing d rs with
  | nil => simp
  | cons t ts ih =>
    cases hready with
    | @cons _ r _ rs hr hrs =>
    -- The instruction for the first child is one step, or none.
    have hfirst : ∃ d₁ : Draft P, Steps .build ([] : List Term) (0, d) (0, d₁) ∧ d₁.Covers t ∧
        d.fill (t :: ts) (r :: rs) = d₁.fill ts rs := by
      cases t with
      | node kind us =>
        have hstep : Steps .build ([] : List Term) (0, d) (0, _) :=
          (Step.attach rfl 0 (hr ⟨kind, us, rfl⟩)).steps
        exact ⟨_, hstep, hstep.covers (hnodes _ (by simp) ⟨kind, us, rfl⟩), rfl⟩
      | var x => exact ⟨_, steps_leaf .build [] 0 d _, covers_leaf .build d x, rfl⟩
      | constant c => exact ⟨_, steps_leaf .build [] 0 d _, covers_constant _ c, rfl⟩
    obtain ⟨d₁, hsteps, hcovers, heq⟩ := hfirst
    have hready₁ : Ready d₁ ts rs := Ready.mono hrs hsteps
    rw [heq]
    intro t' ht'
    rcases List.mem_cons.1 ht' with rfl | ht'
    · exact (steps_fill hready₁ (k := 0) : Steps .build ([] : List Term) _ _).covers hcovers
    · exact ih hready₁ (fun u hu hnode => hsteps.covers (hnodes u (by simp [hu]) hnode)) t' ht'

theorem covers_buildAll {ts : List (Tree String)}
    (hts : ∀ t ∈ ts, ∀ d : Draft P, (∃ kind us, t = .node kind us) → (d.build t).2.Covers t) :
    ∀ t ∈ ts, (∃ kind us, t = .node kind us) → (d.buildAll ts).2.Covers t := by
  induction ts generalizing d with
  | nil => simp
  | cons t ts ih =>
    rw [buildAll]
    intro t' ht' hnode
    rcases List.mem_cons.1 ht' with rfl | ht'
    · have hsteps : Steps .build ([] : List Term) (0, (d.build t').2)
          (0, ((d.build t').2.buildAll ts).2) :=
        (steps_buildAll fun t _ d => steps_build [] t 0 d).1
      exact hsteps.covers (hts _ (by simp) d hnode)
    · exact ih (fun u hu => hts u (by simp [hu])) t' ht' hnode

theorem covers_build (t : Tree String) (d : Draft P) (hnode : ∃ kind us, t = .node kind us) :
    (d.build t).2.Covers t := by
  induction t generalizing d with
  | var x => simp at hnode
  | constant c => simp at hnode
  | node kind ts ih =>
    obtain ⟨-, hready⟩ := steps_buildAll (d := d) fun t _ d => steps_build [] t 0 d
    have hbegin : Steps .build ([] : List Term) (0, (d.buildAll ts).2) (0, _) :=
      (Step.begin rfl 0 (d.buildAll ts).2 kind ts.length).steps
    refine covers_node (covers_fill (hready.mono hbegin) fun t ht hnode => hbegin.covers ?_)
    exact covers_buildAll (fun t ht d => ih t ht d) t ht hnode

theorem covers_argVar (hk : args[k]? = some (.var x)) (dir : Direction) (d : Draft P) :
    (d.argVar dir args k x).Covers (.var x) := by
  intro y hy hne
  rw [Tree.vars_var, List.mem_singleton] at hy
  subst hy
  cases hhome : d.home? y with
  | some a => exact (steps_argVar hk dir d).met ⟨a, hhome⟩
  | none =>
    have hmet : (d.newVar y (firstArg dir k)).2.Met y := ⟨_, home?_newVar_self d y _⟩
    rw [argVar_new hne hhome]
    dsimp only
    split
    · exact hmet
    · exact (cleared_free dir args _ k _).met hmet

theorem covers_buildArg {t : Term} (hk : args[k]? = some t) (d : Draft P) :
    (buildArg args k d t).Covers t.read := by
  rw [buildArg]
  split
  next x hx =>
    rw [hx]
    exact covers_argVar (by rw [hk, Term.read_eq_var_iff.1 hx]) .build d
  next c hc =>
    rw [hc]
    exact covers_constant _ c
  next kind ts ht =>
    obtain ⟨-, hready⟩ := steps_buildAll (d := d) fun t _ d => steps_build args t k d
    have hnode := steps_argNode hk .build (d.buildAll ts).2 kind ts.length
    rw [ht]
    refine covers_node (covers_fill (hready.mono hnode) fun t ht hn => hnode.covers ?_)
    exact covers_buildAll (fun t _ d => covers_build t d) t ht hn

theorem covers_buildArgs {ts : List Term} (hts : args.drop k = ts) :
    ∀ t ∈ ts, (buildArgs args k d ts).Covers t.read := by
  induction ts generalizing k d with
  | nil => simp
  | cons t ts ih =>
    obtain ⟨hk, hrest⟩ := drop_eq_cons hts
    intro t' ht'
    rcases List.mem_cons.1 ht' with rfl | ht'
    · exact (steps_buildArgs hrest).covers (covers_buildArg hk d)
    · exact ih hrest t' ht'

/-! ### Heads -/

theorem covers_split {ts : List (Tree String)} {t : Tree String} (ht : t ∈ ts) (d : Draft P) :
    (d.split ts).2.Covers t ∨ ∃ e ∈ (d.split ts).1, t = .node e.kind e.children := by
  induction ts generalizing d with
  | nil => simp at ht
  | cons t' ts ih =>
    rcases List.mem_cons.1 ht with rfl | hmem
    · cases t with
      | node kind us => exact Or.inr ⟨_, List.mem_cons_self, rfl⟩
      | var x =>
        have hsteps := (steps_split [] ts 0 (d.leaf .check (.var x))).1
        exact Or.inl (hsteps.covers (covers_leaf .check d x))
      | constant c => exact Or.inl (covers_constant _ c)
    · cases t' with
      | node kind us =>
        exact (ih hmem _).imp_right fun ⟨e, he, heq⟩ => ⟨e, List.mem_cons_of_mem _ he, heq⟩
      | var x => exact ih hmem _
      | constant c => exact ih hmem _

theorem covers_checkQueue {q : List Deferred} (hq : Stocked d q) :
    ∀ e ∈ q, (d.checkQueue q).Covers (.node e.kind e.children) := by
  fun_induction checkQueue d q with
  | case1 d => simp
  | case2 d e q s ih =>
    have hopen : Steps .check ([] : List Term) (0, d) (0, _) :=
      (Step.resume rfl 0 (hq e (by simp)) e.kind e.children.length).steps
    obtain ⟨hsplit, hstocked⟩ := steps_split [] e.children 0
      (d.emit (e.kind.opener .check .deep e.children.length (.reg e.reg)))
    have hrest : Stocked d q := fun e' he' => hq e' (by simp [he'])
    have hall := (hrest.mono (hopen.trans hsplit)).append hstocked
    intro e' he'
    rcases List.mem_cons.1 he' with rfl | he'
    -- A child is met at once, or joins the end of the queue.
    · refine covers_node fun t ht => ?_
      rcases covers_split ht (d.emit (e'.kind.opener .check .deep e'.children.length (.reg e'.reg)))
        with hcovers | ⟨e, he, rfl⟩
      · have hsteps : Steps .check ([] : List Term) (0, s.2) (0, _) := steps_checkQueue hall
        exact hsteps.covers hcovers
      · exact ih hall e (List.mem_append_right _ he)
    · exact ih hall e' (List.mem_append_left _ he')

theorem covers_checkArg {t : Term} (hk : args[k]? = some t) (d : Draft P) :
    ∀ x ∈ t.read.vars, x ≠ Term.anonymous → (checkArg args k d t).2.Met x ∨
      ∃ e ∈ (checkArg args k d t).1, x ∈ (Tree.node e.kind e.children).vars := by
  intro x hx hne
  rw [checkArg]
  split
  next y hy =>
    rw [hy] at hx
    exact Or.inl (covers_argVar (by rw [hk, Term.read_eq_var_iff.1 hy]) .check d x hx hne)
  next c hc => simp [hc] at hx
  next kind ts ht =>
    rw [ht] at hx
    obtain ⟨u, hu, hxu⟩ := Tree.mem_vars_node.1 hx
    rcases covers_split hu (d.emit (kind.opener .check .shallow ts.length (.reg k)))
      with hcovers | ⟨e, he, rfl⟩
    · exact Or.inl (hcovers x hxu hne)
    · exact Or.inr ⟨e, he, hxu⟩

theorem covers_checkArgs {ts : List Term} (hts : args.drop k = ts) :
    ∀ t ∈ ts, ∀ x ∈ t.read.vars, x ≠ Term.anonymous → (checkArgs args k d ts).2.Met x ∨
      ∃ e ∈ (checkArgs args k d ts).1, x ∈ (Tree.node e.kind e.children).vars := by
  induction ts generalizing k d with
  | nil => simp
  | cons t ts ih =>
    obtain ⟨hk, hrest⟩ := drop_eq_cons hts
    intro t' ht' x hx hne
    rcases List.mem_cons.1 ht' with rfl | ht'
    · rcases covers_checkArg hk d x hx hne with hmet | ⟨e, he, hxe⟩
      · exact Or.inl ((steps_checkArgs hrest).1.met hmet)
      · exact Or.inr ⟨e, List.mem_append_left _ he, hxe⟩
    · exact (ih hrest t' ht' x hx hne).imp_right fun ⟨e, he, hxe⟩ =>
        ⟨e, List.mem_append_right _ he, hxe⟩

/-- The code of a head or a goal gives an address to each variable that occurs there. -/
theorem covers_compose (dir : Direction) (d : Draft P) {t : Term} (ht : t ∈ args) :
    (d.compose dir args).Covers t.read := by
  cases dir with
  | build => exact covers_buildArgs args.drop_zero t ht
  | check =>
    obtain ⟨-, hstocked⟩ := steps_checkArgs (d := { d with emitted := [] }) (args.drop_zero)
    intro x hx hne
    rcases covers_checkArgs args.drop_zero t ht x hx hne with hmet | ⟨e, he, hxe⟩
    · exact (steps_checkQueue hstocked : Steps .check args (0, _) (0, _)).met hmet
    · exact covers_checkQueue hstocked e he x hxe hne

end ClauseCode.Draft
