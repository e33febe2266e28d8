import ClauseCode.Proofs.Operations

/-!
# Policies that answer alike

The compiler sees nothing of an allocation policy but its answers.  If the states of one policy can
be mapped to states of another so that both answer alike, then they give the same code, and the map
takes the final state of the one to that of the other (`Clause.compileWith_follows`).  They need to
answer alike only in the states that the compiler goes through.

In particular, writing down the calls of a policy changes nothing (`Clause.compileWith_traced`).
-/

namespace ClauseCode

/-- A map from the states of a policy to those of another that answers alike while `I` holds. -/
structure Policy.Follows (P Q : Policy) (f : P.State → Q.State) (I : Draft P → Prop) : Prop where
  start : ∀ numArgs permanent, Q.start numArgs permanent = f (P.start numArgs permanent)
  var : ∀ (d : Draft P) x arg, I d → I (d.newVar x arg).2 →
    Q.var (f d.pool) x arg = ((P.var d.pool x arg).1, f (P.var d.pool x arg).2)
  temp : ∀ d : Draft P, I d → Q.temp (f d.pool) = ((P.temp d.pool).1, f (P.temp d.pool).2)
  registers : ∀ d : Draft P, I d → Q.registers (f d.pool) = P.registers d.pool
  pick : ∀ d : Draft P, I d → Q.pick (f d.pool) = ((P.pick d.pool).1, f (P.pick d.pool).2)

/-- A policy answers as it does when its calls are written down. -/
theorem Policy.follows_traced (P : Policy) : Follows (.traced P) P Prod.fst fun _ => True where
  start _ _ := rfl
  var _ _ _ _ _ := rfl
  temp _ _ := rfl
  registers _ _ := rfl
  pick _ _ := rfl

namespace Draft

variable {P Q : Policy} {f : P.State → Q.State} {I : Draft P → Prop}

/-- A draft with another state of the policy. -/
def mapPool (f : P.State → Q.State) (d : Draft P) : Draft Q :=
  ⟨f d.pool, d.homes, d.slots, d.part, d.argsSeen, d.emitted⟩

section

variable {d : Draft P} {dir : Direction} {args : List Term} {t : Term} {k : ℕ} {x : String}
  {o : Occurrence} {arg : Option Int} (hf : Policy.Follows P Q f I)
include hf

theorem temp_mapPool (h : I d) : (d.mapPool f).temp = (d.temp.1, d.temp.2.mapPool f) := by
  show ((Q.temp (f d.pool)).1, (⟨(Q.temp (f d.pool)).2, _, _, _, _, _⟩ : Draft Q)) = _
  rw [hf.temp d h]
  rfl

theorem pick_mapPool (h : I d) : (d.mapPool f).pick = (d.pick.1, d.pick.2.mapPool f) := by
  show ((Q.pick (f d.pool)).1, (⟨(Q.pick (f d.pool)).2, _, _, _, _, _⟩ : Draft Q)) = _
  rw [hf.pick d h]
  rfl

theorem newVar_mapPool (h : Always I d (d.newVarOps x arg)) :
    (d.mapPool f).newVar x arg = ((d.newVar x arg).1, (d.newVar x arg).2.mapPool f) := by
  rw [newVar_eq]
  show ((Q.var (f d.pool) x arg).1, (⟨(Q.var (f d.pool) x arg).2,
    (x, (Q.var (f d.pool) x arg).1) :: d.homes, _, _, _, _⟩ : Draft Q)) = _
  rw [hf.var d x arg h.initial h.final]
  rfl

theorem slot_mapPool (h : Always I d (d.slotOps o)) :
    (d.mapPool f).slot o = ((d.slot o).1, (d.slot o).2.mapPool f) := by
  cases hslot : d.slots.lookup (d.key o) with
  | some r =>
    have hslot' : (d.mapPool f).slots.lookup ((d.mapPool f).key o) = some r := hslot
    rw [slot_of_known hslot, slot_of_known hslot']
  | none =>
    have hslot' : (d.mapPool f).slots.lookup ((d.mapPool f).key o) = none := hslot
    rw [slot_of_unknown hslot, slot_of_unknown hslot', temp_mapPool hf h.initial]
    rfl

theorem resident_mapPool (h : I d) (k : ℕ) :
    (d.mapPool f).resident k = ((d.resident k).1, (d.resident k).2.mapPool f) := by
  have hresidents : (d.mapPool f).residents k = d.residents k := rfl
  unfold resident
  rw [hresidents]
  cases d.residents k with
  | nil => rfl
  | cons x xs =>
    dsimp only
    rw [pick_mapPool hf h]

theorem relocate_mapPool (h : Always I d (d.freeOps .build args t k)) :
    (d.mapPool f).relocate args t k =
      ((d.relocate args t k).1, (d.relocate args t k).2.mapPool f) := by
  unfold relocate
  rw [resident_mapPool hf h.initial]
  unfold freeOps at h
  rcases resident_cases d k with ⟨-, hres⟩ | ⟨x, -, hres⟩
  · rw [hres]
  · rw [hres] at h ⊢
    dsimp only at h ⊢
    by_cases hneed : isNeeded args t k x = true
    · rw [if_pos hneed] at h
      have hpick : I d.pick.2 := (always_cons.1 h).2.initial
      rw [if_pos hneed, if_pos hneed, temp_mapPool hf hpick]
      rfl
    · rw [if_neg hneed, if_neg hneed]

theorem free_mapPool (h : Always I d (d.freeOps dir args t k)) :
    (d.mapPool f).free dir args t k = (d.free dir args t k).mapPool f := by
  cases dir with
  | check => rfl
  | build =>
    unfold free
    dsimp only
    rw [relocate_mapPool hf h]
    generalize d.relocate args t k = r
    obtain ⟨r, d'⟩ := r
    cases r <;> rfl

theorem subterm_mapPool (h : Always I d (d.subtermOps dir o)) :
    (d.mapPool f).subterm dir o = (d.subterm dir o).mapPool f := by
  obtain ⟨t, depth, path⟩ := o
  cases t with
  | var x =>
    simp only [subtermOps] at h
    simp only [subterm]
    by_cases hx : x = Term.anonymous
    · rw [if_pos hx, if_pos hx]
      rfl
    · rw [if_neg hx] at h
      rw [if_neg hx, if_neg hx]
      have hhome : (d.mapPool f).home? x = d.home? x := rfl
      rw [hhome]
      cases hd : d.home? x with
      | some a => rfl
      | none =>
        simp only [hd] at h
        dsimp only
        rw [newVar_mapPool hf h.left]
        rfl
  | atom | int => rfl
  | comp | list =>
    simp only [subtermOps] at h
    simp only [subterm]
    rw [slot_mapPool hf h.left]
    rfl

theorem foldl_subterm_mapPool {os : List Occurrence} (h : Always I d (subtermsOps dir d os)) :
    os.foldl (subterm dir) (d.mapPool f) = (os.foldl (subterm dir) d).mapPool f := by
  induction os generalizing d with
  | nil => rfl
  | cons o os ih =>
    rw [List.foldl_cons, List.foldl_cons, subterm_mapPool hf h.left,
      ih (h.right (performAll_subtermOps dir d o))]

theorem argVar_mapPool (h : Always I d (d.argVarOps dir args k x)) :
    (d.mapPool f).argVar dir args k x = (d.argVar dir args k x).mapPool f := by
  unfold argVarOps at h
  by_cases hx : x = Term.anonymous
  · subst hx
    rw [argVar_blank, argVar_blank]
    cases dir with
    | check => rfl
    | build =>
      rw [if_pos rfl] at h
      dsimp only at h ⊢
      have htemp := (h.right (performAll_freeOps .build args _ k d)).initial
      rw [free_mapPool hf h.left, temp_mapPool hf htemp]
      rfl
  · rw [if_neg hx] at h
    cases hhome : d.home? x with
    | some a =>
      have hhome' : (d.mapPool f).home? x = some a := hhome
      rw [argVar_known hx hhome, argVar_known hx hhome']
      simp only [hhome] at h
      by_cases ha : a = .reg k
      · rw [if_pos ha, if_pos ha]
      · rw [if_neg ha] at h
        rw [if_neg ha, if_neg ha, free_mapPool hf h.left]
        rfl
    | none =>
      have hhome' : (d.mapPool f).home? x = none := hhome
      simp only [hhome] at h
      rw [argVar_new hx hhome, argVar_new hx hhome', newVar_mapPool hf h.left]
      dsimp only
      have hrest := h.right (performAll_newVarOps d x _)
      by_cases ha : (d.newVar x (firstArg dir k)).1 = .reg k
      · rw [if_pos ha, if_pos ha]
      · rw [if_neg ha] at hrest
        rw [if_neg ha, if_neg ha, free_mapPool hf hrest.left]
        rfl

theorem compoundReg_mapPool (h : Always I d (d.compoundRegOps dir args k o)) :
    (d.mapPool f).compoundReg dir args k o =
      ((d.compoundReg dir args k o).1, (d.compoundReg dir args k o).2.mapPool f) := by
  unfold compoundRegOps at h
  unfold compoundReg
  cases hlevel : o.level with
  | shallow =>
    rw [hlevel] at h
    dsimp only at h ⊢
    rw [free_mapPool hf h]
  | deep | other =>
    rw [hlevel] at h
    exact slot_mapPool hf h

theorem visitAt_mapPool (h : Always I d (d.visitAtOps dir args k o)) :
    (d.mapPool f).visitAt dir args k o = (d.visitAt dir args k o).mapPool f := by
  unfold visitAtOps at h
  cases hkind : o.term.kind? with
  | some kind =>
    rw [hkind] at h
    dsimp only at h
    have hsubterms := (always_cons.1 (h.right (performAll_compoundRegOps dir args k o d))).2
    rw [visitAt_node hkind, visitAt_node hkind, compoundReg_mapPool hf h.left]
    exact foldl_subterm_mapPool hf hsubterms
  | none =>
    rw [hkind] at h
    dsimp only at h
    by_cases hlevel : o.level = .shallow
    · rw [if_pos hlevel] at h
      rcases Term.var_or_constant hkind with ⟨x, hx⟩ | ⟨c, hc⟩
      · rw [hx] at h
        rw [visitAt_argVar hx hlevel, visitAt_argVar hx hlevel, argVar_mapPool hf h]
      · rw [hc] at h
        rw [visitAt_argConstant hc hlevel, visitAt_argConstant hc hlevel, argConstant, argConstant,
          free_mapPool hf h.left]
        rfl
    · rw [visitAt_leaf hkind hlevel, visitAt_leaf hkind hlevel]

theorem visit_mapPool (h : Always I d (d.visitOps dir args o)) :
    (d.mapPool f).visit dir args o = (d.visit dir args o).mapPool f := by
  unfold visitOps at h
  unfold visit
  split
  next => rfl
  next hroot =>
    rw [if_neg hroot] at h
    split
    next hlevel =>
      rw [if_pos hlevel] at h
      exact visitAt_mapPool hf (always_cons.1 h).2
    next hlevel =>
      rw [if_neg hlevel] at h
      exact visitAt_mapPool hf h

theorem foldl_visit_mapPool {os : List Occurrence} (h : Always I d (visitsOps dir args d os)) :
    os.foldl (visit dir args) (d.mapPool f) = (os.foldl (visit dir args) d).mapPool f := by
  induction os generalizing d with
  | nil => rfl
  | cons o os ih =>
    rw [List.foldl_cons, List.foldl_cons, visit_mapPool hf h.left,
      ih (h.right (performAll_visitOps dir args d o))]

end

end Draft

open Draft (Always)

variable {P Q : Policy} {f : P.State → Q.State} {I : Draft P → Prop}

section

variable (hf : Policy.Follows P Q f I)
include hf

theorem Compound.code_mapPool {dir : Direction} {c : Compound} {d d' : Draft P}
    {is : List Instruction} (hI : Always I d (c.codeOps dir d)) (h : c.code dir d = .ok (is, d')) :
    c.code dir (d.mapPool f) = .ok (is, d'.mapPool f) := by
  obtain ⟨hpack, rfl⟩ := code_eq_ok h
  have hwrite : (d.mapPool f).write dir c = (d.write dir c).mapPool f :=
    Draft.foldl_visit_mapPool hf (Draft.always_cons.1 hI).2.left
  have hemitted : ((d.write dir c).mapPool f).emitted = (d.write dir c).emitted := rfl
  rw [code, hwrite, hemitted, hpack]
  rfl

theorem Compound.goals_mapPool {cs : List Compound} {d d' : Draft P} {gs : List CompiledGoal}
    (hI : Always I d (goalsOps d cs)) (h : goals d cs = .ok (gs, d')) :
    goals (d.mapPool f) cs = .ok (gs, d'.mapPool f) := by
  induction cs generalizing d gs with
  | nil =>
    obtain ⟨rfl, rfl⟩ := Prod.mk.inj (Except.ok.inj h)
    rfl
  | cons c cs ih =>
    obtain ⟨is, d₁, gs₁, hcode, hgoals, rfl⟩ := goals_cons_eq_ok h
    have hrest : Always I d₁ (goalsOps d₁ cs) := by
      have hd₁ := performAll_codeOps hcode
      have hright := hI.right hd₁
      rwa [hd₁] at hright
    rw [goals, code_mapPool hf hI.left hcode]
    dsimp only
    rw [ih hrest hgoals]

/-- Policies that answer alike in the states that the compiler goes through give the same code. -/
theorem NormalClause.compile_follows {n : NormalClause} {k : CompiledClause} {s : P.State}
    (hI : Always I (Draft.start P n.width n.permanent) (n.operations P))
    (h : n.compile P = .ok (k, s)) : n.compile Q = .ok (k, f s) := by
  have hstart : Draft.start Q n.width n.permanent =
      (Draft.start P n.width n.permanent).mapPool f := by
    rw [Draft.start, hf.start]
    rfl
  obtain ⟨d, d', hcode, hgoals, rfl, hk⟩ := compile_eq_ok h
  have hd := Compound.performAll_codeOps hcode
  have hrest : Always I d (Compound.goalsOps d n.body) := by
    have hright := hI.right hd
    rwa [hd] at hright
  have hfinal : I d' := by
    rw [← Compound.performAll_goalsOps hgoals]
    exact hrest.final
  rw [compile, hstart, Compound.code_mapPool hf hI.left hcode]
  dsimp only
  rw [Compound.goals_mapPool hf hrest hgoals, hk]
  dsimp only [Draft.mapPool]
  rw [hf.registers d' hfinal]

theorem Clause.compileWith_follows {c : Clause} {k : CompiledClause} {s : P.State}
    (hI : ∀ n, c.normalize = .ok n →
      Always I (Draft.start P n.width n.permanent) (n.operations P))
    (h : c.compileWith P = .ok (k, s)) : c.compileWith Q = .ok (k, f s) := by
  rw [compileWith] at h
  split at h
  next => simp at h
  next n hn =>
    split at h
    next => simp at h
    next r hcompile =>
      obtain rfl := Except.ok.inj h
      rw [compileWith, hn]
      dsimp only
      rw [NormalClause.compile_follows hf (hI n hn) hcompile]

end

/-- Writing down the calls of a policy changes nothing else. -/
theorem Clause.compileWith_traced {c : Clause} {k : CompiledClause} {s : P.State}
    {calls : List Policy.Call} (h : c.compileWith (.traced P) = .ok (k, s, calls)) :
    c.compileWith P = .ok (k, s) :=
  compileWith_follows P.follows_traced (fun _ _ _ _ => trivial) h

end ClauseCode
