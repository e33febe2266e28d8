import ClauseCode.Proofs.Layout
import ClauseCode.Proofs.Mentions
import ClauseCode.Proofs.Names
import ClauseCode.Proofs.Tracing
import Mathlib.Order.Bounds.Basic

/-!
# What an allocation policy is asked

The compiler starts a policy once and asks it about each variable of a clause once, at the first
place that mentions the variable (`Draft.asks_visits`).  So the questions can be read off the
clause, and they do not depend on the policy (`Clause.policy_asked`).
-/

namespace ClauseCode

open Mention (note ofTerm)

/-! ### The questions of a draft -/

namespace Policy.Call

/-- Whether a call starts a policy. -/
def isStart : Call → Bool
  | start .. => true
  | _ => false

/-- The mention of a variable that a policy is asked about. -/
def mention? : Call → Option Mention
  | var x arg _ => some (x, arg)
  | _ => none

end Policy.Call

namespace Draft

open Policy (Call)

variable {P : Policy} {dir : Direction} {args : List Term} {k : ℕ} {x : String}
  {arg : Option Int} {ms ms' : List Mention} {d d' d'' : Draft (.traced P)}

/-- The calls of the policy so far, the last one first. -/
def log (d : Draft (.traced P)) : List Call :=
  let s : P.State × List Call := d.pool
  s.2

/-- The mentions that the policy was asked about. -/
def asked (d : Draft (.traced P)) : List Mention := d.log.filterMap Call.mention?

/-- The policy was asked about each variable that has an address. -/
def Tallied (d : Draft (.traced P)) : Prop := d.homes.map Prod.fst = d.asked.map Prod.fst

/-- From the first draft to the second, the policy is asked about the first mentions of variables
and about fresh registers, and it is not started again. -/
structure Asks (ms : List Mention) (d d' : Draft (.traced P)) : Prop where
  log : ∃ calls, d'.log = calls ++ d.log ∧ ∀ call ∈ calls, call.isStart = false
  tallied : d'.Tallied
  asked : d'.asked = ms.foldl note d.asked

theorem Asks.trans (h : Asks ms d d') (h' : Asks ms' d' d'') : Asks (ms ++ ms') d d'' := by
  obtain ⟨calls, hlog, hcalls⟩ := h.log
  obtain ⟨calls', hlog', hcalls'⟩ := h'.log
  refine ⟨⟨calls' ++ calls, by rw [hlog', hlog, List.append_assoc], fun call hcall => ?_⟩,
    h'.tallied, by rw [h'.asked, h.asked, List.foldl_append]⟩
  rcases List.mem_append.1 hcall with hcall | hcall
  · exact hcalls' call hcall
  · exact hcalls call hcall

/-- No variable is mentioned. -/
theorem Asks.quiet (h : d.Tallied) {calls : List Call} (hlog : d'.log = calls ++ d.log)
    (hcalls : ∀ call ∈ calls, call.isStart = false ∧ call.mention? = none)
    (hhomes : d'.homes.map Prod.fst = d.homes.map Prod.fst) : Asks [] d d' := by
  have hasked : d'.asked = d.asked := by
    have hnone : calls.filterMap Call.mention? = [] :=
      List.filterMap_eq_nil_iff.2 fun call hcall => (hcalls call hcall).2
    rw [Draft.asked, hlog, List.filterMap_append, hnone, List.nil_append]
    rfl
  refine ⟨⟨calls, hlog, fun call hcall => (hcalls call hcall).1⟩, ?_, hasked⟩
  rw [Tallied, hhomes, hasked]
  exact h

theorem Asks.refl (h : d.Tallied) : Asks [] d d :=
  Asks.quiet h (List.nil_append _).symm (by simp) rfl

theorem asks_temp (h : d.Tallied) : Asks [] d d.temp.2 := by
  have hlog : d.temp.2.log = [Call.temp d.temp.1] ++ d.log := rfl
  exact Asks.quiet h hlog (by simp [Call.isStart, Call.mention?]) rfl

/-- A variable that is met for the first time is asked about. -/
theorem asks_newVar (h : d.Tallied) (hx : d.home? x = none) (arg : Option Int) :
    Asks [(x, arg)] d (d.newVar x arg).2 := by
  have hlog : (d.newVar x arg).2.log = [Call.var x arg (d.newVar x arg).1] ++ d.log := rfl
  have hasked : (d.newVar x arg).2.asked = (x, arg) :: d.asked := rfl
  have hnot : x ∉ d.asked.map Prod.fst := h ▸ not_mem_homes_of_home? hx
  refine ⟨⟨_, hlog, by simp [Call.isStart]⟩, ?_, ?_⟩
  · rw [Tallied, hasked, List.map_cons, ← h]
    rfl
  · rw [hasked]
    exact (Mention.note_of_not_mem hnot).symm

/-- A variable that was met before is not asked about. -/
theorem asks_known (h : d.Tallied) {a : Address} (hx : d.home? x = some a) (arg : Option Int) :
    Asks [(x, arg)] d d := by
  have hmem : x ∈ d.asked.map Prod.fst := h ▸ List.mem_map.2 ⟨_, mem_homes_of_home? hx, rfl⟩
  refine ⟨(Asks.refl h).log, h, ?_⟩
  exact (Mention.note_of_mem hmem).symm

/-- An instruction is written. -/
theorem Asks.emit (h : Asks ms d d') (i : Instruction) : Asks ms d (d'.emit i) :=
  ⟨h.log, h.tallied, h.asked⟩

theorem asks_free (h : d.Tallied) (dir : Direction) (args : List Term) (t : Term) (k : ℕ) :
    Asks [] d (d.free dir args t k) := by
  have hcleared := cleared_free dir args t k d
  generalize d.free dir args t k = d' at hcleared ⊢
  cases hcleared with
  | same => exact Asks.refl h
  | kept => exact Asks.quiet h (List.nil_append _).symm (by simp) rfl
  | @moved _ x _ =>
    have hlog : (d.pick.2.moveAway x k).log = [Call.temp d.pick.2.temp.1] ++ d.log := rfl
    exact Asks.quiet h hlog (by simp [Call.isStart, Call.mention?])
      (map_fst_moveVar d.pick.2.temp.2 x _)

theorem asks_slot (h : d.Tallied) (o : Occurrence) : Asks [] d (d.slot o).2 := by
  cases hkey : d.slots.lookup (d.key o) with
  | some r =>
    rw [slot_of_known hkey]
    exact Asks.refl h
  | none =>
    rw [slot_of_unknown hkey]
    exact ⟨(asks_temp h).log, (asks_temp h).tallied, (asks_temp h).asked⟩

theorem asks_subterm (h : d.Tallied) (dir : Direction) (o : Occurrence) :
    Asks (ofTerm none o.term) d (d.subterm dir o) := by
  cases hkind : o.term.kind? with
  | some kind =>
    rw [subterm_node hkind, Mention.ofTerm_of_kind? hkind]
    exact (asks_slot h o).emit _
  | none =>
    rw [subterm_leaf hkind]
    rcases Term.var_or_constant hkind with ⟨x, hx⟩ | ⟨c, hc⟩
    · rw [hx, ofTerm, Term.read, leaf]
      by_cases hanonymous : x = Term.anonymous
      · rw [if_pos hanonymous, if_pos hanonymous]
        exact (Asks.refl h).emit _
      · rw [if_neg hanonymous, if_neg hanonymous]
        cases hhome : d.home? x with
        | some a => exact (asks_known h hhome none).emit _
        | none => exact (asks_newVar h hhome none).emit _
    · rw [hc, Mention.ofTerm_constant hc]
      exact (Asks.refl h).emit _

theorem asks_subterms (h : d.Tallied) (dir : Direction) (os : List Occurrence) :
    Asks ((os.map Occurrence.term).flatMap (ofTerm none)) d (os.foldl (subterm dir) d) := by
  induction os generalizing d with
  | nil => exact Asks.refl h
  | cons o os ih =>
    have hfirst := asks_subterm h dir o
    exact hfirst.trans (ih hfirst.tallied)

theorem asks_argVar (h : d.Tallied) (dir : Direction) (args : List Term) (k : ℕ) (x : String) :
    Asks (ofTerm (firstArg dir k) (.var x)) d (d.argVar dir args k x) := by
  rw [ofTerm]
  by_cases hx : x = Term.anonymous
  · subst hx
    rw [argVar_blank, if_pos rfl]
    cases dir with
    | check => exact Asks.refl h
    | build =>
      have hfree := asks_free h .build args (.var Term.anonymous) k
      exact (hfree.trans (asks_temp hfree.tallied)).emit _
  · rw [if_neg hx]
    cases hhome : d.home? x with
    | some a =>
      have hknown := asks_known h hhome (firstArg dir k)
      rw [argVar_known hx hhome]
      split
      · exact hknown
      · exact (hknown.trans (asks_free h dir args (.var x) k)).emit _
    | none =>
      have hnew := asks_newVar h hhome (firstArg dir k)
      rw [argVar_new hx hhome]
      dsimp only
      split
      · exact hnew
      · exact (hnew.trans (asks_free hnew.tallied dir args (.var x) k)).emit _

theorem asks_compoundReg (h : d.Tallied) (dir : Direction) (args : List Term) (k : ℕ)
    (o : Occurrence) : Asks [] d (d.compoundReg dir args k o).2 := by
  unfold compoundReg
  split
  · exact asks_free h dir args o.term k
  · exact asks_slot h o

theorem asks_visitAt (h : d.Tallied) (dir : Direction) (args : List Term) (k : ℕ)
    (o : Occurrence) : Asks (o.mentions dir k) d (d.visitAt dir args k o) := by
  rw [Occurrence.mentions]
  cases hkind : o.term.kind? with
  | some kind =>
    have hopen := (asks_compoundReg h dir args k o).emit
      (kind.opener dir o.level o.term.children.length (.reg (d.compoundReg dir args k o).1))
    have hsubterms := asks_subterms hopen.tallied dir o.children
    rw [Occurrence.map_term_children] at hsubterms
    rw [visitAt_node hkind, Mention.ofTerm_of_kind? hkind, ite_self]
    exact hopen.trans hsubterms
  | none =>
    rw [Term.children_eq_nil_of_kind? hkind, List.flatMap_nil, List.append_nil]
    by_cases hlevel : o.level = .shallow
    · rw [if_pos hlevel]
      rcases Term.var_or_constant hkind with ⟨x, hx⟩ | ⟨c, hc⟩
      · rw [visitAt_argVar hx hlevel, hx]
        exact asks_argVar h dir args k x
      · rw [visitAt_argConstant hc hlevel, Mention.ofTerm_constant hc]
        exact (asks_free h dir args o.term k).emit _
    · rw [if_neg hlevel, visitAt_leaf hkind hlevel]
      exact Asks.refl h

/-- Visits ask about the first mentions of variables. -/
theorem asks_visits (h : d.Tallied) (dir : Direction) (args : List Term) (os : List Occurrence) :
    Asks (Occurrence.mentionsFrom dir d.argsSeen os) d (os.foldl (visit dir args) d) := by
  induction os generalizing d with
  | nil => exact Asks.refl h
  | cons o os ih =>
    rw [List.foldl_cons, Occurrence.mentionsFrom, visit]
    by_cases hroot : o.isRoot = true
    · rw [if_pos hroot, if_pos hroot]
      exact ih h
    · rw [if_neg hroot, if_neg hroot]
      by_cases hlevel : o.level = .shallow
      · rw [if_pos hlevel, if_pos hlevel]
        have hcounted : ({ d with argsSeen := d.argsSeen + 1 } : Draft (.traced P)).Tallied := h
        -- `visitAt` leaves the count alone, so that the rest goes on with the next argument.
        have hvisit := asks_visitAt hcounted dir args d.argsSeen o
        have hrest := ih hvisit.tallied
        rw [argsSeen_visitAt] at hrest
        exact Asks.trans ⟨hvisit.log, hvisit.tallied, hvisit.asked⟩ hrest
      · rw [if_neg hlevel, if_neg hlevel]
        have hvisit := asks_visitAt h dir args 0 o
        have hrest := ih hvisit.tallied
        rw [argsSeen_visitAt] at hrest
        exact hvisit.trans hrest

end Draft

/-! ### The questions of a clause -/

namespace Compound

variable {P : Policy} {d d' : Draft (.traced P)}

theorem asks_code {dir : Direction} {c : Compound} {is : List Instruction}
    (hd : d.Tallied) (h : c.code dir d = .ok (is, d')) : Draft.Asks (c.mentions dir) d d' := by
  obtain ⟨-, rfl⟩ := code_eq_ok h
  have hstart : ({ d with argsSeen := 0, emitted := [] } : Draft (.traced P)).Tallied := hd
  have hvisits := Draft.asks_visits hstart dir c.args (dir.traversal c.toTerm).collect
  exact ⟨hvisits.log, hvisits.tallied, hvisits.asked⟩

theorem asks_goals {cs : List Compound} {gs : List CompiledGoal} (hd : d.Tallied)
    (h : goals d cs = .ok (gs, d')) : Draft.Asks (cs.flatMap (mentions .build)) d d' := by
  induction cs generalizing d gs with
  | nil =>
    obtain ⟨-, rfl⟩ := Prod.mk.inj (Except.ok.inj h)
    exact Draft.Asks.refl hd
  | cons c cs ih =>
    obtain ⟨is, d₁, gs₁, hcode, hgoals, rfl⟩ := goals_cons_eq_ok h
    have hfirst := asks_code hd hcode
    exact hfirst.trans (ih hfirst.tallied hgoals)

end Compound

namespace NormalClause

theorem exists_length_eq_width (n : NormalClause) :
    ∃ g ∈ n.head :: n.body, g.args.length = n.width := by
  have hfold : ∀ (cs : List Compound) (m : ℕ),
      cs.foldl (fun n g => max n g.args.length) m = m ∨
        ∃ g ∈ cs, g.args.length = cs.foldl (fun n g => max n g.args.length) m := by
    intro cs
    induction cs with
    | nil => exact fun m => Or.inl rfl
    | cons c cs ih =>
      intro m
      rw [List.foldl_cons]
      rcases ih (max m c.args.length) with heq | ⟨g, hg, heq⟩
      · rw [heq]
        rcases Nat.le_total m c.args.length with hle | hle
        · exact Or.inr ⟨c, by simp, (Nat.max_eq_right hle).symm⟩
        · exact Or.inl (Nat.max_eq_left hle)
      · exact Or.inr ⟨g, by simp [hg], heq⟩
  rcases hfold n.body n.head.args.length with heq | ⟨g, hg, heq⟩
  · exact ⟨n.head, by simp, heq.symm⟩
  · exact ⟨g, by simp [hg], heq⟩

/-- The width of a clause is the largest number of arguments of its head and its goals. -/
theorem isGreatest_width (n : NormalClause) :
    IsGreatest {m | ∃ g ∈ n.head :: n.body, g.args.length = m} n.width := by
  refine ⟨n.exists_length_eq_width, ?_⟩
  rintro m ⟨g, hg, rfl⟩
  rcases List.mem_cons.1 hg with rfl | hg
  · exact n.length_head_le
  · exact length_goal_le hg

/-- The calls of the policy start it and ask about the first mentions of the variables. -/
theorem asks_compile {P : Policy} {n : NormalClause} {k : CompiledClause} {s : P.State}
    {calls : List Policy.Call} (h : n.compile (.traced P) = .ok (k, s, calls)) :
    (∃ later, calls = later ++ [.start n.width n.permanent] ∧
      ∀ call ∈ later, call.isStart = false) ∧
      calls.filterMap Policy.Call.mention? = n.mentions.foldl note [] := by
  obtain ⟨d, d', hcode, hgoals, hs, -⟩ := compile_eq_ok h
  have hstart : (Draft.start (.traced P) n.width n.permanent).Tallied := rfl
  have hhead := Compound.asks_code hstart hcode
  have hall := hhead.trans (Compound.asks_goals hhead.tallied hgoals)
  have hlog : d'.log = calls := (congrArg Prod.snd hs).symm
  obtain ⟨later, hlater, hnot⟩ := hall.log
  refine ⟨⟨later, by rw [← hlog, hlater]; rfl, hnot⟩, ?_⟩
  rw [← hlog]
  exact hall.asked

end NormalClause

namespace Clause

variable {c : Clause} {n : NormalClause} {x : String}

theorem has_headCompound {t : Term} {g : Compound} (h : headCompound t = some g) :
    x ∈ t.read.vars ↔ g.Has x := by
  cases t with
  | atom name =>
    obtain rfl := Option.some.inj h
    simp [Term.read, Compound.Has]
  | comp f args b =>
    obtain rfl := Option.some.inj h
    exact Term.mem_vars_comp
  | int | var | list => simp [headCompound] at h

theorem has_goalCompound {t : Term} {g : Compound} (h : goalCompound t = some g) :
    x ∈ t.read.vars ↔ g.Has x := by
  cases t with
  | var y =>
    rw [goalCompound] at h
    split at h
    next => simp at h
    next =>
      obtain rfl := Option.some.inj h
      simp [Compound.Has]
  | atom | comp => exact has_headCompound h
  | int | list => simp [goalCompound] at h

theorem has_goalCompounds {ts : List Term} {gs : List Compound} (h : goalCompounds ts = .ok gs) :
    (∃ t ∈ ts, x ∈ t.read.vars) ↔ ∃ g ∈ gs, g.Has x := by
  replace h := forall₂_goalCompounds h
  induction h with
  | nil => simp
  | cons hg _ ih =>
    rw [List.exists_mem_cons_iff, List.exists_mem_cons_iff]
    exact or_congr (has_goalCompound hg) ih

/-- The normal form of a clause has the same variables. -/
theorem has_normalize (hn : c.normalize = .ok n) :
    c.Has x ↔ n.head.Has x ∨ ∃ g ∈ n.body, g.Has x := by
  obtain ⟨hhead, hbody⟩ := normalize_eq_ok hn
  exact or_congr (has_headCompound hhead) (has_goalCompounds hbody)

/-- What a policy is asked while a clause is compiled: `calls` are its calls, the last one first. -/
structure Asks (c : Clause) (n : NormalClause) (calls : List Policy.Call) : Prop where
  /-- The policy is started first, and once. -/
  started : ∃ later, calls = later ++ [.start n.width n.permanent] ∧
    ∀ call ∈ later, call.isStart = false
  /-- It is started for the largest number of arguments of the head and the goals. -/
  width : IsGreatest {m | ∃ g ∈ n.head :: n.body, g.args.length = m} n.width
  /-- It is not asked twice about a variable. -/
  once : ((calls.filterMap Policy.Call.mention?).map Prod.fst).Nodup
  /-- It is asked about the variables that occur, the anonymous one apart. -/
  named : ∀ x, (∃ arg, (x, arg) ∈ calls.filterMap Policy.Call.mention?) ↔
    x ≠ Term.anonymous ∧ c.Has x
  /-- It is told that a variable is an argument of the head, if the variable is neither an earlier
  argument nor directly below one. -/
  args : ∀ x arg, (x, arg) ∈ calls.filterMap Policy.Call.mention? → ∀ r : Int,
    arg = some r ↔ ∃ k : ℕ, r = k ∧ Compound.MeetsFirst n.head.args x k

/-- Any policy is started once and asked about each variable once, with the head argument that the
variable is if nothing before that argument mentions it.  That the calls are written down changes
nothing in the code. -/
theorem policy_asked (hn : c.normalize = .ok n) (P : Policy) :
    ∃ k s calls, c.compileWith (.traced P) = .ok (k, s, calls) ∧ c.compileWith P = .ok (k, s) ∧
      c.Asks n calls := by
  obtain ⟨k, d, hcompile, hnormal, -⟩ := Clause.exists_compileWith hn (.traced P)
  obtain ⟨hstarted, hasked⟩ := NormalClause.asks_compile hnormal
  refine ⟨k, _, _, hcompile, Clause.compileWith_traced hcompile, hstarted, n.isGreatest_width, ?_,
    fun x => ?_, fun x arg hmem r => ?_⟩
  · rw [hasked]
    exact Mention.nodup_foldl_note List.nodup_nil
  · simp only [hasked, Mention.mem_foldl_note_nil]
    rw [Mention.exists_find?_iff, NormalClause.exists_mem_mentions, has_normalize hn]
  · rw [hasked, Mention.mem_foldl_note_nil] at hmem
    exact NormalClause.find?_mentions hmem r

end Clause

/-- The clause `p(f(X), X, g(h(Z)), Z) :- q(Z, W, _)` in normal form. -/
def sharedNormal : NormalClause where
  head := ⟨"p", [.comp "f" [.var "X"] true, .var "X", .comp "g" [.comp "h" [.var "Z"] true] true,
    .var "Z"]⟩
  body := [⟨"q", [.var "Z", .var "W", .var "_"]⟩]

/-- In `p(f(X), X, g(h(Z)), Z) :- q(Z, W, _)`, the policy is told that `Z` is argument 3 of the
head, since before that `Z` is only mentioned further below; but it is not told that `X` is
argument 1.  In `p(X, Y) :- q(a, X)`, a policy with both variables in one register is asked for a
fresh register if `X` is come upon there. -/
theorem policy_asked_shared : sharedNormal.toClause.normalize = .ok sharedNormal ∧
    (∃ k s calls, sharedNormal.toClause.compileWith (.traced .standard) = .ok (k, s, calls) ∧
      sharedNormal.toClause.compileWith .standard = .ok (k, s) ∧
      sharedNormal.toClause.Asks sharedNormal calls ∧
      ("Z", some 3) ∈ calls.filterMap Policy.Call.mention? ∧
      ("X", none) ∈ calls.filterMap Policy.Call.mention?) ∧
    crowdedNormal.toClause.normalize = .ok crowdedNormal ∧
    ∃ k s calls,
      crowdedNormal.toClause.compileWith (.traced (.crowded .last)) = .ok (k, s, calls) ∧
      crowdedNormal.toClause.compileWith (.crowded .last) = .ok (k, s) ∧
      crowdedNormal.toClause.Asks crowdedNormal calls ∧ Policy.Call.temp 2 ∈ calls := by
  have hn : sharedNormal.toClause.normalize = .ok sharedNormal := rfl
  have hcrowded : crowdedNormal.toClause.normalize = .ok crowdedNormal := rfl
  obtain ⟨k, s, calls, htraced, hcompile, hasks⟩ := Clause.policy_asked hn .standard
  obtain ⟨k', s', calls', htraced', hcompile', hasks'⟩ :=
    Clause.policy_asked hcrowded (.crowded .last)
  have hcalls : (crowdedNormal.toClause.compileWith (.traced (.crowded .last))).toOption.map
      (fun r => r.2.2) = some [.temp 2, .var "Y" (some 1) (.reg 0), .var "X" (some 0) (.reg 0),
        .start 2 []] := rfl
  rw [htraced'] at hcalls
  have htemp : Policy.Call.temp 2 ∈ calls' := by
    obtain rfl : calls' = _ := Option.some.inj hcalls
    exact List.mem_cons_self
  refine ⟨hn, ⟨k, s, calls, htraced, hcompile, hasks, ?_, ?_⟩, hcrowded, k', s', calls', htraced',
    hcompile', hasks', htemp⟩
  · obtain ⟨arg, hmem⟩ := (hasks.named "Z").2 ⟨by decide, Or.inl (by decide)⟩
    have hfirst : Compound.MeetsFirst sharedNormal.head.args "Z" 3 := by
      refine ⟨rfl, fun j hj t ht => ?_⟩
      match j, hj with
      | 0, _ | 1, _ | 2, _ =>
        obtain rfl := Option.some.inj ht
        simp [Term.children]
    obtain rfl := (hasks.args "Z" arg hmem 3).2 ⟨3, rfl, hfirst⟩
    exact hmem
  · obtain ⟨arg, hmem⟩ := (hasks.named "X").2 ⟨by decide, Or.inl (by decide)⟩
    cases arg with
    | none => exact hmem
    | some r =>
      obtain ⟨k, -, harg, hearlier⟩ := (hasks.args "X" _ hmem r).1 rfl
      cases k with
      | zero => simp [sharedNormal] at harg
      | succ k => exact absurd (by simp [Term.children]) (hearlier 0 (Nat.succ_pos k) _ rfl).2

end ClauseCode
