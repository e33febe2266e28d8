import ClauseCode.Proofs.Arguments
import ClauseCode.Proofs.Permanence

/-!
# The code of the goals

After the head of a clause the code of its goals runs one after another, and after each the goal is
called.  A call keeps the stack, but may leave anything in the registers.  At each call the argument
registers hold the arguments of the goal: variables of the head stand for what they were matched
with, each other variable and each blank for a new variable of its own
(`Clause.goals_hold_arguments`).
-/

namespace ClauseCode

namespace Machine

/-- What is left as it was by a call: the stack, and the variables that are in use. -/
structure Returns (s s' : Machine) : Prop where
  focus : s'.focus = .take []
  stack : ∀ i, s'.mem (.stack i) = s.mem (.stack i)
  next : s.next ≤ s'.next

/-- Runs the code of goals from number `i` on, where `back` says how each call comes back.  The
answer are the states at the calls. -/
def runGoals (back : ℕ → Machine → Machine) (i : ℕ) (s : Machine) :
    List CompiledGoal → Except Fault (List Machine)
  | [] => .ok []
  | g :: gs =>
    match s.run g.code with
    | .error e => .error e
    | .ok s' =>
      match runGoals back (i + 1) (back i s') gs with
      | .error e => .error e
      | .ok calls => .ok (s' :: calls)

end Machine

open Draft Matching Building

namespace NormalClause

variable {n : NormalClause} {given : Label → Prop} {lo : ℕ} {d d' : Draft .standard}
  {s s' : Machine} {G G' : Env}

/-- What holds between two goals, if `pre` are the goals called and `cs` those to come. -/
structure Between (n : NormalClause) (given : Label → Prop) (lo : ℕ) (pre cs : List Compound)
    (d : Draft .standard) (s : Machine) (G : Env) : Prop where
  layout : Layout n.width n.head.args d
  permanent : d.counters.permanent = n.permanent
  focus : s.focus = .take []
  valid : ∀ x a, (∃ g ∈ cs, g.Has x) → d.home? x = some a →
    ∃ u, G (.named x) = some u ∧ s.mem a = some u
  unmet : ∀ x, d.home? x = none → G (.named x) = none
  seen : ∀ x a, d.home? x = some a →
    x ≠ Term.anonymous ∧ (n.head.Has x ∨ ∃ g ∈ pre, g.Has x)
  fresh : G.Fresh given lo s.next
  blank : ∀ i path, pre.length ≤ i → G (.blank i path) = none

/-- What stays the same while goal `g` is built. -/
def setting (n : NormalClause) (given : Label → Prop) (lo : ℕ) (pre : List Compound)
    (g : Compound) (s : Machine) : Setting where
  width := n.width
  head := n.head.args
  seen x := x ≠ Term.anonymous ∧ (n.head.Has x ∨ ∃ h ∈ pre ++ [g], h.Has x)
  given := given
  first := lo
  start := s

variable {pre cs : List Compound} {g : Compound}

theorem ready_setting (given : Label → Prop) (lo : ℕ) (hf : n.Faithful)
    (hbody : n.body = pre ++ g :: cs) (s : Machine) :
    Building.Ready (n.setting given lo pre g s) g.args (fun x => ∃ h ∈ cs, h.Has x)
      n.permanent where
  length_le := length_goal_le (by simp [hbody])
  named _ hx := hx.1
  seen t ht x hx hne := ⟨hne, Or.inr ⟨g, by simp, t, ht, hx⟩⟩
  occurs t ht x := Term.occurs_iff (hf.body g (by simp [hbody]) t ht)
  later x hx hlater := by
    cases pre with
    | nil =>
      rw [← List.nil_append cs] at hbody
      refine mem_permanent hf hbody hx.1 ?_ hlater
      simpa using hx.2
    | cons first pre =>
      rw [List.cons_append, ← List.singleton_append (l := cs), ← List.append_assoc] at hbody
      refine mem_permanent hf hbody hx.1 ?_ hlater
      simpa using hx.2

theorem Between.stage (h : n.Between given lo pre (g :: cs) d s G) :
    Stage (n.setting given lo pre g s) (Live g.args (fun x => ∃ h ∈ cs, h.Has x) 0)
      { d with emitted := [] } s G where
  layout := h.layout.congr (Grows.refl _) rfl
  valid x a hx ha := by
    refine h.valid x a ?_ ha
    rcases hx with ⟨t, ht, hxt⟩ | ⟨c, hc, hxc⟩
    · exact ⟨g, by simp, t, ht, hxt⟩
    · exact ⟨c, by simp [hc], hxc⟩
  unmet := h.unmet
  seen x a ha := by
    obtain ⟨hne, hx⟩ := h.seen x a ha
    refine ⟨hne, hx.imp_right fun ⟨c, hc, hxc⟩ => ⟨c, by simp [hc], hxc⟩⟩
  fresh := h.fresh

/-- The code of a goal leads to its call, and a call leads to the next goal. -/
theorem Between.step (hf : n.Faithful) (hbody : n.body = pre ++ g :: cs)
    (h : n.Between given lo pre (g :: cs) d s G) {back : Machine → Machine}
    (hback : ∀ s : Machine, s.Returns (back s)) :
    ∃ s' G', s.run (d.compose .build g.args).emitted.reverse = .ok s' ∧ Env.Le G G' ∧
      (∀ (j : ℕ) t, g.args[j]? = some t →
        ∃ u, s'.mem (.reg j) = some u ∧ Builds G' (t.read.label pre.length [j]) u) ∧
      n.Between given lo (pre ++ [g]) cs (d.compose .build g.args) (back s') G' := by
  have hready := ready_setting given lo hf hbody s
  have hstart : ({ d with emitted := [] } : Draft .standard).counters.permanent = n.permanent :=
    h.permanent
  obtain ⟨s', G', h'⟩ := h.stage.buildArgs hready hstart rfl h.focus g.args.drop_zero pre.length
    fun l hl => by
      obtain ⟨path, rfl⟩ := Tree.mem_blanks_labelAll hl
      exact h.blank _ path (Nat.le_refl _)
  change ArgsBuilt _ _ 0 _ s G (d.compose .build g.args) s' G' at h'
  obtain ⟨-, hgrows⟩ := h.layout.compose (fits_goal (g := g) (by simp [hbody]))
  have hperm := hgrows.permanent.trans h.permanent
  refine ⟨s', G', h'.reached, h'.env, fun j t ht => ?_, ?_⟩
  · have hj := h'.args j (t.read.label pre.length [j]) (by
      rw [Tree.getElem?_labelAll, List.getElem?_map, ht, Nat.zero_add]
      rfl)
    rwa [Nat.zero_add] at hj
  · refine ⟨h'.stage.layout, hperm, (hback s').focus, fun x a hx ha => ?_, h'.stage.unmet,
      h'.stage.seen, h'.stage.fresh.mono (hback s').next, fun i path hi => ?_⟩
    · -- What is needed later is permanent and lives on the stack.
      have hmem := hready.later x (h'.stage.seen x a ha) hx
      have hlives := h'.stage.layout.lives x a (mem_homes_of_home? ha)
      cases a with
      | reg r => exact absurd (hperm ▸ hmem) hlives.1
      | stack j =>
        rw [(hback s').stack j]
        exact h'.stage.valid x _ hx ha
    · rw [List.length_append, List.length_singleton] at hi
      rw [h'.blanks _ rfl fun hmem => ?_]
      · exact h.blank i path (by omega)
      · obtain ⟨path', heq⟩ := Tree.mem_blanks_labelAll hmem
        have := (Label.blank.inj heq).1
        omega

/-- The states at the calls of some goals, if an environment says what labels stand for. -/
def CallsHold (G : Env) (i : ℕ) (cs : List Compound) (calls : List Machine) : Prop :=
  calls.length = cs.length ∧ ∀ (j : ℕ) g call, cs[j]? = some g → calls[j]? = some call →
    ∀ (m : ℕ) t, g.args[m]? = some t →
      ∃ u, call.mem (.reg m) = some u ∧ Builds G (t.read.label (i + j) [m]) u

theorem Between.run (hf : n.Faithful) {gs : List CompiledGoal} (hcoded : Compound.Coded d cs gs d')
    (hbody : n.body = pre ++ cs) (h : n.Between given lo pre cs d s G)
    {back : ℕ → Machine → Machine} (hback : ∀ i (s : Machine), s.Returns (back i s)) :
    ∃ calls G' next, s.runGoals back pre.length gs = .ok calls ∧ Env.Le G G' ∧
      G'.Fresh given lo next ∧ CallsHold G' pre.length cs calls := by
  -- `pre` takes up the goals that were called.
  induction hcoded generalizing pre s G with
  | nil d => exact ⟨[], G, s.next, rfl, Env.Le.refl G, h.fresh, rfl, by simp⟩
  | @cons d d' c cs is gs hpack hrest ih =>
    obtain ⟨s₁, G₁, hrun, hle, hargs, h₁⟩ := h.step hf hbody (hback pre.length)
    rw [← Draft.expand_of_pack hpack, Machine.run_expand] at hrun
    obtain ⟨calls, G', next, hruns, hle', hfresh, hlen, hcalls⟩ := ih (by simpa using hbody) h₁
    rw [List.length_append, List.length_singleton] at hruns hcalls
    refine ⟨s₁ :: calls, G', next, ?_, hle.trans hle', hfresh, by simp [hlen], ?_⟩
    · rw [Machine.runGoals, hrun]
      dsimp only
      rw [hruns]
    · intro j g call hg hcall m t ht
      cases j with
      | zero =>
        obtain rfl : c = g := by simpa using hg
        obtain rfl : s₁ = call := by simpa using hcall
        obtain ⟨u, hu, hb⟩ := hargs m t ht
        exact ⟨u, hu, hb.mono hle'⟩
      | succ j =>
        rw [← Nat.add_assoc, Nat.add_right_comm]
        exact hcalls j g call (by simpa using hg) (by simpa using hcall) m t ht

/-! ### After the head -/

/-- The labels that the head of a clause gives a tree: those of its variables. -/
def Given (n : NormalClause) (l : Label) : Prop :=
  ∃ x, l = .named x ∧ x ≠ Term.anonymous ∧ n.head.Has x

/-- The environment after the head. -/
def headEnv (n : NormalClause) (s : Machine) : Env
  | .named x => ((n.afterHead .standard).home? x).bind s.mem
  | .blank .. => none

/-- Only variables of the head have an address after it. -/
theorem HeadDone.has {ts : List (Tree ℕ)} (h : n.HeadDone ts s s') {x : String} {a : Address}
    (hx : (n.afterHead .standard).home? x = some a) : x ≠ Term.anonymous ∧ n.head.Has x := by
  obtain ⟨σ, hσ⟩ := h.exists_matches
  by_contra hnot
  -- Otherwise the value of `x` could be changed without harm.
  let u : Tree ℕ := if σ x = .var 0 then .var 1 else .var 0
  have hne : σ x ≠ u := by
    by_cases h0 : σ x = .var 0 <;> simp [u, h0]
  have hσ' : n.HeadMatches ts (Function.update σ x u) := by
    refine forall₂_imp_of_mem hσ fun t ht v hv => ?_
    obtain ⟨t, hmem, rfl⟩ := List.mem_map.1 ht
    refine hv.congr fun y hy hya => ?_
    have hyx : y ≠ x := by
      rintro rfl
      exact hnot ⟨hya, t, hmem, hy⟩
    rw [Function.update_of_ne hyx]
  have h₁ := (h.iff σ).1 hσ x a hx
  have h₂ := (h.iff _).1 hσ' x a hx
  rw [h₁, Function.update_self, Option.some.injEq] at h₂
  exact hne h₂

theorem between_afterHead {ts : List (Tree ℕ)} (h : n.HeadDone ts s s') :
    n.Between n.Given s.next [] n.body (n.afterHead .standard) s' (n.headEnv s') := by
  obtain ⟨hlayout, hgrows⟩ := n.layout_afterHead
  have hgiven : ∀ l u, n.headEnv s' l = some u → n.Given l := by
    intro l u hl
    cases l with
    | named x =>
      obtain ⟨a, ha, -⟩ := Option.bind_eq_some_iff.1 hl
      exact ⟨x, rfl, h.has ha⟩
    | blank i path => simp [headEnv] at hl
  refine ⟨hlayout, hgrows.permanent, h.focus, fun x a _ ha => ?_, fun x hx => ?_, fun x a ha => ?_,
    ⟨Nat.le_of_eq h.kept.next.symm, fun l u hl hg => absurd (hgiven l u hl) hg,
      fun l l' u hl _ hg _ => absurd (hgiven l u hl) hg⟩, fun i path _ => rfl⟩
  · obtain ⟨v, hv⟩ := h.homes x a ha
    exact ⟨v, by rw [headEnv, ha]; exact hv, hv⟩
  · rw [headEnv, hx]
    rfl
  · obtain ⟨hne, hx⟩ := h.has ha
    exact ⟨hne, Or.inl hx⟩

/-- A label of the goals that is not a variable of the head. -/
def BodyLabel (n : NormalClause) (l : Label) : Prop :=
  ¬ n.Given l ∧ ∃ (i j : ℕ) (g : Compound) (t : Term),
    n.body[i]? = some g ∧ g.args[j]? = some t ∧ l ∈ (t.read.label i [j]).vars

/-- Labels of the goals that are not variables of the head stand for new variables, each for one of
its own: variables that were not in use before `first`. -/
structure StandForNew (n : NormalClause) (first : ℕ) (ρ : Label → Tree ℕ) : Prop where
  new : ∀ l, n.BodyLabel l → ∃ m, ρ l = .var m ∧ first ≤ m
  injective : ∀ l l', n.BodyLabel l → n.BodyLabel l' → ρ l = ρ l' → l = l'

theorem CallsHold.exists_of_bodyLabel {calls : List Machine} (h : CallsHold G 0 n.body calls)
    {l : Label} (hl : n.BodyLabel l) : ∃ u, G l = some u := by
  obtain ⟨-, i, j, g, t, hg, ht, hmem⟩ := hl
  obtain ⟨hi, -⟩ := List.getElem?_eq_some_iff.1 hg
  have hcall : calls[i]? = some (calls.get ⟨i, h.1 ▸ hi⟩) := by simp
  obtain ⟨u, -, hb⟩ := h.2 i g _ hg hcall j t ht
  rw [Nat.zero_add] at hb
  exact hb.exists_of_mem hmem

theorem CallsHold.standForNew {calls : List Machine} {next : ℕ} (h : CallsHold G 0 n.body calls)
    (hfresh : G.Fresh n.Given lo next) {ρ : Label → Tree ℕ}
    (hρ : ∀ l u, G l = some u → ρ l = u) : n.StandForNew lo ρ := by
  constructor
  · intro l hl
    obtain ⟨u, hu⟩ := h.exists_of_bodyLabel hl
    obtain ⟨m, rfl, hm, -⟩ := hfresh.new l u hu hl.1
    exact ⟨m, hρ l _ hu, hm⟩
  · intro l l' hl hl' heq
    obtain ⟨u, hu⟩ := h.exists_of_bodyLabel hl
    obtain ⟨u', hu'⟩ := h.exists_of_bodyLabel hl'
    rw [hρ l u hu, hρ l' u' hu'] at heq
    exact hfresh.injective l l' u hu (heq ▸ hu') hl.1 hl'.1

end NormalClause

/-- At each call the argument registers hold the arguments of the goal.  Variables of the head stand
for what the head was matched with; other variables and blanks stand for new variables, each for one
of its own.  Whatever the calls leave in the registers, and whichever new variables they take, the
code of the goals never fails.

That the clause is faithful is no restriction: the constructors of terms see to it
(`Term.Built.faithful`), and so does the reader (`Clause.faithful_ofJson`). -/
theorem Clause.goals_hold_arguments {c : Clause} {n : NormalClause} (hc : c.Faithful)
    (hn : c.normalize = .ok n) :
    ∃ k, c.compile = .ok k ∧
      ∀ (s s' : Machine) (ts : List (Tree ℕ)) (v : String → Tree ℕ)
        (back : ℕ → Machine → Machine),
        s.Called ts → ts.length = n.head.args.length → s.run k.head = .ok s' →
        n.HeadMatches ts v → (∀ i (m : Machine), m.Returns (back i m)) →
        ∃ calls ρ, s'.runGoals back 0 k.goals = .ok calls ∧ calls.length = n.body.length ∧
          (∀ x, x ≠ Term.anonymous → n.head.Has x → ρ (.named x) = v x) ∧
          n.StandForNew s.next ρ ∧
          ∀ (i j : ℕ) g t call, n.body[i]? = some g → g.args[j]? = some t →
            calls[i]? = some call →
            call.mem (.reg j) = some ((t.read.label i [j]).bind ρ) := by
  obtain ⟨k, d, d', -, -, hcompile, hcodes⟩ := Clause.exists_compile hn
  refine ⟨k, hcompile, fun s s' ts v back hs hlen hrun hv hback => ?_⟩
  rcases NormalClause.run_head hcodes hs hlen with ⟨s₁, hrun₁, hdone⟩ | ⟨hrun₁, -⟩
  · obtain rfl : s₁ = s' := by simpa [hrun] using hrun₁.symm
    obtain ⟨calls, G, next, hruns, hle, hfresh, hcalls⟩ :=
      (NormalClause.between_afterHead hdone).run (hc.normalize hn) hcodes.goals rfl hback
    rw [List.length_nil] at hruns hcalls
    -- A label that does not occur may stand for anything.
    let ρ : Label → Tree ℕ := fun l => (G l).getD (.var 0)
    have hρ : ∀ l u, G l = some u → ρ l = u := fun l u hl => by simp [ρ, hl]
    refine ⟨calls, ρ, hruns, hcalls.1, fun x hx hhas => hρ _ _ (hle _ _ ?_),
      hcalls.standForNew hfresh hρ, fun i j g t call hg ht hcall => ?_⟩
    -- A variable of the head has an address after it, and the environment began there.
    · obtain ⟨t, ht, hxt⟩ := hhas
      obtain ⟨a, ha⟩ := NormalClause.met_afterHead ht hxt hx
      rw [NormalClause.headEnv, ha]
      exact (hdone.iff v).1 hv x a ha
    · obtain ⟨u, hu, hb⟩ := hcalls.2 i g call hg hcall j t ht
      rw [Nat.zero_add] at hb
      rw [hu, hb ρ hρ]
  · simp [hrun] at hrun₁

/-- The clause `pathClause` in JSON. -/
def pathJson : Json :=
  .object [
    ("head", .object [("path", .array [.string "X",
      .object [("|", .array [.string "X", .string "Z"])]])]),
    ("body", .array [.object [("edge", .array [.string "X", .string "Y", .string "_"])],
      .object [("path", .array [.string "Y", .string "Z"])]])]

theorem faithful_pathClause : pathClause.Faithful :=
  Clause.faithful_ofJson .first (v := pathJson) rfl

/-- After the call `path(a, [a|b])`, the clause `path(X, [X|Z]) :- edge(X, Y, _), path(Y, Z)` calls
`edge(a, Y, _)` with two new variables, and `path(Y, b)` with the first of them. -/
theorem goals_hold_path : pathClause.Faithful ∧ pathClause.normalize = .ok pathNormal ∧
    ∃ k, pathClause.compile = .ok k ∧ ∀ (s s' : Machine) (back : ℕ → Machine → Machine),
      s.Called [.constant (.atom "a"), .node .cell [.constant (.atom "a"), .constant (.atom "b")]] →
      s.run k.head = .ok s' → (∀ i (m : Machine), m.Returns (back i m)) →
      ∃ call₁ call₂ y z, s'.runGoals back 0 k.goals = .ok [call₁, call₂] ∧ y ≠ z ∧
        call₁.mem (.reg 0) = some (.constant (.atom "a")) ∧
        call₁.mem (.reg 1) = some (.var y) ∧ call₁.mem (.reg 2) = some (.var z) ∧
        call₂.mem (.reg 0) = some (.var y) ∧
        call₂.mem (.reg 1) = some (.constant (.atom "b")) := by
  refine ⟨faithful_pathClause, rfl, ?_⟩
  obtain ⟨k, hk, hgoals⟩ :=
    Clause.goals_hold_arguments (n := pathNormal) faithful_pathClause rfl
  refine ⟨k, hk, fun s s' back hs hrun hback => ?_⟩
  let v : String → Tree ℕ := fun x =>
    if x = "X" then .constant (.atom "a") else .constant (.atom "b")
  have hv : pathNormal.HeadMatches
      [.constant (.atom "a"), .node .cell [.constant (.atom "a"), .constant (.atom "b")]] v := by
    simp [NormalClause.HeadMatches, pathNormal, Term.read, Term.readCells, Tree.Matches,
      Tree.MatchesAll, Term.anonymous, v]
  obtain ⟨calls, ρ, hcalls, hlen, hhead, hnew, hargs⟩ :=
    hgoals s s' _ v back hs rfl hrun hv hback
  obtain ⟨call₁, call₂, rfl⟩ := List.length_eq_two.1 hlen
  have hY : pathNormal.BodyLabel (.named "Y") := by
    refine ⟨?_, 0, 1, _, _, rfl, rfl, ?_⟩
    · simp [NormalClause.Given, Compound.Has, pathNormal, Term.read, Term.readCells]
    · simp [Term.read, Tree.label, Term.anonymous]
  have hblank : pathNormal.BodyLabel (.blank 0 [2]) := by
    refine ⟨?_, 0, 2, _, _, rfl, rfl, ?_⟩
    · simp [NormalClause.Given]
    · simp [Term.read, Tree.label, Term.anonymous]
  obtain ⟨y, hy, -⟩ := hnew.new _ hY
  obtain ⟨z, hz, -⟩ := hnew.new _ hblank
  have hX : ρ (.named "X") = .constant (.atom "a") :=
    hhead "X" (by decide) ⟨.var "X", by simp [pathNormal], by simp [Term.read]⟩
  have hZ : ρ (.named "Z") = .constant (.atom "b") :=
    hhead "Z" (by decide) ⟨.list (.var "X") [] (.var "Z") true, by simp [pathNormal],
      by simp [Term.read, Term.readCells]⟩
  refine ⟨call₁, call₂, y, z, hcalls, ?_, ?_, ?_, ?_, ?_, ?_⟩
  · rintro rfl
    simpa using hnew.injective _ _ hY hblank (hy.trans hz.symm)
  · simpa [Term.read, Tree.label, Term.anonymous, Tree.bind, hX] using
      hargs 0 0 _ _ call₁ rfl rfl rfl
  · simpa [Term.read, Tree.label, Term.anonymous, Tree.bind, hy] using
      hargs 0 1 _ _ call₁ rfl rfl rfl
  · simpa [Term.read, Tree.label, Term.anonymous, Tree.bind, hz] using
      hargs 0 2 _ _ call₁ rfl rfl rfl
  · simpa [Term.read, Tree.label, Term.anonymous, Tree.bind, hy] using
      hargs 1 0 _ _ call₂ rfl rfl rfl
  · simpa [Term.read, Tree.label, Term.anonymous, Tree.bind, hZ] using
      hargs 1 1 _ _ call₂ rfl rfl rfl

end ClauseCode
