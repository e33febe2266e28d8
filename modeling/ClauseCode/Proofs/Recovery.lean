import ClauseCode.Proofs.GoalCode
import ClauseCode.Proofs.Names
import ClauseCode.Proofs.Variants

/-!
# Code determines the clause

Two clauses with the same code are the same up to the names of their variables, if each occurrence
of the anonymous variable counts as a variable of its own (`Clause.variants_of_sameCode`).

The code is not taken apart for this; it is run.  A run of the code of a clause shows what the
labels of the clause stand for (`NormalClause.Interprets`): its head, with these trees in place of
labels, is the call, and its goals are the calls that it makes.  The code of the first clause is run
at the call that is its own head, with its variables numbered.  There, labels of the first clause
stand for distinct variables.  The run is one of the second clause as well.  So the first head is an
instance of the second, and likewise the second is one of the first; labels of the second clause
therefore stand for distinct variables, too.
-/

namespace ClauseCode

open Draft

/-! ### Labels for a whole clause -/

/-- The same variable, if the goals are numbered from one on. -/
def Label.later : Label → Label
  | named x => named x
  | blank i path => blank (i + 1) path

namespace Tree

theorem labelAll_succ {i : ℕ} {path : List ℕ} {ts : List (Tree String)}
    (h : ∀ t ∈ ts, ∀ path, t.label (i + 1) path = (t.label i path).rename Label.later) (j : ℕ) :
    labelAll (i + 1) path j ts = (labelAll i path j ts).map (rename Label.later) := by
  induction ts generalizing j with
  | nil => rfl
  | cons t ts ih =>
    rw [labelAll, labelAll, List.map_cons, h t (by simp), ih fun t' ht' => h t' (by simp [ht'])]

theorem label_succ (t : Tree String) (i : ℕ) (path : List ℕ) :
    t.label (i + 1) path = (t.label i path).rename Label.later := by
  induction t generalizing path with
  | var x =>
    rw [label, label, rename_var]
    by_cases hx : x = Term.anonymous
    · rw [if_pos hx, if_pos hx, Label.later]
    · rw [if_neg hx, if_neg hx, Label.later]
  | constant c => rfl
  | node k ts ih => rw [label, label, rename_node, labelAll_succ ih]

/-- A name that occurs in a tree is among its labels. -/
theorem mem_label_of_mem {t : Tree String} {x : String} (hx : x ∈ t.vars)
    (hne : x ≠ Term.anonymous) (i : ℕ) (path : List ℕ) : .named x ∈ (t.label i path).vars := by
  induction t generalizing path with
  | var y =>
    obtain rfl : x = y := by simpa using hx
    rw [label, if_neg hne]
    simp
  | constant c => simp at hx
  | node k ts ih =>
    obtain ⟨t, ht, hxt⟩ := mem_vars_node.1 hx
    obtain ⟨j, hj⟩ := List.mem_iff_getElem?.1 ht
    rw [label, mem_vars_node]
    refine ⟨t.label i (j :: path), List.mem_of_getElem? (i := j) ?_, ih t ht hxt _⟩
    rw [getElem?_labelAll, hj, Nat.zero_add]
    rfl

end Tree

namespace Compound

/-- A compound that is part `i` of a clause, with labels in place of names. -/
def labelled (i : ℕ) (c : Compound) : Tree Label := c.toTerm.read.label i []

theorem read_toTerm (c : Compound) :
    c.toTerm.read = .node (.functor c.functor) (c.args.map Term.read) := by
  rw [toTerm, Term.apply, Term.read, Term.readAll_eq_map]

theorem labelled_eq (i : ℕ) (c : Compound) :
    c.labelled i = .node (.functor c.functor) (Tree.labelAll i [] 0 (c.args.map Term.read)) := by
  rw [labelled, read_toTerm, Tree.label]

theorem getElem?_labels (i : ℕ) (c : Compound) (j : ℕ) :
    (Tree.labelAll i [] 0 (c.args.map Term.read))[j]? =
      (c.args[j]?).map fun t => t.read.label i [j] := by
  rw [Tree.getElem?_labelAll, List.getElem?_map, Option.map_map, Nat.zero_add]
  rfl

/-- A label of a compound is a label of one of its arguments. -/
theorem mem_vars_labelled {i : ℕ} {c : Compound} {l : Label} :
    l ∈ (c.labelled i).vars ↔
      ∃ (j : ℕ) (t : Term), c.args[j]? = some t ∧ l ∈ (t.read.label i [j]).vars := by
  rw [labelled_eq, Tree.mem_vars_node]
  constructor
  · rintro ⟨u, hu, hl⟩
    obtain ⟨j, hj⟩ := List.mem_iff_getElem?.1 hu
    rw [getElem?_labels] at hj
    obtain ⟨t, ht, rfl⟩ := Option.map_eq_some_iff.1 hj
    exact ⟨j, t, ht, hl⟩
  · rintro ⟨j, t, ht, hl⟩
    refine ⟨_, List.mem_of_getElem? (i := j) ?_, hl⟩
    rw [getElem?_labels, ht]
    rfl

theorem labelled_succ (i : ℕ) (c : Compound) :
    c.labelled (i + 1) = (c.labelled i).rename Label.later :=
  Tree.label_succ _ i []

end Compound

namespace NormalClause

/-- The head of a clause and its goals, with labels in place of names: each occurrence of the
anonymous variable is a variable of its own.  The head is part 0, and the goals are the parts from
1 on. -/
def labelled (n : NormalClause) : List (Tree Label) :=
  (n.head :: n.body).mapIdx fun i c => c.labelled i

theorem getElem?_labelled_succ (n : NormalClause) (i : ℕ) :
    n.labelled[i + 1]? = (n.body[i]?).map fun g => g.labelled (i + 1) := by
  rw [labelled, List.getElem?_mapIdx, List.getElem?_cons_succ]

theorem getElem?_labelled_zero (n : NormalClause) :
    n.labelled[0]? = some (n.head.labelled 0) := by
  rw [labelled, List.getElem?_mapIdx, List.getElem?_cons_zero, Option.map_some]

/-- A label of a clause that is not one of its head is a label of a goal. -/
theorem exists_later {n : NormalClause} {l : Label} (hl : l ∈ Tree.varsIn n.labelled)
    (hhead : l ∉ (n.head.labelled 0).vars) : ∃ l₀, n.BodyLabel l₀ ∧ l = l₀.later := by
  obtain ⟨t, ht, hlt⟩ := hl
  obtain ⟨m, hm⟩ := List.mem_iff_getElem?.1 ht
  cases m with
  | zero =>
    rw [getElem?_labelled_zero, Option.some.injEq] at hm
    subst hm
    exact absurd hlt hhead
  | succ i =>
    rw [getElem?_labelled_succ] at hm
    obtain ⟨g, hg, rfl⟩ := Option.map_eq_some_iff.1 hm
    rw [Compound.labelled_succ] at hlt
    obtain ⟨l₀, hl₀, rfl⟩ := Tree.mem_vars_rename.1 hlt
    obtain ⟨j, t, ht, hlt⟩ := Compound.mem_vars_labelled.1 hl₀
    refine ⟨l₀, ⟨?_, i, j, g, t, hg, ht, hlt⟩, rfl⟩
    -- A variable of the head is among the labels of the head.
    rintro ⟨x, rfl, hne, u, hu, hx⟩
    refine hhead (Tree.mem_label_of_mem ?_ hne 0 [])
    rw [Compound.read_toTerm, Tree.mem_vars_node]
    exact ⟨u.read, List.mem_map.2 ⟨u, hu, rfl⟩, hx⟩

/-! ### What a run shows -/

/-- What the labels of a clause stand for in a run of its code at the call `ts`, with `calls` as the
states at the calls of its goals: the head stands for the call, the goals for what they are called
with, and labels that are not those of the head for new variables, each for one of its own. -/
structure Interprets (n : NormalClause) (ts : List (Tree ℕ)) (first : ℕ) (calls : List Machine)
    (ρ : Label → Tree ℕ) : Prop where
  head : (n.head.labelled 0).bind ρ = .node (.functor n.head.functor) ts
  length : calls.length = n.body.length
  goals : ∀ (i j : ℕ) g t call, n.body[i]? = some g → g.args[j]? = some t →
    calls[i]? = some call → call.mem (.reg j) = some ((t.read.label (i + 1) [j]).bind ρ)
  new : ∀ l ∈ Tree.varsIn n.labelled, l ∉ (n.head.labelled 0).vars →
    ∃ m, ρ l = .var m ∧ first ≤ m
  injective : ∀ l ∈ Tree.varsIn n.labelled, ∀ l' ∈ Tree.varsIn n.labelled,
    l ∉ (n.head.labelled 0).vars → l' ∉ (n.head.labelled 0).vars → ρ l = ρ l' → l = l'

theorem headMatches_iff {n : NormalClause} {ts : List (Tree ℕ)} {σ : String → Tree ℕ} :
    n.HeadMatches ts σ ↔
      n.head.toTerm.read.Matches σ (.node (.functor n.head.functor) ts) := by
  rw [Compound.read_toTerm, Tree.matches_node]
  constructor
  · intro h
    exact ⟨ts, rfl, h⟩
  · rintro ⟨us, heq, h⟩
    obtain ⟨-, rfl⟩ := Tree.node.inj heq
    exact h

/-- What labels stand for, from what stands at the places of the head and from the environment after
the goals. -/
def interpretation (whole : Tree ℕ) (G : Env) : Label → Tree ℕ
  | .named x => (G (.named x)).getD (.var 0)
  | .blank 0 path => (whole.at? path.reverse).getD (.var 0)
  | .blank (i + 1) path => (G (.blank i path)).getD (.var 0)

theorem interpretation_later (whole : Tree ℕ) (G : Env) (l : Label) :
    interpretation whole G l.later = (G l).getD (.var 0) := by
  cases l <;> rfl

/-- After the head, its variables have what the head is matched with. -/
theorem HeadDone.headEnv_named {n : NormalClause} {ts : List (Tree ℕ)} {s s' : Machine}
    (h : n.HeadDone ts s s') {σ : String → Tree ℕ} (hσ : n.HeadMatches ts σ) {x : String}
    (hx : .named x ∈ (n.head.labelled 0).vars) : n.headEnv s' (.named x) = some (σ x) := by
  obtain ⟨hmem, hne⟩ := Tree.named_mem_label hx
  rw [Compound.read_toTerm, Tree.mem_vars_node] at hmem
  obtain ⟨u, hu, hxu⟩ := hmem
  obtain ⟨t, ht, rfl⟩ := List.mem_map.1 hu
  obtain ⟨a, ha⟩ := met_afterHead ht hxu hne
  rw [headEnv, ha]
  exact (h.iff σ).1 hσ x a ha

/-- A run of the code of a clause whose head succeeds shows what its labels stand for. -/
theorem exists_interprets {n : NormalClause} {k : CompiledClause} {d : Draft .standard}
    (hf : n.Faithful) (hk : n.Codes .standard k d) {ts : List (Tree ℕ)} {s s' : Machine}
    (hdone : n.HeadDone ts s s') {back : ℕ → Machine → Machine}
    (hback : ∀ i (m : Machine), m.Returns (back i m)) :
    ∃ calls ρ, s'.runGoals back 0 k.goals = .ok calls ∧ n.Interprets ts s.next calls ρ := by
  obtain ⟨σ, hσ⟩ := hdone.exists_matches
  obtain ⟨calls, G, next, hruns, hle, hfresh, hcalls⟩ :=
    (between_afterHead hdone).run hf hk.goals rfl hback
  rw [List.length_nil] at hruns hcalls
  set whole : Tree ℕ := .node (.functor n.head.functor) ts with hwhole
  have hG : ∀ l u, G l = some u → (G l).getD (.var 0) = u := by
    intro l u hl
    rw [hl, Option.getD_some]
  have hnew := hcalls.standForNew hfresh hG
  refine ⟨calls, interpretation whole G, hruns, ?_, hcalls.1, ?_, ?_, ?_⟩
  · -- Variables of the head stand for what the head is matched with.
    have hat : whole.at? ([] : List ℕ).reverse = some whole := rfl
    have hhead := Tree.bind_reading (headMatches_iff.1 hσ) hat 0
    refine (Tree.bind_congr fun l hl => ?_).trans hhead
    cases l with
    | named x => exact hG _ _ (hle _ _ (hdone.headEnv_named hσ hl))
    | blank i path =>
      obtain ⟨rfl, -⟩ := Tree.blank_mem_label hl
      rfl
  · intro i j g t call hg ht hcall
    obtain ⟨u, hu, hbuilds⟩ := hcalls.2 i g call hg hcall j t ht
    rw [Nat.zero_add] at hbuilds
    have hlater : (t.read.label (i + 1) [j]).bind (interpretation whole G) = u := by
      rw [Tree.label_succ, Tree.rename, Tree.bind_bind]
      refine (Tree.bind_congr fun l _ => ?_).trans (hbuilds _ hG)
      exact interpretation_later whole G l
    rw [hu, hlater]
  · intro l hl hhead
    obtain ⟨l₀, hbody, rfl⟩ := exists_later hl hhead
    rw [interpretation_later]
    exact hnew.new l₀ hbody
  · intro l hl l' hl' hhead hhead' heq
    obtain ⟨l₀, hbody, rfl⟩ := exists_later hl hhead
    obtain ⟨l₀', hbody', rfl⟩ := exists_later hl' hhead'
    rw [interpretation_later, interpretation_later] at heq
    rw [hnew.injective l₀ l₀' hbody hbody' heq]

/-- The arguments in the registers at a call. -/
def argsAt (call : Machine) (arity : ℕ) : List (Tree ℕ) :=
  (List.range arity).map fun j : ℕ => (call.mem (.reg j)).getD (.var 0)

/-- A goal stands for what is in the registers at its call. -/
theorem Interprets.goal {n : NormalClause} {ts : List (Tree ℕ)} {first : ℕ} {calls : List Machine}
    {ρ : Label → Tree ℕ} (h : n.Interprets ts first calls ρ) {i : ℕ} {g : Compound} {call : Machine}
    (hg : n.body[i]? = some g) (hcall : calls[i]? = some call) :
    (g.labelled (i + 1)).bind ρ =
      .node (.functor g.functor) (argsAt call g.args.length) := by
  rw [Compound.labelled_eq, Tree.bind_node]
  refine congrArg _ (List.ext_getElem? fun j => ?_)
  rw [List.getElem?_map, Compound.getElem?_labels, argsAt, List.getElem?_map]
  cases ht : g.args[j]? with
  | none =>
    have hlen : g.args.length ≤ j := List.getElem?_eq_none_iff.1 ht
    have hrange : (List.range g.args.length)[j]? = none :=
      List.getElem?_eq_none (by rw [List.length_range]; exact hlen)
    rw [hrange]
    rfl
  | some t =>
    obtain ⟨hlt, -⟩ := List.getElem?_eq_some_iff.1 ht
    rw [List.getElem?_range hlt, Option.map_some, Option.map_some, Option.map_some,
      h.goals i j g t call hg ht hcall, Option.getD_some]

/-- The tree that is called, from the name and the arity of what is called. -/
def treeAt (signature : String × Int) (call : Machine) : Tree ℕ :=
  .node (.functor signature.1) (argsAt call signature.2.toNat)

/-- What the head and the goals of a clause stand for depends on the run and on the names and
arities in the clause only. -/
theorem Interprets.map_bind_labelled {n : NormalClause} {ts : List (Tree ℕ)} {first : ℕ}
    {calls : List Machine} {ρ : Label → Tree ℕ} (h : n.Interprets ts first calls ρ) :
    n.labelled.map (Tree.bind ρ) =
      .node (.functor n.head.functor) ts ::
        List.zipWith treeAt (n.body.map fun c => (c.functor, (c.args.length : Int))) calls := by
  refine List.ext_getElem? fun i => ?_
  rw [List.getElem?_map]
  cases i with
  | zero => rw [getElem?_labelled_zero, Option.map_some, h.head, List.getElem?_cons_zero]
  | succ i =>
    rw [getElem?_labelled_succ, List.getElem?_cons_succ, List.getElem?_zipWith, List.getElem?_map]
    cases hg : n.body[i]? with
    | none => rfl
    | some g =>
      obtain ⟨hi, -⟩ := List.getElem?_eq_some_iff.1 hg
      have hcall : calls[i]? = some (calls.get ⟨i, h.length ▸ hi⟩) := by simp
      rw [hcall, Option.map_some, Option.map_some, Option.map_some, h.goal hg hcall]
      rfl

/-- If labels of the head stand for variables as well, each for one of its own, and not for new
ones, then the labels of the clause are numbered. -/
theorem Interprets.exists_numbers {n : NormalClause} {ts : List (Tree ℕ)} {first : ℕ}
    {calls : List Machine} {ρ : Label → Tree ℕ} (h : n.Interprets ts first calls ρ)
    (hvar : ∀ l ∈ (n.head.labelled 0).vars, ∃ m, ρ l = .var m ∧ m < first)
    (hinj : ∀ l ∈ (n.head.labelled 0).vars, ∀ l' ∈ (n.head.labelled 0).vars,
      ρ l = ρ l' → l = l') :
    ∃ e : Label → ℕ, Set.InjOn e (Tree.varsIn n.labelled) ∧
      ∀ l ∈ Tree.varsIn n.labelled, ρ l = .var (e l) := by
  have hnumber : ∀ l, ∃ m, l ∈ Tree.varsIn n.labelled →
      ρ l = .var m ∧ (m < first ↔ l ∈ (n.head.labelled 0).vars) := by
    intro l
    by_cases hhead : l ∈ (n.head.labelled 0).vars
    · obtain ⟨m, hm, hlt⟩ := hvar l hhead
      exact ⟨m, fun _ => ⟨hm, iff_of_true hlt hhead⟩⟩
    · by_cases hl : l ∈ Tree.varsIn n.labelled
      · obtain ⟨m, hm, hle⟩ := h.new l hl hhead
        exact ⟨m, fun _ => ⟨hm, iff_of_false (Nat.not_lt.2 hle) hhead⟩⟩
      · exact ⟨0, fun hl' => absurd hl' hl⟩
  choose e he using hnumber
  refine ⟨e, fun l hl l' hl' heq => ?_, fun l hl => (he l hl).1⟩
  have hρ : ρ l = ρ l' := by rw [(he l hl).1, (he l' hl').1, heq]
  -- The number tells whether a label is one of the head.
  have hhead : l ∈ (n.head.labelled 0).vars ↔ l' ∈ (n.head.labelled 0).vars := by
    rw [← (he l hl).2, ← (he l' hl').2, heq]
  by_cases hl₀ : l ∈ (n.head.labelled 0).vars
  · exact hinj l hl₀ l' (hhead.1 hl₀) hρ
  · exact h.injective l hl l' hl' hl₀ (mt hhead.2 hl₀) hρ

/-! ### The call that is the head itself -/

/-- The number of a label among those of the head. -/
def headNumber (n : NormalClause) (l : Label) : ℕ := (n.head.labelled 0).vars.idxOf l

/-- The label of the head with a given number. -/
def headLabel (n : NormalClause) (m : ℕ) : Label :=
  ((n.head.labelled 0).vars[m]?).getD (.named Term.anonymous)

/-- The arguments of the head, with numbers in place of labels. -/
def ownCall (n : NormalClause) : List (Tree ℕ) :=
  (Tree.labelAll 0 [] 0 (n.head.args.map Term.read)).map (Tree.rename n.headNumber)

variable {n : NormalClause}

theorem headLabel_headNumber {l : Label} (hl : l ∈ (n.head.labelled 0).vars) :
    n.headLabel (n.headNumber l) = l := by
  rw [headLabel, headNumber, List.getElem?_idxOf hl, Option.getD_some]

theorem rename_headNumber (n : NormalClause) :
    (n.head.labelled 0).rename n.headNumber = .node (.functor n.head.functor) n.ownCall := by
  rw [Compound.labelled_eq, Tree.rename_node]
  rfl

theorem rename_headLabel (n : NormalClause) :
    (Tree.node (.functor n.head.functor) n.ownCall).rename n.headLabel = n.head.labelled 0 := by
  rw [← rename_headNumber, Tree.rename_rename]
  exact Tree.rename_eq_self fun l hl => headLabel_headNumber hl

/-- The head matches itself. -/
theorem headMatches_ownCall (n : NormalClause) :
    n.HeadMatches n.ownCall fun x => .var (n.headNumber (.named x)) := by
  rw [headMatches_iff, ← rename_headNumber, Compound.labelled, Tree.rename]
  refine Tree.matches_bind_label (fun x _ _ => ?_) 0 []
  rfl

theorem length_ownCall (n : NormalClause) : n.ownCall.length = n.head.args.length := by
  rw [ownCall, List.length_map, Tree.length_labelAll, List.length_map]

end NormalClause

/-! ### Two clauses with the same code -/

/-- Two compiled clauses belong to the same predicate, check the same and call the same. -/
structure CompiledClause.SameCode (k k' : CompiledClause) : Prop where
  functor : k.functor = k'.functor
  head : k.head = k'.head
  goals : k.goals = k'.goals

theorem CompiledClause.SameCode.symm {k k' : CompiledClause} (h : k.SameCode k') :
    k'.SameCode k :=
  ⟨h.functor.symm, h.head.symm, h.goals.symm⟩

/-- The machine at a call, with the first new variable. -/
def Machine.atCall (ts : List (Tree ℕ)) (next : ℕ) : Machine where
  mem
    | .reg (.ofNat k) => ts[k]?
    | _ => none
  focus := .take []
  next := next

theorem Machine.called_atCall (ts : List (Tree ℕ)) (next : ℕ) : (atCall ts next).Called ts :=
  ⟨rfl, fun _ _ h => h⟩

/-- A call that changes nothing. -/
def Machine.comeBack (s : Machine) : Machine := { s with focus := .take [] }

theorem Machine.returns_comeBack (s : Machine) : s.Returns s.comeBack :=
  ⟨rfl, fun _ => rfl, Nat.le_refl _⟩

/-- What the code of goals says about whom it calls. -/
theorem Compound.Coded.signatures {P : Policy} {d d' : Draft P} {cs : List Compound}
    {gs : List CompiledGoal} (h : Coded d cs gs d') :
    gs.map (fun g => (g.symbol.name, g.arity)) =
      cs.map fun c => (c.functor, (c.args.length : Int)) := by
  have hmap := congrArg (List.map fun f : Functor => (f.name, f.arity)) h.functors
  rw [List.map_map, List.map_map] at hmap
  exact hmap

namespace NormalClause

variable {n₁ n₂ : NormalClause} {k₁ k₂ : CompiledClause} {d₁ d₂ : Draft .standard}

section

variable (hk₁ : n₁.Codes .standard k₁ d₁) (hk₂ : n₂.Codes .standard k₂ d₂) (h : k₁.SameCode k₂)
include hk₁ hk₂ h

theorem head_signature_eq :
    n₁.head.functor = n₂.head.functor ∧ n₁.head.args.length = n₂.head.args.length := by
  have heq : n₁.head.indicator = n₂.head.indicator := by
    rw [← hk₁.functor, ← hk₂.functor, h.functor]
  have hname := congrArg Functor.name heq
  have harity := congrArg Functor.arity heq
  exact ⟨hname, Int.ofNat_inj.1 harity⟩

theorem body_signature_eq :
    n₁.body.map (fun c => (c.functor, (c.args.length : Int))) =
      n₂.body.map fun c => (c.functor, (c.args.length : Int)) := by
  rw [← hk₁.goals.signatures, h.goals, hk₂.goals.signatures]

/-- Run at the head of the first clause, the code shows what the labels of both clauses stand
for. -/
theorem exists_shared_run (hf₁ : n₁.Faithful) (hf₂ : n₂.Faithful) :
    ∃ calls ρ₁ ρ₂,
      n₁.Interprets n₁.ownCall (n₁.head.labelled 0).vars.length calls ρ₁ ∧
      n₂.Interprets n₁.ownCall (n₁.head.labelled 0).vars.length calls ρ₂ := by
  let s := Machine.atCall n₁.ownCall (n₁.head.labelled 0).vars.length
  have hs : s.Called n₁.ownCall := Machine.called_atCall _ _
  have hback : ∀ (i : ℕ) (m : Machine), m.Returns ((fun _ m => m.comeBack) i m) :=
    fun _ m => m.returns_comeBack
  have hlen₂ : n₁.ownCall.length = n₂.head.args.length := by
    rw [length_ownCall, (head_signature_eq hk₁ hk₂ h).2]
  rcases run_head hk₁ hs n₁.length_ownCall with ⟨s', hrun, hdone₁⟩ | ⟨-, hnot⟩
  · rcases run_head hk₂ hs hlen₂ with ⟨s'', hrun', hdone₂⟩ | ⟨hrun', -⟩
    · rw [← h.head, hrun] at hrun'
      obtain rfl : s' = s'' := by simpa using hrun'
      obtain ⟨calls, ρ₁, hcalls, hρ₁⟩ := exists_interprets hf₁ hk₁ hdone₁ hback
      obtain ⟨calls', ρ₂, hcalls', hρ₂⟩ := exists_interprets hf₂ hk₂ hdone₂ hback
      rw [← h.goals, hcalls] at hcalls'
      obtain rfl : calls = calls' := by simpa using hcalls'
      exact ⟨calls, ρ₁, ρ₂, hρ₁, hρ₂⟩
    · rw [← h.head, hrun] at hrun'
      simp at hrun'
  · exact absurd n₁.headMatches_ownCall (hnot _)

/-- What the labels of the second head stand for at the first head makes the first an instance of
the second. -/
theorem head_instance {calls : List Machine} {first : ℕ} {ρ : Label → Tree ℕ}
    (hρ : n₂.Interprets n₁.ownCall first calls ρ) :
    (n₂.head.labelled 0).bind (fun l => (ρ l).rename n₁.headLabel) = n₁.head.labelled 0 := by
  rw [← n₁.rename_headLabel, (head_signature_eq hk₁ hk₂ h).1, ← hρ.head, Tree.rename,
    Tree.bind_bind]
  rfl

/-- At the head of the first clause, the labels of the second one stand for variables, each for one
of its own. -/
theorem exists_numbers_second (hf₁ : n₁.Faithful) (hf₂ : n₂.Faithful) {calls : List Machine}
    {ρ : Label → Tree ℕ}
    (hρ : n₂.Interprets n₁.ownCall (n₁.head.labelled 0).vars.length calls ρ) :
    ∃ e : Label → ℕ, Set.InjOn e (Tree.varsIn n₂.labelled) ∧
      ∀ l ∈ Tree.varsIn n₂.labelled, ρ l = .var (e l) := by
  have hthere := head_instance hk₁ hk₂ h hρ
  obtain ⟨_, _, ρ', _, hρ'⟩ := exists_shared_run hk₂ hk₁ h.symm hf₂ hf₁
  have hhere := head_instance hk₂ hk₁ h.symm hρ'
  refine hρ.exists_numbers (fun l hl => ?_) fun l hl l' hl' heq => ?_
  · obtain ⟨w, hw, -⟩ := Tree.exists_var_of_instances hthere hhere hl
    obtain ⟨m, hm, -⟩ := Tree.exists_var_of_bind_eq_var hw
    refine ⟨m, hm, ?_⟩
    -- The variables of the call are the numbers of the first head.
    have hmem : m ∈ ((n₁.head.labelled 0).rename n₁.headNumber).vars := by
      rw [rename_headNumber, (head_signature_eq hk₁ hk₂ h).1, ← hρ.head, Tree.mem_vars_bind]
      exact ⟨l, hl, by simp [hm]⟩
    obtain ⟨l', hl', rfl⟩ := Tree.mem_vars_rename.1 hmem
    exact List.idxOf_lt_length_of_mem hl'
  · obtain ⟨w, hw, hback⟩ := Tree.exists_var_of_instances hthere hhere hl
    obtain ⟨w', hw', hback'⟩ := Tree.exists_var_of_instances hthere hhere hl'
    have hww : w = w' := by
      rw [heq, hw'] at hw
      exact (Tree.var.inj hw).symm
    rw [hww, hback'] at hback
    exact (Tree.var.inj hback).symm

end

/-- At its own head, the labels of a clause stand for variables, each for one of its own. -/
theorem exists_numbers_first {n : NormalClause} {calls : List Machine} {ρ : Label → Tree ℕ}
    (hρ : n.Interprets n.ownCall (n.head.labelled 0).vars.length calls ρ) :
    ∃ e : Label → ℕ, Set.InjOn e (Tree.varsIn n.labelled) ∧
      ∀ l ∈ Tree.varsIn n.labelled, ρ l = .var (e l) := by
  have hhead : ∀ l ∈ (n.head.labelled 0).vars, ρ l = .var (n.headNumber l) := by
    have heq := hρ.head.trans n.rename_headNumber.symm
    exact fun l hl => Tree.agree_of_bind_eq heq hl
  refine hρ.exists_numbers (fun l hl => ?_) fun l hl l' hl' heq => ?_
  · exact ⟨_, hhead l hl, List.idxOf_lt_length_of_mem hl⟩
  · rw [hhead l hl, hhead l' hl'] at heq
    exact (List.idxOf_inj hl).1 (Tree.var.inj heq)

/-- Two clauses with the same code are the same when the labels of each are numbered. -/
theorem exists_numbers_eq (hf₁ : n₁.Faithful) (hf₂ : n₂.Faithful)
    (hk₁ : n₁.Codes .standard k₁ d₁) (hk₂ : n₂.Codes .standard k₂ d₂) (h : k₁.SameCode k₂) :
    ∃ e₁ e₂ : Label → ℕ, Set.InjOn e₁ (Tree.varsIn n₁.labelled) ∧
      Set.InjOn e₂ (Tree.varsIn n₂.labelled) ∧
      n₁.labelled.map (Tree.rename e₁) = n₂.labelled.map (Tree.rename e₂) := by
  obtain ⟨calls, ρ₁, ρ₂, hρ₁, hρ₂⟩ := exists_shared_run hk₁ hk₂ h hf₁ hf₂
  obtain ⟨e₁, hinj₁, he₁⟩ := exists_numbers_first hρ₁
  obtain ⟨e₂, hinj₂, he₂⟩ := exists_numbers_second hk₁ hk₂ h hf₁ hf₂ hρ₂
  have hbind : ∀ {n : NormalClause} {ρ : Label → Tree ℕ} {e : Label → ℕ},
      (∀ l ∈ Tree.varsIn n.labelled, ρ l = .var (e l)) →
        n.labelled.map (Tree.rename e) = n.labelled.map (Tree.bind ρ) := by
    intro n ρ e he
    refine List.map_congr_left fun t ht => ?_
    exact Tree.bind_congr fun l hl => (he l ⟨t, ht, hl⟩).symm
  refine ⟨e₁, e₂, hinj₁, hinj₂, ?_⟩
  rw [hbind he₁, hbind he₂, hρ₁.map_bind_labelled, hρ₂.map_bind_labelled,
    (head_signature_eq hk₁ hk₂ h).1, body_signature_eq hk₁ hk₂ h]

end NormalClause

/-- Compiling loses nothing but the names of variables.  If two clauses have the same code, then
their normal forms are the same up to a bijection between their variables, where each occurrence of
the anonymous variable is a variable of its own.

That the clauses are faithful is no restriction: the constructors of terms see to it
(`Term.Built.faithful`), and so does the reader (`Clause.faithful_ofJson`). -/
theorem Clause.variants_of_sameCode {c₁ c₂ : Clause} {n₁ n₂ : NormalClause} (hc₁ : c₁.Faithful)
    (hc₂ : c₂.Faithful) (hn₁ : c₁.normalize = .ok n₁) (hn₂ : c₂.normalize = .ok n₂) :
    ∃ k₁ k₂, c₁.compile = .ok k₁ ∧ c₂.compile = .ok k₂ ∧
      (k₁.SameCode k₂ → ∃ r : Label → Label,
        Set.BijOn r (Tree.varsIn n₁.labelled) (Tree.varsIn n₂.labelled) ∧
        n₁.labelled.map (Tree.rename r) = n₂.labelled) := by
  obtain ⟨k₁, -, d₁, -, -, hcompile₁, hk₁⟩ := Clause.exists_compile hn₁
  obtain ⟨k₂, -, d₂, -, -, hcompile₂, hk₂⟩ := Clause.exists_compile hn₂
  refine ⟨k₁, k₂, hcompile₁, hcompile₂, fun h => ?_⟩
  obtain ⟨e₁, e₂, hinj₁, hinj₂, heq⟩ :=
    NormalClause.exists_numbers_eq (hc₁.normalize hn₁) (hc₂.normalize hn₂) hk₁ hk₂ h
  exact Tree.exists_bijection hinj₁ hinj₂ heq ⟨.named Term.anonymous⟩

/-- The clause `path(A, [A|B]) :- edge(A, C, D), path(C, B)`, a variant of `pathClause`. -/
def variantClause : Clause where
  head := .comp "path" [.var "A", .list (.var "A") [] (.var "B") true] true
  body := [.comp "edge" [.var "A", .var "C", .var "D"] true, .comp "path" [.var "C", .var "B"] true]

/-- The normal form of `variantClause`. -/
def variantNormal : NormalClause where
  head := ⟨"path", [.var "A", .list (.var "A") [] (.var "B") true]⟩
  body := [⟨"edge", [.var "A", .var "C", .var "D"]⟩, ⟨"path", [.var "C", .var "B"]⟩]

/-- The clause `variantClause` in JSON. -/
def variantJson : Json :=
  .object [
    ("head", .object [("path", .array [.string "A",
      .object [("|", .array [.string "A", .string "B"])]])]),
    ("body", .array [.object [("edge", .array [.string "A", .string "C", .string "D"])],
      .object [("path", .array [.string "C", .string "B"])]])]

/-- The code of `pathClause`, and of `variantClause`. -/
def pathCode : CompiledClause where
  functor := ⟨"path", 2⟩
  registers := 4
  permanent := 2
  head := [.list .check .shallow (.reg 1), .subValue .check (.reg 0),
    .subVariable .check (.stack 0)]
  goals := [
    ⟨⟨"edge", .named⟩, 3, [.argVariable .build (.stack 1) 1, .argVariable .build (.reg 3) 2]⟩,
    ⟨⟨"path", .named⟩, 2, [.argValue .build (.stack 1) 0, .argValue .build (.stack 0) 1]⟩]

/-- The clauses `path(X, [X|Z]) :- edge(X, Y, _), path(Y, Z)` and
`path(A, [A|B]) :- edge(A, C, D), path(C, B)` have the same code, and they are variants. -/
theorem variants_path : pathClause.Faithful ∧ variantClause.Faithful ∧
    pathClause.normalize = .ok pathNormal ∧ variantClause.normalize = .ok variantNormal ∧
    pathClause.compile = variantClause.compile ∧ ∃ r : Label → Label,
      Set.BijOn r (Tree.varsIn pathNormal.labelled) (Tree.varsIn variantNormal.labelled) ∧
      pathNormal.labelled.map (Tree.rename r) = variantNormal.labelled := by
  have hfaithful : variantClause.Faithful := Clause.faithful_ofJson .first (v := variantJson) rfl
  have hpath : pathClause.compile = .ok pathCode := rfl
  have hvariant : variantClause.compile = .ok pathCode := rfl
  have hn₁ : pathClause.normalize = .ok pathNormal := rfl
  have hn₂ : variantClause.normalize = .ok variantNormal := rfl
  obtain ⟨k₁, k₂, hk₁, hk₂, hvariants⟩ :=
    Clause.variants_of_sameCode faithful_pathClause hfaithful hn₁ hn₂
  obtain rfl : k₁ = pathCode := Except.ok.inj (hk₁.symm.trans hpath)
  obtain rfl : k₂ = pathCode := Except.ok.inj (hk₂.symm.trans hvariant)
  exact ⟨faithful_pathClause, hfaithful, hn₁, hn₂, hpath.trans hvariant.symm,
    hvariants ⟨rfl, rfl, rfl⟩⟩

end ClauseCode
