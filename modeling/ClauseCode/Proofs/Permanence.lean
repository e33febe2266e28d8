import ClauseCode.Clause
import ClauseCode.Proofs.Notation
import Mathlib.Data.List.Nodup

/-!
# Variables that outlive a call

The head of a clause and its first goal form one chunk, and each later goal is a chunk of its own.
The goals are looked through once: a variable that was seen in an earlier chunk is permanent, any
other is seen from then on.  Since each goal names its variables once, this counts chunks and not
occurrences, and a variable is permanent exactly if it occurs in two chunks
(`NormalClause.mem_permanent_iff`).
-/

namespace ClauseCode

namespace NormalClause

variable {n : NormalClause} {x y : String} {acc : List String × List String}

/-! ### Noting variables -/

theorem mem_seen_noteVar : x ∈ (noteVar acc y).1 ↔ x ∈ acc.1 ∨ x = y := by
  by_cases hy : y ∈ acc.1
  · rw [noteVar, if_pos (by simpa using hy)]
    constructor
    · exact Or.inl
    · rintro (hx | rfl)
      · exact hx
      · exact hy
  · rw [noteVar, if_neg (by simpa using hy), List.mem_append, List.mem_singleton]

theorem mem_kept_noteVar : x ∈ (noteVar acc y).2 ↔ x ∈ acc.2 ∨ x = y ∧ x ∈ acc.1 := by
  by_cases hy : y ∈ acc.1
  · rw [noteVar, if_pos (by simpa using hy), Term.mem_note]
    constructor
    · rintro (hx | rfl)
      · exact Or.inl hx
      · exact Or.inr ⟨rfl, hy⟩
    · exact Or.imp_right And.left
  · rw [noteVar, if_neg (by simpa using hy)]
    constructor
    · exact Or.inl
    · rintro (hx | ⟨rfl, hx⟩)
      · exact hx
      · exact absurd hx hy

theorem nodup_kept_noteVar (h : acc.2.Nodup) : (noteVar acc y).2.Nodup := by
  rw [noteVar]
  split
  · exact Term.nodup_note h y
  · exact h

theorem mem_seen_foldl (ys : List String) :
    x ∈ (ys.foldl noteVar acc).1 ↔ x ∈ acc.1 ∨ x ∈ ys := by
  induction ys generalizing acc with
  | nil => simp
  | cons y ys ih => rw [List.foldl_cons, ih, mem_seen_noteVar, List.mem_cons, or_assoc]

/-- Of different names, those are kept that were seen before all of them. -/
theorem mem_kept_foldl {ys : List String} (hys : ys.Nodup) :
    x ∈ (ys.foldl noteVar acc).2 ↔ x ∈ acc.2 ∨ x ∈ ys ∧ x ∈ acc.1 := by
  induction ys generalizing acc with
  | nil => simp
  | cons y ys ih =>
    obtain ⟨hy, hys⟩ := List.nodup_cons.1 hys
    rw [List.foldl_cons, ih hys, mem_kept_noteVar, mem_seen_noteVar, List.mem_cons]
    -- A name that is seen only now does not come again.
    have hne : x ∈ ys → x ≠ y := fun hx hxy => hy (hxy ▸ hx)
    tauto

theorem nodup_kept_foldl (ys : List String) (h : acc.2.Nodup) : (ys.foldl noteVar acc).2.Nodup := by
  induction ys generalizing acc with
  | nil => exact h
  | cons y ys ih => exact ih (nodup_kept_noteVar h)

theorem nodup_kept_goals (gs : List Compound) (h : acc.2.Nodup) :
    (gs.foldl noteGoal acc).2.Nodup := by
  induction gs generalizing acc with
  | nil => exact h
  | cons g gs ih => exact ih (nodup_kept_foldl _ h)

/-- A variable is kept if it is found in a second goal, where having been seen before counts for a
first. -/
theorem mem_kept_goals (gs : List Compound) :
    x ∈ (gs.foldl noteGoal acc).2 ↔
      x ∈ acc.2 ∨ 2 ≤ (if x ∈ acc.1 then 1 else 0) + gs.countP fun g => x ∈ g.toTerm.vars := by
  induction gs generalizing acc with
  | nil => by_cases hseen : x ∈ acc.1 <;> simp [hseen]
  | cons g gs ih =>
    have hvars : g.toTerm.vars.Nodup := g.toTerm.gathers_varsOnto.nodup [] List.nodup_nil
    rw [List.foldl_cons, ih, noteGoal, mem_kept_foldl hvars]
    simp only [mem_seen_foldl, List.countP_cons]
    generalize gs.countP (fun g => x ∈ g.toTerm.vars) = k
    by_cases hseen : x ∈ acc.1 <;> by_cases hx : x ∈ g.toTerm.vars <;>
      simp [hseen, hx, Nat.add_comm, Nat.add_left_comm]

theorem nodup_permanent (n : NormalClause) : n.permanent.Nodup := by
  unfold permanent
  split
  · exact (nodup_kept_goals _ List.nodup_nil).filter _
  · exact List.nodup_nil

/-- A permanent variable has a name and occurs in a goal. -/
theorem exists_goal_of_mem_permanent (h : x ∈ n.permanent) :
    x ≠ Term.anonymous ∧ ∃ g ∈ n.body, g.Has x := by
  unfold permanent at h
  split at h
  next first second rest hbody =>
    obtain ⟨hmem, hx⟩ := List.mem_filter.1 h
    refine ⟨by simpa using hx, ?_⟩
    have htwo := ((mem_kept_goals _).1 hmem).resolve_left (by simp)
    have hpos : 0 < (second :: rest).countP fun g => x ∈ g.toTerm.vars := by
      split at htwo <;> omega
    obtain ⟨g, hg, hgx⟩ := List.countP_pos_iff.1 hpos
    have hvars : x ∈ g.toTerm.varsOnto [] := of_decide_eq_true hgx
    refine ⟨g, ?_, (g.gathers_varsOnto.only [] x hvars).resolve_left (by simp)⟩
    rw [hbody]
    exact List.mem_cons_of_mem _ hg
  next => simp at h

end NormalClause

/-! ### Chunks -/

instance (c : Compound) (x : String) : Decidable (c.Has x) :=
  inferInstanceAs (Decidable (∃ t ∈ c.args, x ∈ t.read.vars))

namespace NormalClause

variable {n : NormalClause} {x : String}

/-- The chunks of a clause: the head with the first goal, and each later goal on its own. -/
def chunks (n : NormalClause) : List (List Compound) :=
  match n.body with
  | [] => [[n.head]]
  | first :: rest => [n.head, first] :: rest.map fun g => [g]

/-- The number of chunks in which a variable occurs. -/
def spread (n : NormalClause) (x : String) : ℕ := n.chunks.countP fun chunk => ∃ g ∈ chunk, g.Has x

theorem spread_of_body {first : Compound} {rest : List Compound} (h : n.body = first :: rest) :
    n.spread x = (if n.head.Has x ∨ first.Has x then 1 else 0) + rest.countP fun g => g.Has x := by
  rw [spread, chunks, h]
  simp only [List.countP_cons, List.countP_map]
  rw [Nat.add_comm]
  congr 1
  · simp
  · exact List.countP_congr fun g _ => by simp

/-- A variable other than the anonymous one is permanent exactly if it occurs in two chunks. -/
theorem mem_permanent_iff (hf : n.Faithful) :
    x ∈ n.permanent ↔ x ≠ Term.anonymous ∧ 2 ≤ n.spread x := by
  unfold permanent
  split
  next first second rest hbody =>
    have hgoals : ∀ g ∈ first :: second :: rest, g.Faithful := hbody ▸ hf.body
    rw [List.forall_mem_cons] at hgoals
    have hcount : ((second :: rest).countP fun g => x ∈ g.toTerm.vars) =
        (second :: rest).countP fun g => g.Has x :=
      List.countP_congr fun g hg => by simp [Compound.mem_vars_iff (hgoals.2 g hg)]
    rw [List.mem_filter, mem_kept_goals, hcount, spread_of_body hbody]
    simp [Compound.mem_varsOnto_iff hgoals.1, Compound.mem_vars_iff hf.head, and_comm]
  next hbody =>
    -- With fewer than two goals there is one chunk.
    have hone : n.chunks.length ≤ 1 := by
      unfold chunks
      split
      · simp
      next first rest h =>
        cases rest with
        | nil => simp
        | cons second rest => exact absurd h (hbody first second rest)
    have hle : n.spread x ≤ n.chunks.length := List.countP_le_length
    simp only [List.not_mem_nil, false_iff, not_and]
    omega

/-- A variable that occurs before and after a call is permanent. -/
theorem mem_permanent (hf : n.Faithful) {first : Compound} {pre post : List Compound}
    (hbody : n.body = first :: (pre ++ post)) (hx : x ≠ Term.anonymous)
    (hbefore : n.head.Has x ∨ first.Has x ∨ ∃ g ∈ pre, g.Has x)
    (hafter : ∃ g ∈ post, g.Has x) : x ∈ n.permanent := by
  have hpost : 0 < post.countP fun g => g.Has x := by simpa using hafter
  refine (mem_permanent_iff hf).2 ⟨hx, ?_⟩
  rw [spread_of_body hbody, List.countP_append]
  rcases hbefore with hx | hx | hx
  · rw [if_pos (Or.inl hx)]
    omega
  · rw [if_pos (Or.inr hx)]
    omega
  · have hpre : 0 < pre.countP fun g => g.Has x := by simpa using hx
    omega

end NormalClause

/-- The permanent variables of a clause are those that occur in at least two of its chunks, the
anonymous one apart, and each is listed once. -/
theorem Clause.permanent_iff_spread {c : Clause} {n : NormalClause}
    (hc : ∀ t ∈ c.head :: c.body, t.Built) (hn : c.normalize = .ok n) :
    n.permanent.Nodup ∧
      ∀ x, x ∈ n.permanent ↔ x ≠ Term.anonymous ∧ 2 ≤ n.spread x := by
  obtain ⟨hhead, hbody⟩ := List.forall_mem_cons.1 hc
  have hf : c.Faithful := ⟨hhead.faithful, fun t ht => (hbody t ht).faithful⟩
  exact ⟨n.nodup_permanent, fun x => NormalClause.mem_permanent_iff (hf.normalize hn)⟩

/-- The clause `p(X, f(Y)) :- q(X, Z), r(Z, _, Y), s(_, W, [W | Y])`. -/
def chunkedClause : Clause where
  head := .apply "p" [.var "X", .apply "f" [.var "Y"]]
  body := [.apply "q" [.var "X", .var "Z"], .apply "r" [.var "Z", .var "_", .var "Y"],
    .apply "s" [.var "_", .var "W", .prepend [.var "W"] (.var "Y")]]

/-- In `p(X, f(Y)) :- q(X, Z), r(Z, _, Y), s(_, W, [W | Y])` the variables `Y` and `Z` occur in two
chunks.  `X` occurs twice in the first chunk and `W` twice in the last, and `_` is anonymous. -/
theorem permanent_chunked :
    (∀ t ∈ chunkedClause.head :: chunkedClause.body, t.Built) ∧
      ∃ n, chunkedClause.normalize = .ok n ∧ "Y" ∈ n.permanent ∧ "Z" ∈ n.permanent ∧
        "X" ∉ n.permanent ∧ "W" ∉ n.permanent ∧ "_" ∉ n.permanent := by
  have hvar : ∀ x ∈ ["X", "Y", "Z", "W", "_"], (Term.var x).Built := by
    intro x hx
    refine Term.built_var ?_
    simp only [List.mem_cons, List.not_mem_nil, or_false] at hx
    rcases hx with rfl | rfl | rfl | rfl | rfl <;> decide
  have hbuilt : ∀ t ∈ chunkedClause.head :: chunkedClause.body, t.Built := by
    have hf : (Term.apply "f" [.var "Y"]).Built := .apply _ (by simp [hvar])
    have hlist : (Term.prepend [.var "W"] (.var "Y")).Built :=
      .prepend (by simp [hvar]) (hvar _ (by simp))
    have hhead : chunkedClause.head.Built := .apply _ (by simp [hvar, hf])
    refine List.forall_mem_cons.2 ⟨hhead, ?_⟩
    refine List.forall_mem_cons.2 ⟨.apply _ (by simp [hvar]), ?_⟩
    refine List.forall_mem_cons.2 ⟨.apply _ (by simp [hvar]), ?_⟩
    exact List.forall_mem_singleton.2 (.apply _ (by simp [hvar, hlist]))
  obtain ⟨-, hmem⟩ := Clause.permanent_iff_spread hbuilt rfl
  refine ⟨hbuilt, _, rfl, ?_, ?_, ?_, ?_, ?_⟩
  · exact (hmem _).2 (by decide)
  · exact (hmem _).2 (by decide)
  · exact fun h => absurd ((hmem _).1 h) (by decide)
  · exact fun h => absurd ((hmem _).1 h) (by decide)
  · exact fun h => absurd ((hmem _).1 h) (by decide)

end ClauseCode
