import ClauseCode.Proofs.Places
import Mathlib.Data.List.Flatten
import Mathlib.Data.List.Nodup
import Mathlib.Data.List.Perm.Subperm

/-!
# The traversals as recursive enumerations

A traversal may be stopped after any number of calls to `next` and drained later.  What it yields
does not depend on this: a call takes the first of what `collect` gives, and a traversal that is
done stays done (`yields_collect`).

The traversal in post-order yields what the recursion over the children gives.  The traversal level
by level yields the occurrences one level below the root, then those two levels below, and so on
(`collect_levels`).  Both yield each occurrence once, and those that they yield directly below
another one are its children (`Enumerates`).
-/

namespace ClauseCode

namespace Traversal

variable {s s' : Traversal} {o : Occurrence}

/-! ### Calls -/

/-- Each call leaves one occurrence less. -/
theorem remaining_of_next (h : s.next = some (o, s')) : s.remaining = s'.remaining + 1 := by
  cases s with
  | breadthFirst q =>
    cases q with
    | nil => simp [next] at h
    | cons r q =>
      obtain ⟨rfl, rfl⟩ := Prod.mk.inj (Option.some.inj h)
      rw [remaining, remaining, weightAll, weightAll_append, r.weight_eq_children]
      omega
  | postOrder stack =>
    cases hyield : unvisited stack with
    | nil =>
      cases stack with
      | nil => simp [next] at h
      | cons f stack => simp [unvisited] at hyield
    | cons r os =>
      obtain ⟨stack', hnext, hos⟩ := next_postOrder hyield
      rw [hnext] at h
      obtain ⟨-, rfl⟩ := Prod.mk.inj (Option.some.inj h)
      rw [← length_unvisited, ← length_unvisited, hyield, hos, List.length_cons]

theorem remaining_of_done (h : s.next = none) : s.remaining = 0 := by
  cases s with
  | breadthFirst q =>
    cases q with
    | nil => rfl
    | cons r q => exact nomatch h
  | postOrder stack =>
    match stack with
    | [] => rfl
    | (_, []) :: _ => exact nomatch h
    | (_, _ :: _) :: _ => exact nomatch h

theorem collect_of_next (h : s.next = some (o, s')) : s.collect = o :: s'.collect := by
  rw [collect, remaining_of_next h, take, h]
  rfl

theorem collect_of_done (h : s.next = none) : s.collect = [] := by
  rw [collect, remaining_of_done h, take]

theorem length_collect (s : Traversal) : s.collect.length = s.remaining := by
  induction hn : s.remaining generalizing s with
  | zero => rw [collect, hn, take, List.length_nil]
  | succ n ih =>
    cases hnext : s.next with
    | none =>
      have hdone := remaining_of_done hnext
      omega
    | some r =>
      obtain ⟨o, s'⟩ := r
      have hstep := remaining_of_next hnext
      rw [collect_of_next hnext, List.length_cons, ih s' (by omega)]

/-- The results of `n` calls to `next`, and the state after them.  A traversal that is done stays as
it is. -/
def calls : ℕ → Traversal → List (Option Occurrence) × Traversal
  | 0, s => ([], s)
  | n + 1, s =>
    match s.next with
    | none => (none :: (calls n s).1, (calls n s).2)
    | some (o, s') => (some o :: (calls n s').1, (calls n s').2)

/-- A traversal yields a sequence, whether it is drained at once or after some calls, and nothing
after that. -/
structure Yields (s : Traversal) (os : List Occurrence) : Prop where
  collect : s.collect = os
  results : ∀ n, (s.calls n).1 = (os.take n).map some ++ List.replicate (n - os.length) none
  rest : ∀ n, (s.calls n).2.collect = os.drop n

theorem yields_collect (s : Traversal) : s.Yields s.collect := by
  refine ⟨rfl, fun n => ?_, fun n => ?_⟩
  · induction n generalizing s with
    | zero => simp [calls]
    | succ n ih =>
      rw [calls]
      cases hnext : s.next with
      | none =>
        have hnil := collect_of_done hnext
        have hnone := ih s
        rw [hnil] at hnone ⊢
        simpa [List.replicate_succ] using hnone
      | some r =>
        obtain ⟨o, s'⟩ := r
        rw [collect_of_next hnext]
        simpa using ih s'
  · induction n generalizing s with
    | zero => rw [calls, List.drop_zero]
    | succ n ih =>
      rw [calls]
      cases hnext : s.next with
      | none =>
        have hnil := collect_of_done hnext
        have hrest := ih s
        rw [hnil] at hrest ⊢
        simpa using hrest
      | some r =>
        obtain ⟨o, s'⟩ := r
        rw [collect_of_next hnext, List.drop_succ_cons]
        exact ih s'

end Traversal

/-! ### Levels -/

namespace Occurrence

variable {o p c : Occurrence} {t : Term}

/-- The occurrences a number of levels below an occurrence, from left to right. -/
def below : ℕ → Occurrence → List Occurrence
  | 0, o => [o]
  | d + 1, o => o.children.flatMap (below d)

/-- The next level is made of the children of this one. -/
theorem below_succ (d : ℕ) (o : Occurrence) : below (d + 1) o = (below d o).flatMap children := by
  induction d generalizing o with
  | zero => simp [below]
  | succ d ih =>
    rw [below, below, List.flatMap_assoc]
    exact List.flatMap_congr fun c _ => ih c

/-- There are fewer levels than occurrences. -/
theorem below_eq_nil {d : ℕ} (h : o.term.weight ≤ d) : below d o = [] := by
  induction d generalizing o with
  | zero =>
    rw [o.weight_eq_children] at h
    omega
  | succ d ih =>
    refine List.flatMap_eq_nil_iff.2 fun c hc => ih ?_
    have hlt := weight_lt_of_mem_children hc
    omega

theorem mem_below_iff {d : ℕ} : p ∈ (root t).below d ↔ Within (root t) p ∧ p.depth = d := by
  constructor
  · intro hp
    induction d generalizing p with
    | zero =>
      obtain rfl : p = root t := by simpa [below] using hp
      exact ⟨.self, rfl⟩
    | succ d ih =>
      rw [below_succ, List.mem_flatMap] at hp
      obtain ⟨q, hq, hp⟩ := hp
      obtain ⟨hwithin, hdepth⟩ := ih hq
      exact ⟨.child hwithin hp, by rw [depth_of_mem_children hp, hdepth]⟩
  · rintro ⟨hp, rfl⟩
    induction hp with
    | self => exact List.mem_singleton.2 rfl
    | child _ hc ih =>
      rw [depth_of_mem_children hc, below_succ]
      exact List.mem_flatMap.2 ⟨_, ih, hc⟩

end Occurrence

namespace Traversal

open Occurrence

theorem collect_below (t : Term) (d k : ℕ) :
    (breadthFirst ((root t).below d)).collect =
      (List.range' d k).flatMap (fun e => (root t).below e) ++
        (breadthFirst ((root t).below (d + k))).collect := by
  induction k generalizing d with
  | zero => rfl
  | succ k ih =>
    have hlevel := collect_breadthFirst [] ((root t).below d)
    rw [List.append_nil, List.nil_append, ← below_succ] at hlevel
    rw [hlevel, ih, List.range'_succ, List.flatMap_cons, List.append_assoc, Nat.add_right_comm,
      Nat.add_assoc d k 1]

/-- The traversal level by level yields the levels below the root one after another. -/
theorem collect_levels {t : Term} {k : ℕ} (hk : t.weight ≤ k) :
    (levels t).collect = (List.range' 1 k).flatMap fun d => (root t).below d := by
  have hlast : (root t).below (1 + k) = [] := below_eq_nil (show t.weight ≤ 1 + k by omega)
  have hfirst : (root t).below 1 = (root t).children := by simp [below]
  have hcollect := collect_below t 1 k
  rw [hlast, hfirst, collect_of_done (s := breadthFirst []) rfl, List.append_nil] at hcollect
  exact hcollect

end Traversal

/-! ### Each occurrence once -/

namespace Occurrence

variable {o p c : Occurrence} {t : Term} {os : List Occurrence}

theorem suffix_of_within (h : Within o p) : o.path <:+ p.path := by
  induction h with
  | self => exact List.suffix_refl _
  | child _ hc ih => exact ih.trans (suffix_of_mem_children hc)

/-- Different occurrences within an occurrence have different places. -/
theorem nodup_path_inside (o : Occurrence) : (o.inside.map path).Nodup := by
  induction o using inductionOn with
  | step o ih =>
    have hsuffix : ∀ c ∈ o.children, ∀ l ∈ c.inside.map path, c.path <:+ l := by
      intro c _ l hl
      obtain ⟨p, hp, rfl⟩ := List.mem_map.1 hl
      exact suffix_of_within (mem_inside_iff_within.1 hp)
    rw [inside_eq, List.map_append, List.map_flatMap, List.nodup_append]
    refine ⟨List.nodup_flatMap.2 ⟨ih, ?_⟩, List.nodup_singleton _, ?_⟩
    · -- Children are apart, and so is all that is below them.
      refine (pairwise_apart_children o).imp_of_mem fun {c c'} hc hc' hapart l hl hl' => ?_
      exact hapart l (hsuffix c hc l hl) (hsuffix c' hc' l hl')
    · intro l hl l' hl'
      obtain ⟨c, hc, hl⟩ := List.mem_flatMap.1 hl
      obtain rfl : l' = o.path := by simpa using hl'
      exact path_ne_of_mem_children hc (hsuffix c hc l hl)

/-- Whether an occurrence stands directly below the place of another one. -/
def holds (o c : Occurrence) : Bool :=
  match c.path with
  | [] => false
  | _ :: path => path = o.path

theorem holds_of_mem_children (h : c ∈ o.children) : o.holds c = true := by
  obtain ⟨i, hi⟩ := path_of_mem_children h
  simp [holds, hi]

/-- What stands directly below the place of an occurrence is one of its children. -/
theorem mem_children_of_holds (ho : Within (root t) o) (hc : Within (root t) c)
    (h : o.holds c = true) : c ∈ o.children := by
  cases hc with
  | self => exact nomatch h
  | @child p _ hp hcp =>
    obtain ⟨i, hi⟩ := path_of_mem_children hcp
    have hpath : p.path = o.path := by simpa [holds, hi] using h
    obtain rfl : p = o := List.inj_on_of_nodup_map (nodup_path_inside (root t))
      (mem_inside_iff_within.2 hp) (mem_inside_iff_within.2 ho) hpath
    exact hcp

/-- A sequence of the occurrences of a term that satisfy `P`: each comes once, and those directly
below another one are its children in their order. -/
structure Enumerates (t : Term) (P : Occurrence → Prop) (os : List Occurrence) : Prop where
  mem_iff : ∀ o, o ∈ os ↔ Within (root t) o ∧ P o
  once : (os.map path).Nodup
  children : ∀ o ∈ os, os.filter o.holds = o.children

theorem enumerates_of_sublist {P : Occurrence → Prop}
    (hmem : ∀ o, o ∈ os ↔ Within (root t) o ∧ P o) (hnodup : (os.map path).Nodup)
    (hchildren : ∀ o ∈ os, o.children.Sublist os) : Enumerates t P os := by
  refine ⟨hmem, hnodup, fun o ho => ?_⟩
  have hsub : o.children.Sublist (os.filter o.holds) := by
    have hall : o.children.filter o.holds = o.children :=
      List.filter_eq_self.2 fun c hc => holds_of_mem_children hc
    rw [← hall]
    exact (hchildren o ho).filter o.holds
  -- Nothing else stands there, and nothing stands there twice.
  have hsubset : os.filter o.holds ⊆ o.children := by
    intro c hc
    obtain ⟨hc, hholds⟩ := List.mem_filter.1 hc
    exact mem_children_of_holds ((hmem o).1 ho).1 ((hmem c).1 hc).1 hholds
  have hperm := List.subperm_of_subset (hnodup.of_map.filter o.holds) hsubset
  exact (hsub.eq_of_length_le hperm.length_le).symm

theorem children_sublist_inside (ho : p ∈ o.inside) : p.children.Sublist o.inside := by
  induction o using inductionOn with
  | step o ih =>
    rw [inside_eq]
    refine List.Sublist.trans ?_ (List.sublist_append_left _ _)
    rcases mem_inside_iff.1 ho with ⟨c, hc, hp⟩ | rfl
    · refine (ih c hc hp).trans ?_
      exact List.sublist_flatten_of_mem (List.mem_map.2 ⟨c, hc, rfl⟩)
    · have hself := List.Sublist.flatMap_right p.children (f := fun c => [c]) (g := inside)
        fun c _ => List.singleton_sublist.2 c.self_mem_inside
      rwa [List.flatMap_singleton'] at hself

end Occurrence

namespace Traversal

open Occurrence

variable {t : Term} {o : Occurrence} {q : List Occurrence}

theorem children_sublist_breadthFirst (ho : o ∈ (breadthFirst q).collect) :
    o.children.Sublist (breadthFirst q).collect := by
  induction hw : weightAll q using Nat.strongRecOn generalizing q with
  | ind w ih =>
    cases q with
    | nil => exact nomatch ho
    | cons r q =>
      rw [collect_breadthFirst_cons] at ho ⊢
      refine List.Sublist.trans ?_ (List.sublist_cons_self _ _)
      rcases List.mem_cons.1 ho with rfl | ho
      · have hqueue := collect_breadthFirst [] (q ++ o.children)
        rw [List.append_nil] at hqueue
        rw [hqueue]
        exact (List.sublist_append_right _ _).trans (List.sublist_append_left _ _)
      · refine ih _ ?_ ho rfl
        rw [← hw, weightAll_append, weightAll, r.weight_eq_children]
        omega

theorem enumerates_inside (t : Term) : Enumerates t (fun _ => True) (root t).inside :=
  enumerates_of_sublist (fun _ => by rw [mem_inside_iff_within, and_true])
    (nodup_path_inside (root t)) fun _ => children_sublist_inside

theorem mem_collect_levels_iff :
    o ∈ (levels t).collect ↔ Within (root t) o ∧ o ≠ root t := by
  rw [mem_collect_levels, ← mem_inside_iff_within, mem_inside_iff]
  constructor
  · rintro ⟨c, hc, ho⟩
    refine ⟨Or.inl ⟨c, hc, ho⟩, ?_⟩
    rintro rfl
    have hdepth := depth_of_mem_children hc
    have hle := depth_le_of_mem_inside ho
    omega
  · rintro ⟨ho | rfl, hne⟩
    · exact ho
    · exact absurd rfl hne

/-- Both traversals yield the same occurrences, the root apart. -/
theorem perm_levels (t : Term) :
    ((root t).children.flatMap inside).Perm (levels t).collect := by
  have hnodup : ((root t).children.flatMap inside).Nodup := by
    have hinside := (nodup_path_inside (root t)).of_map
    rw [inside_eq] at hinside
    exact hinside.of_append_left
  have hsubset : (root t).children.flatMap inside ⊆ (levels t).collect := by
    intro o ho
    exact mem_collect_levels.2 (List.mem_flatMap.1 ho)
  refine (List.subperm_of_subset hnodup hsubset).perm_of_length_le ?_
  rw [length_collect, length_flatMap_inside fun c _ => length_inside c]
  exact Nat.le_refl _

theorem enumerates_levels (t : Term) : Enumerates t (· ≠ root t) (levels t).collect := by
  refine enumerates_of_sublist (fun o => mem_collect_levels_iff) ?_ fun o ho =>
    children_sublist_breadthFirst ho
  have hinside := nodup_path_inside (root t)
  rw [inside_eq, List.map_append] at hinside
  exact ((perm_levels t).map path).nodup_iff.1 hinside.of_append_left

/-- The traversals of a term are the recursive ones.  In post-order, the children of an occurrence
come from left to right and each after all within it, and the root comes last.  Level by level, the
occurrences of depth 1 come from left to right, then those of depth 2, and so on; there are none
deeper than the weight of the term.  Each occurrence comes once, and those directly below another
one are its children: the arguments of a compound, or the head and the tail of the first cell of a
list, one level deeper.  It does not matter how many calls are made before the rest is collected,
and nothing comes after the last one. -/
theorem yields_recursive (t : Term) :
    (bottomUp t).Yields (inside ⟨t, 0, []⟩) ∧
      (∀ o : Occurrence, o.inside = o.children.flatMap inside ++ [o]) ∧
      (∀ k, (levels t).Yields ((List.range' 1 (t.weight + k)).flatMap (below · ⟨t, 0, []⟩))) ∧
      (∀ d o, o ∈ below d ⟨t, 0, []⟩ ↔ Within ⟨t, 0, []⟩ o ∧ o.depth = d) ∧
      (∀ f args b depth path, children ⟨.comp f args b, depth, path⟩ =
        args.mapIdx fun i arg => ⟨arg, depth + 1, i :: path⟩) ∧
      (∀ head rest tail b depth path, ∃ after,
        (Term.list head rest tail b).cell = .ok (head, after) ∧
          children ⟨.list head rest tail b, depth, path⟩ =
            [⟨head, depth + 1, 0 :: path⟩, ⟨after, depth + 1, 1 :: path⟩]) ∧
      Enumerates t (fun _ => True) (bottomUp t).collect ∧
      Enumerates t (· ≠ ⟨t, 0, []⟩) (levels t).collect := by
  have hbottomUp : (bottomUp t).collect = (root t).inside := by
    rw [collect_bottomUp, inside_eq]
  refine ⟨?_, inside_eq, fun k => ?_, fun d o => mem_below_iff, children_comp,
    fun head rest tail b depth path => ⟨_, rfl, children_of_cell rfl depth path⟩, ?_,
    enumerates_levels t⟩
  · rw [← root, ← hbottomUp]
    exact yields_collect _
  · rw [← root, ← collect_levels (Nat.le_add_right t.weight k)]
    exact yields_collect _
  · rw [hbottomUp]
    exact enumerates_inside t

/-- The occurrences in `p([a|X], q)` from the bottom up. -/
example : (bottomUp (.apply "p" [.prepend [.atom "a"] (.var "X"), .apply "q" []])).collect =
    [⟨.atom "a", 2, [0, 0]⟩, ⟨.var "X", 2, [1, 0]⟩, ⟨.chain (.atom "a") [] (.var "X"), 1, [0]⟩,
      ⟨.apply "q" [], 1, [1]⟩,
      ⟨.apply "p" [.prepend [.atom "a"] (.var "X"), .apply "q" []], 0, []⟩] := rfl

/-- The same term level by level. -/
example : (levels (.apply "p" [.prepend [.atom "a"] (.var "X"), .apply "q" []])).collect =
    [⟨.chain (.atom "a") [] (.var "X"), 1, [0]⟩, ⟨.apply "q" [], 1, [1]⟩, ⟨.atom "a", 2, [0, 0]⟩,
      ⟨.var "X", 2, [1, 0]⟩] := rfl

end Traversal

end ClauseCode
