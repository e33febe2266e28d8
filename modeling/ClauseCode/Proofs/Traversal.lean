import ClauseCode.Compile.Traversal
import Mathlib.Data.List.Basic

/-!
# What the traversals visit

A traversal is a machine that yields one occurrence at a time.  Here its yield is described by
equations: a traversal in post-order yields the recursive post-order of what is on its stack
(`collect_postOrder`), and a traversal level by level yields the first occurrence of its queue and
goes on with the children of that occurrence at the end of the queue
(`collect_breadthFirst_cons`).

Both rest on the weight of a term, which is one more than that of its children together.

In either order, the occurrences below the root that a traversal visits are those in and below the
children of the root (`mem_collect_bottomUp`, `mem_collect_levels`).
-/

namespace ClauseCode

namespace Term

theorem weightCells_append (ts us : List Term) :
    weightCells (ts ++ us) = weightCells ts + weightCells us := by
  induction ts with
  | nil => simp [weightCells]
  | cons t ts ih =>
    rw [List.cons_append, weightCells, weightCells, ih]
    omega

theorem weight_chain (head : Term) (rest : List Term) (tail : Term) :
    (chain head rest tail).weight = weightCells (head :: rest) + tail.weight := by
  rw [chain, weight, weightCells]

theorem weight_prepend (ts : List Term) (tail : Term) :
    (prepend ts tail).weight = weightCells ts + tail.weight := by
  unfold prepend
  split
  · simp [weightCells]
  · rw [weight_chain, ← List.cons_append, weightCells_append, Nat.add_assoc, ← weight_chain, weight,
      chain, weight]
  · exact weight_chain _ _ _

theorem weight_afterCells (n : Nat) (head : Term) (rest : List Term) (tail : Term) (b : Bool) :
    (afterCells n head rest tail b).weight = weightCells ((head :: rest).drop n) + tail.weight := by
  unfold afterCells
  split
  next h => simp [h, weightCells]
  next t ts h =>
    rw [h]
    split
    · exact weight_prepend _ _
    · rw [weight, weightCells]

/-- A term weighs one more than its children. -/
theorem weight_eq_children (t : Term) : t.weight = weightAll t.children + 1 := by
  cases t with
  | comp f args b =>
    rw [weight, children]
    omega
  | list head rest tail b =>
    rw [children, weight, weightAll, weightAll, weightAll, weight_afterCells, List.drop_one,
      List.tail_cons]
    omega
  | atom | int | var => rfl

end Term

namespace Occurrence

theorem weightAll_childrenFrom (depth : Nat) (path : List Nat) (i : Nat) (ts : List Term) :
    Traversal.weightAll (childrenFrom depth path i ts) = Term.weightAll ts := by
  induction ts generalizing i with
  | nil => rfl
  | cons t ts ih => rw [childrenFrom, Traversal.weightAll, Term.weightAll, ih]

theorem weight_eq_children (o : Occurrence) :
    o.term.weight = Traversal.weightAll o.children + 1 := by
  rw [children, weightAll_childrenFrom, Term.weight_eq_children]

theorem weight_le_weightAll {o : Occurrence} {os : List Occurrence} (h : o ∈ os) :
    o.term.weight ≤ Traversal.weightAll os := by
  induction os with
  | nil => simp at h
  | cons o' os ih =>
    rw [Traversal.weightAll]
    rcases List.mem_cons.1 h with rfl | h
    · omega
    · have := ih h
      omega

theorem weight_lt_of_mem_children {o c : Occurrence} (h : c ∈ o.children) :
    c.term.weight < o.term.weight := by
  have := weight_le_weightAll h
  rw [weight_eq_children o]
  omega

/-- What holds of an occurrence if it holds of its children holds of every occurrence. -/
theorem inductionOn {motive : Occurrence → Prop} (o : Occurrence)
    (step : ∀ o, (∀ c ∈ o.children, motive c) → motive o) : motive o := by
  induction hw : o.term.weight using Nat.strongRecOn generalizing o with
  | ind w ih => exact step o fun c hc => ih _ (hw ▸ weight_lt_of_mem_children hc) c rfl

/-- The occurrences in and below an occurrence, children before the term that holds them. -/
def inside (o : Occurrence) : List Occurrence :=
  (o.children.attach.flatMap fun c => c.1.inside) ++ [o]
termination_by o.term.weight
decreasing_by exact weight_lt_of_mem_children c.2

theorem inside_eq (o : Occurrence) : o.inside = o.children.flatMap inside ++ [o] := by
  rw [inside]
  congr 1
  rw [List.flatMap_subtype (g := inside) (fun _ _ => rfl), List.unattach_attach]

theorem childrenFrom_eq_mapIdx (depth : Nat) (path : List Nat) (i : Nat) (ts : List Term) :
    childrenFrom depth path i ts = ts.mapIdx fun j t => ⟨t, depth + 1, (i + j) :: path⟩ := by
  induction ts generalizing i with
  | nil => rfl
  | cons t ts ih =>
    rw [childrenFrom, ih, List.mapIdx_cons]
    simp only [Nat.add_zero, Nat.add_assoc, Nat.add_comm 1]

/-- The children of a compound are its arguments. -/
theorem children_comp (f : String) (args : List Term) (b : Bool) (depth : Nat) (path : List Nat) :
    children ⟨.comp f args b, depth, path⟩ =
      args.mapIdx fun i arg => ⟨arg, depth + 1, i :: path⟩ := by
  rw [children, Term.children, childrenFrom_eq_mapIdx]
  simp only [Nat.zero_add]

/-- The children of a list are the two parts of its first cell. -/
theorem children_of_cell {t head tail : Term} (h : t.cell = .ok (head, tail)) (depth : Nat)
    (path : List Nat) :
    children ⟨t, depth, path⟩ = [⟨head, depth + 1, 0 :: path⟩, ⟨tail, depth + 1, 1 :: path⟩] := by
  cases t with
  | list head' rest tail' b =>
    obtain ⟨rfl, rfl⟩ := Prod.mk.inj (Except.ok.inj h)
    rfl
  | _ => simp [Term.cell] at h

theorem children_eq_nil {o : Occurrence} (h : o.term.children = []) : o.children = [] := by
  rw [children, h, childrenFrom]

theorem mem_inside_iff {o p : Occurrence} :
    p ∈ o.inside ↔ (∃ c ∈ o.children, p ∈ c.inside) ∨ p = o := by
  rw [inside_eq, List.mem_append, List.mem_flatMap, List.mem_singleton]

theorem self_mem_inside (o : Occurrence) : o ∈ o.inside := mem_inside_iff.2 (Or.inr rfl)

theorem mem_inside_of_mem_children {o p c : Occurrence} (hp : p ∈ o.inside)
    (hc : c ∈ p.children) : c ∈ o.inside := by
  induction o using inductionOn with
  | step o ih =>
    rcases mem_inside_iff.1 hp with ⟨r, hr, hp⟩ | rfl
    · exact mem_inside_iff.2 (Or.inl ⟨r, hr, ih r hr hp⟩)
    · exact mem_inside_iff.2 (Or.inl ⟨c, hc, c.self_mem_inside⟩)

/-- An occurrence is within itself, and so are the children of what is within it. -/
inductive Within (o : Occurrence) : Occurrence → Prop
  | self : Within o o
  | child {p c : Occurrence} (hp : Within o p) (hc : c ∈ p.children) : Within o c

theorem Within.of_mem_children {o c p : Occurrence} (hc : c ∈ o.children) (h : Within c p) :
    Within o p := by
  induction h with
  | self => exact .child .self hc
  | child _ hp ih => exact .child ih hp

theorem mem_inside_iff_within {o p : Occurrence} : p ∈ o.inside ↔ Within o p := by
  constructor
  · intro hp
    induction o using inductionOn with
    | step o ih =>
      rcases mem_inside_iff.1 hp with ⟨c, hc, hp⟩ | rfl
      · exact (ih c hc hp).of_mem_children hc
      · exact .self
  · intro h
    induction h with
    | self => exact o.self_mem_inside
    | child _ hc ih => exact mem_inside_of_mem_children ih hc

end Occurrence

namespace Traversal

open Occurrence

theorem weightAll_append (os os' : List Occurrence) :
    weightAll (os ++ os') = weightAll os + weightAll os' := by
  induction os with
  | nil => simp [weightAll]
  | cons o os ih =>
    rw [List.cons_append, weightAll, weightAll, ih]
    omega

/-! ### Level by level -/

/-- A traversal level by level yields the first of its queue, and queues up what is below. -/
theorem collect_breadthFirst_cons (o : Occurrence) (q : List Occurrence) :
    (breadthFirst (o :: q)).collect = o :: (breadthFirst (q ++ o.children)).collect := by
  have hrem : (breadthFirst (o :: q)).remaining =
      (breadthFirst (q ++ o.children)).remaining + 1 := by
    rw [remaining, remaining, weightAll, weightAll_append, o.weight_eq_children]
    omega
  rw [collect, hrem, take, next]
  rfl

/-! ### Post-order -/

/-- What a stack stands for: for each of its occurrences, what is below the children still to be
visited, and then the occurrence itself. -/
def unvisited (stack : List (Occurrence × List Occurrence)) : List Occurrence :=
  stack.flatMap fun f => f.2.flatMap inside ++ [f.1]

theorem unvisited_cons (o : Occurrence) (cs : List Occurrence)
    (stack : List (Occurrence × List Occurrence)) :
    unvisited ((o, cs) :: stack) = cs.flatMap inside ++ o :: unvisited stack := by
  rw [unvisited, List.flatMap_cons, List.append_assoc, List.singleton_append]
  rfl

theorem unvisited_descend (stack : List (Occurrence × List Occurrence)) (depth : Nat)
    (path : List Nat) (t : Term) :
    (⟨t, depth, path⟩ : Occurrence).inside ++ unvisited stack =
      (descend stack depth path t).1 :: unvisited (descend stack depth path t).2 := by
  fun_induction descend stack depth path t with
  | case1 stack depth path f t ts b ih =>
    rw [← ih, unvisited_cons, inside_eq]
    simp [children, Term.children, childrenFrom]
  | case2 stack depth path head rest tail b ih =>
    rw [← ih, unvisited_cons, inside_eq]
    simp [children, Term.children, childrenFrom]
  | case3 stack depth path t hcomp hlist =>
    have hnil : t.children = [] := by
      cases t with
      | comp f args b =>
        cases args with
        | nil => rfl
        | cons t ts => exact absurd rfl (hcomp f t ts b)
      | list head rest tail b => exact absurd rfl (hlist head rest tail b)
      | atom | int | var => rfl
    rw [inside_eq, children_eq_nil hnil]
    rfl

/-- One step of a traversal in post-order takes the first of what its stack stands for. -/
theorem next_postOrder {stack : List (Occurrence × List Occurrence)} {o : Occurrence}
    {os : List Occurrence} (h : unvisited stack = o :: os) :
    ∃ stack', (postOrder stack).next = some (o, postOrder stack') ∧ unvisited stack' = os := by
  match stack with
  | [] => simp [unvisited] at h
  | (o', []) :: stack =>
    rw [unvisited_cons] at h
    obtain ⟨rfl, rfl⟩ : o' = o ∧ unvisited stack = os := by simpa using h
    exact ⟨stack, rfl, rfl⟩
  | (o', c :: cs) :: stack =>
    have hd := unvisited_descend ((o', cs) :: stack) c.depth c.path c.term
    rw [unvisited_cons] at hd h
    rw [List.flatMap_cons, List.append_assoc, hd, List.cons.injEq] at h
    refine ⟨(descend ((o', cs) :: stack) c.depth c.path c.term).2, ?_, h.2⟩
    rw [← h.1]
    rfl

theorem take_postOrder (n : Nat) (stack : List (Occurrence × List Occurrence)) :
    (postOrder stack).take n = (unvisited stack).take n := by
  induction n generalizing stack with
  | zero => simp [take]
  | succ n ih =>
    cases h : unvisited stack with
    | nil =>
      match stack with
      | [] => rfl
      | (o, cs) :: stack => simp [unvisited_cons] at h
    | cons o os =>
      obtain ⟨stack', hnext, hos⟩ := next_postOrder h
      rw [take, hnext, List.take_succ_cons]
      show o :: take n (postOrder stack') = o :: os.take n
      rw [ih, hos]

theorem length_flatMap_inside {os : List Occurrence}
    (h : ∀ o ∈ os, o.inside.length = o.term.weight) :
    (os.flatMap inside).length = weightAll os := by
  induction os with
  | nil => rfl
  | cons o os ih =>
    rw [List.flatMap_cons, List.length_append, weightAll, h o (by simp),
      ih fun o' ho' => h o' (by simp [ho'])]

theorem length_inside (o : Occurrence) : o.inside.length = o.term.weight := by
  induction o using inductionOn with
  | step o ih =>
    rw [inside_eq, List.length_append, List.length_singleton, length_flatMap_inside ih,
      o.weight_eq_children]

theorem length_unvisited (stack : List (Occurrence × List Occurrence)) :
    (unvisited stack).length = (postOrder stack).remaining := by
  induction stack with
  | nil => rfl
  | cons f stack ih =>
    obtain ⟨o, cs⟩ := f
    rw [remaining] at ih ⊢
    rw [unvisited_cons, List.length_append, List.length_cons, ih,
      length_flatMap_inside fun c _ => length_inside c, List.foldr_cons]
    show _ = 1 + weightAll cs + _
    omega

/-- A traversal in post-order yields what its stack stands for. -/
theorem collect_postOrder (stack : List (Occurrence × List Occurrence)) :
    (postOrder stack).collect = unvisited stack := by
  rw [collect, take_postOrder, ← length_unvisited, List.take_length]

/-- The traversal of a term in post-order visits what is below its children, and then the term. -/
theorem collect_bottomUp (t : Term) :
    (bottomUp t).collect = (root t).children.flatMap inside ++ [root t] := by
  rw [bottomUp, collect_postOrder, unvisited_cons]
  rfl

theorem mem_collect_bottomUp {t : Term} {o : Occurrence} (hroot : o.isRoot = false) :
    o ∈ (bottomUp t).collect ↔ ∃ c ∈ (root t).children, o ∈ c.inside := by
  have hne : o ≠ root t := by
    rintro rfl
    simp [root, isRoot] at hroot
  rw [collect_bottomUp, List.mem_append, List.mem_flatMap, List.mem_singleton, or_iff_left hne]

/-- A traversal level by level yields its queue before anything below. -/
theorem collect_breadthFirst (q os : List Occurrence) :
    (breadthFirst (os ++ q)).collect =
      os ++ (breadthFirst (q ++ os.flatMap children)).collect := by
  induction os generalizing q with
  | nil => rw [List.nil_append, List.nil_append, List.flatMap_nil, List.append_nil]
  | cons o os ih =>
    rw [List.cons_append, collect_breadthFirst_cons, List.append_assoc, ih, List.flatMap_cons,
      List.append_assoc, List.cons_append]

theorem mem_collect_breadthFirst {q : List Occurrence} {o : Occurrence} :
    o ∈ (breadthFirst q).collect ↔ ∃ r ∈ q, o ∈ r.inside := by
  induction hw : weightAll q using Nat.strongRecOn generalizing q with
  | ind w ih =>
    cases q with
    | nil => simp [collect, remaining, weightAll, take]
    | cons r q =>
      have hlt : weightAll (q ++ r.children) < w := by
        rw [← hw, weightAll_append, weightAll, r.weight_eq_children]
        omega
      rw [collect_breadthFirst_cons, List.mem_cons, ih _ hlt rfl]
      constructor
      · rintro (rfl | ⟨r', hr', ho⟩)
        · exact ⟨o, List.mem_cons_self, o.self_mem_inside⟩
        · rcases List.mem_append.1 hr' with hr' | hr'
          · exact ⟨r', List.mem_cons_of_mem _ hr', ho⟩
          · exact ⟨r, List.mem_cons_self, mem_inside_iff.2 (Or.inl ⟨r', hr', ho⟩)⟩
      · rintro ⟨r', hr', ho⟩
        rcases List.mem_cons.1 hr' with rfl | hr'
        · rcases mem_inside_iff.1 ho with ⟨c, hc, ho⟩ | rfl
          · exact Or.inr ⟨c, List.mem_append_right _ hc, ho⟩
          · exact Or.inl rfl
        · exact Or.inr ⟨r', List.mem_append_left _ hr', ho⟩

theorem mem_collect_levels {t : Term} {o : Occurrence} :
    o ∈ (levels t).collect ↔ ∃ c ∈ (root t).children, o ∈ c.inside :=
  mem_collect_breadthFirst

end Traversal

/-- An occurrence below another one is a child of one that is not further below. -/
theorem Occurrence.eq_or_mem_children_of_mem_inside {o o' : Occurrence} (h : o' ∈ o.inside) :
    o' = o ∨ ∃ p ∈ o.inside, o' ∈ p.children := by
  cases mem_inside_iff_within.1 h with
  | self => exact Or.inl rfl
  | child hp hc => exact Or.inr ⟨_, mem_inside_iff_within.2 hp, hc⟩

end ClauseCode
