import ClauseCode.Proofs.Labels
import ClauseCode.Proofs.Renaming
import Mathlib.Data.Set.Function

/-!
# Trees up to a renaming of variables

A tree is an instance of another one if it comes out of it by replacing variables.  Trees that are
instances of each other differ only in the names of their variables (`exists_var_of_instances`):
what replaces a variable on the way there is replaced by that variable on the way back, so that it
can only be a variable itself.

Two lists of trees that become the same when their variables are numbered, each list with its own
numbers, are the same up to a bijection between their variables (`exists_bijection`).

A tree over names matches another tree if and only if the latter is an instance of the former with
its blanks told apart; `bind_reading` reads off what the blanks stand for from the places
where they stand.
-/

namespace ClauseCode.Tree

variable {U V W : Type}

/-! ### Replacing variables -/

@[simp] theorem bind_node (f : V → Tree W) (k : Kind) (ts : List (Tree V)) :
    (node k ts).bind f = node k (ts.map (bind f)) := by
  rw [bind, bindAll_eq_map]

theorem bind_bind (f : U → Tree V) (g : V → Tree W) (t : Tree U) :
    (t.bind f).bind g = t.bind fun v => (f v).bind g := by
  induction t with
  | var v => rfl
  | constant c => rfl
  | node k ts ih =>
    rw [bind_node, bind_node, bind_node, List.map_map]
    exact congrArg (node k) (List.map_congr_left ih)

theorem bind_congr {f g : V → Tree W} {t : Tree V} (h : ∀ v ∈ t.vars, f v = g v) :
    t.bind f = t.bind g := by
  induction t with
  | var v => exact h v (by simp)
  | constant c => rfl
  | node k ts ih =>
    rw [bind_node, bind_node]
    refine congrArg (node k) (List.map_congr_left fun t ht => ih t ht fun v hv => ?_)
    exact h v (mem_vars_node.2 ⟨t, ht, hv⟩)

theorem bind_var (t : Tree V) : t.bind var = t := by
  induction t with
  | var v => rfl
  | constant c => rfl
  | node k ts ih =>
    rw [bind_node]
    exact congrArg (node k) ((List.map_congr_left ih).trans (List.map_id ts))

theorem mem_vars_bind {f : V → Tree W} {t : Tree V} {w : W} :
    w ∈ (t.bind f).vars ↔ ∃ v ∈ t.vars, w ∈ (f v).vars := by
  induction t with
  | var v => simp [bind]
  | constant c => simp [bind]
  | node k ts ih =>
    rw [bind_node, mem_vars_node]
    constructor
    · rintro ⟨u, hu, hw⟩
      obtain ⟨t, ht, rfl⟩ := List.mem_map.1 hu
      obtain ⟨v, hv, hwv⟩ := (ih t ht).1 hw
      exact ⟨v, mem_vars_node.2 ⟨t, ht, hv⟩, hwv⟩
    · rintro ⟨v, hv, hw⟩
      obtain ⟨t, ht, hvt⟩ := mem_vars_node.1 hv
      exact ⟨t.bind f, List.mem_map.2 ⟨t, ht, rfl⟩, (ih t ht).2 ⟨v, hvt, hw⟩⟩

theorem mem_vars_rename {r : V → W} {t : Tree V} {w : W} :
    w ∈ (t.rename r).vars ↔ ∃ v ∈ t.vars, w = r v := by
  rw [rename, mem_vars_bind]
  simp

theorem rename_rename (r : U → V) (r' : V → W) (t : Tree U) :
    (t.rename r).rename r' = t.rename (r' ∘ r) :=
  bind_bind _ _ t

theorem map_rename_rename (r : U → V) (r' : V → W) (ts : List (Tree U)) :
    (ts.map (rename r)).map (rename r') = ts.map (rename (r' ∘ r)) := by
  rw [List.map_map]
  exact List.map_congr_left fun t _ => rename_rename r r' t

theorem rename_eq_self {r : V → V} {t : Tree V} (h : ∀ v ∈ t.vars, r v = v) : t.rename r = t :=
  (bind_congr fun v hv => congrArg var (h v hv)).trans t.bind_var

/-- Only a variable is replaced by a variable. -/
theorem exists_var_of_bind_eq_var {f : V → Tree W} {t : Tree V} {w : W} (h : t.bind f = var w) :
    ∃ v, t = var v ∧ f v = var w := by
  cases t with
  | var v => exact ⟨v, rfl, h⟩
  | constant c => simp [bind] at h
  | node k ts => simp at h

/-! ### Instances of each other -/

/-- If two trees are instances of each other, then each variable of one is replaced by a variable of
the other, which in turn is replaced by it. -/
theorem exists_var_of_instances {t : Tree V} {u : Tree W} {f : V → Tree W} {g : W → Tree V}
    (hf : t.bind f = u) (hg : u.bind g = t) {v : V} (hv : v ∈ t.vars) :
    ∃ w, f v = var w ∧ g w = var v := by
  have hround : t.bind (fun v => (f v).bind g) = t.bind var := by
    rw [← bind_bind, hf, hg, bind_var]
  exact exists_var_of_bind_eq_var (agree_of_bind_eq hround hv)

/-- The variables of several trees. -/
def varsIn (ts : List (Tree V)) : Set V := {v | ∃ t ∈ ts, v ∈ t.vars}

/-- If two lists of trees are the same when the variables of each are numbered, then they are the
same up to a bijection between their variables. -/
theorem exists_bijection {ts : List (Tree V)} {us : List (Tree W)} {e : V → ℕ} {e' : W → ℕ}
    (he : Set.InjOn e (varsIn ts)) (he' : Set.InjOn e' (varsIn us))
    (h : ts.map (rename e) = us.map (rename e')) (hW : Nonempty W) :
    ∃ r : V → W, Set.BijOn r (varsIn ts) (varsIn us) ∧ ts.map (rename r) = us := by
  -- Both lists have the same numbers.
  have hvars : ∀ m, (∃ v ∈ varsIn ts, m = e v) ↔ ∃ w ∈ varsIn us, m = e' w := by
    have hmem : ∀ {X : Type} (xs : List (Tree X)) (i : X → ℕ) (m : ℕ),
        (∃ x ∈ varsIn xs, m = i x) ↔ ∃ t ∈ xs.map (rename i), m ∈ t.vars := by
      intro X xs i m
      constructor
      · rintro ⟨x, ⟨t, ht, hx⟩, rfl⟩
        exact ⟨t.rename i, List.mem_map.2 ⟨t, ht, rfl⟩, mem_vars_rename.2 ⟨x, hx, rfl⟩⟩
      · rintro ⟨u, hu, hm⟩
        obtain ⟨t, ht, rfl⟩ := List.mem_map.1 hu
        obtain ⟨x, hx, rfl⟩ := mem_vars_rename.1 hm
        exact ⟨x, ⟨t, ht, hx⟩, rfl⟩
    intro m
    rw [hmem, hmem, h]
  let r : V → W := Function.invFunOn e' (varsIn us) ∘ e
  have hr : ∀ v ∈ varsIn ts, r v ∈ varsIn us ∧ e' (r v) = e v := by
    intro v hv
    obtain ⟨w, hw, heq⟩ := (hvars (e v)).1 ⟨v, hv, rfl⟩
    exact Function.invFunOn_pos ⟨w, hw, heq.symm⟩
  refine ⟨r, ⟨fun v hv => (hr v hv).1, fun v hv v' hv' heq => ?_, fun w hw => ?_⟩, ?_⟩
  · refine he hv hv' ?_
    rw [← (hr v hv).2, ← (hr v' hv').2, heq]
  · obtain ⟨v, hv, heq⟩ := (hvars (e' w)).2 ⟨w, hw, rfl⟩
    refine ⟨v, hv, he' (hr v hv).1 hw ?_⟩
    rw [(hr v hv).2, heq]
  · have hback : us.map (rename (Function.invFunOn e' (varsIn us) ∘ e')) = us := by
      refine (List.map_congr_left fun u hu => ?_).trans (List.map_id us)
      exact rename_eq_self fun w hw => he'.leftInvOn_invFunOn ⟨u, hu, hw⟩
    calc ts.map (rename r)
        = (ts.map (rename e)).map (rename (Function.invFunOn e' (varsIn us))) :=
          (map_rename_rename e (Function.invFunOn e' (varsIn us)) ts).symm
      _ = (us.map (rename e')).map (rename (Function.invFunOn e' (varsIn us))) := by rw [h]
      _ = us.map (rename (Function.invFunOn e' (varsIn us) ∘ e')) := map_rename_rename _ _ us
      _ = us := hback

/-! ### Matching as an instance -/

/-- The tree at a place, from the root on. -/
def at? : Tree V → List ℕ → Option (Tree V)
  | t, [] => some t
  | node _ ts, j :: path => (ts[j]?).bind fun t => t.at? path
  | _, _ :: _ => none

theorem at?_concat {t : Tree V} {path : List ℕ} {k : Kind} {ts : List (Tree V)}
    (h : t.at? path = some (node k ts)) (j : ℕ) : t.at? (path ++ [j]) = ts[j]? := by
  induction path generalizing t with
  | nil =>
    obtain rfl : t = node k ts := by simpa [at?] using h
    rw [List.nil_append, at?]
    cases ts[j]? with
    | none => rfl
    | some u => simp [at?]
  | cons i path ih =>
    cases t with
    | var v => simp [at?] at h
    | constant c => simp [at?] at h
    | node k' us =>
      rw [at?] at h
      obtain ⟨u, hu, hat⟩ := Option.bind_eq_some_iff.1 h
      rw [List.cons_append, at?, hu, Option.bind_some, ih hat]

/-- What labels stand for if names stand for what `σ` says and blanks for what is at their places
in a given tree. -/
def reading (σ : String → Tree ℕ) (whole : Tree ℕ) : Label → Tree ℕ
  | .named x => σ x
  | .blank _ path => (whole.at? path.reverse).getD (.var 0)

/-- A tree that matches is an instance, where blanks stand for what is at their places. -/
theorem bind_reading {σ : String → Tree ℕ} {whole : Tree ℕ} {t : Tree String} {u : Tree ℕ}
    {path : List ℕ} (h : t.Matches σ u) (hat : whole.at? path.reverse = some u) (i : ℕ) :
    (t.label i path).bind (reading σ whole) = u := by
  induction t generalizing u path with
  | var x =>
    by_cases hx : x = Term.anonymous
    · rw [label, if_pos hx]
      show (whole.at? path.reverse).getD (.var 0) = u
      rw [hat, Option.getD_some]
    · rw [label, if_neg hx]
      exact ((matches_var hx).1 h).symm
  | constant c => exact (matches_constant.1 h).symm
  | node k ts ih =>
    obtain ⟨us, rfl, hus⟩ := matches_node.1 h
    rw [label, bind_node]
    refine congrArg (node k) (List.ext_getElem? fun j => ?_)
    have hplace := at?_concat hat j
    rw [List.getElem?_map, getElem?_labelAll, Nat.zero_add]
    -- Child `j` is at the place of the node with `j` added.
    cases hj : ts[j]? with
    | none =>
      have hlen : ts.length ≤ j := List.getElem?_eq_none_iff.1 hj
      rw [hus.length_eq] at hlen
      rw [List.getElem?_eq_none hlen]
      rfl
    | some t =>
      obtain ⟨hjlt, rfl⟩ := List.getElem?_eq_some_iff.1 hj
      have hjlt' : j < us.length := hus.length_eq ▸ hjlt
      have hu : us[j]? = some (us.get ⟨j, hjlt'⟩) := by simp
      have hmatch := (List.forall₂_iff_get.1 hus).2 j hjlt hjlt'
      rw [hu, Option.map_some, Option.map_some]
      refine congrArg some (ih _ (List.getElem_mem hjlt) hmatch ?_)
      rw [List.reverse_cons, hplace, hu]

/-- A tree with its blanks told apart matches each of its instances. -/
theorem matches_bind_label {σ : String → Tree ℕ} {ρ : Label → Tree ℕ} {t : Tree String}
    (h : ∀ x ∈ t.vars, x ≠ Term.anonymous → ρ (.named x) = σ x) (i : ℕ) (path : List ℕ) :
    t.Matches σ ((t.label i path).bind ρ) := by
  induction t generalizing path with
  | var x =>
    by_cases hx : x = Term.anonymous
    · subst hx
      exact matches_anonymous
    · rw [label, if_neg hx]
      exact (matches_var hx).2 (h x (by simp) hx)
  | constant c => exact matches_constant.2 rfl
  | node k ts ih =>
    rw [label, bind_node]
    refine matches_node.2 ⟨_, rfl, List.forall₂_iff_get.2 ⟨?_, fun j hj hj' => ?_⟩⟩
    · rw [List.length_map, length_labelAll]
    · have hget : (labelAll i path 0 ts)[j]? = some (ts[j].label i (j :: path)) := by
        rw [getElem?_labelAll, List.getElem?_eq_getElem hj, Nat.zero_add]
        rfl
      have hlt : j < (labelAll i path 0 ts).length := by
        rw [length_labelAll]
        exact hj
      rw [List.getElem?_eq_getElem hlt, Option.some.injEq] at hget
      rw [List.get_eq_getElem, List.get_eq_getElem, List.getElem_map, hget]
      refine ih _ (List.getElem_mem hj) (fun x hx => h x ?_) _
      exact mem_vars_node.2 ⟨_, List.getElem_mem hj, hx⟩

end ClauseCode.Tree
