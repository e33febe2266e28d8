import ClauseCode.Proofs.Tree
import Mathlib.Data.List.Nodup

/-!
# Labels for variables

In the goals of a clause a name stands for the same variable wherever it occurs, and each
occurrence of the anonymous variable stands for a variable of its own.  Labels tell these variables
apart: `named x` for a name, and `blank i path` for the occurrence of the anonymous variable at a
place of goal `i`.  `Tree.label` puts labels in place of names.

An environment says which trees some of the labels stand for.  `Builds G t u` says that the
environment `G` knows enough about the tree `t` over labels to tell that it stands for `u`.
-/

namespace ClauseCode

/-- A variable of a clause. -/
inductive Label where
  /-- A variable with a name. -/
  | named (x : String)
  /-- An occurrence of the anonymous variable: the number of the goal and the place there. -/
  | blank (goal : ℕ) (path : List ℕ)
  deriving DecidableEq, Repr

namespace Label

/-- The name that a variable is written with. -/
def name : Label → String
  | named x => x
  | blank .. => Term.anonymous

/-- Whether a variable is an occurrence of the anonymous variable. -/
def isBlank : Label → Bool
  | named _ => false
  | blank .. => true

theorem named_ne_of_isBlank {l : Label} (h : l.isBlank = true) (x : String) : named x ≠ l := by
  rintro rfl
  simp [isBlank] at h

end Label

namespace Tree

mutual

/-- A tree at a place of goal `i`, with labels in place of names. -/
def label (i : ℕ) (path : List ℕ) : Tree String → Tree Label
  | var x => var (if x = Term.anonymous then .blank i path else .named x)
  | constant c => constant c
  | node k ts => node k (labelAll i path 0 ts)

/-- The children from number `j` on at a place of goal `i`, with labels in place of names. -/
def labelAll (i : ℕ) (path : List ℕ) (j : ℕ) : List (Tree String) → List (Tree Label)
  | [] => []
  | t :: ts => label i (j :: path) t :: labelAll i path (j + 1) ts

end

/-- A tree over labels with names in place of labels. -/
def names (t : Tree Label) : Tree String := t.bind fun l => .var l.name

@[simp] theorem names_var (l : Label) : (var l).names = var l.name := rfl

@[simp] theorem names_constant (c : Constant) : (constant c).names = constant c := rfl

@[simp] theorem names_node (k : Kind) (ts : List (Tree Label)) :
    (node k ts).names = node k (ts.map names) := by
  rw [names, bind, bindAll_eq_map]
  rfl

theorem map_names_labelAll {i : ℕ} {path : List ℕ} {ts : List (Tree String)}
    (h : ∀ t ∈ ts, ∀ path, (t.label i path).names = t) (j : ℕ) :
    (labelAll i path j ts).map names = ts := by
  induction ts generalizing j with
  | nil => rfl
  | cons t ts ih =>
    rw [labelAll, List.map_cons, h t (by simp), ih fun t' ht' => h t' (by simp [ht'])]

/-- Labels keep the names. -/
theorem names_label (t : Tree String) (i : ℕ) (path : List ℕ) : (t.label i path).names = t := by
  induction t generalizing path with
  | var x =>
    rw [label, names_var]
    by_cases hx : x = Term.anonymous
    · rw [if_pos hx, Label.name, hx]
    · rw [if_neg hx, Label.name]
  | constant c => rfl
  | node k ts ih => rw [label, names_node, map_names_labelAll ih]

theorem length_labelAll (i : ℕ) (path : List ℕ) (j : ℕ) (ts : List (Tree String)) :
    (labelAll i path j ts).length = ts.length := by
  induction ts generalizing j with
  | nil => rfl
  | cons t ts ih => rw [labelAll, List.length_cons, List.length_cons, ih]

theorem getElem?_labelAll (i : ℕ) (path : List ℕ) (j k : ℕ) (ts : List (Tree String)) :
    (labelAll i path j ts)[k]? = (ts[k]?).map (label i ((j + k) :: path)) := by
  induction ts generalizing j k with
  | nil => simp [labelAll]
  | cons t ts ih =>
    rw [labelAll]
    cases k with
    | zero => simp
    | succ k => rw [List.getElem?_cons_succ, List.getElem?_cons_succ, ih, Nat.add_right_comm]; rfl

theorem mem_labelAll {i : ℕ} {path : List ℕ} {j : ℕ} {ts : List (Tree String)} {u : Tree Label}
    (h : u ∈ labelAll i path j ts) : ∃ t ∈ ts, ∃ k, j ≤ k ∧ u = t.label i (k :: path) := by
  obtain ⟨k, hk⟩ := List.mem_iff_getElem?.1 h
  rw [getElem?_labelAll, Option.map_eq_some_iff] at hk
  obtain ⟨t, ht, rfl⟩ := hk
  exact ⟨t, List.mem_of_getElem? ht, j + k, by omega, rfl⟩

theorem proper_label {t : Tree String} (h : t.Proper) (i : ℕ) (path : List ℕ) :
    (t.label i path).Proper := by
  induction t generalizing path with
  | var x => exact .var _
  | constant c => exact .constant c
  | node k ts ih =>
    obtain ⟨hk, hts⟩ := proper_node_iff.1 h
    refine .node (by rwa [length_labelAll]) fun u hu => ?_
    obtain ⟨t, ht, j, -, rfl⟩ := mem_labelAll hu
    exact ih t ht (hts t ht) _

theorem named_mem_label {t : Tree String} {i : ℕ} {path : List ℕ} {x : String}
    (h : .named x ∈ (t.label i path).vars) : x ∈ t.vars ∧ x ≠ Term.anonymous := by
  induction t generalizing path with
  | var y =>
    rw [label, vars_var, List.mem_singleton] at h
    split at h
    next => simp at h
    next hy =>
      obtain rfl : x = y := by simpa using h
      exact ⟨by simp, hy⟩
  | constant c => simp [label] at h
  | node k ts ih =>
    rw [label, mem_vars_node] at h
    obtain ⟨u, hu, hx⟩ := h
    obtain ⟨t, ht, j, -, rfl⟩ := mem_labelAll hu
    obtain ⟨hx, hne⟩ := ih t ht hx
    exact ⟨mem_vars_node.2 ⟨t, ht, hx⟩, hne⟩

/-- A blank of a tree at a place is below that place. -/
theorem blank_mem_label {t : Tree String} {i i' : ℕ} {path path' : List ℕ}
    (h : .blank i' path' ∈ (t.label i path).vars) : i' = i ∧ path <:+ path' := by
  induction t generalizing path with
  | var y =>
    rw [label, vars_var, List.mem_singleton] at h
    split at h
    next =>
      obtain ⟨rfl, rfl⟩ := Label.blank.inj h
      exact ⟨rfl, List.suffix_refl _⟩
    next => simp at h
  | constant c => simp [label] at h
  | node k ts ih =>
    rw [label, mem_vars_node] at h
    obtain ⟨u, hu, hx⟩ := h
    obtain ⟨t, ht, j, -, rfl⟩ := mem_labelAll hu
    obtain ⟨rfl, hsuf⟩ := ih t ht hx
    exact ⟨rfl, (List.suffix_cons j path).trans hsuf⟩

/-! ### Blanks are told apart -/

/-- The occurrences of the anonymous variable in a tree. -/
def blanks (t : Tree Label) : List Label := t.vars.filter Label.isBlank

theorem blanks_node (k : Kind) (ts : List (Tree Label)) :
    (node k ts).blanks = ts.flatMap blanks := by
  rw [blanks, vars, varsAll_eq_flatMap, List.filter_flatMap]
  rfl

theorem mem_blanks {t : Tree Label} {l : Label} :
    l ∈ t.blanks ↔ l ∈ t.vars ∧ l.isBlank = true := List.mem_filter

theorem isBlank_of_mem_blanks {ts : List (Tree Label)} {l : Label} (h : l ∈ ts.flatMap blanks) :
    l.isBlank = true := by
  obtain ⟨t, -, hl⟩ := List.mem_flatMap.1 h
  exact (mem_blanks.1 hl).2

/-- The blanks of goal `i` are labelled with its number. -/
theorem mem_blanks_labelAll {i : ℕ} {path : List ℕ} {j : ℕ} {ts : List (Tree String)} {l : Label}
    (h : l ∈ (labelAll i path j ts).flatMap blanks) : ∃ path', l = .blank i path' := by
  obtain ⟨u, hu, hl⟩ := List.mem_flatMap.1 h
  obtain ⟨t, -, k, -, rfl⟩ := mem_labelAll hu
  obtain ⟨hvar, hblank⟩ := mem_blanks.1 hl
  cases l with
  | named x => exact absurd rfl (Label.named_ne_of_isBlank hblank x)
  | blank i' path' => exact ⟨path', by rw [(blank_mem_label hvar).1]⟩

theorem nodup_blanks_labelAll {i : ℕ} {path : List ℕ} {ts : List (Tree String)}
    (h : ∀ t ∈ ts, ∀ path, (t.label i path).blanks.Nodup) (j : ℕ) :
    ((labelAll i path j ts).flatMap blanks).Nodup := by
  induction ts generalizing j with
  | nil => exact List.nodup_nil
  | cons t ts ih =>
    rw [labelAll, List.flatMap_cons, List.nodup_append]
    refine ⟨h t (by simp) _, ih (fun t' ht' => h t' (by simp [ht'])) (j + 1), ?_⟩
    rintro l hl l' hl' rfl
    obtain ⟨u, hu, hlu⟩ := List.mem_flatMap.1 hl'
    obtain ⟨t', -, k, hk, rfl⟩ := mem_labelAll hu
    rw [mem_blanks] at hl hlu
    cases l with
    | named x => simp [Label.isBlank] at hl
    | blank i' path' =>
      -- The paths of two children differ in the number of the child.
      have hj := (blank_mem_label hl.1).2
      have hk' := (blank_mem_label hlu.1).2
      have heq : j :: path = k :: path :=
        (List.suffix_of_suffix_length_le hj hk' (by simp)).eq_of_length (by simp)
      have : j = k := (List.cons.inj heq).1
      omega

theorem nodup_blanks_label (t : Tree String) (i : ℕ) (path : List ℕ) :
    (t.label i path).blanks.Nodup := by
  induction t generalizing path with
  | var x =>
    rw [label, blanks, vars_var]
    exact (List.nodup_singleton _).filter _
  | constant c => exact List.nodup_nil
  | node k ts ih =>
    rw [label, blanks_node]
    exact nodup_blanks_labelAll ih 0

/-- Replacing variables in two ways gives the same tree only if the variables that occur are
replaced in the same way. -/
theorem agree_of_bind_eq {V W : Type} {f g : V → Tree W} {t : Tree V} {v : V}
    (h : t.bind f = t.bind g) (hv : v ∈ t.vars) : f v = g v := by
  induction t with
  | var w =>
    rw [vars_var, List.mem_singleton] at hv
    exact hv ▸ h
  | constant c => simp at hv
  | node k ts ih =>
    obtain ⟨t, ht, hvt⟩ := mem_vars_node.1 hv
    rw [bind, bind, bindAll_eq_map, bindAll_eq_map] at h
    exact ih t ht (List.map_inj_left.1 (Tree.node.inj h).2 t ht) hvt

end Tree

/-! ### Environments -/

/-- The trees that some labels stand for. -/
abbrev Env := Label → Option (Tree ℕ)

namespace Env

variable {G G' G'' : Env} {l : Label} {u : Tree ℕ}

/-- An environment with one label more. -/
def set (G : Env) (l : Label) (u : Tree ℕ) : Env := fun l' => if l' = l then some u else G l'

@[simp] theorem set_self (G : Env) (l : Label) (u : Tree ℕ) : G.set l u l = some u := if_pos rfl

theorem set_of_ne {l' : Label} (h : l' ≠ l) (u : Tree ℕ) : G.set l u l' = G l' := if_neg h

/-- The second environment knows at least what the first one knows. -/
def Le (G G' : Env) : Prop := ∀ l u, G l = some u → G' l = some u

theorem Le.refl (G : Env) : Le G G := fun _ _ h => h

theorem Le.trans (h : Le G G') (h' : Le G' G'') : Le G G'' := fun l u hl => h' l u (h l u hl)

theorem le_set (h : G l = none) (u : Tree ℕ) : Le G (G.set l u) := by
  intro l' v hl'
  have hne : l' ≠ l := by
    rintro rfl
    simp [h] at hl'
  rw [set_of_ne hne, hl']

/-- The labels that are not given stand for new variables, each for one of its own: variables from
`lo` on that come before `next`. -/
structure Fresh (given : Label → Prop) (lo : ℕ) (G : Env) (next : ℕ) : Prop where
  le : lo ≤ next
  new : ∀ l u, G l = some u → ¬ given l → ∃ m, u = .var m ∧ lo ≤ m ∧ m < next
  injective : ∀ l l' u, G l = some u → G l' = some u → ¬ given l → ¬ given l' → l = l'

variable {given : Label → Prop} {lo next : ℕ}

theorem Fresh.mono {next' : ℕ} (h : Fresh given lo G next) (hle : next ≤ next') :
    Fresh given lo G next' := by
  refine ⟨Nat.le_trans h.le hle, fun l u hl hg => ?_, h.injective⟩
  obtain ⟨m, rfl, hlo, hm⟩ := h.new l u hl hg
  exact ⟨m, rfl, hlo, by omega⟩

/-- One more label stands for the next variable. -/
theorem Fresh.set (h : Fresh given lo G next) (l : Label) :
    Fresh given lo (G.set l (.var next)) (next + 1) := by
  refine ⟨Nat.le_succ_of_le h.le, fun l' u hl' hg => ?_, fun l₁ l₂ u h₁ h₂ hg₁ hg₂ => ?_⟩
  · by_cases hne : l' = l
    · subst hne
      rw [set_self] at hl'
      exact ⟨next, (Option.some.inj hl').symm, h.le, Nat.lt_succ_self next⟩
    · rw [set_of_ne hne] at hl'
      obtain ⟨m, rfl, hlo, hm⟩ := h.new l' u hl' hg
      exact ⟨m, rfl, hlo, Nat.lt_succ_of_lt hm⟩
  · -- The next variable is not among those that labels stand for already.
    have hnew : ∀ l', ¬ given l' → l' ≠ l → G.set l (.var next) l' ≠ some (.var next) := by
      intro l' hg hne hl'
      rw [set_of_ne hne] at hl'
      obtain ⟨m, hm, -, hlt⟩ := h.new l' _ hl' hg
      obtain rfl : next = m := by simpa using hm
      exact Nat.lt_irrefl _ hlt
    by_cases hne₁ : l₁ = l <;> by_cases hne₂ : l₂ = l
    · rw [hne₁, hne₂]
    · subst hne₁
      rw [set_self] at h₁
      exact absurd (Option.some.inj h₁ ▸ h₂) (hnew l₂ hg₂ hne₂)
    · subst hne₂
      rw [set_self] at h₂
      exact absurd (Option.some.inj h₂ ▸ h₁) (hnew l₁ hg₁ hne₁)
    · rw [set_of_ne hne₁] at h₁
      rw [set_of_ne hne₂] at h₂
      exact h.injective l₁ l₂ u h₁ h₂ hg₁ hg₂

end Env

/-- The environment knows enough about a tree over labels to tell what it stands for. -/
def Builds (G : Env) (t : Tree Label) (u : Tree ℕ) : Prop :=
  ∀ ρ : Label → Tree ℕ, (∀ l v, G l = some v → ρ l = v) → t.bind ρ = u

namespace Builds

variable {G G' : Env} {l : Label} {t : Tree Label} {u : Tree ℕ}

theorem var (h : G l = some u) : Builds G (.var l) u := fun _ hρ => hρ l u h

theorem constant (G : Env) (c : Constant) : Builds G (.constant c) (.constant c) := fun _ _ => rfl

theorem node {ts : List (Tree Label)} {us : List (Tree ℕ)} (kind : Kind)
    (h : List.Forall₂ (Builds G) ts us) : Builds G (.node kind ts) (.node kind us) := by
  intro ρ hρ
  rw [Tree.bind, Tree.bindAll_eq_map]
  refine congrArg (Tree.node kind) ?_
  induction h with
  | nil => rfl
  | cons ht _ ih => rw [List.map_cons, ht ρ hρ, ih]

theorem mono (h : Builds G t u) (hle : Env.Le G G') : Builds G' t u :=
  fun ρ hρ => h ρ fun l v hl => hρ l v (hle l v hl)

/-- The environment knows all labels of a tree that it can tell what it stands for. -/
theorem exists_of_mem (h : Builds G t u) (hl : l ∈ t.vars) : ∃ v, G l = some v := by
  by_contra hnone
  have hG : G l = none := Option.eq_none_iff_forall_ne_some.2 fun v hv => hnone ⟨v, hv⟩
  have hρ : ∀ m : ℕ, t.bind (fun l => (G l).getD (.var m)) = u := fun m =>
    h _ fun l v hv => by rw [hv, Option.getD_some]
  have := Tree.agree_of_bind_eq ((hρ 0).trans (hρ 1).symm) hl
  simp [hG] at this

end Builds

end ClauseCode
