import Mathlib.Data.List.Forall2
import Mathlib.Data.List.Nodup

/-!
# Lists of pairs and pairs of lists

A list of pairs gives values to keys, and the first pair with a key counts.  If no key comes twice,
then looking up a key finds a value if and only if the pair is in the list
(`lookup_eq_some_iff_mem`).

Two lists side by side are related if they are of the same length and their elements are related one
by one (`List.Forall₂`).
-/

namespace ClauseCode

section Lookup

variable {α β : Type} [BEq α] [LawfulBEq α] {k k' : α} {b : β} {l : List (α × β)}

theorem lookup_cons_of_ne (h : k' ≠ k) (b : β) (l : List (α × β)) :
    ((k, b) :: l).lookup k' = l.lookup k' := by
  have hbeq : (k' == k) = false := by simpa using h
  rw [List.lookup_cons, hbeq]

theorem mem_of_lookup (h : l.lookup k = some b) : (k, b) ∈ l := by
  obtain ⟨l₁, l₂, rfl, -⟩ := List.lookup_eq_some_iff.1 h
  simp

theorem lookup_eq_some_iff_mem (hnodup : (l.map Prod.fst).Nodup) :
    l.lookup k = some b ↔ (k, b) ∈ l := by
  refine ⟨mem_of_lookup, fun h => ?_⟩
  obtain ⟨l₁, l₂, rfl⟩ := List.append_of_mem h
  refine List.lookup_eq_some_iff.2 ⟨l₁, l₂, rfl, fun p hp => ?_⟩
  -- A pair with the same key further ahead would make the key come twice.
  rw [List.map_append, List.map_cons] at hnodup
  have hne : p.1 ≠ k :=
    (List.nodup_append.1 hnodup).2.2 p.1 (List.mem_map_of_mem hp) k List.mem_cons_self
  simpa using hne.symm

theorem lookup_eq_none_iff_not_mem : l.lookup k = none ↔ k ∉ l.map Prod.fst := by
  rw [List.lookup_eq_none_iff]
  constructor
  · intro h hmem
    obtain ⟨p, hp, rfl⟩ := List.mem_map.1 hmem
    simpa using h p hp
  · intro h p hp
    have hne : k ≠ p.1 := fun heq => h (heq ▸ List.mem_map_of_mem hp)
    simpa using hne

/-- Giving a key another value changes only what is found for this key. -/
theorem lookup_map_set [DecidableEq α] (l : List (α × β)) (k k' : α) (b : β) :
    (l.map fun p => if p.1 = k then (k, b) else p).lookup k' =
      if k' = k then (l.lookup k).map fun _ => b else l.lookup k' := by
  induction l with
  | nil => simp
  | cons p l ih =>
    obtain ⟨z, c⟩ := p
    rw [List.map_cons]
    by_cases hz : z = k
    · subst hz
      by_cases hk : k' = z
      · subst hk
        simp
      · rw [if_pos rfl, lookup_cons_of_ne hk, lookup_cons_of_ne hk, ih, if_neg hk, if_neg hk]
    · rw [if_neg hz, lookup_cons_of_ne (Ne.symm hz)]
      by_cases hk : k' = z
      · subst hk
        simp [hz]
      · rw [lookup_cons_of_ne hk, lookup_cons_of_ne hk, ih]

end Lookup

section SideBySide

variable {α β : Type} {R S : α → β → Prop} {as : List α} {bs : List β}

theorem forall₂_imp_of_mem (h : List.Forall₂ R as bs) (hRS : ∀ a ∈ as, ∀ b, R a b → S a b) :
    List.Forall₂ S as bs := by
  induction h with
  | nil => exact List.Forall₂.nil
  | @cons a b as bs hab _ ih =>
    exact List.Forall₂.cons (hRS a (by simp) b hab) (ih fun a' ha' => hRS a' (by simp [ha']))

theorem forall_mem_of_forall₂ {p : β → Prop} (h : List.Forall₂ R as bs)
    (hp : ∀ a b, R a b → p b) : ∀ b ∈ bs, p b := by
  induction h with
  | nil => simp
  | cons hab _ ih => exact List.forall_mem_cons.2 ⟨hp _ _ hab, ih⟩

theorem exists_forall₂_iff : (∃ bs, List.Forall₂ R as bs) ↔ ∀ a ∈ as, ∃ b, R a b := by
  induction as with
  | nil => simp
  | cons a as ih =>
    rw [List.forall_mem_cons, ← ih]
    constructor
    · rintro ⟨_, h⟩
      cases h with
      | cons hab htail => exact ⟨⟨_, hab⟩, _, htail⟩
    · rintro ⟨⟨b, hab⟩, bs, htail⟩
      exact ⟨b :: bs, List.Forall₂.cons hab htail⟩

end SideBySide

end ClauseCode
