import ClauseCode.Text.Spelling
import Mathlib.Data.List.Basic

/-!
# Spellings of atoms

A name within quotes can be read back, because a backslash stands there only before a mark that
says which character is meant (`escape_cases`).  A bare name has no special character, so that it
is never taken for a quoted one.  Different names are therefore spelled differently
(`atom_injective`).
-/

namespace ClauseCode.Spelling

variable {c d : Char} {cs ds : List Char}

/-- The special characters. -/
def specials : List Char :=
  [' ', '\n', '\t', '\x0b', '\x0c', '\r', ',', '(', ')', '[', ']', '"', '\\', '_']

theorem special_eq_none_iff : special c = none ↔ c ∉ specials := by
  constructor
  · intro h hc
    have hall : (specials.all fun c => (special c).isSome) = true := by decide
    have hsome := List.all_eq_true.1 hall c hc
    rw [h] at hsome
    exact nomatch hsome
  · intro h
    unfold special
    split
    all_goals simp_all [specials]

theorem escape_of_not_mem (h : c ∉ specials) : escape c = [c] := by
  rw [escape, special_eq_none_iff.2 h, Option.getD_none]

/-- The character that a mark after a backslash stands for. -/
def unmarked : Char → Char
  | 'n' => '\n'
  | 't' => '\t'
  | 'v' => '\x0b'
  | 'f' => '\x0c'
  | 'r' => '\r'
  | e => e

/-- A character stands for itself, or for a mark after a backslash. -/
theorem escape_cases (c : Char) :
    (c ≠ '\\' ∧ c ≠ '"' ∧ escape c = [c]) ∨ ∃ e, escape c = ['\\', e] ∧ unmarked e = c := by
  by_cases hc : c ∈ specials
  · have hself : ∀ d ∈ [' ', ',', '(', ')', '[', ']', '_'],
        d ≠ '\\' ∧ d ≠ '"' ∧ escape d = [d] := by simp [escape, special]
    simp only [specials, List.mem_cons, List.not_mem_nil, or_false] at hc
    rcases hc with rfl | rfl | rfl | rfl | rfl | rfl | rfl | rfl | rfl | rfl | rfl | rfl | rfl | rfl
    · exact Or.inl (hself _ (by simp))
    · exact Or.inr ⟨'n', rfl, rfl⟩
    · exact Or.inr ⟨'t', rfl, rfl⟩
    · exact Or.inr ⟨'v', rfl, rfl⟩
    · exact Or.inr ⟨'f', rfl, rfl⟩
    · exact Or.inr ⟨'r', rfl, rfl⟩
    · exact Or.inl (hself _ (by simp))
    · exact Or.inl (hself _ (by simp))
    · exact Or.inl (hself _ (by simp))
    · exact Or.inl (hself _ (by simp))
    · exact Or.inl (hself _ (by simp))
    · exact Or.inr ⟨'"', rfl, rfl⟩
    · exact Or.inr ⟨'\\', rfl, rfl⟩
    · exact Or.inl (hself _ (by simp))
  · refine Or.inl ⟨?_, ?_, escape_of_not_mem hc⟩
    · rintro rfl
      exact hc (by decide)
    · rintro rfl
      exact hc (by decide)

theorem escape_append_inj {u v : List Char} (h : escape c ++ u = escape d ++ v) :
    c = d ∧ u = v := by
  rcases escape_cases c with ⟨hc, -, hesc⟩ | ⟨e, hesc, rfl⟩ <;>
    rcases escape_cases d with ⟨hd, -, hesc'⟩ | ⟨e', hesc', rfl⟩ <;>
    rw [hesc, hesc'] at h
  · exact List.cons.inj h
  · exact absurd (List.cons.inj h).1 hc
  · exact absurd (List.cons.inj h).1.symm hd
  · obtain ⟨-, htail⟩ := List.cons.inj h
    obtain ⟨rfl, rfl⟩ := List.cons.inj htail
    exact ⟨rfl, rfl⟩

theorem escape_ne_nil (c : Char) : escape c ≠ [] := by
  rcases escape_cases c with ⟨-, -, h⟩ | ⟨e, h, -⟩ <;> simp [h]

theorem flatMap_escape_inj (h : cs.flatMap escape = ds.flatMap escape) : cs = ds := by
  induction cs generalizing ds with
  | nil =>
    cases ds with
    | nil => rfl
    | cons d ds => exact absurd (List.append_eq_nil_iff.1 h.symm).1 (escape_ne_nil d)
  | cons c cs ih =>
    cases ds with
    | nil => exact absurd (List.append_eq_nil_iff.1 h).1 (escape_ne_nil c)
    | cons d ds =>
      obtain ⟨rfl, htail⟩ := escape_append_inj h
      rw [ih htail]

theorem quoted_inj (h : quoted cs = quoted ds) : cs = ds :=
  flatMap_escape_inj (List.append_cancel_right (List.cons.inj h).2)

/-! ### Bare names -/

/-- What it means that a name is bare. -/
theorem isBare_iff :
    isBare cs = true ↔
      (∀ c ∈ cs, c ∉ specials) ∧ cs ≠ [] ∧ isVarName cs = false ∧ isNumeral cs = false := by
  have hany : cs.any (fun c => (special c).isSome) = false ↔ ∀ c ∈ cs, c ∉ specials := by
    rw [List.any_eq_false]
    refine forall₂_congr fun c _ => ?_
    rw [Bool.not_eq_true, Option.isSome_eq_false_iff, Option.isNone_iff_eq_none,
      special_eq_none_iff]
  rw [isBare, Bool.not_eq_true', Bool.or_eq_false_iff, Bool.or_eq_false_iff, Bool.or_eq_false_iff,
    hany, List.isEmpty_eq_false_iff, and_assoc, and_assoc]

theorem ne_quoted_of_isBare (h : isBare cs = true) : cs ≠ quoted ds := by
  rintro rfl
  exact (isBare_iff.1 h).1 '"' (List.mem_cons_self) (by decide)

theorem atomChars_injective : Function.Injective atomChars := by
  intro cs ds h
  unfold atomChars at h
  split at h <;> split at h
  next => exact h
  next hcs _ => exact absurd h (ne_quoted_of_isBare hcs)
  next _ hds => exact absurd h.symm (ne_quoted_of_isBare hds)
  next => exact quoted_inj h

/-- Different atoms are spelled differently. -/
theorem atom_injective : Function.Injective atom := by
  intro s s' h
  exact String.toList_injective (atomChars_injective (String.ofList_injective h))

end ClauseCode.Spelling
