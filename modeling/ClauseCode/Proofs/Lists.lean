import ClauseCode.Proofs.Notation

/-!
# The algebra of lists

A list is put together by prepending terms to a tail, and taken apart by slicing it.  Prepending
twice is prepending once (`Term.prepend_prepend`), since a list in the tail is taken apart.  For
the lists that the constructors make, a slice is what prepending the terms that are left to the
tail would build (`Term.slice_eq_prepend`), whether the list has variables and the slice is built
anew, or it has none and the slice only shares its terms.

The laws of slices follow from these two: the terms in front and the slice give back the list, and
slices of slices, like the tails of cells one after another, are slices (`Term.list_laws`).
-/

namespace ClauseCode

namespace Term

/-- What is left of a term when the tail of the first cell is taken `n` times. -/
def afterTails : ℕ → Term → Except ListError Term
  | 0, t => .ok t
  | n + 1, t =>
    match t.cell with
    | .ok (_, tail) => afterTails n tail
    | .error e => .error e

/-! ### Prepending -/

/-- A list in the tail is taken apart, so that it does not matter in how many steps a list is put
together. -/
theorem prepend_prepend (xs ys : List Term) (t : Term) :
    prepend xs (prepend ys t) = prepend (xs ++ ys) t := by
  cases xs with
  | nil => rfl
  | cons x xs =>
    cases ys with
    | nil => rw [List.append_nil, prepend]
    | cons y ys =>
      cases t with
      | list head rest tail b =>
        show chain x (xs ++ y :: (ys ++ head :: rest)) tail =
          chain x ((xs ++ y :: ys) ++ head :: rest) tail
        rw [List.append_assoc, List.cons_append]
      | atom | int | var | comp => rfl

variable {head tail : Term} {rest : List Term} {b : Bool} {n : ℕ}

theorem prepend_of_built (h : (list head rest tail b).Built) :
    prepend (head :: rest) tail = list head rest tail b :=
  prepend_of_shaped h.shaped.1

/-! ### Slices -/

/-- The slice that shares the terms of a list without variables is the slice that is built anew. -/
theorem afterCells_eq_prepend (h : (list head rest tail b).Built) (n : ℕ) :
    afterCells n head rest tail b = prepend ((head :: rest).drop n) tail := by
  have hpart := shaped_afterCells h.shaped n
  unfold afterCells at hpart ⊢
  split
  next heq => rw [heq, prepend]
  next t ts heq =>
    rw [heq] at hpart ⊢
    dsimp only at hpart
    split
    next => rfl
    next hb =>
      -- Without variables in the list, the part remembers none, which is what prepending finds.
      rw [if_neg hb] at hpart
      exact (prepend_of_shaped hpart.1).symm

theorem slice_eq_error_iff {n : Int} :
    slice (list head rest tail b) n = .error (.badIndex n) ↔
      n < 0 ∨ (head :: rest).length < n := by
  rw [slice]
  split
  next hn => simpa using hn
  next hn =>
    rw [Bool.or_eq_true, decide_eq_true_iff, decide_eq_true_iff] at hn
    simpa using hn

theorem slice_eq_afterCells (hn : n ≤ (head :: rest).length) :
    slice (list head rest tail b) n = .ok (afterCells n head rest tail b) := by
  have hin : ¬ ((n : Int) < 0 || (n : Int) > (head :: rest).length) = true := by
    rw [Bool.or_eq_true, decide_eq_true_iff, decide_eq_true_iff]
    omega
  rw [slice, if_neg hin, Int.toNat_natCast]

/-- A slice is what prepending the terms that are left to the tail builds. -/
theorem slice_eq_prepend (h : (list head rest tail b).Built) (hn : n ≤ (head :: rest).length) :
    slice (list head rest tail b) n = .ok (prepend ((head :: rest).drop n) tail) := by
  rw [slice_eq_afterCells hn, afterCells_eq_prepend h]

/-- As long as terms are left, a slice is a list of these. -/
theorem exists_slice_list (h : (list head rest tail b).Built) (hn : n < (head :: rest).length) :
    ∃ t ts b', slice (list head rest tail b) n = .ok (list t ts tail b') ∧
      (list t ts tail b').Built ∧ (head :: rest).drop n = t :: ts ∧
      n + (t :: ts).length = (head :: rest).length := by
  have hslice := slice_eq_prepend h (Nat.le_of_lt hn)
  obtain ⟨t, ts, hdrop⟩ := List.exists_cons_of_ne_nil (mt List.drop_eq_nil_iff.1 (Nat.not_le.2 hn))
  rw [hdrop, prepend_of_isChain_eq_false h.shaped.1.1, chain] at hslice
  refine ⟨t, ts, _, hslice, .slice h hslice, hdrop, ?_⟩
  rw [← hdrop, List.length_drop]
  omega

/-- The terms in front of a slice, prepended to it, give back the list. -/
theorem prepend_take_slice (h : (list head rest tail b).Built) (n : ℕ) :
    prepend ((head :: rest).take n) (prepend ((head :: rest).drop n) tail) =
      list head rest tail b := by
  rw [prepend_prepend, List.take_append_drop, prepend_of_built h]

/-- A list is put together from its first cell. -/
theorem prepend_cell (h : (list head rest tail b).Built) :
    prepend [head] (afterCells 1 head rest tail b) = list head rest tail b := by
  rw [afterCells_eq_prepend h]
  exact prepend_take_slice h 1

/-- A slice of a slice is a slice. -/
theorem slice_slice (h : (list head rest tail b).Built) (hn : n < (head :: rest).length) {j : ℕ}
    (hj : n + j ≤ (head :: rest).length) {part : Term}
    (hpart : slice (list head rest tail b) n = .ok part) :
    slice part j = slice (list head rest tail b) (n + j : ℕ) := by
  obtain ⟨t, ts, b', hslice, hbuilt, hdrop, hlength⟩ := exists_slice_list h hn
  obtain rfl : part = list t ts tail b' := Except.ok.inj (hpart.symm.trans hslice)
  rw [slice_eq_prepend hbuilt (by omega), slice_eq_prepend h hj, ← hdrop, List.drop_drop]

/-- A slice is reached by taking the tails of cells one after another. -/
theorem afterTails_eq_slice (h : (list head rest tail b).Built)
    (hn : n ≤ (head :: rest).length) :
    afterTails n (list head rest tail b) = slice (list head rest tail b) n := by
  induction n generalizing head rest b with
  | zero =>
    rw [slice_eq_prepend h hn, List.drop_zero, prepend_of_built h]
    rfl
  | succ n ih =>
    have hstep : slice (list head rest tail b) (1 : ℕ) = .ok (afterCells 1 head rest tail b) :=
      slice_eq_afterCells (by simp)
    show afterTails n (afterCells 1 head rest tail b) = _
    rcases Nat.eq_zero_or_pos n with rfl | hpos
    · exact hstep.symm
    · -- There are cells behind the first one, so that its tail is a list again.
      have hone : 1 < (head :: rest).length := by omega
      obtain ⟨t, ts, b', hslice, hbuilt, -, hlength⟩ := exists_slice_list h hone
      have hpart := Except.ok.inj (hstep.symm.trans hslice)
      rw [hpart, ih hbuilt (by omega), slice_slice h hone (by omega) hslice, Nat.add_comm]

/-- The laws of lists: prepending twice is prepending once; slicing fails exactly outside of the
list; a slice is what is built from the terms that are left and the tail, also where the terms are
shared; the terms in front of a slice give back the list; slices of slices are slices; and a slice
is reached by the tails of cells. -/
theorem list_laws :
    (∀ (xs ys : List Term) (t : Term), prepend xs (prepend ys t) = prepend (xs ++ ys) t) ∧
      ∀ (head : Term) (rest : List Term) (tail : Term) (b : Bool),
        (list head rest tail b).Built →
        (∀ n : Int, slice (list head rest tail b) n = .error (.badIndex n) ↔
          n < 0 ∨ (head :: rest).length < n) ∧
        ∀ n : ℕ, n ≤ (head :: rest).length →
          ∃ part, slice (list head rest tail b) n = .ok part ∧
            part = prepend ((head :: rest).drop n) tail ∧
            prepend ((head :: rest).take n) part = list head rest tail b ∧
            afterTails n (list head rest tail b) = .ok part ∧
            (n < (head :: rest).length → ∀ j : ℕ, n + j ≤ (head :: rest).length →
              slice part j = slice (list head rest tail b) (n + j : ℕ)) := by
  refine ⟨prepend_prepend, ?_⟩
  intro head rest tail b h
  refine ⟨fun n => slice_eq_error_iff, ?_⟩
  intro n hn
  have hslice := slice_eq_prepend h hn
  refine ⟨_, hslice, rfl, prepend_take_slice h n, ?_, ?_⟩
  · rw [afterTails_eq_slice h hn, hslice]
  · intro hlt j hj
    exact slice_slice h hlt hj hslice

end Term

/-- The list `[a, f(b), 3]`, whose slices share its terms. -/
def sharedList : Term := .ofList [.atom "a", .apply "f" [.atom "b"], .int 3]

theorem list_laws_sharedList :
    sharedList.Built ∧ sharedList.slice 1 = .ok (.ofList [.apply "f" [.atom "b"], .int 3]) ∧
      Term.prepend [.atom "a"] (.ofList [.apply "f" [.atom "b"], .int 3]) = sharedList ∧
      Term.afterTails 3 sharedList = .ok .nil ∧ sharedList.slice 4 = .error (.badIndex 4) := by
  have hbuilt : sharedList.Built := by decide
  obtain ⟨-, hlist⟩ := Term.list_laws
  obtain ⟨herror, hlaws⟩ := hlist (.atom "a") [.apply "f" [.atom "b"], .int 3] .nil false hbuilt
  obtain ⟨_, hslice, rfl, hback, -⟩ := hlaws 1 (by decide)
  obtain ⟨_, -, rfl, -, htails, -⟩ := hlaws 3 (by decide)
  exact ⟨hbuilt, hslice, hback, htails, (herror 4).2 (by decide)⟩

end ClauseCode
