import ClauseCode.Text.Lines
import Mathlib.Data.List.Basic
import Mathlib.Data.List.TakeWhile

/-!
# Separators and ends

A sequence can be split at its first separator or at its last one in one way only (`split_first`,
`split_last`).  Splitting at every separator is the splitting of lists (`pieces_eq_splitOn`): a
separator between two sequences splits each of them on its own (`pieces_append_cons`), and the
pieces make up the sequence again (`joinPieces_pieces`).  Pieces that are put together are found
again if they hold no separator (`pieces_joinPieces`).

Trimming takes elements of a kind away from both ends and nothing else (`exists_trimEnds`,
`trimEnds_eq_self`).
-/

namespace ClauseCode.Text

variable {α : Type} {sep : α} {u u' v v' xs ys : List α}

/-! ### One separator -/

/-- There is one way to split a sequence at its first separator. -/
theorem split_first (hu : sep ∉ u) (hu' : sep ∉ u') (h : u ++ sep :: v = u' ++ sep :: v') :
    u = u' ∧ v = v' := by
  induction u generalizing u' with
  | nil =>
    cases u' with
    | nil => exact ⟨rfl, (List.cons.inj h).2⟩
    | cons x u' =>
      obtain ⟨rfl, -⟩ := List.cons.inj h
      exact absurd List.mem_cons_self hu'
  | cons x u ih =>
    rw [List.mem_cons, not_or] at hu
    cases u' with
    | nil => exact absurd (List.cons.inj h).1.symm hu.1
    | cons y u' =>
      obtain ⟨rfl, htail⟩ := List.cons.inj h
      obtain ⟨rfl, rfl⟩ := ih hu.2 (fun hmem => hu' (List.mem_cons_of_mem _ hmem)) htail
      exact ⟨rfl, rfl⟩

/-- There is one way to split a sequence at its last separator. -/
theorem split_last (hv : sep ∉ v) (hv' : sep ∉ v') (h : u ++ sep :: v = u' ++ sep :: v') :
    u = u' ∧ v = v' := by
  have hback : v.reverse ++ sep :: u.reverse = v'.reverse ++ sep :: u'.reverse := by
    simpa using congrArg List.reverse h
  obtain ⟨hv, hu⟩ := split_first (by simpa using hv) (by simpa using hv') hback
  exact ⟨List.reverse_injective hu, List.reverse_injective hv⟩

/-! ### All separators -/

theorem joinPieces_eq_intercalate (ps : List (List α)) :
    joinPieces sep ps = [sep].intercalate ps := by
  induction ps with
  | nil => rfl
  | cons p ps ih =>
    cases ps with
    | nil => simp [joinPieces]
    | cons q qs => rw [joinPieces, ih, List.intercalate_cons_cons, List.append_assoc]; rfl

/-- Two sequences of pieces are put together with a separator between them. -/
theorem joinPieces_append {ps qs : List (List α)} (hps : ps ≠ []) (hqs : qs ≠ []) :
    joinPieces sep (ps ++ qs) = joinPieces sep ps ++ sep :: joinPieces sep qs := by
  obtain ⟨q, qs, rfl⟩ := List.exists_cons_of_ne_nil hqs
  induction ps with
  | nil => exact absurd rfl hps
  | cons p ps ih =>
    cases ps with
    | nil => rfl
    | cons p' ps =>
      have htail := ih (List.cons_ne_nil p' ps)
      rw [List.cons_append] at htail
      rw [List.cons_append, List.cons_append, joinPieces, htail, joinPieces, List.append_assoc,
        List.cons_append]

theorem length_le_joinPieces {p : List α} {ps : List (List α)} (hp : p ∈ ps) :
    p.length ≤ (joinPieces sep ps).length := by
  induction ps with
  | nil => simp at hp
  | cons q ps ih =>
    cases ps with
    | nil =>
      rw [List.mem_singleton.1 hp]
      exact Nat.le_refl q.length
    | cons q' ps =>
      rw [joinPieces, List.length_append, List.length_cons]
      rcases List.mem_cons.1 hp with rfl | hp
      · omega
      · have htail := ih hp
        omega

section Splitting

variable [DecidableEq α]

theorem splitOnto_eq (piece : List α) (done : List (List α)) :
    splitOnto sep piece done xs =
      done.reverse ++ xs.splitOnPPrepend (fun x => x == sep) piece := by
  induction xs generalizing piece done with
  | nil => simp [splitOnto]
  | cons x xs ih =>
    rw [splitOnto]
    split
    next hx => rw [ih, List.splitOnPPrepend_cons_pos (by simpa using hx)]; simp
    next hx => rw [ih, List.splitOnPPrepend_cons_neg (by simpa using hx)]

theorem pieces_eq_splitOn : pieces sep xs = xs.splitOn sep := splitOnto_eq [] []

theorem pieces_of_not_mem (h : sep ∉ xs) : pieces sep xs = [xs] := by
  rw [pieces_eq_splitOn]
  refine List.splitOnP_eq_singleton fun x hx => beq_false_of_ne ?_
  rintro rfl
  exact h hx

/-- There is one piece more than there are separators. -/
theorem length_pieces (sep : α) (xs : List α) : (pieces sep xs).length = xs.count sep + 1 := by
  have hsplit : ∀ (piece : List α) (done : List (List α)),
      (splitOnto sep piece done xs).length = done.length + xs.count sep + 1 := by
    induction xs with
    | nil => simp [splitOnto]
    | cons x xs ih =>
      intro piece done
      rw [splitOnto]
      split
      next hx =>
        rw [ih, hx, List.count_cons_self, List.length_cons]
        omega
      next hx => rw [ih, List.count_cons_of_ne hx]
  simpa [pieces] using hsplit [] []

/-- A separator between two sequences splits each of them on its own. -/
theorem pieces_append_cons : pieces sep (xs ++ sep :: ys) = pieces sep xs ++ pieces sep ys := by
  simp only [pieces_eq_splitOn, List.splitOn]
  exact List.splitOnP_append_cons xs ys (by simp)

/-- The pieces of a sequence make it up. -/
theorem joinPieces_pieces : joinPieces sep (pieces sep xs) = xs := by
  rw [joinPieces_eq_intercalate, pieces_eq_splitOn, List.intercalate_splitOn]

/-- Pieces without separator are found again where they are put together. -/
theorem pieces_joinPieces {ps : List (List α)} (hne : ps ≠ []) (h : ∀ p ∈ ps, sep ∉ p) :
    pieces sep (joinPieces sep ps) = ps := by
  rw [pieces_eq_splitOn, joinPieces_eq_intercalate, List.splitOn_intercalate sep h hne]

end Splitting

/-! ### Other elements -/

section Mapping

variable {β : Type} {f : α → β}

theorem joinPieces_map (f : α → β) (sep : α) (ps : List (List α)) :
    joinPieces (f sep) (ps.map (List.map f)) = (joinPieces sep ps).map f := by
  induction ps with
  | nil => rfl
  | cons p ps ih =>
    cases ps with
    | nil => rfl
    | cons q ps =>
      rw [List.map_cons, List.map_cons, joinPieces, ← List.map_cons, ih, joinPieces,
        List.map_append, List.map_cons]

theorem pieces_map [DecidableEq α] [DecidableEq β] (hf : Function.Injective f) (sep : α)
    (xs : List α) : pieces (f sep) (xs.map f) = (pieces sep xs).map (List.map f) := by
  have hsplit : ∀ (piece : List α) (done : List (List α)),
      splitOnto (f sep) (piece.map f) (done.map (List.map f)) (xs.map f) =
        (splitOnto sep piece done xs).map (List.map f) := by
    induction xs with
    | nil => simp [splitOnto]
    | cons x xs ih =>
      intro piece done
      rw [List.map_cons, splitOnto, splitOnto]
      by_cases hx : x = sep
      · rw [if_pos hx, if_pos (congrArg f hx), ← List.map_reverse, ← List.map_cons]
        exact ih [] (piece.reverse :: done)
      · rw [if_neg hx, if_neg (hf.ne hx), ← List.map_cons]
        exact ih (x :: piece) done
  exact hsplit [] []

theorem trimEnds_map (f : α → β) (p : β → Bool) (xs : List α) :
    trimEnds p (xs.map f) = (trimEnds (p ∘ f) xs).map f := by
  rw [trimEnds, trimEnds, List.dropWhile_map, ← List.map_reverse, List.dropWhile_map,
    ← List.map_reverse]

end Mapping

/-! ### Ends -/

variable {p : α → Bool}

theorem exists_trimEnds (p : α → Bool) (xs : List α) :
    ∃ us ws, xs = us ++ trimEnds p xs ++ ws ∧ (∀ x ∈ us, p x = true) ∧ ∀ x ∈ ws, p x = true := by
  refine ⟨xs.takeWhile p, ((xs.dropWhile p).reverse.takeWhile p).reverse, ?_,
    fun x hx => List.mem_takeWhile_imp hx,
    fun x hx => List.mem_takeWhile_imp (List.mem_reverse.1 hx)⟩
  rw [trimEnds, List.append_assoc, ← List.reverse_append, List.takeWhile_append_dropWhile,
    List.reverse_reverse, List.takeWhile_append_dropWhile]

theorem trimEnds_eq_nil (h : ∀ x ∈ xs, p x = true) : trimEnds p xs = [] := by
  rw [trimEnds, List.dropWhile_eq_nil_iff.2 h]
  rfl

theorem trimEnds_concat {x : α} (hx : p x = true) : trimEnds p (xs ++ [x]) = trimEnds p xs := by
  by_cases hxs : ∀ y ∈ xs, p y = true
  · have hall : ∀ y ∈ xs ++ [x], p y = true := by
      intro y hy
      rcases List.mem_append.1 hy with hy | hy
      · exact hxs y hy
      · exact List.mem_singleton.1 hy ▸ hx
    rw [trimEnds_eq_nil hall, trimEnds_eq_nil hxs]
  · have hne : xs.dropWhile p ≠ [] := fun hnil => hxs (List.dropWhile_eq_nil_iff.1 hnil)
    have hdrop : (xs ++ [x]).dropWhile p = xs.dropWhile p ++ [x] := by
      rw [List.dropWhile_append, if_neg (by simpa using hne)]
    rw [trimEnds, hdrop, List.reverse_concat, List.dropWhile_cons_of_pos hx, trimEnds]

theorem trimEnds_cons {x : α} (hx : p x = true) : trimEnds p (x :: xs) = trimEnds p xs := by
  rw [trimEnds, List.dropWhile_cons_of_pos hx, trimEnds]

theorem dropWhile_eq_self (h : ∀ x ∈ xs.head?, p x = false) : xs.dropWhile p = xs := by
  cases xs with
  | nil => rfl
  | cons x xs =>
    have hx : ¬ p x = true := by simpa using h
    exact List.dropWhile_cons_of_neg hx

/-- Nothing is trimmed from a sequence with other elements at its ends. -/
theorem trimEnds_eq_self (hfirst : ∀ x ∈ xs.head?, p x = false)
    (hlast : ∀ x ∈ xs.getLast?, p x = false) : trimEnds p xs = xs := by
  rw [← List.head?_reverse] at hlast
  rw [trimEnds, dropWhile_eq_self hfirst, dropWhile_eq_self hlast, List.reverse_reverse]

end ClauseCode.Text
