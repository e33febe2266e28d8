import ClauseCode.Proofs.Notation

/-!
# The variables of a term, in order

The variables of a term are listed by going through it from left to right and noting each name that
is new, where subterms that remember no variable are passed over.  Here this list is compared with
the sequence of all occurrences of variables, which takes no notice of what terms remember.

Noting a sequence of names one by one keeps the first occurrence of each (`Term.foldl_note`).  In a
faithful term nothing is passed over that matters, so that the variables of a term are noted in the
sequence of their occurrences (`Term.varsOnto_eq_foldl`).  Together, the terms that the constructors
make have their variables listed in the order of first occurrence (`Term.vars_first_occurrences`).
-/

namespace ClauseCode

namespace Term

mutual

/-- The variables of a term from left to right, one entry for each occurrence: those of the
arguments of a compound in order, those of the heads of a list in order and then of its tail. -/
def varOccurrences : Term → List String
  | atom _ => []
  | int _ => []
  | var x => [x]
  | comp _ args _ => varOccurrencesAll args
  | list head rest tail _ =>
    head.varOccurrences ++ (varOccurrencesAll rest ++ tail.varOccurrences)

/-- The variables of several terms from left to right. -/
def varOccurrencesAll : List Term → List String
  | [] => []
  | t :: ts => t.varOccurrences ++ varOccurrencesAll ts

end

variable {t : Term} {ts : List Term} {x : String}

theorem mem_varOccurrencesAll :
    x ∈ varOccurrencesAll ts ↔ ∃ t ∈ ts, x ∈ t.varOccurrences := by
  induction ts with
  | nil => simp [varOccurrencesAll]
  | cons t ts ih => simp [varOccurrencesAll, ih]

theorem varsAll_readAll (h : ∀ t ∈ ts, t.read.vars = t.varOccurrences) :
    Tree.varsAll (readAll ts) = varOccurrencesAll ts := by
  induction ts with
  | nil => rfl
  | cons t ts ih =>
    rw [List.forall_mem_cons] at h
    rw [readAll, Tree.varsAll, varOccurrencesAll, h.1, ih h.2]

theorem vars_readCells (h : ∀ t ∈ ts, t.read.vars = t.varOccurrences) (u : Tree String) :
    (readCells ts u).vars = varOccurrencesAll ts ++ u.vars := by
  induction ts with
  | nil => rfl
  | cons t ts ih =>
    rw [List.forall_mem_cons] at h
    rw [readCells, Tree.vars, Tree.varsAll, Tree.varsAll, Tree.varsAll, List.append_nil, h.1,
      ih h.2, varOccurrencesAll, List.append_assoc]

/-- The reading of a term has the same variables in the same order. -/
theorem vars_read (t : Term) : t.read.vars = t.varOccurrences := by
  induction t with
  | atom name => rfl
  | int n => rfl
  | var x => rfl
  | comp f args b ih => exact varsAll_readAll ih
  | list head rest tail b ihead irest itail =>
    rw [read, Tree.vars, Tree.varsAll, Tree.varsAll, Tree.varsAll, List.append_nil, ihead,
      vars_readCells irest, itail, varOccurrences]

/-! ### Noting names one by one -/

/-- Names that are noted one after another stand in the order of first occurrence behind those that
were there before. -/
theorem foldl_note (xs ys : List String) :
    ys.foldl note xs = xs ++ (ys.filter fun y => !xs.contains y).eraseDups := by
  induction ys generalizing xs with
  | nil => simp
  | cons y ys ih =>
    rw [List.foldl_cons, note]
    by_cases hy : xs.contains y = true
    · rw [if_pos hy, ih, List.filter_cons_of_neg (by simpa using hy)]
    · rw [if_neg hy, ih, List.filter_cons_of_pos (by simpa using hy), List.eraseDups_cons,
        List.filter_filter, List.append_assoc, List.singleton_append]
      -- Behind `y`, the names to note are those that are neither in `xs` nor `y`.
      have hnew : ∀ z ∈ ys, (!(xs ++ [y]).contains z) = (!z == y && !xs.contains z) := by
        intro z _
        simp [beq_eq_decide, Bool.and_comm]
      rw [List.filter_congr hnew]

theorem varsOntoAll_eq_foldl
    (h : ∀ t ∈ ts, ∀ xs, t.varsOnto xs = t.varOccurrences.foldl note xs) (xs : List String) :
    varsOntoAll ts xs = (varOccurrencesAll ts).foldl note xs := by
  induction ts generalizing xs with
  | nil => rfl
  | cons t ts ih =>
    rw [List.forall_mem_cons] at h
    rw [varsOntoAll, h.1, ih h.2, varOccurrencesAll, List.foldl_append]

/-- A faithful term that remembers no variable has no occurrence of one. -/
theorem varOccurrences_eq_nil (ht : t.Faithful) (h : t.hasVar = false) : t.varOccurrences = [] := by
  rw [← vars_read]
  exact vars_eq_nil ht h

/-- What is passed over in a faithful term has no variables, so that all occurrences are noted. -/
theorem varsOnto_eq_foldl (ht : t.Faithful) (xs : List String) :
    t.varsOnto xs = t.varOccurrences.foldl note xs := by
  induction t generalizing xs with
  | atom name => rfl
  | int n => rfl
  | var x => rfl
  | comp f args b ih =>
    cases b with
    | false =>
      rw [varOccurrences_eq_nil ht rfl]
      rfl
    | true =>
      have hargs := faithfulAll_iff.1 ht.2
      exact varsOntoAll_eq_foldl (fun u hu => ih u hu (hargs u hu)) xs
  | list head rest tail b ihead irest itail =>
    cases b with
    | false =>
      rw [varOccurrences_eq_nil ht rfl]
      rfl
    | true =>
      obtain ⟨-, hhead, hrest, htail⟩ := ht
      rw [faithfulAll_iff] at hrest
      show tail.varsOnto (varsOntoAll rest (head.varsOnto xs)) = _
      rw [ihead hhead, varsOntoAll_eq_foldl (fun u hu => irest u hu (hrest u hu)), itail htail,
        varOccurrences, List.foldl_append, List.foldl_append]

theorem vars_eq_eraseDups (ht : t.Faithful) : t.vars = t.varOccurrences.eraseDups := by
  rw [vars, varsOnto_eq_foldl ht, foldl_note]
  simp

/-- The variables of a term are listed in the order of first occurrence, each once, and a variable
is found to occur in a term exactly if it occurs in it. -/
theorem vars_first_occurrences (ht : t.Built) :
    t.vars = t.varOccurrences.eraseDups ∧ ∀ x, occurs x t = true ↔ x ∈ t.varOccurrences := by
  refine ⟨vars_eq_eraseDups ht.faithful, fun x => ?_⟩
  rw [occurs_iff ht.faithful, vars_read]

end Term

/-- The term `f(X, [Y, g(X), h(a)], [_ | T])`. -/
def orderedTerm : Term :=
  .apply "f" [.var "X", .ofList [.var "Y", .apply "g" [.var "X"], .apply "h" [.atom "a"]],
    .prepend [.var "_"] (.var "T")]

/-- The second `X` is not listed again, and `h(a)` is passed over. -/
theorem vars_orderedTerm :
    orderedTerm.Built ∧ orderedTerm.varOccurrences = ["X", "Y", "X", "_", "T"] ∧
      orderedTerm.vars = ["X", "Y", "_", "T"] ∧ Term.occurs "Z" orderedTerm = false := by
  have hbuilt : orderedTerm.Built := by decide
  have hsequence : orderedTerm.varOccurrences = ["X", "Y", "X", "_", "T"] := rfl
  obtain ⟨hvars, hoccurs⟩ := Term.vars_first_occurrences hbuilt
  rw [hsequence] at hvars hoccurs
  refine ⟨hbuilt, hsequence, hvars.trans (by decide), ?_⟩
  rw [← Bool.not_eq_true, hoccurs]
  decide

end ClauseCode
