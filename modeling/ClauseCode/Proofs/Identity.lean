import ClauseCode.Proofs.Lists
import ClauseCode.Term.Basic

/-!
# Identity of terms and their cell readings

Two terms are compared from the root down: constants and variables must be equal, compounds must
have the same functor and number of arguments, and then their arguments are compared in order; of
two lists, the heads of the first cells are compared and then the tails, which are cut off each
time.  A run of this comparison works on a sequence of pairs that are still to be compared, and ends
at the first difference or when no pair is left (`Term.Compares`).

A step goes from two terms to their children, whose readings are smaller trees, so that every run
comes to an end (`Term.exists_compares`), and the answer says whether the readings are equal
(`Term.Compares.answer`).  So does `Term.same` (`Term.same_iff`), which therefore gives the answer
of the run.  The terms that the constructors make are determined by their readings
(`Term.eq_of_read_eq`).
-/

namespace ClauseCode

namespace Term

/-- A run of the comparison of pairs of terms, and its answer.  The children of a list are the head
and the tail of its first cell. -/
inductive Compares : List (Term × Term) → Bool → Prop
  | done : Compares [] true
  | leaf {t : Term} {rest : List (Term × Term)} {r : Bool} (ht : t.kind? = none)
      (hrest : Compares rest r) : Compares ((t, t) :: rest) r
  | otherLeaf {t u : Term} {rest : List (Term × Term)} (ht : t.kind? = none) (htu : t ≠ u) :
      Compares ((t, u) :: rest) false
  | children {t u : Term} {k : Kind} {rest : List (Term × Term)} {r : Bool}
      (ht : t.kind? = some k) (hu : u.kind? = some k)
      (hlen : t.children.length = u.children.length)
      (h : Compares (t.children.zip u.children ++ rest) r) : Compares ((t, u) :: rest) r
  | otherKind {t u : Term} {k : Kind} {rest : List (Term × Term)} (ht : t.kind? = some k)
      (hu : u.kind? ≠ some k) : Compares ((t, u) :: rest) false
  | otherArity {t u : Term} {k : Kind} {rest : List (Term × Term)} (ht : t.kind? = some k)
      (hu : u.kind? = some k) (hlen : t.children.length ≠ u.children.length) :
      Compares ((t, u) :: rest) false

variable {t u : Term} {ts us : List Term} {pairs : List (Term × Term)} {r : Bool}

/-! ### The answer of a run -/

theorem eq_of_read_eq_leaf (ht : t.kind? = none) (h : t.read = u.read) : t = u := by
  cases t with
  | atom | int | var => cases u <;> simp_all [read]
  | comp | list => simp [kind?] at ht

theorem kind?_eq_of_read_eq (h : t.read = u.read) {k : Kind} (ht : t.kind? = some k) :
    u.kind? = some k ∧ t.children.map read = u.children.map read := by
  rw [read_eq_node ht] at h
  obtain ⟨hu, hchildren⟩ := read_eq_node_iff.1 h.symm
  exact ⟨hu, hchildren.symm⟩

theorem forall_zip_read_iff (hlen : ts.length = us.length) :
    (∀ p ∈ ts.zip us, p.1.read = p.2.read) ↔ ts.map read = us.map read := by
  induction ts generalizing us with
  | nil =>
    obtain rfl := List.eq_nil_of_length_eq_zero hlen.symm
    simp
  | cons t ts ih =>
    obtain ⟨u, us, rfl⟩ := List.exists_cons_of_length_eq_add_one hlen.symm
    rw [List.zip_cons_cons, List.forall_mem_cons, ih (Nat.succ.inj hlen), List.map_cons,
      List.map_cons, List.cons.injEq]

/-- A run answers whether the readings are equal in all pairs. -/
theorem Compares.answer (h : Compares pairs r) :
    r = true ↔ ∀ p ∈ pairs, p.1.read = p.2.read := by
  induction h with
  | done => simp
  | leaf ht _ ih => rw [ih, List.forall_mem_cons, and_iff_right rfl]
  | children ht hu hlen _ ih =>
    rw [ih, List.forall_mem_append, List.forall_mem_cons, forall_zip_read_iff hlen,
      read_eq_node ht, read_eq_node hu, Tree.node.injEq, and_iff_right rfl]
  | otherLeaf ht htu =>
    refine iff_of_false Bool.false_ne_true fun h => ?_
    exact htu (eq_of_read_eq_leaf ht (List.forall_mem_cons.1 h).1)
  | otherKind ht hu =>
    refine iff_of_false Bool.false_ne_true fun h => ?_
    exact hu (kind?_eq_of_read_eq (List.forall_mem_cons.1 h).1 ht).1
  | otherArity ht _ hlen =>
    refine iff_of_false Bool.false_ne_true fun h => ?_
    have hchildren := (kind?_eq_of_read_eq (List.forall_mem_cons.1 h).1 ht).2
    have hlength := congrArg List.length hchildren
    rw [List.length_map, List.length_map] at hlength
    exact hlen hlength

/-! ### Every run ends -/

/-- Induction on a term by its children, whose readings are smaller trees. -/
theorem childrenInduction {motive : Term → Prop}
    (step : ∀ t, (∀ c ∈ t.children, motive c) → motive t) (t : Term) : motive t := by
  generalize htree : t.read = tree
  induction tree generalizing t with
  | var x =>
    obtain rfl := read_eq_var_iff.1 htree
    exact step _ (by simp [Term.children])
  | constant c =>
    refine step t ?_
    cases t <;> simp_all [read, Term.children]
  | node k trees ih =>
    obtain ⟨-, rfl⟩ := read_eq_node_iff.1 htree
    exact step t fun c hc => ih c.read (List.mem_map_of_mem hc) c rfl

theorem exists_compares_append
    (h : ∀ t ∈ ts, ∀ u rest, (∃ r, Compares rest r) → ∃ r, Compares ((t, u) :: rest) r)
    (hpairs : ∃ r, Compares pairs r) (us : List Term) :
    ∃ r, Compares (ts.zip us ++ pairs) r := by
  induction ts generalizing us with
  | nil => exact hpairs
  | cons t ts ih =>
    rw [List.forall_mem_cons] at h
    cases us with
    | nil => exact hpairs
    | cons u us => exact h.1 u _ (ih h.2 us)

/-- A run that would end without a pair ends with it. -/
theorem exists_compares_cons (t u : Term) (hpairs : ∃ r, Compares pairs r) :
    ∃ r, Compares ((t, u) :: pairs) r := by
  induction t using childrenInduction generalizing u pairs with
  | step t ih =>
    cases ht : t.kind? with
    | none =>
      by_cases htu : t = u
      · subst htu
        obtain ⟨r, hr⟩ := hpairs
        exact ⟨r, .leaf ht hr⟩
      · exact ⟨false, .otherLeaf ht htu⟩
    | some k =>
      by_cases hu : u.kind? = some k
      · by_cases hlen : t.children.length = u.children.length
        · -- The pairs of children come before the others, and each of them ends by induction.
          obtain ⟨r, hr⟩ := exists_compares_append (fun c hc v _ => ih c hc v) hpairs u.children
          exact ⟨r, .children ht hu hlen hr⟩
        · exact ⟨false, .otherArity ht hu hlen⟩
      · exact ⟨false, .otherKind ht hu⟩

/-- Every run comes to an end. -/
theorem exists_compares (pairs : List (Term × Term)) : ∃ r, Compares pairs r := by
  induction pairs with
  | nil => exact ⟨true, .done⟩
  | cons p pairs ih => exact exists_compares_cons p.1 p.2 ih

/-! ### The answer that is computed -/

theorem sameAll_iff (h : ∀ t ∈ ts, ∀ u, same t u = true ↔ t.read = u.read)
    (hlen : ts.length = us.length) : sameAll ts us = true ↔ readAll ts = readAll us := by
  induction ts generalizing us with
  | nil =>
    obtain rfl := List.eq_nil_of_length_eq_zero hlen.symm
    simp [sameAll]
  | cons t ts ih =>
    obtain ⟨u, us, rfl⟩ := List.exists_cons_of_length_eq_add_one hlen.symm
    rw [List.forall_mem_cons] at h
    rw [sameAll, Bool.and_eq_true, h.1, ih h.2 (Nat.succ.inj hlen), readAll, readAll,
      List.cons.injEq]

/-- The cells of a list are compared one by one with those that are cut off another term. -/
theorem sameCells_iff {next : Term → Bool} {tree : Tree String}
    (h : ∀ t ∈ ts, ∀ u, same t u = true ↔ t.read = u.read)
    (hnext : ∀ u, next u = true ↔ tree = u.read) (u : Term) :
    sameCells ts next u = true ↔ readCells ts tree = u.read := by
  induction ts generalizing u with
  | nil => exact hnext u
  | cons t ts ih =>
    rw [List.forall_mem_cons] at h
    cases u with
    | list head rest tail b =>
      rw [sameCells, Bool.and_eq_true, h.1, ih h.2, read_afterCells, readCells, read]
      simp
    | atom | int | var | comp => simp [sameCells, readCells, read]

/-- Terms are found to be the same exactly if their readings are equal. -/
theorem same_iff (t u : Term) : same t u = true ↔ t.read = u.read := by
  induction t generalizing u with
  | atom name => cases u <;> simp [same, read]
  | int n => cases u <;> simp [same, read]
  | var x => cases u <;> simp [same, read]
  | comp f args b ih =>
    cases u with
    | comp g args' b' =>
      rw [same, read, read, Tree.node.injEq, Kind.functor.injEq, Bool.and_eq_true,
        Bool.and_eq_true, decide_eq_true_iff, decide_eq_true_iff, and_assoc]
      refine and_congr_right fun _ => ?_
      constructor
      · rintro ⟨hlen, hargs⟩
        exact (sameAll_iff ih hlen).1 hargs
      · intro hargs
        have hlen : args.length = args'.length := by
          simpa [readAll_eq_map] using congrArg List.length hargs
        exact ⟨hlen, (sameAll_iff ih hlen).2 hargs⟩
    | atom | int | var | list => simp [same, read]
  | list head rest tail b ihead irest itail =>
    cases u with
    | list head' rest' tail' b' =>
      rw [same, Bool.and_eq_true, ihead, sameCells_iff irest itail, read_afterCells, read, read]
      simp
    | atom | int | var | comp => simp [same, read]

/-- What is computed is the answer of the run that starts with the two terms. -/
theorem compares_iff : Compares [(t, u)] r ↔ same t u = r := by
  have hanswer : ∀ {r}, Compares [(t, u)] r → same t u = r := by
    intro r h
    rw [Bool.eq_iff_iff, same_iff, h.answer, List.forall_mem_singleton]
  refine ⟨hanswer, ?_⟩
  rintro rfl
  obtain ⟨r, h⟩ := exists_compares [(t, u)]
  rwa [hanswer h]

/-! ### One term for each reading -/

/-- A compound or a list is put together from its children. -/
theorem eq_of_children_eq (ht : t.Built) (hu : u.Built) (hnode : t.kind? ≠ none)
    (hkind : t.kind? = u.kind?) (h : t.children = u.children) : t = u := by
  cases t with
  | atom | int | var => simp [kind?] at hnode
  | comp f args b =>
    cases u with
    | comp g args' b' =>
      obtain rfl : f = g := Kind.functor.inj (Option.some.inj hkind)
      obtain rfl : args = args' := h
      rw [ht.shaped.1, hu.shaped.1]
    | atom | int | var | list => simp [kind?] at hkind
  | list head rest tail b =>
    cases u with
    | list head' rest' tail' b' =>
      rw [Term.children, Term.children, List.cons.injEq, List.cons.injEq] at h
      rw [← prepend_cell ht, ← prepend_cell hu, h.2.1, h.1]
    | atom | int | var | comp => simp [kind?] at hkind

theorem eq_of_map_read_eq (hts : ∀ t ∈ ts, ∀ u : Term, u.Built → t.read = u.read → t = u)
    (hus : ∀ u ∈ us, u.Built) (h : ts.map read = us.map read) : ts = us := by
  induction ts generalizing us with
  | nil => exact (List.map_eq_nil_iff.1 h.symm).symm
  | cons t ts ih =>
    cases us with
    | nil => simp at h
    | cons u us =>
      rw [List.map_cons, List.map_cons, List.cons.injEq] at h
      rw [List.forall_mem_cons] at hts hus
      rw [hts.1 u hus.1 h.1, ih hts.2 hus.2 h.2]

/-- The terms that the constructors make are determined by their readings. -/
theorem eq_of_read_eq (ht : t.Built) (hu : u.Built) (h : t.read = u.read) : t = u := by
  induction t using childrenInduction generalizing u with
  | step t ih =>
    cases hkt : t.kind? with
    | none => exact eq_of_read_eq_leaf hkt h
    | some k =>
      obtain ⟨hku, hchildren⟩ := kind?_eq_of_read_eq h hkt
      refine eq_of_children_eq ht hu (by simp [hkt]) (hkt.trans hku.symm) ?_
      refine eq_of_map_read_eq (fun c hc v hv => ?_) (fun v hv => hu.of_mem_children hv) hchildren
      exact ih c hc (ht.of_mem_children hc) hv

/-- Comparing two terms always comes to an end, and the answer is whether their cell readings are
equal.  So this is an equivalence, lists are the same whatever calls put them together, and terms
that are the same have the same variables and the same text. -/
theorem same_iff_read_eq :
    (∀ (t u : Term) (r : Bool), Compares [(t, u)] r ↔ same t u = r) ∧
      (∀ t u : Term, same t u = true ↔ t.read = u.read) ∧
      Equivalence (fun t u : Term => same t u = true) ∧
      (∀ (ts us : List Term) (v w : Term), same (prepend ts v) (prepend us w) = true ↔
        readCells ts v.read = readCells us w.read) ∧
      ∀ t u : Term, t.Built → u.Built → same t u = true → t.vars = u.vars ∧ t.text = u.text := by
  refine ⟨fun t u r => compares_iff, same_iff, ⟨?_, ?_, ?_⟩, ?_, ?_⟩
  · intro t
    exact (same_iff t t).2 rfl
  · intro t u h
    exact (same_iff u t).2 ((same_iff t u).1 h).symm
  · intro t u v htu huv
    exact (same_iff t v).2 (((same_iff t u).1 htu).trans ((same_iff u v).1 huv))
  · intro ts us v w
    rw [same_iff, read_prepend, read_prepend]
  · intro t u ht hu h
    obtain rfl := eq_of_read_eq ht hu ((same_iff t u).1 h)
    exact ⟨rfl, rfl⟩

end Term

/-- The list `[a, X | T]`, put together in two steps. -/
def gatheredList : Term := .prepend [.atom "a"] (.prepend [.var "X"] (.var "T"))

/-- The list is the same as a slice of a longer one, but not the same as `[a, X]`. -/
theorem same_gatheredList : ∃ part,
    (Term.prepend [.int 0, .atom "a", .var "X"] (.var "T")).slice 1 = .ok part ∧ part.Built ∧
      gatheredList.Built ∧ Term.same part gatheredList = true ∧ part.vars = gatheredList.vars ∧
      part.text = gatheredList.text ∧
      Term.same gatheredList (.ofList [.atom "a", .var "X"]) = false := by
  obtain ⟨-, hread, -, hlists, hequal⟩ := Term.same_iff_read_eq
  have hbuilt : gatheredList.Built := by decide
  have hpart : (Term.prepend [.atom "a", .var "X"] (.var "T")).Built := by decide
  have hsame := (hlists [.atom "a", .var "X"] [.atom "a"] (.var "T")
    (.prepend [.var "X"] (.var "T"))).2 rfl
  obtain ⟨hvars, htext⟩ := hequal _ _ hpart hbuilt hsame
  refine ⟨_, rfl, hpart, hbuilt, hsame, hvars, htext, ?_⟩
  rw [← Bool.not_eq_true, hread]
  decide

end ClauseCode
