import ClauseCode.Proofs.Packing

/-!
# Code as a run-length encoding

Instructions are pushed onto code one by one, and a void joins the run before it.  So code is a
run-length encoding of the instructions that were pushed: it stands for them, its runs are not
empty and no two of them are next to each other, and no other code is like that
(`Packed.expand_inj`).  A run is counted in a word of 64 bits, which shows its length as long as
there are not too many pushes for it (`foldlM_push_eq_pack`).

A void that does not stand for a single subterm is refused, whatever the code
(`push_eq_error_iff`), and the pushes after it go on as if it had not been there
(`foldlM_push_filter`).
-/

namespace ClauseCode.Code

variable {d : Direction} {is code code' : List Instruction} {i : Instruction}

/-! ### Code from what it stands for -/

/-- If code begins with what is no void, then so does what it stands for. -/
theorem head_expand (hhead : ∀ j ∈ code.head?, d.isVoid j = false) :
    ∀ j ∈ (expand d code).head?, d.isVoid j = false := by
  intro j hj
  rcases code with _ | ⟨i, rest⟩
  · simp [expand] at hj
  · have hi := hhead i (by simp)
    rw [expand_cons, expandOne_of_not_isVoid hi] at hj
    obtain rfl : i = j := by simpa using hj
    exact hi

/-- A run of voids ends where something else begins. -/
theorem run_eq_of_append {m n : ℕ} {is js : List Instruction}
    (his : ∀ i ∈ is.head?, d.isVoid i = false)
    (h : List.replicate m (.void d 1) ++ is = List.replicate n (.void d 1) ++ js) : n ≤ m := by
  rcases List.append_eq_append_iff.1 h with ⟨run, hrun, hafter⟩ | ⟨run, hrun, -⟩
  · rcases run with _ | ⟨i, run⟩
    · rw [List.append_nil, List.replicate_inj] at hrun
      omega
    · -- The first instruction after the shorter run would be a void of the longer one.
      have hi : i = .void d 1 := List.eq_of_mem_replicate (n := n) (by rw [hrun]; simp)
      have hvoid := his i (by rw [hafter]; simp)
      rw [hi, isVoid_void] at hvoid
      exact nomatch hvoid
  · have hlength := congrArg List.length hrun
    simp only [List.length_append, List.length_replicate] at hlength
    omega

/-- Packed code is determined by what it stands for. -/
theorem Packed.expand_inj (h : Packed d code) (h' : Packed d code')
    (hexpand : expand d code = expand d code') : code = code' := by
  induction code generalizing code' with
  | nil => exact (expand_eq_nil h'.one_le hexpand.symm).symm
  | cons i rest ih =>
    by_cases hi : d.isVoid i = true
    · obtain ⟨n, rfl⟩ := isVoid_iff.1 hi
      rcases code' with _ | ⟨j, rest'⟩
      · exact expand_eq_nil h.one_le hexpand
      · have hn := h.one_le n (by simp)
        by_cases hj : d.isVoid j = true
        · obtain ⟨m, rfl⟩ := isVoid_iff.1 hj
          have hm := h'.one_le m (by simp)
          rw [expand_cons, expand_cons, expandOne_void, expandOne_void] at hexpand
          -- Neither run goes on behind its end, so that both are of the same length.
          have hle := run_eq_of_append (head_expand h.head_of_void) hexpand
          have hge := run_eq_of_append (head_expand h'.head_of_void) hexpand.symm
          obtain rfl : n = m := by omega
          rw [ih h.tail h'.tail (List.append_cancel_left hexpand)]
        · rw [Bool.not_eq_true] at hj
          rw [expand_cons d j, expandOne_of_not_isVoid hj, List.singleton_append] at hexpand
          obtain ⟨rest', hcons, -⟩ := exists_cons_of_expand h.one_le hj hexpand
          rw [(List.cons.inj hcons).1, hj] at hi
          exact nomatch hi
    · rw [Bool.not_eq_true] at hi
      rw [expand_cons, expandOne_of_not_isVoid hi, List.singleton_append] at hexpand
      obtain ⟨rest', rfl, hrest⟩ := exists_cons_of_expand h'.one_le hi hexpand.symm
      rw [ih h.tail h'.tail hrest.symm]

/-- A run is no longer than all that the code stands for. -/
theorem count_le_length_expand {n : Int} (h : Instruction.void d n ∈ code) :
    n ≤ (expand d code).length := by
  obtain ⟨before, after, rfl⟩ := List.append_of_mem h
  rw [expand_append, expand_cons, expandOne_void]
  simp only [List.length_append, List.length_replicate]
  omega

/-! ### One push -/

/-- A push fails exactly on a void that does not stand for a single subterm, and names it. -/
theorem push_eq_error_iff {e : VoidError} :
    push d code i = .error e ↔ ∃ n, i = .void d n ∧ n ≠ 1 ∧ e = ⟨n, i⟩ := by
  have hpush : push d code i = .error e ↔
      pushOnto d.incrementVoid d code.reverse i = .error e := by
    rw [push]
    cases pushOnto d.incrementVoid d code.reverse i <;> simp
  rw [hpush]
  by_cases hi : d.isVoid i = true
  · obtain ⟨n, rfl⟩ := isVoid_iff.1 hi
    rw [pushOnto, if_pos rfl]
    split
    next hn => simp [hn]
    next hn => simp [hn, eq_comm]
  · rw [Bool.not_eq_true] at hi
    constructor
    · intro herror
      rw [pushOnto_of_not_isVoid _ hi] at herror
      cases herror
    · rintro ⟨n, rfl, -⟩
      rw [isVoid_void] at hi
      cases hi

/-! ### Many pushes -/

theorem mapVoid_of_not_isVoid (f : Int → Int) (h : d.isVoid i = false) : d.mapVoid f i = i := by
  cases i with
  | void d' n =>
    have hd : d' ≠ d := by simpa [Direction.isVoid] using h
    simp [Direction.mapVoid, hd]
  | _ => rfl

theorem isVoid_mapVoid (f : Int → Int) (d : Direction) (i : Instruction) :
    d.isVoid (d.mapVoid f i) = d.isVoid i := by
  by_cases hi : d.isVoid i = true
  · obtain ⟨n, rfl⟩ := isVoid_iff.1 hi
    rw [mapVoid_void, isVoid_void, isVoid_void]
  · rw [mapVoid_of_not_isVoid f (by simpa using hi)]

/-- A count that is a word grows as the word of a count without a bound. -/
theorem addVoid_map_wrapWord (d : Direction) (code : List Instruction) :
    addVoid d.incrementVoid d (code.map (d.mapVoid wrapWord)) =
      (addVoid d.lengthenVoid d code).map (d.mapVoid wrapWord) := by
  have hone : d.mapVoid wrapWord (.void d 1) = .void d 1 := mapVoid_void wrapWord d 1
  rcases head_cases d code with hhead | ⟨n, rest, rfl⟩
  · have hhead' : ∀ j ∈ (code.map (d.mapVoid wrapWord)).head?, d.isVoid j = false := by
      intro j hj
      rw [List.head?_map] at hj
      obtain ⟨i, hi, rfl⟩ := Option.map_eq_some_iff.1 hj
      rw [isVoid_mapVoid]
      exact hhead i hi
    rw [addVoid_of_head _ hhead, addVoid_of_head _ hhead', List.map_cons, hone]
  · rw [List.map_cons, mapVoid_void, Direction.incrementVoid, Direction.lengthenVoid, addVoid_void,
      addVoid_void, List.map_cons, mapVoid_void, nextWord_wrapWord]

theorem pushOnto_map_wrapWord (d : Direction) (code : List Instruction) (i : Instruction) :
    pushOnto d.incrementVoid d (code.map (d.mapVoid wrapWord)) i =
      (pushOnto d.lengthenVoid d code i).map (List.map (d.mapVoid wrapWord)) := by
  by_cases hi : d.isVoid i = true
  · obtain ⟨n, rfl⟩ := isVoid_iff.1 hi
    rw [pushOnto, pushOnto, if_pos rfl, if_pos rfl]
    split
    · rw [addVoid_map_wrapWord]
      rfl
    · rfl
  · rw [Bool.not_eq_true] at hi
    rw [pushOnto_of_not_isVoid _ hi, pushOnto_of_not_isVoid _ hi]
    simp [Except.map, mapVoid_of_not_isVoid wrapWord hi]

theorem pushAllOnto_map_wrapWord (d : Direction) (is code : List Instruction) :
    pushAllOnto d.incrementVoid d (code.map (d.mapVoid wrapWord)) is =
      (pushAllOnto d.lengthenVoid d code is).map (List.map (d.mapVoid wrapWord)) := by
  induction is generalizing code with
  | nil => rfl
  | cons i is ih =>
    rw [pushAllOnto, pushOnto_map_wrapWord, pushAllOnto]
    cases pushOnto d.lengthenVoid d code i with
    | ok grown => exact ih grown
    | error e => rfl

theorem foldlM_push (is code : List Instruction) :
    is.foldlM (push d) code.reverse =
      (pushAllOnto d.incrementVoid d code is).map List.reverse := by
  induction is generalizing code with
  | nil => rfl
  | cons i is ih =>
    rw [List.foldlM_cons, push, List.reverse_reverse, pushAllOnto]
    cases pushOnto d.incrementVoid d code i with
    | ok code' => exact ih code'
    | error e => rfl

/-- Pushing instructions one by one is packing them, with the counts in words. -/
theorem foldlM_push_eq_pack (d : Direction) (is : List Instruction) :
    is.foldlM (push d) [] = (pack d is).map (List.map (d.mapVoid wrapWord)) := by
  have hwords := pushAllOnto_map_wrapWord d is []
  rw [List.map_nil] at hwords
  have hfold := foldlM_push (d := d) is []
  rw [List.reverse_nil, hwords] at hfold
  rw [hfold, pack]
  cases pushAllOnto d.lengthenVoid d [] is with
  | ok code => simp [Except.map]
  | error e => rfl

/-- Words show the counts of code that has no run too long for them. -/
theorem map_wrapWord_eq_self
    (h : ∀ n : Int, .void d n ∈ code → 1 ≤ n ∧ n < 0x8000000000000000) :
    code.map (d.mapVoid wrapWord) = code := by
  have hfixed : ∀ i ∈ code, d.mapVoid wrapWord i = i := by
    intro i hi
    by_cases hv : d.isVoid i = true
    · obtain ⟨n, rfl⟩ := isVoid_iff.1 hv
      have hn := h n hi
      rw [mapVoid_void, wrapWord_of_bounds (by omega) (by omega)]
    · exact mapVoid_of_not_isVoid wrapWord (by simpa using hv)
  exact (List.map_congr_left hfixed).trans (List.map_id code)

/-- Pushes instructions one by one, where a push that fails leaves the code as it was. -/
def pushEach (d : Direction) (code : List Instruction) : List Instruction → List Instruction
  | [] => code
  | i :: is =>
    match push d code i with
    | .ok grown => pushEach d grown is
    | .error _ => pushEach d code is

/-- Whether an instruction is no void of a direction, or one that stands for a single subterm. -/
def accepts (d : Direction) (i : Instruction) : Bool := !d.isVoid i || i = .void d 1

theorem accepts_iff : accepts d i = true ↔ ∀ n, i = .void d n → n = 1 := by
  constructor
  · rintro h n rfl
    simpa [accepts, isVoid_void] using h
  · intro h
    by_cases hi : d.isVoid i = true
    · obtain ⟨n, rfl⟩ := isVoid_iff.1 hi
      simp [accepts, h n rfl]
    · simp [accepts, hi]

/-- The pushes that fail might as well be left out. -/
theorem foldlM_push_filter (is code : List Instruction) :
    (is.filter (accepts d)).foldlM (push d) code = .ok (pushEach d code is) := by
  induction is generalizing code with
  | nil => rfl
  | cons i is ih =>
    rw [pushEach]
    cases hpush : push d code i with
    | ok code' =>
      have hi : accepts d i = true := by
        rw [accepts_iff]
        rintro n rfl
        by_contra hn
        rw [push_eq_error_iff.2 ⟨n, rfl, hn, rfl⟩] at hpush
        exact nomatch hpush
      rw [List.filter_cons_of_pos hi, List.foldlM_cons, hpush]
      exact ih code'
    | error e =>
      obtain ⟨n, rfl, hn, -⟩ := push_eq_error_iff.1 hpush
      have hi : ¬ accepts d (.void d n) = true := fun h => hn (accepts_iff.1 h n rfl)
      rw [List.filter_cons_of_neg hi]
      exact ih code

/-- For instructions whose voids stand for single subterms there is one code that stands for them
and whose runs of voids are not empty and never next to each other; no run is longer than the number
of instructions.  Pushed one by one, the instructions make this code, with the counts of the runs in
words, and the code itself if a word can count the pushes.  A push fails exactly on a void that does
not stand for a single subterm, and the code is in the end what the other pushes make it. -/
theorem push_encodes_runs (d : Direction) (is : List Instruction) :
    (UnitVoids d is → ∃ code, expand d code = is ∧
      Packed d code ∧ (∀ code', expand d code' = is → Packed d code' → code' = code) ∧
      (∀ n : Int, .void d n ∈ code → n ≤ is.length) ∧
      is.foldlM (push d) [] = .ok (code.map (d.mapVoid wrapWord)) ∧
      (is.length < 0x8000000000000000 → is.foldlM (push d) [] = .ok code)) ∧
    (∀ code i, (∃ e, push d code i = .error e) ↔ ∃ n : Int, i = .void d n ∧ n ≠ 1) ∧
    (is.filter (accepts d)).foldlM (push d) [] = .ok (pushEach d [] is) := by
  refine ⟨fun hunit => ?_, fun code i => ?_, foldlM_push_filter is []⟩
  · obtain ⟨code, hpack, hexpand⟩ := exists_pack hunit
    have hpacked := Packed.of_pack hpack
    have hcount : ∀ n : Int, .void d n ∈ code → n ≤ is.length := by
      intro n hn
      have hle := count_le_length_expand hn
      rwa [hexpand] at hle
    have hpush : is.foldlM (push d) [] = .ok (code.map (d.mapVoid wrapWord)) := by
      rw [foldlM_push_eq_pack, hpack]
      rfl
    refine ⟨code, hexpand, hpacked, fun code' hexpand' hpacked' => ?_, hcount, hpush, ?_⟩
    · exact hpacked'.expand_inj hpacked (hexpand'.trans hexpand.symm)
    · intro hlength
      rw [hpush, map_wrapWord_eq_self]
      intro n hn
      exact ⟨hpacked.one_le n hn, by have := hcount n hn; omega⟩
  · constructor
    · rintro ⟨e, he⟩
      obtain ⟨n, hi, hn, -⟩ := push_eq_error_iff.1 he
      exact ⟨n, hi, hn⟩
    · rintro ⟨n, hi, hn⟩
      exact ⟨⟨n, i⟩, push_eq_error_iff.2 ⟨n, hi, hn, rfl⟩⟩

/-- Two voids, the constant `a` and a void: the first two make one run.  The code is the only one
that stands for them, and a void with count 3 is refused. -/
theorem push_encodes_runs_mixed :
    let is : List Instruction :=
      [.void .check 1, .void .check 1, .subConstant .check (.atom "a"), .void .check 1]
    let code : List Instruction :=
      [.void .check 2, .subConstant .check (.atom "a"), .void .check 1]
    UnitVoids .check is ∧ is.foldlM (push .check) [] = .ok code ∧ Packed .check code ∧
      (∀ code', expand .check code' = is → Packed .check code' → code' = code) ∧
      (∃ e, push .check code (.void .check 3) = .error e) ∧
      pushEach .check [] (.void .check 3 :: is) = code := by
  intro is code
  have hunit : UnitVoids .check is := by
    intro n hn
    simpa [is] using hn
  obtain ⟨hruns, hfails, -⟩ := push_encodes_runs .check is
  obtain ⟨code', -, hpacked, hunique, -, -, hpush⟩ := hruns hunit
  have hpush := hpush (by decide)
  obtain rfl : code = code' := Except.ok.inj hpush
  exact ⟨hunit, hpush, hpacked, hunique, (hfails code _).2 ⟨3, rfl, by decide⟩, rfl⟩

end ClauseCode.Code
