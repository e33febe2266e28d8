import ClauseCode.Compile.Code
import Mathlib.Data.List.Basic
import Mathlib.Data.List.Chain

/-!
# Packed code

Packing code puts runs of voids together.  Expanding it takes them apart again: a void with count
`n` becomes `n` voids that stand for single subterms.  `exists_pack` says that packing succeeds on
code whose voids stand for single subterms, and that expanding gives back what was packed.

In packed code, each void stands for at least one subterm and no two voids are next to each other
(`Packed.of_pack`).  So the instructions before and after a run of voids are those of the code that
was packed (`exists_cons_of_expand`, `exists_append_of_expand`).
-/

namespace ClauseCode.Code

/-- An instruction with its voids one by one. -/
def expandOne (d : Direction) : Instruction → List Instruction
  | .void d' n => if d' = d then List.replicate n.toNat (.void d 1) else [.void d' n]
  | i => [i]

/-- Code with its voids one by one. -/
def expand (d : Direction) (is : List Instruction) : List Instruction := is.flatMap (expandOne d)

/-- Whether each void of a direction stands for a single subterm. -/
def UnitVoids (d : Direction) (is : List Instruction) : Prop :=
  ∀ n, Instruction.void d n ∈ is → n = 1

/-- Whether no void of a direction has a negative count. -/
def Counted (d : Direction) (is : List Instruction) : Prop :=
  ∀ n, Instruction.void d n ∈ is → 0 ≤ n

variable {d : Direction} {is js code : List Instruction} {i : Instruction}

theorem UnitVoids.cons_iff :
    UnitVoids d (i :: is) ↔ (∀ n, i = .void d n → n = 1) ∧ UnitVoids d is := by
  constructor
  · intro h
    exact ⟨fun n hn => h n (by simp [hn]), fun n hn => h n (by simp [hn])⟩
  · rintro ⟨hi, his⟩ n hn
    rcases List.mem_cons.1 hn with hn | hn
    · exact hi n hn.symm
    · exact his n hn

theorem expand_append : expand d (is ++ js) = expand d is ++ expand d js := by
  rw [expand, List.flatMap_append]
  rfl

theorem expand_cons (d : Direction) (i : Instruction) (code : List Instruction) :
    expand d (i :: code) = expandOne d i ++ expand d code := by
  rw [expand, List.flatMap_cons, ← expand]

theorem expandOne_void (n : Int) :
    expandOne d (.void d n) = List.replicate n.toNat (.void d 1) := by
  simp [expandOne]

theorem expandOne_of_not_isVoid (h : d.isVoid i = false) : expandOne d i = [i] := by
  cases i with
  | void d' n =>
    have hd : d' ≠ d := by simpa [Direction.isVoid] using h
    simp [expandOne, hd]
  | _ => rfl

theorem isVoid_iff : d.isVoid i = true ↔ ∃ n, i = .void d n := by
  cases i with
  | void d' n => simp [Direction.isVoid]
  | _ => simp [Direction.isVoid]

theorem isVoid_void (d : Direction) (n : Int) : d.isVoid (.void d n) = true :=
  isVoid_iff.2 ⟨n, rfl⟩

theorem mapVoid_void (f : Int → Int) (d : Direction) (n : Int) :
    d.mapVoid f (.void d n) = .void d (f n) := by
  simp [Direction.mapVoid]

theorem pushOnto_of_not_isVoid (grow : Instruction → Instruction) (h : d.isVoid i = false) :
    pushOnto grow d code i = .ok (i :: code) := by
  cases i with
  | void d' n =>
    have hd : d' ≠ d := by simpa [Direction.isVoid] using h
    simp [pushOnto, hd]
  | _ => rfl

/-- A void after what is no void begins a run. -/
theorem addVoid_of_head (grow : Instruction → Instruction)
    (h : ∀ j ∈ code.head?, d.isVoid j = false) : addVoid grow d code = .void d 1 :: code := by
  rcases code with _ | ⟨i, rest⟩
  · rfl
  · rw [addVoid, h i (by simp)]
    rfl

/-- A void after a void makes its run longer. -/
theorem addVoid_void (f : Int → Int) (d : Direction) (n : Int) (rest : List Instruction) :
    addVoid (d.mapVoid f) d (.void d n :: rest) = .void d (f n) :: rest := by
  rw [addVoid, if_pos (isVoid_void d n), mapVoid_void]

/-- Code begins with a run of voids or it does not. -/
theorem head_cases (d : Direction) (code : List Instruction) :
    (∀ j ∈ code.head?, d.isVoid j = false) ∨ ∃ n rest, code = .void d n :: rest := by
  rcases code with _ | ⟨i, rest⟩
  · exact Or.inl (by simp)
  · by_cases hi : d.isVoid i = true
    · obtain ⟨n, rfl⟩ := isVoid_iff.1 hi
      exact Or.inr ⟨n, rest, rfl⟩
    · exact Or.inl (by simpa using hi)

theorem Counted.addVoid (h : Counted d code) : Counted d (addVoid d.lengthenVoid d code) := by
  rcases head_cases d code with hhead | ⟨n, rest, rfl⟩
  · rw [addVoid_of_head _ hhead]
    intro m hm
    rcases List.mem_cons.1 hm with hm | hm
    · obtain rfl : m = 1 := by simpa using hm
      omega
    · exact h m hm
  · rw [Direction.lengthenVoid, addVoid_void]
    intro m hm
    rcases List.mem_cons.1 hm with hm | hm
    · obtain rfl : m = n + 1 := by simpa using hm
      have := h n (by simp)
      omega
    · exact h m (List.mem_cons_of_mem _ hm)

theorem expand_addVoid (h : Counted d code) :
    expand d (addVoid d.lengthenVoid d code).reverse = expand d code.reverse ++ [.void d 1] := by
  rcases head_cases d code with hhead | ⟨n, rest, rfl⟩
  · rw [addVoid_of_head _ hhead, List.reverse_cons, expand_append]
    simp [expand, expandOne_void]
  · have hn : (n + 1).toNat = n.toNat + 1 := by
      have := h n (by simp)
      omega
    rw [Direction.lengthenVoid, addVoid_void, List.reverse_cons, List.reverse_cons, expand_append,
      expand_append, List.append_assoc]
    simp [expand, expandOne_void, hn, List.replicate_succ']

/-- Pushing an instruction succeeds and adds it at the end of what the code stands for. -/
theorem exists_pushOnto (hcode : Counted d code) (hi : ∀ n, i = .void d n → n = 1) :
    ∃ code', pushOnto d.lengthenVoid d code i = .ok code' ∧ Counted d code' ∧
      expand d code'.reverse = expand d code.reverse ++ [i] := by
  by_cases hv : d.isVoid i = true
  · obtain ⟨n, rfl⟩ := isVoid_iff.1 hv
    obtain rfl := hi n rfl
    exact ⟨addVoid d.lengthenVoid d code, by simp [pushOnto], hcode.addVoid, expand_addVoid hcode⟩
  · rw [Bool.not_eq_true] at hv
    refine ⟨i :: code, pushOnto_of_not_isVoid _ hv, ?_, ?_⟩
    · intro n hn
      rcases List.mem_cons.1 hn with rfl | hn
      · simp [Direction.isVoid] at hv
      · exact hcode n hn
    · rw [List.reverse_cons, expand_append]
      simp [expand, expandOne_of_not_isVoid hv]

theorem exists_pushAllOnto (hcode : Counted d code) (his : UnitVoids d is) :
    ∃ code', pushAllOnto d.lengthenVoid d code is = .ok code' ∧
      expand d code'.reverse = expand d code.reverse ++ is := by
  induction is generalizing code with
  | nil => exact ⟨code, rfl, by simp⟩
  | cons i is ih =>
    obtain ⟨hi, his⟩ := UnitVoids.cons_iff.1 his
    obtain ⟨code₁, hpush, hcode₁, hexp₁⟩ := exists_pushOnto hcode hi
    obtain ⟨code₂, hall, hexp₂⟩ := ih hcode₁ his
    refine ⟨code₂, ?_, ?_⟩
    · rw [pushAllOnto, hpush]
      exact hall
    · rw [hexp₂, hexp₁, List.append_assoc, List.singleton_append]

/-- Packing succeeds on code whose voids stand for single subterms, and can be undone. -/
theorem exists_pack (his : UnitVoids d is) :
    ∃ code, pack d is = .ok code ∧ expand d code = is := by
  have hnil : Counted d [] := by
    intro n hn
    simp at hn
  obtain ⟨code, hall, hexp⟩ := exists_pushAllOnto hnil his
  refine ⟨code.reverse, ?_, by simpa [expand] using hexp⟩
  rw [pack, hall]

/-! ### Runs of voids -/

/-- Each void of a direction stands for some subterm, and no two are next to each other. -/
structure Packed (d : Direction) (code : List Instruction) : Prop where
  one_le : ∀ n, Instruction.void d n ∈ code → 1 ≤ n
  apart : code.IsChain fun i j => ¬ (d.isVoid i = true ∧ d.isVoid j = true)

theorem Packed.nil (d : Direction) : Packed d [] := ⟨by simp, List.IsChain.nil⟩

theorem Packed.tail (h : Packed d (i :: code)) : Packed d code :=
  ⟨fun n hn => h.one_le n (List.mem_cons_of_mem _ hn), (List.isChain_cons.1 h.apart).2⟩

theorem Packed.cons (h : Packed d code) (hi : d.isVoid i = false) : Packed d (i :: code) := by
  refine ⟨fun n hn => ?_, h.apart.cons fun j _ => by simp [hi]⟩
  rcases List.mem_cons.1 hn with rfl | hn
  · simp [Direction.isVoid] at hi
  · exact h.one_le n hn

/-- A void may follow what is no void. -/
theorem Packed.cons_void {n : Int} (h : Packed d code) (hn : 1 ≤ n)
    (hhead : ∀ j ∈ code.head?, d.isVoid j = false) : Packed d (.void d n :: code) := by
  refine ⟨fun m hm => ?_, h.apart.cons fun j hj => by simp [hhead j hj]⟩
  rcases List.mem_cons.1 hm with hm | hm
  · obtain rfl : m = n := by simpa using hm
    exact hn
  · exact h.one_le m hm

/-- What follows a void is no void. -/
theorem Packed.head_of_void {n : Int} (h : Packed d (.void d n :: code)) :
    ∀ j ∈ code.head?, d.isVoid j = false := by
  intro j hj
  have hrel := (List.isChain_cons.1 h.apart).1 j hj
  simpa [isVoid_void] using hrel

theorem Packed.addVoid (h : Packed d code) : Packed d (addVoid d.lengthenVoid d code) := by
  rcases head_cases d code with hhead | ⟨n, rest, rfl⟩
  · rw [addVoid_of_head _ hhead]
    exact h.cons_void (Int.le_refl 1) hhead
  · have hn := h.one_le n (by simp)
    rw [Direction.lengthenVoid, addVoid_void]
    exact h.tail.cons_void (by omega) h.head_of_void

theorem Packed.pushOnto {code' : List Instruction} (h : Packed d code)
    (hpush : pushOnto d.lengthenVoid d code i = .ok code') : Packed d code' := by
  by_cases hi : d.isVoid i = true
  · obtain ⟨n, rfl⟩ := isVoid_iff.1 hi
    rw [Code.pushOnto, if_pos rfl] at hpush
    split at hpush
    · obtain rfl := Except.ok.inj hpush
      exact h.addVoid
    · simp at hpush
  · rw [Bool.not_eq_true] at hi
    rw [pushOnto_of_not_isVoid _ hi] at hpush
    obtain rfl := Except.ok.inj hpush
    exact h.cons hi

theorem Packed.pushAllOnto {code' : List Instruction} (h : Packed d code)
    (hpush : pushAllOnto d.lengthenVoid d code is = .ok code') : Packed d code' := by
  induction is generalizing code with
  | nil =>
    obtain rfl := Except.ok.inj hpush
    exact h
  | cons i is ih =>
    rw [Code.pushAllOnto] at hpush
    split at hpush
    next code₁ h₁ => exact ih (h.pushOnto h₁) hpush
    next => simp at hpush

/-- Packing leaves no two voids next to each other. -/
theorem Packed.of_pack (h : pack d is = .ok code) : Packed d code := by
  rw [pack] at h
  split at h
  next code₁ h₁ =>
    obtain rfl := Except.ok.inj h
    have hpacked := (Packed.nil d).pushAllOnto h₁
    refine ⟨fun n hn => hpacked.one_le n (List.mem_reverse.1 hn), ?_⟩
    rw [List.isChain_reverse]
    exact hpacked.apart.imp fun i j hij hji => hij ⟨hji.2, hji.1⟩
  next => simp at h

theorem expand_eq_self (h : UnitVoids d is) : expand d is = is := by
  induction is with
  | nil => rfl
  | cons i is ih =>
    obtain ⟨hi, his⟩ := UnitVoids.cons_iff.1 h
    have hone : expandOne d i = [i] := by
      by_cases hv : d.isVoid i = true
      · obtain ⟨n, rfl⟩ := isVoid_iff.1 hv
        obtain rfl := hi n rfl
        rw [expandOne_void]
        rfl
      · exact expandOne_of_not_isVoid (by simpa using hv)
    rw [expand_cons, hone, ih his, List.singleton_append]

theorem expand_eq_nil (hcode : ∀ n, Instruction.void d n ∈ code → 1 ≤ n)
    (h : expand d code = []) : code = [] := by
  rcases code with _ | ⟨i, rest⟩
  · rfl
  · have hnil := List.flatMap_eq_nil_iff.1 h i (by simp)
    by_cases hi : d.isVoid i = true
    · obtain ⟨n, rfl⟩ := isVoid_iff.1 hi
      have hn := hcode n (by simp)
      rw [expandOne_void, List.replicate_eq_nil_iff] at hnil
      omega
    · rw [expandOne_of_not_isVoid (by simpa using hi)] at hnil
      simp at hnil

/-- If expanded code begins with what is no void, then so does the code. -/
theorem exists_cons_of_expand (hcode : ∀ n, Instruction.void d n ∈ code → 1 ≤ n)
    (hi : d.isVoid i = false) (h : expand d code = i :: is) :
    ∃ rest, code = i :: rest ∧ expand d rest = is := by
  rcases code with _ | ⟨j, rest⟩
  · simp [expand] at h
  · rw [expand_cons] at h
    by_cases hj : d.isVoid j = true
    · obtain ⟨n, rfl⟩ := isVoid_iff.1 hj
      obtain ⟨m, hm⟩ : ∃ m, n.toNat = m + 1 :=
        ⟨n.toNat - 1, by have := hcode n (by simp); omega⟩
      rw [expandOne_void, hm, List.replicate_succ, List.cons_append] at h
      obtain ⟨rfl, -⟩ := List.cons.inj h
      simp [Direction.isVoid] at hi
    · rw [expandOne_of_not_isVoid (by simpa using hj), List.singleton_append] at h
      obtain ⟨rfl, hrest⟩ := List.cons.inj h
      exact ⟨rest, rfl, hrest⟩

/-- Expanded code can be cut in two before what is no void, and then so can the code. -/
theorem exists_append_of_expand (hjs : ∀ j ∈ js.head?, d.isVoid j = false)
    (h : expand d code = is ++ js) :
    ∃ before after, code = before ++ after ∧ expand d before = is ∧ expand d after = js := by
  induction code generalizing is with
  | nil =>
    obtain ⟨rfl, rfl⟩ := List.append_eq_nil_iff.1 h.symm
    exact ⟨[], [], rfl, rfl, rfl⟩
  | cons i rest ih =>
    rw [expand_cons] at h
    rcases List.append_eq_append_iff.1 h with ⟨is', rfl, hrest⟩ | ⟨cut, hone, hjs'⟩
    · obtain ⟨before, after, rfl, hbefore, hafter⟩ := ih hrest
      exact ⟨i :: before, after, rfl, by rw [← hbefore]; rfl, hafter⟩
    · by_cases hi : d.isVoid i = true
      -- A cut within a run of voids would leave a void after it.
      · obtain ⟨n, rfl⟩ := isVoid_iff.1 hi
        rw [expandOne_void] at hone
        rcases cut with _ | ⟨j, cut⟩
        · refine ⟨[.void d n], rest, rfl, ?_, by simpa using hjs'.symm⟩
          simpa [expand, expandOne_void] using hone
        · have hj : j = .void d 1 :=
            List.eq_of_mem_replicate (n := n.toNat) (by rw [hone]; simp)
          have hvoid := hjs j (by rw [hjs']; simp)
          rw [hj] at hvoid
          simp [Direction.isVoid] at hvoid
      · rw [expandOne_of_not_isVoid (by simpa using hi)] at hone
        rcases is with _ | ⟨i', is⟩
        · exact ⟨[], i :: rest, rfl, rfl, h⟩
        · obtain ⟨rfl, htail⟩ := List.cons.inj hone
          obtain ⟨rfl, rfl⟩ := List.append_eq_nil_iff.1 htail.symm
          refine ⟨[i], rest, rfl, ?_, by simpa using hjs'.symm⟩
          simp [expand, expandOne_of_not_isVoid (show d.isVoid i = false by simpa using hi)]

end ClauseCode.Code
