import ClauseCode.Proofs.Assignment
import ClauseCode.Proofs.Coverage
import ClauseCode.Proofs.Permanence

/-!
# The addresses of a clause

The books of head and goals together give those of a clause.  Its own registers and its stack
slots are each written by one instruction, before they are read, and no instruction mentions an
address outside the numbers of registers and slots that the clause states
(`Clause.addresses_introduced_once`).

The number of slots that are counted is the number of permanent variables: each slot has a variable
(`Housed`), each permanent variable is met, and no two live in the same slot.
-/

namespace ClauseCode

open Code (expand owned argsWritten)

namespace Draft

variable {w : ℕ} {head args : List Term} {dir : Direction} {k : ℕ} {d d' : Draft .standard}

/-! ### Slots and permanent variables -/

/-- Each slot that is counted has a variable. -/
def Housed (d : Draft .standard) : Prop :=
  ∀ i, 0 ≤ i → i < d.counters.slots → ∃ x, (x, .stack i) ∈ d.homes

theorem Housed.emit (h : Housed d) (i : Instruction) : Housed (d.emit i) := h

theorem Housed.temp (h : Housed d) : Housed d.temp.2 := h

theorem Housed.newVar (h : Housed d) (x : String) (arg : Option Int) :
    Housed (d.newVar x arg).2 := by
  have hhomes : (d.newVar x arg).2.homes = (x, (d.newVar x arg).1) :: d.homes := rfl
  intro i h0 hi
  by_cases hlt : i < d.counters.slots
  · obtain ⟨y, hy⟩ := h i h0 hlt
    exact ⟨y, hhomes ▸ List.mem_cons_of_mem _ hy⟩
  · -- Only a permanent variable makes for a new slot.
    by_cases hx : x ∈ d.counters.permanent
    · obtain ⟨ha, hc⟩ := newVar_permanent hx arg
      rw [hc] at hi
      obtain rfl : i = d.counters.slots := by
        dsimp only at hi
        omega
      exact ⟨x, by rw [hhomes, ha]; exact List.mem_cons_self⟩
    · have hc : (d.newVar x arg).2.counters.slots = d.counters.slots := by
        cases arg with
        | none => rw [(newVar_temporary hx).2]
        | some r => rw [(newVar_argument hx r).2]
      exact absurd (hc ▸ hi) hlt

theorem Housed.cleared (h : Housed d) (hL : Layout w head d) (hd : Cleared dir k d d') :
    Housed d' := by
  cases hd with
  | same | kept => exact h
  | @moved _ x hx =>
    intro i h0 hi
    obtain ⟨y, hy⟩ := h i h0 hi
    have hne : y ≠ x := by
      rintro rfl
      have := (home?_of_mem hL.nodup hx).symm.trans (home?_of_mem hL.nodup hy)
      simp at this
    exact ⟨y, List.mem_map.2 ⟨_, hy, by simp [hne]⟩⟩

/-- Every step keeps a variable in each slot. -/
theorem Step.housed {s s' : ℕ × Draft .standard} (hargs : Layout.Fits w head dir args)
    (h : Step dir args s s') (hL : Layout w head s.2) (hs : Housed s.2) : Housed s'.2 := by
  cases h with
  | blank | constant | known | attach | putAside | begin | resume | argSkip => exact hs
  | unknown => exact (hs.newVar _ _).emit _
  | argStay => exact hs.newVar _ _
  | argBlank _ _ hd => exact (hs.cleared hL hd).temp.emit _
  | argKnown _ _ _ hd => exact (hs.cleared hL hd).emit _
  | argUnknown hk _ h _ hd =>
    exact ((hs.newVar _ _).cleared (hL.newVar h (Layout.firstArg_cases hargs hk)).1 hd).emit _
  | argConstant _ hd => exact (hs.cleared hL hd).emit _
  | argNode _ hd => exact (hs.cleared hL hd).emit _

theorem Housed.compose (hargs : Layout.Fits w head dir args) (hL : Layout w head d)
    (h : Housed d) : Housed (d.compose dir args) :=
  ((steps_compose dir args d).preserves (I := fun s => Layout w head s.2 ∧ Housed s.2)
    (fun _ _ hstep hs => ⟨(Layout.step hargs hstep hs.1).1, hstep.housed hargs hs.1 hs.2⟩)
    ⟨hL.congr (Grows.refl _) rfl, h⟩).2

/-- Once all permanent variables are met, there are as many slots as permanent variables. -/
theorem Layout.slots_eq (hL : Layout w head d) (h : Housed d)
    (hmet : ∀ x ∈ d.counters.permanent, d.Met x) (hnodup : d.counters.permanent.Nodup) :
    d.counters.slots = d.counters.permanent.length := by
  have hslots : d.counters.permanent.map d.home? |>.Perm <|
      (List.range d.counters.slots.toNat).map fun i : ℕ => some (Address.stack i) := by
    refine (List.perm_ext_iff_of_nodup ?_ ?_).2 fun a => ?_
    · refine hnodup.map_on fun x hx y hy heq => ?_
      obtain ⟨a, ha⟩ := hmet x hx
      exact hL.injective x y a (mem_homes_of_home? ha) (mem_homes_of_home? (heq ▸ ha))
    · exact List.nodup_range.map fun i j hij => Int.ofNat_inj.1 (by simpa using hij)
    · rw [List.mem_map, List.mem_map]
      constructor
      · rintro ⟨x, hx, rfl⟩
        obtain ⟨a, ha⟩ := hmet x hx
        have hlives := hL.lives x a (mem_homes_of_home? ha)
        cases a with
        | reg r => exact absurd hx hlives.1
        | stack i =>
          refine ⟨i.toNat, List.mem_range.2 ?_, ?_⟩
          · have := hlives.2
            omega
          · rw [ha, Int.toNat_of_nonneg hlives.2.1]
      · rintro ⟨i, hi, rfl⟩
        rw [List.mem_range] at hi
        obtain ⟨x, hx⟩ := h i (Int.natCast_nonneg i) (by omega)
        exact ⟨x, (hL.lives x _ hx).1, home?_of_mem hL.nodup hx⟩
  have hlen := hslots.length_eq
  rw [List.length_map, List.length_map, List.length_range] at hlen
  have := hL.slots_nonneg
  omega

end Draft

/-! ### Packed code -/

namespace Code

variable {w : ℕ} {is : List Instruction}

/-- The instructions that mention an address. -/
def addressed (is : List Instruction) : List Instruction := is.filter fun i => i.mentions ≠ []

theorem addressed_append (is js : List Instruction) :
    addressed (is ++ js) = addressed is ++ addressed js :=
  List.filter_append ..

/-- Taking voids apart does not change the instructions that mention an address. -/
theorem addressed_expand (dir : Direction) (is : List Instruction) :
    addressed (expand dir is) = addressed is := by
  induction is with
  | nil => rfl
  | cons i is ih =>
    have hone : addressed (expandOne dir i) = addressed [i] := by
      by_cases hv : dir.isVoid i = true
      · obtain ⟨n, rfl⟩ := isVoid_iff.1 hv
        rw [expandOne_void]
        simp [addressed, Instruction.mentions]
      · rw [Bool.not_eq_true] at hv
        rw [expandOne_of_not_isVoid hv]
    rw [expand, List.flatMap_cons, addressed_append, ← expand, ih, hone, ← addressed_append]
    rfl

theorem writes_addressed (is : List Instruction) :
    (addressed is).flatMap Instruction.writes = is.flatMap Instruction.writes := by
  induction is with
  | nil => rfl
  | cons i is ih =>
    by_cases hi : i.mentions = []
    · have hw : i.writes = [] := List.eq_nil_iff_forall_not_mem.2 fun a ha => by
        have := Instruction.mem_mentions.2 (Or.inr ha)
        simp [hi] at this
      rw [addressed, List.filter_cons_of_neg (by simp [hi]), List.flatMap_cons, hw,
        List.nil_append, ← ih]
      rfl
    · rw [addressed, List.filter_cons_of_pos (by simp [hi]), List.flatMap_cons, List.flatMap_cons,
        ← ih]
      rfl

theorem owned_addressed (w : ℕ) (is : List Instruction) :
    owned w (addressed is) = owned w is := by
  rw [owned, writes_addressed, owned]

theorem argsWritten_expand (w : ℕ) (dir : Direction) (is : List Instruction) :
    argsWritten w (expand dir is) = argsWritten w is := by
  rw [argsWritten, ← writes_addressed, addressed_expand, writes_addressed, argsWritten]

variable {js pre post : List Instruction} {i : Instruction}

/-- An instruction that mentions an address is found in other code with the same ones. -/
theorem mem_of_addressed (heq : addressed js = addressed is) (hi : i ∈ js)
    (hmentions : i.mentions ≠ []) : i ∈ is := by
  have hmem : i ∈ addressed js := List.mem_filter.2 ⟨hi, by simpa using hmentions⟩
  rw [heq] at hmem
  exact (List.mem_filter.1 hmem).1

/-- The place of an instruction that mentions an address in other code with the same ones. -/
theorem split_addressed (heq : addressed (pre ++ i :: post) = addressed is)
    (hi : i.mentions ≠ []) :
    ∃ pre' post', is = pre' ++ i :: post' ∧ addressed pre' = addressed pre ∧
      addressed post' = addressed post := by
  rw [addressed_append, addressed, addressed, List.filter_cons_of_pos (by simpa using hi)] at heq
  obtain ⟨pre', rest, rfl, hpre, hrest⟩ := List.filter_eq_append_iff.1 heq.symm
  obtain ⟨quiet, post', rfl, hquiet, -, hpost⟩ := List.filter_eq_cons_iff.1 hrest
  refine ⟨pre' ++ quiet, post', by simp, ?_, hpost⟩
  rw [addressed_append, addressed, hpre, addressed, List.filter_eq_nil_iff.2 hquiet,
    List.append_nil]
  rfl

end Code

/-- Only the instructions that mention an address matter to the books. -/
theorem Draft.Books.congr {w : ℕ} {pending : List Address} {c : Policy.Counters}
    {is js : List Instruction} (h : Books w pending c is)
    (heq : Code.addressed js = Code.addressed is) : Books w pending c js := by
  have howned : owned w js = owned w is := by
    rw [← Code.owned_addressed, heq, Code.owned_addressed]
  have hmem : ∀ i ∈ js, ∀ a ∈ i.mentions, i ∈ is := fun i hi a ha =>
    Code.mem_of_addressed heq hi (List.ne_nil_of_mem ha)
  refine ⟨h.width_le, h.slots_nonneg, howned ▸ h.nodup, howned ▸ h.mem_iff, howned ▸ h.ordered,
    fun i hi a ha => ?_, fun i hi a ha => ?_, fun pre i post hsplit a ha hown => ?_⟩
  · exact h.introduced i (hmem i hi a (Instruction.mem_mentions.2 (Or.inr ha))) a ha
  · exact h.inRange i (hmem i hi a ha) a ha
  · rw [hsplit] at heq
    obtain ⟨pre', post', his, hpre, -⟩ := Code.split_addressed heq
      (List.ne_nil_of_mem (Instruction.mem_mentions.2 (Or.inl ha)))
    have hread := h.read pre' i post' his a ha hown
    rwa [← Code.owned_addressed, hpre, Code.owned_addressed] at hread

/-! ### Clauses -/

namespace Compound.Coded

variable {w : ℕ} {head : List Term} {cs : List Compound} {gs : List CompiledGoal}

/-- What the code of each goal keeps is kept by the code of all. -/
theorem preserves {P : Policy} {d d' : Draft P} {I : Draft P → Prop} (h : Coded d cs gs d')
    (hstep : ∀ d, ∀ c ∈ cs, I d → I (d.compose .build c.args)) (hd : I d) : I d' := by
  induction h with
  | nil => exact hd
  | cons _ _ ih =>
    exact ih (fun d c hc => hstep d c (List.mem_cons_of_mem _ hc)) (hstep _ _ (by simp) hd)

/-- Each variable of a goal has an address in the end. -/
theorem met {P : Policy} {d d' : Draft P} (h : Coded d cs gs d') {g : Compound} (hg : g ∈ cs)
    {x : String} (hx : g.Has x) (hne : x ≠ Term.anonymous) : d'.Met x := by
  induction h with
  | nil => simp at hg
  | cons _ hrest ih =>
    rcases List.mem_cons.1 hg with rfl | hg
    · obtain ⟨t, ht, hxt⟩ := hx
      refine hrest.preserves (I := fun d => d.Met x) (fun d c _ hd => ?_)
        (Draft.covers_compose .build _ ht x hxt hne)
      exact (Draft.steps_compose .build c.args d).met hd
    · exact ih hg

/-- The code of goals keeps the books, and each goal writes its argument registers in order. -/
theorem books {d d' : Draft .standard} (h : Coded d cs gs d')
    (hfits : ∀ c ∈ cs, Draft.Layout.Fits w head .build c.args) (hL : Draft.Layout w head d)
    {prior : List Instruction} (hB : Draft.Books w [] d.counters prior) :
    Draft.Books w [] d'.counters (prior ++ gs.flatMap fun g => expand .build g.code) ∧
      ∀ g ∈ gs, (argsWritten w g.code).Pairwise (· < ·) ∧
        ∀ j ∈ argsWritten w g.code, 0 ≤ j ∧ j < g.arity := by
  induction h generalizing prior with
  | nil d => exact ⟨by simpa using hB, by simp⟩
  | cons hpack _ ih =>
    have hexpand := Draft.expand_of_pack hpack
    have hfit := hfits _ List.mem_cons_self
    obtain ⟨hB', hargs⟩ := hB.compose hfit hL
    rw [← hexpand] at hB'
    obtain ⟨hrest, hgs⟩ :=
      ih (fun c hc => hfits c (List.mem_cons_of_mem _ hc)) (hL.compose hfit).1 hB'
    refine ⟨by simpa using hrest, List.forall_mem_cons.2 ⟨?_, hgs⟩⟩
    have horder := hargs.ordered
    have hlt := hargs.lt
    rw [← hexpand, Code.argsWritten_expand] at horder hlt
    exact ⟨horder, hlt⟩

end Compound.Coded

/-- The code of a clause, head first. -/
def CompiledClause.code (k : CompiledClause) : List Instruction :=
  k.head ++ k.goals.flatMap CompiledGoal.code

/-- Whether an address is within the numbers of registers and slots of a clause. -/
def CompiledClause.Has (k : CompiledClause) : Address → Prop
  | .reg r => 0 ≤ r ∧ r < k.registers
  | .stack i => 0 ≤ i ∧ i < k.permanent

/-- One instruction introduces an address; no other writes it, and none reads it before. -/
def Code.IntroducedOnce (is : List Instruction) (a : Address) : Prop :=
  ∃ pre i post, is = pre ++ i :: post ∧ i.introduces = some a ∧ a ∈ i.writes ∧
    (∀ j ∈ pre ++ post, a ∉ j.writes) ∧ ∀ j ∈ pre ++ [i], a ∉ j.reads

/-- An own address is not mentioned before the instruction that writes it, nor read by it, and not
written after it. -/
theorem Draft.Books.fresh {w : ℕ} {c : Policy.Counters} {pre post : List Instruction}
    {i : Instruction} {a : Address} (h : Books w [] c (pre ++ i :: post)) (hown : a.Own w)
    (hai : a ∈ i.writes) :
    (∀ j ∈ pre, a ∉ j.mentions) ∧ a ∉ i.reads ∧ ∀ j ∈ post, a ∉ j.writes := by
  have hnodup := h.nodup
  rw [List.append_nil, Code.owned_append, ← List.singleton_append, Code.owned_append,
    List.nodup_append, List.nodup_append] at hnodup
  obtain ⟨-, ⟨-, -, hpost⟩, hpre⟩ := hnodup
  have hia : a ∈ owned w [i] := Code.mem_owned.2 ⟨hown, i, by simp, hai⟩
  have hnotpre : a ∉ owned w pre := fun hp => hpre a hp a (List.mem_append_left _ hia) rfl
  refine ⟨fun j hj haj => hnotpre ?_, fun hread => hnotpre (h.read pre i post rfl a hread hown),
    fun j hj haj => hpost a hia a (Code.mem_owned.2 ⟨hown, j, hj, haj⟩) rfl⟩
  rcases Instruction.mem_mentions.1 haj with hread | hwrite
  · -- What reads the address so early comes after an instruction that writes it.
    obtain ⟨pre₁, pre₂, rfl⟩ := List.append_of_mem hj
    have hread' := h.read pre₁ j (pre₂ ++ i :: post) (by simp) a hread hown
    rw [Code.owned_append]
    exact List.mem_append_left _ hread'
  · exact Code.mem_owned.2 ⟨hown, j, hj, hwrite⟩

/-- An address in the books is introduced once. -/
theorem Draft.Books.introducedOnce {w : ℕ} {c : Policy.Counters} {is : List Instruction}
    {a : Address} (h : Books w [] c is) (hown : a.Own w) (ha : Allocated c a) :
    Code.IntroducedOnce is a := by
  have hmem := (h.mem_iff a).2 ⟨hown, ha⟩
  rw [List.append_nil] at hmem
  obtain ⟨-, i, hi, hai⟩ := Code.mem_owned.1 hmem
  obtain ⟨pre, post, rfl⟩ := List.append_of_mem hi
  obtain ⟨hpre, hreads, hpost⟩ := h.fresh hown hai
  refine ⟨pre, i, post, rfl, h.introduced i hi a hai hown, hai, fun j hj haj => ?_,
    fun j hj haj => ?_⟩
  · rcases List.mem_append.1 hj with hj | hj
    · exact hpre j hj (Instruction.mem_mentions.2 (Or.inr haj))
    · exact hpost j hj haj
  · rcases List.mem_append.1 hj with hj | hj
    · exact hpre j hj (Instruction.mem_mentions.2 (Or.inl haj))
    · obtain rfl := List.mem_singleton.1 hj
      exact hreads haj

namespace NormalClause.Codes

variable {n : NormalClause} {k : CompiledClause} {d : Draft .standard}

/-- There are as many slots as permanent variables. -/
theorem slots (h : n.Codes .standard k d) : d.counters.slots = k.permanent := by
  obtain ⟨hL, hgrows⟩ := n.layout_afterHead
  -- Each slot belongs to a permanent variable, and each permanent variable has a slot.
  have hhoused : Draft.Housed (n.afterHead .standard) :=
    Draft.Housed.compose n.fits_head (Draft.Layout.start ..) fun i h0 hi =>
      absurd hi (Int.not_lt.2 h0)
  obtain ⟨hL', hhoused', hperm⟩ := h.goals.preserves
    (I := fun d => Draft.Layout n.width n.head.args d ∧ d.Housed ∧
      d.counters.permanent = n.permanent)
    (fun d c hc ⟨hL, hH, hp⟩ => ⟨(hL.compose (fits_goal hc)).1, hH.compose (fits_goal hc) hL,
      (hL.compose (fits_goal hc)).2.permanent.trans hp⟩)
    ⟨hL, hhoused, hgrows.permanent⟩
  rw [hL'.slots_eq hhoused' (fun x hx => ?_) (hperm ▸ n.nodup_permanent), hperm, h.permanent]
  obtain ⟨hne, g, hg, hgx⟩ := exists_goal_of_mem_permanent (hperm ▸ hx)
  exact h.goals.met hg hgx hne

/-- The books of a clause. -/
theorem books (h : n.Codes .standard k d) :
    Draft.Books n.width [] d.counters k.code ∧ argsWritten n.width k.head = [] ∧
      ∀ g ∈ k.goals, (argsWritten n.width g.code).Pairwise (· < ·) ∧
        ∀ j ∈ argsWritten n.width g.code, 0 ≤ j ∧ j < g.arity := by
  obtain ⟨hB, hargs⟩ := (Draft.Books.start n.width n.permanent).compose n.fits_head
    (Draft.Layout.start n.width n.head.args n.permanent)
  change Draft.Books _ _ (n.afterHead .standard).counters
    ([] ++ (n.afterHead .standard).emitted.reverse) at hB
  have hcheck := hargs.check rfl
  change argsWritten _ (n.afterHead .standard).emitted.reverse = [] at hcheck
  rw [← h.expand_head, Code.argsWritten_expand] at hcheck
  rw [List.nil_append, ← h.expand_head] at hB
  obtain ⟨hB', hgoals⟩ := h.goals.books (fun g hg => fits_goal hg) n.layout_afterHead.1 hB
  -- Packing only concerns voids, which mention no address.
  refine ⟨hB'.congr ?_, hcheck, hgoals⟩
  rw [CompiledClause.code, Code.addressed_append, Code.addressed_append, Code.addressed_expand]
  congr 1
  induction k.goals with
  | nil => rfl
  | cons g gs ih =>
    rw [List.flatMap_cons, List.flatMap_cons, Code.addressed_append, Code.addressed_append,
      Code.addressed_expand, ih]

/-- The numbers that a clause states are those of the counters. -/
theorem has_iff (h : n.Codes .standard k d) (a : Address) :
    k.Has a ↔ Draft.InRange d.counters a := by
  cases a with
  | reg r =>
    show 0 ≤ r ∧ r < k.registers ↔ 0 ≤ r ∧ r < d.counters.top
    rw [h.registers]
    rfl
  | stack i =>
    show 0 ≤ i ∧ i < (k.permanent : Int) ↔ 0 ≤ i ∧ i < d.counters.slots
    rw [h.slots]

end NormalClause.Codes

/-- Apart from the argument registers, as many as the widest head or goal has arguments, each
register and each slot of a clause is introduced by one instruction, before it is read.  No
instruction mentions another address.  Slots are written in order.  The head writes no argument
register, and each goal writes only those of its arguments, in order. -/
theorem Clause.addresses_introduced_once {c : Clause} {n : NormalClause}
    (hn : c.normalize = .ok n) :
    ∃ k, c.compile = .ok k ∧
      (∀ a, k.Has a → a.Own n.width → Code.IntroducedOnce k.code a) ∧
      (∀ i ∈ k.code, ∀ a ∈ i.mentions, k.Has a) ∧
      ((k.code.flatMap Instruction.writes).filterMap Address.slot?).Pairwise (· < ·) ∧
      (∀ i ∈ k.head, ∀ r : Int, .reg r ∈ i.writes → n.width ≤ r) ∧
      ∀ g ∈ k.goals, (argsWritten n.width g.code).Pairwise (· < ·) ∧
        ∀ j ∈ argsWritten n.width g.code, 0 ≤ j ∧ j < g.arity := by
  obtain ⟨k, -, d, -, -, hcompile, hcodes⟩ := Clause.exists_compile hn
  obtain ⟨hB, hhead, hgoals⟩ := hcodes.books
  refine ⟨k, hcompile, fun a ha hown => ?_, fun i hi a ha => ?_, ?_, fun i hi r hr => ?_, hgoals⟩
  · refine hB.introducedOnce hown ?_
    cases a with
    | reg r => exact ((hcodes.has_iff _).1 ha).2
    | stack i => exact ((hcodes.has_iff _).1 ha).2
  · exact (hcodes.has_iff a).2 (hB.inRange i hi a ha)
  · have hslots : (k.code.flatMap Instruction.writes).filterMap Address.slot? =
        (owned n.width k.code).filterMap Address.slot? := by
      rw [owned, List.filterMap_filter]
      refine List.filterMap_congr fun a ha => ?_
      obtain ⟨i, hi, hai⟩ := List.mem_flatMap.1 ha
      cases a with
      | reg r => simp [Address.slot?]
      | stack j =>
        have hj := hB.inRange i hi _ (Instruction.mem_mentions.2 (Or.inr hai))
        exact (if_pos (decide_eq_true hj.1)).symm
    have hordered := hB.ordered
    rwa [List.append_nil, ← hslots] at hordered
  · by_contra hlt
    have hmem : r ∈ argsWritten n.width k.head :=
      List.mem_filterMap.2 ⟨.reg r, List.mem_flatMap.2 ⟨i, hi, hr⟩, if_pos (Int.not_le.1 hlt)⟩
    simp [hhead] at hmem

/-- In the code of `path(X, [X|Z]) :- edge(X, Y, _), path(Y, Z)`, which has three argument
registers, the other register and both slots are introduced once. -/
theorem introducedOnce_path : pathClause.normalize = .ok pathNormal ∧
    ∃ k, pathClause.compile = .ok k ∧ Code.IntroducedOnce k.code (.reg 3) ∧
      Code.IntroducedOnce k.code (.stack 0) ∧ Code.IntroducedOnce k.code (.stack 1) := by
  refine ⟨rfl, ?_⟩
  obtain ⟨k, hk, honce, -⟩ :=
    Clause.addresses_introduced_once (n := pathNormal) (c := pathClause) rfl
  have hregs : pathClause.compile.toOption.map CompiledClause.registers = some 4 := rfl
  have hslots : pathClause.compile.toOption.map CompiledClause.permanent = some 2 := rfl
  rw [hk] at hregs hslots
  have hregs' : k.registers = 4 := Option.some.inj hregs
  have hslots' : k.permanent = 2 := Option.some.inj hslots
  refine ⟨k, hk, honce _ ?_ (by decide), honce _ ?_ (by decide), honce _ ?_ (by decide)⟩
  · exact ⟨by decide, by rw [hregs']; decide⟩
  · exact ⟨by decide, by rw [hslots']; decide⟩
  · exact ⟨by decide, by rw [hslots']; decide⟩

end ClauseCode
