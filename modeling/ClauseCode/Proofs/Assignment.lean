import ClauseCode.Proofs.Layout

/-!
# Addresses are assigned once

The first registers hold arguments.  All other registers and the stack slots are the code's own:
each is counted by the standard policy when it is given out, and then written by one instruction
before any reads it.  `Books` says this of the code that is written so far, with the addresses that
are counted and not yet written; `Books.compose` says that the code of a head or a goal keeps it.

The argument registers are written by goals only, one after another (`ArgsWritten`).
-/

namespace ClauseCode

namespace Address

/-- Whether an address is a stack slot or a register after `w` argument registers. -/
def Own (w : ℕ) : Address → Prop
  | reg r => w ≤ r
  | stack i => 0 ≤ i

instance (w : ℕ) : DecidablePred (Own w)
  | reg r => inferInstanceAs (Decidable ((w : Int) ≤ r))
  | stack i => inferInstanceAs (Decidable (0 ≤ i))

/-- The index of a stack slot. -/
def slot? : Address → Option Int
  | reg _ => none
  | stack i => some i

/-- The index of one of `w` argument registers. -/
def argument? (w : ℕ) : Address → Option Int
  | reg r => if r < w then some r else none
  | stack _ => none

theorem Own.argument? {w : ℕ} {a : Address} (h : a.Own w) : a.argument? w = none := by
  cases a with
  | reg r => exact if_neg (Int.not_lt.2 h)
  | stack i => rfl

end Address

namespace Instruction

/-- The address that an instruction is the first to fill. -/
def introduces : Instruction → Option Address
  | argVariable _ a _ => some a
  | subVariable _ a => some a
  | struct .build _ _ a => some a
  | list .build _ a => some a
  | _ => none

theorem mem_mentions {i : Instruction} {a : Address} :
    a ∈ i.mentions ↔ a ∈ i.reads ∨ a ∈ i.writes := by
  cases i with
  | constant dir | list dir | struct dir | argVariable dir | argValue dir =>
    cases dir <;> simp [mentions, reads, writes, or_comm]
  | subConstant | subVariable | subValue | void => simp [mentions, reads, writes]

end Instruction

@[simp] theorem Kind.introduces_opener (k : Kind) (level : Level) (n : ℕ) (a : Address) :
    (k.opener .build level n a).introduces = some a := by
  cases k <;> rfl

namespace Code

variable {w : ℕ} {is js : List Instruction}

/-- The addresses of its own that code writes, in order. -/
def owned (w : ℕ) (is : List Instruction) : List Address :=
  (is.flatMap Instruction.writes).filter fun a => a.Own w

/-- The argument registers that code writes, in order. -/
def argsWritten (w : ℕ) (is : List Instruction) : List Int :=
  (is.flatMap Instruction.writes).filterMap (Address.argument? w)

@[simp] theorem argsWritten_nil : argsWritten w [] = [] := rfl

/-- An instruction in code is the last one, or one before it. -/
theorem split_concat {pre post : List Instruction} {i j : Instruction}
    (h : is ++ [i] = pre ++ j :: post) :
    (is = pre ∧ i = j) ∨ ∃ post', is = pre ++ j :: post' := by
  rcases List.eq_nil_or_concat post with rfl | ⟨post', last, rfl⟩
  · obtain ⟨rfl, hij⟩ := List.append_inj' h rfl
    exact Or.inl ⟨rfl, List.singleton_inj.1 hij⟩
  · rw [List.concat_eq_append, ← List.cons_append, ← List.append_assoc] at h
    obtain ⟨rfl, -⟩ := List.append_inj' h rfl
    exact Or.inr ⟨post', rfl⟩

theorem owned_append : owned w (is ++ js) = owned w is ++ owned w js := by
  rw [owned, List.flatMap_append, List.filter_append]
  rfl

theorem argsWritten_append :
    argsWritten w (is ++ js) = argsWritten w is ++ argsWritten w js := by
  rw [argsWritten, List.flatMap_append, List.filterMap_append]
  rfl

theorem mem_owned {a : Address} : a ∈ owned w is ↔ a.Own w ∧ ∃ i ∈ is, a ∈ i.writes := by
  simp [owned, and_comm]

end Code

namespace Draft

open Code (owned argsWritten)

variable {w : ℕ} {head args : List Term} {dir : Direction} {k : ℕ} {pending : List Address}
  {c c' : Policy.Counters} {is : List Instruction} {i : Instruction} {a : Address}
  {d d' : Draft .standard} {x : String}

/-- Whether the index of an address is in the range of the counters. -/
def InRange (c : Policy.Counters) : Address → Prop
  | .reg r => 0 ≤ r ∧ r < c.top
  | .stack i => 0 ≤ i ∧ i < c.slots

theorem InRange.mono (ha : InRange c a) (hg : Grows c c') : InRange c' a := by
  cases a with
  | reg r => exact ⟨ha.1, Int.lt_of_lt_of_le ha.2 hg.top⟩
  | stack i => exact ⟨ha.1, Int.lt_of_lt_of_le ha.2 hg.slots⟩

theorem inRange_of_own (hown : a.Own w) (ha : Allocated c a) : InRange c a := by
  cases a with
  | reg r => exact ⟨Int.le_trans (Int.natCast_nonneg w) hown, ha⟩
  | stack i => exact ⟨hown, ha⟩

/-- An address that may be read after some code. -/
structure Readable (w : ℕ) (c : Policy.Counters) (is : List Instruction) (a : Address) : Prop where
  inRange : InRange c a
  owned : a.Own w → a ∈ Code.owned w is

theorem Readable.mono (h : Readable w c is a) (hg : Grows c c') (js : List Instruction) :
    Readable w c' (is ++ js) a where
  inRange := h.inRange.mono hg
  owned hown := by
    rw [Code.owned_append]
    exact List.mem_append_left _ (h.owned hown)

/-- What is known about code, the counters of the policy after it, and the addresses that are
counted and not yet written. -/
structure Books (w : ℕ) (pending : List Address) (c : Policy.Counters) (is : List Instruction) :
    Prop where
  width_le : w ≤ c.top
  slots_nonneg : 0 ≤ c.slots
  /-- No address is written twice. -/
  nodup : (owned w is ++ pending).Nodup
  /-- What is counted is written or pending. -/
  mem_iff : ∀ a, a ∈ owned w is ++ pending ↔ a.Own w ∧ Allocated c a
  /-- Stack slots are written in order. -/
  ordered : ((owned w is ++ pending).filterMap Address.slot?).Pairwise (· < ·)
  /-- An own address is written only by an instruction that introduces it. -/
  introduced : ∀ i ∈ is, ∀ a ∈ i.writes, a.Own w → i.introduces = some a
  /-- All indices are in range. -/
  inRange : ∀ i ∈ is, ∀ a ∈ i.mentions, InRange c a
  /-- What is read was written before. -/
  read : ∀ pre i post, is = pre ++ i :: post → ∀ a ∈ i.reads, a.Own w → a ∈ owned w pre

namespace Books

theorem start (w : ℕ) (permanent : List String) :
    Books w [] (Draft.start .standard w permanent).counters [] where
  width_le := Int.le_refl _
  slots_nonneg := Int.le_refl _
  nodup := List.nodup_nil
  mem_iff a := by
    refine ⟨fun h => by simp [owned] at h, fun ⟨hown, ha⟩ => ?_⟩
    cases a with
    | reg r => exact absurd ha (Int.not_lt.2 hown)
    | stack i => exact absurd ha (Int.not_lt.2 hown)
  ordered := List.Pairwise.nil
  introduced := by simp
  inRange := by simp
  read := by simp

/-- A new address is counted. -/
theorem count (h : Books w pending c is) (hg : Grows c c') (hown : a.Own w)
    (hiff : ∀ b, Allocated c' b ↔ b = a ∨ Allocated c b) (hnew : ¬ Allocated c a)
    (hslot : ∀ i, a = .stack i → pending = []) : Books w (a :: pending) c' is where
  width_le := Int.le_trans h.width_le hg.top
  slots_nonneg := Int.le_trans h.slots_nonneg hg.slots
  nodup := by
    rw [List.nodup_middle, List.nodup_cons]
    exact ⟨fun hmem => hnew ((h.mem_iff a).1 hmem).2, h.nodup⟩
  mem_iff b := by
    have hb := h.mem_iff b
    rw [List.mem_append] at hb
    rw [List.mem_append, List.mem_cons, hiff b, or_left_comm, hb]
    constructor
    · rintro (rfl | hb)
      · exact ⟨hown, Or.inl rfl⟩
      · exact ⟨hb.1, Or.inr hb.2⟩
    · rintro ⟨hb, rfl | hc⟩
      · exact Or.inl rfl
      · exact Or.inr ⟨hb, hc⟩
  ordered := by
    have hold := h.ordered
    cases a with
    | reg r =>
      rwa [List.filterMap_append, List.filterMap_cons_none rfl, ← List.filterMap_append]
    | stack i =>
      obtain rfl := hslot i rfl
      rw [List.append_nil] at hold
      rw [List.filterMap_append, List.pairwise_append]
      refine ⟨hold, List.pairwise_singleton _ _, fun j hj j' hj' => ?_⟩
      obtain rfl : j' = i := by simpa [Address.slot?] using hj'
      -- Earlier slots were counted, so they are below the counter.
      obtain ⟨b, hb, hbj⟩ := List.mem_filterMap.1 hj
      cases b with
      | reg r => simp [Address.slot?] at hbj
      | stack m =>
        obtain rfl : m = j := by simpa [Address.slot?] using hbj
        have hlt := ((h.mem_iff (.stack m)).1 (by simpa using hb)).2
        exact Int.lt_of_lt_of_le hlt (Int.not_lt.1 hnew)
  introduced := h.introduced
  inRange i hi b hb := (h.inRange i hi b hb).mono hg
  read := h.read

/-- An instruction writes pending addresses, and perhaps argument registers. -/
theorem emit {new old : List Address} (h : Books w (new ++ pending) c is)
    (hw : i.writes = new ++ old) (hnew : ∀ a ∈ new, i.introduces = some a)
    (hold : ∀ a ∈ old, ¬ a.Own w ∧ InRange c a) (hreads : ∀ a ∈ i.reads, Readable w c is a) :
    Books w pending c (is ++ [i]) := by
  have hcounted : ∀ a ∈ new, a.Own w ∧ Allocated c a := fun a ha =>
    (h.mem_iff a).1 (by simp [ha])
  have howned : owned w (is ++ [i]) ++ pending = owned w is ++ (new ++ pending) := by
    have hone : owned w [i] = new := by
      rw [owned, List.flatMap_singleton, hw, List.filter_append, List.filter_eq_self.2,
        List.filter_eq_nil_iff.2, List.append_nil]
      · simpa using fun a ha => (hold a ha).1
      · simpa using fun a ha => (hcounted a ha).1
    rw [Code.owned_append, hone, List.append_assoc]
  refine ⟨h.width_le, h.slots_nonneg, howned ▸ h.nodup, howned ▸ h.mem_iff, howned ▸ h.ordered,
    fun j hj a ha hown => ?_, fun j hj a ha => ?_, fun pre j post heq a ha hown => ?_⟩
  · rcases List.mem_append.1 hj with hj | hj
    · exact h.introduced j hj a ha hown
    · obtain rfl := List.mem_singleton.1 hj
      rw [hw, List.mem_append] at ha
      rcases ha with ha | ha
      · exact hnew a ha
      · exact absurd hown (hold a ha).1
  · rcases List.mem_append.1 hj with hj | hj
    · exact h.inRange j hj a ha
    · obtain rfl := List.mem_singleton.1 hj
      rw [Instruction.mem_mentions, hw, List.mem_append] at ha
      rcases ha with ha | ha | ha
      · exact (hreads a ha).inRange
      · exact inRange_of_own (hcounted a ha).1 (hcounted a ha).2
      · exact (hold a ha).2
  · rcases Code.split_concat heq with ⟨rfl, rfl⟩ | ⟨post', his⟩
    · exact (hreads a ha).owned hown
    · exact h.read pre j post' his a ha hown

theorem readable_written (h : Books w pending c is) (ha : ∃ i ∈ is, a ∈ i.writes) :
    Readable w c is a := by
  obtain ⟨i, hi, hai⟩ := ha
  exact ⟨h.inRange i hi a (Instruction.mem_mentions.2 (Or.inr hai)),
    fun hown => Code.mem_owned.2 ⟨hown, i, hi, hai⟩⟩

theorem not_own_arg (hk : k < w) : ¬ (Address.reg k).Own w := by
  show ¬ (w : Int) ≤ k
  omega

theorem inRange_arg (h : Books w pending c is) (hk : k < w) : InRange c (.reg k) := by
  have := h.width_le
  exact ⟨Int.natCast_nonneg k, by omega⟩

theorem readable_arg (h : Books w pending c is) (hk : k < w) : Readable w c is (.reg k) :=
  ⟨h.inRange_arg hk, fun hown => absurd hown (not_own_arg hk)⟩

/-- The address of a variable may be read, unless it is pending. -/
theorem readable_home (h : Books w [] d.counters is) (hL : Layout w head d)
    (hx : d.home? x = some a) : Readable w d.counters is a := by
  have hlives := hL.lives x a (mem_homes_of_home? hx)
  have hmem : a.Own w → a ∈ owned w is := fun hown => by
    simpa using (h.mem_iff a).2 ⟨hown, hL.allocated (mem_homes_of_home? hx)⟩
  cases a with
  | reg r =>
    rcases hlives.2 with ⟨k, rfl, hk, -⟩ | ⟨hw, hlt⟩
    · exact h.readable_arg hk
    · exact ⟨inRange_of_own hw hlt, hmem⟩
  | stack i => exact ⟨hlives.2, hmem⟩

end Books

/-- The books of a draft, after the code of other goals. -/
def Booked (w : ℕ) (prior : List Instruction) (pending : List Address) (d : Draft .standard) :
    Prop :=
  Books w pending d.counters (prior ++ d.emitted.reverse)

namespace Booked

variable {prior : List Instruction}

theorem emit (new old : List Address) (h : Booked w prior (new ++ pending) d)
    (hw : i.writes = new ++ old) (hnew : ∀ a ∈ new, i.introduces = some a)
    (hold : ∀ a ∈ old, ¬ a.Own w ∧ InRange d.counters a)
    (hreads : ∀ a ∈ i.reads, Readable w d.counters (prior ++ d.emitted.reverse) a) :
    Booked w prior pending (d.emit i) := by
  have h' := Books.emit h hw hnew hold hreads
  rwa [List.append_assoc, ← List.reverse_cons] at h'

/-- An instruction that only reads. -/
theorem emitRead (h : Booked w prior pending d) (hw : i.writes = [])
    (hreads : ∀ a ∈ i.reads, Readable w d.counters (prior ++ d.emitted.reverse) a) :
    Booked w prior pending (d.emit i) :=
  emit [] [] h hw (by simp) (by simp) hreads

/-- An instruction that writes a pending address. -/
theorem emitNew (h : Booked w prior (a :: pending) d) (hw : i.writes = [a])
    (hnew : i.introduces = some a)
    (hreads : ∀ a ∈ i.reads, Readable w d.counters (prior ++ d.emitted.reverse) a) :
    Booked w prior pending (d.emit i) :=
  emit [a] [] h hw (by simpa using hnew) (by simp) hreads

/-- An instruction that writes argument register `k`. -/
theorem emitArg (h : Booked w prior pending d) (hk : k < w) (hw : i.writes = [.reg k])
    (hreads : ∀ a ∈ i.reads, Readable w d.counters (prior ++ d.emitted.reverse) a) :
    Booked w prior pending (d.emit i) := by
  refine emit [] [.reg k] h hw (by simp) ?_ hreads
  simpa using ⟨Books.not_own_arg hk, Books.inRange_arg h hk⟩

/-- An instruction that writes a pending address and argument register `k`. -/
theorem emitBoth (h : Booked w prior (a :: pending) d) (hk : k < w)
    (hw : i.writes = [a, .reg k]) (hnew : i.introduces = some a) (hreads : i.reads = []) :
    Booked w prior pending (d.emit i) := by
  refine emit [a] [.reg k] h hw (by simpa using hnew) ?_ (by simp [hreads])
  simpa using ⟨Books.not_own_arg hk, Books.inRange_arg h hk⟩

theorem temp (h : Booked w prior pending d) :
    Booked w prior (.reg d.temp.1 :: pending) d.temp.2 := by
  refine Books.count h ⟨?_, Int.le_refl _, rfl⟩ h.width_le (fun b => ?_) (Int.lt_irrefl _) (by simp)
  · rw [counters_temp]
    dsimp only
    omega
  · cases b with
    | reg r =>
      show r < d.counters.top + 1 ↔ Address.reg r = .reg d.counters.top ∨ r < d.counters.top
      rw [Address.reg.injEq]
      omega
    | stack i => exact ⟨Or.inr, fun h => h.resolve_left (by simp)⟩

/-- A new variable gets the register of its argument, or an address that is counted. -/
theorem newVar (h : Booked w prior [] d) (x : String) (arg : Option Int) :
    (∃ r, arg = some r ∧ (d.newVar x arg).1 = .reg r ∧ Booked w prior [] (d.newVar x arg).2) ∨
      ((d.newVar x arg).1.Own w ∧
        Booked w prior [(d.newVar x arg).1] (d.newVar x arg).2) := by
  by_cases hx : x ∈ d.counters.permanent
  · obtain ⟨ha, hc⟩ := newVar_permanent hx arg
    have hgrows : Grows d.counters (d.newVar x arg).2.counters := by
      rw [hc]
      exact ⟨Int.le_refl _, by dsimp only; omega, rfl⟩
    rw [ha]
    refine Or.inr ⟨h.slots_nonneg, Books.count h hgrows h.slots_nonneg (fun b => ?_)
      (Int.lt_irrefl _) (by simp)⟩
    rw [hc]
    cases b with
    | reg r => exact ⟨Or.inr, fun h => h.resolve_left (by simp)⟩
    | stack i =>
      show i < d.counters.slots + 1 ↔
        Address.stack i = .stack d.counters.slots ∨ i < d.counters.slots
      rw [Address.stack.injEq]
      omega
  · cases arg with
    | some r =>
      obtain ⟨ha, hc⟩ := newVar_argument hx r
      refine Or.inl ⟨r, rfl, ha, ?_⟩
      unfold Booked
      rw [hc]
      exact h
    | none =>
      obtain ⟨ha, hc⟩ := newVar_temporary hx
      have htemp := h.temp
      refine Or.inr ⟨ha ▸ h.width_le, ?_⟩
      unfold Booked
      rw [ha, hc]
      exact htemp

theorem temp_own (h : Booked w prior pending d) : (Address.reg d.temp.1).Own w := h.width_le

theorem newChild (h : Booked w prior [] d) (x : String) :
    (d.newVar x none).1.Own w ∧ Booked w prior [(d.newVar x none).1] (d.newVar x none).2 :=
  (h.newVar x none).resolve_left (by simp)

theorem newArg (h : Booked w prior [] d) (ha : (d.newVar x (firstArg dir k)).1 ≠ .reg k) :
    (d.newVar x (firstArg dir k)).1.Own w ∧
      Booked w prior [(d.newVar x (firstArg dir k)).1] (d.newVar x (firstArg dir k)).2 := by
  refine (h.newVar x (firstArg dir k)).resolve_left fun ⟨r, hr, hreg, _⟩ => ?_
  cases dir with
  | check => exact ha (Option.some.inj hr ▸ hreg)
  | build => simp [firstArg] at hr

/-- A variable is moved away to an address that is counted and written at once. -/
theorem cleared (h : Booked w prior pending d) (hk : k < w) (hd : Cleared dir k d d') :
    Booked w prior pending d' ∧ Grows d.counters d'.counters ∧
      ∃ js, d'.emitted.reverse = d.emitted.reverse ++ js := by
  cases hd with
  | same | kept => exact ⟨h, Grows.refl _, [], by simp⟩
  | @moved _ x hx =>
    have hmove : Booked w prior (.reg d.temp.1 :: pending) (d.temp.2.moveVar x (.reg d.temp.1)) :=
      h.temp
    refine ⟨hmove.emitNew rfl rfl fun a ha => ?_, ⟨?_, Int.le_refl _, rfl⟩, ?_⟩
    · obtain rfl : a = .reg k := by simpa [Instruction.reads] using ha
      exact Books.readable_arg hmove hk
    · show d.counters.top ≤ d.counters.top + 1
      omega
    · exact ⟨[.argVariable .check (.reg d.temp.1) k], List.reverse_cons⟩

theorem readable (h : Booked w prior pending d) (ha : a ∈ d.written) :
    Readable w d.counters (prior ++ d.emitted.reverse) a := by
  obtain ⟨i, hi, hai⟩ := List.mem_flatMap.1 ha
  exact Books.readable_written h ⟨i, by simp [hi], hai⟩

/-- An instruction that is only about argument register `k`. -/
theorem argument (h : Booked w prior pending d) (hk : k < w) (hd : Cleared dir k d d')
    (hi : (i.reads = [.reg k] ∧ i.writes = []) ∨ (i.reads = [] ∧ i.writes = [.reg k])) :
    Booked w prior pending (d'.emit i) := by
  obtain ⟨h', -⟩ := h.cleared hk hd
  rcases hi with ⟨hr, hw⟩ | ⟨hr, hw⟩
  · refine h'.emitRead hw fun b hb => ?_
    obtain rfl : b = .reg k := by simpa [hr] using hb
    exact Books.readable_arg h' hk
  · exact h'.emitArg hk hw (by simp [hr])

/-- Every step keeps the books. -/
theorem step {s s' : ℕ × Draft .standard} (hargs : Layout.Fits w head dir args)
    (h : Step dir args s s') (hL : Layout w head s.2) (hs : Booked w prior [] s.2) :
    Booked w prior [] s'.2 := by
  have hlt : ∀ {k : ℕ} {t : Term}, args[k]? = some t → k < w := fun hk =>
    Nat.lt_of_lt_of_le (List.getElem?_eq_some_iff.1 hk).1 hargs.length_le
  -- One case for each instruction: what it reads was written, and what it writes is new.
  cases h with
  | blank | constant => exact hs.emitRead rfl (by simp [Instruction.reads])
  | known k h =>
    refine hs.emitRead rfl fun b hb => ?_
    obtain rfl := List.mem_singleton.1 hb
    exact Books.readable_home hs hL h
  | unknown k hx h => exact (hs.newChild _).2.emitNew rfl rfl (by simp [Instruction.reads])
  | attach hdir k hr =>
    refine hs.emitRead rfl fun b hb => ?_
    obtain rfl := List.mem_singleton.1 hb
    exact hs.readable hr
  | putAside => exact hs.temp.emitNew rfl rfl (by simp [Instruction.reads])
  | begin => exact hs.temp.emitNew (by simp) (by simp) (by simp)
  | resume hdir k hr =>
    refine hs.emitRead (by simp) fun b hb => ?_
    obtain rfl : b = _ := by simpa using hb
    exact hs.readable hr
  | argSkip => exact hs
  | argBlank hdir hk hd =>
    obtain ⟨hs', -⟩ := hs.cleared (hlt hk) hd
    exact hs'.temp.emitBoth (hlt hk) rfl rfl rfl
  | @argKnown k x hk a d d' h ha hd =>
    obtain ⟨hs', hg, js, hjs⟩ := hs.cleared (hlt hk) hd
    have hread : Readable w d'.counters (prior ++ d'.emitted.reverse) a := by
      rw [hjs, ← List.append_assoc]
      exact (Books.readable_home hs hL h).mono hg js
    cases dir with
    | check =>
      refine hs'.emitRead rfl fun b hb => ?_
      obtain rfl | rfl : b = a ∨ b = .reg k := by simpa [Instruction.reads] using hb
      · exact hread
      · exact Books.readable_arg hs' (hlt hk)
    | build =>
      refine hs'.emitArg (hlt hk) rfl fun b hb => ?_
      obtain rfl := List.mem_singleton.1 hb
      exact hread
  | @argStay k x hk d hx h ha =>
    -- The variable stays in an argument register, which is no own address.
    obtain ⟨r, -, -, hs'⟩ | ⟨hown, -⟩ := hs.newVar x (firstArg dir k)
    · exact hs'
    · rw [ha] at hown
      exact absurd hown (Books.not_own_arg (hlt hk))
  | argUnknown hk hx h ha hd =>
    obtain ⟨hs', -⟩ := (hs.newArg ha).2.cleared (hlt hk) hd
    cases dir with
    | check =>
      refine hs'.emitNew rfl rfl fun b hb => ?_
      obtain rfl := List.mem_singleton.1 hb
      exact Books.readable_arg hs' (hlt hk)
    | build => exact hs'.emitBoth (hlt hk) rfl rfl rfl
  | argConstant hk hd c =>
    exact hs.argument (hlt hk) hd (by cases dir <;> simp [Instruction.reads, Instruction.writes])
  | argNode hk hd kind n => exact hs.argument (hlt hk) hd (by cases dir <;> simp)

end Booked

/-! ### Argument registers -/

/-- The argument registers that a draft writes, with `k` arguments done. -/
structure ArgsWritten (w : ℕ) (dir : Direction) (k : ℕ) (d : Draft .standard) : Prop where
  /-- A head writes none. -/
  check : dir = .check → argsWritten w d.emitted.reverse = []
  /-- They are those of arguments that are done. -/
  lt : ∀ j ∈ argsWritten w d.emitted.reverse, 0 ≤ j ∧ j < k
  /-- They are written in order. -/
  ordered : (argsWritten w d.emitted.reverse).Pairwise (· < ·)

namespace ArgsWritten

variable {prior : List Instruction} {s s' : ℕ × Draft .standard}

theorem argsWritten_emit (d : Draft .standard) (i : Instruction) :
    argsWritten w (d.emit i).emitted.reverse =
      argsWritten w d.emitted.reverse ++ i.writes.filterMap (Address.argument? w) := by
  show argsWritten w (i :: d.emitted).reverse = _
  rw [List.reverse_cons, Code.argsWritten_append, argsWritten, argsWritten, List.flatMap_singleton]

theorem mono {k' : ℕ} (h : ArgsWritten w dir k d) (hk : k ≤ k') : ArgsWritten w dir k' d :=
  ⟨h.check, fun j hj => ⟨(h.lt j hj).1, by have := (h.lt j hj).2; omega⟩, h.ordered⟩

theorem congr (h : ArgsWritten w dir k d) (he : d'.emitted = d.emitted) :
    ArgsWritten w dir k d' :=
  ⟨he ▸ h.check, he ▸ h.lt, he ▸ h.ordered⟩

theorem temp (h : ArgsWritten w dir k d) : ArgsWritten w dir k d.temp.2 := h.congr rfl

theorem newVar (h : ArgsWritten w dir k d) (x : String) (arg : Option Int) :
    ArgsWritten w dir k (d.newVar x arg).2 := h.congr rfl

/-- An instruction that writes no argument register. -/
theorem keep (h : ArgsWritten w dir k d) (hi : ∀ a ∈ i.writes, a.Own w) :
    ArgsWritten w dir k (d.emit i) := by
  have hnone : i.writes.filterMap (Address.argument? w) = [] :=
    List.filterMap_eq_nil_iff.2 fun a ha => (hi a ha).argument?
  have heq := argsWritten_emit (w := w) d i
  rw [hnone, List.append_nil] at heq
  exact ⟨fun hdir => heq ▸ h.check hdir, heq ▸ h.lt, heq ▸ h.ordered⟩

/-- An instruction that writes one of the code's own addresses. -/
theorem keepOne (h : ArgsWritten w dir k d) (hi : i.writes = [a]) (ha : a.Own w) :
    ArgsWritten w dir k (d.emit i) :=
  h.keep fun b hb => by
    rw [hi, List.mem_singleton] at hb
    exact hb ▸ ha

/-- An instruction that writes argument register `k`. -/
theorem next (new : List Address) (h : ArgsWritten w .build k d) (hk : k < w)
    (hi : i.writes = new ++ [.reg k]) (hnew : ∀ a ∈ new, a.Own w) :
    ArgsWritten w .build (k + 1) (d.emit i) := by
  have hone : i.writes.filterMap (Address.argument? w) = [(k : Int)] := by
    have hlt : (k : Int) < w := by omega
    rw [hi, List.filterMap_append,
      List.filterMap_eq_nil_iff.2 fun a ha => (hnew a ha).argument?, List.nil_append]
    simp [Address.argument?, hlt]
  have heq := argsWritten_emit (w := w) d i
  rw [hone] at heq
  refine ⟨by simp, fun j hj => ?_, ?_⟩
  · rw [heq, List.mem_append, List.mem_singleton] at hj
    rcases hj with hj | rfl
    · have := h.lt j hj
      omega
    · omega
  · rw [heq, List.pairwise_append]
    refine ⟨h.ordered, List.pairwise_singleton _ _, fun j hj j' hj' => ?_⟩
    obtain rfl := List.mem_singleton.1 hj'
    exact (h.lt j hj).2

theorem cleared (h : ArgsWritten w dir k d) (hs : Booked w prior pending d)
    (hd : Cleared dir k d d') : ArgsWritten w dir k d' := by
  cases hd with
  | same | kept => exact h
  | @moved _ x hx =>
    have hmove : ArgsWritten w dir k (d.temp.2.moveVar x (.reg d.temp.1)) := h.congr rfl
    exact hmove.keepOne rfl hs.temp_own

/-- An instruction that is only about argument register `k`. -/
theorem argument (h : ArgsWritten w dir k d) (hs : Booked w prior pending d) (hk : k < w)
    (hd : Cleared dir k d d')
    (hi : i.writes = [] ∨ (dir = .build ∧ i.writes = [.reg k])) :
    ArgsWritten w dir (k + 1) (d'.emit i) := by
  rcases hi with hw | ⟨rfl, hw⟩
  · exact ((h.cleared hs hd).keep (by simp [hw])).mono (Nat.le_succ k)
  · exact (h.cleared hs hd).next [] hk hw (by simp)

/-- Every step keeps the order of the argument registers. -/
theorem step (hargs : Layout.Fits w head dir args) (h : Step dir args s s')
    (hs : Booked w prior [] s.2) (ha : ArgsWritten w dir s.1 s.2) :
    ArgsWritten w dir s'.1 s'.2 := by
  have hlt : ∀ {k : ℕ} {t : Term}, args[k]? = some t → k < w := fun hk =>
    Nat.lt_of_lt_of_le (List.getElem?_eq_some_iff.1 hk).1 hargs.length_le
  cases h with
  | blank | constant | known | attach => exact ha.keep (by simp [Instruction.writes])
  | resume => exact ha.keep (by simp)
  | unknown k hx h => exact (ha.newVar _ _).keepOne rfl (hs.newChild _).1
  | putAside => exact ha.temp.keepOne rfl hs.temp_own
  | begin => exact ha.temp.keepOne (by simp) hs.temp_own
  | argSkip => exact ha.mono (Nat.le_succ _)
  | argStay => exact (ha.newVar _ _).mono (Nat.le_succ _)
  | @argBlank hdir k t hk d d' hd =>
    subst hdir
    obtain ⟨hs', -⟩ := hs.cleared (hlt hk) hd
    exact (ha.cleared hs hd).temp.next [.reg d'.temp.1] (hlt hk) rfl
      (by simpa using hs'.temp_own)
  | argKnown hk h hne hd =>
    exact ha.argument hs (hlt hk) hd (by cases dir <;> simp [Instruction.writes])
  | @argUnknown k x hk d d' hx h hne hd =>
    obtain ⟨hown, hs'⟩ := hs.newArg hne
    have ha' : ArgsWritten w dir k d' := (ha.newVar x _).cleared hs' hd
    cases dir with
    | check => exact (ha'.keepOne rfl hown).mono (Nat.le_succ k)
    | build =>
      exact ha'.next [(d.newVar x (firstArg .build k)).1] (hlt hk) rfl (by simpa using hown)
  | argConstant hk hd c =>
    exact ha.argument hs (hlt hk) hd (by cases dir <;> simp [Instruction.writes])
  | argNode hk hd kind n => exact ha.argument hs (hlt hk) hd (by cases dir <;> simp)

end ArgsWritten

/-- The code of a head or a goal keeps the books, and writes argument registers in order. -/
theorem Books.compose {prior : List Instruction} (hargs : Layout.Fits w head dir args)
    (hL : Layout w head d) (h : Books w [] d.counters prior) :
    Books w [] (d.compose dir args).counters (prior ++ (d.compose dir args).emitted.reverse) ∧
      ArgsWritten w dir args.length (d.compose dir args) := by
  have hstart : Booked w prior [] { d with emitted := [] } := by
    unfold Booked
    rw [List.reverse_nil, List.append_nil]
    exact h
  have hall := (steps_compose dir args d).preserves
    (I := fun s => Layout w head s.2 ∧ Booked w prior [] s.2 ∧ ArgsWritten w dir s.1 s.2)
    (fun s s' hstep hs => ⟨(Layout.step hargs hstep hs.1).1, hs.2.1.step hargs hstep hs.1,
      hs.2.2.step hargs hstep hs.2.1⟩)
    ⟨hL.congr (Grows.refl _) rfl, hstart, by simp, by simp, by simp⟩
  exact hall.2

end Draft

end ClauseCode
