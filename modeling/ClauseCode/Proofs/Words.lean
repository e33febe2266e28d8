import ClauseCode.Proofs.Addresses
import ClauseCode.Proofs.Collisions
import ClauseCode.Proofs.Tracing

/-!
# Registers and slots in words

The standard policy counts registers and stack slots without bound, where `Policy.inWords` keeps
every number that a policy answers in a word of 64 bits.  Whether a number is changed by this could
depend on the whole way to it; but the counters only grow (`Draft.grows_performAll`), and no address
is beyond them.  So nothing is changed if the numbers at the end fit, which are in the compiled
clause, and then the code is the same (`Clause.compileWith_inWords`).
-/

namespace ClauseCode

theorem wrapWord_of_nonneg {n : Int} (hlow : 0 ≤ n) (hhigh : n < 0x8000000000000000) :
    wrapWord n = n :=
  wrapWord_of_bounds (by omega) hhigh

namespace Draft

variable {d : Draft .standard}

/-! ### The counters grow -/

theorem grows_newVar (d : Draft .standard) (x : String) (arg : Option Int) :
    Grows d.counters (d.newVar x arg).2.counters := by
  by_cases hx : x ∈ d.counters.permanent
  · rw [(newVar_permanent hx arg).2]
    exact ⟨Int.le_refl _, Int.le.intro 1 rfl, rfl⟩
  · cases arg with
    | none =>
      rw [(newVar_temporary hx).2]
      exact ⟨Int.le.intro 1 rfl, Int.le_refl _, rfl⟩
    | some r =>
      rw [(newVar_argument hx r).2]
      exact Grows.refl _

/-- No operation of the compiler turns a counter back. -/
theorem grows_perform (d : Draft .standard) (op : Operation) :
    Grows d.counters (d.perform op).counters := by
  cases op with
  | take => exact ⟨Int.le.intro 1 rfl, Int.le_refl _, rfl⟩
  | ask x arg => exact d.grows_newVar x arg
  | pick | settle | move | record | emit | count | begin | finish => exact Grows.refl _

theorem grows_performAll (d : Draft .standard) (ops : List Operation) :
    Grows d.counters (d.performAll ops).counters := by
  induction ops generalizing d with
  | nil => exact Grows.refl _
  | cons op ops ih => exact (d.grows_perform op).trans (ih (d.perform op))

/-! ### Numbers that fit -/

/-- Words of 64 bits can hold the next register and the homes of variables. -/
structure InWords (d : Draft .standard) : Prop where
  top_nonneg : 0 ≤ d.counters.top
  top_lt : d.counters.top < 0x8000000000000000
  homes : ∀ x a, (x, a) ∈ d.homes → a.wrapped = a

/-- Homes are numbered from zero on and below the counters. -/
theorem Layout.inWords {w : ℕ} {head : List Term} (hL : Layout w head d)
    (htop : d.counters.top < 0x8000000000000000) (hslots : d.counters.slots < 0x8000000000000000) :
    d.InWords where
  top_nonneg := Int.le_trans (Int.natCast_nonneg w) hL.width_le
  top_lt := htop
  homes x a hx := by
    have hlives := hL.lives x a hx
    have hallocated := hL.allocated hx
    cases a with
    | reg r =>
      have hr : r < d.counters.top := hallocated
      have hnonneg : 0 ≤ r := by
        rcases hlives.2 with ⟨k, rfl, -⟩ | ⟨hw, -⟩
        · exact Int.natCast_nonneg k
        · omega
      exact congrArg Address.reg (wrapWord_of_nonneg hnonneg (by omega))
    | stack i =>
      have hi : i < d.counters.slots := hallocated
      exact congrArg Address.stack (wrapWord_of_nonneg hlives.2.1 (by omega))

end Draft

open Draft (Always)

/-- The standard policy answers as it does in words while its numbers fit. -/
theorem Policy.follows_inWords : Follows .standard (.inWords .standard) id Draft.InWords where
  start _ _ := rfl
  var d x arg _ h := by
    have hhome := h.homes x (d.newVar x arg).1 List.mem_cons_self
    exact Prod.ext hhome rfl
  temp _ h := Prod.ext (wrapWord_of_nonneg h.top_nonneg h.top_lt) rfl
  registers _ h := wrapWord_of_nonneg h.top_nonneg h.top_lt
  pick _ _ := rfl

/-- If the last numbers fit, then all numbers on the way do. -/
theorem NormalClause.always_inWords {n : NormalClause} {d : Draft .standard}
    (hd : (Draft.start .standard n.width n.permanent).performAll (n.operations .standard) = d)
    (htop : d.counters.top < 0x8000000000000000) (hslots : d.counters.slots < 0x8000000000000000) :
    Always Draft.InWords (Draft.start .standard n.width n.permanent) (n.operations .standard) := by
  intro done hdone
  obtain ⟨rest, hrest⟩ := hdone
  have hgrows := ((Draft.start .standard n.width n.permanent).performAll done).grows_performAll rest
  rw [← Draft.performAll_append, hrest, hd] at hgrows
  refine (n.always_separate done ⟨rest, hrest⟩).layout.inWords ?_ ?_
  · exact Int.lt_of_le_of_lt hgrows.top htop
  · exact Int.lt_of_le_of_lt hgrows.slots hslots

/-- If words of 64 bits can number the registers and the slots that a clause needs, then its code is
the same whether or not the policy keeps to such words. -/
theorem Clause.compileWith_inWords {c : Clause} {k : CompiledClause} {s : Policy.Counters}
    (h : c.compileWith .standard = .ok (k, s)) (hregisters : k.registers < 0x8000000000000000)
    (hpermanent : (k.permanent : Int) < 0x8000000000000000) :
    c.compileWith (.inWords .standard) = .ok (k, s) := by
  refine compileWith_follows Policy.follows_inWords (fun n hn => ?_) h
  obtain ⟨k', d, hcompile, hnormal, hcodes⟩ := exists_compileWith hn .standard
  obtain ⟨rfl, -⟩ := Prod.mk.inj (Except.ok.inj (hcompile.symm.trans h))
  obtain ⟨d₁, d₂, hhead, hgoals, hpool, -⟩ := NormalClause.compile_eq_ok hnormal
  have hcounters : d₂.counters = d.counters := hpool.symm
  refine NormalClause.always_inWords (NormalClause.performAll_operations hhead hgoals) ?_ ?_
  · have htop : k'.registers = d.counters.top := hcodes.registers
    rw [hcounters, ← htop]
    exact hregisters
  · rw [hcounters, hcodes.slots]
    exact hpermanent

end ClauseCode
