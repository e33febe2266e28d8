import ClauseCode.Proofs.Coverage
import ClauseCode.Proofs.Matching

/-!
# The code of a head

Run at a call, the code of a head succeeds exactly if the head matches the call, and then each
variable of the head is found at its address (`Clause.run_head_iff_matches`).
-/

namespace ClauseCode

open Draft Matching

namespace NormalClause

variable {n : NormalClause}

/-- The head of a clause matches a call under a substitution. -/
def HeadMatches (n : NormalClause) (ts : List (Tree ℕ)) (σ : String → Tree ℕ) : Prop :=
  List.Forall₂ (Tree.Matches σ) (n.head.args.map Term.read) ts

/-- What holds after the code of a head: no node is at hand, the argument registers are as they
were, and the known variables are found at their addresses. -/
structure HeadDone (n : NormalClause) (ts : List (Tree ℕ)) (s s' : Machine) : Prop where
  focus : s'.focus = .take []
  kept : Kept n.width s s'
  homes : ∀ x a, (n.afterHead .standard).home? x = some a → ∃ v, s'.mem a = some v
  iff : ∀ σ, n.HeadMatches ts σ ↔
    ∀ x a, (n.afterHead .standard).home? x = some a → s'.mem a = some (σ x)

/-- The code of a head succeeds, or the head does not match. -/
theorem run_head {k : CompiledClause} {d : Draft .standard} (hk : n.Codes .standard k d)
    {s : Machine} {ts : List (Tree ℕ)} (hs : s.Called ts)
    (hlen : ts.length = n.head.args.length) :
    (∃ s', s.run k.head = .ok s' ∧ n.HeadDone ts s s') ∨
      (s.run k.head = .error .mismatch ∧ ∀ σ, ¬ n.HeadMatches ts σ) := by
  have htracks := tracks_compose n.length_head_le n.permanent hs hlen
  rw [← Machine.run_expand s .check, hk.expand_head]
  refine htracks.run.imp_left fun ⟨s', hrun, hready, hkept, hsat⟩ => ⟨s', hrun, ?_⟩
  refine ⟨focus_nil hready, hkept, hready.homes, fun σ => (hsat σ).trans ⟨fun h => h.homes, ?_⟩⟩
  exact fun h => ⟨h, ⟨[], focus_nil hready, List.Forall₂.nil⟩, by simp⟩

theorem HeadDone.exists_matches {ts : List (Tree ℕ)} {s s' : Machine} (h : n.HeadDone ts s s') :
    ∃ σ, n.HeadMatches ts σ := by
  have hval : ∀ x, ∃ v, ∀ a, (n.afterHead .standard).home? x = some a → s'.mem a = some v := by
    intro x
    cases hx : (n.afterHead .standard).home? x with
    | none => exact ⟨.var 0, by simp⟩
    | some a =>
      obtain ⟨v, hv⟩ := h.homes x a hx
      exact ⟨v, fun b hb => Option.some.inj hb ▸ hv⟩
  choose σ hσ using hval
  exact ⟨σ, (h.iff σ).2 hσ⟩

/-- Each variable of the head has an address after the head. -/
theorem met_afterHead {t : Term} (ht : t ∈ n.head.args) {x : String} (hx : x ∈ t.read.vars)
    (hne : x ≠ Term.anonymous) : (n.afterHead .standard).Met x :=
  covers_compose .check _ ht x hx hne

end NormalClause

/-- Run at a call, the code of a head succeeds exactly if the head matches the call; then each
variable of the head is found at the address that the compiler noted for it, and the argument
registers are as they were.  Otherwise it ends with a mismatch. -/
theorem Clause.run_head_iff_matches {c : Clause} {n : NormalClause} (hn : c.normalize = .ok n) :
    ∃ k d, c.compile = .ok k ∧
      n.head.code .check (Draft.start .standard n.width n.permanent) = .ok (k.head, d) ∧
      ∀ (s : Machine) (ts : List (Tree ℕ)), s.Called ts → ts.length = n.head.args.length →
        ((∃ s', s.run k.head = .ok s') ↔ ∃ σ, n.HeadMatches ts σ) ∧
        s.run k.head ≠ .error .stuck ∧
        ∀ s' σ, s.run k.head = .ok s' → n.HeadMatches ts σ →
          (∀ t ∈ n.head.args, ∀ x ∈ t.read.vars, x ≠ Term.anonymous →
            ∃ a, d.home? x = some a ∧ s'.mem a = some (σ x)) ∧
          ∀ r : Int, r < n.width → s'.mem (.reg r) = s.mem (.reg r) := by
  obtain ⟨k, d, d', hcode, hcore, hcompile, hcodes⟩ := Clause.exists_compile hn
  refine ⟨k, d, hcompile, hcode, fun s ts hs hlen => ?_⟩
  have hhome : ∀ x, d.home? x = (n.afterHead .standard).home? x := fun x => by
    rw [← hcore, core_home?]
  rcases NormalClause.run_head hcodes hs hlen with ⟨s₁, hrun, hdone⟩ | ⟨hrun, hnot⟩
  · rw [hrun]
    refine ⟨⟨fun _ => hdone.exists_matches, fun _ => ⟨s₁, rfl⟩⟩, by simp, fun s' σ hs' hσ => ?_⟩
    obtain rfl : s₁ = s' := by simpa using hs'
    refine ⟨fun t ht x hx hne => ?_, hdone.kept.mem⟩
    obtain ⟨a, ha⟩ := NormalClause.met_afterHead ht hx hne
    exact ⟨a, by rw [hhome, ha], (hdone.iff σ).1 hσ x a ha⟩
  · rw [hrun]
    refine ⟨⟨fun ⟨s', hs'⟩ => by simp at hs', fun ⟨σ, hσ⟩ => absurd hσ (hnot σ)⟩, by simp, ?_⟩
    intro s' σ hs'
    simp at hs'

/-- The head `path(X, [X|Z])` matches the call `path(a, [a|b])`. -/
theorem run_head_path : pathClause.normalize = .ok pathNormal ∧
    ∃ k, pathClause.compile = .ok k ∧ ∀ s : Machine,
      s.Called [.constant (.atom "a"), .node .cell [.constant (.atom "a"), .constant (.atom "b")]] →
        ∃ s', s.run k.head = .ok s' := by
  refine ⟨rfl, ?_⟩
  obtain ⟨k, d, hk, -, hrun⟩ :=
    Clause.run_head_iff_matches (c := pathClause) (n := pathNormal) rfl
  refine ⟨k, hk, fun s hs => (hrun s _ hs rfl).1.2 ?_⟩
  refine ⟨fun x => if x = "X" then .constant (.atom "a") else .constant (.atom "b"), ?_⟩
  simp [NormalClause.HeadMatches, pathNormal, Term.read, Term.readCells, Tree.Matches,
    Tree.MatchesAll, Term.anonymous]

end ClauseCode
