import ClauseCode.Proofs.Faithful
import ClauseCode.Proofs.Renaming
import Mathlib.Algebra.Order.BigOperators.Group.List
import Mathlib.Algebra.Order.Group.Nat

/-!
# The names of variables do not matter

A clause whose variables are renamed has the same code (`Clause.compile_rename`).  It is enough that
the map of names keeps the variables of the clause apart, because there is a renaming of all names
that agrees with it on them (`exists_injective_extension`).
-/

namespace ClauseCode

variable {r : String → String}

/-- A renamed term depends only on what becomes of the variables that occur. -/
theorem Term.rename_congr {r' : String → String} {t : Term}
    (h : ∀ x ∈ t.read.vars, r x = r' x) : t.rename r = t.rename r' := by
  induction t with
  | atom | int => rfl
  | var x => rw [rename, rename, h x (by simp [read])]
  | comp f args b ih =>
    rw [rename, rename, renameAll_eq_map, renameAll_eq_map,
      List.map_congr_left fun t ht => ih t ht fun x hx => h x (mem_vars_comp.2 ⟨t, ht, hx⟩)]
  | list head rest tail b ihhead ihrest ihtail =>
    rw [rename, rename, renameAll_eq_map, renameAll_eq_map,
      ihhead fun x hx => h x (mem_vars_list.2 (Or.inl hx)),
      ihtail fun x hx => h x (mem_vars_list.2 (Or.inr (Or.inr hx))),
      List.map_congr_left fun t ht => ihrest t ht fun x hx =>
        h x (mem_vars_list.2 (Or.inr (Or.inl ⟨t, ht, hx⟩)))]

/-! ### Renaming clauses -/

namespace Compound

/-- A compound with its variables renamed. -/
def rename (r : String → String) (c : Compound) : Compound :=
  ⟨c.functor, c.args.map (Term.rename r)⟩

theorem toTerm_rename (c : Compound) : (c.rename r).toTerm = c.toTerm.rename r := by
  rw [toTerm, toTerm, Term.apply, Term.apply, Term.rename, Term.renameAll_eq_map]
  exact congrArg _ (Term.any_hasVar_rename c.args)

theorem indicator_rename (c : Compound) : (c.rename r).indicator = c.indicator := by
  rw [indicator, indicator]
  simp [rename]

end Compound

namespace NormalClause

/-- A clause in normal form with its variables renamed. -/
def rename (r : String → String) (n : NormalClause) : NormalClause :=
  ⟨n.head.rename r, n.body.map (Compound.rename r)⟩

theorem width_rename (n : NormalClause) : (n.rename r).width = n.width := by
  simp [width, rename, Compound.rename, List.foldl_map]

theorem noteVar_rename (hr : Renaming r) (acc : List String × List String) (x : String) :
    noteVar (acc.1.map r, acc.2.map r) (r x) =
      ((noteVar acc x).1.map r, (noteVar acc x).2.map r) := by
  have hmem : (acc.1.map r).contains (r x) = acc.1.contains x := by
    simp [hr.injective.eq_iff]
  unfold noteVar
  dsimp only
  rw [hmem, Term.note_rename hr.injective]
  split
  · rfl
  · rw [List.map_append, List.map_singleton]

theorem noteGoal_rename (hr : Renaming r) (acc : List String × List String) (g : Compound) :
    noteGoal (acc.1.map r, acc.2.map r) (g.rename r) =
      ((noteGoal acc g).1.map r, (noteGoal acc g).2.map r) := by
  unfold noteGoal
  rw [Compound.toTerm_rename, Term.vars_rename hr.injective, List.foldl_map]
  generalize g.toTerm.vars = xs
  induction xs generalizing acc with
  | nil => rfl
  | cons x xs ih => rw [List.foldl_cons, List.foldl_cons, noteVar_rename hr, ih]

theorem foldl_noteGoal_rename (hr : Renaming r) (acc : List String × List String)
    (gs : List Compound) :
    (gs.map (Compound.rename r)).foldl noteGoal (acc.1.map r, acc.2.map r) =
      ((gs.foldl noteGoal acc).1.map r, (gs.foldl noteGoal acc).2.map r) := by
  induction gs generalizing acc with
  | nil => rfl
  | cons g gs ih => rw [List.map_cons, List.foldl_cons, List.foldl_cons, noteGoal_rename hr, ih]

theorem permanent_rename (hr : Renaming r) (n : NormalClause) :
    (n.rename r).permanent = n.permanent.map r := by
  have hhead : (n.rename r).head = n.head.rename r := rfl
  have hbody : (n.rename r).body = n.body.map (Compound.rename r) := rfl
  rw [permanent, permanent, hhead, hbody]
  -- Only two or more goals make variables permanent.
  rcases n.body with _ | ⟨first, _ | ⟨second, rest⟩⟩
  · rfl
  · rfl
  · have hseen : (first.rename r).toTerm.varsOnto (n.head.rename r).toTerm.vars =
        (first.toTerm.varsOnto n.head.toTerm.vars).map r := by
      rw [Compound.toTerm_rename, Compound.toTerm_rename, Term.vars_rename hr.injective,
        Term.varsOnto_rename hr.injective]
    have hfold := foldl_noteGoal_rename hr (first.toTerm.varsOnto n.head.toTerm.vars, [])
      (second :: rest)
    rw [List.map_cons, List.map_nil] at hfold
    rw [List.map_cons, List.map_cons]
    dsimp only
    rw [hseen, hfold, List.filter_map]
    refine congrArg (List.map r) (List.filter_congr fun x _ => ?_)
    simp [hr.eq_anonymous_iff]

theorem afterHead_rename (hr : Renaming r) (n : NormalClause) :
    (n.rename r).afterHead .standard = (n.afterHead .standard).rename r := by
  rw [afterHead, afterHead, width_rename, permanent_rename hr]
  exact Draft.compose_rename hr .check n.head.args (Draft.start .standard n.width n.permanent)

end NormalClause

/-- The code of goals is the code of the renamed goals. -/
theorem Compound.Coded.rename (hr : Renaming r) {d d' : Draft .standard} {cs : List Compound}
    {gs : List CompiledGoal} (h : Coded d cs gs d') :
    Coded (d.rename r) (cs.map (Compound.rename r)) gs (d'.rename r) := by
  induction h with
  | nil d => exact Coded.nil _
  | @cons d d' c cs is gs hpack _ ih =>
    have hcompose := Draft.compose_rename hr .build c.args d
    have hcons := @Coded.cons _ (d.rename r) (d'.rename r) (c.rename r)
      (cs.map (Compound.rename r)) is gs (by rw [Compound.rename, hcompose]; exact hpack)
      (by rw [Compound.rename, hcompose]; exact ih)
    rw [indicator_rename] at hcons
    simpa [Compound.rename] using hcons

theorem Compound.Coded.unique {P : Policy} {d d₁ d₂ : Draft P} {cs : List Compound}
    {gs₁ gs₂ : List CompiledGoal} (h₁ : Coded d cs gs₁ d₁) (h₂ : Coded d cs gs₂ d₂) :
    gs₁ = gs₂ ∧ d₁ = d₂ := by
  induction h₁ generalizing gs₂ with
  | nil d =>
    cases h₂
    exact ⟨rfl, rfl⟩
  | cons hpack _ ih =>
    cases h₂ with
    | cons hpack' hrest =>
      obtain ⟨rfl, hd⟩ := ih hrest
      rw [hpack, Except.ok.injEq] at hpack'
      exact ⟨by rw [hpack'], hd⟩

namespace NormalClause.Codes

/-- The code of a clause is the code of the renamed clause. -/
theorem rename (hr : Renaming r) {n : NormalClause} {k : CompiledClause} {d : Draft .standard}
    (h : n.Codes .standard k d) : (n.rename r).Codes .standard k (d.rename r) where
  functor := by rw [h.functor, ← n.head.indicator_rename (r := r)]; rfl
  registers := h.registers
  permanent := by rw [h.permanent, permanent_rename hr, List.length_map]
  head := by rw [afterHead_rename hr]; exact h.head
  goals := by rw [afterHead_rename hr]; exact h.goals.rename hr

theorem unique {P : Policy} {n : NormalClause} {k k' : CompiledClause} {d d' : Draft P}
    (h : n.Codes P k d) (h' : n.Codes P k' d') : k = k' := by
  obtain ⟨hgoals, rfl⟩ := h.goals.unique h'.goals
  have hfunctor := h.functor.trans h'.functor.symm
  have hregisters := h.registers.trans h'.registers.symm
  have hpermanent := h.permanent.trans h'.permanent.symm
  have hhead : k.head = k'.head := Except.ok.inj (h.head.symm.trans h'.head)
  cases k
  cases k'
  rw [CompiledClause.mk.injEq]
  exact ⟨hfunctor, hregisters, hpermanent, hhead, hgoals⟩

end NormalClause.Codes

namespace Clause

/-- A clause with its variables renamed. -/
def rename (r : String → String) (c : Clause) : Clause :=
  ⟨c.head.rename r, c.body.map (Term.rename r)⟩

theorem headCompound_rename (t : Term) :
    headCompound (t.rename r) = (headCompound t).map (Compound.rename r) := by
  cases t with
  | comp f args b => rw [Term.rename, Term.renameAll_eq_map]; rfl
  | atom | int | var | list => rfl

theorem goalCompound_rename (hr : Renaming r) (t : Term) :
    goalCompound (t.rename r) = (goalCompound t).map (Compound.rename r) := by
  cases t with
  | comp f args b => rw [Term.rename, Term.renameAll_eq_map]; rfl
  | var x =>
    rw [Term.rename, goalCompound, goalCompound]
    by_cases hx : x = Term.anonymous
    · rw [if_pos hx, if_pos ((hr.eq_anonymous_iff x).2 hx)]
      rfl
    · rw [if_neg hx, if_neg (mt (hr.eq_anonymous_iff x).1 hx)]
      rfl
  | atom | int | list => rfl

theorem goalCompounds_rename (hr : Renaming r) (ts : List Term) :
    goalCompounds (ts.map (Term.rename r)) =
      match goalCompounds ts with
      | .ok cs => .ok (cs.map (Compound.rename r))
      | .error t => .error (t.rename r) := by
  induction ts with
  | nil => rfl
  | cons t ts ih =>
    rw [List.map_cons, goalCompounds, goalCompounds, goalCompound_rename hr, ih]
    cases goalCompound t with
    | none => rfl
    | some c => cases goalCompounds ts <;> rfl

/-- A renamed clause has a normal form if the clause has one, and it is the renamed one. -/
theorem normalize_rename (hr : Renaming r) (c : Clause) :
    (c.rename r).normalize =
      match c.normalize with
      | .ok n => .ok (n.rename r)
      | .error e => .error ⟨e.place, e.clause.rename r, e.term.rename r⟩ := by
  have hhead : (c.rename r).head = c.head.rename r := rfl
  have hbody : (c.rename r).body = c.body.map (Term.rename r) := rfl
  rw [normalize, normalize, hhead, headCompound_rename]
  cases headCompound c.head with
  | none => rfl
  | some head =>
    rw [Option.map_some, hbody, goalCompounds_rename hr]
    cases goalCompounds c.body <;> rfl

/-- The code of a clause is that of its normal form. -/
theorem compile_eq_ok_iff {c : Clause} {k : CompiledClause} :
    c.compile = .ok k ↔ ∃ n d, c.normalize = .ok n ∧ n.Codes .standard k d := by
  constructor
  · intro h
    cases hn : c.normalize with
    | error e => simp [compile, compileWith, hn] at h
    | ok n =>
      obtain ⟨k', -, d, -, -, hk', hcodes⟩ := exists_compile hn
      obtain rfl : k' = k := by simpa [hk'] using h
      exact ⟨n, d, rfl, hcodes⟩
  · rintro ⟨n, d, hn, hcodes⟩
    obtain ⟨k', -, d', -, -, hk', hcodes'⟩ := exists_compile hn
    rw [hk', hcodes'.unique hcodes]

/-- Whether a variable occurs in a clause. -/
def Has (c : Clause) (x : String) : Prop :=
  x ∈ c.head.read.vars ∨ ∃ t ∈ c.body, x ∈ t.read.vars

theorem rename_congr {r' : String → String} {c : Clause} (h : ∀ x, c.Has x → r x = r' x) :
    c.rename r = c.rename r' := by
  unfold rename
  rw [Term.rename_congr fun x hx => h x (Or.inl hx)]
  congr 1
  exact List.map_congr_left fun t ht => Term.rename_congr fun x hx => h x (Or.inr ⟨t, ht, hx⟩)

theorem compile_rename_of_renaming (hr : Renaming r) (c : Clause) (k : CompiledClause) :
    (c.rename r).compile = .ok k ↔ c.compile = .ok k := by
  rw [compile_eq_ok_iff, compile_eq_ok_iff, normalize_rename hr]
  cases hn : c.normalize with
  | error e => simp
  | ok n =>
    -- Both clauses have code, and the code of a normal form is unique.
    obtain ⟨k', -, d', -, -, -, hcodes'⟩ := exists_compile hn
    constructor
    · rintro ⟨n', d, hn', hcodes⟩
      obtain rfl : n.rename r = n' := by simpa using hn'
      rw [hcodes.unique (hcodes'.rename hr)]
      exact ⟨n, d', rfl, hcodes'⟩
    · rintro ⟨n', d, hn', hcodes⟩
      obtain rfl : n = n' := by simpa using hn'
      exact ⟨n.rename r, d.rename r, rfl, hcodes.rename hr⟩

end Clause

/-- A map that keeps some names apart agrees on them with a map that keeps all names apart. -/
theorem exists_injective_extension {r : String → String} (xs : List String)
    (h : ∀ x ∈ xs, ∀ y ∈ xs, r x = r y → x = y) :
    ∃ r' : String → String, Function.Injective r' ∧ ∀ x ∈ xs, r' x = r x := by
  -- All other names get a beginning that is longer than the new names.
  let pad := String.ofList (List.replicate ((xs.map fun x => (r x).length).sum + 1) '_')
  have hpad : ∀ x ∈ xs, ∀ y, r x ≠ pad ++ y := by
    intro x hx y heq
    have hle : (r x).length ≤ (xs.map fun x => (r x).length).sum :=
      List.le_sum_of_mem (List.mem_map.2 ⟨x, hx, rfl⟩)
    have hlen := congrArg String.length heq
    simp only [pad, String.length_append, String.length_ofList, List.length_replicate] at hlen
    omega
  refine ⟨fun x => if x ∈ xs then r x else pad ++ x, fun x y hxy => ?_, fun x hx => if_pos hx⟩
  dsimp only at hxy
  by_cases hx : x ∈ xs <;> by_cases hy : y ∈ xs
  · rw [if_pos hx, if_pos hy] at hxy
    exact h x hx y hy hxy
  · rw [if_pos hx, if_neg hy] at hxy
    exact absurd hxy (hpad x hx y)
  · rw [if_neg hx, if_pos hy] at hxy
    exact absurd hxy.symm (hpad y hy x)
  · rw [if_neg hx, if_neg hy] at hxy
    simpa using hxy

/-- The code of a clause does not depend on the names of its variables: renaming them is harmless
if the anonymous variable stays what it is, no other becomes anonymous, and no two become one. -/
theorem Clause.compile_rename {c : Clause} {r : String → String}
    (hanonymous : r Term.anonymous = Term.anonymous)
    (hnamed : ∀ x, c.Has x → x ≠ Term.anonymous → r x ≠ Term.anonymous)
    (hinjective : ∀ x y, c.Has x → c.Has y → r x = r y → x = y) (k : CompiledClause) :
    (c.rename r).compile = .ok k ↔ c.compile = .ok k := by
  -- The renaming has to fix the anonymous variable, whether or not it occurs.
  let xs := Term.anonymous :: (c.head.read.vars ++ c.body.flatMap fun t => t.read.vars)
  have hxs : ∀ x, x ∈ xs ↔ x = Term.anonymous ∨ c.Has x := by
    intro x
    simp [xs, Clause.Has]
  obtain ⟨r', hr', hagree⟩ := exists_injective_extension (r := r) xs fun x hx y hy hxy => by
    rcases (hxs x).1 hx with rfl | hx' <;> rcases (hxs y).1 hy with rfl | hy'
    · rfl
    · by_contra hne
      exact hnamed y hy' (Ne.symm hne) (hxy.symm.trans hanonymous)
    · by_contra hne
      exact hnamed x hx' hne (hxy.trans hanonymous)
    · exact hinjective x y hx' hy' hxy
  have hrenaming : Renaming r' := ⟨hr', (hagree _ ((hxs _).2 (Or.inl rfl))).trans hanonymous⟩
  rw [rename_congr fun x hx => (hagree x ((hxs x).2 (Or.inr hx))).symm]
  exact compile_rename_of_renaming hrenaming c k

/-- Exchanges the names `X` and `Y`. -/
def exchangeXY (x : String) : String := if x = "X" then "Y" else if x = "Y" then "X" else x

/-- With `X` and `Y` exchanged, the clause `path(X, [X|Z]) :- edge(X, Y, _), path(Y, Z)` has the
same code. -/
theorem compile_rename_path :
    ∃ k, pathClause.compile = .ok k ∧ (pathClause.rename exchangeXY).compile = .ok k := by
  have hvars : ∀ x, pathClause.Has x → x ∈ ["X", "Y", "Z", "_"] := by
    intro x hx
    simp [Clause.Has, pathClause, Term.read, Term.readAll, Term.readCells] at hx
    simp
    tauto
  have hnamed : ∀ x ∈ ["X", "Y", "Z", "_"],
      x ≠ Term.anonymous → exchangeXY x ≠ Term.anonymous := by
    decide
  have hinjective : ∀ x ∈ ["X", "Y", "Z", "_"], ∀ y ∈ ["X", "Y", "Z", "_"],
      exchangeXY x = exchangeXY y → x = y := by
    decide
  obtain ⟨k, -, -, -, -, hk, -⟩ := Clause.exists_compile (c := pathClause) (n := pathNormal) rfl
  refine ⟨k, hk, (Clause.compile_rename rfl (fun x hx => hnamed x (hvars x hx))
    (fun x y hx hy => hinjective x (hvars x hx) y (hvars y hy)) k).2 hk⟩

end ClauseCode
