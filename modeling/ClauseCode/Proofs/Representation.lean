import ClauseCode.Proofs.Variables

/-!
# How terms are represented

Terms come out of operations that build them, take them apart, bring clauses into normal form and
read JSON.  Whatever the operations and their order, the tail of a list is no list, a variable has
the name of one, and a compound or a list remembers a variable exactly if one occurs in it.

That a term remembers the right thing is said here by the occurrences of variables in it, while the
operations go by what its parts remember; in a term where this holds everywhere, both are the same
(`Term.everywhere_shaped_iff`).  The operations make no terms that the constructors do not make
(`Term.Obtained.built`), and so the terms that they make are exactly those of the right
representation (`Term.obtained_iff_represented`).
-/

namespace ClauseCode

namespace Term

/-- Whether a term is represented as it should be, apart from the terms within it.  A list has at
least one head by its type, and an integer has 64 bits. -/
def Represented : Term → Prop
  | atom _ => True
  | int n => Decimal.Fits n
  | var x => Spelling.isVar x = true
  | comp f args b => b = true ↔ ∃ x, x ∈ (comp f args b).varOccurrences
  | list head rest tail b =>
    1 ≤ (head :: rest).length ∧ tail.isChain = false ∧
      (b = true ↔ ∃ x, x ∈ (list head rest tail b).varOccurrences)

/-- The terms that come out of any sequence of operations, from atoms, integers and the names of
variables on. -/
inductive Obtained : Term → Prop
  | atom (name : String) : Obtained (.atom name)
  | int {n : Int} (hn : Decimal.Fits n) : Obtained (.int n)
  | ofName {x : String} {t : Term} (ht : ofName x = .ok t) : Obtained t
  | apply (f : String) {args : List Term} (hargs : ∀ t ∈ args, Obtained t) :
      Obtained (apply f args)
  | ofList {ts : List Term} (hts : ∀ t ∈ ts, Obtained t) : Obtained (ofList ts)
  | prepend {ts : List Term} {tail : Term} (hts : ∀ t ∈ ts, Obtained t) (htail : Obtained tail) :
      Obtained (prepend ts tail)
  | ofImproper {ts : List Term} {t : Term} (hts : ∀ u ∈ ts, Obtained u)
      (ht : ofImproper ts = some t) : Obtained t
  | slice {t u : Term} {n : Int} (ht : Obtained t) (hu : t.slice n = .ok u) : Obtained u
  | cellHead {t head tail : Term} (ht : Obtained t) (hcell : t.cell = .ok (head, tail)) :
      Obtained head
  | cellTail {t head tail : Term} (ht : Obtained t) (hcell : t.cell = .ok (head, tail)) :
      Obtained tail
  | normalHead {c : Clause} {n : NormalClause} (hhead : Obtained c.head)
      (hbody : ∀ t ∈ c.body, Obtained t) (hn : c.normalize = .ok n) : Obtained n.head.toTerm
  | normalGoal {c : Clause} {n : NormalClause} {g : Compound} (hhead : Obtained c.head)
      (hbody : ∀ t ∈ c.body, Obtained t) (hn : c.normalize = .ok n) (hg : g ∈ n.body) :
      Obtained g.toTerm
  | ofJson {v : Json} {t : Term} (ht : ofJson v = .ok t) : Obtained t

variable {t : Term} {ts : List Term}

/-! ### What is remembered and what occurs -/

theorem Everywhere.self {p : Term → Prop} (h : t.Everywhere p) : p t := by
  cases t with
  | atom | int | var => exact h
  | comp f args b => exact h.1
  | list head rest tail b => exact h.1

theorem Represented.hasVar_iff (h : t.Represented) :
    t.hasVar = true ↔ ∃ x, x ∈ t.varOccurrences := by
  cases t with
  | atom | int | var => simp [hasVar, varOccurrences]
  | comp f args b => exact h
  | list head rest tail b => exact h.2.2

theorem any_hasVar_iff (h : ∀ t ∈ ts, t.Represented) :
    ts.any hasVar = true ↔ ∃ x, x ∈ varOccurrencesAll ts := by
  rw [List.any_eq_true]
  constructor
  · rintro ⟨t, ht, hvar⟩
    obtain ⟨x, hx⟩ := (h t ht).hasVar_iff.1 hvar
    exact ⟨x, mem_varOccurrencesAll.2 ⟨t, ht, hx⟩⟩
  · rintro ⟨x, hx⟩
    obtain ⟨t, ht, hxt⟩ := mem_varOccurrencesAll.1 hx
    exact ⟨t, ht, (h t ht).hasVar_iff.2 ⟨x, hxt⟩⟩

theorem everywhereAll_congr {p q : Term → Prop}
    (h : ∀ t ∈ ts, (t.Everywhere p ↔ t.Everywhere q)) :
    EverywhereAll p ts ↔ EverywhereAll q ts := by
  rw [everywhereAll_iff, everywhereAll_iff]
  exact forall₂_congr h

/-- What a compound or a list computes from what its parts remember is whether a variable occurs in
it, as long as its parts remember the right thing. -/
theorem everywhere_shaped_iff : t.Everywhere Shaped ↔ t.Everywhere Represented := by
  induction t with
  | atom | int | var => exact Iff.rfl
  | comp f args b ih =>
    rw [Everywhere, Everywhere, everywhereAll_congr ih]
    refine and_congr_left fun hargs => ?_
    rw [everywhereAll_iff] at hargs
    rw [Shaped, Represented, varOccurrences, ← any_hasVar_iff fun t ht => (hargs t ht).self]
    exact Bool.eq_iff_iff
  | list head rest tail b ihead irest itail =>
    rw [Everywhere, Everywhere, ihead, everywhereAll_congr irest, itail]
    refine and_congr_left fun hparts => ?_
    obtain ⟨hhead, hrest, htail⟩ := hparts
    rw [everywhereAll_iff] at hrest
    have hvar : ((head :: rest).any hasVar || tail.hasVar) = true ↔
        ∃ x, x ∈ (list head rest tail b).varOccurrences := by
      rw [Bool.or_eq_true, List.any_cons, Bool.or_eq_true, hhead.self.hasVar_iff,
        any_hasVar_iff fun t ht => (hrest t ht).self, htail.self.hasVar_iff, varOccurrences,
        ← exists_or, ← exists_or]
      simp only [List.mem_append, or_assoc]
    have hcells : 1 ≤ (head :: rest).length := by
      rw [List.length_cons]
      omega
    rw [Shaped, Represented, ← hvar, ← Bool.eq_iff_iff, and_iff_right hcells]

theorem built_iff_represented : t.Built ↔ t.Everywhere Represented :=
  built_iff_shaped.trans everywhere_shaped_iff

/-! ### Normal forms -/

theorem built_headCompound {g : Compound} (ht : t.Built) (hg : Clause.headCompound t = some g) :
    g.toTerm.Built := by
  cases t with
  | atom name =>
    obtain rfl := Option.some.inj hg
    exact .apply name (by simp)
  | comp f args b =>
    obtain rfl := Option.some.inj hg
    exact .apply f fun u hu => ht.of_mem_children hu
  | int | var | list => simp [Clause.headCompound] at hg

theorem built_goalCompound {g : Compound} (ht : t.Built) (hg : Clause.goalCompound t = some g) :
    g.toTerm.Built := by
  cases t with
  | var x =>
    rw [Clause.goalCompound] at hg
    split at hg
    next => simp at hg
    next =>
      obtain rfl := Option.some.inj hg
      exact .apply "call" (List.forall_mem_singleton.2 ht)
  | atom | comp => exact built_headCompound ht hg
  | int | list => simp [Clause.goalCompound] at hg

/-! ### What the operations make -/

theorem built_ofImproper (hts : ∀ u ∈ ts, u.Built) (ht : ofImproper ts = some t) : t.Built := by
  cases ts with
  | nil => simp [ofImproper] at ht
  | cons u us =>
    obtain rfl := Option.some.inj ht
    refine .prepend (fun v hv => hts v (List.dropLast_subset _ hv)) (hts _ ?_)
    exact List.getLast_mem _

/-- The operations make no terms that the constructors do not make. -/
theorem Obtained.built (h : t.Obtained) : t.Built := by
  induction h with
  | atom name => exact .atom name
  | int hn => exact .int hn
  | ofName ht => exact .ofName ht
  | apply f _ ih => exact .apply f ih
  | ofList _ ih => exact .prepend ih (.atom _)
  | prepend _ _ ihts ihtail => exact .prepend ihts ihtail
  | ofImproper _ ht ih => exact built_ofImproper ih ht
  | slice _ hu ih => exact .slice ih hu
  | cellHead _ hcell ih => exact .cellHead ih hcell
  | cellTail _ hcell ih => exact .cellTail ih hcell
  | normalHead _ _ hn ihead _ => exact built_headCompound ihead (Clause.normalize_eq_ok hn).1
  | normalGoal _ _ hn hg _ ibody =>
    -- Each goal of the normal form is what a goal of the clause stands for.
    have hgoals := Clause.forall₂_goalCompounds (Clause.normalize_eq_ok hn).2
    have hall := (List.forall₂_and_left _ _).2 ⟨ibody, hgoals⟩
    exact forall_mem_of_forall₂ hall (fun _ _ ⟨ht, hgoal⟩ => built_goalCompound ht hgoal) _ hg
  | ofJson ht => exact built_ofJson ht

theorem Built.obtained (h : t.Built) : t.Obtained := by
  induction h with
  | atom name => exact .atom name
  | int hn => exact .int hn
  | ofName ht => exact .ofName ht
  | apply f _ ih => exact .apply f ih
  | prepend _ _ ihts ihtail => exact .prepend ihts ihtail
  | slice _ hu ih => exact .slice ih hu
  | cellHead _ hcell ih => exact .cellHead ih hcell
  | cellTail _ hcell ih => exact .cellTail ih hcell

/-- The terms that any sequence of operations makes are those that are represented as they should
be everywhere in them. -/
theorem obtained_iff_represented : t.Obtained ↔ t.Everywhere Represented :=
  ⟨fun h => built_iff_represented.1 h.built, fun h => (built_iff_represented.2 h).obtained⟩

end Term

end ClauseCode
