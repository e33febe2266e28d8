import ClauseCode.Proofs.Faithful
import ClauseCode.Proofs.Places

/-!
# Where variables are mentioned

A visit to an occurrence mentions the variable that is visited, if it is an argument, and the
variables directly below it.  So the visits to a head or a goal mention each variable that occurs
there, the anonymous one apart (`Compound.exists_mem_mentions`).

Of all mentions of a variable, only the first one counts (`Mention.note`).  In a head the arguments
are visited before anything below them.  The first mention of a variable is therefore an argument of
the head if and only if the variable is neither an earlier argument nor directly below one
(`NormalClause.find?_mentions`).
-/

namespace ClauseCode

/-- A variable that is met, with the number of the head argument that it is. -/
abbrev Mention : Type := String × Option Int

namespace Mention

/-- Only the first mention of a variable counts. -/
def note (seen : List Mention) (m : Mention) : List Mention :=
  if m.1 ∈ seen.map Prod.fst then seen else m :: seen

variable {seen ms : List Mention} {x : String} {arg : Option Int}

theorem note_of_mem {m : Mention} (h : m.1 ∈ seen.map Prod.fst) : note seen m = seen := if_pos h

theorem note_of_not_mem {m : Mention} (h : m.1 ∉ seen.map Prod.fst) : note seen m = m :: seen :=
  if_neg h

theorem nodup_foldl_note (h : (seen.map Prod.fst).Nodup) :
    ((ms.foldl note seen).map Prod.fst).Nodup := by
  induction ms generalizing seen with
  | nil => exact h
  | cons m ms ih =>
    rw [List.foldl_cons]
    refine ih ?_
    by_cases hm : m.1 ∈ seen.map Prod.fst
    · rw [note_of_mem hm]
      exact h
    · rw [note_of_not_mem hm, List.map_cons, List.nodup_cons]
      exact ⟨hm, h⟩

/-- What is noted was noted before, or is the first mention of a variable that was not. -/
theorem mem_foldl_note :
    (x, arg) ∈ ms.foldl note seen ↔
      (x, arg) ∈ seen ∨ x ∉ seen.map Prod.fst ∧ ms.find? (fun m => m.1 = x) = some (x, arg) := by
  induction ms generalizing seen with
  | nil => simp
  | cons m ms ih =>
    rw [List.foldl_cons, ih]
    by_cases hm : m.1 ∈ seen.map Prod.fst
    · rw [note_of_mem hm]
      refine or_congr_right (and_congr_right fun hx => ?_)
      have hne : m.1 ≠ x := fun h => hx (h ▸ hm)
      rw [List.find?_cons_of_neg (by simpa using hne)]
    · rw [note_of_not_mem hm, List.map_cons, List.mem_cons, List.mem_cons, not_or]
      by_cases hne : m.1 = x
      · -- The mention at hand is the first one of the variable.
        rw [List.find?_cons_of_pos (by simpa using hne), Option.some.injEq]
        have hnot : (x, arg) ∉ seen := fun h => hm (hne ▸ List.mem_map.2 ⟨_, h, rfl⟩)
        subst hne
        simp only [hnot, or_false, not_true_eq_false, false_and, hm, not_false_eq_true, true_and,
          false_or]
        exact eq_comm
      · rw [List.find?_cons_of_neg (by simpa using hne)]
        have hpair : (x, arg) ≠ m := by
          rintro rfl
          exact hne rfl
        simp only [hpair, false_or, Ne.symm hne, not_false_eq_true, true_and]

theorem mem_foldl_note_nil :
    (x, arg) ∈ ms.foldl note [] ↔ ms.find? (fun m => m.1 = x) = some (x, arg) := by
  simp [mem_foldl_note]

theorem exists_find?_iff : (∃ arg, ms.find? (fun m => m.1 = x) = some (x, arg)) ↔
    ∃ arg, (x, arg) ∈ ms := by
  constructor
  · rintro ⟨arg, h⟩
    exact ⟨arg, List.mem_of_find?_eq_some h⟩
  · rintro ⟨arg, h⟩
    obtain ⟨⟨y, arg'⟩, hfind⟩ : ∃ m, ms.find? (fun m => m.1 = x) = some m :=
      Option.isSome_iff_exists.1 (List.find?_isSome.2 ⟨_, h, by simp⟩)
    obtain rfl : y = x := by simpa using List.find?_some hfind
    exact ⟨arg', hfind⟩

/-- The mentions of a term that is a variable with a name. -/
def ofTerm (arg : Option Int) : Term → List Mention
  | .var x => if x = Term.anonymous then [] else [(x, arg)]
  | _ => []

theorem ofTerm_of_kind? {t : Term} {k : Kind} (h : t.kind? = some k) (arg : Option Int) :
    ofTerm arg t = [] := by
  cases t with
  | comp | list => rfl
  | atom | int | var => simp [Term.kind?] at h

theorem ofTerm_constant {t : Term} {c : Constant} (h : t.read = .constant c) (arg : Option Int) :
    ofTerm arg t = [] := by
  cases t with
  | atom | int => rfl
  | var | comp | list => simp [Term.read] at h

theorem mem_ofTerm {t : Term} {arg arg' : Option Int} :
    (x, arg') ∈ ofTerm arg t ↔ t = .var x ∧ x ≠ Term.anonymous ∧ arg' = arg := by
  cases t with
  | var y =>
    rw [ofTerm]
    split
    next hy =>
      simp only [List.not_mem_nil, Term.var.injEq, false_iff, not_and]
      rintro rfl hx
      exact absurd hy hx
    next hy =>
      rw [List.mem_singleton, Prod.mk.injEq, Term.var.injEq]
      constructor
      · rintro ⟨rfl, rfl⟩
        exact ⟨rfl, hy, rfl⟩
      · rintro ⟨rfl, -, rfl⟩
        exact ⟨rfl, rfl⟩
  | atom | int | comp | list => simp [ofTerm]

/-- All mentions by the same terms are alike, so that the first one is known. -/
theorem find?_flatMap_ofTerm {ts : List Term} (hx : x ≠ Term.anonymous) (h : .var x ∈ ts)
    (arg : Option Int) :
    (ts.flatMap (ofTerm arg)).find? (fun m => m.1 = x) = some (x, arg) := by
  have hmem : (x, arg) ∈ ts.flatMap (ofTerm arg) :=
    List.mem_flatMap.2 ⟨_, h, mem_ofTerm.2 ⟨rfl, hx, rfl⟩⟩
  obtain ⟨arg', hfind⟩ := exists_find?_iff.2 ⟨arg, hmem⟩
  obtain ⟨t, -, ht⟩ := List.mem_flatMap.1 (List.mem_of_find?_eq_some hfind)
  rw [hfind, (mem_ofTerm.1 ht).2.2]

theorem find?_flatMap_ofTerm_eq_none {ts : List Term} (h : .var x ∉ ts) (arg : Option Int) :
    (ts.flatMap (ofTerm arg)).find? (fun m => m.1 = x) = none := by
  rw [List.find?_eq_none]
  rintro ⟨y, arg'⟩ hy heq
  obtain rfl : y = x := by simpa using heq
  obtain ⟨t, ht, hyt⟩ := List.mem_flatMap.1 hy
  exact h ((mem_ofTerm.1 hyt).1 ▸ ht)

end Mention

open Mention (note ofTerm)

namespace Occurrence

/-- The variables that a visit to an occurrence mentions, with `k` as its argument number if it is
shallow. -/
def mentions (dir : Direction) (k : ℕ) (o : Occurrence) : List Mention :=
  (if o.level = .shallow then ofTerm (Draft.firstArg dir k) o.term else []) ++
    o.term.children.flatMap (ofTerm none)

/-- The variables that visits mention, one after another, from argument number `k` on. -/
def mentionsFrom (dir : Direction) : ℕ → List Occurrence → List Mention
  | _, [] => []
  | k, o :: os =>
    if o.isRoot then mentionsFrom dir k os
    else if o.level = .shallow then o.mentions dir k ++ mentionsFrom dir (k + 1) os
    else o.mentions dir 0 ++ mentionsFrom dir k os

end Occurrence

/-! ### The variables that are mentioned -/

namespace Occurrence

variable {o c : Occurrence} {x : String}

theorem term_mem_children (h : c ∈ o.children) : c.term ∈ o.term.children := by
  rw [← map_term_children]
  exact List.mem_map.2 ⟨c, h, rfl⟩

theorem exists_mem_children {t : Term} (h : t ∈ o.term.children) :
    ∃ c ∈ o.children, c.term = t := by
  rw [← map_term_children] at h
  exact List.mem_map.1 h

/-- The variables of a term are the variables among its subterms. -/
theorem mem_vars_read : x ∈ o.term.read.vars ↔ ∃ c ∈ o.inside, c.term = .var x := by
  induction o using inductionOn with
  | step o ih =>
    cases hkind : o.term.kind? with
    | some kind =>
      have hne : o.term ≠ .var x := by
        intro h
        simp [h, Term.kind?] at hkind
      rw [Term.read_eq_node hkind, Tree.mem_vars_node]
      constructor
      · rintro ⟨u, hu, hx⟩
        obtain ⟨t, ht, rfl⟩ := List.mem_map.1 hu
        obtain ⟨c, hc, rfl⟩ := exists_mem_children ht
        obtain ⟨p, hp, hterm⟩ := (ih c hc).1 hx
        exact ⟨p, mem_inside_iff.2 (Or.inl ⟨c, hc, hp⟩), hterm⟩
      · rintro ⟨p, hp, hterm⟩
        rcases mem_inside_iff.1 hp with ⟨c, hc, hp⟩ | rfl
        · exact ⟨_, List.mem_map.2 ⟨c.term, term_mem_children hc, rfl⟩,
            (ih c hc).2 ⟨p, hp, hterm⟩⟩
        · exact absurd hterm hne
    | none =>
      have hinside : o.inside = [o] := by
        rw [inside_eq, children_eq_nil (Term.children_eq_nil_of_kind? hkind), List.flatMap_nil,
          List.nil_append]
      rw [hinside]
      rcases Term.var_or_constant hkind with ⟨y, hy⟩ | ⟨a, ha⟩
      · simp [hy, Term.read, eq_comm]
      · have hne : o.term ≠ .var x := by
          intro h
          simp [h, Term.read] at ha
        simp [ha, hne]

theorem exists_mem_mentions {dir : Direction} {k : ℕ} :
    (∃ arg, (x, arg) ∈ o.mentions dir k) ↔ x ≠ Term.anonymous ∧
      (o.level = .shallow ∧ o.term = .var x ∨ .var x ∈ o.term.children) := by
  simp only [mentions, List.mem_append, List.mem_flatMap, Mention.mem_ofTerm]
  constructor
  · rintro ⟨arg, harg | ⟨t, ht, rfl, hx, -⟩⟩
    · split at harg
      next hlevel =>
        obtain ⟨hterm, hx, -⟩ := Mention.mem_ofTerm.1 harg
        exact ⟨hx, Or.inl ⟨hlevel, hterm⟩⟩
      next => simp at harg
    · exact ⟨hx, Or.inr ht⟩
  · rintro ⟨hx, ⟨hlevel, hterm⟩ | ht⟩
    · refine ⟨Draft.firstArg dir k, Or.inl ?_⟩
      rw [if_pos hlevel]
      exact Mention.mem_ofTerm.2 ⟨hterm, hx, rfl⟩
    · exact ⟨none, Or.inr ⟨_, ht, rfl, hx, rfl⟩⟩

theorem exists_mem_mentionsFrom {dir : Direction} {k : ℕ} {os : List Occurrence} :
    (∃ arg, (x, arg) ∈ mentionsFrom dir k os) ↔ x ≠ Term.anonymous ∧
      ∃ o ∈ os, o.isRoot = false ∧
        (o.level = .shallow ∧ o.term = .var x ∨ .var x ∈ o.term.children) := by
  induction os generalizing k with
  | nil => simp [mentionsFrom]
  | cons o os ih =>
    rw [mentionsFrom]
    by_cases hroot : o.isRoot = true
    · rw [if_pos hroot, ih]
      simp [hroot]
    · have hroot' : o.isRoot = false := Bool.eq_false_iff.2 hroot
      rw [if_neg hroot]
      have hsplit : ∀ i j, (∃ arg, (x, arg) ∈ o.mentions dir i ++ mentionsFrom dir j os) ↔
          x ≠ Term.anonymous ∧ ∃ o' ∈ o :: os, o'.isRoot = false ∧
            (o'.level = .shallow ∧ o'.term = .var x ∨ .var x ∈ o'.term.children) := by
        intro i j
        simp only [List.mem_append, exists_or, exists_mem_mentions, ih, List.mem_cons]
        constructor
        · rintro (⟨hx, h⟩ | ⟨hx, o', ho', h⟩)
          · exact ⟨hx, o, Or.inl rfl, hroot', h⟩
          · exact ⟨hx, o', Or.inr ho', h⟩
        · rintro ⟨hx, o', rfl | ho', h⟩
          · exact Or.inl ⟨hx, h.2⟩
          · exact Or.inr ⟨hx, o', ho', h⟩
      split
      · exact hsplit k (k + 1)
      · exact hsplit 0 k

/-- Only a visit to an argument of a head mentions an argument. -/
theorem snd_of_mem_mentions {dir : Direction} {k : ℕ} {m : Mention}
    (h : dir = .build ∨ 2 ≤ o.depth) (hm : m ∈ o.mentions dir k) : m.2 = none := by
  obtain ⟨x, arg⟩ := m
  rcases List.mem_append.1 hm with hm | hm
  · split at hm
    next hlevel =>
      rcases h with rfl | hdepth
      · exact (Mention.mem_ofTerm.1 hm).2.2
      · simp [Draft.level_deep hdepth] at hlevel
    next => simp at hm
  · obtain ⟨t, -, ht⟩ := List.mem_flatMap.1 hm
    exact (Mention.mem_ofTerm.1 ht).2.2

theorem snd_of_mem_mentionsFrom {dir : Direction} {k : ℕ} {os : List Occurrence} {m : Mention}
    (h : dir = .build ∨ ∀ o ∈ os, 2 ≤ o.depth) (hm : m ∈ mentionsFrom dir k os) : m.2 = none := by
  induction os generalizing k with
  | nil => simp [mentionsFrom] at hm
  | cons o os ih =>
    have hfirst : dir = .build ∨ 2 ≤ o.depth := h.imp_right fun h => h o (by simp)
    have hrest : dir = .build ∨ ∀ o ∈ os, 2 ≤ o.depth :=
      h.imp_right fun h o' ho' => h o' (by simp [ho'])
    rw [mentionsFrom] at hm
    split at hm
    · exact ih hrest hm
    · split at hm
      · rcases List.mem_append.1 hm with hm | hm
        · exact snd_of_mem_mentions hfirst hm
        · exact ih hrest hm
      · rcases List.mem_append.1 hm with hm | hm
        · exact snd_of_mem_mentions hfirst hm
        · exact ih hrest hm

end Occurrence

namespace Compound

variable {dir : Direction} {c : Compound} {x : String}

/-- The variables that the visits to a head or a goal mention. -/
def mentions (dir : Direction) (c : Compound) : List Mention :=
  Occurrence.mentionsFrom dir 0 (dir.traversal c.toTerm).collect

theorem mem_collect {o : Occurrence} (hroot : o.isRoot = false) :
    o ∈ (dir.traversal c.toTerm).collect ↔
      ∃ r ∈ (Occurrence.root c.toTerm).children, o ∈ r.inside := by
  cases dir with
  | check => exact Traversal.mem_collect_levels
  | build => exact Traversal.mem_collect_bottomUp hroot

/-- The variables that are mentioned are those that occur, the anonymous one apart. -/
theorem exists_mem_mentions :
    (∃ arg, (x, arg) ∈ c.mentions dir) ↔ x ≠ Term.anonymous ∧ c.Has x := by
  rw [mentions, Occurrence.exists_mem_mentionsFrom]
  refine and_congr_right fun hx => ?_
  constructor
  · rintro ⟨o, ho, hroot, hmention⟩
    obtain ⟨r, hr, hor⟩ := (mem_collect hroot).1 ho
    refine ⟨r.term, Occurrence.term_mem_children hr, Occurrence.mem_vars_read.2 ?_⟩
    rcases hmention with ⟨-, hterm⟩ | hchild
    · exact ⟨o, hor, hterm⟩
    · obtain ⟨p, hp, hterm⟩ := Occurrence.exists_mem_children hchild
      exact ⟨p, Occurrence.mem_inside_of_mem_children hor hp, hterm⟩
  · rintro ⟨t, ht, hxt⟩
    obtain ⟨r, hr, rfl⟩ : ∃ r ∈ (Occurrence.root c.toTerm).children, r.term = t :=
      Occurrence.exists_mem_children ht
    have hdepth : r.depth = 1 := Occurrence.depth_of_mem_children hr
    have hvisited : ∀ o ∈ r.inside, o ∈ (dir.traversal c.toTerm).collect ∧ o.isRoot = false := by
      intro o ho
      have hle := Occurrence.depth_le_of_mem_inside ho
      have hroot : o.isRoot = false := by
        rw [Occurrence.isRoot, decide_eq_false_iff_not]
        omega
      exact ⟨(mem_collect hroot).2 ⟨r, hr, ho⟩, hroot⟩
    obtain ⟨o, ho, hterm⟩ := Occurrence.mem_vars_read.1 hxt
    -- The variable is the argument itself, or directly below something that is visited.
    rcases Occurrence.eq_or_mem_children_of_mem_inside ho with rfl | ⟨p, hp, hop⟩
    · obtain ⟨hmem, hroot⟩ := hvisited o ho
      have hlevel : o.level = .shallow := if_pos (by omega)
      exact ⟨o, hmem, hroot, Or.inl ⟨hlevel, hterm⟩⟩
    · obtain ⟨hmem, hroot⟩ := hvisited p hp
      exact ⟨p, hmem, hroot, Or.inr (hterm ▸ Occurrence.term_mem_children hop)⟩

/-! ### First mentions in a head -/

/-- Argument `k` is a variable that is neither an earlier argument nor directly below one. -/
structure MeetsFirst (args : List Term) (x : String) (k : ℕ) : Prop where
  arg : args[k]? = some (.var x)
  earlier : ∀ j < k, ∀ t, args[j]? = some t → t ≠ .var x ∧ .var x ∉ t.children

/-- The mentions of arguments from number `i` on, and of what is directly below them. -/
def mentionsOfArgs (i : ℕ) : List Term → List Mention
  | [] => []
  | t :: ts =>
    [t].flatMap (ofTerm (some (i : Int))) ++ (t.children.flatMap (ofTerm none) ++
      mentionsOfArgs (i + 1) ts)

theorem meetsFirst_cons_zero {args : List Term} {t : Term} {x : String} :
    MeetsFirst (t :: args) x 0 ↔ t = .var x := by
  constructor
  · intro h
    simpa using h.arg
  · rintro rfl
    exact ⟨rfl, by simp⟩

theorem meetsFirst_cons_succ {args : List Term} {t : Term} {x : String} {k : ℕ} :
    MeetsFirst (t :: args) x (k + 1) ↔
      t ≠ .var x ∧ .var x ∉ t.children ∧ MeetsFirst args x k := by
  constructor
  · intro h
    obtain ⟨hne, hchildren⟩ := h.earlier 0 (Nat.succ_pos k) t rfl
    refine ⟨hne, hchildren, h.arg, fun j hj u hu => h.earlier (j + 1) (by omega) u hu⟩
  · rintro ⟨hne, hchildren, harg, hearlier⟩
    refine ⟨harg, fun j hj u hu => ?_⟩
    cases j with
    | zero =>
      obtain rfl : t = u := by simpa using hu
      exact ⟨hne, hchildren⟩
    | succ j => exact hearlier j (by omega) u hu

/-- The first mention of a variable among arguments and what is directly below them. -/
theorem find?_mentionsOfArgs {x : String} (hx : x ≠ Term.anonymous) (ts : List Term) (i : ℕ)
    (r : Int) :
    (mentionsOfArgs i ts).find? (fun m => m.1 = x) = some (x, some r) ↔
      ∃ k : ℕ, r = i + k ∧ MeetsFirst ts x k := by
  induction ts generalizing i with
  | nil =>
    simp only [mentionsOfArgs, List.find?_nil, false_iff, reduceCtorEq, not_exists, not_and]
    rintro k - ⟨harg, -⟩
    simp at harg
  | cons t ts ih =>
    rw [mentionsOfArgs, List.find?_append, List.find?_append]
    by_cases ht : t = .var x
    · -- The argument is the variable.
      rw [Mention.find?_flatMap_ofTerm hx (by simp [ht]), Option.some_or, Option.some.injEq,
        Prod.mk.injEq, Option.some.injEq]
      constructor
      · rintro ⟨-, rfl⟩
        exact ⟨0, by simp, meetsFirst_cons_zero.2 ht⟩
      · rintro ⟨k, rfl, hk⟩
        cases k with
        | zero => simp
        | succ k => exact absurd ht (meetsFirst_cons_succ.1 hk).1
    rw [Mention.find?_flatMap_ofTerm_eq_none (by simpa using Ne.symm ht), Option.none_or]
    by_cases hchild : .var x ∈ t.children
    · -- The variable is directly below the argument.
      rw [Mention.find?_flatMap_ofTerm hx hchild, Option.some_or]
      refine iff_of_false (by simp) ?_
      rintro ⟨k, -, hk⟩
      cases k with
      | zero => exact ht (meetsFirst_cons_zero.1 hk)
      | succ k => exact (meetsFirst_cons_succ.1 hk).2.1 hchild
    · rw [Mention.find?_flatMap_ofTerm_eq_none hchild, Option.none_or, ih]
      constructor
      · rintro ⟨k, rfl, hk⟩
        exact ⟨k + 1, by omega, meetsFirst_cons_succ.2 ⟨ht, hchild, hk⟩⟩
      · rintro ⟨k, rfl, hk⟩
        cases k with
        | zero => exact absurd (meetsFirst_cons_zero.1 hk) ht
        | succ k => exact ⟨k, by omega, (meetsFirst_cons_succ.1 hk).2.2⟩

theorem mentionsFrom_childrenFrom (i : ℕ) (ts : List Term) (os : List Occurrence) :
    Occurrence.mentionsFrom .check i (Occurrence.childrenFrom 0 [] i ts ++ os) =
      mentionsOfArgs i ts ++ Occurrence.mentionsFrom .check (i + ts.length) os := by
  induction ts generalizing i with
  | nil => rfl
  | cons t ts ih =>
    have hvisit : Occurrence.mentionsFrom .check i
        (Occurrence.childrenFrom 0 [] i (t :: ts) ++ os) =
        (ofTerm (some (i : Int)) t ++ t.children.flatMap (ofTerm none)) ++
          Occurrence.mentionsFrom .check (i + 1) (Occurrence.childrenFrom 0 [] (i + 1) ts ++ os) :=
      rfl
    have hlength : i + 1 + ts.length = i + (t :: ts).length := by
      rw [List.length_cons]
      omega
    rw [hvisit, ih, hlength, mentionsOfArgs, List.flatMap_singleton, List.append_assoc,
      List.append_assoc, List.append_assoc]

/-- The mentions of a head begin with those of its arguments, and none of the others is a mention of
an argument. -/
theorem exists_mentions_check (c : Compound) :
    ∃ others, c.mentions .check = mentionsOfArgs 0 c.args ++ others ∧
      ∀ m ∈ others, m.2 = none := by
  obtain ⟨deep, hcollect, hdeep⟩ := Traversal.exists_collect_levels c.toTerm
  have hmentions := mentionsFrom_childrenFrom 0 c.args deep
  exact ⟨_, (congrArg (Occurrence.mentionsFrom .check 0) hcollect).trans hmentions,
    fun m hm => Occurrence.snd_of_mem_mentionsFrom (Or.inr hdeep) hm⟩

theorem snd_of_mem_mentions_build {m : Mention} (h : m ∈ c.mentions .build) : m.2 = none :=
  Occurrence.snd_of_mem_mentionsFrom (Or.inl rfl) h

end Compound

/-! ### Clauses -/

namespace NormalClause

variable {n : NormalClause} {x : String}

/-- The variables that the visits to the head and the goals of a clause mention. -/
def mentions (n : NormalClause) : List Mention :=
  n.head.mentions .check ++ n.body.flatMap (Compound.mentions .build)

theorem exists_mem_mentions :
    (∃ arg, (x, arg) ∈ n.mentions) ↔
      x ≠ Term.anonymous ∧ (n.head.Has x ∨ ∃ g ∈ n.body, g.Has x) := by
  simp only [mentions, List.mem_append, List.mem_flatMap, exists_or, Compound.exists_mem_mentions]
  constructor
  · rintro (⟨hx, hhead⟩ | ⟨arg, g, hg, hmem⟩)
    · exact ⟨hx, Or.inl hhead⟩
    · obtain ⟨hx, hhas⟩ := Compound.exists_mem_mentions.1 ⟨arg, hmem⟩
      exact ⟨hx, Or.inr ⟨g, hg, hhas⟩⟩
  · rintro ⟨hx, hhead | ⟨g, hg, hhas⟩⟩
    · exact Or.inl ⟨hx, hhead⟩
    · obtain ⟨arg, hmem⟩ := Compound.exists_mem_mentions.2 ⟨hx, hhas⟩
      exact Or.inr ⟨arg, g, hg, hmem⟩

/-- The first mention of a variable is an argument of the head if and only if the variable is
neither an earlier argument nor directly below one. -/
theorem find?_mentions {arg : Option Int}
    (h : n.mentions.find? (fun m => m.1 = x) = some (x, arg)) (r : Int) :
    arg = some r ↔ ∃ k : ℕ, r = k ∧ Compound.MeetsFirst n.head.args x k := by
  obtain ⟨hx, -⟩ := exists_mem_mentions.1 ⟨arg, List.mem_of_find?_eq_some h⟩
  obtain ⟨others, hothers, hnone⟩ := n.head.exists_mentions_check
  have hargs : (Compound.mentionsOfArgs 0 n.head.args).find? (fun m => m.1 = x) =
      some (x, some r) ↔ ∃ k : ℕ, r = k ∧ Compound.MeetsFirst n.head.args x k := by
    simpa using Compound.find?_mentionsOfArgs hx n.head.args 0 r
  rw [mentions, hothers, List.append_assoc, List.find?_append] at h
  rw [← hargs]
  constructor
  · rintro rfl
    cases hfind : (Compound.mentionsOfArgs 0 n.head.args).find? (fun m => m.1 = x) with
    | some m =>
      rw [hfind, Option.some_or] at h
      exact h
    | none =>
      rw [hfind, Option.none_or] at h
      rcases List.mem_append.1 (List.mem_of_find?_eq_some h) with hmem | hmem
      · exact absurd (hnone _ hmem) (by simp)
      · obtain ⟨g, -, hg⟩ := List.mem_flatMap.1 hmem
        exact absurd (Compound.snd_of_mem_mentions_build hg) (by simp)
  · intro hfind
    rw [hfind, Option.some_or, Option.some.injEq, Prod.mk.injEq] at h
    exact h.2.symm

end NormalClause

end ClauseCode
