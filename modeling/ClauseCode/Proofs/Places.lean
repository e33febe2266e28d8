import ClauseCode.Proofs.Recursion
import ClauseCode.Proofs.Traversal
import Mathlib.Data.List.Pairwise

/-!
# Places

A draft finds the register of a nested term by the place where the term stands.  Occurrences in
different branches of a term are apart, so that their places are never confused.  Most operations
of a draft leave the places alone that it knows (`SamePlaces`); a visit to an occurrence below the
arguments asks for the places of this occurrence and of its children only.

An argument is known by the number of arguments visited before it.  That number is right, since the
arguments are visited in their order (`Direction.arguments_traversal`).
-/

namespace ClauseCode

namespace Occurrence

/-- Two occurrences are apart if no occurrence is below both. -/
def Apart (o o' : Occurrence) : Prop := ∀ path, o.path <:+ path → ¬ o'.path <:+ path

variable {o o' c : Occurrence}

theorem Apart.symm (h : Apart o o') : Apart o' o := fun path h' h'' => h path h'' h'

theorem Apart.path_ne (h : Apart o o') : o.path ≠ o'.path := by
  intro heq
  exact h o.path (List.suffix_refl _) (heq ▸ List.suffix_refl _)

theorem mem_childrenFrom {depth : Nat} {path : List Nat} {i : Nat} {ts : List Term}
    (h : c ∈ childrenFrom depth path i ts) :
    c.depth = depth + 1 ∧ ∃ j, i ≤ j ∧ c.path = j :: path := by
  induction ts generalizing i with
  | nil => simp [childrenFrom] at h
  | cons t ts ih =>
    rw [childrenFrom] at h
    rcases List.mem_cons.1 h with rfl | h
    · exact ⟨rfl, i, Nat.le_refl i, rfl⟩
    · obtain ⟨hd, j, hj, hp⟩ := ih h
      exact ⟨hd, j, by omega, hp⟩

theorem depth_of_mem_children (h : c ∈ o.children) : c.depth = o.depth + 1 :=
  (mem_childrenFrom h).1

theorem path_of_mem_children (h : c ∈ o.children) : ∃ j, c.path = j :: o.path := by
  obtain ⟨-, j, -, hp⟩ := mem_childrenFrom h
  exact ⟨j, hp⟩

theorem suffix_of_mem_children (h : c ∈ o.children) : o.path <:+ c.path := by
  obtain ⟨j, hj⟩ := path_of_mem_children h
  rw [hj]
  exact List.suffix_cons j o.path

theorem path_ne_of_mem_children {path : List Nat} (h : c ∈ o.children) (hp : c.path <:+ path) :
    path ≠ o.path := by
  rintro rfl
  obtain ⟨j, hj⟩ := path_of_mem_children h
  have := hp.length_le
  rw [hj, List.length_cons] at this
  omega

theorem depth_le_of_mem_inside (h : c ∈ o.inside) : o.depth ≤ c.depth := by
  induction mem_inside_iff_within.1 h with
  | self => exact Nat.le_refl _
  | child hp hc ih =>
    have hle := ih (mem_inside_iff_within.2 hp)
    have hdepth := depth_of_mem_children hc
    omega

theorem Apart.of_mem_children (h : Apart o o') (hc : c ∈ o.children) : Apart c o' :=
  fun path hp => h path ((suffix_of_mem_children hc).trans hp)

theorem pairwise_apart_childrenFrom (depth : Nat) (path : List Nat) (i : Nat) (ts : List Term) :
    (childrenFrom depth path i ts).Pairwise Apart := by
  induction ts generalizing i with
  | nil => exact List.Pairwise.nil
  | cons t ts ih =>
    rw [childrenFrom]
    refine List.Pairwise.cons (fun c hc l hi hl => ?_) (ih (i + 1))
    obtain ⟨-, j, hj, hp⟩ := mem_childrenFrom hc
    rw [hp] at hl
    have hsuf : i :: path <:+ j :: path := List.suffix_of_suffix_length_le hi hl (by simp)
    have heq := hsuf.eq_of_length (by simp)
    have : i = j := (List.cons.inj heq).1
    omega

theorem pairwise_apart_children (o : Occurrence) : o.children.Pairwise Apart :=
  pairwise_apart_childrenFrom _ _ _ _

theorem map_term_childrenFrom (depth : Nat) (path : List Nat) (i : Nat) (ts : List Term) :
    (childrenFrom depth path i ts).map term = ts := by
  induction ts generalizing i with
  | nil => rfl
  | cons t ts ih => rw [childrenFrom, List.map_cons, ih]

theorem map_term_children (o : Occurrence) : o.children.map term = o.term.children :=
  map_term_childrenFrom o.depth o.path 0 o.term.children

theorem map_read_children (o : Occurrence) :
    o.children.map (fun c => c.term.read) = o.term.children.map Term.read := by
  rw [← map_term_children, List.map_map]
  rfl

end Occurrence

/-- A traversal level by level visits the children of the root, then only what is below them. -/
theorem Traversal.exists_collect_levels (t : Term) :
    ∃ deep, (levels t).collect = (Occurrence.root t).children ++ deep ∧
      ∀ o ∈ deep, 2 ≤ o.depth := by
  have hcollect := collect_breadthFirst [] (Occurrence.root t).children
  rw [List.append_nil, List.nil_append] at hcollect
  refine ⟨_, hcollect, fun o ho => ?_⟩
  obtain ⟨r, hr, ho⟩ := mem_collect_breadthFirst.1 ho
  obtain ⟨p, hp, hr⟩ := List.mem_flatMap.1 hr
  have hp₁ : p.depth = 1 := Occurrence.depth_of_mem_children hp
  have hr₂ := Occurrence.depth_of_mem_children hr
  have hle := Occurrence.depth_le_of_mem_inside ho
  omega

/-- The terms of the arguments among some occurrences. -/
def Occurrence.arguments (os : List Occurrence) : List Term :=
  (os.filter fun o => o.depth = 1).map term

namespace Occurrence

theorem arguments_cons (o : Occurrence) (os : List Occurrence) :
    arguments (o :: os) = if o.depth = 1 then o.term :: arguments os else arguments os := by
  by_cases h : o.depth = 1
  · simp [arguments, h]
  · simp [arguments, h]

theorem arguments_append (os os' : List Occurrence) :
    arguments (os ++ os') = arguments os ++ arguments os' := by
  simp [arguments]

theorem arguments_eq_nil {os : List Occurrence} (h : ∀ o ∈ os, o.depth ≠ 1) :
    arguments os = [] := by
  simpa [arguments] using h

theorem arguments_inside {o : Occurrence} (h : o.depth = 1) : arguments o.inside = [o.term] := by
  have hbelow : arguments (o.children.flatMap inside) = [] := by
    refine arguments_eq_nil fun p hp => ?_
    obtain ⟨c, hc, hp⟩ := List.mem_flatMap.1 hp
    have hdepth := depth_of_mem_children hc
    have hle := depth_le_of_mem_inside hp
    omega
  rw [inside_eq, arguments_append, hbelow, arguments_cons, if_pos h]
  rfl

theorem arguments_childrenFrom (path : List Nat) (i : Nat) (ts : List Term) :
    arguments (childrenFrom 0 path i ts) = ts := by
  induction ts generalizing i with
  | nil => rfl
  | cons t ts ih => rw [childrenFrom, arguments_cons, if_pos rfl, ih]

theorem arguments_flatMap_inside (path : List Nat) (i : Nat) (ts : List Term) :
    arguments ((childrenFrom 0 path i ts).flatMap inside) = ts := by
  induction ts generalizing i with
  | nil => rfl
  | cons t ts ih =>
    rw [childrenFrom, List.flatMap_cons, arguments_append, arguments_inside rfl, ih]
    rfl

end Occurrence

/-- In both directions the arguments are visited in their order. -/
theorem Direction.arguments_traversal (dir : Direction) (t : Term) :
    Occurrence.arguments (dir.traversal t).collect = t.children := by
  cases dir with
  | check =>
    obtain ⟨deep, hcollect, hdeep⟩ := Traversal.exists_collect_levels t
    have hnil : Occurrence.arguments deep = [] :=
      Occurrence.arguments_eq_nil fun o ho => by
        have := hdeep o ho
        omega
    rw [traversal, hcollect, Occurrence.arguments_append, hnil, List.append_nil]
    exact Occurrence.arguments_childrenFrom [] 0 t.children
  | build =>
    rw [traversal, Traversal.collect_bottomUp, Occurrence.arguments_append]
    exact (List.append_nil _).trans (Occurrence.arguments_flatMap_inside [] 0 t.children)

/-- What is neither a compound nor a list is a variable or a constant. -/
theorem Term.var_or_constant {t : Term} (h : t.kind? = none) :
    (∃ x, t = .var x) ∨ ∃ c, t.read = .constant c := by
  cases t with
  | var x => exact Or.inl ⟨x, rfl⟩
  | atom name => exact Or.inr ⟨.atom name, rfl⟩
  | int n => exact Or.inr ⟨.int n, rfl⟩
  | comp | list => simp [kind?] at h

namespace Draft

open Occurrence

variable {P : Policy} {d d' : Draft P} {dir : Direction} {args : List Term} {o : Occurrence}
  {os : List Occurrence}

/-! ### Operations that leave the places alone -/

/-- Two drafts know the same places. -/
structure SamePlaces (d d' : Draft P) : Prop where
  slots : d'.slots = d.slots
  part : d'.part = d.part
  argsSeen : d'.argsSeen = d.argsSeen

theorem SamePlaces.refl (d : Draft P) : SamePlaces d d := ⟨rfl, rfl, rfl⟩

theorem SamePlaces.trans {d₁ d₂ d₃ : Draft P} (h : SamePlaces d₁ d₂) (h' : SamePlaces d₂ d₃) :
    SamePlaces d₁ d₃ :=
  ⟨h'.slots.trans h.slots, h'.part.trans h.part, h'.argsSeen.trans h.argsSeen⟩

theorem samePlaces_emit (d : Draft P) (i : Instruction) : SamePlaces d (d.emit i) := ⟨rfl, rfl, rfl⟩

theorem samePlaces_leaf (dir : Direction) (d : Draft P) (t : Tree String) :
    SamePlaces d (d.leaf dir t) := by
  cases t with
  | var x =>
    rw [leaf]
    split
    · exact samePlaces_emit d _
    · split
      · exact samePlaces_emit d _
      · exact ⟨rfl, rfl, rfl⟩
  | constant c => exact samePlaces_emit d _
  | node k ts => exact SamePlaces.refl d

theorem core_leaf (dir : Direction) (d : Draft P) (t : Tree String) :
    (d.leaf dir t).core = d.core.leaf dir t := by
  cases t with
  | var x =>
    rw [leaf, leaf, core_home?]
    split
    · rfl
    · split <;> rfl
  | constant c => rfl
  | node k ts => rfl

theorem relocate_places (d : Draft P) (args : List Term) (t : Term) (k : Nat) :
    d.core.relocate args t k = ((d.relocate args t k).1, (d.relocate args t k).2.core) ∧
      SamePlaces d (d.relocate args t k).2 := by
  unfold relocate
  rw [core_resident]
  rcases resident_cases d k with ⟨-, hres⟩ | ⟨x, -, hres⟩
  · rw [hres]
    exact ⟨rfl, SamePlaces.refl d⟩
  · rw [hres]
    by_cases hn : isNeeded args t k x = true
    · simp only [hn, if_true]
      exact ⟨rfl, rfl, rfl, rfl⟩
    · simp only [hn]
      exact ⟨rfl, rfl, rfl, rfl⟩

theorem free_places (dir : Direction) (d : Draft P) (args : List Term) (t : Term) (k : Nat) :
    (d.free dir args t k).core = d.core.free dir args t k ∧
      SamePlaces d (d.free dir args t k) := by
  cases dir with
  | check => exact ⟨rfl, SamePlaces.refl d⟩
  | build =>
    obtain ⟨hcore, hsame⟩ := relocate_places d args t k
    unfold free
    rw [hcore]
    generalize d.relocate args t k = p at hsame ⊢
    obtain ⟨r, d'⟩ := p
    cases r with
    | none => exact ⟨rfl, hsame⟩
    | some r => exact ⟨rfl, hsame.trans (samePlaces_emit d' _)⟩

theorem argVar_places (dir : Direction) (d : Draft P) (args : List Term) (k : Nat) (x : String) :
    (d.argVar dir args k x).core = d.core.argVar dir args k x ∧
      SamePlaces d (d.argVar dir args k x) := by
  by_cases hx : x = Term.anonymous
  · subst hx
    rw [argVar_blank, argVar_blank]
    cases dir with
    | check => exact ⟨rfl, SamePlaces.refl d⟩
    | build =>
      obtain ⟨hcore, hsame⟩ := free_places .build d args (.var Term.anonymous) k
      refine ⟨?_, hsame.slots, hsame.part, hsame.argsSeen⟩
      simp only [← hcore]
      rfl
  · cases hh : d.home? x with
    | some a =>
      obtain ⟨hcore, hsame⟩ := free_places dir d args (.var x) k
      rw [argVar_known hx hh, argVar_known hx ((core_home? d x).trans hh)]
      by_cases ha : a = .reg k
      · rw [if_pos ha, if_pos ha]
        exact ⟨rfl, SamePlaces.refl d⟩
      · rw [if_neg ha, if_neg ha, core_emit, hcore]
        exact ⟨rfl, hsame.trans (samePlaces_emit _ _)⟩
    | none =>
      have hnew : SamePlaces d (d.newVar x (firstArg dir k)).2 := ⟨rfl, rfl, rfl⟩
      obtain ⟨hcore, hsame⟩ := free_places dir (d.newVar x (firstArg dir k)).2 args (.var x) k
      rw [argVar_new hx hh, argVar_new hx ((core_home? d x).trans hh)]
      have hfst := core_newVar_fst d x (firstArg dir k)
      by_cases ha : (d.newVar x (firstArg dir k)).1 = .reg k
      · simp only [if_pos ha, if_pos (hfst.trans ha)]
        exact ⟨rfl, hnew⟩
      · have ha' : ¬ (d.core.newVar x (firstArg dir k)).1 = .reg k := fun h => ha (hfst ▸ h)
        simp only [if_neg ha, if_neg ha', core_emit, hcore]
        exact ⟨rfl, (hnew.trans hsame).trans (samePlaces_emit _ _)⟩

theorem argConstant_places (dir : Direction) (d : Draft P) (args : List Term) (k : Nat) (t : Term)
    (c : Constant) :
    (d.argConstant dir args k t c).core = d.core.argConstant dir args k t c ∧
      SamePlaces d (d.argConstant dir args k t c) := by
  obtain ⟨hcore, hsame⟩ := free_places dir d args t k
  exact ⟨by rw [argConstant, argConstant, ← hcore]; rfl, hsame.trans (samePlaces_emit _ _)⟩

/-! ### Places -/

/-- The place of an occurrence in the head or goal at hand. -/
def key (d : Draft P) (o : Occurrence) : SlotKey := ⟨d.part, o.depth, o.path⟩

theorem key_ne_of_path_ne {o' : Occurrence} (h : o.path ≠ o'.path) : d.key o ≠ d.key o' := by
  intro heq
  exact h (congrArg SlotKey.path heq)

theorem slot_of_known {r : Int} (h : d.slots.lookup (d.key o) = some r) : d.slot o = (r, d) := by
  rw [key] at h
  rw [slot, h]

theorem slot_of_unknown (h : d.slots.lookup (d.key o) = none) :
    d.slot o = (d.temp.1, { d.temp.2 with slots := (d.key o, d.temp.1) :: d.slots }) := by
  rw [key] at h
  rw [slot, h]
  rfl

theorem subterm_leaf (h : o.term.kind? = none) (dir : Direction) (d : Draft P) :
    d.subterm dir o = d.leaf dir o.term.read := by
  obtain ⟨t, depth, path⟩ := o
  cases t with
  | var x => rfl
  | atom => rfl
  | int => rfl
  | comp => simp [Term.kind?] at h
  | list => simp [Term.kind?] at h

theorem subterm_node {k : Kind} (h : o.term.kind? = some k) (dir : Direction) (d : Draft P) :
    d.subterm dir o = (d.slot o).2.emit (dir.nested (.reg (d.slot o).1)) := by
  obtain ⟨t, depth, path⟩ := o
  cases t with
  | comp => rfl
  | list => rfl
  | atom | int | var => simp [Term.kind?] at h

theorem visitAt_node {k : Kind} (h : o.term.kind? = some k) (dir : Direction) (args : List Term)
    (i : Nat) (d : Draft P) :
    d.visitAt dir args i o =
      o.children.foldl (subterm dir)
        ((d.compoundReg dir args i o).2.emit
          (k.opener dir o.level o.term.children.length (.reg (d.compoundReg dir args i o).1))) := by
  obtain ⟨t, depth, path⟩ := o
  cases t with
  | comp f ts b =>
    obtain rfl : Kind.functor f = k := by simpa [Term.kind?] using h
    rfl
  | list head rest tail b =>
    obtain rfl : Kind.cell = k := by simpa [Term.kind?] using h
    rfl
  | atom | int | var => simp [Term.kind?] at h

theorem visitAt_leaf (h : o.term.kind? = none) (hl : o.level ≠ .shallow) (dir : Direction)
    (args : List Term) (i : Nat) (d : Draft P) : d.visitAt dir args i o = d := by
  obtain ⟨t, depth, path⟩ := o
  cases t with
  | comp => simp [Term.kind?] at h
  | list => simp [Term.kind?] at h
  | atom | int | var => exact if_neg hl

theorem visitAt_argVar {x : String} (h : o.term = .var x) (hl : o.level = .shallow)
    (dir : Direction) (args : List Term) (i : Nat) (d : Draft P) :
    d.visitAt dir args i o = d.argVar dir args i x := by
  obtain ⟨t, depth, path⟩ := o
  obtain rfl : t = .var x := h
  exact if_pos hl

theorem visitAt_argConstant {c : Constant} (h : o.term.read = .constant c)
    (hl : o.level = .shallow) (dir : Direction) (args : List Term) (i : Nat) (d : Draft P) :
    d.visitAt dir args i o = d.argConstant dir args i o.term c := by
  obtain ⟨t, depth, path⟩ := o
  cases t with
  | atom name =>
    obtain rfl := Tree.constant.inj h
    exact if_pos hl
  | int n =>
    obtain rfl := Tree.constant.inj h
    exact if_pos hl
  | var | comp | list => simp [Term.read] at h

theorem argsSeen_slot (d : Draft P) (o : Occurrence) : (d.slot o).2.argsSeen = d.argsSeen := by
  cases h : d.slots.lookup (d.key o) with
  | some r => rw [slot_of_known h]
  | none =>
    rw [slot_of_unknown h]
    rfl

theorem argsSeen_subterms (dir : Direction) (os : List Occurrence) (d : Draft P) :
    (os.foldl (subterm dir) d).argsSeen = d.argsSeen := by
  induction os generalizing d with
  | nil => rfl
  | cons o os ih =>
    rw [List.foldl_cons, ih]
    cases h : o.term.kind? with
    | some k =>
      rw [subterm_node h]
      exact argsSeen_slot d o
    | none =>
      rw [subterm_leaf h]
      exact (samePlaces_leaf dir d o.term.read).argsSeen

theorem argsSeen_visitAt (dir : Direction) (args : List Term) (i : Nat) (o : Occurrence)
    (d : Draft P) : (d.visitAt dir args i o).argsSeen = d.argsSeen := by
  cases h : o.term.kind? with
  | some k =>
    rw [visitAt_node h, argsSeen_subterms]
    show (d.compoundReg dir args i o).2.argsSeen = d.argsSeen
    unfold compoundReg
    split
    · exact (free_places dir d args o.term i).2.argsSeen
    · exact argsSeen_slot d o
  | none =>
    by_cases hl : o.level = .shallow
    · rcases Term.var_or_constant h with ⟨x, hx⟩ | ⟨c, hc⟩
      · rw [visitAt_argVar hx hl]
        exact (argVar_places dir d args i x).2.argsSeen
      · rw [visitAt_argConstant hc hl]
        exact (argConstant_places dir d args i o.term c).2.argsSeen
    · rw [visitAt_leaf h hl]

/-- Only visits to arguments are counted. -/
theorem argsSeen_visit (dir : Direction) (args : List Term) (o : Occurrence) (d : Draft P) :
    (d.visit dir args o).argsSeen = if o.depth = 1 then d.argsSeen + 1 else d.argsSeen := by
  by_cases hroot : o.depth = 0
  · rw [visit, isRoot, decide_eq_true hroot, if_pos rfl, if_neg (by omega)]
  · rw [visit, isRoot, decide_eq_false hroot, level]
    by_cases hdepth : o.depth = 1
    · rw [if_pos hdepth, if_pos (by omega : o.depth ≤ 1)]
      exact argsSeen_visitAt dir args d.argsSeen o _
    · rw [if_neg hdepth, if_neg (by omega : ¬ o.depth ≤ 1)]
      exact argsSeen_visitAt dir args 0 o d

theorem level_deep (h : 2 ≤ o.depth) : o.level = .deep := by
  rw [level, if_neg (by omega)]

/-- Whatever is shallow and not the root is an argument. -/
theorem depth_of_shallow (hlevel : o.level = .shallow) (hroot : ¬ o.isRoot = true) :
    o.depth = 1 := by
  have hne : o.depth ≠ 0 := by simpa [isRoot] using hroot
  have hle : o.depth ≤ 1 := by
    by_contra hlt
    simp [level, hlt] at hlevel
  omega

/-- Below the arguments, a visit does not look at the number of arguments seen. -/
theorem visit_deep (h : 2 ≤ o.depth) (dir : Direction) (args : List Term) (d : Draft P) :
    d.visit dir args o = d.visitAt dir args 0 o := by
  have hroot : o.isRoot = false := by
    rw [isRoot, decide_eq_false_iff_not]
    omega
  rw [visit, hroot, level_deep h]
  rfl

end Draft

end ClauseCode
