import ClauseCode.Proofs.Compilation

/-!
# The shape of code

In the code of a head or a goal, each structure or list below the root is one instruction, and the
instructions for its children follow at once, one for each child if voids are counted one by one.
All other instructions are about arguments.  So the code is a sequence of blocks, one for each
structure or list in the order in which the traversal visits them, with instructions about arguments
between them (`Code.Blocks`).

This holds for any allocation policy, since a policy chooses addresses and nothing else.  Each visit
writes the block of the occurrence, if it is a structure or list (`Draft.writes_visit`), and packing
the code keeps the blocks apart, since no block begins with a void (`Code.Blocks.of_expand`).
-/

namespace ClauseCode

open Code (expand UnitVoids Packed)

namespace Instruction

/-- Whether an instruction begins a structure or list. -/
def isOpener : Instruction → Bool
  | list .. | struct .. => true
  | _ => false

/-- Whether an instruction is about a child of a structure or list. -/
def isSubterm : Instruction → Bool
  | subConstant .. | subVariable .. | subValue .. | void .. => true
  | _ => false

/-- Whether an instruction is a void of either direction. -/
def isVoid : Instruction → Bool
  | void .. => true
  | _ => false

/-- An instruction for a child that is one of the given term: a void for the anonymous variable, a
constant for itself, and an address for anything else. -/
def IsFor (dir : Direction) (t : Term) (i : Instruction) : Prop :=
  match t with
  | .atom name => i = .subConstant dir (.atom name)
  | .int n => i = .subConstant dir (.int n)
  | .var x =>
    if x = Term.anonymous then i = .void dir 1
    else ∃ a, i = .subVariable dir a ∨ i = .subValue dir a
  | .comp .. | .list .. => ∃ a, i = .subVariable dir a ∨ i = .subValue dir a

/-- The instruction that begins an occurrence of a structure or list: a structure with its functor
and its arity, a list cell with its level. -/
def Begins (dir : Direction) (o : Occurrence) (i : Instruction) : Prop :=
  ∃ k a, o.term.kind? = some k ∧ i = k.opener dir o.level o.term.children.length a

theorem Begins.isOpener {dir : Direction} {o : Occurrence} {i : Instruction} (h : i.Begins dir o) :
    i.isOpener = true := by
  obtain ⟨k, a, -, rfl⟩ := h
  cases k <;> rfl

theorem isVoid_of_isOpener {i : Instruction} (h : i.isOpener = true) (dir : Direction) :
    dir.isVoid i = false := by
  cases i with
  | void d n => simp [Instruction.isOpener] at h
  | _ => rfl

theorem isVoid_of_not_isSubterm {i : Instruction} (h : i.isSubterm = false) (dir : Direction) :
    dir.isVoid i = false := by
  cases i with
  | void d n => simp [isSubterm] at h
  | _ => rfl

/-- The only void that stands for a child is that of the direction, with the count one. -/
theorem IsFor.void {dir d : Direction} {t : Term} {n : Int} (h : IsFor dir t (.void d n)) :
    d = dir ∧ n = 1 := by
  cases t with
  | var x =>
    rw [IsFor] at h
    split at h
    · simpa using h
    · simp at h
  | atom | int | comp | list => simp [IsFor] at h

theorem IsFor.void_of_mem {dir d : Direction} {ts : List Term} {is : List Instruction} {n : Int}
    (h : List.Forall₂ (IsFor dir) ts is) (hn : .void d n ∈ is) : d = dir ∧ n = 1 := by
  induction h with
  | nil => simp at hn
  | cons hfor _ ih =>
    rcases List.mem_cons.1 hn with rfl | hn
    · exact hfor.void
    · exact ih hn

end Instruction

open Instruction

namespace Code

variable {dir : Direction} {os os' : List Occurrence} {is is' : List Instruction}

/-- Code that consists of the blocks of some structures and lists, in order, and of instructions
about arguments. -/
inductive Blocks (dir : Direction) : List Occurrence → List Instruction → Prop
  | nil : Blocks dir [] []
  /-- An instruction about an argument. -/
  | other {os : List Occurrence} {i : Instruction} {is : List Instruction}
      (hopener : i.isOpener = false) (hsubterm : i.isSubterm = false) (h : Blocks dir os is) :
      Blocks dir os (i :: is)
  /-- A structure or list, and then its children. -/
  | block {o : Occurrence} {os : List Occurrence} {i : Instruction}
      {units is : List Instruction} (hi : i.Begins dir o)
      (hunits : List.Forall₂ (IsFor dir) o.term.children (expand dir units))
      (h : Blocks dir os is) : Blocks dir (o :: os) (i :: (units ++ is))

theorem Blocks.append (h : Blocks dir os is) (h' : Blocks dir os' is') :
    Blocks dir (os ++ os') (is ++ is') := by
  induction h with
  | nil => exact h'
  | other hopener hsubterm _ ih => exact Blocks.other hopener hsubterm ih
  | block hi hunits _ ih =>
    rw [List.cons_append, List.cons_append, List.append_assoc]
    exact Blocks.block hi hunits ih

/-- Code does not begin with a void. -/
theorem Blocks.head_not_void (h : Blocks dir os is) : ∀ i ∈ is.head?, dir.isVoid i = false := by
  intro i hi
  cases h with
  | nil => simp at hi
  | other _ hsubterm _ =>
    obtain rfl : _ = i := by simpa using hi
    exact isVoid_of_not_isSubterm hsubterm dir
  | block hbegins _ _ =>
    obtain rfl : _ = i := by simpa using hi
    exact isVoid_of_isOpener hbegins.isOpener dir

theorem mem_expand {i : Instruction} (hi : i ∈ is) (hvoid : dir.isVoid i = false) :
    i ∈ expand dir is :=
  List.mem_flatMap.2 ⟨i, hi, by rw [expandOne_of_not_isVoid hvoid, List.mem_singleton]⟩

/-- There are no voids of the other direction. -/
theorem Blocks.dir_eq (h : Blocks dir os is) {d : Direction} {n : Int} (hn : .void d n ∈ is) :
    d = dir := by
  induction h with
  | nil => simp at hn
  | other _ hsubterm _ ih =>
    rcases List.mem_cons.1 hn with rfl | hn
    · simp [isSubterm] at hsubterm
    · exact ih hn
  | @block o os i units is hi hunits _ ih =>
    rcases List.mem_cons.1 hn with rfl | hn
    · have hopener := hi.isOpener
      simp [isOpener] at hopener
    rcases List.mem_append.1 hn with hn | hn
    · by_contra hne
      have hvoid : dir.isVoid (.void d n) = false := by simpa [Direction.isVoid] using hne
      exact hne (IsFor.void_of_mem hunits (mem_expand hn hvoid)).1
    · exact ih hn

/-- Packed code has the blocks of what was packed. -/
theorem Blocks.of_expand (h : Blocks dir os is) (hvoids : UnitVoids dir is)
    {code : List Instruction} (hcode : ∀ n, Instruction.void dir n ∈ code → 1 ≤ n)
    (hexpand : expand dir code = is) : Blocks dir os code := by
  induction h generalizing code with
  | nil =>
    rw [expand_eq_nil hcode hexpand]
    exact Blocks.nil
  | other hopener hsubterm _ ih =>
    obtain ⟨-, hvoids⟩ := UnitVoids.cons_iff.1 hvoids
    obtain ⟨rest, rfl, hrest⟩ :=
      exists_cons_of_expand hcode (isVoid_of_not_isSubterm hsubterm dir) hexpand
    exact Blocks.other hopener hsubterm
      (ih hvoids (fun n hn => hcode n (List.mem_cons_of_mem _ hn)) hrest)
  | @block o os i units is hi hunits hblocks ih =>
    obtain ⟨-, hvoids⟩ := UnitVoids.cons_iff.1 hvoids
    obtain ⟨rest, rfl, hrest⟩ :=
      exists_cons_of_expand hcode (isVoid_of_isOpener hi.isOpener dir) hexpand
    -- The next block does not begin with a void, so that the units end where they did.
    obtain ⟨units', after, rfl, hunits', hafter⟩ :=
      exists_append_of_expand hblocks.head_not_void hrest
    have hself : expand dir units = units :=
      expand_eq_self fun n hn => hvoids n (List.mem_append_left _ hn)
    refine Blocks.block hi (by rw [hunits', ← hself]; exact hunits) (ih ?_ ?_ hafter)
    · exact fun n hn => hvoids n (List.mem_append_right _ hn)
    · exact fun n hn => hcode n (by simp [hn])

end Code

/-! ### What a visit writes -/

/-- Whether an occurrence is a structure or list below the root. -/
def Occurrence.isBlock (o : Occurrence) : Bool := !o.isRoot && o.term.kind?.isSome

namespace Draft

open Code (Blocks)

variable {P : Policy} {dir : Direction} {args : List Term} {k : ℕ} {d d' d'' : Draft P}
  {os os' : List Occurrence} {i : Instruction}

/-- The second draft has written more than the first one: blocks of some structures and lists with
voids one by one, and instructions about arguments. -/
def Writes (dir : Direction) (os : List Occurrence) (d d' : Draft P) : Prop :=
  ∃ is, Blocks dir os is ∧ UnitVoids dir is ∧ d'.emitted = is.reverse ++ d.emitted

theorem Writes.nothing (h : d'.emitted = d.emitted) : Writes dir [] d d' :=
  ⟨[], Blocks.nil, by simp [UnitVoids], h⟩

theorem Writes.trans (h : Writes dir os d d') (h' : Writes dir os' d' d'') :
    Writes dir (os ++ os') d d'' := by
  obtain ⟨is, his, hvoids, heq⟩ := h
  obtain ⟨is', his', hvoids', heq'⟩ := h'
  refine ⟨is ++ is', his.append his', fun n hn => ?_, ?_⟩
  · rcases List.mem_append.1 hn with hn | hn
    · exact hvoids n hn
    · exact hvoids' n hn
  · rw [heq', heq, List.reverse_append, List.append_assoc]

/-- Nothing is written but an instruction about an argument. -/
theorem Writes.other (h : Writes dir os d d') (hd : d''.emitted = i :: d'.emitted)
    (hopener : i.isOpener = false) (hsubterm : i.isSubterm = false) : Writes dir os d d'' := by
  have hstep : Writes dir [] d' d'' := by
    refine ⟨[i], Blocks.other hopener hsubterm Blocks.nil, fun n hn => ?_, hd⟩
    rw [← List.mem_singleton.1 hn] at hsubterm
    simp [isSubterm] at hsubterm
  have hall := h.trans hstep
  rwa [List.append_nil] at hall

theorem writes_free (dir : Direction) (args : List Term) (t : Term) (k : ℕ) (d : Draft P) :
    Writes dir [] d (d.free dir args t k) := by
  have hcleared := cleared_free dir args t k d
  generalize d.free dir args t k = d' at hcleared ⊢
  cases hcleared with
  | same | kept => exact Writes.nothing rfl
  | moved hdir hx => exact (Writes.nothing rfl).other rfl rfl rfl

theorem writes_argVar (dir : Direction) (args : List Term) (k : ℕ) (x : String) (d : Draft P) :
    Writes dir [] d (d.argVar dir args k x) := by
  by_cases hx : x = Term.anonymous
  · subst hx
    rw [argVar_blank]
    cases dir with
    | check => exact Writes.nothing rfl
    | build => exact (writes_free .build args _ k d).other rfl rfl rfl
  · cases hhome : d.home? x with
    | some a =>
      rw [argVar_known hx hhome]
      split
      · exact Writes.nothing rfl
      · exact (writes_free dir args _ k d).other rfl rfl rfl
    | none =>
      have hnew : Writes dir [] d (d.newVar x (firstArg dir k)).2 := Writes.nothing rfl
      rw [argVar_new hx hhome]
      dsimp only
      split
      · exact hnew
      · exact (hnew.trans (writes_free dir args _ k _)).other rfl rfl rfl

theorem emitted_slot (o : Occurrence) (d : Draft P) : (d.slot o).2.emitted = d.emitted := by
  cases h : d.slots.lookup (d.key o) with
  | some r => rw [slot_of_known h]
  | none =>
    rw [slot_of_unknown h]
    rfl

theorem writes_compoundReg (dir : Direction) (args : List Term) (k : ℕ) (o : Occurrence)
    (d : Draft P) : Writes dir [] d (d.compoundReg dir args k o).2 := by
  unfold compoundReg
  split
  · exact writes_free dir args o.term k d
  · exact Writes.nothing (emitted_slot o d)

theorem isFor_nested {t : Term} {kind : Kind} (h : t.kind? = some kind) (dir : Direction)
    (a : Address) : IsFor dir t (dir.nested a) := by
  have haddress : ∃ b, dir.nested a = .subVariable dir b ∨ dir.nested a = .subValue dir b := by
    cases dir with
    | check => exact ⟨a, Or.inl rfl⟩
    | build => exact ⟨a, Or.inr rfl⟩
  cases t with
  | comp => exact haddress
  | list => exact haddress
  | atom | int | var => simp [Term.kind?] at h

/-- A child of a structure or list is one instruction. -/
theorem exists_subterm (dir : Direction) (d : Draft P) (o : Occurrence) :
    ∃ i, IsFor dir o.term i ∧ (d.subterm dir o).emitted = i :: d.emitted := by
  cases hkind : o.term.kind? with
  | some kind =>
    refine ⟨dir.nested (.reg (d.slot o).1), isFor_nested hkind dir _, ?_⟩
    rw [subterm_node hkind]
    exact congrArg _ (emitted_slot o d)
  | none =>
    rw [subterm_leaf hkind]
    cases ht : o.term with
    | atom name => exact ⟨_, rfl, rfl⟩
    | int n => exact ⟨_, rfl, rfl⟩
    | var x =>
      rw [Term.read, leaf]
      by_cases hx : x = Term.anonymous
      · rw [if_pos hx]
        exact ⟨.void dir 1, by rw [IsFor, if_pos hx], rfl⟩
      · rw [if_neg hx]
        cases d.home? x with
        | some a => exact ⟨.subValue dir a, by rw [IsFor, if_neg hx]; exact ⟨a, Or.inr rfl⟩, rfl⟩
        | none => exact ⟨.subVariable dir _, by rw [IsFor, if_neg hx]; exact ⟨_, Or.inl rfl⟩, rfl⟩
    | comp | list => simp [ht, Term.kind?] at hkind

theorem exists_subterms (dir : Direction) (os : List Occurrence) (d : Draft P) :
    ∃ is, List.Forall₂ (IsFor dir) (os.map Occurrence.term) is ∧
      (os.foldl (subterm dir) d).emitted = is.reverse ++ d.emitted := by
  induction os generalizing d with
  | nil => exact ⟨[], List.Forall₂.nil, rfl⟩
  | cons o os ih =>
    obtain ⟨i, hi, heq⟩ := exists_subterm dir d o
    obtain ⟨is, his, heq'⟩ := ih (d.subterm dir o)
    refine ⟨i :: is, List.Forall₂.cons hi his, ?_⟩
    rw [List.foldl_cons, heq', heq, List.reverse_cons, List.append_assoc, List.singleton_append]

/-- The instruction that begins a structure or list and those for its children are a block. -/
theorem writes_block {o : Occurrence} (hi : i.Begins dir o) (d : Draft P) :
    Writes dir [o] d (o.children.foldl (subterm dir) (d.emit i)) := by
  obtain ⟨is, his, heq⟩ := exists_subterms dir o.children (d.emit i)
  rw [Occurrence.map_term_children] at his
  have hvoids : UnitVoids dir is := fun n hn => (IsFor.void_of_mem his hn).2
  have hblock : Blocks dir [o] (i :: (is ++ [])) :=
    Blocks.block hi (by rw [Code.expand_eq_self hvoids]; exact his) Blocks.nil
  rw [List.append_nil] at hblock
  refine ⟨i :: is, hblock, Code.UnitVoids.cons_iff.2 ⟨fun n hn => ?_, hvoids⟩, ?_⟩
  · have hopener := hi.isOpener
    rw [hn] at hopener
    simp [isOpener] at hopener
  · rw [heq, List.reverse_cons, List.append_assoc, List.singleton_append]
    rfl

/-- A structure or list is a block, and nothing else is. -/
theorem writes_visitAt (dir : Direction) (args : List Term) (k : ℕ) (o : Occurrence)
    (d : Draft P) :
    Writes dir (bif o.term.kind?.isSome then [o] else []) d (d.visitAt dir args k o) := by
  cases hkind : o.term.kind? with
  | some kind =>
    rw [visitAt_node hkind]
    exact (writes_compoundReg dir args k o d).trans (writes_block ⟨kind, _, hkind, rfl⟩ _)
  | none =>
    show Writes dir [] d (d.visitAt dir args k o)
    by_cases hlevel : o.level = .shallow
    · rcases Term.var_or_constant hkind with ⟨x, hx⟩ | ⟨c, hc⟩
      · rw [visitAt_argVar hx hlevel]
        exact writes_argVar dir args k x d
      · rw [visitAt_argConstant hc hlevel]
        exact (writes_free dir args o.term k d).other rfl rfl rfl
    · rw [visitAt_leaf hkind hlevel]
      exact Writes.nothing rfl

theorem writes_visit (dir : Direction) (args : List Term) (d : Draft P) (o : Occurrence) :
    Writes dir ([o].filter Occurrence.isBlock) d (d.visit dir args o) := by
  rw [List.filter_singleton, Occurrence.isBlock, visit]
  by_cases hroot : o.isRoot = true
  · rw [if_pos hroot, hroot]
    exact Writes.nothing rfl
  · rw [if_neg hroot, Bool.eq_false_iff.2 hroot, Bool.not_false, Bool.true_and]
    split
    · exact writes_visitAt dir args d.argsSeen o { d with argsSeen := d.argsSeen + 1 }
    · exact writes_visitAt dir args 0 o d

theorem writes_visits (dir : Direction) (args : List Term) (os : List Occurrence) (d : Draft P) :
    Writes dir (os.filter Occurrence.isBlock) d (os.foldl (visit dir args) d) := by
  induction os generalizing d with
  | nil => exact Writes.nothing rfl
  | cons o os ih =>
    have hall := (writes_visit dir args d o).trans (ih (d.visit dir args o))
    rwa [← List.filter_append, List.singleton_append] at hall

end Draft

/-! ### The code of a clause -/

namespace Compound

/-- The structures and lists below the root of a compound, in the order of a direction. -/
def blocks (dir : Direction) (c : Compound) : List Occurrence :=
  (dir.traversal c.toTerm).collect.filter Occurrence.isBlock

/-- Code that has the shape of a compound: it consists of the blocks of its structures and lists,
and of instructions about arguments; each void stands for at least one child, and no two voids are
next to each other. -/
structure Shapes (dir : Direction) (c : Compound) (code : List Instruction) : Prop where
  blocks : Code.Blocks dir (c.blocks dir) code
  one_le : ∀ d n, .void d n ∈ code → 1 ≤ n
  apart : code.IsChain fun i j => ¬ (i.isVoid = true ∧ j.isVoid = true)

theorem shapes_of_code {P : Policy} {dir : Direction} {c : Compound} {d d' : Draft P}
    {code : List Instruction} (h : c.code dir d = .ok (code, d')) : c.Shapes dir code := by
  obtain ⟨raw, hblocks, hvoids, hraw⟩ := Draft.writes_visits dir c.args
    (dir.traversal c.toTerm).collect { d with argsSeen := 0, emitted := [] }
  rw [List.append_nil, ← Draft.write] at hraw
  obtain ⟨hpack, -⟩ := code_eq_ok h
  rw [hraw, List.reverse_reverse] at hpack
  obtain ⟨code', hcode', hexpand⟩ := Code.exists_pack hvoids
  obtain rfl : code = code' := by simpa [hpack] using hcode'
  have hpacked := Packed.of_pack hpack
  have hall := hblocks.of_expand hvoids hpacked.one_le hexpand
  refine ⟨hall, fun d n hn => ?_, ?_⟩
  · obtain rfl := hall.dir_eq hn
    exact hpacked.one_le n hn
  · refine hpacked.apart.imp_of_mem_imp fun i j hi hj hij hvoid => hij ?_
    have hdir : ∀ i ∈ code, i.isVoid = true → dir.isVoid i = true := by
      intro i hi hvoid
      cases i with
      | void d n => simpa [Direction.isVoid] using hall.dir_eq hi
      | _ => simp [isVoid] at hvoid
    exact ⟨hdir i hi hvoid.1, hdir j hj hvoid.2⟩

theorem shapes_of_goals {P : Policy} {cs : List Compound} {gs : List CompiledGoal} {d d' : Draft P}
    (h : goals d cs = .ok (gs, d')) : List.Forall₂ (fun c g => c.Shapes .build g.code) cs gs := by
  induction cs generalizing d gs with
  | nil =>
    obtain ⟨rfl, -⟩ := Prod.mk.inj (Except.ok.inj h)
    exact List.Forall₂.nil
  | cons c cs ih =>
    obtain ⟨is, d₁, gs₁, hcode, hgoals, rfl⟩ := goals_cons_eq_ok h
    exact List.Forall₂.cons (shapes_of_code hcode) (ih hgoals)

end Compound

/-- Whatever the allocation policy, the code of a head and of each goal has the shape of the head or
goal: one block for each structure or list below the root, in the order of the traversal. -/
theorem Clause.code_shapes {c : Clause} {n : NormalClause} (hn : c.normalize = .ok n)
    (P : Policy) :
    ∃ k s, c.compileWith P = .ok (k, s) ∧ n.head.Shapes .check k.head ∧
      List.Forall₂ (fun g k => g.Shapes .build k.code) n.body k.goals := by
  obtain ⟨k, d, hcompile, hnormal, -⟩ := Clause.exists_compileWith hn P
  obtain ⟨d₁, d₂, hhead, hgoals, -⟩ := NormalClause.compile_eq_ok hnormal
  exact ⟨k, d.pool, hcompile, Compound.shapes_of_code hhead, Compound.shapes_of_goals hgoals⟩

/-- The clause `p(f(_, _, g(X))) :- q(f(_, h(X)))` in normal form. -/
def nestedNormal : NormalClause where
  head := ⟨"p", [.comp "f" [.var "_", .var "_", .comp "g" [.var "X"] true] true]⟩
  body := [⟨"q", [.comp "f" [.var "_", .comp "h" [.var "X"] true] true]⟩]

/-- The head of `p(f(_, _, g(X))) :- q(f(_, h(X)))` has the block of `f` before that of `g`, and its
goal that of `h` before that of `f`.  The code of `p(X, Y) :- q(a, X)` has no blocks, also if both
variables are in one register and the one that was met first is come upon there. -/
theorem code_shapes_nested : nestedNormal.toClause.normalize = .ok nestedNormal ∧
    (nestedNormal.head.blocks .check).map (fun o => o.term.kind?) =
      [some (.functor "f"), some (.functor "g")] ∧
    nestedNormal.body.map (fun g => (g.blocks .build).map fun o => o.term.kind?) =
      [[some (.functor "h"), some (.functor "f")]] ∧
    (∃ k s, nestedNormal.toClause.compileWith .standard = .ok (k, s) ∧
      nestedNormal.head.Shapes .check k.head ∧
      List.Forall₂ (fun g k => g.Shapes .build k.code) nestedNormal.body k.goals) ∧
    crowdedNormal.toClause.normalize = .ok crowdedNormal ∧
    crowdedNormal.body.map (fun g => (g.blocks .build).map fun o => o.term.kind?) = [[]] ∧
    ∃ k s, crowdedNormal.toClause.compileWith (.crowded .last) = .ok (k, s) ∧
      crowdedNormal.head.Shapes .check k.head ∧
      List.Forall₂ (fun g k => g.Shapes .build k.code) crowdedNormal.body k.goals :=
  ⟨rfl, rfl, rfl, Clause.code_shapes rfl .standard, rfl, rfl,
    Clause.code_shapes rfl (.crowded .last)⟩

end ClauseCode
