import ClauseCode.Proofs.Places

/-!
# Visits write the same code as recursion

A draft that visits the occurrences of a head or a goal in the order of the traversal ends like
the draft that writes the code by recursion, up to what it knows about places (`core_write`).

The argument is about the places that a draft knows.  In a goal, no place within an occurrence is
known before the occurrence is visited, and its own place is known afterwards, with the register
in which it was built.  In a head, the place of each nested node in the queue is known, with the
register in which it was put aside, and no place below it is.
-/

namespace ClauseCode.Draft

open Occurrence

variable {P : Policy} {d d' : Draft P} {o : Occurrence} {os : List Occurrence}

/-! ### Goals -/

/-- The registers of the nodes among some occurrences are known. -/
def Recorded (d : Draft P) (os : List Occurrence) (rs : List Int) : Prop :=
  List.Forall₂ (fun o r => o.term.kind? ≠ none → d.slots.lookup (d.key o) = some r) os rs

theorem Recorded.congr {rs : List Int} (h : Recorded d os rs)
    (hk : ∀ o ∈ os, d'.slots.lookup (d'.key o) = d.slots.lookup (d.key o)) :
    Recorded d' os rs := by
  induction h with
  | nil => exact List.Forall₂.nil
  | cons hr _ ih =>
    refine List.Forall₂.cons (fun hkind => ?_) (ih fun o ho => hk o (by simp [ho]))
    rw [hk _ (by simp)]
    exact hr hkind

theorem fill_cons_leaf {t : Term} (h : t.kind? = none) (d : Draft P) (ts : List (Tree String))
    (r : Int) (rs : List Int) :
    d.fill (t.read :: ts) (r :: rs) = (d.leaf .build t.read).fill ts rs := by
  cases t with
  | comp => simp [Term.kind?] at h
  | list => simp [Term.kind?] at h
  | atom | int | var => rfl

theorem fill_cons_node {t : Term} {k : Kind} (h : t.kind? = some k) (d : Draft P)
    (ts : List (Tree String)) (r : Int) (rs : List Int) :
    d.fill (t.read :: ts) (r :: rs) = (d.emit (.subValue .build (.reg r))).fill ts rs := by
  rw [Term.read_eq_node h]
  rfl

/-- The instructions for the children of a node that are all built. -/
theorem foldl_subterm_build {rs : List Int} (h : Recorded d os rs) :
    (os.foldl (subterm .build) d).core = d.core.fill (os.map fun o => o.term.read) rs ∧
      SamePlaces d (os.foldl (subterm .build) d) := by
  induction os generalizing d rs with
  | nil =>
    cases h
    exact ⟨rfl, SamePlaces.refl d⟩
  | cons o os ih =>
    cases h with
    | @cons _ r _ rs hr hrs =>
    rw [List.foldl_cons, List.map_cons]
    cases hk : o.term.kind? with
    | none =>
      have hsame := samePlaces_leaf .build d o.term.read
      rw [subterm_leaf hk, fill_cons_leaf hk]
      have hrs' : Recorded (d.leaf .build o.term.read) os rs :=
        Recorded.congr hrs fun o' _ => by rw [key, key, hsame.slots, hsame.part]
      obtain ⟨hcore, hplaces⟩ := ih hrs'
      exact ⟨by rw [hcore, core_leaf], hsame.trans hplaces⟩
    | some k =>
      -- A node was built before, so that its place is known and nothing else changes.
      have hslot := slot_of_known (hr (by simp [hk]))
      rw [subterm_node hk, fill_cons_node hk, hslot]
      obtain ⟨hcore, hplaces⟩ := ih (d := d.emit (.subValue .build (.reg r))) hrs
      exact ⟨hcore, (samePlaces_emit d _).trans hplaces⟩

/-- No place within an occurrence is known. -/
def Vacant (d : Draft P) (path : List Nat) : Prop :=
  ∀ k : SlotKey, k.part = d.part → path <:+ k.path → d.slots.lookup k = none

/-- What a draft is after an occurrence of a goal below its arguments and all within it were
visited. -/
structure Built (d : Draft P) (o : Occurrence) (d' : Draft P) : Prop where
  part : d'.part = d.part
  argsSeen : d'.argsSeen = d.argsSeen
  core : d'.core = (d.core.build o.term.read).2
  slot : o.term.kind? ≠ none → d'.slots.lookup (d'.key o) = some (d.core.build o.term.read).1
  frame : ∀ k : SlotKey, ¬ (k.part = d.part ∧ o.path <:+ k.path) →
    d'.slots.lookup k = d.slots.lookup k

theorem Vacant.of_mem_children {c : Occurrence} (h : Vacant d o.path) (hc : c ∈ o.children) :
    Vacant d c.path :=
  fun k hk hp => h k hk ((suffix_of_mem_children hc).trans hp)

/-- Occurrences that are apart are built one after another. -/
theorem foldl_inside_all (args : List Term) (hap : os.Pairwise Apart)
    (hbuilt : ∀ o ∈ os, ∀ d : Draft P, Vacant d o.path →
      Built d o (o.inside.foldl (visit .build args) d))
    (hvac : ∀ o ∈ os, Vacant d o.path) :
    let d' := (os.flatMap inside).foldl (visit .build args) d
    let b := d.core.buildAll (os.map fun o => o.term.read)
    d'.part = d.part ∧ d'.argsSeen = d.argsSeen ∧ d'.core = b.2 ∧ Recorded d' os b.1 ∧
      ∀ k : SlotKey, (∀ o ∈ os, ¬ (k.part = d.part ∧ o.path <:+ k.path)) →
        d'.slots.lookup k = d.slots.lookup k := by
  induction os generalizing d with
  | nil => exact ⟨rfl, rfl, rfl, List.Forall₂.nil, fun _ _ => rfl⟩
  | cons o os ih =>
    obtain ⟨hapo, hap⟩ := List.pairwise_cons.1 hap
    intro d' b
    have ho : Built d o (o.inside.foldl (visit .build args) d) :=
      hbuilt o (by simp) d (hvac o (by simp))
    generalize hd₁ : o.inside.foldl (visit .build args) d = d₁ at ho
    -- What becomes known is within `o`, and the others are apart from it.
    have hvac₁ : ∀ o' ∈ os, Vacant d₁ o'.path := by
      intro o' ho' k hk hp
      rw [ho.part] at hk
      rw [ho.frame k fun h => hapo o' ho' k.path h.2 hp]
      exact hvac o' (by simp [ho']) k hk hp
    obtain ⟨hpart, hseen, hcore, hrec, hframe⟩ :=
      ih hap (fun o' ho' => hbuilt o' (by simp [ho'])) hvac₁
    have hd' : d' = (os.flatMap inside).foldl (visit .build args) d₁ := by
      rw [← hd₁, ← List.foldl_append, ← List.flatMap_cons]
    rw [← hd'] at hpart hseen hcore hrec hframe
    have hb : b =
        ((d.core.build o.term.read).1 :: (d₁.core.buildAll (os.map fun o => o.term.read)).1,
          (d₁.core.buildAll (os.map fun o => o.term.read)).2) := by
      rw [ho.core]
      rfl
    rw [hb]
    refine ⟨hpart.trans ho.part, hseen.trans ho.argsSeen, hcore, ?_, ?_⟩
    · refine List.Forall₂.cons (fun hkind => ?_) hrec
      -- The place of `o` is apart from those of the others, so that it is still known.
      rw [hframe, key, hpart, ← ho.slot hkind]
      · rfl
      · rintro o' ho' ⟨-, hp⟩
        exact hapo o' ho' o.path (List.suffix_refl _) hp
    · intro k hk
      rw [hframe k fun o' ho' => by rw [ho.part]; exact hk o' (by simp [ho'])]
      exact ho.frame k (hk o (by simp))

/-- An occurrence of a goal below its arguments is built after all within it. -/
theorem built_inside (args : List Term) (o : Occurrence) (ho : 2 ≤ o.depth) (d : Draft P)
    (hvac : Vacant d o.path) : Built d o (o.inside.foldl (visit .build args) d) := by
  -- The children are visited first, and leave the place of `o` unknown.
  induction o using inductionOn generalizing d with
  | step o ih =>
  have hchildren := foldl_inside_all args (pairwise_apart_children o)
    (fun c hc d hd => ih c hc (by rw [depth_of_mem_children hc]; omega) d hd)
    (fun c hc => hvac.of_mem_children hc)
  rw [map_read_children] at hchildren
  rw [inside_eq, List.foldl_append, List.foldl_cons, List.foldl_nil, visit_deep ho]
  generalize (o.children.flatMap inside).foldl (visit .build args) d = d₁ at hchildren ⊢
  obtain ⟨hpart, hseen, hcore, hrec, hframe⟩ := hchildren
  have hframe' : ∀ k : SlotKey, ¬ (k.part = d.part ∧ o.path <:+ k.path) →
      d₁.slots.lookup k = d.slots.lookup k := by
    intro k hk
    exact hframe k fun c hc h => hk ⟨h.1, (suffix_of_mem_children hc).trans h.2⟩
  cases hk : o.term.kind? with
  | none =>
    rw [Term.children_eq_nil_of_kind? hk] at hcore
    have hbuild : d.core.build o.term.read = (0, d.core) := by
      revert hk
      cases o.term <;> simp [Term.kind?, Term.read, build]
    rw [visitAt_leaf hk (by rw [level_deep ho]; simp)]
    exact ⟨hpart, hseen, by rw [hcore, hbuild]; rfl, fun h => absurd hk h, hframe'⟩
  | some k =>
    have hnone : d₁.slots.lookup (d₁.key o) = none := by
      rw [hframe (d₁.key o) fun c hc h => path_ne_of_mem_children hc h.2 rfl]
      exact hvac _ hpart (List.suffix_refl _)
    rw [visitAt_node hk, compoundReg, level_deep ho, slot_of_unknown hnone]
    set d₂ : Draft P := { d₁.temp.2 with slots := (d₁.key o, d₁.temp.1) :: d₁.slots } with hd₂
    -- The new place is none of those of the children, which have longer paths.
    have hrec₂ : Recorded (d₂.emit (k.opener .build .deep o.term.children.length (.reg d₁.temp.1)))
        o.children (d.core.buildAll (o.term.children.map Term.read)).1 := by
      refine hrec.congr fun c hc => ?_
      refine lookup_cons_of_ne ?_ _ _
      intro heq
      obtain ⟨j, hj⟩ := path_of_mem_children hc
      have := congrArg (fun k => k.path.length) heq
      change c.path.length = o.path.length at this
      rw [hj, List.length_cons] at this
      omega
    obtain ⟨hcore₂, hsame⟩ := foldl_subterm_build hrec₂
    have hbuild : d.core.build o.term.read = (d₁.temp.1,
        (d₁.core.temp.2.emit (k.opener .build .deep o.term.children.length (.reg d₁.temp.1))).fill
          (o.term.children.map Term.read) (d.core.buildAll (o.term.children.map Term.read)).1) := by
      rw [Term.read_eq_node hk, build, ← hcore, List.length_map]
      rfl
    refine ⟨hsame.part.trans hpart, hsame.argsSeen.trans hseen, ?_, fun _ => ?_, ?_⟩
    · rw [hcore₂, hbuild, map_read_children]
      rfl
    · rw [key, hsame.slots, hsame.part, hbuild]
      exact List.lookup_cons_self
    · intro k' hk'
      rw [hsame.slots, ← hframe' k' hk']
      refine lookup_cons_of_ne ?_ _ _
      rintro rfl
      exact hk' ⟨hpart, List.suffix_refl _⟩

/-- The occurrences of the arguments of a head or a goal from number `k` on. -/
abbrev argsFrom (k : Nat) (ts : List Term) : List Occurrence := childrenFrom 0 [] k ts

/-- An argument is visited with its own number. -/
theorem visit_arg (dir : Direction) (args : List Term) (t : Term) (k : Nat) {d : Draft P}
    (hseen : d.argsSeen = k) :
    d.visit dir args ⟨t, 1, [k]⟩ = { d with argsSeen := k + 1 }.visitAt dir args k ⟨t, 1, [k]⟩ := by
  rw [← hseen]
  rfl

/-- An argument of a goal without children is built at once. -/
theorem visitAt_argLeaf {t : Term} (h : t.kind? = none) (args : List Term) (k : Nat)
    (d : Draft P) :
    (d.visitAt .build args k ⟨t, 1, [k]⟩).core = buildArg args k d.core t ∧
      SamePlaces d (d.visitAt .build args k ⟨t, 1, [k]⟩) := by
  cases t with
  | var x => exact argVar_places .build d args k x
  | atom name => exact argConstant_places .build d args k (.atom name) (.atom name)
  | int n => exact argConstant_places .build d args k (.int n) (.int n)
  | comp => simp [Term.kind?] at h
  | list => simp [Term.kind?] at h

/-- An argument of a goal is built after all within it. -/
theorem foldl_inside_arg (args : List Term) (t : Term) {k : Nat} (hseen : d.argsSeen = k)
    (hvac : Vacant d [k]) :
    let d' := (⟨t, 1, [k]⟩ : Occurrence).inside.foldl (visit .build args) d
    d'.core = buildArg args k d.core t ∧ d'.part = d.part ∧ d'.argsSeen = k + 1 ∧
      ∀ key : SlotKey, ¬ (key.part = d.part ∧ [k] <:+ key.path) →
        d'.slots.lookup key = d.slots.lookup key := by
  intro d'
  set o : Occurrence := ⟨t, 1, [k]⟩ with ho
  have hchildren := foldl_inside_all args (pairwise_apart_children o)
    (fun c hc d hd => built_inside args c (Nat.le_of_eq (depth_of_mem_children hc).symm) d hd)
    (fun c hc => Vacant.of_mem_children (o := o) hvac hc)
  rw [map_read_children] at hchildren
  have hd' : d' =
      ((o.children.flatMap inside).foldl (visit .build args) d).visit .build args o := by
    show o.inside.foldl (visit .build args) d = _
    rw [inside_eq, List.foldl_append]
    rfl
  rw [hd']
  generalize (o.children.flatMap inside).foldl (visit .build args) d = d₁ at hchildren ⊢
  obtain ⟨hpart, hseen₁, hcore, hrec, hframe⟩ := hchildren
  have hframe' : ∀ key : SlotKey, ¬ (key.part = d.part ∧ [k] <:+ key.path) →
      d₁.slots.lookup key = d.slots.lookup key := by
    intro key hkey
    exact hframe key fun c hc h => hkey ⟨h.1, (suffix_of_mem_children hc).trans h.2⟩
  rw [ho, visit_arg .build args t k (hseen₁.trans hseen), ← ho]
  set d₂ : Draft P := { d₁ with argsSeen := k + 1 } with hd₂
  have hcore₂ : d₂.core = d₁.core := rfl
  -- An argument is built in its own register, and no place is noted for it.
  cases hk : t.kind? with
  | some kind =>
    obtain ⟨hfree, hsame⟩ := free_places .build d₂ args t k
    have hreg : d₂.compoundReg .build args k o = ((k : Int), d₂.free .build args t k) := rfl
    rw [visitAt_node hk, hreg]
    have hrec₂ : Recorded ((d₂.free .build args t k).emit
        (kind.opener .build o.level o.term.children.length (.reg k))) o.children
        (d.core.buildAll (o.term.children.map Term.read)).1 := by
      refine hrec.congr fun c _ => ?_
      show (d₂.free .build args t k).slots.lookup (key (d₂.free .build args t k) c) = _
      rw [key, hsame.slots, hsame.part]
      rfl
    obtain ⟨hcore₃, hsame₃⟩ := foldl_subterm_build hrec₂
    refine ⟨?_, (hsame₃.part.trans hsame.part).trans hpart,
      hsame₃.argsSeen.trans hsame.argsSeen, ?_⟩
    · rw [hcore₃, map_read_children, core_emit, hfree, hcore₂, hcore, buildArg,
        Term.read_eq_node hk]
      simp only [List.length_map]
      rfl
    · intro key hkey
      rw [← hframe' key hkey, hsame₃.slots]
      exact congrArg _ hsame.slots
  | none =>
    rw [Term.children_eq_nil_of_kind? (t := o.term) hk] at hcore
    have hcore : d₁.core = d.core := hcore
    obtain ⟨hleaf, hsame⟩ := visitAt_argLeaf hk args k d₂
    refine ⟨?_, hsame.part.trans hpart, hsame.argsSeen, fun key hkey => ?_⟩
    · rw [hleaf, hcore₂, hcore]
    · rw [← hframe' key hkey]
      exact congrArg _ hsame.slots

/-- The arguments of a goal are built in order. -/
theorem foldl_inside_args (args : List Term) (ts : List Term) {k : Nat} (hseen : d.argsSeen = k)
    (hvac : ∀ o ∈ argsFrom k ts, Vacant d o.path) :
    let d' := ((argsFrom k ts).flatMap inside).foldl (visit .build args) d
    d'.core = buildArgs args k d.core ts ∧ d'.part = d.part ∧
      ∀ key : SlotKey, key.part ≠ d.part → d'.slots.lookup key = d.slots.lookup key := by
  induction ts generalizing k d with
  | nil => exact ⟨rfl, rfl, fun _ _ => rfl⟩
  | cons t ts ih =>
    intro d'
    have hap := pairwise_apart_childrenFrom 0 [] k (t :: ts)
    rw [childrenFrom] at hap
    obtain ⟨hcore, hpart, hseen₁, hframe⟩ :=
      foldl_inside_arg args t hseen (hvac ⟨t, 1, [k]⟩ (by simp [childrenFrom]))
    have hd' : d' = ((argsFrom (k + 1) ts).flatMap inside).foldl (visit .build args)
        ((⟨t, 1, [k]⟩ : Occurrence).inside.foldl (visit .build args) d) := by
      rw [← List.foldl_append, ← List.flatMap_cons]
      rfl
    rw [hd']
    generalize (⟨t, 1, [k]⟩ : Occurrence).inside.foldl (visit .build args) d = d₁
      at hcore hpart hseen₁ hframe ⊢
    -- Later arguments are apart from this one.
    have hvac₁ : ∀ o ∈ argsFrom (k + 1) ts, Vacant d₁ o.path := by
      intro o ho key hkey hp
      rw [hpart] at hkey
      rw [hframe key fun h => (List.pairwise_cons.1 hap).1 o ho key.path h.2 hp]
      exact hvac o (by rw [argsFrom, childrenFrom]; exact List.mem_cons_of_mem _ ho) key hkey hp
    obtain ⟨hcore₁, hpart₁, hframe₁⟩ := ih hseen₁ hvac₁
    refine ⟨by rw [hcore₁, hcore]; rfl, hpart₁.trans hpart, fun key hkey => ?_⟩
    rw [hframe₁ key (by rw [hpart]; exact hkey)]
    exact hframe key fun h => hkey h.1

/-! ### Heads -/

/-- The nodes among some occurrences are put aside in known registers, and make up a queue. -/
inductive Defers (d : Draft P) : List Occurrence → List Deferred → Prop
  | nil : Defers d [] []
  | leaf {o : Occurrence} {os : List Occurrence} {q : List Deferred} (hk : o.term.kind? = none)
      (h : Defers d os q) : Defers d (o :: os) q
  | node {o : Occurrence} {os : List Occurrence} {q : List Deferred} {k : Kind} {r : Int}
      (hk : o.term.kind? = some k) (hr : d.slots.lookup (d.key o) = some r) (h : Defers d os q) :
      Defers d (o :: os) (⟨r, k, o.term.children.map Term.read⟩ :: q)

theorem Defers.append {os' : List Occurrence} {q q' : List Deferred} (h : Defers d os q)
    (h' : Defers d os' q') : Defers d (os ++ os') (q ++ q') := by
  induction h with
  | nil => exact h'
  | leaf hk _ ih => exact Defers.leaf hk ih
  | node hk hr _ ih => exact Defers.node hk hr ih

theorem Defers.congr {q : List Deferred} (h : Defers d os q)
    (hk : ∀ o ∈ os, d'.slots.lookup (d'.key o) = d.slots.lookup (d.key o)) : Defers d' os q := by
  induction h with
  | nil => exact Defers.nil
  | leaf hkind _ ih => exact Defers.leaf hkind (ih fun o ho => hk o (by simp [ho]))
  | node hkind hr _ ih =>
    refine Defers.node hkind ?_ (ih fun o ho => hk o (by simp [ho]))
    rw [hk _ (by simp)]
    exact hr

theorem split_cons_leaf {t : Term} (h : t.kind? = none) (d : Draft P) (ts : List (Tree String)) :
    d.split (t.read :: ts) = (d.leaf .check t.read).split ts := by
  cases t with
  | comp => simp [Term.kind?] at h
  | list => simp [Term.kind?] at h
  | atom | int | var => rfl

/-- The children of a node in a head, none of which has a known place, are put aside. -/
theorem foldl_subterm_check (hap : os.Pairwise Apart)
    (hnone : ∀ o ∈ os, d.slots.lookup (d.key o) = none) :
    let d' := os.foldl (subterm .check) d
    let s := d.core.split (os.map fun o => o.term.read)
    d'.core = s.2 ∧ d'.part = d.part ∧ d'.argsSeen = d.argsSeen ∧ Defers d' os s.1 ∧
      ∀ k : SlotKey, (∀ o ∈ os, k ≠ d.key o) → d'.slots.lookup k = d.slots.lookup k := by
  induction os generalizing d with
  | nil => exact ⟨rfl, rfl, rfl, Defers.nil, fun _ _ => rfl⟩
  | cons o os ih =>
    obtain ⟨hapo, hap⟩ := List.pairwise_cons.1 hap
    rw [List.foldl_cons, List.map_cons]
    cases hk : o.term.kind? with
    | none =>
      have hsame := samePlaces_leaf .check d o.term.read
      have hkey : ∀ o', (d.leaf .check o.term.read).key o' = d.key o' := by
        intro o'
        rw [key, key, hsame.part]
      have hnone' : ∀ o' ∈ os, (d.leaf .check o.term.read).slots.lookup
          ((d.leaf .check o.term.read).key o') = none := by
        intro o' ho'
        rw [hkey, hsame.slots]
        exact hnone o' (by simp [ho'])
      obtain ⟨hcore, hpart, hseen, hdef, hframe⟩ := ih hap hnone'
      rw [subterm_leaf hk, split_cons_leaf hk, ← core_leaf]
      refine ⟨hcore, hpart.trans hsame.part, hseen.trans hsame.argsSeen, Defers.leaf hk hdef, ?_⟩
      intro k hne
      rw [hframe k fun o' ho' => by rw [hkey]; exact hne o' (by simp [ho']), hsame.slots]
    | some k =>
      set d₁ : Draft P := ({ d.temp.2 with slots := (d.key o, d.temp.1) :: d.slots } : Draft P).emit
        (.subVariable .check (.reg d.temp.1)) with hd₁
      have hsub : d.subterm .check o = d₁ := by
        rw [subterm_node hk, slot_of_unknown (hnone o (by simp))]
        rfl
      rw [hsub]
      have hnone₁ : ∀ o' ∈ os, d₁.slots.lookup (d₁.key o') = none := by
        intro o' ho'
        rw [← hnone o' (by simp [ho'])]
        exact lookup_cons_of_ne (key_ne_of_path_ne (hapo o' ho').symm.path_ne) _ _
      obtain ⟨hcore, hpart, hseen, hdef, hframe⟩ := ih hap hnone₁
      -- The other children are apart from `o` and do not touch its place.
      have hself : (os.foldl (subterm .check) d₁).slots.lookup
          ((os.foldl (subterm .check) d₁).key o) = some d.temp.1 := by
        rw [key, hpart, hframe]
        · exact List.lookup_cons_self
        · intro o' ho'
          exact key_ne_of_path_ne (d := d₁) (hapo o' ho').path_ne
      have hread : d.core.split (o.term.read :: os.map fun o => o.term.read) =
          (⟨d.temp.1, k, o.term.children.map Term.read⟩ ::
            (d₁.core.split (os.map fun o => o.term.read)).1,
          (d₁.core.split (os.map fun o => o.term.read)).2) := by
        rw [Term.read_eq_node hk]
        rfl
      rw [hread]
      refine ⟨hcore, hpart, hseen, Defers.node hk hself hdef, ?_⟩
      intro k' hne
      rw [hframe k' fun o' ho' => hne o' (by simp [ho'])]
      exact lookup_cons_of_ne (hne o (by simp)) _ _

/-- No place below an occurrence is known. -/
def VacantBelow (d : Draft P) (o : Occurrence) : Prop :=
  ∀ k : SlotKey, k.part = d.part → o.path <:+ k.path → k.path ≠ o.path → d.slots.lookup k = none

theorem VacantBelow.of_mem_children {c : Occurrence} (h : VacantBelow d o) (hc : c ∈ o.children)
    {k : SlotKey} (hk : k.part = d.part) (hp : c.path <:+ k.path) : d.slots.lookup k = none :=
  h k hk ((suffix_of_mem_children hc).trans hp) (path_ne_of_mem_children hc hp)

/-- What a queue of occurrences in a head looks like. -/
structure Queued (d : Draft P) (os : List Occurrence) : Prop where
  apart : os.Pairwise Apart
  vacant : ∀ o ∈ os, VacantBelow d o

/-- The first occurrence of a queue gives way to its children. -/
theorem Queued.step (h : Queued d (o :: os)) (hpart : d'.part = d.part)
    (hframe : ∀ k : SlotKey, (∀ c ∈ o.children, k ≠ d.key c) →
      d'.slots.lookup k = d.slots.lookup k) :
    Queued d' (os ++ o.children) := by
  obtain ⟨hapo, hap⟩ := List.pairwise_cons.1 h.apart
  refine ⟨?_, ?_⟩
  · refine List.pairwise_append.2 ⟨hap, pairwise_apart_children o, ?_⟩
    intro o' ho' c hc
    exact ((hapo o' ho').of_mem_children hc).symm
  · intro o' ho' k hk hp hne
    rw [hpart] at hk
    rcases List.mem_append.1 ho' with ho' | hc
    · rw [hframe k, h.vacant o' (by simp [ho']) k hk hp hne]
      rintro c hc rfl
      exact (hapo o' ho').of_mem_children hc c.path (List.suffix_refl _) hp
    · rw [hframe k]
      · exact (h.vacant o (by simp)).of_mem_children hc hk hp
      · rintro c hc' rfl
        -- A child that is within another child is that child.
        have hlen : o'.path.length = c.path.length := by
          obtain ⟨i, hi⟩ := path_of_mem_children hc
          obtain ⟨j, hj⟩ := path_of_mem_children hc'
          rw [hi, hj, List.length_cons, List.length_cons]
        exact hne (hp.eq_of_length hlen).symm

/-- What was put aside before the first occurrence of a queue is still put aside after it. -/
theorem Queued.defers {os' : List Occurrence} {q : List Deferred} (h : Queued d (o :: os))
    (hos : os' ⊆ os) (hpart : d'.part = d.part)
    (hframe : ∀ k : SlotKey, (∀ c ∈ o.children, k ≠ d.key c) →
      d'.slots.lookup k = d.slots.lookup k)
    (hdef : Defers d os' q) : Defers d' os' q := by
  refine hdef.congr fun o' ho' => ?_
  rw [key, hpart]
  refine hframe _ fun c hc heq => ?_
  have hap := (List.pairwise_cons.1 h.apart).1 o' (hos ho')
  have hpath : o'.path = c.path := congrArg SlotKey.path heq
  exact hap.of_mem_children hc c.path (List.suffix_refl _) (hpath ▸ List.suffix_refl _)

/-- A node of a head leaves its children to be checked later. -/
theorem foldl_subterm_node (d₁ : Draft P) (hpart : d₁.part = d.part)
    (hslots : d₁.slots = d.slots) (hvac : VacantBelow d o) :
    let d' := o.children.foldl (subterm .check) d₁
    let s := d₁.core.split (o.term.children.map Term.read)
    d'.core = s.2 ∧ d'.part = d.part ∧ d'.argsSeen = d₁.argsSeen ∧ Defers d' o.children s.1 ∧
      ∀ k : SlotKey, (∀ c ∈ o.children, k ≠ d.key c) → d'.slots.lookup k = d.slots.lookup k := by
  have hkey : ∀ c, d₁.key c = d.key c := by
    intro c
    rw [key, key, hpart]
  have hnone : ∀ c ∈ o.children, d₁.slots.lookup (d₁.key c) = none := by
    intro c hc
    rw [hkey, hslots]
    exact hvac.of_mem_children hc rfl (List.suffix_refl _)
  have h := foldl_subterm_check (pairwise_apart_children o) hnone
  rw [map_read_children] at h
  obtain ⟨hcore, hpart', hseen, hdef, hframe⟩ := h
  refine ⟨hcore, hpart'.trans hpart, hseen, hdef, fun k' hne => ?_⟩
  rw [hframe k' fun c hc => by rw [hkey]; exact hne c hc, hslots]

/-- The nodes of a head below its arguments are checked in the order of the queue. -/
theorem foldl_breadthFirst_deep (args : List Term) {q : List Deferred} (hos : ∀ o ∈ os, 2 ≤ o.depth)
    (hdef : Defers d os q) (hqueued : Queued d os) :
    let d' := (Traversal.breadthFirst os).collect.foldl (visit .check args) d
    d'.core = d.core.checkQueue q ∧ d'.part = d.part ∧
      ∀ k : SlotKey, k.part ≠ d.part → d'.slots.lookup k = d.slots.lookup k := by
  -- The queue gets lighter when its first occurrence gives way to its children.
  induction hw : Traversal.weightAll os using Nat.strongRecOn generalizing os q d with
  | ind w ih =>
  match os with
  | [] =>
    cases hdef
    exact ⟨by rw [checkQueue]; rfl, rfl, fun _ _ => rfl⟩
  | o :: os =>
    have hlt : Traversal.weightAll (os ++ o.children) < w := by
      rw [← hw, Traversal.weightAll_append, Traversal.weightAll, o.weight_eq_children]
      omega
    have hdeep : ∀ o' ∈ os ++ o.children, 2 ≤ o'.depth := by
      intro o' ho'
      rcases List.mem_append.1 ho' with ho' | hc
      · exact hos o' (by simp [ho'])
      · rw [depth_of_mem_children hc]
        have := hos o (by simp)
        omega
    rw [Traversal.collect_breadthFirst_cons, List.foldl_cons, visit_deep (hos o (by simp))]
    cases hdef with
    | leaf hk hdef =>
      have hnil : o.children = [] := children_eq_nil (Term.children_eq_nil_of_kind? hk)
      rw [visitAt_leaf hk (by rw [level_deep (hos o (by simp))]; simp)]
      refine ih _ hlt hdeep ?_ (hqueued.step rfl fun _ _ => rfl) rfl
      rw [hnil, List.append_nil]
      exact hdef
    | @node _ _ q k r hk hr hdef =>
      rw [visitAt_node hk, compoundReg, level_deep (hos o (by simp)), slot_of_known hr]
      set d₁ : Draft P := d.emit (k.opener .check .deep o.term.children.length (.reg r)) with hd₁
      obtain ⟨hcore, hpart, -, hdef', hframe⟩ :=
        foldl_subterm_node d₁ rfl rfl (hqueued.vacant o (by simp))
      generalize o.children.foldl (subterm .check) d₁ = d₂ at hcore hpart hdef' hframe ⊢
      have hold : Defers d₂ os q := hqueued.defers (List.Subset.refl _) hpart hframe hdef
      obtain ⟨hcore₃, hpart₃, hframe₃⟩ :=
        ih _ hlt hdeep (hold.append hdef') (hqueued.step hpart hframe) rfl
      refine ⟨?_, hpart₃.trans hpart, fun k' hk' => ?_⟩
      · rw [hcore₃, hcore, checkQueue, List.length_map]
        rfl
      · rw [hframe₃ k' (by rw [hpart]; exact hk')]
        refine hframe k' fun c _ heq => hk' ?_
        rw [heq]
        rfl

/-- An argument of a head is checked, and the nodes below it are put aside. -/
theorem visit_arg_check (args : List Term) (t : Term) {k : Nat} (hseen : d.argsSeen = k)
    (hvac : VacantBelow d ⟨t, 1, [k]⟩) :
    let o : Occurrence := ⟨t, 1, [k]⟩
    let d' := d.visit .check args o
    let c := checkArg args k d.core t
    d'.core = c.2 ∧ d'.part = d.part ∧ d'.argsSeen = k + 1 ∧ Defers d' o.children c.1 ∧
      ∀ key : SlotKey, (∀ c ∈ o.children, key ≠ d.key c) →
        d'.slots.lookup key = d.slots.lookup key := by
  intro o d' c
  have hd' : d' = _ := visit_arg .check args t k hseen
  set d₁ : Draft P := { d with argsSeen := k + 1 } with hd₁
  cases hk : t.kind? with
  | some kind =>
    have hd' : d' = o.children.foldl (subterm .check)
        (d₁.emit (kind.opener .check .shallow t.children.length (.reg k))) := by
      rw [hd', visitAt_node (o := o) hk]
      rfl
    have hc : c = (d₁.emit (kind.opener .check .shallow t.children.length (.reg k))).core.split
        (t.children.map Term.read) := by
      show checkArg args k d.core t = _
      rw [checkArg, Term.read_eq_node hk]
      simp only [List.length_map]
      rfl
    rw [hd', hc]
    exact foldl_subterm_node (o := o) (d := d) _ rfl rfl hvac
  | none =>
    have hnil : o.children = [] := children_eq_nil (Term.children_eq_nil_of_kind? hk)
    rw [hd', hnil]
    cases t with
    | comp => simp [Term.kind?] at hk
    | list => simp [Term.kind?] at hk
    | var x =>
      obtain ⟨hvar, hsame⟩ := argVar_places .check d₁ args k x
      exact ⟨hvar, hsame.part, hsame.argsSeen, Defers.nil, fun _ _ => congrArg _ hsame.slots⟩
    | atom name => exact ⟨rfl, rfl, rfl, Defers.nil, fun _ _ => rfl⟩
    | int n => exact ⟨rfl, rfl, rfl, Defers.nil, fun _ _ => rfl⟩

/-- The arguments of a head are checked in order, and then what was put aside. -/
theorem foldl_breadthFirst_args (args : List Term) (ts : List Term) {k : Nat} {q : List Deferred}
    (hseen : d.argsSeen = k) (hos : ∀ o ∈ os, 2 ≤ o.depth) (hdef : Defers d os q)
    (hqueued : Queued d (argsFrom k ts ++ os)) :
    let d' := (Traversal.breadthFirst (argsFrom k ts ++ os)).collect.foldl (visit .check args) d
    let c := checkArgs args k d.core ts
    d'.core = c.2.checkQueue (q ++ c.1) ∧ d'.part = d.part ∧
      ∀ key : SlotKey, key.part ≠ d.part → d'.slots.lookup key = d.slots.lookup key := by
  induction ts generalizing k d os q with
  | nil =>
    simp only [checkArgs, List.append_nil]
    exact foldl_breadthFirst_deep args hos hdef hqueued
  | cons t ts ih =>
    intro d' c
    set o : Occurrence := ⟨t, 1, [k]⟩ with ho
    have hargs : argsFrom k (t :: ts) ++ os = o :: (argsFrom (k + 1) ts ++ os) := rfl
    rw [hargs] at hqueued
    obtain ⟨hcore, hpart, hseen', hdef', hframe⟩ :=
      visit_arg_check args t hseen (hqueued.vacant o (by simp))
    have hd' : d' =
        (Traversal.breadthFirst (argsFrom (k + 1) ts ++ (os ++ o.children))).collect.foldl
          (visit .check args) (d.visit .check args o) := by
      show (Traversal.breadthFirst (argsFrom k (t :: ts) ++ os)).collect.foldl _ d = _
      rw [hargs, Traversal.collect_breadthFirst_cons, List.foldl_cons, List.append_assoc]
    rw [hd']
    have hstep := hqueued.step hpart hframe
    rw [List.append_assoc] at hstep
    -- What is below the argument goes to the end of the queue, behind what is there.
    have hold : Defers (d.visit .check args o) os q :=
      hqueued.defers (List.subset_append_right _ _) hpart hframe hdef
    have hdeep : ∀ o' ∈ os ++ o.children, 2 ≤ o'.depth := by
      intro o' ho'
      rcases List.mem_append.1 ho' with ho' | hc
      · exact hos o' ho'
      · exact Nat.le_of_eq (depth_of_mem_children hc).symm
    obtain ⟨hcore₁, hpart₁, hframe₁⟩ := ih hseen' hdeep (hold.append hdef') hstep
    refine ⟨?_, hpart₁.trans hpart, fun key hkey => ?_⟩
    · rw [hcore₁, hcore, List.append_assoc]
      rfl
    · rw [hframe₁ key (by rw [hpart]; exact hkey)]
      refine hframe key fun c _ heq => hkey ?_
      rw [heq]
      rfl

/-! ### Whole heads and goals -/

/-- No place in the head or goal at hand, or in a later one, is known. -/
def Unstarted (d : Draft P) : Prop := ∀ k : SlotKey, d.part ≤ k.part → d.slots.lookup k = none

/-- Visits and recursion write the same code. -/
theorem core_write (dir : Direction) (c : Compound) (hd : Unstarted d) :
    (d.write dir c).core = d.core.compose dir c.args ∧ (d.write dir c).part = d.part ∧
      ∀ k : SlotKey, d.part < k.part → (d.write dir c).slots.lookup k = none := by
  set d₀ : Draft P := { d with argsSeen := 0, emitted := [] } with hd₀
  have hargs : (root c.toTerm).children = argsFrom 0 c.args := rfl
  -- Places carry the number of the head or goal, so that later ones stay unknown.
  have hlater : ∀ d' : Draft P, (∀ k : SlotKey, k.part ≠ d₀.part →
      d'.slots.lookup k = d₀.slots.lookup k) → ∀ k : SlotKey, d.part < k.part →
      d'.slots.lookup k = none := by
    intro d' hframe k hk
    rw [hframe k (Nat.ne_of_gt hk)]
    exact hd k (Nat.le_of_lt hk)
  cases dir with
  | check =>
    have hqueued : Queued d₀ (argsFrom 0 c.args ++ []) := by
      rw [List.append_nil]
      exact ⟨pairwise_apart_childrenFrom 0 [] 0 c.args,
        fun o _ k hk _ _ => hd k (Nat.le_of_eq hk.symm)⟩
    obtain ⟨hcore, hpart, hframe⟩ :=
      foldl_breadthFirst_args c.args c.args rfl (by simp) Defers.nil hqueued
    rw [List.append_nil, ← hargs] at hcore hpart hframe
    exact ⟨hcore, hpart, hlater _ hframe⟩
  | build =>
    have hvac : ∀ o ∈ argsFrom 0 c.args, Vacant d₀ o.path :=
      fun o _ k hk _ => hd k (Nat.le_of_eq hk.symm)
    obtain ⟨hcore, hpart, hframe⟩ := foldl_inside_args (d := d₀) c.args c.args rfl hvac
    have hwrite : d.write .build c =
        ((argsFrom 0 c.args).flatMap inside).foldl (visit .build c.args) d₀ := by
      rw [write, Direction.traversal, Traversal.collect_bottomUp, List.foldl_append, hargs]
      rfl
    rw [hwrite]
    exact ⟨hcore, hpart, hlater _ hframe⟩

end ClauseCode.Draft
