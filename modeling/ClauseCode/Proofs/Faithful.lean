import ClauseCode.Proofs.Reading
import ClauseCode.Proofs.Tree
import Mathlib.Data.List.Nodup

/-!
# Terms that remember their variables

Terms remember whether a variable occurs in them.  In a faithful term this is never forgotten, and
then the variables that the compiler finds in a term are those that occur in it
(`Term.mem_vars_iff`).  The constructors make faithful terms out of faithful terms, so that every
clause that is read from JSON is faithful (`Clause.faithful_ofJson`), and so is its normal form.
-/

namespace ClauseCode

namespace Term

mutual

/-- Whether a term that remembers no variable has none, and likewise the terms below it. -/
def Faithful : Term → Prop
  | atom _ => True
  | int _ => True
  | var _ => True
  | comp _ args b => (b = false → ∀ t ∈ args, t.read.vars = []) ∧ FaithfulAll args
  | list head rest tail b =>
    (b = false → head.read.vars = [] ∧ (∀ t ∈ rest, t.read.vars = []) ∧ tail.read.vars = []) ∧
      head.Faithful ∧ FaithfulAll rest ∧ tail.Faithful

/-- Whether several terms are faithful. -/
def FaithfulAll : List Term → Prop
  | [] => True
  | t :: ts => t.Faithful ∧ FaithfulAll ts

end

variable {t : Term} {x y : String} {xs : List String}

theorem faithfulAll_iff {ts : List Term} : FaithfulAll ts ↔ ∀ t ∈ ts, t.Faithful := by
  induction ts with
  | nil => simp [FaithfulAll]
  | cons t ts ih => rw [FaithfulAll, ih, List.forall_mem_cons]

theorem mem_vars_readCells {ts : List Term} {u : Tree String} :
    x ∈ (readCells ts u).vars ↔ (∃ t ∈ ts, x ∈ t.read.vars) ∨ x ∈ u.vars := by
  induction ts with
  | nil => simp [readCells]
  | cons t ts ih =>
    rw [readCells, Tree.mem_vars_node]
    simp [ih, or_assoc]

theorem mem_vars_comp {f : String} {args : List Term} {b : Bool} :
    x ∈ (comp f args b).read.vars ↔ ∃ t ∈ args, x ∈ t.read.vars := by
  rw [read, Tree.mem_vars_node, readAll_eq_map]
  simp

theorem mem_vars_list {head tail : Term} {rest : List Term} {b : Bool} :
    x ∈ (list head rest tail b).read.vars ↔
      x ∈ head.read.vars ∨ (∃ t ∈ rest, x ∈ t.read.vars) ∨ x ∈ tail.read.vars := by
  rw [read, Tree.mem_vars_node]
  simp [mem_vars_readCells]

/-- A faithful term that remembers no variable has none. -/
theorem vars_eq_nil (ht : t.Faithful) (h : t.hasVar = false) : t.read.vars = [] := by
  refine List.eq_nil_iff_forall_not_mem.2 fun x hx => ?_
  cases t with
  | atom | int => simp [read] at hx
  | var y => simp [hasVar] at h
  | comp f args b =>
    obtain ⟨u, hu, hxu⟩ := mem_vars_comp.1 hx
    simp [ht.1 h u hu] at hxu
  | list head rest tail b =>
    obtain ⟨hhead, hrest, htail⟩ := ht.1 h
    rcases mem_vars_list.1 hx with hx | ⟨u, hu, hx⟩ | hx
    · simp [hhead] at hx
    · simp [hrest u hu] at hx
    · simp [htail] at hx

/-! ### Constructors -/

theorem faithful_apply (f : String) {args : List Term} (h : ∀ t ∈ args, t.Faithful) :
    (apply f args).Faithful := by
  refine ⟨fun hb t ht => vars_eq_nil (h t ht) ?_, faithfulAll_iff.2 h⟩
  simpa using List.any_eq_false.1 hb t ht

theorem faithful_chain {head tail : Term} {rest : List Term} (hhead : head.Faithful)
    (hrest : ∀ t ∈ rest, t.Faithful) (htail : tail.Faithful) :
    (chain head rest tail).Faithful := by
  refine ⟨fun hb => ?_, hhead, faithfulAll_iff.2 hrest, htail⟩
  rw [Bool.or_eq_false_iff, List.any_cons, Bool.or_eq_false_iff, List.any_eq_false] at hb
  exact ⟨vars_eq_nil hhead hb.1.1,
    fun t ht => vars_eq_nil (hrest t ht) (by simpa using hb.1.2 t ht), vars_eq_nil htail hb.2⟩

theorem faithful_prepend {ts : List Term} {tail : Term} (hts : ∀ t ∈ ts, t.Faithful)
    (htail : tail.Faithful) : (prepend ts tail).Faithful := by
  cases ts with
  | nil => exact htail
  | cons t ts =>
    rw [List.forall_mem_cons] at hts
    cases tail with
    | list head rest tail b =>
      obtain ⟨-, hhead, hrest, htail⟩ := htail
      refine faithful_chain hts.1 (fun u hu => ?_) htail
      rw [List.mem_append, List.mem_cons] at hu
      rcases hu with hu | rfl | hu
      · exact hts.2 u hu
      · exact hhead
      · exact faithfulAll_iff.1 hrest u hu
    | atom | int | var | comp => exact faithful_chain hts.1 hts.2 htail

/-! ### Finding the variables of a term -/

theorem mem_note : x ∈ note xs y ↔ x ∈ xs ∨ x = y := by
  unfold note
  split
  next h =>
    have hy : y ∈ xs := by simpa using h
    exact ⟨Or.inl, fun h => h.elim id fun h => h ▸ hy⟩
  next => rw [List.mem_append, List.mem_singleton]

theorem nodup_note (h : xs.Nodup) (y : String) : (note xs y).Nodup := by
  unfold note
  split
  next => exact h
  next hy => exact h.append (List.nodup_singleton y) (by simpa using hy)

/-- A function that adds names to a list: only names in `S`, all of them if `full` holds, and each
once. -/
structure Gathers (f : List String → List String) (S : String → Prop) (full : Prop) : Prop where
  keeps : ∀ xs x, x ∈ xs → x ∈ f xs
  only : ∀ xs x, x ∈ f xs → x ∈ xs ∨ S x
  all : full → ∀ xs x, S x → x ∈ f xs
  nodup : ∀ xs, xs.Nodup → (f xs).Nodup

theorem Gathers.skip {S : String → Prop} {full : Prop} (h : full → ∀ x, ¬ S x) :
    Gathers id S full :=
  ⟨fun _ _ h => h, fun _ _ h => Or.inl h, fun hf _ x hx => absurd hx (h hf x), fun _ h => h⟩

theorem Gathers.comp {f g : List String → List String} {S T : String → Prop} {p q : Prop}
    (hf : Gathers f S p) (hg : Gathers g T q) :
    Gathers (fun xs => g (f xs)) (fun x => S x ∨ T x) (p ∧ q) where
  keeps xs x hx := hg.keeps _ x (hf.keeps xs x hx)
  only xs x hx := by
    rcases hg.only _ x hx with hx | hx
    · exact (hf.only xs x hx).imp_right Or.inl
    · exact Or.inr (Or.inr hx)
  all hpq xs x hx := by
    rcases hx with hx | hx
    · exact hg.keeps _ x (hf.all hpq.1 xs x hx)
    · exact hg.all hpq.2 _ x hx
  nodup xs h := hg.nodup _ (hf.nodup xs h)

theorem Gathers.congr {f : List String → List String} {S T : String → Prop} {p q : Prop}
    (h : Gathers f S p) (hST : ∀ x, S x ↔ T x) (hpq : q → p) : Gathers f T q :=
  ⟨h.keeps, fun xs x hx => (h.only xs x hx).imp_right (hST x).1,
    fun hq xs x hx => h.all (hpq hq) xs x ((hST x).2 hx), h.nodup⟩

theorem gathers_varsOntoAll {ts : List Term}
    (h : ∀ t ∈ ts, Gathers t.varsOnto (· ∈ t.read.vars) t.Faithful) :
    Gathers (varsOntoAll ts) (fun x => ∃ t ∈ ts, x ∈ t.read.vars) (FaithfulAll ts) := by
  induction ts with
  | nil => exact Gathers.skip (by simp)
  | cons t ts ih =>
    refine ((h t (by simp)).comp (ih fun t' ht' => h t' (by simp [ht']))).congr (fun x => ?_) id
    simp

/-- The compiler finds the variables of a term: no others, and all of them if the term is
faithful. -/
theorem gathers_varsOnto (t : Term) : Gathers t.varsOnto (· ∈ t.read.vars) t.Faithful := by
  induction t with
  | atom name => exact Gathers.skip (by simp [read])
  | int n => exact Gathers.skip (by simp [read])
  | var y =>
    have hmem : ∀ x, x ∈ (var y).read.vars ↔ x = y := fun x => by simp [read]
    refine ⟨fun xs x hx => mem_note.2 (Or.inl hx), fun xs x hx => ?_, fun _ xs x hx => ?_,
      fun xs h => nodup_note h y⟩
    · rw [hmem]
      exact mem_note.1 hx
    · exact mem_note.2 (Or.inr ((hmem x).1 hx))
  | comp f args b ih =>
    cases b with
    | false => exact Gathers.skip fun hf x hx => by simp [vars_eq_nil hf rfl] at hx
    | true => exact (gathers_varsOntoAll ih).congr (fun x => mem_vars_comp.symm) fun hf => hf.2
  | list head rest tail b ihead irest itail =>
    cases b with
    | false => exact Gathers.skip fun hf x hx => by simp [vars_eq_nil hf rfl] at hx
    | true =>
      refine ((ihead.comp (gathers_varsOntoAll irest)).comp itail).congr (fun x => ?_) fun hf => ?_
      · rw [mem_vars_list, or_assoc]
      · exact ⟨⟨hf.2.1, hf.2.2.1⟩, hf.2.2.2⟩

theorem mem_vars_iff (ht : t.Faithful) : x ∈ t.vars ↔ x ∈ t.read.vars := by
  have h := t.gathers_varsOnto
  exact ⟨fun hx => (h.only [] x hx).resolve_left (by simp), h.all ht [] x⟩

theorem occurs_iff (ht : t.Faithful) : occurs x t = true ↔ x ∈ t.read.vars := by
  rw [occurs, List.contains_iff_mem, mem_vars_iff ht]

end Term

namespace Compound

/-- Whether a variable occurs in a compound. -/
def Has (c : Compound) (x : String) : Prop := ∃ t ∈ c.args, x ∈ t.read.vars

/-- Whether the arguments of a compound are faithful. -/
def Faithful (c : Compound) : Prop := ∀ t ∈ c.args, t.Faithful

theorem gathers_varsOnto (c : Compound) :
    Term.Gathers c.toTerm.varsOnto c.Has c.Faithful :=
  c.toTerm.gathers_varsOnto.congr (fun _ => Term.mem_vars_comp)
    (Term.faithful_apply c.functor)

theorem mem_varsOnto_iff {c : Compound} (hc : c.Faithful) {xs : List String} {x : String} :
    x ∈ c.toTerm.varsOnto xs ↔ x ∈ xs ∨ c.Has x := by
  have h := c.gathers_varsOnto
  constructor
  · exact h.only xs x
  · rintro (hx | hx)
    · exact h.keeps xs x hx
    · exact h.all hc xs x hx

theorem mem_vars_iff {c : Compound} (hc : c.Faithful) {x : String} :
    x ∈ c.toTerm.vars ↔ c.Has x := by
  rw [Term.vars, mem_varsOnto_iff hc, or_iff_right (List.not_mem_nil)]

end Compound

namespace NormalClause

/-- Whether the terms of a clause are faithful. -/
structure Faithful (n : NormalClause) : Prop where
  head : n.head.Faithful
  body : ∀ g ∈ n.body, g.Faithful

end NormalClause

namespace Clause

/-- Whether the terms of a clause are faithful. -/
structure Faithful (c : Clause) : Prop where
  head : c.head.Faithful
  body : ∀ t ∈ c.body, t.Faithful

/-- In a normal form, each goal is the compound that the goal of the clause stands for. -/
theorem forall₂_goalCompounds {ts : List Term} {gs : List Compound}
    (h : goalCompounds ts = .ok gs) :
    List.Forall₂ (fun t g => goalCompound t = some g) ts gs := by
  induction ts generalizing gs with
  | nil =>
    obtain rfl := Except.ok.inj h
    exact List.Forall₂.nil
  | cons t ts ih =>
    rw [goalCompounds] at h
    split at h
    next => simp at h
    next g hg =>
      split at h
      next => simp at h
      next gs' hgs =>
        obtain rfl := Except.ok.inj h
        exact List.Forall₂.cons hg (ih hgs)

theorem normalize_eq_ok {c : Clause} {n : NormalClause} (h : c.normalize = .ok n) :
    headCompound c.head = some n.head ∧ goalCompounds c.body = .ok n.body := by
  rw [normalize] at h
  split at h
  next => simp at h
  next head hhead =>
    split at h
    next => simp at h
    next body hbody =>
      obtain rfl := Except.ok.inj h
      exact ⟨hhead, hbody⟩

theorem faithful_headCompound {t : Term} {g : Compound} (ht : t.Faithful)
    (hg : headCompound t = some g) : g.Faithful := by
  cases t with
  | atom name =>
    obtain rfl := Option.some.inj hg
    simp [Compound.Faithful]
  | comp f args b =>
    obtain rfl := Option.some.inj hg
    exact Term.faithfulAll_iff.1 ht.2
  | int n => simp [headCompound] at hg
  | var x => simp [headCompound] at hg
  | list head rest tail b => simp [headCompound] at hg

theorem faithful_goalCompound {t : Term} {g : Compound} (ht : t.Faithful)
    (hg : goalCompound t = some g) : g.Faithful := by
  cases t with
  | var x =>
    rw [goalCompound] at hg
    split at hg
    next => simp at hg
    next =>
      obtain rfl := Option.some.inj hg
      simp [Compound.Faithful, Term.Faithful]
  | atom name => exact faithful_headCompound ht hg
  | comp f args b => exact faithful_headCompound ht hg
  | int n => simp [goalCompound] at hg
  | list head rest tail b => simp [goalCompound] at hg

theorem faithful_goalCompounds {ts : List Term} {gs : List Compound}
    (hts : ∀ t ∈ ts, t.Faithful) (hgs : goalCompounds ts = .ok gs) : ∀ g ∈ gs, g.Faithful := by
  replace hgs := forall₂_goalCompounds hgs
  induction hgs with
  | nil => simp
  | cons hg _ ih =>
    rw [List.forall_mem_cons] at hts ⊢
    exact ⟨faithful_goalCompound hts.1 hg, ih hts.2⟩

theorem Faithful.normalize {c : Clause} {n : NormalClause} (hc : c.Faithful)
    (hn : c.normalize = .ok n) : n.Faithful := by
  obtain ⟨hhead, hbody⟩ := normalize_eq_ok hn
  exact ⟨faithful_headCompound hc.head hhead, faithful_goalCompounds hc.body hbody⟩

end Clause

/-! ### Reading clauses -/

namespace Term

theorem faithful_ofString (s : String) : (ofString s).Faithful := by
  unfold ofString
  split
  · trivial
  · split <;> trivial

theorem faithful_ofEntry {f : String} {args : List Term} (h : ∀ t ∈ args, t.Faithful)
    (ht : ofEntry f args = .ok t) : t.Faithful := by
  rcases ofEntry_eq_ok_iff.1 ht with ⟨-, rfl⟩ | ⟨-, us, u, -, rfl, rfl⟩
  · exact faithful_apply f h
  · exact faithful_prepend (fun t ht => h t (by simp [ht])) (h u (by simp))

/-- A term that is read from JSON is faithful. -/
theorem faithful_ofJson {v : Json} (h : ofJson v = .ok t) : t.Faithful := by
  refine ofJson_induction (motive := fun _ t => t.Faithful) faithful_ofString (fun _ _ _ => trivial)
    (fun items ts hts => ?_) (fun f items ts t hts ht => ?_) h
  · exact faithful_prepend (forall_mem_of_forall₂ hts fun _ _ ht => ht) trivial
  · exact faithful_ofEntry (forall_mem_of_forall₂ hts fun _ _ ht => ht) ht

end Term

theorem Clause.faithful_bodyOfJson {v : Option Json} {ts : List Term}
    (h : bodyOfJson v = .ok ts) : ∀ t ∈ ts, t.Faithful := by
  rcases bodyOfJson_eq_ok_iff.1 h with ⟨-, rfl⟩ | ⟨items, -, hts⟩
  · simp
  · exact forall_mem_of_forall₂ (Term.ofJsons_eq_ok_iff.1 hts) fun _ _ ht => Term.faithful_ofJson ht

/-- A clause that is read from JSON is faithful. -/
theorem Clause.faithful_ofJson (choice : Choice String) {v : Json} {c : Clause}
    (h : Clause.ofJson choice v = .ok c) : c.Faithful := by
  rcases ofJson_eq_ok_iff.1 h with ⟨members, head, -, -, hmembers⟩ | ⟨-, hfact⟩
  · obtain ⟨-, hhead, hbody⟩ := ofMembers_eq_ok_iff.1 hmembers
    exact ⟨Term.faithful_ofJson hhead, faithful_bodyOfJson hbody⟩
  · obtain ⟨hhead, hbody⟩ := factOfJson_eq_ok_iff.1 hfact
    exact ⟨Term.faithful_ofJson hhead, by simp [hbody]⟩

end ClauseCode
