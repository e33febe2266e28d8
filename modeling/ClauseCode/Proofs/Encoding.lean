import ClauseCode.Machine.Assembly
import ClauseCode.Proofs.Addresses
import ClauseCode.Proofs.Mentions
import ClauseCode.Proofs.Notation
import ClauseCode.Proofs.Operands
import ClauseCode.Proofs.Shape

/-!
# Instructions as terms, there and back

`Instruction.Reads` says which terms are read as which instructions, operation by operation
(`Instruction.ofTerm_eq_ok_iff`).  An instruction that is well formed is read back from what is
written for it (`Instruction.ofTerm_toTerm`), and whatever is read is well formed
(`Instruction.wellFormed_of_ofTerm`).

Compiled code is well formed too, as far as functors have names that can be read.  Levels and
symbols come out right under any allocation policy, by the steps that write code
(`NormalClause.Codes.canonical`).  Functors are those of structures in the clause
(`Compound.Shapes.readable`), and the standard policy gives no negative number to an address.

The text of an instruction is its name, a space and its operands (`Instruction.text_eq`), and what
is written for the instruction has the same name (`Instruction.exists_toTerm_eq`).
-/

namespace ClauseCode

open Decimal (Fits)

namespace Instruction

/-! ### Well-formed instructions -/

/-- The functor of a structure. -/
def functor? : Instruction → Option Functor
  | struct _ symbol arity _ => some ⟨symbol.name, arity⟩
  | _ => none

/-- Whether an instruction is determined by what its text shows: its level suits its address, and
its symbol is that of its functor. -/
def Canonical : Instruction → Prop
  | constant _ level _ reg => level.Suits reg
  | list _ level reg => level.Suits reg
  | struct _ symbol arity _ => symbol = Functor.symbol ⟨symbol.name, arity⟩
  | _ => True

instance (i : Instruction) : Decidable i.Canonical :=
  match i with
  | constant _ level _ reg => inferInstanceAs (Decidable (level.Suits reg))
  | list _ level reg => inferInstanceAs (Decidable (level.Suits reg))
  | struct .. => inferInstanceAs (Decidable (_ = _))
  | argVariable .. | argValue .. | subConstant .. | subVariable .. | subValue .. | void .. =>
    inferInstanceAs (Decidable True)

/-- The instructions that can be read. -/
structure WellFormed (i : Instruction) : Prop where
  /-- Registers, slots and arguments are numbered from zero on. -/
  indices : ∀ a ∈ i.mentions, 0 ≤ a.index
  canonical : i.Canonical
  /-- A functor has an arity from zero on, and a name that is not empty and has no newline. -/
  functor : ∀ f ∈ i.functor?, 0 ≤ f.arity ∧ Functor.Readable f.name

/-- Whether words of 64 bits can hold the numbers of addresses and the arity in an instruction. -/
structure InWords (i : Instruction) : Prop where
  indices : ∀ a ∈ i.mentions, Fits a.index
  functor : ∀ f ∈ i.functor?, Fits f.arity

/-! ### Operands -/

variable {t : Term} {args : List Term} {i : Instruction} {d : Direction} {op : Mnemonic}

theorem addressOperand_eq_ok_iff {p : Address × Level} :
    addressOperand t = .ok p ↔ ∃ s, (t = .var s ∨ t = .atom s) ∧ Address.parse s = .ok p := by
  cases t with
  | var s => cases hs : Address.parse s <;> simp [addressOperand, hs]
  | atom s => cases hs : Address.parse s <;> simp [addressOperand, hs]
  | int | comp | list => simp [addressOperand]

theorem functorOperand_eq_ok_iff {f : Functor} :
    functorOperand t = .ok f ↔ ∃ s, t = .atom s ∧ Functor.parse s = .ok f := by
  cases t with
  | atom s => cases hf : Functor.parse s <;> simp [functorOperand, hf]
  | int | var | comp | list => simp [functorOperand]

theorem argOperand_eq_ok_iff {n : Int} :
    argOperand t = .ok n ↔ addressOperand t = .ok (.reg n, .shallow) := by
  unfold argOperand
  split
  next m heq => simp [heq]
  next p hne heq =>
    rw [heq]
    refine ⟨fun h => by simp at h, fun h => ?_⟩
    exact absurd (Except.ok.inj h) (hne n)
  next e heq => simp [heq]

theorem constantOperand_eq_ok_iff {c : Constant} :
    constantOperand t = .ok c ↔ t = constantTerm c := by
  cases t <;> cases c <;> simp [constantOperand, constantTerm]

theorem intOperand_eq_ok_iff {n : Int} : intOperand t = .ok n ↔ t = .int n := by
  cases t <;> simp [intOperand]

/-- The operands of an operation and the instruction that they make. -/
inductive Reads (d : Direction) : Mnemonic → List Term → Instruction → Prop
  | constant {c : Constant} {a : Term} {reg : Address} {level : Level}
      (ha : addressOperand a = .ok (reg, level)) :
      Reads d .constant [constantTerm c, a] (.constant d level c reg)
  | list {a : Term} {reg : Address} {level : Level} (ha : addressOperand a = .ok (reg, level)) :
      Reads d .list [a] (.list d level reg)
  | struct {t a : Term} {f : Functor} {reg : Address} {level : Level}
      (hf : functorOperand t = .ok f) (ha : addressOperand a = .ok (reg, level)) :
      Reads d .struct [t, a] (.struct d f.symbol f.arity reg)
  | argVariable {a t : Term} {reg : Address} {level : Level} {k : Int}
      (ha : addressOperand a = .ok (reg, level)) (hk : argOperand t = .ok k) :
      Reads d .argVariable [a, t] (.argVariable d reg k)
  | argValue {a t : Term} {reg : Address} {level : Level} {k : Int}
      (ha : addressOperand a = .ok (reg, level)) (hk : argOperand t = .ok k) :
      Reads d .argValue [a, t] (.argValue d reg k)
  | subConstant (c : Constant) : Reads d .subConstant [constantTerm c] (.subConstant d c)
  | subVariable {a : Term} {reg : Address} {level : Level}
      (ha : addressOperand a = .ok (reg, level)) : Reads d .subVariable [a] (.subVariable d reg)
  | subValue {a : Term} {reg : Address} {level : Level}
      (ha : addressOperand a = .ok (reg, level)) : Reads d .subValue [a] (.subValue d reg)
  | void (n : Int) : Reads d .void [.int n] (.void d n)

theorem exists_of_bind_eq_ok {ε α β : Type} {x : Except ε α} {f : α → Except ε β} {b : β}
    (h : (x >>= f) = .ok b) : ∃ a, x = .ok a ∧ f a = .ok b := by
  cases x with
  | error e => exact nomatch h
  | ok a => exact ⟨a, rfl, h⟩

theorem ofOperands_eq_ok_iff : ofOperands d op args = .ok i ↔ Reads d op args i := by
  constructor
  · intro h
    unfold ofOperands at h
    split at h
    next c a =>
      obtain ⟨c', hc, h⟩ := exists_of_bind_eq_ok h
      obtain ⟨⟨reg, level⟩, ha, h⟩ := exists_of_bind_eq_ok h
      obtain rfl := Except.ok.inj h
      obtain rfl := constantOperand_eq_ok_iff.1 hc
      exact .constant ha
    next a =>
      obtain ⟨⟨reg, level⟩, ha, h⟩ := exists_of_bind_eq_ok h
      obtain rfl := Except.ok.inj h
      exact .list ha
    next t a =>
      obtain ⟨f, hf, h⟩ := exists_of_bind_eq_ok h
      obtain ⟨⟨reg, level⟩, ha, h⟩ := exists_of_bind_eq_ok h
      obtain rfl := Except.ok.inj h
      exact .struct hf ha
    next a k =>
      obtain ⟨⟨reg, level⟩, ha, h⟩ := exists_of_bind_eq_ok h
      obtain ⟨k', hk, h⟩ := exists_of_bind_eq_ok h
      obtain rfl := Except.ok.inj h
      exact .argVariable ha hk
    next a k =>
      obtain ⟨⟨reg, level⟩, ha, h⟩ := exists_of_bind_eq_ok h
      obtain ⟨k', hk, h⟩ := exists_of_bind_eq_ok h
      obtain rfl := Except.ok.inj h
      exact .argValue ha hk
    next c =>
      obtain ⟨c', hc, h⟩ := exists_of_bind_eq_ok h
      obtain rfl := Except.ok.inj h
      obtain rfl := constantOperand_eq_ok_iff.1 hc
      exact .subConstant c'
    next a =>
      obtain ⟨⟨reg, level⟩, ha, h⟩ := exists_of_bind_eq_ok h
      obtain rfl := Except.ok.inj h
      exact .subVariable ha
    next a =>
      obtain ⟨⟨reg, level⟩, ha, h⟩ := exists_of_bind_eq_ok h
      obtain rfl := Except.ok.inj h
      exact .subValue ha
    next n =>
      obtain ⟨m, hm, h⟩ := exists_of_bind_eq_ok h
      obtain rfl := Except.ok.inj h
      obtain rfl := intOperand_eq_ok_iff.1 hm
      exact .void m
    next => exact nomatch h
  · intro h
    have hconstant : ∀ c, constantOperand (constantTerm c) = .ok c :=
      fun c => constantOperand_eq_ok_iff.2 rfl
    cases h with
    | constant ha => simp only [ofOperands, hconstant, ha]; rfl
    | list ha => simp only [ofOperands, ha]; rfl
    | struct hf ha => simp only [ofOperands, hf, ha]; rfl
    | argVariable ha hk => simp only [ofOperands, ha, hk]; rfl
    | argValue ha hk => simp only [ofOperands, ha, hk]; rfl
    | subConstant c => simp only [ofOperands, hconstant]; rfl
    | subVariable ha => simp only [ofOperands, ha]; rfl
    | subValue ha => simp only [ofOperands, ha]; rfl
    | void n => rfl

theorem Mnemonic.ofName_eq_some_iff {name : String} :
    ofName name = some (d, op) ↔ name = op.name d := by
  constructor
  · intro h
    simpa [eq_comm] using List.find?_some h
  · rintro rfl
    cases d <;> cases op <;> rfl

/-- The terms that are read as instructions. -/
theorem ofTerm_eq_ok_iff :
    ofTerm t = .ok i ↔
      ∃ d op args b, t = .comp (Mnemonic.name d op) args b ∧ Reads d op args i := by
  cases t with
  | comp functor args b =>
    have hparts : ofTerm (.comp functor args b) = .ok i ↔ ofParts functor args = .ok i := by
      cases hi : ofParts functor args <;> simp [ofTerm, hi]
    rw [hparts, ofParts]
    constructor
    · intro h
      split at h
      next d op hname =>
        obtain rfl := Mnemonic.ofName_eq_some_iff.1 hname
        exact ⟨d, op, args, b, rfl, ofOperands_eq_ok_iff.1 h⟩
      next => exact nomatch h
    · rintro ⟨d, op, args', b', heq, hreads⟩
      obtain ⟨rfl, rfl, rfl⟩ := Term.comp.inj heq
      rw [Mnemonic.ofName_eq_some_iff.2 rfl]
      exact ofOperands_eq_ok_iff.2 hreads
  | atom | int | var | list => simp [ofTerm]

/-! ### Reading what is written -/

theorem addressOperand_text {a : Address} (ha : 0 ≤ a.index) (hfits : Fits a.index) :
    addressOperand (.var a.text) = .ok (a, .deep) :=
  addressOperand_eq_ok_iff.2 ⟨_, Or.inl rfl, Address.parse_text ha hfits⟩

theorem addressOperand_textAt {a : Address} {l : Level} (hl : l.Suits a) (ha : 0 ≤ a.index)
    (hfits : Fits a.index) : addressOperand (.var (a.textAt l)) = .ok (a, l) :=
  addressOperand_eq_ok_iff.2 ⟨_, Or.inl rfl, Address.parse_textAt hl ha hfits⟩

theorem argOperand_argText {k : Int} (hk : 0 ≤ k) (hfits : Fits k) :
    argOperand (.var (Address.argText k)) = .ok k :=
  argOperand_eq_ok_iff.2
    (addressOperand_eq_ok_iff.2 ⟨_, Or.inl rfl, Address.parse_argText hk hfits⟩)

/-- A well-formed instruction is read back from what is written for it. -/
theorem ofTerm_toTerm (h : i.WellFormed) (hwords : i.InWords) : ofTerm i.toTerm = .ok i := by
  have hindices := h.indices
  have hfits := hwords.indices
  have haddress : ∀ a ∈ i.mentions, addressOperand (.var a.text) = .ok (a, .deep) :=
    fun a ha => addressOperand_text (hindices a ha) (hfits a ha)
  have hlevel : ∀ a ∈ i.mentions, ∀ l : Level, l.Suits a →
      addressOperand (.var (a.textAt l)) = .ok (a, l) :=
    fun a ha l hl => addressOperand_textAt hl (hindices a ha) (hfits a ha)
  have harg : ∀ k : Int, .reg k ∈ i.mentions → argOperand (.var (Address.argText k)) = .ok k :=
    fun k hk => argOperand_argText (hindices _ hk) (hfits _ hk)
  cases i with
  | constant d l c a =>
    exact ofTerm_eq_ok_iff.2
      ⟨d, .constant, _, _, rfl, .constant (hlevel a (by simp [mentions]) l h.canonical)⟩
  | list d l a =>
    exact ofTerm_eq_ok_iff.2
      ⟨d, .list, _, _, rfl, .list (hlevel a (by simp [mentions]) l h.canonical)⟩
  | struct d symbol n a =>
    obtain ⟨hn, hname⟩ := h.functor _ rfl
    have hfunctor : functorOperand (.atom (Functor.text ⟨symbol.name, n⟩)) = .ok ⟨symbol.name, n⟩ :=
      functorOperand_eq_ok_iff.2 ⟨_, rfl, Functor.parse_text hname hn (hwords.functor _ rfl)⟩
    have hread := Reads.struct (d := d) hfunctor (haddress a (by simp [mentions]))
    have hsymbol : Functor.symbol ⟨symbol.name, n⟩ = symbol := h.canonical.symm
    rw [hsymbol] at hread
    exact ofTerm_eq_ok_iff.2 ⟨d, .struct, _, _, rfl, hread⟩
  | argVariable d a k =>
    exact ofTerm_eq_ok_iff.2 ⟨d, .argVariable, _, _, rfl,
      .argVariable (haddress a (by simp [mentions])) (harg k (by simp [mentions]))⟩
  | argValue d a k =>
    exact ofTerm_eq_ok_iff.2 ⟨d, .argValue, _, _, rfl,
      .argValue (haddress a (by simp [mentions])) (harg k (by simp [mentions]))⟩
  | subConstant d c => exact ofTerm_eq_ok_iff.2 ⟨d, .subConstant, _, _, rfl, .subConstant c⟩
  | subVariable d a =>
    exact ofTerm_eq_ok_iff.2
      ⟨d, .subVariable, _, _, rfl, .subVariable (haddress a (by simp [mentions]))⟩
  | subValue d a =>
    exact ofTerm_eq_ok_iff.2 ⟨d, .subValue, _, _, rfl, .subValue (haddress a (by simp [mentions]))⟩
  | void d n => exact ofTerm_eq_ok_iff.2 ⟨d, .void, _, _, rfl, .void n⟩

/-! ### What is read -/

theorem suits_of_addressOperand {a : Address} {l : Level} (h : addressOperand t = .ok (a, l)) :
    l.Suits a ∧ 0 ≤ a.index ∧ Fits a.index := by
  obtain ⟨s, -, hs⟩ := addressOperand_eq_ok_iff.1 h
  exact Address.suits_of_parse hs

theorem wellFormed_of_mentions (h : ∀ a ∈ i.mentions, 0 ≤ a.index ∧ Fits a.index)
    (hf : i.functor? = none) (hc : i.Canonical) : i.WellFormed ∧ i.InWords :=
  ⟨⟨fun a ha => (h a ha).1, hc, by simp [hf]⟩, ⟨fun a ha => (h a ha).2, by simp [hf]⟩⟩

theorem Reads.wellFormed (h : Reads d op args i) : i.WellFormed ∧ i.InWords := by
  have haddress : ∀ {u : Term} {a : Address} {l : Level}, addressOperand u = .ok (a, l) →
      ∀ b ∈ [a], 0 ≤ b.index ∧ Fits b.index := by
    intro u a l ha
    simpa using (suits_of_addressOperand ha).2
  have hpair : ∀ {u v : Term} {a : Address} {l : Level} {k : Int},
      addressOperand u = .ok (a, l) → argOperand v = .ok k →
        ∀ b ∈ [a, .reg k], 0 ≤ b.index ∧ Fits b.index := by
    intro u v a l k ha hk
    exact List.forall_mem_cons.2
      ⟨(suits_of_addressOperand ha).2, haddress (argOperand_eq_ok_iff.1 hk)⟩
  cases h with
  | constant ha => exact wellFormed_of_mentions (haddress ha) rfl (suits_of_addressOperand ha).1
  | list ha => exact wellFormed_of_mentions (haddress ha) rfl (suits_of_addressOperand ha).1
  | @struct t a f reg level hf ha =>
    obtain ⟨-, hnonneg, hfits⟩ := suits_of_addressOperand ha
    obtain ⟨s, -, hs⟩ := functorOperand_eq_ok_iff.1 hf
    obtain ⟨hname, ds, -, hindex⟩ := Functor.parse_eq_ok_iff.1 hs
    refine ⟨⟨by simpa [mentions] using hnonneg, rfl, ?_⟩, ⟨by simpa [mentions] using hfits, ?_⟩⟩
    · rintro g ⟨⟩
      exact ⟨hindex.nonneg, hname⟩
    · rintro g ⟨⟩
      exact hindex.fits
  | argVariable ha hk => exact wellFormed_of_mentions (hpair ha hk) rfl trivial
  | argValue ha hk => exact wellFormed_of_mentions (hpair ha hk) rfl trivial
  | subVariable ha => exact wellFormed_of_mentions (haddress ha) rfl trivial
  | subValue ha => exact wellFormed_of_mentions (haddress ha) rfl trivial
  | subConstant | void => exact wellFormed_of_mentions (by simp [mentions]) rfl trivial

/-- What is read is well formed. -/
theorem wellFormed_of_ofTerm (h : ofTerm t = .ok i) : i.WellFormed ∧ i.InWords := by
  obtain ⟨d, op, args, b, -, hreads⟩ := ofTerm_eq_ok_iff.1 h
  exact hreads.wellFormed

end Instruction

/-! ### Compiled code -/

theorem Kind.canonical_opener (kind : Kind) (dir : Direction) {level : Level} (n : ℕ) (r : Int)
    (hlevel : level = .shallow ∨ level = .deep) :
    (kind.opener dir level n (.reg r)).Canonical := by
  cases kind with
  | functor f => exact rfl
  | cell => exact hlevel

namespace Draft

variable {P : Policy} {dir : Direction} {args : List Term} {d d' : Draft P}

/-- Whether all instructions written so far are determined by what their texts show. -/
def Canonical (d : Draft P) : Prop := ∀ i ∈ d.emitted, i.Canonical

theorem Canonical.emit {i : Instruction} (h : d.Canonical) (hi : i.Canonical) :
    (d.emit i).Canonical :=
  List.forall_mem_cons.2 ⟨hi, h⟩

theorem Cleared.canonical {k : ℕ} (hd : Cleared dir k d d') (h : d.Canonical) : d'.Canonical := by
  cases hd with
  | same | kept => exact h
  | @moved _ x _ =>
    exact Canonical.emit (d := d.pick.2.temp.2.moveVar x (.reg d.pick.2.temp.1)) h trivial

theorem Step.canonical {s s' : ℕ × Draft P} (h : Step dir args s s') (hs : s.2.Canonical) :
    s'.2.Canonical := by
  cases h with
  | blank | constant | known | attach => exact hs.emit trivial
  | @unknown _ d x => exact Canonical.emit (d := (d.newVar x none).2) hs trivial
  | putAside _ _ d => exact Canonical.emit (d := d.temp.2) hs trivial
  | begin _ _ d kind n =>
    exact Canonical.emit (d := d.temp.2) hs (kind.canonical_opener _ n _ (Or.inr rfl))
  | resume _ _ _ kind n => exact hs.emit (kind.canonical_opener _ n _ (Or.inr rfl))
  | argSkip | argStay => exact hs
  | @argBlank _ _ _ _ _ d' hd => exact Canonical.emit (d := d'.temp.2) (hd.canonical hs) trivial
  | argKnown _ _ _ hd => exact (hd.canonical hs).emit trivial
  | argUnknown _ _ _ _ hd => exact Canonical.emit (hd.canonical hs) trivial
  | argConstant _ hd c => exact (hd.canonical hs).emit (Or.inl rfl)
  | argNode _ hd kind n =>
    exact (hd.canonical hs).emit (kind.canonical_opener _ n _ (Or.inl rfl))

theorem canonical_compose (dir : Direction) (args : List Term) (d : Draft P) :
    (d.compose dir args).Canonical := by
  refine (steps_compose dir args d).preserves (I := fun s => s.2.Canonical)
    (fun _ _ h hs => h.canonical hs) ?_
  intro i hi
  simp at hi

/-- Packing only concerns voids, which are all canonical. -/
theorem canonical_of_pack {is : List Instruction}
    (h : Code.pack dir (d.compose dir args).emitted.reverse = .ok is) :
    ∀ i ∈ is, i.Canonical := by
  intro i hi
  cases hvoid : dir.isVoid i with
  | true =>
    cases i with
    | void => exact trivial
    | _ => simp [Direction.isVoid] at hvoid
  | false =>
    have hmem := Code.mem_expand hi hvoid
    rw [expand_of_pack h, List.mem_reverse] at hmem
    exact canonical_compose dir args d i hmem

end Draft

theorem Compound.Coded.canonical {P : Policy} {d d' : Draft P} {cs : List Compound}
    {gs : List CompiledGoal} (h : Coded d cs gs d') : ∀ g ∈ gs, ∀ i ∈ g.code, i.Canonical := by
  induction h with
  | nil => simp
  | cons hpack _ ih => exact List.forall_mem_cons.2 ⟨Draft.canonical_of_pack hpack, ih⟩

theorem CompiledClause.forall_mem_code {k : CompiledClause} {p : Instruction → Prop}
    (hhead : ∀ i ∈ k.head, p i) (hgoals : ∀ g ∈ k.goals, ∀ i ∈ g.code, p i) :
    ∀ i ∈ k.code, p i := by
  intro i hi
  rcases List.mem_append.1 hi with hi | hi
  · exact hhead i hi
  · obtain ⟨g, hg, hi⟩ := List.mem_flatMap.1 hi
    exact hgoals g hg i hi

/-- Whatever the policy, levels and symbols come out right. -/
theorem NormalClause.Codes.canonical {P : Policy} {n : NormalClause} {k : CompiledClause}
    {d : Draft P} (h : n.Codes P k d) : ∀ i ∈ k.code, i.Canonical :=
  CompiledClause.forall_mem_code (Draft.canonical_of_pack h.head) h.goals.canonical

/-! ### Functors in compiled code -/

/-- Whether a compound has a functor whose name can be read. -/
def Term.Readable : Term → Prop
  | comp f _ _ => Functor.Readable f
  | _ => True

/-- Whether the arguments of a compound hold only functors whose names can be read. -/
def Compound.Readable (c : Compound) : Prop := ∀ t ∈ c.args, t.Everywhere Term.Readable

theorem Term.readable_children {t : Term} (h : t.Everywhere Readable) :
    ∀ u ∈ t.children, u.Everywhere Readable := by
  intro u hu
  cases t with
  | comp f args b => exact everywhereAll_iff.1 h.2 u hu
  | list head rest tail b =>
    obtain ⟨-, hhead, hrest, htail⟩ := h
    rw [everywhereAll_iff] at hrest
    rcases List.mem_pair.1 hu with rfl | rfl
    · exact hhead
    · -- What is left of a list after its first cell holds nothing new.
      show (afterCells 1 head rest tail b).Everywhere Readable
      unfold afterCells
      cases rest with
      | nil => exact htail
      | cons t ts =>
        show (if b = true then prepend (t :: ts) tail else list t ts tail false).Everywhere Readable
        split
        next =>
          refine everywhere_prepend hrest htail fun _ => ?_
          cases tail <;> exact trivial
        next =>
          rw [List.forall_mem_cons] at hrest
          exact ⟨trivial, hrest.1, everywhereAll_iff.2 hrest.2, htail⟩
  | atom | int | var => simp [children] at hu

theorem Occurrence.readable_inside {o p : Occurrence} (hp : p ∈ o.inside)
    (h : o.term.Everywhere Term.Readable) : p.term.Everywhere Term.Readable := by
  induction mem_inside_iff_within.1 hp with
  | self => exact h
  | child hq hc ih =>
    have hparent := ih (mem_inside_iff_within.2 hq)
    exact Term.readable_children hparent _ (term_mem_children hc)

theorem Instruction.IsFor.isSubterm {dir : Direction} {t : Term} {i : Instruction}
    (h : IsFor dir t i) : i.isSubterm = true := by
  have haddress : (∃ a, i = .subVariable dir a ∨ i = .subValue dir a) → i.isSubterm = true := by
    rintro ⟨a, rfl | rfl⟩ <;> rfl
  cases t with
  | atom name =>
    obtain rfl : i = _ := h
    rfl
  | int n =>
    obtain rfl : i = _ := h
    rfl
  | var x =>
    rw [IsFor] at h
    split at h
    next =>
      obtain rfl := h
      rfl
    next => exact haddress h
  | comp f ts b => exact haddress h
  | list head rest tail b => exact haddress h

/-- Each structure in code is one of the blocks. -/
theorem Code.Blocks.functor {dir d : Direction} {os : List Occurrence} {is : List Instruction}
    (h : Blocks dir os is) {symbol : Symbol} {n : Int} {a : Address}
    (hi : .struct d symbol n a ∈ is) :
    ∃ o ∈ os, o.term.kind? = some (.functor symbol.name) ∧ 0 ≤ n := by
  induction h with
  | nil => simp at hi
  | other hopener _ _ ih =>
    rcases List.mem_cons.1 hi with rfl | hi
    · simp [Instruction.isOpener] at hopener
    · exact ih hi
  | @block o os i units is hbegins hunits _ ih =>
    have hrest : (∃ o' ∈ os, o'.term.kind? = some (.functor symbol.name) ∧ 0 ≤ n) →
        ∃ o' ∈ o :: os, o'.term.kind? = some (.functor symbol.name) ∧ 0 ≤ n := by
      rintro ⟨o', ho', hkind⟩
      exact ⟨o', List.mem_cons_of_mem _ ho', hkind⟩
    rcases List.mem_cons.1 hi with heq | hi
    · obtain ⟨kind, b, hkind, rfl⟩ := hbegins
      cases kind with
      | functor f =>
        obtain ⟨-, rfl, rfl, -⟩ := Instruction.struct.inj heq
        exact ⟨o, List.mem_cons_self, hkind, Int.natCast_nonneg _⟩
      | cell => cases heq
    · rcases List.mem_append.1 hi with hi | hi
      · -- The instructions for the children are no structures.
        have hsubterm := forall_mem_of_forall₂ hunits fun _ _ hfor => hfor.isSubterm
        have hstruct := hsubterm _ (mem_expand hi (rfl : dir.isVoid _ = false))
        simp [Instruction.isSubterm] at hstruct
      · exact hrest (ih hi)

/-- The functors in the code of a compound are those of structures in its arguments. -/
theorem Compound.Shapes.readable {dir : Direction} {c : Compound} {code : List Instruction}
    (h : c.Shapes dir code) (hc : c.Readable) :
    ∀ i ∈ code, ∀ f ∈ i.functor?, 0 ≤ f.arity ∧ Functor.Readable f.name := by
  intro i hi f hf
  cases i with
  | struct d symbol n a =>
    obtain rfl := Option.some.inj hf
    obtain ⟨o, ho, hkind, hn⟩ := h.blocks.functor hi
    obtain ⟨ho, hblock⟩ := List.mem_filter.1 ho
    rw [Occurrence.isBlock, Bool.and_eq_true, Bool.not_eq_true'] at hblock
    obtain ⟨r, hr, hor⟩ := (Compound.mem_collect hblock.1).1 ho
    have hterm := Occurrence.readable_inside hor (hc _ (Occurrence.term_mem_children hr))
    refine ⟨hn, ?_⟩
    cases ht : o.term with
    | comp g ts b =>
      rw [ht] at hkind hterm
      obtain rfl : g = symbol.name := by simpa [Term.kind?] using hkind
      exact hterm.1
    | atom | int | var | list => simp [ht, Term.kind?] at hkind
  | _ => simp [Instruction.functor?] at hf

/-- Whether the arguments of the head and of the goals hold only functors whose names can be
read. -/
def NormalClause.Readable (n : NormalClause) : Prop :=
  n.head.Readable ∧ ∀ g ∈ n.body, g.Readable

/-- Compiled code is well formed. -/
theorem Clause.wellFormed_code {c : Clause} {n : NormalClause} {k : CompiledClause}
    (hn : c.normalize = .ok n) (hread : n.Readable) (hk : c.compile = .ok k) :
    ∀ i ∈ k.code, i.WellFormed := by
  obtain ⟨k', d, hwith, hnormal, hcodes⟩ := Clause.exists_compileWith hn .standard
  obtain rfl : k' = k := by
    rw [compile, hwith] at hk
    exact Except.ok.inj hk
  obtain ⟨d₁, d₂, hhead, hgoals, -⟩ := NormalClause.compile_eq_ok hnormal
  obtain ⟨hB, -⟩ := hcodes.books
  have hfunctor : ∀ i ∈ k'.code, ∀ f ∈ i.functor?, 0 ≤ f.arity ∧ Functor.Readable f.name := by
    refine CompiledClause.forall_mem_code ((Compound.shapes_of_code hhead).readable hread.1) ?_
    have hshapes := (List.forall₂_and_left _ _).2 ⟨hread.2, Compound.shapes_of_goals hgoals⟩
    exact forall_mem_of_forall₂ hshapes fun _ _ h => h.2.readable h.1
  intro i hi
  refine ⟨fun a ha => ?_, hcodes.canonical i hi, hfunctor i hi⟩
  have hrange := hB.inRange i hi a ha
  cases a with
  | reg r => exact hrange.1
  | stack r => exact hrange.1

/-! ### Names -/

namespace Instruction

variable {i : Instruction}

/-- The mnemonic of an instruction. -/
def mnemonic : Instruction → Mnemonic
  | constant .. => .constant
  | list .. => .list
  | struct .. => .struct
  | argVariable .. => .argVariable
  | argValue .. => .argValue
  | subConstant .. => .subConstant
  | subVariable .. => .subVariable
  | subValue .. => .subValue
  | void .. => .void

/-- The text of an instruction after its name. -/
def operandText : Instruction → String
  | constant _ level c reg => c.text ++ ", " ++ reg.textAt level
  | list _ level reg => reg.textAt level
  | struct _ symbol arity reg => symbol.text ++ "/" ++ Decimal.text arity ++ ", " ++ reg.text
  | argVariable _ reg arg => reg.text ++ ", " ++ Address.argText arg
  | argValue _ reg arg => reg.text ++ ", " ++ Address.argText arg
  | subConstant _ c => c.text
  | subVariable _ addr => addr.text
  | subValue _ addr => addr.text
  | void _ n => Decimal.text n

theorem text_eq (i : Instruction) :
    i.text = i.mnemonic.name i.dir ++ " " ++ i.operandText := by
  rw [← String.toList_inj]
  cases i <;>
    simp [text, mnemonic, operandText, Mnemonic.name, dir, String.toList_append]

theorem space_not_mem_name (d : Direction) (op : Mnemonic) : ' ' ∉ (op.name d).toList := by
  cases d <;> cases op <;> decide

/-- The first word of a text is the name of the instruction. -/
theorem takeWhile_text (i : Instruction) :
    i.text.toList.takeWhile (· ≠ ' ') = (i.mnemonic.name i.dir).toList := by
  have htext : i.text.toList = (i.mnemonic.name i.dir).toList ++ ' ' :: i.operandText.toList := by
    rw [text_eq, String.toList_append, String.toList_append, List.append_assoc]
    rfl
  have hname : ∀ c ∈ (i.mnemonic.name i.dir).toList, decide (c ≠ ' ') = true := by
    intro c hc
    rw [decide_eq_true_eq]
    rintro rfl
    exact space_not_mem_name i.dir i.mnemonic hc
  rw [htext, List.takeWhile_append_of_pos hname]
  exact List.append_nil _

/-- An instruction is written under the name that its text begins with. -/
theorem exists_toTerm_eq (i : Instruction) :
    ∃ args, i.toTerm = .apply (String.ofList (i.text.toList.takeWhile (· ≠ ' '))) args := by
  rw [takeWhile_text, String.ofList_toList]
  cases i <;> exact ⟨_, rfl⟩

end Instruction

/-- Reading inverts writing on the well-formed instructions.  What is written for an instruction is
named by the first word of its text.  The well-formed instructions are read back, nothing else is
read from any term, and the code of a clause whose functors have names that can be read consists of
them. -/
theorem Instruction.assembly_round_trip :
    (∀ i : Instruction, ∃ args,
      i.toTerm = .apply (String.ofList (i.text.toList.takeWhile (· ≠ ' '))) args) ∧
      (∀ i : Instruction, i.WellFormed → i.InWords → ofTerm i.toTerm = .ok i) ∧
      (∀ (t : Term) (i : Instruction), ofTerm t = .ok i → i.WellFormed ∧ i.InWords) ∧
      ∀ (c : Clause) (n : NormalClause), c.normalize = .ok n → n.Readable →
        ∃ k, c.compile = .ok k ∧ ∀ i ∈ k.code, i.WellFormed := by
  refine ⟨exists_toTerm_eq, fun i => ofTerm_toTerm, fun t i => wellFormed_of_ofTerm,
    fun c n hn hread => ?_⟩
  obtain ⟨k, -, -, -, -, hk, -⟩ := Clause.exists_compile hn
  exact ⟨k, hk, Clause.wellFormed_code hn hread hk⟩

/-- A functor with a slash in its name is read back, and the code of
`p(f(_, _, g(X))) :- q(f(_, h(X)))` is well formed. -/
theorem assembly_round_trip_slash :
    let i : Instruction := .struct .check ⟨"a/b", .named⟩ 2 (.stack 3)
    i.WellFormed ∧ i.InWords ∧ Instruction.ofTerm i.toTerm = .ok i ∧
      nestedNormal.toClause.normalize = .ok nestedNormal ∧ nestedNormal.Readable ∧
      ∃ k, nestedNormal.toClause.compile = .ok k ∧ ∀ i ∈ k.code, i.WellFormed := by
  intro i
  obtain ⟨-, hback, hread, hcode⟩ := Instruction.assembly_round_trip
  have hi : i.WellFormed := by
    refine ⟨by decide, by decide, ?_⟩
    rintro f ⟨⟩
    decide
  have hwords : i.InWords := by
    refine ⟨by decide, ?_⟩
    rintro f ⟨⟩
    decide
  have hnames : nestedNormal.Readable := by
    have hf : Functor.Readable "f" := by decide
    have hg : Functor.Readable "g" := by decide
    have hh : Functor.Readable "h" := by decide
    simp [NormalClause.Readable, Compound.Readable, nestedNormal, Term.Everywhere,
      Term.EverywhereAll, Term.Readable, hf, hg, hh]
  exact ⟨hi, (hread _ i (hback i hi hwords)).2, hback i hi hwords, rfl, hnames,
    hcode _ nestedNormal rfl hnames⟩

end ClauseCode
