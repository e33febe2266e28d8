import ClauseCode.Proofs.Encoding
import ClauseCode.Proofs.Separators
import ClauseCode.Proofs.Spellings

/-!
# Texts of instructions

The text of an instruction is its name, a space and its operands (`Instruction.text_eq`).  As names
have no space and addresses no comma, the parts of a text can be told apart whatever the spelling of
an atom holds.

Constants are the exception.  A negative integer begins with a sign, and an atom with its text as
name is spelled bare: the two have the same text (`Constant.text_eq_iff`).  So equal texts mean
equal instructions up to such constants (`Instruction.text_eq_iff_alike`).
-/

namespace ClauseCode

open Text (split_first split_last)

/-! ### Integers and atoms -/

namespace Decimal

variable {c : Char} {n : Int}

theorem isDigit_text (h : isDigit c = true) : Text.isDigit c = true := by
  have hrange : 48 ≤ c.toNat ∧ c.toNat ≤ 57 := by
    simpa [isDigit, Char.le_def, UInt32.le_iff_toNat_le] using h
  rw [Text.isDigit, Text.digitRanges, Text.inRanges, if_neg (by omega), if_pos hrange.2]

theorem not_mem_specials (hc : c ∈ (text n).toList) : c ∉ Spelling.specials := by
  intro hspecial
  have hall : ∀ c ∈ Spelling.specials, c ≠ '-' ∧ isDigit c = false := by
    simp [Spelling.specials, isDigit]
  obtain ⟨hminus, hdigit⟩ := hall c hspecial
  exact not_mem_text hminus hdigit hc

end Decimal

namespace Spelling

variable {name : String} {n : Int}

/-- An atom with the text of an integer as name is spelled bare if and only if the integer is
negative. -/
theorem isBare_text_iff : isBare (Decimal.text n).toList = true ↔ n < 0 := by
  rw [isBare_iff]
  constructor
  · rintro ⟨-, -, -, hnumeral⟩
    by_contra hneg
    have hpos : 0 ≤ n := Int.not_lt.1 hneg
    have hdigits : ∀ c ∈ Nat.toDigits 10 n.toNat, Text.isDigit c = true :=
      fun c hc => Decimal.isDigit_text (Decimal.isDigit_of_mem_toDigits hc)
    rw [Decimal.toList_text_of_nonneg hpos, isNumeral, List.all_eq_true.2 hdigits,
      List.isEmpty_eq_false_iff.2 Nat.toDigits_ne_nil] at hnumeral
    exact nomatch hnumeral
  · intro hn
    refine ⟨fun c hc => Decimal.not_mem_specials hc, ?_⟩
    rw [Decimal.toList_text_of_neg hn]
    exact ⟨List.cons_ne_nil _ _, rfl, rfl⟩

theorem atom_eq_text_iff :
    atom name = Decimal.text n ↔ n < 0 ∧ name = Decimal.text n := by
  rw [← String.toList_inj, atom, String.toList_ofList, atomChars]
  constructor
  · intro h
    split at h
    next hbare =>
      have hname : name = Decimal.text n := String.toList_inj.1 h
      rw [hname, isBare_text_iff] at hbare
      exact ⟨hbare, hname⟩
    next =>
      have hquote : '"' ∈ (Decimal.text n).toList := by
        rw [← h]
        exact List.mem_cons_self
      exact absurd hquote (Decimal.not_mem_text (by decide) (by decide))
  · rintro ⟨hn, rfl⟩
    rw [if_pos (isBare_text_iff.2 hn)]

end Spelling

namespace Constant

variable {c c' : Constant}

/-- Constants with the same text: they are equal, or one is a negative integer and the other the
atom with its text as name. -/
inductive Alike : Constant → Constant → Prop
  | refl (c : Constant) : Alike c c
  | atomInt {name : String} {n : Int} (hn : n < 0) (hname : name = Decimal.text n) :
      Alike (.atom name) (.int n)
  | intAtom {name : String} {n : Int} (hn : n < 0) (hname : name = Decimal.text n) :
      Alike (.int n) (.atom name)

theorem text_eq_iff : c.text = c'.text ↔ Alike c c' := by
  constructor
  · intro h
    cases c with
    | atom a =>
      cases c' with
      | atom b =>
        obtain rfl := Spelling.atom_injective h
        exact .refl _
      | int n =>
        obtain ⟨hn, hname⟩ := Spelling.atom_eq_text_iff.1 h
        exact .atomInt hn hname
    | int n =>
      cases c' with
      | atom b =>
        obtain ⟨hn, hname⟩ := Spelling.atom_eq_text_iff.1 h.symm
        exact .intAtom hn hname
      | int m =>
        obtain rfl := Decimal.text_injective h
        exact .refl _
  · intro h
    cases h with
    | refl => rfl
    | atomInt hn hname => exact Spelling.atom_eq_text_iff.2 ⟨hn, hname⟩
    | intAtom hn hname => exact (Spelling.atom_eq_text_iff.2 ⟨hn, hname⟩).symm

end Constant

/-! ### Addresses -/

namespace Address

variable {a b : Address} {l m : Level}

/-- The letter of an address in an instruction of a given level. -/
def letterAt : Level → Address → Char
  | .shallow, reg _ => 'A'
  | _, reg _ => 'X'
  | _, stack _ => 'Y'

theorem toList_textAt (l : Level) (a : Address) :
    (a.textAt l).toList = letterAt l a :: (Decimal.text a.index).toList := by
  cases a <;> cases l <;> exact String.toList_append

/-- A letter and an index stand for one address and one level. -/
theorem ofLetter_letterAt (hl : l.Suits a) : ofLetter (letterAt l a) a.index = some (a, l) := by
  cases a with
  | reg r => rcases hl with rfl | rfl <;> rfl
  | stack r =>
    obtain rfl : l = .deep := hl
    rfl

theorem textAt_inj (hl : l.Suits a) (hm : m.Suits b) (h : a.textAt l = b.textAt m) :
    a = b ∧ l = m := by
  have hlist := String.toList_inj.2 h
  rw [toList_textAt, toList_textAt] at hlist
  obtain ⟨hletter, htext⟩ := List.cons.inj hlist
  have hindex := Decimal.text_injective (String.toList_inj.1 htext)
  have ha := ofLetter_letterAt hl
  rw [hletter, hindex, ofLetter_letterAt hm] at ha
  obtain ⟨hb, hm⟩ := Prod.mk.inj (Option.some.inj ha)
  exact ⟨hb.symm, hm.symm⟩

theorem suits_deep (a : Address) : Level.deep.Suits a := by
  cases a with
  | reg r => exact Or.inr rfl
  | stack r => rfl

theorem textAt_deep (a : Address) : a.textAt .deep = a.text := by
  cases a <;> rfl

theorem text_injective : Function.Injective text := by
  intro a b h
  rw [← textAt_deep, ← textAt_deep] at h
  exact (textAt_inj a.suits_deep b.suits_deep h).1

theorem argText_injective : Function.Injective argText := by
  intro r r' h
  exact reg.inj (textAt_inj (a := .reg r) (b := .reg r') (Or.inl rfl) (Or.inl rfl) h).1

theorem comma_not_mem_textAt : ',' ∉ (a.textAt l).toList := by
  rw [toList_textAt, List.mem_cons, not_or]
  refine ⟨?_, Decimal.not_mem_text (by decide) (by decide)⟩
  unfold letterAt
  split <;> decide

theorem comma_not_mem_text : ',' ∉ a.text.toList := by
  rw [← textAt_deep]
  exact comma_not_mem_textAt

theorem comma_not_mem_argText (r : Int) : ',' ∉ (argText r).toList :=
  comma_not_mem_textAt (a := .reg r) (l := .shallow)

end Address

/-! ### Instructions -/

/-- Texts around the last comma can be told apart. -/
theorem comma_inj {s s' t t' : String} (ht : ',' ∉ t.toList) (ht' : ',' ∉ t'.toList)
    (h : s ++ ", " ++ t = s' ++ ", " ++ t') : s = s' ∧ t = t' := by
  have hlist : s.toList ++ ',' :: (' ' :: t.toList) = s'.toList ++ ',' :: (' ' :: t'.toList) := by
    simpa using congrArg String.toList h
  obtain ⟨hs, ht⟩ := split_last (by simpa using ht) (by simpa using ht') hlist
  exact ⟨String.toList_inj.1 hs, String.toList_inj.1 (List.cons.inj ht).2⟩

/-- The name and the arity of a functor can be told apart. -/
theorem slash_inj {s s' : String} {n n' : Int}
    (h : s ++ "/" ++ Decimal.text n = s' ++ "/" ++ Decimal.text n') : s = s' ∧ n = n' := by
  have hlist : s.toList ++ '/' :: (Decimal.text n).toList =
      s'.toList ++ '/' :: (Decimal.text n').toList := by
    simpa using congrArg String.toList h
  have hslash : ∀ n : Int, '/' ∉ (Decimal.text n).toList :=
    fun n => Decimal.not_mem_text (by decide) (by decide)
  obtain ⟨hs, hn⟩ := split_last (hslash n) (hslash n') hlist
  exact ⟨String.toList_inj.1 hs, Decimal.text_injective (String.toList_inj.1 hn)⟩

/-- The text of an address and an argument shows both. -/
theorem argument_inj {a b : Address} {k k' : Int}
    (h : a.text ++ ", " ++ Address.argText k = b.text ++ ", " ++ Address.argText k') :
    a = b ∧ k = k' := by
  obtain ⟨ha, hk⟩ :=
    comma_inj (Address.comma_not_mem_argText k) (Address.comma_not_mem_argText k') h
  exact ⟨Address.text_injective ha, Address.argText_injective hk⟩

namespace Instruction

variable {i j : Instruction}

/-- Equal texts have the same name and the same operands. -/
theorem of_text_eq (h : i.text = j.text) :
    i.dir = j.dir ∧ i.mnemonic = j.mnemonic ∧ i.operandText = j.operandText := by
  rw [text_eq, text_eq] at h
  have hlist : (i.mnemonic.name i.dir).toList ++ ' ' :: i.operandText.toList =
      (j.mnemonic.name j.dir).toList ++ ' ' :: j.operandText.toList := by
    simpa using congrArg String.toList h
  obtain ⟨hname, hoperands⟩ :=
    split_first (space_not_mem_name _ _) (space_not_mem_name _ _) hlist
  -- The name determines the direction and the mnemonic.
  have hi := Mnemonic.ofName_eq_some_iff.2 (String.toList_inj.1 hname)
  rw [Mnemonic.ofName_eq_some_iff.2 rfl] at hi
  obtain ⟨hdir, hop⟩ := Prod.mk.inj (Option.some.inj hi)
  exact ⟨hdir, hop, String.toList_inj.1 hoperands⟩

/-- Instructions that differ at most in a constant, which has the same text in both. -/
inductive Alike : Instruction → Instruction → Prop
  | refl (i : Instruction) : Alike i i
  | constant {c c' : Constant} (d : Direction) (l : Level) (a : Address) (hc : c.Alike c') :
      Alike (.constant d l c a) (.constant d l c' a)
  | subConstant {c c' : Constant} (d : Direction) (hc : c.Alike c') :
      Alike (.subConstant d c) (.subConstant d c')

theorem alike_of_text_eq (hi : i.Canonical) (hj : j.Canonical) (h : i.text = j.text) :
    i.Alike j := by
  obtain ⟨hdir, hop, h⟩ := of_text_eq h
  cases i with
  | constant d l c a =>
    cases j with
    | constant d' m c' b =>
      obtain rfl : d = d' := hdir
      obtain ⟨hc, ha⟩ := comma_inj Address.comma_not_mem_textAt Address.comma_not_mem_textAt h
      obtain ⟨rfl, rfl⟩ := Address.textAt_inj hi hj ha
      exact .constant d l a (Constant.text_eq_iff.1 hc)
    | _ => exact nomatch hop
  | list d l a =>
    cases j with
    | list d' m b =>
      obtain rfl : d = d' := hdir
      obtain ⟨rfl, rfl⟩ := Address.textAt_inj hi hj h
      exact .refl _
    | _ => exact nomatch hop
  | struct d symbol n a =>
    cases j with
    | struct d' symbol' n' b =>
      obtain rfl : d = d' := hdir
      obtain ⟨hfunctor, ha⟩ := comma_inj Address.comma_not_mem_text Address.comma_not_mem_text h
      obtain ⟨hname, rfl⟩ := slash_inj hfunctor
      -- The text shows the name of the symbol only: its kind follows from the functor.
      obtain rfl : symbol = symbol' := by
        have hsymbol : symbol = Functor.symbol ⟨symbol.name, n⟩ := hi
        rw [hsymbol, Spelling.atom_injective hname]
        exact hj.symm
      obtain rfl := Address.text_injective ha
      exact .refl _
    | _ => exact nomatch hop
  | argVariable d a k =>
    cases j with
    | argVariable d' b k' =>
      obtain rfl : d = d' := hdir
      obtain ⟨rfl, rfl⟩ := argument_inj h
      exact .refl _
    | _ => exact nomatch hop
  | argValue d a k =>
    cases j with
    | argValue d' b k' =>
      obtain rfl : d = d' := hdir
      obtain ⟨rfl, rfl⟩ := argument_inj h
      exact .refl _
    | _ => exact nomatch hop
  | subConstant d c =>
    cases j with
    | subConstant d' c' =>
      obtain rfl : d = d' := hdir
      exact .subConstant d (Constant.text_eq_iff.1 h)
    | _ => exact nomatch hop
  | subVariable d a =>
    cases j with
    | subVariable d' b =>
      obtain rfl : d = d' := hdir
      obtain rfl := Address.text_injective h
      exact .refl _
    | _ => exact nomatch hop
  | subValue d a =>
    cases j with
    | subValue d' b =>
      obtain rfl : d = d' := hdir
      obtain rfl := Address.text_injective h
      exact .refl _
    | _ => exact nomatch hop
  | void d n =>
    cases j with
    | void d' n' =>
      obtain rfl : d = d' := hdir
      obtain rfl := Decimal.text_injective h
      exact .refl _
    | _ => exact nomatch hop

theorem Alike.text_eq (h : i.Alike j) : i.text = j.text := by
  cases h with
  | refl => rfl
  | constant d l a hc => rw [text, text, Constant.text_eq_iff.2 hc]
  | subConstant d hc => rw [text, text, Constant.text_eq_iff.2 hc]

/-- The instructions that occur: those in the code of a clause, and those that are read. -/
inductive Occurs : Instruction → Prop
  | compiled {P : Policy} {c : Clause} {k : CompiledClause} {s : P.State} {i : Instruction}
      (h : c.compileWith P = .ok (k, s)) (hi : i ∈ k.code) : Occurs i
  | read {t : Term} {i : Instruction} (h : ofTerm t = .ok i) : Occurs i

theorem Occurs.canonical (h : i.Occurs) : i.Canonical := by
  cases h with
  | @compiled P c k s _ h hi =>
    obtain ⟨n, d, -, hcodes⟩ := Clause.codes_of_compileWith h
    exact hcodes.canonical _ hi
  | read h => exact (wellFormed_of_ofTerm h).1.canonical

end Instruction

/-- Every constant can be the first argument of a clause. -/
theorem Constant.occurs (c : Constant) :
    (Instruction.constant .check .shallow c (.reg 0)).Occurs := by
  cases c with
  | atom name =>
    let clause : Clause := ⟨.apply "p" [.atom name], []⟩
    exact .compiled (P := .standard) (c := clause) rfl List.mem_cons_self
  | int n =>
    let clause : Clause := ⟨.apply "p" [.int n], []⟩
    exact .compiled (P := .standard) (c := clause) rfl List.mem_cons_self

/-- The texts of two instructions that occur are equal exactly if the instructions are, or if they
differ in a constant alone that is a negative integer in one and the atom with its text as name in
the other. -/
theorem Instruction.text_eq_iff_alike (i j : Instruction) (hi : i.Occurs) (hj : j.Occurs) :
    i.text = j.text ↔ i.Alike j := by
  constructor
  · exact alike_of_text_eq hi.canonical hj.canonical
  · exact Alike.text_eq

/-- The atom `5` and the integer 5 have different texts. -/
theorem text_ne_five :
    (Instruction.constant .check .shallow (.atom "5") (.reg 0)).Occurs ∧
      (Instruction.constant .check .shallow (.int 5) (.reg 0)).Occurs ∧
      (Instruction.constant .check .shallow (.atom "5") (.reg 0)).text ≠
        (Instruction.constant .check .shallow (.int 5) (.reg 0)).text := by
  have hatom := Constant.occurs (.atom "5")
  have hint := Constant.occurs (.int 5)
  refine ⟨hatom, hint, fun h => ?_⟩
  cases (Instruction.text_eq_iff_alike _ _ hatom hint).1 h with
  | constant _ _ _ hc =>
    cases hc with
    | atomInt hn => exact absurd hn (by decide)

/-- The atom `-5` and the integer -5 have the same text. -/
theorem not_text_injective :
    ¬ ∀ i j : Instruction, i.Occurs → j.Occurs → i.text = j.text → i = j := by
  intro h
  have hc : (Constant.atom "-5").Alike (.int (-5)) := .atomInt (by decide) (by decide)
  have heq := h _ _ (Constant.occurs _) (Constant.occurs _)
    (Instruction.Alike.constant .check .shallow (.reg 0) hc).text_eq
  exact nomatch (Instruction.constant.inj heq).2.2.1

end ClauseCode
