import ClauseCode.Text.Decimal
import Mathlib.Algebra.Group.Int.Defs
import Mathlib.Algebra.Group.Nat.Defs
import Mathlib.Data.List.Basic

/-!
# Numerals

A numeral is an optional minus and at least one digit.  `Decimal.parse` takes the numerals whose
value is an integer of 64 bits, and of other texts only those with a plus sign first
(`Decimal.ofChars_eq_ok_iff`); it reads back what `Decimal.text` writes (`Decimal.parse_text`).
-/

namespace ClauseCode.Decimal

/-- Whether a 64-bit word can hold an integer. -/
def Fits (n : Int) : Prop := -2 ^ 63 ≤ n ∧ n < 2 ^ 63

instance (n : Int) : Decidable (Fits n) := inferInstanceAs (Decidable (_ ∧ _))

theorem fits_iff {n : Int} : Fits n ↔ -2 ^ 63 ≤ n ∧ n ≤ 2 ^ 63 - 1 := by
  rw [Fits]
  omega

/-- The numerals and their values. -/
inductive Numeral : List Char → Int → Prop
  | plain {ds : List Char} (hne : ds ≠ []) (hds : ∀ c ∈ ds, isDigit c = true) :
      Numeral ds (Nat.ofDigitChars 10 ds 0)
  | minus {ds : List Char} (hne : ds ≠ []) (hds : ∀ c ∈ ds, isDigit c = true) :
      Numeral ('-' :: ds) (-(Nat.ofDigitChars 10 ds 0 : Int))

variable {cs ds : List Char} {m n : ℕ} {z : Int}

/-! ### Reading -/

theorem le_ofDigitChars (cs : List Char) (n : ℕ) : n ≤ Nat.ofDigitChars 10 cs n := by
  rw [Nat.ofDigitChars_eq_ofDigitChars_zero]
  have hpow : 1 ≤ 10 ^ cs.length := Nat.one_le_pow _ _ (by decide)
  have hle : 1 * n ≤ 10 ^ cs.length * n := Nat.mul_le_mul_right n hpow
  omega

/-- Reading stops early only where the number is out of range anyway. -/
theorem magnitude_eq_ok_iff (hn : n < 2 ^ 64) :
    magnitude n cs = .ok m ↔
      (∀ c ∈ cs, isDigit c = true) ∧ m = Nat.ofDigitChars 10 cs n ∧ m < 2 ^ 64 := by
  induction cs generalizing n with
  | nil =>
    rw [magnitude, Nat.ofDigitChars_nil]
    constructor
    · intro h
      obtain rfl := Except.ok.inj h
      exact ⟨by simp, rfl, hn⟩
    · rintro ⟨-, rfl, -⟩
      rfl
  | cons c cs ih =>
    have hvalue : 10 * n + (c.toNat - '0'.toNat) = n * 10 + digitValue c := by
      rw [digitValue, Nat.mul_comm]
      rfl
    rw [magnitude, Nat.ofDigitChars_cons, hvalue]
    by_cases hc : isDigit c = true
    · rw [if_pos hc, List.forall_mem_cons]
      dsimp only
      by_cases hlarge : 0x10000000000000000 ≤ n * 10 + digitValue c
      · rw [if_pos hlarge]
        have hle := le_ofDigitChars cs (n * 10 + digitValue c)
        constructor
        · intro h
          simp at h
        · rintro ⟨-, rfl, hm⟩
          omega
      · rw [if_neg hlarge, ih (by omega)]
        simp [hc]
    · rw [if_neg hc, List.forall_mem_cons]
      simp [hc]

theorem digits_eq_ok_iff :
    digits cs = .ok m ↔ cs ≠ [] ∧ (∀ c ∈ cs, isDigit c = true) ∧
      m = Nat.ofDigitChars 10 cs 0 ∧ m < 2 ^ 64 := by
  cases cs with
  | nil => simp [digits]
  | cons c cs =>
    rw [digits, magnitude_eq_ok_iff (by decide)]
    simp

/-- The integer that a sign and a number without sign make. -/
def withSign (negative : Bool) (n : ℕ) : Int := if negative then -(n : Int) else n

theorem signed_eq (negative : Bool) (ds : List Char) :
    signed negative ds =
      match digits ds with
      | .error e => .error e
      | .ok n =>
        if Fits (withSign negative n) then .ok (withSign negative n) else .error .outOfRange := by
  rw [signed]
  cases digits ds with
  | error e => rfl
  | ok n =>
    cases negative with
    | true =>
      have hfits : n ≤ 0x8000000000000000 ↔ Fits (withSign true n) := by
        rw [Fits, withSign, if_pos rfl]
        omega
      exact (if_pos rfl).trans (if_congr hfits rfl rfl)
    | false =>
      have hfits : n < 0x8000000000000000 ↔ Fits (withSign false n) := by
        rw [Fits, withSign, if_neg Bool.false_ne_true]
        omega
      exact (if_neg Bool.false_ne_true).trans (if_congr hfits rfl rfl)

theorem signed_eq_ok_iff {negative : Bool} :
    signed negative ds = .ok z ↔ ds ≠ [] ∧ (∀ c ∈ ds, isDigit c = true) ∧
      z = withSign negative (Nat.ofDigitChars 10 ds 0) ∧ Fits z := by
  rw [signed_eq]
  constructor
  · intro h
    split at h
    next => simp at h
    next n hn =>
      obtain ⟨hne, hds, rfl, -⟩ := digits_eq_ok_iff.1 hn
      split at h
      next hfits =>
        obtain rfl := Except.ok.inj h
        exact ⟨hne, hds, rfl, hfits⟩
      next => simp at h
  · rintro ⟨hne, hds, rfl, hfits⟩
    have hsmall : Nat.ofDigitChars 10 ds 0 < 2 ^ 64 := by
      unfold Fits withSign at hfits
      split at hfits <;> omega
    rw [digits_eq_ok_iff.2 ⟨hne, hds, rfl, hsmall⟩]
    exact if_pos hfits

/-- What is read is an integer of 64 bits. -/
theorem fits_of_ofChars (h : ofChars cs = .ok z) : Fits z := by
  unfold ofChars at h
  split at h <;> exact (signed_eq_ok_iff.1 h).2.2.2

/-- Without a plus sign, what is read are the numerals whose value a word can hold. -/
theorem ofChars_eq_ok_iff (hplus : ∀ ds, cs ≠ '+' :: ds) :
    ofChars cs = .ok z ↔ Numeral cs z ∧ Fits z := by
  unfold ofChars
  split
  next ds =>
    rw [signed_eq_ok_iff]
    constructor
    · rintro ⟨hne, hds, rfl, hfits⟩
      exact ⟨.minus hne hds, hfits⟩
    · rintro ⟨hnumeral, hfits⟩
      cases hnumeral with
      | plain hne hds =>
        have hminus := hds '-' (by simp)
        exact absurd hminus (by decide)
      | minus hne hds => exact ⟨hne, hds, rfl, hfits⟩
  next ds => exact absurd rfl (hplus ds)
  next hminus _ =>
    rw [signed_eq_ok_iff]
    constructor
    · rintro ⟨hne, hds, rfl, hfits⟩
      exact ⟨.plain hne hds, hfits⟩
    · rintro ⟨hnumeral, hfits⟩
      cases hnumeral with
      | plain hne hds => exact ⟨hne, hds, rfl, hfits⟩
      | minus => exact absurd rfl (hminus _)

theorem parse_eq_ok_iff {s : String} : parse s = .ok z ↔ ofChars s.toList = .ok z := by
  rw [parse]
  cases ofChars s.toList <;> simp

/-! ### Writing -/

theorem isDigit_of_mem_toDigits {c : Char} (h : c ∈ Nat.toDigits 10 n) : isDigit c = true := by
  have hdigit := Nat.isDigit_of_mem_toDigits (by decide) (by decide) h
  simpa [isDigit, Char.isDigit, Char.le_def] using hdigit

theorem toList_text_of_nonneg (hz : 0 ≤ z) : (text z).toList = Nat.toDigits 10 z.toNat := by
  show (Int.repr z).toList = _
  rw [Int.repr_eq_if, if_pos hz, Nat.repr_eq_ofList_toDigits, String.toList_ofList]

theorem toList_text_of_neg (hz : z < 0) :
    (text z).toList = '-' :: Nat.toDigits 10 (-z).toNat := by
  show (Int.repr z).toList = _
  rw [Int.repr_eq_if, if_neg (Int.not_le.2 hz), Nat.repr_eq_ofList_toDigits, String.toList_append,
    String.toList_ofList, String.toList_ofList, List.singleton_append]

/-- An integer is written as a numeral. -/
theorem numeral_text (z : Int) : Numeral (text z).toList z := by
  have hdigits : ∀ n : ℕ, ∀ c ∈ Nat.toDigits 10 n, isDigit c = true :=
    fun n c hc => isDigit_of_mem_toDigits hc
  by_cases hneg : z < 0
  · rw [toList_text_of_neg hneg]
    have h := Numeral.minus Nat.toDigits_ne_nil (hdigits (-z).toNat)
    rwa [Nat.ofDigitChars_ten_toDigits, Int.toNat_of_nonneg (by omega), Int.neg_neg] at h
  · have hpos : 0 ≤ z := Int.not_lt.1 hneg
    rw [toList_text_of_nonneg hpos]
    have h := Numeral.plain Nat.toDigits_ne_nil (hdigits z.toNat)
    rwa [Nat.ofDigitChars_ten_toDigits, Int.toNat_of_nonneg hpos] at h

theorem mem_text {c : Char} (hc : c ∈ (text z).toList) : c = '-' ∨ isDigit c = true := by
  have hnumeral := numeral_text z
  generalize (text z).toList = cs at hc hnumeral
  cases hnumeral with
  | plain _ hds => exact Or.inr (hds c hc)
  | minus _ hds =>
    rcases List.mem_cons.1 hc with rfl | hc
    · exact Or.inl rfl
    · exact Or.inr (hds c hc)

/-- The text of an integer has a sign and digits, and no other character. -/
theorem not_mem_text {c : Char} (hminus : c ≠ '-') (hdigit : isDigit c = false) :
    c ∉ (text z).toList := by
  intro hc
  rcases mem_text hc with rfl | hc
  · exact hminus rfl
  · rw [hdigit] at hc
    exact nomatch hc

theorem Numeral.not_plus {ds : List Char} (h : Numeral cs z) : cs ≠ '+' :: ds := by
  rintro rfl
  cases h with
  | plain _ hds =>
    have hplus := hds '+' (by simp)
    exact absurd hplus (by decide)

/-- A numeral has one value. -/
theorem Numeral.unique {z' : Int} (h : Numeral cs z) (h' : Numeral cs z') : z = z' := by
  have hminus : ∀ ds : List Char, ¬ ∀ c ∈ '-' :: ds, isDigit c = true := by
    intro ds hds
    exact absurd (hds '-' (by simp)) (by decide)
  cases h with
  | plain _ hds =>
    cases h' with
    | plain => rfl
    | minus => exact absurd hds (hminus _)
  | minus =>
    cases h' with
    | plain _ hds => exact absurd hds (hminus _)
    | minus => rfl

/-- Different integers are written differently. -/
theorem text_injective : Function.Injective text := by
  intro z z' heq
  have h := numeral_text z
  rw [heq] at h
  exact h.unique (numeral_text z')

/-- What is written can be read. -/
theorem parse_text (hz : Fits z) : parse (text z) = .ok z := by
  have hnumeral := numeral_text z
  rw [parse_eq_ok_iff, ofChars_eq_ok_iff fun ds => hnumeral.not_plus]
  exact ⟨hnumeral, hz⟩

end ClauseCode.Decimal
