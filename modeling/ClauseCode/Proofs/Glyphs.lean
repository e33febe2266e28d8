import ClauseCode.Text.Glyph
import Mathlib.Data.List.Basic

/-!
# Units of byte texts

The units of a byte text are found one after another, each from the bytes that are left
(`decode_cons`), and the bytes can be put back (`encode_decode`).  A sequence of more than one byte
has none below 0x80, so that such a byte is a unit of its own and parts the text: what stands before
it is decoded as if it were the end (`decode_append_cons`).  The units of the bytes of a text are
its characters (`decode_flatMap_charBytes`), and its bytes below 0x80 are those of its characters
(`mem_flatMap_charBytes`).
-/

namespace ClauseCode.Glyph

variable {a b : UInt8} {bs cs : List UInt8} {gs us : List Glyph}

/-! ### One unit -/

theorem toNat_charOfNat {n : ℕ} (h : n.isValidChar) : (Char.ofNat n).toNat = n := by
  rw [Char.ofNat, dif_pos h]
  rfl

theorem toNat_toUInt8 {n : ℕ} (h : n < 0x100) : n.toUInt8.toNat = n := by
  rw [Nat.toUInt8_eq, UInt8.toNat_ofNat']
  omega

theorem charBytes_two {b₀ b₁ : UInt8} {c : Char} (h : two b₀.toNat b₁.toNat = some c) :
    charBytes c = [b₀, b₁] := by
  simp only [two, isTail, Option.ite_none_right_eq_some, Bool.and_eq_true, decide_eq_true_eq,
    Option.some.injEq] at h
  obtain ⟨hb, rfl⟩ := h
  generalize hn : (b₀.toNat - 0xC0) * 0x40 + (b₁.toNat - 0x80) = n
  have h₀ : 0xC0 + n / 0x40 = b₀.toNat := by omega
  have h₁ : 0x80 + n % 0x40 = b₁.toNat := by omega
  unfold charBytes
  rw [toNat_charOfNat (Or.inl (by omega)), if_neg (by omega), if_pos (by omega), h₀, h₁]
  simp

theorem charBytes_three {b₀ b₁ b₂ : UInt8} {c : Char}
    (h : three b₀.toNat b₁.toNat b₂.toNat = some c) : charBytes c = [b₀, b₁, b₂] := by
  simp only [three, isTail, Option.ite_none_right_eq_some, Bool.and_eq_true, decide_eq_true_eq,
    Option.some.injEq] at h
  obtain ⟨hb, rfl⟩ := h
  generalize hn : (b₀.toNat - 0xE0) * 0x1000 + (b₁.toNat - 0x80) * 0x40 + (b₂.toNat - 0x80) = n
  -- The limits for the second byte keep the number out of the range of surrogates.
  have hrange : 0x800 ≤ n ∧ n < 0x10000 ∧ (n < 0xD800 ∨ 0xDFFF < n) := by
    split at hb <;> split at hb <;> omega
  have hbytes : 0x80 ≤ b₁.toNat ∧ b₁.toNat ≤ 0xBF := by
    split at hb <;> split at hb <;> omega
  have h₀ : 0xE0 + n / 0x1000 = b₀.toNat := by omega
  have h₁ : 0x80 + n / 0x40 % 0x40 = b₁.toNat := by omega
  have h₂ : 0x80 + n % 0x40 = b₂.toNat := by omega
  have hvalid : n.isValidChar := by
    unfold Nat.isValidChar
    omega
  unfold charBytes
  rw [toNat_charOfNat hvalid, if_neg (by omega), if_neg (by omega), if_pos (by omega), h₀, h₁, h₂]
  simp

theorem charBytes_four {b₀ b₁ b₂ b₃ : UInt8} {c : Char}
    (h : four b₀.toNat b₁.toNat b₂.toNat b₃.toNat = some c) : charBytes c = [b₀, b₁, b₂, b₃] := by
  simp only [four, isTail, Option.ite_none_right_eq_some, Bool.and_eq_true, decide_eq_true_eq,
    Option.some.injEq] at h
  obtain ⟨hb, rfl⟩ := h
  generalize hn : (b₀.toNat - 0xF0) * 0x40000 + (b₁.toNat - 0x80) * 0x1000 +
    (b₂.toNat - 0x80) * 0x40 + (b₃.toNat - 0x80) = n
  have hrange : 0x10000 ≤ n ∧ n < 0x110000 := by
    split at hb <;> split at hb <;> omega
  have hbytes : 0x80 ≤ b₁.toNat ∧ b₁.toNat ≤ 0xBF := by
    split at hb <;> split at hb <;> omega
  have h₀ : 0xF0 + n / 0x40000 = b₀.toNat := by omega
  have h₁ : 0x80 + n / 0x1000 % 0x40 = b₁.toNat := by omega
  have h₂ : 0x80 + n / 0x40 % 0x40 = b₂.toNat := by omega
  have h₃ : 0x80 + n % 0x40 = b₃.toNat := by omega
  have hvalid : n.isValidChar := by
    unfold Nat.isValidChar
    omega
  unfold charBytes
  rw [toNat_charOfNat hvalid, if_neg (by omega), if_neg (by omega), if_neg (by omega), h₀, h₁, h₂,
    h₃]
  simp

/-- The bytes of the first unit are those that it uses up. -/
theorem bytes_first (b : UInt8) (bs : List UInt8) :
    (first b bs).1.bytes = b :: bs.take (first b bs).2 ∧ (first b bs).2 ≤ bs.length := by
  fun_cases first b bs with
  | case1 _ hb =>
    have hn : (Char.ofNat b.toNat).toNat = b.toNat := toNat_charOfNat (Or.inl (by omega))
    simp [bytes, charBytes, hn, hb]
  | case2 => simp [bytes]
  | case3 _ b₁ bs c h => simp [bytes, charBytes_two h]
  | case4 => simp [bytes]
  | case5 _ b₁ _ b₂ bs c h => simp [bytes, charBytes_three h]
  | case6 => simp [bytes]
  | case7 _ b₁ _ b₂ _ b₃ bs c h => simp [bytes, charBytes_four h]
  | case8 => simp [bytes]

theorem first_of_lt (hb : b.toNat < 0x80) : first b bs = (char (Char.ofNat b.toNat), 0) :=
  if_pos hb

theorem two_eq_none {b₀ b₁ : ℕ} (h : b₁ < 0x80) : two b₀ b₁ = none := by
  unfold two isTail
  simp only [Bool.and_eq_true, decide_eq_true_eq]
  exact if_neg (by omega)

theorem three_eq_none {b₀ b₁ b₂ : ℕ} (h : b₁ < 0x80 ∨ b₂ < 0x80) : three b₀ b₁ b₂ = none := by
  unfold three isTail
  simp only [Bool.and_eq_true, decide_eq_true_eq]
  refine if_neg fun hb => ?_
  split at hb <;> omega

theorem four_eq_none {b₀ b₁ b₂ b₃ : ℕ} (h : b₁ < 0x80 ∨ b₂ < 0x80 ∨ b₃ < 0x80) :
    four b₀ b₁ b₂ b₃ = none := by
  unfold four isTail
  simp only [Bool.and_eq_true, decide_eq_true_eq]
  refine if_neg fun hb => ?_
  split at hb <;> omega

/-- A byte below 0x80 continues no unit: the bytes after it do not matter. -/
theorem first_append_cons (ha : a.toNat < 0x80) : first b (bs ++ a :: cs) = first b bs := by
  by_cases hb : b.toNat < 0x80
  · rw [first_of_lt hb, first_of_lt hb]
  · unfold first
    rw [if_neg hb, if_neg hb]
    match bs with
    | [] =>
      cases cs with
      | nil => simp [two_eq_none ha]
      | cons c cs =>
        cases cs with
        | nil => simp [two_eq_none ha, three_eq_none (Or.inl ha)]
        | cons d cs =>
          simp [two_eq_none ha, three_eq_none (Or.inl ha), four_eq_none (Or.inl ha)]
    | [b₁] =>
      cases cs with
      | nil => simp [three_eq_none (Or.inr ha)]
      | cons c cs => simp [three_eq_none (Or.inr ha), four_eq_none (Or.inr (Or.inl ha))]
    | [b₁, b₂] => simp [four_eq_none (Or.inr (Or.inr ha))]
    | b₁ :: b₂ :: b₃ :: bs => rfl

/-! ### Whole texts -/

theorem decodeOnto_eq (acc : List Glyph) (skip : ℕ) (bs : List UInt8) :
    decodeOnto acc skip bs = decodeOnto [] 0 (bs.drop skip) ++ acc := by
  induction bs generalizing acc skip with
  | nil => simp [decodeOnto]
  | cons b bs ih =>
    cases skip with
    | zero =>
      rw [List.drop_zero, decodeOnto, decodeOnto, ih, ih [_], List.append_assoc]
      rfl
    | succ skip => rw [decodeOnto, ih, List.drop_succ_cons]

/-- The units of a text are found one after another. -/
theorem decode_cons (b : UInt8) (bs : List UInt8) :
    decode (b :: bs) = (first b bs).1 :: decode (bs.drop (first b bs).2) := by
  rw [decode, decodeOnto, decodeOnto_eq, List.reverse_append]
  rfl

/-- A byte below 0x80 parts a text. -/
theorem decode_append_cons (ha : a.toNat < 0x80) (bs cs : List UInt8) :
    decode (bs ++ a :: cs) = decode bs ++ char (Char.ofNat a.toNat) :: decode cs := by
  induction hn : bs.length using Nat.strongRecOn generalizing bs with
  | ind n ih =>
    cases bs with
    | nil =>
      rw [List.nil_append, decode_cons, first_of_lt ha]
      rfl
    | cons b bs =>
      have hle := (bytes_first b bs).2
      have hlt : (bs.drop (first b bs).2).length < n := by
        rw [← hn, List.length_drop, List.length_cons]
        omega
      rw [List.cons_append, decode_cons, first_append_cons ha, decode_cons,
        List.drop_append_of_le_length hle, ih _ hlt _ rfl]
      rfl

/-- The units hold all bytes of a text. -/
theorem encode_decode (bs : List UInt8) : encode (decode bs) = bs := by
  induction hn : bs.length using Nat.strongRecOn generalizing bs with
  | ind n ih =>
    cases bs with
    | nil => rfl
    | cons b bs =>
      have hlt : (bs.drop (first b bs).2).length < n := by
        rw [← hn, List.length_drop, List.length_cons]
        omega
      rw [decode_cons, encode, List.flatMap_cons, ← encode, ih _ hlt _ rfl, (bytes_first b bs).1,
        List.cons_append, List.take_append_drop]

/-! ### Characters of one byte -/

/-- Whether a unit is a character of one byte. -/
def IsAscii (g : Glyph) : Prop := ∃ c : Char, g = char c ∧ c.toNat < 0x80

theorem encode_cons (g : Glyph) (gs : List Glyph) : encode (g :: gs) = g.bytes ++ encode gs :=
  List.flatMap_cons

theorem encode_append (gs hs : List Glyph) : encode (gs ++ hs) = encode gs ++ encode hs :=
  List.flatMap_append

/-- Such a character parts a text. -/
theorem IsAscii.decode_append {g : Glyph} (h : g.IsAscii) (bs cs : List UInt8) :
    decode (bs ++ (g.bytes ++ cs)) = decode bs ++ g :: decode cs := by
  obtain ⟨c, rfl, hc⟩ := h
  have hbytes : (char c).bytes = [c.toNat.toUInt8] := by simp [bytes, charBytes, hc]
  have hn : c.toNat.toUInt8.toNat = c.toNat := toNat_toUInt8 (by omega)
  have hparts := decode_append_cons (hn ▸ hc) bs cs
  rw [hn, Char.ofNat_toNat] at hparts
  rw [hbytes]
  exact hparts

theorem decode_encode_append (h : ∀ g ∈ us, g.IsAscii) (bs : List UInt8) :
    decode (encode us ++ bs) = us ++ decode bs := by
  induction us with
  | nil => rfl
  | cons g us ih =>
    rw [List.forall_mem_cons] at h
    have hparts := h.1.decode_append [] (encode us ++ bs)
    rw [ih h.2] at hparts
    rw [encode_cons, List.append_assoc]
    exact hparts

theorem decode_append_encode (h : ∀ g ∈ us, g.IsAscii) (bs : List UInt8) :
    decode (bs ++ encode us) = decode bs ++ us := by
  cases us with
  | nil => rw [encode, List.flatMap_nil, List.append_nil, List.append_nil]
  | cons g us =>
    rw [List.forall_mem_cons] at h
    have hrest := decode_encode_append h.2 []
    rw [List.append_nil] at hrest
    rw [encode_cons, h.1.decode_append, hrest]
    exact congrArg _ (congrArg _ (List.append_nil us))

/-- What stands between such characters is decoded in the same way without them. -/
theorem decode_encode_middle {ms ws : List Glyph} (hu : ∀ g ∈ us, g.IsAscii)
    (hw : ∀ g ∈ ws, g.IsAscii) (h : decode bs = us ++ ms ++ ws) : decode (encode ms) = ms := by
  have hbs : bs = encode us ++ (encode ms ++ encode ws) := by
    rw [← encode_decode bs, h, encode_append, encode_append, List.append_assoc]
  rw [hbs, decode_encode_append hu, decode_append_encode hw, List.append_assoc] at h
  exact List.append_cancel_right (List.append_cancel_left h)

/-! ### Characters of any number of bytes -/

theorem two_eq_none_of_le {b₀ b₁ : ℕ} (h : 0xE0 ≤ b₀) : two b₀ b₁ = none := by
  unfold two
  simp only [Bool.and_eq_true, decide_eq_true_eq]
  exact if_neg (by omega)

theorem three_eq_none_of_le {b₀ b₁ b₂ : ℕ} (h : 0xF0 ≤ b₀) : three b₀ b₁ b₂ = none := by
  unfold three
  simp only [Bool.and_eq_true, decide_eq_true_eq]
  exact if_neg (by omega)

theorem first_two {b₀ b₁ : UInt8} {c : Char} (h : two b₀.toNat b₁.toNat = some c) :
    first b₀ (b₁ :: bs) = (char c, 1) := by
  have hb : ¬ b₀.toNat < 0x80 := by
    intro hlt
    unfold two at h
    simp only [Option.ite_none_right_eq_some, Bool.and_eq_true, decide_eq_true_eq] at h
    omega
  unfold first
  simp only [if_neg hb, h]

theorem first_three {b₀ b₁ b₂ : UInt8} {c : Char}
    (h : three b₀.toNat b₁.toNat b₂.toNat = some c) :
    first b₀ (b₁ :: b₂ :: bs) = (char c, 2) := by
  have hle : 0xE0 ≤ b₀.toNat := by
    unfold three at h
    simp only [Option.ite_none_right_eq_some, Bool.and_eq_true, decide_eq_true_eq] at h
    exact h.1.1.1.1.1
  have hb : ¬ b₀.toNat < 0x80 := by omega
  unfold first
  simp only [if_neg hb, two_eq_none_of_le hle, h]

theorem first_four {b₀ b₁ b₂ b₃ : UInt8} {c : Char}
    (h : four b₀.toNat b₁.toNat b₂.toNat b₃.toNat = some c) :
    first b₀ (b₁ :: b₂ :: b₃ :: bs) = (char c, 3) := by
  have hle : 0xF0 ≤ b₀.toNat := by
    unfold four at h
    simp only [Option.ite_none_right_eq_some, Bool.and_eq_true, decide_eq_true_eq] at h
    exact h.1.1.1.1.1.1
  have hb : ¬ b₀.toNat < 0x80 := by omega
  have htwo : 0xE0 ≤ b₀.toNat := by omega
  unfold first
  simp only [if_neg hb, two_eq_none_of_le htwo, three_eq_none_of_le hle, h]

theorem two_split {n : ℕ} (hlow : 0x80 ≤ n) (hhigh : n < 0x800) :
    two (0xC0 + n / 0x40) (0x80 + n % 0x40) = some (Char.ofNat n) := by
  have hn : (0xC0 + n / 0x40 - 0xC0) * 0x40 + (0x80 + n % 0x40 - 0x80) = n := by omega
  unfold two isTail
  simp only [Bool.and_eq_true, decide_eq_true_eq, hn]
  exact if_pos (by omega)

theorem three_split {n : ℕ} (hlow : 0x800 ≤ n) (hhigh : n < 0x10000) (hvalid : n.isValidChar) :
    three (0xE0 + n / 0x1000) (0x80 + n / 0x40 % 0x40) (0x80 + n % 0x40) =
      some (Char.ofNat n) := by
  have hn : (0xE0 + n / 0x1000 - 0xE0) * 0x1000 + (0x80 + n / 0x40 % 0x40 - 0x80) * 0x40 +
      (0x80 + n % 0x40 - 0x80) = n := by omega
  -- Without surrogates the second byte keeps to its limits.
  unfold Nat.isValidChar at hvalid
  unfold three isTail
  simp only [Bool.and_eq_true, decide_eq_true_eq, hn]
  refine if_pos ?_
  split <;> split <;> omega

theorem four_split {n : ℕ} (hlow : 0x10000 ≤ n) (hhigh : n < 0x110000) :
    four (0xF0 + n / 0x40000) (0x80 + n / 0x1000 % 0x40) (0x80 + n / 0x40 % 0x40)
      (0x80 + n % 0x40) = some (Char.ofNat n) := by
  have hn : (0xF0 + n / 0x40000 - 0xF0) * 0x40000 + (0x80 + n / 0x1000 % 0x40 - 0x80) * 0x1000 +
      (0x80 + n / 0x40 % 0x40 - 0x80) * 0x40 + (0x80 + n % 0x40 - 0x80) = n := by omega
  unfold four isTail
  simp only [Bool.and_eq_true, decide_eq_true_eq, hn]
  refine if_pos ?_
  split <;> split <;> omega

/-- A character is decoded from its bytes, whatever follows them. -/
theorem decode_charBytes_append (c : Char) (bs : List UInt8) :
    decode (charBytes c ++ bs) = char c :: decode bs := by
  have hvalid : c.toNat.isValidChar := c.valid
  have hlt : c.toNat < 0x110000 := by
    unfold Nat.isValidChar at hvalid
    omega
  fun_cases charBytes c with
  | case1 n h₁ =>
    have hn : n.toUInt8.toNat = n := toNat_toUInt8 (by omega)
    rw [List.singleton_append, decode_cons, first_of_lt (hn.symm ▸ h₁), hn, Char.ofNat_toNat]
    rfl
  | case2 n h₁ h₂ =>
    have h : two (0xC0 + n / 0x40).toUInt8.toNat (0x80 + n % 0x40).toUInt8.toNat = some c := by
      rw [toNat_toUInt8 (by omega), toNat_toUInt8 (by omega), two_split (by omega) h₂,
        Char.ofNat_toNat]
    rw [List.cons_append, List.cons_append, decode_cons, first_two h]
    rfl
  | case3 n h₁ h₂ h₃ =>
    have h : three (0xE0 + n / 0x1000).toUInt8.toNat (0x80 + n / 0x40 % 0x40).toUInt8.toNat
        (0x80 + n % 0x40).toUInt8.toNat = some c := by
      rw [toNat_toUInt8 (by omega), toNat_toUInt8 (by omega), toNat_toUInt8 (by omega),
        three_split (by omega) h₃ hvalid, Char.ofNat_toNat]
    rw [List.cons_append, List.cons_append, List.cons_append, decode_cons, first_three h]
    rfl
  | case4 n h₁ h₂ h₃ =>
    have h : four (0xF0 + n / 0x40000).toUInt8.toNat (0x80 + n / 0x1000 % 0x40).toUInt8.toNat
        (0x80 + n / 0x40 % 0x40).toUInt8.toNat (0x80 + n % 0x40).toUInt8.toNat = some c := by
      rw [toNat_toUInt8 (by omega), toNat_toUInt8 (by omega), toNat_toUInt8 (by omega),
        toNat_toUInt8 (by omega), four_split (by omega) hlt, Char.ofNat_toNat]
    rw [List.cons_append, List.cons_append, List.cons_append, List.cons_append, decode_cons,
      first_four h]
    rfl

/-- A character has its number as its only byte, or all its bytes are from 0x80 on. -/
theorem charBytes_cases (c : Char) :
    (charBytes c = [c.toUInt8] ∧ c.toUInt8.toNat = c.toNat) ∨
      (charBytes c ≠ [] ∧ ∀ b ∈ charBytes c, 0x80 ≤ b.toNat) := by
  have hvalid : c.toNat.isValidChar := c.valid
  unfold Nat.isValidChar at hvalid
  have hbyte : ∀ n, n < 0x100 → 0x80 ≤ n → 0x80 ≤ n.toUInt8.toNat := by
    intro n hn hle
    rwa [toNat_toUInt8 hn]
  fun_cases charBytes c with
  | case1 n h₁ => exact Or.inl ⟨rfl, toNat_toUInt8 (show c.toNat < 0x100 by omega)⟩
  | case2 n h₁ h₂ =>
    refine Or.inr ⟨List.cons_ne_nil _ _, ?_⟩
    simp only [List.forall_mem_cons]
    exact ⟨hbyte _ (by omega) (by omega), hbyte _ (by omega) (by omega), by simp⟩
  | case3 n h₁ h₂ h₃ =>
    refine Or.inr ⟨List.cons_ne_nil _ _, ?_⟩
    simp only [List.forall_mem_cons]
    exact ⟨hbyte _ (by omega) (by omega), hbyte _ (by omega) (by omega),
      hbyte _ (by omega) (by omega), by simp⟩
  | case4 n h₁ h₂ h₃ =>
    refine Or.inr ⟨List.cons_ne_nil _ _, ?_⟩
    simp only [List.forall_mem_cons]
    exact ⟨hbyte _ (by omega) (by omega), hbyte _ (by omega) (by omega),
      hbyte _ (by omega) (by omega), hbyte _ (by omega) (by omega), by simp⟩

/-! ### The bytes of texts -/

theorem char_injective : Function.Injective char := fun _ _ => char.inj

theorem encode_map_char (cs : List Char) : encode (cs.map char) = cs.flatMap charBytes := by
  rw [encode, List.flatMap_map]
  rfl

/-- The units of the bytes of a text are its characters. -/
theorem decode_flatMap_charBytes (cs : List Char) :
    decode (cs.flatMap charBytes) = cs.map char := by
  induction cs with
  | nil => rfl
  | cons c cs ih => rw [List.flatMap_cons, decode_charBytes_append, ih, List.map_cons]

theorem toNat_byteChar (b : UInt8) : (byteChar b).toNat = b.toNat := by
  refine toNat_charOfNat (Or.inl ?_)
  have hlt := b.toNat_lt
  omega

theorem toUInt8_byteChar (b : UInt8) : (byteChar b).toUInt8 = b := by
  refine UInt8.toNat.inj ?_
  show ((byteChar b).toNat.toUInt8).toNat = b.toNat
  rw [toNat_byteChar, toNat_toUInt8 b.toNat_lt]

theorem byteChar_injective : Function.Injective byteChar :=
  Function.LeftInverse.injective toUInt8_byteChar

/-- In a text without bytes from 0x80 on, each byte is a character. -/
theorem decode_of_ascii (h : ∀ b ∈ bs, b.toNat < 0x80) :
    decode bs = (bs.map byteChar).map char := by
  induction bs with
  | nil => rfl
  | cons b bs ih =>
    rw [List.forall_mem_cons] at h
    have hparts := decode_append_cons h.1 [] bs
    rw [ih h.2] at hparts
    exact hparts

theorem byteChar_charBytes {c : Char} (hc : c.toNat < 0x80) : (charBytes c).map byteChar = [c] := by
  have hbyte : c.toNat.toUInt8.toNat = c.toNat := toNat_toUInt8 (by omega)
  simp [charBytes, hc, byteChar, hbyte]

theorem map_byteChar_flatMap {cs : List Char} (h : ∀ c ∈ cs, c.toNat < 0x80) :
    (cs.flatMap charBytes).map byteChar = cs := by
  induction cs with
  | nil => rfl
  | cons c cs ih =>
    rw [List.forall_mem_cons] at h
    rw [List.flatMap_cons, List.map_append, byteChar_charBytes h.1, ih h.2, List.singleton_append]

/-- The bytes below 0x80 are in a text where their characters are. -/
theorem mem_flatMap_charBytes {cs : List Char} (ha : a.toNat < 0x80) :
    a ∈ cs.flatMap charBytes ↔ byteChar a ∈ cs := by
  rw [List.mem_flatMap]
  constructor
  · rintro ⟨c, hc, hmem⟩
    rcases charBytes_cases c with ⟨hbytes, hc'⟩ | ⟨-, hlarge⟩
    · rw [hbytes, List.mem_singleton] at hmem
      rw [← hmem] at hc'
      rwa [byteChar, hc', Char.ofNat_toNat]
    · have hle := hlarge a hmem
      omega
  · intro hmem
    refine ⟨byteChar a, hmem, ?_⟩
    have hc : (byteChar a).toNat < 0x80 := (toNat_byteChar a).symm ▸ ha
    have hsingle := byteChar_charBytes hc
    rw [← List.mem_map_of_injective byteChar_injective, hsingle]
    exact List.mem_singleton_self _

theorem flatMap_charBytes_ne_nil {cs : List Char} (h : cs ≠ []) : cs.flatMap charBytes ≠ [] := by
  intro hnil
  have hunits := decode_flatMap_charBytes cs
  rw [hnil] at hunits
  exact h (List.map_eq_nil_iff.1 hunits.symm)

end ClauseCode.Glyph
