import ClauseCode.Proofs.Glyphs
import ClauseCode.Proofs.Spellings
import Mathlib.Algebra.Ring.Parity

/-!
# Quotes around atoms

Within quotes a backslash marks the character after it, and quotes and backslashes stand there only
where they are marked (`Escaped`).  So a reader finds the closing quote by counting: before a quote
strictly inside there is an odd number of backslashes, and before the closing one an even number
(`Escaped.enclosed`).

Names are byte texts.  What is shown by the bytes of a spelling is the spelling of what the name
shows (`shown_atomBytes`), so that the spellings of two texts are equal only if the texts are, and
no spelling can be taken for a variable or a numeral (`quoting_reversible`).
-/

namespace ClauseCode.Spelling

/-! ### Marks -/

section Marks

variable {α : Type} {quote back x : α} {l u v : List α}

/-- Texts in which the quote and the backslash stand only where a backslash marks them. -/
inductive Escaped (quote back : α) : List α → Prop
  | nil : Escaped quote back []
  | plain {x : α} {l : List α} (hquote : x ≠ quote) (hback : x ≠ back)
      (h : Escaped quote back l) : Escaped quote back (x :: l)
  | marked {x : α} {l : List α} (h : Escaped quote back l) : Escaped quote back (back :: x :: l)

theorem Escaped.append_plain (hl : Escaped quote back l)
    (hu : ∀ x ∈ u, x ≠ quote ∧ x ≠ back) : Escaped quote back (u ++ l) := by
  induction u with
  | nil => exact hl
  | cons x u ih =>
    rw [List.forall_mem_cons] at hu
    exact .plain hu.1.1 hu.1.2 (ih hu.2)

variable [DecidableEq α]

/-- The number of copies of `x` that a text ends with. -/
def trailing (x : α) (l : List α) : ℕ := (l.reverse.takeWhile (· = x)).length

theorem trailing_concat_self (x : α) (l : List α) : trailing x (l ++ [x]) = trailing x l + 1 := by
  simp [trailing]

theorem trailing_concat_of_ne (hx : x ≠ back) (l : List α) : trailing back (l ++ [x]) = 0 := by
  simp [trailing, hx]

theorem even_trailing_plain (hx : x ≠ back) (p : List α) : Even (trailing back (p ++ [x])) := by
  rw [trailing_concat_of_ne hx]
  exact Even.zero

/-- A marked character leaves an even number of backslashes even. -/
theorem even_trailing_marked {p : List α} (hp : Even (trailing back p)) (x : α) :
    Even (trailing back (p ++ [back, x])) := by
  have hsplit : p ++ [back, x] = p ++ [back] ++ [x] := by simp
  rw [hsplit]
  by_cases hx : x = back
  · rw [hx, trailing_concat_self, trailing_concat_self]
    exact hp.add even_two
  · exact even_trailing_plain hx _

/-- What follows a text with an even number of backslashes at its end keeps it so. -/
theorem Escaped.even_trailing {p : List α} (h : Escaped quote back l)
    (hp : Even (trailing back p)) : Even (trailing back (p ++ l)) := by
  induction h generalizing p with
  | nil => rwa [List.append_nil]
  | plain _ hback _ ih => simpa using ih (even_trailing_plain hback p)
  | @marked x _ _ ih => simpa using ih (even_trailing_marked hp x)

/-- A quote stands after an odd number of backslashes: the last of them marks it, and those before
it mark each other. -/
theorem Escaped.odd_trailing {p : List α} (h : Escaped quote back (u ++ quote :: v))
    (hne : quote ≠ back) (hp : Even (trailing back p)) : Odd (trailing back (p ++ u)) := by
  generalize hl : u ++ quote :: v = l at h
  induction h generalizing p u with
  | nil => simp at hl
  | @plain x l hquote hback _ ih =>
    cases u with
    | nil => exact absurd (List.cons.inj hl).1.symm hquote
    | cons y u =>
      obtain ⟨rfl, htail⟩ := List.cons.inj hl
      simpa using ih (even_trailing_plain hback p) htail
  | @marked x l _ ih =>
    cases u with
    | nil => exact absurd (List.cons.inj hl).1 hne
    | cons y u =>
      obtain ⟨rfl, htail⟩ := List.cons.inj hl
      cases u with
      | nil =>
        -- The quote is the marked character.
        rw [trailing_concat_self]
        exact hp.add_one
      | cons z u =>
        obtain ⟨rfl, hrest⟩ := List.cons.inj htail
        simpa using ih (even_trailing_marked hp z) hrest

/-- Texts between quotes: a quote strictly inside is marked, and the closing one is not. -/
structure Enclosed (quote back : α) (l : List α) : Prop where
  opens : l.head? = some quote
  closes : l.getLast? = some quote
  inside : ∀ u v, l = u ++ quote :: v → u ≠ [] → v ≠ [] → Odd (trailing back u)
  closing : ∀ u, l = u ++ [quote] → Even (trailing back u)

theorem Escaped.enclosed (h : Escaped quote back l) (hne : quote ≠ back) :
    Enclosed quote back (quote :: (l ++ [quote])) := by
  have hopen : Even (trailing back [quote]) := even_trailing_plain hne []
  rw [← List.cons_append]
  refine ⟨rfl, List.getLast?_concat, ?_, ?_⟩
  · intro u v hsplit hu hv
    obtain ⟨v, y, rfl⟩ := (List.eq_nil_or_concat v).resolve_left hv
    rw [List.concat_eq_append, ← List.cons_append, ← List.append_assoc] at hsplit
    obtain ⟨hl, -⟩ := List.append_inj' hsplit rfl
    obtain ⟨x, u, rfl⟩ := List.exists_cons_of_ne_nil hu
    obtain ⟨rfl, rfl⟩ := List.cons.inj hl
    exact h.odd_trailing hne hopen
  · intro u hsplit
    obtain ⟨rfl, -⟩ := List.append_inj' hsplit rfl
    exact h.even_trailing hopen

end Marks

/-! ### Bytes -/

variable {b : UInt8} {bs : List UInt8} {c d : Char} {cs : List Char}

theorem toNat_toUInt8 (hc : c.toNat < 0x80) : c.toUInt8.toNat = c.toNat :=
  Glyph.toNat_toUInt8 (show c.toNat < 0x100 by omega)

theorem ne_of_le (hd : d.toNat < 0x80) (hb : 0x80 ≤ b.toNat) : b ≠ d.toUInt8 := by
  rintro rfl
  rw [toNat_toUInt8 hd] at hb
  omega

theorem ne_of_mem_charBytes (hd : d.toNat < 0x80) (hne : c ≠ d) (hb : b ∈ Glyph.charBytes c) :
    b ≠ d.toUInt8 := by
  rcases Glyph.charBytes_cases c with ⟨hbytes, hc⟩ | ⟨-, hlarge⟩
  · rw [hbytes, List.mem_singleton] at hb
    rintro rfl
    rw [← hb, toNat_toUInt8 hd] at hc
    exact hne (Char.toNat_inj.1 hc.symm)
  · exact ne_of_le hd (hlarge b hb)

theorem escaped_flatMap_escape (cs : List Char) : Escaped '"' '\\' (cs.flatMap escape) := by
  induction cs with
  | nil => exact .nil
  | cons c cs ih =>
    rw [List.flatMap_cons]
    rcases escape_cases c with ⟨hback, hquote, hescape⟩ | ⟨e, hescape, -⟩
    · rw [hescape]
      exact .plain hquote hback ih
    · rw [hescape]
      exact .marked ih

/-- Bytes are marked where their characters are. -/
theorem Escaped.flatMap_charBytes (h : Escaped '"' '\\' cs) :
    Escaped '"'.toUInt8 '\\'.toUInt8 (cs.flatMap Glyph.charBytes) := by
  induction h with
  | nil => exact .nil
  | @plain c cs hquote hback _ ih =>
    refine ih.append_plain fun b hb => ⟨?_, ?_⟩
    · exact ne_of_mem_charBytes (by decide) hquote hb
    · exact ne_of_mem_charBytes (by decide) hback hb
  | @marked c cs _ ih =>
    rw [List.flatMap_cons, List.flatMap_cons]
    rcases Glyph.charBytes_cases c with ⟨hbytes, -⟩ | ⟨hne, hlarge⟩
    · rw [hbytes]
      exact .marked ih
    · obtain ⟨b, rest, hbytes⟩ := List.exists_cons_of_ne_nil hne
      rw [hbytes, List.forall_mem_cons] at hlarge
      rw [hbytes]
      refine .marked (ih.append_plain fun x hx => ⟨?_, ?_⟩)
      · exact ne_of_le (by decide) (hlarge.2 x hx)
      · exact ne_of_le (by decide) (hlarge.2 x hx)

/-- The bytes of characters show these characters. -/
theorem shown_flatMap_charBytes (cs : List Char) : shown (cs.flatMap Glyph.charBytes) = cs := by
  rw [shown, Glyph.decode_flatMap_charBytes, List.map_map]
  exact List.map_id cs

/-- A character of one byte is shown wherever its byte stands. -/
theorem mem_shown (hc : c.toNat < 0x80) (h : c.toUInt8 ∈ bs) : c ∈ shown bs := by
  have hbyte := toNat_toUInt8 hc
  obtain ⟨u, v, rfl⟩ := List.append_of_mem h
  rw [shown, Glyph.decode_append_cons (hbyte ▸ hc), hbyte, Char.ofNat_toNat]
  simp [Glyph.toChar]

theorem shown_atomBytes (bs : List UInt8) : shown (atomBytes bs) = atomChars (shown bs) := by
  unfold atomBytes atomChars
  split
  next => rfl
  next => exact shown_flatMap_charBytes _

/-- The two spellings of a name agree. -/
theorem atomBytes_textBytes (s : String) : atomBytes (textBytes s) = textBytes (atom s) := by
  unfold atomBytes textBytes atom atomChars
  rw [shown_flatMap_charBytes, String.toList_ofList]
  split <;> rfl

/-! ### Spellings -/

theorem isVarName_atomChars (cs : List Char) : isVarName (atomChars cs) = false := by
  unfold atomChars
  split
  next hbare => exact (isBare_iff.1 hbare).2.2.1
  next =>
    have hquote : beginsVar '"' = false := by decide
    rw [quoted, isVarName, hquote, Bool.false_and]

theorem isNumeral_atomChars (cs : List Char) : isNumeral (atomChars cs) = false := by
  unfold atomChars
  split
  next hbare => exact (isBare_iff.1 hbare).2.2.2
  next =>
    have hquote : Text.isDigit '"' = false := by decide
    rw [quoted, isNumeral, List.all_cons, hquote, Bool.false_and, Bool.and_false]

theorem atomBytes_ne_nil (bs : List UInt8) : atomBytes bs ≠ [] := by
  intro hnil
  have hshown := shown_atomBytes bs
  rw [hnil] at hshown
  unfold atomChars at hshown
  split at hshown
  next hbare => exact (isBare_iff.1 hbare).2.1 hshown.symm
  next => exact List.cons_ne_nil _ _ hshown.symm

/-- A name that is not bare is spelled between quotes. -/
theorem enclosed_atomBytes (h : isBare (shown bs) = false) :
    Enclosed '"'.toUInt8 '\\'.toUInt8 (atomBytes bs) := by
  have hbody := (escaped_flatMap_escape (shown bs)).flatMap_charBytes.enclosed (by decide)
  have hbytes : atomBytes bs = '"'.toUInt8 ::
      (((shown bs).flatMap escape).flatMap Glyph.charBytes ++ ['"'.toUInt8]) := by
    rw [atomBytes, h, quoted, List.flatMap_cons, List.flatMap_append]
    rfl
  rwa [hbytes]

/-- A special character stands only between quotes. -/
theorem enclosed_of_mem (hc : c ∈ specials) (h : c.toUInt8 ∈ atomBytes bs) :
    Enclosed '"'.toUInt8 '\\'.toUInt8 (atomBytes bs) := by
  have hascii : (specials.all fun c => c.toNat < 0x80) = true := by decide
  have hlt : c.toNat < 0x80 := by simpa using List.all_eq_true.1 hascii c hc
  cases hbare : isBare (shown bs) with
  | false => exact enclosed_atomBytes hbare
  | true =>
    rw [atomBytes, if_pos hbare] at h
    exact absurd hc ((isBare_iff.1 hbare).1 c (mem_shown hlt h))

/-- Quoting can be undone.  Texts with the same spelling are equal, for the spelling of bytes and
for that of texts, which are the same.  A spelling is not empty, and it is neither the name of a
variable nor a numeral.  A separator or an underscore stands in it only if it is enclosed in
quotes, and it is enclosed if it starts with a quote. -/
theorem quoting_reversible :
    (∀ s t : String, atomBytes (textBytes s) = atomBytes (textBytes t) → s = t) ∧
    (∀ s : String, atomBytes (textBytes s) = textBytes (atom s)) ∧
    ∀ bs : List UInt8,
      atomBytes bs ≠ [] ∧ isVarName (shown (atomBytes bs)) = false ∧
        isNumeral (shown (atomBytes bs)) = false ∧
        (∀ c ∈ [' ', ',', '(', ')', '[', ']', '_'], c.toUInt8 ∈ atomBytes bs →
          Enclosed '"'.toUInt8 '\\'.toUInt8 (atomBytes bs)) ∧
        ((atomBytes bs).head? = some '"'.toUInt8 →
          Enclosed '"'.toUInt8 '\\'.toUInt8 (atomBytes bs)) := by
  refine ⟨fun s t h => ?_, atomBytes_textBytes, fun bs => ⟨atomBytes_ne_nil bs, ?_, ?_, ?_, ?_⟩⟩
  · have hshown := congrArg shown h
    rw [shown_atomBytes, shown_atomBytes] at hshown
    have hnames := atomChars_injective hshown
    rw [textBytes, textBytes, shown_flatMap_charBytes, shown_flatMap_charBytes] at hnames
    exact String.toList_inj.1 hnames
  · rw [shown_atomBytes]
    exact isVarName_atomChars _
  · rw [shown_atomBytes]
    exact isNumeral_atomChars _
  · intro c hc h
    have hsub : [' ', ',', '(', ')', '[', ']', '_'] ⊆ specials := by simp [specials]
    exact enclosed_of_mem (hsub hc) h
  · intro h
    exact enclosed_of_mem (by decide : '"' ∈ specials) (List.mem_of_head? h)

/-- The name of a variable with quotes around it is not spelled like the bare name, and a name of a
stray byte, a space and a quote is enclosed. -/
theorem quoting_reversible_stray :
    atomBytes (textBytes "X") ≠ atomBytes (textBytes "\"X\"") ∧
      ' '.toUInt8 ∈ atomBytes [0xFF, 0x20, 0x22] ∧
      Enclosed '"'.toUInt8 '\\'.toUInt8 (atomBytes [0xFF, 0x20, 0x22]) := by
  obtain ⟨hinjective, -, hspelled⟩ := quoting_reversible
  obtain ⟨-, -, -, hseparator, -⟩ := hspelled [0xFF, 0x20, 0x22]
  have hspace : ' '.toUInt8 ∈ atomBytes [0xFF, 0x20, 0x22] := by decide
  exact ⟨fun h => absurd (hinjective _ _ h) (by decide), hspace, hseparator ' ' (by simp) hspace⟩

end ClauseCode.Spelling
