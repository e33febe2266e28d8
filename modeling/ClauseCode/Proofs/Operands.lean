import ClauseCode.Machine.Address
import ClauseCode.Machine.Functor
import ClauseCode.Proofs.Glyphs
import ClauseCode.Proofs.Numerals
import ClauseCode.Proofs.Separators
import Mathlib.Data.List.TakeWhile

/-!
# Texts of addresses and functors

An address is read from a letter and digits, a functor from a name, a slash and digits, where the
slash is the last one.  The digits are those of a number that a word of 64 bits can hold
(`Decimal.Index`).  The texts that are read are these and no others (`Address.parse_eq_ok_iff`,
`Functor.parse_eq_ok_iff`), so that what is written for an address or a functor is read back
(`Address.parse_text`, `Address.parse_argText`, `Functor.parse_text`), and the text of a functor
with an unreadable name or a negative arity is refused (`Functor.parse_text_eq_badForm`).

In a byte text the letter, the slash and the digits are in ASCII, and the name of a functor may be
any bytes (`Functor.parseBytes_eq_some_iff`, `Address.parseBytes_eq_some_iff`).  Such bytes part a
text where their characters do, so that the bytes of a text are read as the text is
(`Functor.parseBytes_textBytes`, `Address.parseBytes_textBytes`).
-/

namespace ClauseCode

namespace Decimal

variable {ds : List Char} {n : Int}

/-- Digits without a sign, at least one, and their value, which a word of 64 bits can hold. -/
structure Index (ds : List Char) (n : Int) : Prop where
  ne_nil : ds ≠ []
  digits : ∀ c ∈ ds, isDigit c = true
  value : n = Nat.ofDigitChars 10 ds 0
  lt : n < 2 ^ 63

theorem Index.nonneg (h : Index ds n) : 0 ≤ n := by
  rw [h.value]
  exact Int.natCast_nonneg _

theorem Index.fits (h : Index ds n) : Fits n := by
  have hnonneg := h.nonneg
  have hlt := h.lt
  rw [Fits]
  omega

theorem Index.slash_not_mem (h : Index ds n) : '/' ∉ ds :=
  fun hmem => absurd (h.digits _ hmem) (by decide)

theorem parse_digits_iff (hne : ds ≠ []) (hds : ∀ c ∈ ds, isDigit c = true) :
    parse (String.ofList ds) = .ok n ↔ Index ds n := by
  have hnumeral := Numeral.plain hne hds
  rw [parse_eq_ok_iff, String.toList_ofList, ofChars_eq_ok_iff fun ds' => hnumeral.not_plus]
  constructor
  · rintro ⟨h, hfits⟩
    exact ⟨hne, hds, h.unique hnumeral, hfits.2⟩
  · intro h
    have hvalue := h.value
    subst hvalue
    exact ⟨hnumeral, h.fits⟩

/-- The text of a number that is not negative has no sign. -/
theorem index_text (hn : 0 ≤ n) (hfits : Fits n) : Index (text n).toList n := by
  rw [toList_text_of_nonneg hn]
  refine ⟨Nat.toDigits_ne_nil, fun c hc => isDigit_of_mem_toDigits hc, ?_, hfits.2⟩
  rw [Nat.ofDigitChars_ten_toDigits, Int.toNat_of_nonneg hn]

end Decimal

open Decimal (Index Fits)

/-! ### Addresses -/

namespace Address

variable {a : Address} {l : Level} {n : Int} {letter : Char} {s : String}

/-- The number of a register or a slot. -/
def index : Address → Int
  | reg n => n
  | stack n => n

theorem ofLetter_eq_some_iff :
    ofLetter letter n = some (a, l) ↔
      (letter = 'A' ∧ a = reg n ∧ l = .shallow) ∨ (letter = 'X' ∧ a = reg n ∧ l = .deep) ∨
        (letter = 'Y' ∧ a = stack n ∧ l = .deep) := by
  rw [ofLetter]
  split_ifs with hA hX hY
  · simp [hA, eq_comm]
  · simp [hX, eq_comm]
  · simp [hY, eq_comm]
  · simp [hA, hX, hY]

theorem isSome_ofLetter (m n : Int) : (ofLetter letter m).isSome = (ofLetter letter n).isSome := by
  unfold ofLetter
  split_ifs <;> rfl

/-- The texts that are read as addresses. -/
theorem parse_eq_ok_iff :
    parse s = .ok (a, l) ↔
      ∃ letter ds n, s.toList = letter :: ds ∧ Index ds n ∧ ofLetter letter n = some (a, l) := by
  constructor
  · intro h
    unfold parse at h
    split at h
    next letter d ds hs =>
      split at h
      next hform =>
        rw [Bool.and_eq_true, List.all_eq_true] at hform
        split at h
        next => simp at h
        next n hn =>
          have hindex := (Decimal.parse_digits_iff (List.cons_ne_nil d ds) hform.2).1 hn
          split at h
          next b hb =>
            obtain rfl := Except.ok.inj h
            exact ⟨letter, d :: ds, n, hs, hindex, hb⟩
          next => simp at h
      next => simp at h
    next => simp at h
  · rintro ⟨letter, ds, n, hs, hindex, hletter⟩
    obtain ⟨d, ds, rfl⟩ := List.exists_cons_of_ne_nil hindex.ne_nil
    have hsome : (ofLetter letter 0).isSome = true := by
      rw [isSome_ofLetter 0 n, hletter]
      rfl
    have hdigits : (d :: ds).all Decimal.isDigit = true := List.all_eq_true.2 hindex.digits
    have hparse := (Decimal.parse_digits_iff hindex.ne_nil hindex.digits).2 hindex
    unfold parse
    rw [hs]
    simp only [hsome, hdigits, hparse, hletter, Bool.and_self, if_true]

/-- An address is read back with its text, as one within a term. -/
theorem parse_text (ha : 0 ≤ a.index) (hfits : Fits a.index) : parse a.text = .ok (a, .deep) := by
  have hindex := Decimal.index_text ha hfits
  cases a with
  | reg n =>
    refine parse_eq_ok_iff.2 ⟨'X', _, n, ?_, hindex, rfl⟩
    rw [text, String.toList_append]
    rfl
  | stack n =>
    refine parse_eq_ok_iff.2 ⟨'Y', _, n, ?_, hindex, rfl⟩
    rw [text, String.toList_append]
    rfl

theorem parse_argText (hn : 0 ≤ n) (hfits : Fits n) :
    parse (argText n) = .ok (.reg n, .shallow) := by
  refine parse_eq_ok_iff.2 ⟨'A', _, n, ?_, Decimal.index_text hn hfits, rfl⟩
  rw [argText, String.toList_append]
  rfl

end Address

/-- Whether the text of an instruction shows its level: a register may be that of an argument, and
a stack slot is always deep. -/
def Level.Suits : Level → Address → Prop
  | l, .reg _ => l = .shallow ∨ l = .deep
  | l, .stack _ => l = .deep

instance (l : Level) (a : Address) : Decidable (l.Suits a) :=
  match a with
  | .reg _ => inferInstanceAs (Decidable (_ ∨ _))
  | .stack _ => inferInstanceAs (Decidable (_ = _))

namespace Address

variable {a : Address} {l : Level} {s : String}

/-- An address is read back with its text at its level. -/
theorem parse_textAt (hl : l.Suits a) (ha : 0 ≤ a.index) (hfits : Fits a.index) :
    parse (a.textAt l) = .ok (a, l) := by
  cases a with
  | reg n =>
    rcases hl with rfl | rfl
    · exact parse_argText ha hfits
    · exact parse_text ha hfits
  | stack n =>
    obtain rfl : l = .deep := hl
    exact parse_text ha hfits

/-- What is read is an address that can be written. -/
theorem suits_of_parse (h : parse s = .ok (a, l)) :
    l.Suits a ∧ 0 ≤ a.index ∧ Fits a.index := by
  obtain ⟨letter, ds, n, -, hindex, hletter⟩ := parse_eq_ok_iff.1 h
  rcases ofLetter_eq_some_iff.1 hletter with ⟨-, rfl, rfl⟩ | ⟨-, rfl, rfl⟩ | ⟨-, rfl, rfl⟩
  · exact ⟨Or.inl rfl, hindex.nonneg, hindex.fits⟩
  · exact ⟨Or.inr rfl, hindex.nonneg, hindex.fits⟩
  · exact ⟨rfl, hindex.nonneg, hindex.fits⟩

end Address

/-! ### Functors -/

namespace Functor

variable {cs name digits : List Char} {s : String} {f : Functor}

theorem splitLastSlash_eq_some_iff :
    splitLastSlash cs = some (name, digits) ↔ cs = name ++ '/' :: digits ∧ '/' ∉ digits := by
  have hsplit := List.takeWhile_append_dropWhile (p := fun c => decide (c ≠ '/')) (l := cs.reverse)
  constructor
  · intro h
    unfold splitLastSlash at h
    dsimp only at h
    split at h
    next => simp at h
    next c back hback =>
      obtain ⟨rfl, rfl⟩ := Prod.mk.inj (Option.some.inj h)
      have hc : c = '/' := by
        have hne : cs.reverse.dropWhile (fun c => decide (c ≠ '/')) ≠ [] := by
          rw [hback]
          exact List.cons_ne_nil c back
        have hhead := List.head_dropWhile_not (fun c => decide (c ≠ '/')) hne
        simp only [hback, List.head_cons] at hhead
        simpa using hhead
      rw [hback, hc] at hsplit
      refine ⟨?_, fun hmem => ?_⟩
      · have hcs := congrArg List.reverse hsplit
        rwa [List.reverse_append, List.reverse_cons, List.append_assoc, List.singleton_append,
          List.reverse_reverse, eq_comm] at hcs
      · have hne := List.mem_takeWhile_imp (List.mem_reverse.1 hmem)
        simp at hne
  · rintro ⟨rfl, hslash⟩
    have hdigits : ∀ c ∈ digits.reverse, decide (c ≠ '/') = true := by
      intro c hc
      rw [decide_eq_true_eq]
      rintro rfl
      exact hslash (List.mem_reverse.1 hc)
    have hback : (name ++ '/' :: digits).reverse = digits.reverse ++ '/' :: name.reverse := by simp
    unfold splitLastSlash
    dsimp only
    rw [hback, List.dropWhile_append_of_pos hdigits, List.takeWhile_append_of_pos hdigits]
    simp

/-- Whether a functor's name can be read: it is not empty and has no newline. -/
def Readable (name : String) : Prop := name ≠ "" ∧ '\n' ∉ name.toList

instance (name : String) : Decidable (Readable name) := inferInstanceAs (Decidable (_ ∧ _))

/-- The texts that are read as functors. -/
theorem parse_eq_ok_iff :
    parse s = .ok f ↔
      Readable f.name ∧ ∃ ds, s.toList = f.name.toList ++ '/' :: ds ∧ Index ds f.arity := by
  constructor
  · intro h
    unfold parse at h
    split at h
    next => simp at h
    next name ds hsplit =>
      split at h
      next => simp at h
      next hform =>
        simp only [Bool.or_eq_true, not_or, Bool.not_eq_true, List.isEmpty_eq_false_iff,
          List.contains_eq_mem, decide_eq_false_iff_not, Bool.not_eq_false', List.all_eq_true]
          at hform
        obtain ⟨⟨⟨hname, hline⟩, hne⟩, hds⟩ := hform
        split at h
        next => simp at h
        next n hn =>
          obtain rfl := Except.ok.inj h
          obtain ⟨hs, -⟩ := splitLastSlash_eq_some_iff.1 hsplit
          refine ⟨⟨fun hempty => hname ?_, ?_⟩, ds, ?_, ?_⟩
          · exact String.ofList_eq_empty_iff.1 hempty
          · rwa [String.toList_ofList]
          · rw [String.toList_ofList, hs]
          · exact (Decimal.parse_digits_iff hne hds).1 hn
  · rintro ⟨⟨hname, hline⟩, ds, hs, hindex⟩
    have hempty : f.name.toList.isEmpty = false := by
      rw [List.isEmpty_eq_false_iff]
      intro hnil
      exact hname (String.toList_eq_nil_iff.1 hnil)
    have hcontains : f.name.toList.contains '\n' = false := by simpa using hline
    have hdigits : ds.all Decimal.isDigit = true := List.all_eq_true.2 hindex.digits
    have hds : ds.isEmpty = false := List.isEmpty_eq_false_iff.2 hindex.ne_nil
    have hparse := (Decimal.parse_digits_iff hindex.ne_nil hindex.digits).2 hindex
    unfold parse
    rw [splitLastSlash_eq_some_iff.2 ⟨hs, hindex.slash_not_mem⟩]
    simp only [hempty, hcontains, hdigits, hds, hparse, Bool.or_self, Bool.not_true]
    simp

theorem toList_text : f.text.toList = f.name.toList ++ '/' :: (Decimal.text f.arity).toList := by
  rw [text, String.toList_append, String.toList_append, List.append_assoc]
  rfl

/-- A functor is read back from its text. -/
theorem parse_text (hname : Readable f.name) (harity : 0 ≤ f.arity) (hfits : Fits f.arity) :
    parse f.text = .ok f :=
  parse_eq_ok_iff.2 ⟨hname, (Decimal.text f.arity).toList, toList_text,
    Decimal.index_text harity hfits⟩

/-- Where the name is not readable or the arity is negative, nothing is read from the text. -/
theorem parse_text_eq_badForm (h : ¬ (Readable f.name ∧ 0 ≤ f.arity)) :
    parse f.text = .error (.badForm f.text) := by
  have hslash : '/' ∉ (Decimal.text f.arity).toList :=
    Decimal.not_mem_text (by decide) (by decide)
  unfold parse
  rw [splitLastSlash_eq_some_iff.2 ⟨toList_text, hslash⟩]
  refine if_pos ?_
  by_cases hname : Readable f.name
  · have hneg : f.arity < 0 := Int.not_le.1 fun harity => h ⟨hname, harity⟩
    have hsign : Decimal.isDigit '-' = false := by decide
    rw [Decimal.toList_text_of_neg hneg, List.all_cons, hsign]
    simp
  · rw [Readable, not_and_or, not_not, not_not] at hname
    rcases hname with hempty | hline
    · rw [hempty]
      rfl
    · rw [List.contains_iff_mem.2 hline]
      simp

end Functor

/-! ### Byte texts -/

section Bytes

open Glyph

variable {bs name : List UInt8} {n : Int}

theorem toOption_eq_some_iff {ε α : Type} {x : Except ε α} {y : α} :
    x.toOption = some y ↔ x = .ok y := by
  cases x <;> simp [Except.toOption]

theorem Decimal.toNat_lt_of_isDigit {c : Char} (h : isDigit c = true) : c.toNat < 0x80 := by
  rw [isDigit, Bool.and_eq_true, decide_eq_true_eq, decide_eq_true_eq] at h
  have hle : c.toNat ≤ '9'.toNat := h.2
  exact Nat.lt_of_le_of_lt hle (by decide)

/-- Digits stand for themselves in the bytes of a text. -/
theorem Decimal.Index.map_byteChar {ds : List Char} (h : Index ds n) :
    (ds.flatMap charBytes).map byteChar = ds :=
  map_byteChar_flatMap fun c hc => toNat_lt_of_isDigit (h.digits c hc)

theorem Decimal.Index.decode_eq {ds : List UInt8} (h : Index (ds.map byteChar) n) :
    decode ds = (ds.map byteChar).map char := by
  refine decode_of_ascii fun b hb => ?_
  rw [← toNat_byteChar]
  exact toNat_lt_of_isDigit (h.digits _ (List.mem_map_of_mem hb))

theorem Decimal.Index.slash_not_mem_bytes {ds : List UInt8} (h : Index (ds.map byteChar) n) :
    47 ∉ ds :=
  fun hmem => h.slash_not_mem (List.mem_map_of_mem (f := byteChar) hmem)

namespace Functor

/-- The byte texts that are read as functors. -/
theorem parseBytes_eq_some_iff :
    parseBytes bs = some (name, n) ↔
      (name ≠ [] ∧ 10 ∉ name) ∧ ∃ ds, bs = name ++ 47 :: ds ∧ Index (ds.map byteChar) n := by
  have hback : ∀ u : List UInt8, (u.map byteChar).map (·.toUInt8) = u := by
    intro u
    rw [List.map_map]
    exact List.map_id'' toUInt8_byteChar u
  have hline : ∀ u : List UInt8, '\n' ∈ u.map byteChar ↔ 10 ∈ u := fun u =>
    List.mem_map_of_injective byteChar_injective (a := 10)
  constructor
  · intro h
    unfold parseBytes at h
    split at h
    next => simp at h
    next f hf =>
      obtain ⟨rfl, rfl⟩ := Prod.mk.inj (Option.some.inj h)
      obtain ⟨⟨hname, hnewline⟩, ds, hs, hindex⟩ := parse_eq_ok_iff.1 hf
      rw [String.toList_ofList, List.map_eq_append_iff] at hs
      obtain ⟨u, v, rfl, hu, hv⟩ := hs
      obtain ⟨b, ds', rfl, hb, rfl⟩ := List.map_eq_cons_iff.1 hv
      obtain rfl : b = 47 := byteChar_injective hb
      rw [← hu, hback]
      rw [← hu, hline] at hnewline
      refine ⟨⟨?_, hnewline⟩, ds', rfl, hindex⟩
      rintro rfl
      exact hname (String.toList_eq_nil_iff.1 hu.symm)
  · rintro ⟨⟨hname, hnewline⟩, ds, rfl, hindex⟩
    have hparse : parse (String.ofList ((name ++ 47 :: ds).map byteChar)) =
        .ok ⟨String.ofList (name.map byteChar), n⟩ := by
      refine parse_eq_ok_iff.2 ⟨⟨?_, ?_⟩, ds.map byteChar, ?_, hindex⟩
      · rw [ne_eq, String.ofList_eq_empty_iff]
        simpa using hname
      · rwa [String.toList_ofList, hline]
      · rw [String.toList_ofList, String.toList_ofList, List.map_append, List.map_cons]
        rfl
    rw [parseBytes, hparse]
    simp only [String.toList_ofList, hback]

/-- What is read from the text of a functor whose name may be any bytes. -/
theorem parseBytes_text_iff {name' : List UInt8} {m : Int} (hfits : Fits n) :
    parseBytes (name ++ 47 :: textBytes (Decimal.text n)) = some (name', m) ↔
      (name' = name ∧ m = n) ∧ (name ≠ [] ∧ 10 ∉ name) ∧ 0 ≤ n := by
  have hslash : 47 ∉ textBytes (Decimal.text n) := fun hmem =>
    Decimal.not_mem_text (c := '/') (by decide) (by decide)
      ((mem_flatMap_charBytes (by decide)).1 hmem)
  rw [parseBytes_eq_some_iff]
  constructor
  · rintro ⟨hname, ds, htext, hindex⟩
    obtain ⟨rfl, rfl⟩ := Text.split_last hslash hindex.slash_not_mem_bytes htext
    have hnonneg : 0 ≤ n := by
      by_contra hneg
      have hsign : '-' ∈ (Decimal.text n).toList := by
        rw [Decimal.toList_text_of_neg (Int.not_le.1 hneg)]
        exact List.mem_cons_self
      have hbyte : 45 ∈ textBytes (Decimal.text n) := (mem_flatMap_charBytes (by decide)).2 hsign
      exact absurd (hindex.digits _ (List.mem_map_of_mem hbyte)) (by decide)
    have hdigits := Decimal.index_text hnonneg hfits
    rw [textBytes, hdigits.map_byteChar] at hindex
    exact ⟨⟨rfl, hindex.value.trans hdigits.value.symm⟩, hname, hnonneg⟩
  · rintro ⟨⟨rfl, rfl⟩, hname, hnonneg⟩
    have hdigits := Decimal.index_text hnonneg hfits
    refine ⟨hname, _, rfl, ?_⟩
    rwa [textBytes, hdigits.map_byteChar]

/-- The bytes of a text are read as the text is. -/
theorem parseBytes_textBytes (s : String) :
    parseBytes (textBytes s) = (parse s).toOption.map fun f => (textBytes f.name, f.arity) := by
  refine Option.ext fun r => ?_
  obtain ⟨name, n⟩ := r
  rw [parseBytes_eq_some_iff, Option.map_eq_some_iff]
  constructor
  · rintro ⟨⟨hname, hnewline⟩, ds, hs, hindex⟩
    -- the slash parts the units of the text, and what stands before it are characters again
    have hunits : s.toList.map char = decode name ++ char '/' :: (ds.map byteChar).map char := by
      have hparts := decode_append_cons (a := 47) (by decide) name ds
      rw [hindex.decode_eq, ← hs, textBytes, decode_flatMap_charBytes] at hparts
      exact hparts
    obtain ⟨u, v, huv, hu, hv⟩ := List.map_eq_append_iff.1 hunits
    obtain rfl : v = '/' :: ds.map byteChar := by
      rw [← List.map_cons] at hv
      exact char_injective.list_map hv
    have hbytes : u.flatMap charBytes = name := by
      rw [← encode_map_char, hu, encode_decode]
    have hparse : parse s = .ok ⟨String.ofList u, n⟩ := by
      refine parse_eq_ok_iff.2 ⟨⟨?_, ?_⟩, ds.map byteChar, ?_, hindex⟩
      · rw [ne_eq, String.ofList_eq_empty_iff]
        rintro rfl
        exact hname hbytes.symm
      · rw [String.toList_ofList]
        intro hmem
        rw [← hbytes] at hnewline
        exact hnewline ((mem_flatMap_charBytes (a := 10) (by decide)).2 hmem)
      · rw [String.toList_ofList, huv]
    refine ⟨_, toOption_eq_some_iff.2 hparse, ?_⟩
    rw [textBytes, String.toList_ofList, hbytes]
  · rintro ⟨f, hf, hpair⟩
    obtain ⟨rfl, rfl⟩ := Prod.mk.inj hpair
    obtain ⟨⟨hname, hnewline⟩, ds, hs, hindex⟩ := parse_eq_ok_iff.1 (toOption_eq_some_iff.1 hf)
    refine ⟨⟨?_, fun hmem => ?_⟩, ds.flatMap charBytes, ?_, ?_⟩
    · exact flatMap_charBytes_ne_nil fun hnil => hname (String.toList_eq_nil_iff.1 hnil)
    · exact hnewline ((mem_flatMap_charBytes (a := 10) (by decide)).1 hmem)
    · rw [textBytes, hs, List.flatMap_append, List.flatMap_cons]
      rfl
    · rwa [hindex.map_byteChar]

end Functor

namespace Address

/-- The byte texts that are read as addresses. -/
theorem parseBytes_eq_some_iff {a : Address} {l : Level} :
    parseBytes bs = some (a, l) ↔
      ∃ letter ds n, bs = letter :: ds ∧ Index (ds.map byteChar) n ∧
        ofLetter (byteChar letter) n = some (a, l) := by
  rw [parseBytes, toOption_eq_some_iff, parse_eq_ok_iff, String.toList_ofList]
  constructor
  · rintro ⟨letter, ds, n, hbs, hindex, hletter⟩
    obtain ⟨b, ds', rfl, rfl, rfl⟩ := List.map_eq_cons_iff.1 hbs
    exact ⟨b, ds', n, rfl, hindex, hletter⟩
  · rintro ⟨letter, ds, n, rfl, hindex, hletter⟩
    exact ⟨byteChar letter, ds.map byteChar, n, rfl, hindex, hletter⟩

theorem toNat_lt_of_ofLetter {letter : Char} {a : Address × Level}
    (h : ofLetter letter n = some a) : letter.toNat < 0x80 := by
  obtain ⟨a, l⟩ := a
  rcases ofLetter_eq_some_iff.1 h with ⟨rfl, -⟩ | ⟨rfl, -⟩ | ⟨rfl, -⟩ <;> decide

/-- The bytes of a text are read as the text is. -/
theorem parseBytes_textBytes (s : String) : parseBytes (textBytes s) = (parse s).toOption := by
  refine Option.ext fun r => ?_
  obtain ⟨a, l⟩ := r
  rw [parseBytes_eq_some_iff, toOption_eq_some_iff, parse_eq_ok_iff]
  constructor
  · rintro ⟨letter, ds, n, hs, hindex, hletter⟩
    refine ⟨byteChar letter, ds.map byteChar, n, ?_, hindex, hletter⟩
    have hascii : letter.toNat < 0x80 := by
      rw [← toNat_byteChar]
      exact toNat_lt_of_ofLetter hletter
    have hparts := decode_append_cons hascii [] ds
    rw [hindex.decode_eq, List.nil_append, ← hs, textBytes, decode_flatMap_charBytes] at hparts
    exact char_injective.list_map hparts
  · rintro ⟨letter, ds, n, hs, hindex, hletter⟩
    have hletterBytes := byteChar_charBytes (toNat_lt_of_ofLetter hletter)
    obtain ⟨b, bs, hb, rfl, hbs⟩ := List.map_eq_cons_iff.1 hletterBytes
    obtain rfl := List.map_eq_nil_iff.1 hbs
    refine ⟨b, ds.flatMap charBytes, n, ?_, ?_, hletter⟩
    · rw [textBytes, hs, List.flatMap_cons, hb, List.singleton_append]
    · rwa [hindex.map_byteChar]

end Address

end Bytes

/-- The texts that are read as functors and as addresses, and what is read from them.  A functor
stands as a readable name, a slash and an index, which is the split at the last slash; so it is
read back from its own text if its name is readable and its arity is not negative, and otherwise
its text is refused.  An address stands as one of three letters and an index, and it is read back
from its own text.  Arities and indices are integers of 64 bits.  All this holds of byte texts too,
where a name may be any bytes, and the bytes of a text are read as the text is. -/
theorem texts_read_back :
    ((∀ (s : String) (f : Functor), Functor.parse s = .ok f ↔
        Functor.Readable f.name ∧
          ∃ ds, s.toList = f.name.toList ++ '/' :: ds ∧ '/' ∉ ds ∧ Index ds f.arity) ∧
      (∀ f : Functor, Fits f.arity →
        (Functor.parse f.text = .ok f ↔ Functor.Readable f.name ∧ 0 ≤ f.arity) ∧
          (¬ (Functor.Readable f.name ∧ 0 ≤ f.arity) →
            Functor.parse f.text = .error (.badForm f.text))) ∧
      (∀ (s : String) (a : Address) (l : Level), Address.parse s = .ok (a, l) ↔
        ∃ letter ds n, s.toList = letter :: ds ∧ Index ds n ∧
          (letter, a, l) ∈
            [('A', .reg n, .shallow), ('X', .reg n, .deep), ('Y', .stack n, .deep)]) ∧
      (∀ a : Address, Fits a.index → 0 ≤ a.index → Address.parse a.text = .ok (a, .deep)) ∧
      ∀ n : Int, Fits n → 0 ≤ n → Address.parse (Address.argText n) = .ok (.reg n, .shallow)) ∧
    (∀ (bs name : List UInt8) (n : Int), Functor.parseBytes bs = some (name, n) ↔
      (name ≠ [] ∧ 10 ∉ name) ∧
        ∃ ds, bs = name ++ 47 :: ds ∧ 47 ∉ ds ∧ Index (ds.map byteChar) n) ∧
    (∀ (name : List UInt8) (n : Int), Fits n →
      Functor.parseBytes (name ++ 47 :: textBytes (Decimal.text n)) =
        if (name ≠ [] ∧ 10 ∉ name) ∧ 0 ≤ n then some (name, n) else none) ∧
    (∀ (bs : List UInt8) (a : Address) (l : Level), Address.parseBytes bs = some (a, l) ↔
      ∃ letter ds n, bs = letter :: ds ∧ Index (ds.map byteChar) n ∧
        (letter, a, l) ∈ [(65, .reg n, .shallow), (88, .reg n, .deep), (89, .stack n, .deep)]) ∧
    ∀ s : String,
      Functor.parseBytes (textBytes s) =
          (Functor.parse s).toOption.map (fun f => (textBytes f.name, f.arity)) ∧
        Address.parseBytes (textBytes s) = (Address.parse s).toOption := by
  refine ⟨⟨fun s f => ?_, fun f hfits => ⟨⟨fun h => ?_, ?_⟩, ?_⟩, fun s a l => ?_, ?_, ?_⟩, ?_, ?_,
    ?_, fun s => ⟨Functor.parseBytes_textBytes s, Address.parseBytes_textBytes s⟩⟩
  · rw [Functor.parse_eq_ok_iff]
    refine and_congr_right fun _ => exists_congr fun ds => and_congr_right fun _ => ?_
    exact ⟨fun hindex => ⟨hindex.slash_not_mem, hindex⟩, And.right⟩
  · by_contra hnot
    rw [Functor.parse_text_eq_badForm hnot] at h
    simp at h
  · rintro ⟨hname, harity⟩
    exact Functor.parse_text hname harity hfits
  · exact Functor.parse_text_eq_badForm
  · simp only [Address.parse_eq_ok_iff, Address.ofLetter_eq_some_iff, List.mem_cons,
      List.not_mem_nil, or_false, Prod.mk.injEq]
  · exact fun a hfits ha => Address.parse_text ha hfits
  · exact fun n hfits hn => Address.parse_argText hn hfits
  · intro bs name n
    rw [Functor.parseBytes_eq_some_iff]
    refine and_congr_right fun _ => exists_congr fun ds => and_congr_right fun _ => ?_
    exact ⟨fun hindex => ⟨hindex.slash_not_mem_bytes, hindex⟩, And.right⟩
  · intro name n hfits
    split
    next h => exact (Functor.parseBytes_text_iff hfits).2 ⟨⟨rfl, rfl⟩, h⟩
    next h =>
      refine Option.eq_none_iff_forall_ne_some.2 fun r hr => h ?_
      exact ((Functor.parseBytes_text_iff hfits).1 hr).2
  · intro bs a l
    have hletter : ∀ b c : UInt8, byteChar b = byteChar c ↔ b = c := fun _ _ =>
      Glyph.byteChar_injective.eq_iff
    simp only [Address.parseBytes_eq_some_iff, Address.ofLetter_eq_some_iff, List.mem_cons,
      List.not_mem_nil, or_false, Prod.mk.injEq, ← hletter]
    rfl

/-- A name with a slash, an index with leading zeros, the largest arity and a negative one, and a
name of a stray byte. -/
theorem texts_read_back_slash :
    Functor.parse "p/2/007" = .ok ⟨"p/2", 7⟩ ∧
      (Fits (2 ^ 63 - 1) ∧
        Functor.parse (Functor.text ⟨"p/2", 2 ^ 63 - 1⟩) = .ok ⟨"p/2", 2 ^ 63 - 1⟩) ∧
      (Fits (-1) ∧
        Functor.parse (Functor.text ⟨"p", -1⟩) = .error (.badForm (Functor.text ⟨"p", -1⟩))) ∧
      Address.parse "X007" = .ok (.reg 7, .deep) ∧
      Address.parse (Address.text (.stack 3)) = .ok (.stack 3, .deep) ∧
      Address.parse (Address.argText 0) = .ok (.reg 0, .shallow) ∧
      (Fits 2 ∧
        Functor.parseBytes ([255] ++ 47 :: textBytes (Decimal.text 2)) = some ([255], 2)) := by
  have hindex : Index ['0', '0', '7'] 7 :=
    ⟨by decide, by simp [Decimal.isDigit], by decide, by decide⟩
  have hlarge : Fits (2 ^ 63 - 1) := by decide
  have hsmall : Fits (-1) := by decide
  have htwo : Fits 2 := by decide
  obtain ⟨⟨hfunctor, htext, haddress, hdeep, hshallow⟩, -, hbytes, -⟩ := texts_read_back
  refine ⟨?_, ⟨hlarge, ?_⟩, ⟨hsmall, ?_⟩, ?_, ?_, ?_, htwo, ?_⟩
  · exact (hfunctor _ _).2 ⟨by decide, _, rfl, hindex.slash_not_mem, hindex⟩
  · exact (htext ⟨"p/2", 2 ^ 63 - 1⟩ hlarge).1.2 (by decide)
  · exact (htext ⟨"p", -1⟩ hsmall).2 (by decide)
  · exact (haddress _ _ _).2 ⟨'X', _, 7, rfl, hindex, by simp⟩
  · exact hdeep (.stack 3) (by decide) (by decide)
  · exact hshallow 0 (by decide) (by decide)
  · rw [hbytes [255] 2 htwo]
    exact if_pos (by decide)

end ClauseCode
