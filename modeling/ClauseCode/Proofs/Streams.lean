import ClauseCode.Proofs.Glyphs
import ClauseCode.Proofs.Separators
import ClauseCode.Proofs.Values

/-!
# Values one after another

The reader takes an input unit by unit (`Reader.Takes`) and ends in a state that shows its values
(`Reader.Ends`); what is seen of the input for messages does not matter (`readAll_eq_iff`).  Three
facts about single steps say how inputs are put together and cut:

* the values that are complete play no part in a step (`Reader.step_after`);
* white space after a value leads back to the state at the beginning, but for the values that are
  complete (`Reader.Ends.take`);
* outside of strings, only JSON white space and visible characters are taken, and the white space
  changes nothing (`Reader.step_of_not_isMark`).

So the values of two inputs with a line break between them are those of the one, then those of the
other (`readAll_append`), and white space at the ends of an input may be trimmed
(`readAll_trimmed`).
-/

namespace ClauseCode

namespace Json

namespace Reader

variable {r r' r'' : Reader} {vs ws : List Json} {g : Glyph} {gs hs : List Glyph}

/-! ### Runs of the reader -/

/-- Takes a unit of the text. -/
def take (r : Reader) (g : Glyph) : Except Fault Reader := (r.settle g).step g

/-- How units of the text take the reader from one state to another. -/
inductive Takes : Reader → List Glyph → Reader → Prop
  | nil (r : Reader) : Takes r [] r
  | cons {r r' r'' : Reader} {g : Glyph} {gs : List Glyph} (h : r.take g = .ok r')
      (hs : Takes r' gs r'') : Takes r (g :: gs) r''

theorem takes_append_iff : r.Takes (gs ++ hs) r'' ↔ ∃ r', r.Takes gs r' ∧ r'.Takes hs r'' := by
  constructor
  · intro h
    induction gs generalizing r with
    | nil => exact ⟨r, .nil r, h⟩
    | cons g gs ih =>
      cases h with
      | cons htake h =>
        obtain ⟨r', hgs, hhs⟩ := ih h
        exact ⟨r', .cons htake hgs, hhs⟩
  · rintro ⟨r', hgs, hhs⟩
    induction hgs with
    | nil => exact hhs
    | cons htake _ ih => exact .cons htake (ih hhs)

/-- The states in which a text may end, and the values that it then holds. -/
inductive Ends : Reader → List Json → Prop
  | idle (mayClose : Bool) (done : List Json) : Ends ⟨.value mayClose, [], done⟩ done.reverse
  | number {part : NumberPart} (h : part.mayEnd = true) (text : List Char) (done : List Json) :
      Ends ⟨.number part text, [], done⟩ (.number (String.ofList text.reverse) :: done).reverse

theorem finish_eq_iff : r.finish .eof = (vs, none) ↔ r.Ends vs := by
  constructor
  · intro h
    obtain ⟨phase, frames, done⟩ := r
    cases phase with
    | value mayClose =>
      cases frames with
      | nil =>
        obtain rfl : done.reverse = vs := (Prod.mk.inj h).1
        exact .idle mayClose done
      | cons f fs => simp [finish] at h
    | number part text =>
      cases hpart : part.mayEnd with
      | false => simp [finish, hpart] at h
      | true =>
        cases frames with
        | nil =>
          obtain rfl : (.number (String.ofList text.reverse) :: done).reverse = vs := by
            simpa [finish, hpart, deliver] using h
          exact .number hpart text done
        | cons f fs => cases f <;> simp [finish, hpart, deliver] at h
    | key | colon | after | literal | string | escape | code => simp [finish] at h
  · intro h
    cases h with
    | idle => rfl
    | number h => simp [finish, h, deliver]

end Reader

/-- What the window shows matters for messages only. -/
theorem Scan.run_eq_iff {s : Scan} {gs : List Glyph} {vs : List Json} :
    s.run .eof gs = (vs, none) ↔ ∃ r, s.reader.Takes gs r ∧ r.Ends vs := by
  induction gs generalizing s with
  | nil =>
    rw [run, Reader.finish_eq_iff]
    constructor
    · exact fun h => ⟨s.reader, .nil _, h⟩
    · rintro ⟨r, ⟨⟩, h⟩
      exact h
  | cons g gs ih =>
    rw [run]
    cases htake : s.reader.take g with
    | error f =>
      have hstep : (s.ask.settle g).step g = .error f := by
        unfold Scan.step
        rw [show (s.ask.settle g).reader.step g = .error f from htake]
      simp only [hstep]
      constructor
      · intro h
        simp at h
      · rintro ⟨r, h, -⟩
        cases h with
        | cons h => simp [htake] at h
    | ok r =>
      have hstep : ∃ s', (s.ask.settle g).step g = .ok s' ∧ s'.reader = r := by
        unfold Scan.step
        rw [show (s.ask.settle g).reader.step g = .ok r from htake]
        exact ⟨_, rfl, rfl⟩
      obtain ⟨s', hs', rfl⟩ := hstep
      simp only [hs', ih]
      constructor
      · rintro ⟨r, h, hends⟩
        exact ⟨r, .cons htake h, hends⟩
      · rintro ⟨r, h, hends⟩
        cases h with
        | cons h hs =>
          rw [htake] at h
          obtain rfl := Except.ok.inj h
          exact ⟨r, hs, hends⟩

theorem readAll_eq_iff {bytes : List UInt8} {vs : List Json} :
    readAll ⟨bytes, .eof⟩ = (vs, none) ↔
      ∃ r, Reader.start.Takes (Glyph.decode bytes) r ∧ r.Ends vs :=
  Scan.run_eq_iff

namespace Reader

variable {r r' r'' : Reader} {vs ws : List Json} {g : Glyph} {gs hs : List Glyph}

/-! ### Values that are complete -/

/-- The reader with values that were complete before, the last one first. -/
def after (r : Reader) (vs : List Json) : Reader := { r with done := r.done ++ vs }

theorem phase_after : (r.after vs).phase = r.phase := rfl

theorem frames_after : (r.after vs).frames = r.frames := rfl

theorem deliver_after (v : Json) : (r.after vs).deliver v = (r.deliver v).after vs := by
  unfold deliver
  rw [frames_after]
  split <;> rfl

theorem close_after : (r.after vs).close = r.close.after vs := by
  unfold close
  rw [frames_after]
  split
  next => rfl
  next fs _ => exact deliver_after (r := { r with frames := fs }) _
  next fs _ => exact deliver_after (r := { r with frames := fs }) _

theorem enter_after (f : Frame) (p : Phase) :
    (r.after vs).enter f p = (r.enter f p).map (after · vs) := by
  unfold enter
  rw [frames_after]
  split <;> rfl

theorem endString_after (isKey : Bool) (units : List StringUnit) :
    (r.after vs).endString isKey units = (r.endString isKey units).after vs := by
  unfold endString
  rw [frames_after]
  dsimp only
  split
  next => split <;> rfl
  next => exact deliver_after _

theorem startValue_after (mayClose : Bool) (c : Char) :
    (r.after vs).startValue mayClose c = (r.startValue mayClose c).map (after · vs) := by
  unfold startValue
  simp only [enter_after, close_after, apply_ite (Except.map (after · vs))]
  rfl

theorem goOn_after : (r.after vs).goOn g = (r.goOn g).map (after · vs) := by
  unfold goOn
  rw [frames_after, close_after]
  split
  next => split_ifs <;> rfl
  next => split_ifs <;> rfl
  next => rfl

theorem takeLiteral_after (word : String) (left : List Char) (v : Json) :
    (r.after vs).takeLiteral word left v g = (r.takeLiteral word left v g).map (after · vs) := by
  unfold takeLiteral
  rw [deliver_after]
  split
  next => rfl
  next => split_ifs <;> rfl

theorem takeString_after (isKey : Bool) (units : List StringUnit) :
    (r.after vs).takeString isKey units g = (r.takeString isKey units g).map (after · vs) := by
  unfold takeString
  rw [endString_after]
  split_ifs <;> rfl

theorem takeEscape_after (isKey : Bool) (units : List StringUnit) :
    (r.after vs).takeEscape isKey units g = (r.takeEscape isKey units g).map (after · vs) := by
  unfold takeEscape
  split
  next => rfl
  next => split <;> rfl

theorem takeCode_after (isKey : Bool) (units : List StringUnit) (digits : List Char) :
    (r.after vs).takeCode isKey units digits g =
      (r.takeCode isKey units digits g).map (after · vs) := by
  unfold takeCode
  split_ifs <;> rfl

theorem settle_after : (r.after vs).settle g = (r.settle g).after vs := by
  unfold settle
  rw [phase_after]
  split
  next =>
    split
    next => exact deliver_after _
    next => rfl
  next => rfl

/-- What was complete before does not matter for a unit. -/
theorem step_after : (r.after vs).step g = (r.step g).map (after · vs) := by
  unfold step
  rw [phase_after]
  split
  next =>
    split
    next =>
      split
      next => rfl
      next => exact startValue_after _ _
    next => rfl
  next =>
    rw [close_after]
    split_ifs <;> rfl
  next => split_ifs <;> rfl
  next =>
    split
    next => rfl
    next => exact goOn_after
  next => exact takeLiteral_after _ _ _
  next => split <;> rfl
  next => exact takeString_after _ _
  next => exact takeEscape_after _ _
  next => exact takeCode_after _ _ _

theorem Takes.after (h : r.Takes gs r') (vs : List Json) : (r.after vs).Takes gs (r'.after vs) := by
  induction h with
  | nil => exact .nil _
  | @cons r _ _ g _ htake _ ih =>
    refine .cons ?_ ih
    have hstep : ((r.settle g).after vs).step g = ((r.settle g).step g).map (Reader.after · vs) :=
      step_after
    rw [show (r.settle g).step g = .ok _ from htake] at hstep
    rw [take, settle_after]
    exact hstep

theorem Ends.after (h : r.Ends ws) (vs : List Json) : (r.after vs).Ends (vs.reverse ++ ws) := by
  cases h with
  | idle mayClose done =>
    rw [← List.reverse_append]
    exact .idle mayClose (done ++ vs)
  | number hpart text done =>
    rw [← List.reverse_append]
    exact .number hpart text (done ++ vs)

/-! ### Characters outside of strings -/

/-- Whether a character lies in the range of those that JSON uses outside of strings, white space
apart. -/
def IsMark (c : Char) : Prop := 0x21 ≤ c.toNat ∧ c.toNat ≤ 0x7D

instance (c : Char) : Decidable (IsMark c) := inferInstanceAs (Decidable (_ ∧ _))

variable {c : Char}

theorem isMark_of_le {lo hi : Char} (h : (lo ≤ c && c ≤ hi) = true) (hlo : 0x21 ≤ lo.toNat)
    (hhi : hi.toNat ≤ 0x7D) : IsMark c := by
  simp only [Bool.and_eq_true, decide_eq_true_eq, Char.le_def, UInt32.le_iff_toNat_le] at h
  exact ⟨Nat.le_trans hlo h.1, Nat.le_trans h.2 hhi⟩

theorem isMark_of_isDigit (h : isDigit c = true) : IsMark c :=
  isMark_of_le h (by decide) (by decide)

theorem not_isMark_of_isBlank (h : Text.isBlank c = true) : ¬ IsMark c := by
  rintro ⟨hlo, hhi⟩
  have hbetween : Text.inRanges c.toNat Text.blankRanges = false := by
    rw [Text.blankRanges, Text.inRanges, if_neg (by omega), if_neg (by omega), Text.inRanges,
      if_neg (by omega), if_neg (by omega), Text.inRanges, if_pos (by omega)]
  rw [Text.isBlank, hbetween] at h
  exact nomatch h

theorem ne_of_not_isMark (hc : ¬ IsMark c) {d : Char} (hd : IsMark d) : c ≠ d := by
  rintro rfl
  exact hc hd

theorem isDigit_of_not_isMark (hc : ¬ IsMark c) : isDigit c = false :=
  Bool.eq_false_iff.2 fun h => hc (isMark_of_isDigit h)

theorem next_of_not_isMark (hc : ¬ IsMark c) (part : NumberPart) : part.next c = none := by
  have hne : ∀ {d : Char}, IsMark d → c ≠ d := ne_of_not_isMark hc
  have hpoint : c ≠ '.' := hne (by decide)
  have hmarks : c ≠ 'e' ∧ c ≠ 'E' := ⟨hne (by decide), hne (by decide)⟩
  have hsigns : c ≠ '+' ∧ c ≠ '-' := ⟨hne (by decide), hne (by decide)⟩
  have hzero : c ≠ '0' := hne (by decide)
  cases part <;>
    simp [NumberPart.next, NumberPart.next.fractionOrMark, NumberPart.next.markOnly,
      isDigit_of_not_isMark hc, hpoint, hmarks, hsigns, hzero]

theorem isMark_of_startValue {mayClose : Bool} (h : r.startValue mayClose c = .ok r') :
    IsMark c := by
  cases starts_of_startValue h with
  | digit hc => exact isMark_of_isDigit hc
  | _ => decide

theorem escapeLetter_of_not_isMark (hc : ¬ IsMark c) : escapeLetter c = none := by
  unfold escapeLetter
  split
  case h_9 => rfl
  all_goals exact absurd (by decide) hc

theorem hexValue_of_not_isMark (hc : ¬ IsMark c) : hexValue c = none := by
  have hsmall : ('a' ≤ c && c ≤ 'f') = false :=
    Bool.eq_false_iff.2 fun h => hc (isMark_of_le h (by decide) (by decide))
  have hlarge : ('A' ≤ c && c ≤ 'F') = false :=
    Bool.eq_false_iff.2 fun h => hc (isMark_of_le h (by decide) (by decide))
  simp [hexValue, isDigit_of_not_isMark hc, hsmall, hlarge]

/-! ### What the reader keeps -/

/-- Whether an array may end only where there is one, and the letters left of a literal are
marks. -/
def Tidy (r : Reader) : Prop :=
  match r.phase with
  | .value mayClose => mayClose = true → r.frames ≠ []
  | .literal _ left _ => left ≠ [] ∧ ∀ c ∈ left, IsMark c
  | _ => True

theorem tidy_start : start.Tidy := nofun

theorem tidy_deliver (r : Reader) (v : Json) : (r.deliver v).Tidy := by
  unfold deliver
  split
  next => exact nofun
  next => exact trivial
  next => exact trivial

theorem Tidy.close (h : r.Tidy) : r.close.Tidy := by
  unfold Reader.close
  split
  next => exact h
  next => exact tidy_deliver _ _
  next => exact tidy_deliver _ _

theorem Tidy.startValue {mayClose : Bool} {c : Char} (h : r.Tidy)
    (hr' : r.startValue mayClose c = .ok r') : r'.Tidy := by
  have henter : ∀ f p, r.enter f p = .ok r' → r'.phase = p ∧ r'.frames ≠ [] := by
    intro f p henter
    unfold enter at henter
    split at henter
    next =>
      obtain rfl := Except.ok.inj henter
      exact ⟨rfl, List.cons_ne_nil _ _⟩
    next => simp at henter
  have hliteral : ∀ word left v, (left ≠ [] ∧ ∀ c ∈ left, IsMark c) →
      Tidy { r with phase := .literal word left v } := fun _ _ _ hleft => hleft
  cases starts_of_startValue hr' with
  | object h =>
    obtain ⟨hphase, -⟩ := henter _ _ h
    rw [Tidy, hphase]
    trivial
  | array h =>
    obtain ⟨hphase, hframes⟩ := henter _ _ h
    rw [Tidy, hphase]
    exact fun _ => hframes
  | close => exact h.close
  | string | minus | zero | digit => exact trivial
  | truth | falsity | null => exact hliteral _ _ _ (by simp [IsMark])

theorem Tidy.goOn (h : r.Tidy) (hr' : r.goOn g = .ok r') : r'.Tidy := by
  unfold Reader.goOn at hr'
  split at hr'
  next =>
    split_ifs at hr' <;> obtain rfl := Except.ok.inj hr'
    · exact nofun
    · exact h.close
  next =>
    split_ifs at hr' <;> obtain rfl := Except.ok.inj hr'
    · exact trivial
    · exact h.close
  next => simp at hr'

theorem Tidy.takeString {isKey : Bool} {units : List StringUnit} (h : r.Tidy)
    (hr' : r.takeString isKey units g = .ok r') : r'.Tidy := by
  unfold Reader.takeString at hr'
  split_ifs at hr' <;> obtain rfl := Except.ok.inj hr'
  · unfold endString
    dsimp only
    split
    next =>
      split
      next => exact trivial
      next => exact h
    next => exact tidy_deliver _ _
  · exact trivial
  · exact trivial

theorem tidy_of_takeLiteral {word : String} {left : List Char} {v : Json}
    (hleft : ∀ c ∈ left, IsMark c) (hr' : r.takeLiteral word left v g = .ok r') : r'.Tidy := by
  unfold takeLiteral at hr'
  split at hr'
  next =>
    obtain rfl := Except.ok.inj hr'
    exact tidy_deliver _ _
  next c cs =>
    split_ifs at hr' with _ hcs <;> obtain rfl := Except.ok.inj hr'
    · exact tidy_deliver _ _
    · exact ⟨fun hnil => hcs (List.isEmpty_iff.2 hnil), (List.forall_mem_cons.1 hleft).2⟩

theorem Tidy.settle (h : r.Tidy) (g : Glyph) : (r.settle g).Tidy := by
  unfold Reader.settle
  split
  next =>
    split
    next => exact tidy_deliver _ _
    next => exact h
  next => exact h

theorem Tidy.step (h : r.Tidy) (hr' : r.step g = .ok r') : r'.Tidy := by
  unfold Reader.step at hr'
  split at hr'
  next =>
    split at hr'
    next =>
      split at hr'
      next =>
        obtain rfl := Except.ok.inj hr'
        exact h
      next => exact h.startValue hr'
    next => simp at hr'
  next =>
    split_ifs at hr' <;> obtain rfl := Except.ok.inj hr'
    · exact h
    · exact trivial
    · exact h.close
  next =>
    split_ifs at hr' <;> obtain rfl := Except.ok.inj hr'
    · exact h
    · exact nofun
  next =>
    split at hr'
    next =>
      obtain rfl := Except.ok.inj hr'
      exact h
    next => exact h.goOn hr'
  next hphase =>
    rw [Tidy, hphase] at h
    exact tidy_of_takeLiteral h.2 hr'
  next =>
    split at hr'
    next =>
      obtain rfl := Except.ok.inj hr'
      exact trivial
    next => simp at hr'
  next => exact h.takeString hr'
  next =>
    unfold takeEscape at hr'
    split at hr'
    next =>
      obtain rfl := Except.ok.inj hr'
      exact trivial
    next =>
      split at hr'
      next =>
        obtain rfl := Except.ok.inj hr'
        exact trivial
      next => simp at hr'
  next =>
    unfold takeCode at hr'
    split_ifs at hr' <;> obtain rfl := Except.ok.inj hr' <;> exact trivial

theorem Tidy.take (h : r.Tidy) (hr' : r.take g = .ok r') : r'.Tidy := (h.settle g).step hr'

theorem Tidy.takes (h : r.Tidy) (hgs : r.Takes gs r') : r'.Tidy := by
  induction hgs with
  | nil => exact h
  | cons htake _ ih => exact ih (h.take htake)

/-! ### White space -/

/-- Whether a unit is a character that may stand between the parts of a value. -/
def IsSpace (g : Glyph) : Prop := ∃ c : Char, g = .char c ∧ isSpace c = true

theorem isSpace_iff : isSpace c = true ↔ c = ' ' ∨ c = '\t' ∨ c = '\n' ∨ c = '\r' := by
  simp [isSpace, or_assoc]

theorem isSpace_of_toChar (h : isSpace g.toChar = true) : IsSpace g := by
  cases g with
  | char c => exact ⟨c, rfl, h⟩
  | stray b =>
    have hreplacement : isSpace Glyph.replacement = true := h
    exact absurd hreplacement (by decide)

theorem IsSpace.not_isMark (h : IsSpace g) : ¬ IsMark g.toChar := by
  obtain ⟨c, rfl, hc⟩ := h
  rcases isSpace_iff.1 hc with rfl | rfl | rfl | rfl <;> decide

theorem IsSpace.isBlank (h : IsSpace g) : Text.isBlank g.toChar = true := by
  obtain ⟨c, rfl, hc⟩ := h
  rcases isSpace_iff.1 hc with rfl | rfl | rfl | rfl <;> decide

theorem IsSpace.isAscii (h : IsSpace g) : g.IsAscii := by
  obtain ⟨c, rfl, hc⟩ := h
  refine ⟨c, rfl, ?_⟩
  rcases isSpace_iff.1 hc with rfl | rfl | rfl | rfl <;> decide

/-- Outside of strings, characters other than marks are taken only between the parts of a value,
where they change nothing.  Strings take them, and go on. -/
theorem step_of_not_isMark (h : r.Tidy) (hg : ¬ IsMark g.toChar) (hr' : r.step g = .ok r') :
    r' = r ∧ IsSpace g ∨
      (∃ isKey units, r.phase = .string isKey units) ∧
        ∃ isKey units, r'.phase = .string isKey units := by
  have hne : ∀ {d : Char}, IsMark d → g ≠ .char d := by
    rintro d hd rfl
    exact hg hd
  unfold step at hr'
  split at hr'
  next =>
    split at hr'
    next c =>
      split at hr'
      next hc => exact Or.inl ⟨(Except.ok.inj hr').symm, c, rfl, hc⟩
      next => exact absurd (isMark_of_startValue hr') hg
    next => exact nomatch hr'
  next mayClose _ =>
    split at hr'
    next hc => exact Or.inl ⟨(Except.ok.inj hr').symm, isSpace_of_toChar hc⟩
    next =>
      have hclose := hne (by decide : IsMark '\x7d')
      rw [if_neg (hne (by decide)), if_neg (by simp [hclose])] at hr'
      exact nomatch hr'
  next =>
    split at hr'
    next hc => exact Or.inl ⟨(Except.ok.inj hr').symm, isSpace_of_toChar hc⟩
    next =>
      rw [if_neg (hne (by decide))] at hr'
      exact nomatch hr'
  next =>
    split at hr'
    next hc => exact Or.inl ⟨(Except.ok.inj hr').symm, isSpace_of_toChar hc⟩
    next =>
      have hcomma := hne (by decide : IsMark ',')
      have harray := hne (by decide : IsMark ']')
      have hobject := hne (by decide : IsMark '\x7d')
      simp only [goOn, hcomma, harray, hobject, if_false] at hr'
      split at hr' <;> exact nomatch hr'
  next word left v hphase =>
    rw [Tidy, hphase] at h
    cases left with
    | nil => exact absurd rfl h.1
    | cons c cs =>
      have hc : g ≠ .char c := hne (h.2 c List.mem_cons_self)
      rw [takeLiteral, if_neg hc] at hr'
      exact nomatch hr'
  next =>
    rw [next_of_not_isMark hg] at hr'
    exact nomatch hr'
  next isKey units hphase =>
    rw [takeString, if_neg (hne (by decide)), if_neg (hne (by decide))] at hr'
    split at hr'
    next => exact nomatch hr'
    next =>
      obtain rfl := Except.ok.inj hr'
      exact Or.inr ⟨⟨isKey, units, hphase⟩, _, _, rfl⟩
  next =>
    rw [takeEscape, if_neg (hne (by decide)), escapeLetter_of_not_isMark hg] at hr'
    exact nomatch hr'
  next =>
    rw [takeCode, hexValue_of_not_isMark hg, Option.isNone_none, if_pos rfl] at hr'
    exact nomatch hr'

/-- A number ends at any character that is no mark. -/
theorem settle_of_not_isMark (hg : ¬ IsMark g.toChar) {part : NumberPart}
    (hpart : part.mayEnd = true) (text : List Char) (frames : List Frame) (done : List Json) :
    settle ⟨.number part text, frames, done⟩ g =
      deliver ⟨.number part text, frames, done⟩ (.number (String.ofList text.reverse)) := by
  simp [settle, next_of_not_isMark hg, hpart]

theorem Ends.of_settle (h : (r.settle g).Ends vs) (hg : ¬ IsMark g.toChar) : r.Ends vs := by
  obtain ⟨phase, frames, done⟩ := r
  cases phase with
  | number part text =>
    cases hpart : part.mayEnd with
    | true =>
      rw [settle_of_not_isMark hg hpart] at h
      cases frames with
      | nil =>
        cases h with
        | idle => exact .number hpart text done
      | cons f fs => cases f <;> exact nomatch h
    | false => simpa [settle, hpart] using h
  | _ => exact h

/-- White space at the end of a text does not matter. -/
theorem Ends.of_take (hr : r.Tidy) (hg : ¬ IsMark g.toChar) (htake : r.take g = .ok r')
    (h : r'.Ends vs) : IsSpace g ∧ r.Ends vs := by
  rcases step_of_not_isMark (hr.settle g) hg htake with ⟨rfl, hspace⟩ | ⟨-, isKey, units, hphase⟩
  · exact ⟨hspace, h.of_settle hg⟩
  · cases h with
    | idle => exact nomatch hphase
    | number => exact nomatch hphase

theorem Ends.of_takes (hr : r.Tidy) (hgs : ∀ g ∈ gs, ¬ IsMark g.toChar) (htakes : r.Takes gs r')
    (h : r'.Ends vs) : (∀ g ∈ gs, IsSpace g) ∧ r.Ends vs := by
  induction htakes with
  | nil => exact ⟨by simp, h⟩
  | cons htake _ ih =>
    rw [List.forall_mem_cons] at hgs
    obtain ⟨hspaces, hends⟩ := ih (hr.take htake) hgs.2 h
    obtain ⟨hspace, hends⟩ := hends.of_take hr hgs.1 htake
    exact ⟨List.forall_mem_cons.2 ⟨hspace, hspaces⟩, hends⟩

/-- White space at the beginning of a text does not matter. -/
theorem Takes.of_start (hgs : ∀ g ∈ gs, ¬ IsMark g.toChar) (h : start.Takes gs r) :
    (∀ g ∈ gs, IsSpace g) ∧ r = start := by
  induction gs with
  | nil =>
    cases h with
    | nil => exact ⟨by simp, rfl⟩
  | cons g gs ih =>
    rw [List.forall_mem_cons] at hgs
    cases h with
    | cons htake h =>
      rcases step_of_not_isMark tidy_start hgs.1 htake with
        ⟨rfl, hspace⟩ | ⟨⟨isKey, units, hphase⟩, -⟩
      · obtain ⟨hspaces, hr⟩ := ih hgs.2 h
        exact ⟨List.forall_mem_cons.2 ⟨hspace, hspaces⟩, hr⟩
      · exact nomatch hphase

/-- After white space, the reader is where it began, but for the values that are complete. -/
theorem Ends.take (h : r.Ends vs) (hr : r.Tidy) (hg : IsSpace g) :
    r.take g = .ok (start.after vs.reverse) := by
  have hmark := hg.not_isMark
  obtain ⟨c, rfl, hc⟩ := hg
  cases h with
  | idle mayClose done =>
    cases mayClose with
    | true => exact absurd rfl (hr rfl)
    | false =>
      rw [List.reverse_reverse]
      exact if_pos hc
  | @number part hpart text done =>
    rw [Reader.take, settle_of_not_isMark hmark hpart, List.reverse_reverse]
    exact if_pos hc

end Reader

/-! ### Whole inputs -/

/-- White space at the ends of an input that holds values and nothing else may be trimmed. -/
theorem readAll_trimmed {bytes : List UInt8} {vs : List Json}
    (h : readAll ⟨bytes, .eof⟩ = (vs, none)) :
    readAll ⟨Glyph.encode (Text.trimEnds (fun g => Text.isBlank g.toChar) (Glyph.decode bytes)),
      .eof⟩ = (vs, none) := by
  obtain ⟨us, ws, hparts, hus, hws⟩ :=
    Text.exists_trimEnds (fun g => Text.isBlank g.toChar) (Glyph.decode bytes)
  generalize Text.trimEnds (fun g => Text.isBlank g.toChar) (Glyph.decode bytes) = ms at hparts
  obtain ⟨r, htakes, hends⟩ := readAll_eq_iff.1 h
  rw [hparts] at htakes
  obtain ⟨r₂, htakes, hback⟩ := Reader.takes_append_iff.1 htakes
  obtain ⟨r₁, hfront, hmiddle⟩ := Reader.takes_append_iff.1 htakes
  -- Only JSON white space can be left out, and with it the units in between stay the same.
  obtain ⟨hus, rfl⟩ := hfront.of_start fun g hg => Reader.not_isMark_of_isBlank (hus g hg)
  obtain ⟨hws, hends⟩ := hends.of_takes (Reader.tidy_start.takes hmiddle)
    (fun g hg => Reader.not_isMark_of_isBlank (hws g hg)) hback
  have hdecode : Glyph.decode (Glyph.encode ms) = ms :=
    Glyph.decode_encode_middle (fun g hg => (hus g hg).isAscii) (fun g hg => (hws g hg).isAscii)
      hparts
  exact readAll_eq_iff.2 ⟨r₂, hdecode.symm ▸ hmiddle, hends⟩

/-- Two inputs with a line break between them hold the values of the one, then those of the
other. -/
theorem readAll_append {as bs : List UInt8} {vs ws : List Json}
    (ha : readAll ⟨as, .eof⟩ = (vs, none)) (hb : readAll ⟨bs, .eof⟩ = (ws, none)) :
    readAll ⟨as ++ 10 :: bs, .eof⟩ = (vs ++ ws, none) := by
  obtain ⟨r, htakes, hends⟩ := readAll_eq_iff.1 ha
  obtain ⟨r', htakes', hends'⟩ := readAll_eq_iff.1 hb
  have hnewline := hends.take (Reader.tidy_start.takes htakes) (g := .char '\n') ⟨'\n', rfl, rfl⟩
  have hafter := hends'.after vs.reverse
  rw [List.reverse_reverse] at hafter
  refine readAll_eq_iff.2 ⟨r'.after vs.reverse, ?_, hafter⟩
  rw [Glyph.decode_append_cons (by decide)]
  exact Reader.takes_append_iff.2 ⟨r, htakes, .cons hnewline (htakes'.after _)⟩

/-- The bytes of JSON white space. -/
def spaceBytes : List UInt8 := [0x20, 0x09, 0x0A, 0x0D]

theorem isSpace_of_mem_decode {bytes : List UInt8} (h : ∀ b ∈ bytes, b ∈ spaceBytes) :
    ∀ g ∈ Glyph.decode bytes, Reader.IsSpace g := by
  have hbyte : ∀ b ∈ spaceBytes, b.toNat < 0x80 ∧ Reader.isSpace (Char.ofNat b.toNat) = true := by
    simp [spaceBytes, Reader.isSpace]
  induction bytes with
  | nil => simp [Glyph.decode, Glyph.decodeOnto]
  | cons b bs ih =>
    rw [List.forall_mem_cons] at h
    obtain ⟨hb, hspace⟩ := hbyte b h.1
    have hparts := Glyph.decode_append_cons hb [] bs
    rw [List.nil_append] at hparts
    rw [hparts]
    exact List.forall_mem_cons.2 ⟨⟨_, rfl, hspace⟩, ih h.2⟩

/-- White space alone holds no values. -/
theorem readAll_spaces {bytes : List UInt8} (h : ∀ b ∈ bytes, b ∈ spaceBytes) :
    readAll ⟨bytes, .eof⟩ = ([], none) := by
  have hspaces := isSpace_of_mem_decode h
  have htakes : ∀ gs : List Glyph, (∀ g ∈ gs, Reader.IsSpace g) → Reader.start.Takes gs .start := by
    intro gs hgs
    induction gs with
    | nil => exact .nil _
    | cons g gs ih =>
      rw [List.forall_mem_cons] at hgs
      exact .cons ((Reader.Ends.idle false []).take Reader.tidy_start hgs.1) (ih hgs.2)
  exact readAll_eq_iff.2 ⟨.start, htakes _ hspaces, .idle false []⟩

end Json

end ClauseCode
