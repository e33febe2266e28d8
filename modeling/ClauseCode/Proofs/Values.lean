import ClauseCode.Json.Scan
import Mathlib.Data.List.Basic

/-!
# Values that are read

The texts of numbers in JSON begin with a minus or a digit, never with a plus sign, and no key comes
twice in an object, since a later value takes the place of an earlier one.  The reader keeps this:
it holds of all values that are complete, of the arrays and objects at hand and of the number at
hand (`Json.Reader.Plain`), from one unit of the text to the next (`Json.Reader.Plain.step`).  So it
holds of all values in an input (`Json.proper_readAll`).
-/

namespace ClauseCode.Json

/-- The values in which no number has a plus sign first and no object has a key twice. -/
inductive Proper : Json → Prop
  | null : Proper .null
  | bool (b : Bool) : Proper (.bool b)
  | number {text : String} (h : ∀ cs, text.toList ≠ '+' :: cs) : Proper (.number text)
  | string (s : String) : Proper (.string s)
  | array {items : List Json} (h : ∀ v ∈ items, Proper v) : Proper (.array items)
  | object {members : List (String × Json)} (hkeys : (members.map Prod.fst).Nodup)
      (h : ∀ m ∈ members, Proper m.2) : Proper (.object members)

/-- Whether the values in an array or object at hand are proper, and no key comes twice. -/
def Frame.Proper : Frame → Prop
  | array items => ∀ v ∈ items, v.Proper
  | object members _ => (members.map Prod.fst).Nodup ∧ ∀ m ∈ members, m.2.Proper

/-- Whether a number at hand begins with another character than a plus sign. -/
def Phase.Proper : Phase → Prop
  | number _ text => ∃ cs c, text = cs ++ [c] ∧ c ≠ '+'
  | literal _ _ result => result.Proper
  | _ => True

theorem mem_setMember {key : String} {v : Json} {members : List (String × Json)}
    {m : String × Json} (h : m ∈ setMember key v members) : m = (key, v) ∨ m ∈ members := by
  unfold setMember at h
  split at h
  next =>
    obtain ⟨m', hm', heq⟩ := List.mem_map.1 h
    split at heq
    next => exact Or.inl heq.symm
    next => exact Or.inr (heq ▸ hm')
  next => exact List.mem_cons.1 h

/-- No key comes twice after a key is given a value. -/
theorem nodup_setMember {members : List (String × Json)} (h : (members.map Prod.fst).Nodup)
    (key : String) (v : Json) : ((setMember key v members).map Prod.fst).Nodup := by
  unfold setMember
  split
  next =>
    have hkeys : (members.map fun m => if m.1 = key then (key, v) else m).map Prod.fst =
        members.map Prod.fst := by
      rw [List.map_map]
      refine List.map_congr_left fun m _ => ?_
      by_cases hm : m.1 = key
      · simp [hm]
      · simp [hm]
    rwa [hkeys]
  next hnew =>
    refine List.nodup_cons.2 ⟨fun hmem => hnew ?_, h⟩
    obtain ⟨m, hm, hkey⟩ := List.mem_map.1 hmem
    exact List.any_eq_true.2 ⟨m, hm, by simpa using hkey⟩

namespace Reader

/-- How a value begins with a character: the states that `Reader.startValue` can lead to. -/
inductive Starts (r : Reader) : Bool → Char → Reader → Prop
  | object {mayClose : Bool} {r' : Reader} (h : r.enter (.object [] "") (.key true) = .ok r') :
      Starts r mayClose '\x7b' r'
  | array {mayClose : Bool} {r' : Reader} (h : r.enter (.array []) (.value true) = .ok r') :
      Starts r mayClose '[' r'
  | close : Starts r true ']' r.close
  | string {mayClose : Bool} : Starts r mayClose '"' { r with phase := .string false [] }
  | minus {mayClose : Bool} : Starts r mayClose '-' { r with phase := .number .minus ['-'] }
  | zero {mayClose : Bool} : Starts r mayClose '0' { r with phase := .number .zero ['0'] }
  | digit {mayClose : Bool} {c : Char} (hc : isDigit c = true) :
      Starts r mayClose c { r with phase := .number .whole [c] }
  | truth {mayClose : Bool} :
      Starts r mayClose 't' { r with phase := .literal "true" ['r', 'u', 'e'] (.bool true) }
  | falsity {mayClose : Bool} :
      Starts r mayClose 'f' { r with phase := .literal "false" ['a', 'l', 's', 'e'] (.bool false) }
  | null {mayClose : Bool} :
      Starts r mayClose 'n' { r with phase := .literal "null" ['u', 'l', 'l'] .null }

theorem starts_of_startValue {r r' : Reader} {mayClose : Bool} {c : Char}
    (h : r.startValue mayClose c = .ok r') : r.Starts mayClose c r' := by
  -- One alternative after another: splitting them all at once takes long.
  rcases ite_eq_iff.1 h with ⟨rfl, h⟩ | ⟨-, h⟩
  · exact .object h
  rcases ite_eq_iff.1 h with ⟨rfl, h⟩ | ⟨-, h⟩
  · exact .array h
  rcases ite_eq_iff.1 h with ⟨hc, h⟩ | ⟨-, h⟩
  · obtain ⟨rfl, rfl⟩ : c = ']' ∧ mayClose = true := by simpa using hc
    obtain rfl := Except.ok.inj h
    exact .close
  rcases ite_eq_iff.1 h with ⟨rfl, h⟩ | ⟨-, h⟩
  · obtain rfl := Except.ok.inj h
    exact .string
  rcases ite_eq_iff.1 h with ⟨rfl, h⟩ | ⟨-, h⟩
  · obtain rfl := Except.ok.inj h
    exact .minus
  rcases ite_eq_iff.1 h with ⟨rfl, h⟩ | ⟨-, h⟩
  · obtain rfl := Except.ok.inj h
    exact .zero
  rcases ite_eq_iff.1 h with ⟨hc, h⟩ | ⟨-, h⟩
  · obtain rfl := Except.ok.inj h
    exact .digit hc
  rcases ite_eq_iff.1 h with ⟨rfl, h⟩ | ⟨-, h⟩
  · obtain rfl := Except.ok.inj h
    exact .truth
  rcases ite_eq_iff.1 h with ⟨rfl, h⟩ | ⟨-, h⟩
  · obtain rfl := Except.ok.inj h
    exact .falsity
  rcases ite_eq_iff.1 h with ⟨rfl, h⟩ | ⟨-, h⟩
  · obtain rfl := Except.ok.inj h
    exact .null
  · exact nomatch h

/-- Whether all that the reader knows of is proper. -/
structure Plain (r : Reader) : Prop where
  phase : r.phase.Proper
  frames : ∀ f ∈ r.frames, f.Proper
  done : ∀ v ∈ r.done, v.Proper

variable {r r' : Reader} {p : Phase} {v : Json} {g : Glyph}

theorem plain_start : start.Plain := ⟨trivial, by simp [start], by simp [start]⟩

namespace Plain

theorem withPhase (h : r.Plain) (hp : p.Proper) : Plain { r with phase := p } :=
  ⟨hp, h.frames, h.done⟩

theorem deliver (h : r.Plain) (hv : v.Proper) : (r.deliver v).Plain := by
  have hframes := h.frames
  unfold Reader.deliver
  split
  next => exact ⟨trivial, by simp, List.forall_mem_cons.2 ⟨hv, h.done⟩⟩
  next items fs heq =>
    rw [heq, List.forall_mem_cons] at hframes
    have hitems : (Frame.array (v :: items)).Proper := List.forall_mem_cons.2 ⟨hv, hframes.1⟩
    exact ⟨trivial, List.forall_mem_cons.2 ⟨hitems, hframes.2⟩, h.done⟩
  next members key fs heq =>
    rw [heq, List.forall_mem_cons] at hframes
    have hmembers : (Frame.object (setMember key v members) key).Proper := by
      refine ⟨nodup_setMember hframes.1.1 key v, fun m hm => ?_⟩
      rcases mem_setMember hm with rfl | hm
      · exact hv
      · exact hframes.1.2 m hm
    exact ⟨trivial, List.forall_mem_cons.2 ⟨hmembers, hframes.2⟩, h.done⟩

theorem close (h : r.Plain) : r.close.Plain := by
  have hframes := h.frames
  unfold Reader.close
  split
  next => exact h
  next items fs heq =>
    rw [heq, List.forall_mem_cons] at hframes
    have hrest : Plain { r with frames := fs } := ⟨h.phase, hframes.2, h.done⟩
    exact hrest.deliver (.array fun v hv => hframes.1 v (List.mem_reverse.1 hv))
  next members key fs heq =>
    rw [heq, List.forall_mem_cons] at hframes
    have hrest : Plain { r with frames := fs } := ⟨h.phase, hframes.2, h.done⟩
    refine hrest.deliver (.object ?_ fun m hm => hframes.1.2 m (List.mem_reverse.1 hm))
    rw [List.map_reverse]
    exact (List.reverse_perm _).nodup_iff.2 hframes.1.1

theorem enter {f : Frame} (h : r.Plain) (hr' : r.enter f p = .ok r') (hf : f.Proper)
    (hp : p.Proper) : r'.Plain := by
  unfold Reader.enter at hr'
  split at hr'
  next =>
    obtain rfl := Except.ok.inj hr'
    exact ⟨hp, List.forall_mem_cons.2 ⟨hf, h.frames⟩, h.done⟩
  next => simp at hr'

theorem endString (h : r.Plain) (isKey : Bool) (units : List StringUnit) :
    (r.endString isKey units).Plain := by
  unfold Reader.endString
  dsimp only
  split
  next =>
    split
    next members key fs heq =>
      have hframes := h.frames
      rw [heq] at hframes
      rw [List.forall_mem_cons] at hframes
      exact ⟨trivial, List.forall_mem_cons.2 ⟨hframes.1, hframes.2⟩, h.done⟩
    next => exact h
  next => exact h.deliver (.string _)

/-- A number begins with a minus or a digit. -/
theorem startValue {mayClose : Bool} {c : Char} (h : r.Plain)
    (hr' : r.startValue mayClose c = .ok r') : r'.Plain := by
  have hnumber : ∀ part c, c ≠ '+' → Plain { r with phase := .number part [c] } := by
    intro part c hc
    exact h.withPhase ⟨[], c, rfl, hc⟩
  cases starts_of_startValue hr' with
  | object henter => exact h.enter henter (by simp [Frame.Proper]) trivial
  | array henter => exact h.enter henter (by simp [Frame.Proper]) trivial
  | close => exact h.close
  | string => exact h.withPhase trivial
  | minus => exact hnumber _ '-' (by decide)
  | zero => exact hnumber _ '0' (by decide)
  | digit hc =>
    refine hnumber _ c ?_
    rintro rfl
    exact absurd hc (by decide)
  | truth => exact h.withPhase (.bool true)
  | falsity => exact h.withPhase (.bool false)
  | null => exact h.withPhase .null

theorem goOn (h : r.Plain) (hr' : r.goOn g = .ok r') : r'.Plain := by
  unfold Reader.goOn at hr'
  split at hr'
  next =>
    split_ifs at hr' <;> obtain rfl := Except.ok.inj hr'
    · exact h.withPhase trivial
    · exact h.close
  next =>
    split_ifs at hr' <;> obtain rfl := Except.ok.inj hr'
    · exact h.withPhase trivial
    · exact h.close
  next => simp at hr'

theorem takeCode {isKey : Bool} {units : List StringUnit} {digits : List Char} (h : r.Plain)
    (hr' : r.takeCode isKey units digits g = .ok r') : r'.Plain := by
  unfold Reader.takeCode at hr'
  split_ifs at hr' <;> obtain rfl := Except.ok.inj hr' <;> exact h.withPhase trivial

theorem takeEscape {isKey : Bool} {units : List StringUnit} (h : r.Plain)
    (hr' : r.takeEscape isKey units g = .ok r') : r'.Plain := by
  unfold Reader.takeEscape at hr'
  split at hr'
  next =>
    obtain rfl := Except.ok.inj hr'
    exact h.withPhase trivial
  next =>
    split at hr'
    next =>
      obtain rfl := Except.ok.inj hr'
      exact h.withPhase trivial
    next => simp at hr'

theorem takeString {isKey : Bool} {units : List StringUnit} (h : r.Plain)
    (hr' : r.takeString isKey units g = .ok r') : r'.Plain := by
  unfold Reader.takeString at hr'
  split_ifs at hr' <;> obtain rfl := Except.ok.inj hr'
  · exact h.endString isKey units
  · exact h.withPhase trivial
  · exact h.withPhase trivial

theorem takeLiteral {word : String} {left : List Char} (h : r.Plain) (hv : v.Proper)
    (hr' : r.takeLiteral word left v g = .ok r') : r'.Plain := by
  unfold Reader.takeLiteral at hr'
  split at hr'
  next =>
    obtain rfl := Except.ok.inj hr'
    exact h.deliver hv
  next =>
    split_ifs at hr' <;> obtain rfl := Except.ok.inj hr'
    · exact h.deliver hv
    · exact h.withPhase hv

/-- A number that ends begins as it began. -/
theorem deliver_number {part : NumberPart} {text : List Char} (h : r.Plain)
    (hphase : r.phase = .number part text) :
    (r.deliver (.number (String.ofList text.reverse))).Plain := by
  have hp := h.phase
  rw [hphase] at hp
  obtain ⟨cs, c, rfl, hc⟩ := hp
  refine h.deliver (.number fun ds heq => ?_)
  rw [String.toList_ofList, List.reverse_append] at heq
  exact hc (List.cons.inj heq).1

theorem settle (h : r.Plain) (g : Glyph) : (r.settle g).Plain := by
  unfold Reader.settle
  split
  next part text hphase =>
    split
    next => exact h.deliver_number hphase
    next => exact h
  next => exact h

/-- What the reader keeps from one unit of the text to the next. -/
theorem step (h : r.Plain) (hr' : r.step g = .ok r') : r'.Plain := by
  have hp := h.phase
  unfold Reader.step at hr'
  split at hr'
  next mayClose _ =>
    split at hr'
    next c =>
      split at hr'
      next =>
        obtain rfl := Except.ok.inj hr'
        exact h
      next => exact h.startValue hr'
    next => simp at hr'
  next =>
    split_ifs at hr' <;> obtain rfl := Except.ok.inj hr'
    · exact h
    · exact h.withPhase trivial
    · exact h.close
  next =>
    split_ifs at hr' <;> obtain rfl := Except.ok.inj hr'
    · exact h
    · exact h.withPhase trivial
  next =>
    split at hr'
    next =>
      obtain rfl := Except.ok.inj hr'
      exact h
    next => exact h.goOn hr'
  next word left v hphase =>
    rw [hphase] at hp
    exact h.takeLiteral hp hr'
  next part text hphase =>
    rw [hphase] at hp
    obtain ⟨cs, c, rfl, hc⟩ := hp
    split at hr'
    next part' _ =>
      obtain rfl := Except.ok.inj hr'
      exact h.withPhase ⟨g.toChar :: cs, c, rfl, hc⟩
    next => simp at hr'
  next => exact h.takeString hr'
  next => exact h.takeEscape hr'
  next => exact h.takeCode hr'

theorem finish (h : r.Plain) (ending : Ending) : ∀ v ∈ (r.finish ending).1, v.Proper := by
  have hdone : ∀ v ∈ r.done.reverse, v.Proper := fun v hv => h.done v (List.mem_reverse.1 hv)
  unfold Reader.finish
  split
  next part text hphase =>
    split
    next =>
      intro v hv
      exact (h.deliver_number hphase).done v (List.mem_reverse.1 hv)
    next => exact hdone
  next => exact hdone
  next => exact hdone

end Plain

end Reader

theorem Scan.proper_run {s : Scan} (h : s.reader.Plain) (ending : Ending) (gs : List Glyph) :
    ∀ v ∈ (s.run ending gs).1, v.Proper := by
  induction gs generalizing s with
  | nil => exact h.finish ending
  | cons g gs ih =>
    have hsettle : (s.ask.settle g).reader.Plain := h.settle g
    rw [run]
    split
    next s' hs' =>
      refine ih ?_
      unfold Scan.step at hs'
      split at hs'
      next => simp at hs'
      next r hr =>
        obtain rfl := Except.ok.inj hs'
        exact hsettle.step hr
    next =>
      intro v hv
      exact hsettle.done v (List.mem_reverse.1 hv)

/-- The values that are read are proper. -/
theorem proper_readAll (input : Input) : ∀ v ∈ (readAll input).1, v.Proper :=
  Scan.proper_run Reader.plain_start input.ending _

end ClauseCode.Json
