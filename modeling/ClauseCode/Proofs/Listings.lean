import ClauseCode.Proofs.Compilation
import ClauseCode.Proofs.Wording

/-!
# Lines of a listing

A listing shows one instruction on each line.  No spelling of an atom has a line break, since a
break in a name is written as a mark after a backslash, and so no text of an instruction or a call
has one (`Instruction.oneLine_text`).

The header is the exception: it shows the functor of the clause as it is, and has one line more for
each break in its name (`Clause.listing_lines`), and what follows the break can look like code.
-/

namespace ClauseCode

/-! ### Texts without a line break -/

namespace Text

variable {s t : String} {lines lines' : List String}

/-- Whether a text has no line break. -/
def OneLine (s : String) : Prop := '\n' ∉ s.toList

instance (s : String) : Decidable (OneLine s) := inferInstanceAs (Decidable (_ ∉ _))

@[simp] theorem oneLine_append : OneLine (s ++ t) ↔ OneLine s ∧ OneLine t := by
  rw [OneLine, String.toList_append, List.mem_append, not_or]
  rfl

@[simp] theorem oneLine_slash : OneLine "/" := by decide

@[simp] theorem oneLine_comma : OneLine ", " := by decide

/-- Whether a text is made of the given lines, each ended by the only line break in it. -/
structure InLines (lines : List String) (s : String) : Prop where
  oneLine : ∀ l ∈ lines, OneLine l
  join : s = String.join (lines.map (· ++ "\n"))

theorem InLines.append (h : InLines lines s) (h' : InLines lines' t) :
    InLines (lines ++ lines') (s ++ t) := by
  refine ⟨fun l hl => ?_, ?_⟩
  · rcases List.mem_append.1 hl with hl | hl
    · exact h.oneLine l hl
    · exact h'.oneLine l hl
  · rw [h.join, h'.join, List.map_append, String.join_append]

/-- A text has as many lines as line breaks. -/
theorem InLines.count_eq (h : InLines lines s) : s.toList.count '\n' = lines.length := by
  have hone : ∀ l ∈ lines, (l ++ "\n").toList.count '\n' = 1 := by
    intro l hl
    rw [String.toList_append, List.count_append, List.count_eq_zero.2 (h.oneLine l hl)]
    rfl
  rw [h.join, String.toList_join, List.flatMap_map, List.count_flatMap,
    List.map_congr_left (f := List.count '\n' ∘ _) (g := fun _ => 1) hone, List.map_const',
    List.sum_replicate_nat, Nat.mul_one]

/-- A text that is ended by a line break is made of lines. -/
theorem exists_inLines (s : String) :
    ∃ lines, InLines lines (s ++ "\n") ∧ lines.length = s.toList.count '\n' + 1 := by
  induction hs : s.toList generalizing s with
  | nil =>
    obtain rfl : s = "" := String.toList_eq_nil_iff.1 hs
    exact ⟨[""], ⟨by simp [OneLine], rfl⟩, rfl⟩
  | cons c cs ih =>
    obtain ⟨lines, hlines, hlength⟩ := ih (String.ofList cs) String.toList_ofList
    obtain rfl : s = String.singleton c ++ String.ofList cs := by
      rw [← String.toList_inj, hs]
      simp
    rw [String.append_assoc]
    by_cases hc : c = '\n'
    · -- A break ends an empty line.
      subst hc
      have hempty : InLines [""] (String.singleton '\n') := ⟨by simp [OneLine], rfl⟩
      refine ⟨"" :: lines, hempty.append hlines, ?_⟩
      rw [List.length_cons, hlength, List.count_cons_self]
    · cases lines with
      | nil => simp at hlength
      | cons l lines =>
        refine ⟨(String.singleton c ++ l) :: lines, ⟨?_, ?_⟩, ?_⟩
        · intro l' hl'
          rcases List.mem_cons.1 hl' with rfl | hl'
          · refine oneLine_append.2 ⟨?_, hlines.oneLine l (by simp)⟩
            simpa [OneLine] using Ne.symm hc
          · exact hlines.oneLine l' (List.mem_cons_of_mem _ hl')
        · rw [hlines.join]
          simp only [List.map_cons, String.join_cons, String.append_assoc]
        · rw [List.count_cons_of_ne hc]
          exact hlength

end Text

open Text (OneLine InLines)

/-! ### Texts of operands -/

/-- Within quotes there is no line break. -/
theorem Spelling.newline_not_mem_escape (c : Char) : '\n' ∉ escape c := by
  by_cases hc : c = '\n'
  · rw [hc]
    decide
  · rcases escape_cases c with ⟨-, -, hescape⟩ | ⟨e, hescape, he⟩
    · rw [hescape, List.mem_singleton]
      exact Ne.symm hc
    · -- As a mark, a line break would stand for itself.
      rw [hescape]
      rintro (_ | ⟨_, _ | ⟨_, hnil⟩⟩)
      · exact hc he.symm
      · exact nomatch hnil

@[simp] theorem Spelling.oneLine_atom (name : String) : OneLine (atom name) := by
  rw [OneLine, atom, String.toList_ofList, atomChars]
  split
  next hbare =>
    intro hmem
    exact (isBare_iff.1 hbare).1 _ hmem (by decide)
  next =>
    rw [quoted, List.mem_cons, List.mem_append, List.mem_flatMap, List.mem_singleton]
    rintro (h | ⟨c, -, hc⟩ | h)
    · exact absurd h (by decide)
    · exact newline_not_mem_escape c hc
    · exact absurd h (by decide)

@[simp] theorem Decimal.oneLine_text (n : Int) : OneLine (text n) :=
  not_mem_text (by decide) (by decide)

@[simp] theorem Constant.oneLine_text (c : Constant) : OneLine c.text := by
  cases c with
  | atom name => exact Spelling.oneLine_atom name
  | int n => exact Decimal.oneLine_text n

@[simp] theorem Address.oneLine_textAt (l : Level) (a : Address) : OneLine (a.textAt l) := by
  rw [OneLine, toList_textAt, List.mem_cons, not_or]
  refine ⟨?_, Decimal.oneLine_text a.index⟩
  unfold letterAt
  split <;> decide

@[simp] theorem Address.oneLine_text (a : Address) : OneLine a.text := by
  rw [← textAt_deep]
  exact oneLine_textAt .deep a

@[simp] theorem Address.oneLine_argText (r : Int) : OneLine (argText r) :=
  oneLine_textAt .shallow (.reg r)

@[simp] theorem Symbol.oneLine_text (s : Symbol) : OneLine s.text := Spelling.oneLine_atom s.name

/-- The text of an instruction has no line break. -/
theorem Instruction.oneLine_text (i : Instruction) : OneLine i.text := by
  have hname : OneLine (i.mnemonic.name i.dir) := by
    cases i.dir <;> cases i.mnemonic <;> decide
  rw [text_eq, Text.oneLine_append, Text.oneLine_append]
  refine ⟨⟨hname, by decide⟩, ?_⟩
  cases i <;> simp [operandText]

theorem Functor.oneLine_text_iff (f : Functor) : OneLine f.text ↔ OneLine f.name := by
  simp [Functor.text]

/-! ### Listings -/

namespace CompiledClause

/-- The lines of a listing that show code, without their breaks. -/
def codeRows (is : List Instruction) : List String := is.map fun i => "  " ++ i.text

/-- The lines of a listing that show a goal, without their breaks. -/
def goalRows (g : CompiledGoal) : List String :=
  codeRows g.code ++ ["  call " ++ g.symbol.text ++ "/" ++ Decimal.text g.arity]

/-- The lines of a listing after its header, without their breaks. -/
def rows (k : CompiledClause) : List String :=
  codeRows k.head ++ if k.goals.isEmpty then ["  proceed"] else k.goals.flatMap goalRows

theorem oneLine_codeRows (is : List Instruction) : ∀ l ∈ codeRows is, OneLine l := by
  intro l hl
  obtain ⟨i, -, rfl⟩ := List.mem_map.1 hl
  exact Text.oneLine_append.2 ⟨by decide, i.oneLine_text⟩

theorem oneLine_goalRows (g : CompiledGoal) : ∀ l ∈ goalRows g, OneLine l := by
  intro l hl
  rcases List.mem_append.1 hl with hl | hl
  · exact oneLine_codeRows g.code l hl
  · have hcall : OneLine "  call " := by decide
    obtain rfl := List.mem_singleton.1 hl
    simp [hcall]

theorem oneLine_rows (k : CompiledClause) : ∀ l ∈ k.rows, OneLine l := by
  intro l hl
  rcases List.mem_append.1 hl with hl | hl
  · exact oneLine_codeRows k.head l hl
  · split at hl
    · obtain rfl := List.mem_singleton.1 hl
      decide
    · obtain ⟨g, -, hl⟩ := List.mem_flatMap.1 hl
      exact oneLine_goalRows g l hl

theorem codeLines_eq (is : List Instruction) : codeLines is = (codeRows is).map (· ++ "\n") := by
  rw [codeLines, codeRows, List.map_map]
  rfl

theorem goalLines_eq (g : CompiledGoal) : goalLines g = (goalRows g).map (· ++ "\n") := by
  rw [goalLines, goalRows, codeLines_eq, List.map_append]
  rfl

theorem listing_eq (k : CompiledClause) :
    k.listing = "% " ++ k.functor.text ++ "\n" ++ String.join (k.rows.map (· ++ "\n")) := by
  rw [listing, listingLines, List.cons_append, String.join_cons, rows, codeLines_eq,
    List.map_append]
  congr 3
  split
  · rfl
  · rw [List.map_flatMap]
    exact List.flatMap_congr fun g _ => goalLines_eq g

/-- The number of lines of a listing whose header takes one. -/
def lineCount (k : CompiledClause) : ℕ :=
  1 + k.head.length + (k.goals.map fun g => g.code.length + 1).sum +
    if k.goals.isEmpty then 1 else 0

theorem length_rows (k : CompiledClause) : 1 + k.rows.length = k.lineCount := by
  rw [rows, List.length_append, codeRows, List.length_map, lineCount, Nat.add_assoc (1 + _),
    ← Nat.add_assoc]
  congr 1
  split
  next h => simp [List.isEmpty_iff.1 h]
  next => simp [List.length_flatMap, goalRows, codeRows]

/-- The header of a listing takes one line, and one more for each line break in the name of the
functor. -/
theorem exists_header (k : CompiledClause) :
    ∃ header, InLines header ("% " ++ k.functor.text ++ "\n") ∧
      InLines (header ++ k.rows) k.listing ∧
      header.length = k.functor.name.toList.count '\n' + 1 := by
  obtain ⟨header, hheader, hlength⟩ := Text.exists_inLines ("% " ++ k.functor.text)
  refine ⟨header, hheader, ?_, ?_⟩
  · rw [listing_eq]
    exact hheader.append ⟨k.oneLine_rows, rfl⟩
  · have hmark : "% ".toList.count '\n' = 0 := by decide
    have hslash := List.count_eq_zero.2 Text.oneLine_slash
    have harity := List.count_eq_zero.2 (Decimal.oneLine_text k.functor.arity)
    rw [hlength, Functor.text]
    simp only [String.toList_append, List.count_append, hmark, hslash, harity, Nat.zero_add,
      Nat.add_zero]

end CompiledClause

/-- The listing of a clause has a line for each instruction and each call, and one that ends it if
there are no goals.  Its header has a line, and another for each line break in the name of the
clause's functor, which is the only text in a listing that can have one. -/
theorem Clause.listing_lines {c : Clause} {n : NormalClause} (hn : c.normalize = .ok n)
    (P : Policy) :
    (∃ k s header, c.compileWith P = .ok (k, s) ∧
      InLines header ("% " ++ k.functor.text ++ "\n") ∧ InLines (header ++ k.rows) k.listing ∧
      (header ++ k.rows).length = k.lineCount + n.head.functor.toList.count '\n' ∧
      (OneLine k.functor.text ↔ OneLine n.head.functor)) ∧
    (∀ x : Constant, OneLine x.text) ∧ (∀ l (a : Address), OneLine (a.textAt l)) ∧
      (∀ s : Symbol, OneLine s.text) ∧ ∀ i : Instruction, OneLine i.text := by
  refine ⟨?_, Constant.oneLine_text, Address.oneLine_textAt, Symbol.oneLine_text,
    Instruction.oneLine_text⟩
  obtain ⟨k, d, hcompile, -, hcodes⟩ := Clause.exists_compileWith hn P
  obtain ⟨header, hheader, hlisting, hlength⟩ := k.exists_header
  have hname : k.functor.name = n.head.functor := by
    rw [hcodes.functor]
    rfl
  refine ⟨k, d.pool, header, hcompile, hheader, hlisting, ?_, ?_⟩
  · rw [List.length_append, hlength, hname, ← k.length_rows]
    omega
  · rw [Functor.oneLine_text_iff, hname]

/-- The clause `p("a\nb", "f\n"(X)) :- "q\nr"(X)`, with line breaks in three of its four names. -/
def brokenNames : Clause where
  head := .apply "p" [.atom "a\nb", .apply "f\n" [.var "X"]]
  body := [.apply "q\nr" [.var "X"]]

/-- The listing of `p("a\nb", "f\n"(X)) :- "q\nr"(X)` has a line for its header, three for the code
of the head and two for the goal. -/
theorem listing_lines_brokenNames : (∃ n, brokenNames.normalize = .ok n) ∧
    ∃ k s lines, brokenNames.compileWith .standard = .ok (k, s) ∧ InLines lines k.listing ∧
      lines.length = 6 := by
  refine ⟨⟨_, rfl⟩, ?_⟩
  obtain ⟨⟨k, s, header, hcompile, -, hlisting, hlength, -⟩, -⟩ :=
    Clause.listing_lines (c := brokenNames) rfl .standard
  refine ⟨k, s, _, hcompile, hlisting, hlength.trans ?_⟩
  obtain rfl : _ = k := congrArg Prod.fst (Except.ok.inj hcompile)
  decide

/-- The listing of the atom `"p/0\n  call q"` has three lines, and not one for its header and one
that ends it. -/
theorem not_listing_one_header :
    ¬ ∀ (c : Clause) (n : NormalClause) (k : CompiledClause), c.normalize = .ok n →
      c.compile = .ok k → ∃ lines, InLines lines k.listing ∧ lines.length = k.lineCount := by
  intro h
  obtain ⟨lines, hlines, hlength⟩ := h ⟨.atom "p/0\n  call q", []⟩ _ _ rfl rfl
  have hcount := hlines.count_eq
  rw [hlength] at hcount
  exact absurd hcount (by decide)

-- The clause `"p/0\n  call q" :- r` is listed as `p :- q, r` is.
example : (Clause.compile ⟨.atom "p/0\n  call q", [.atom "r"]⟩).map CompiledClause.listing =
    (Clause.compile ⟨.atom "p", [.atom "q", .atom "r"]⟩).map CompiledClause.listing := by
  cbv

end ClauseCode
