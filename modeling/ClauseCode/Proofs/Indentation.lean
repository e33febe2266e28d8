import ClauseCode.Proofs.Glyphs
import ClauseCode.Proofs.Separators

/-!
# Blocks of indented lines

The common indentation of lines is the greatest number of spaces that each of them starts with,
lines without leading spaces apart (`le_commonIndent_iff`).  If one line of a block is flush with
its margin, the indentation of the block by `m` spaces has `m` as its common indentation, and the
lines come back with the indentation that they have among themselves.  A block that neither starts
nor ends with white space has such a line, its first one, so that it is what `Spacing.dedent` gives
for the indented block (`Spacing.dedent_block`).

This holds of texts of any kind of elements, and so of characters and of the units of a byte text.
Both kinds of texts are treated alike (`dedentBytes_textBytes`), and line breaks and spaces are
found in a byte text where their bytes are (`decode_joinPieces`, `decode_indent`).
-/

namespace ClauseCode.Text

namespace Spacing

variable {α : Type} {S : Spacing α} {m k bound : ℕ} {l : List α} {ls : List (List α)}

/-! ### Indentation -/

/-- A line with `m` spaces before it. -/
def indent (S : Spacing α) (m : ℕ) (l : List α) : List α := List.replicate m S.space ++ l

theorem newline_not_mem_indent (h : S.newline ∉ l) : S.newline ∉ S.indent m l := by
  intro hmem
  rcases List.mem_append.1 hmem with hspace | hl
  · exact S.newline_ne_space (List.eq_of_mem_replicate hspace)
  · exact h hl

/-- Lines that are indented by `m` spaces, where an empty line may also be left as it is. -/
inductive Indented (S : Spacing α) (m : ℕ) : List (List α) → List (List α) → Prop
  | nil : Indented S m [] []
  | line {ps qs : List (List α)} (l : List α) (h : Indented S m ps qs) :
      Indented S m (S.indent m l :: ps) (l :: qs)
  | empty {ps qs : List (List α)} (h : Indented S m ps qs) : Indented S m ([] :: ps) ([] :: qs)

theorem Indented.newline_not_mem {ps qs : List (List α)} (h : Indented S m ps qs)
    (hqs : ∀ q ∈ qs, S.newline ∉ q) : ∀ p ∈ ps, S.newline ∉ p := by
  induction h with
  | nil => simp
  | line l _ ih =>
    rw [List.forall_mem_cons] at hqs ⊢
    exact ⟨newline_not_mem_indent hqs.1, ih hqs.2⟩
  | empty _ ih =>
    rw [List.forall_mem_cons] at hqs ⊢
    exact ⟨hqs.1, ih hqs.2⟩

/-- The lines of a block are indented in front of other lines. -/
theorem indented_append (m : ℕ) (ls : List (List α)) {ps qs : List (List α)}
    (h : Indented S m ps qs) : Indented S m (ls.map (S.indent m) ++ ps) (ls ++ qs) := by
  induction ls with
  | nil => exact h
  | cons l ls ih => exact .line l ih

theorem joinPieces_nil_cons {ps : List (List α)} (hps : ps ≠ []) :
    joinPieces S.newline ([] :: ps) = S.newline :: joinPieces S.newline ps :=
  joinPieces_append (List.cons_ne_nil [] []) hps

theorem joinPieces_concat_nil {ps : List (List α)} (hps : ps ≠ []) :
    joinPieces S.newline (ps ++ [[]]) = joinPieces S.newline ps ++ [S.newline] :=
  joinPieces_append hps (List.cons_ne_nil [] [])

variable [DecidableEq α]

/-! ### Leading spaces -/

theorem leadingSpaces_indent (S : Spacing α) (m : ℕ) (l : List α) :
    S.leadingSpaces (S.indent m l) = m + S.leadingSpaces l := by
  have hspaces : ∀ x ∈ List.replicate m S.space, decide (x = S.space) = true := by
    intro x hx
    rw [decide_eq_true_eq]
    exact List.eq_of_mem_replicate hx
  rw [leadingSpaces, indent, List.takeWhile_append_of_pos hspaces, List.length_append,
    List.length_replicate, leadingSpaces]

theorem leadingSpaces_le_length (S : Spacing α) (l : List α) : S.leadingSpaces l ≤ l.length :=
  (List.takeWhile_prefix _).length_le

theorem unindent_indent (S : Spacing α) (m : ℕ) (l : List α) : S.unindent m (S.indent m l) = l := by
  have hle : m ≤ S.leadingSpaces (S.indent m l) := by
    rw [leadingSpaces_indent]
    omega
  rw [unindent, if_pos hle, indent]
  exact List.drop_left' List.length_replicate

theorem unindent_nil (S : Spacing α) (m : ℕ) : S.unindent m [] = [] := by
  rw [unindent]
  split
  · exact List.drop_nil
  · rfl

/-! ### The common indentation -/

/-- The common indentation is a minimum. -/
theorem le_commonIndent_iff :
    k ≤ S.commonIndent bound ls ↔
      k ≤ bound ∧ ∀ l ∈ ls, S.leadingSpaces l ≠ 0 → k ≤ S.leadingSpaces l := by
  induction ls generalizing bound with
  | nil => simp [commonIndent]
  | cons l ls ih =>
    rw [commonIndent, List.foldl_cons, ← commonIndent, ih, List.forall_mem_cons]
    by_cases hl : S.leadingSpaces l = 0
    · simp [hl]
    · rw [if_neg hl, Nat.le_min, and_assoc]
      simp [hl]

/-- The common indentation of a block with a line that is flush with the margin. -/
theorem commonIndent_eq (hm : 1 ≤ m) (hbound : m ≤ bound)
    (hle : ∀ l ∈ ls, S.leadingSpaces l ≠ 0 → m ≤ S.leadingSpaces l)
    (hflush : ∃ l ∈ ls, S.leadingSpaces l = m) : S.commonIndent bound ls = m := by
  obtain ⟨l, hl, heq⟩ := hflush
  refine Nat.le_antisymm ?_ (le_commonIndent_iff.2 ⟨hbound, hle⟩)
  have hmin := (le_commonIndent_iff.1 (Nat.le_refl (S.commonIndent bound ls))).2 l hl
  rw [heq] at hmin
  exact hmin (by omega)

/-! ### Blocks -/

namespace Indented

variable {ps qs : List (List α)}

/-- Each line comes back with what it has beyond the indentation. -/
theorem map_unindent (h : Indented S m ps qs) : ps.map (S.unindent m) = qs := by
  induction h with
  | nil => rfl
  | line l _ ih => rw [List.map_cons, unindent_indent, ih]
  | empty _ ih => rw [List.map_cons, unindent_nil, ih]

theorem le_leadingSpaces (h : Indented S m ps qs) :
    ∀ p ∈ ps, S.leadingSpaces p ≠ 0 → m ≤ S.leadingSpaces p := by
  induction h with
  | nil => simp
  | line l _ ih =>
    refine List.forall_mem_cons.2 ⟨fun _ => ?_, ih⟩
    rw [leadingSpaces_indent]
    omega
  | empty _ ih => exact List.forall_mem_cons.2 ⟨fun hne => absurd rfl hne, ih⟩

theorem exists_flush {q : List α} (h : Indented S m ps qs) (hq : q ∈ qs) (hne : q ≠ [])
    (hflush : S.leadingSpaces q = 0) : ∃ p ∈ ps, S.leadingSpaces p = m := by
  induction h with
  | nil => simp at hq
  | line l _ ih =>
    rcases List.mem_cons.1 hq with rfl | hq
    · refine ⟨S.indent m q, List.mem_cons_self, ?_⟩
      rw [leadingSpaces_indent, hflush, Nat.add_zero]
    · obtain ⟨p, hp, hspaces⟩ := ih hq
      exact ⟨p, List.mem_cons_of_mem _ hp, hspaces⟩
  | empty _ ih =>
    rcases List.mem_cons.1 hq with rfl | hq
    · exact absurd rfl hne
    · obtain ⟨p, hp, hspaces⟩ := ih hq
      exact ⟨p, List.mem_cons_of_mem _ hp, hspaces⟩

/-- Indented lines lose the indentation, if one of them shows it, and keep all else. -/
theorem dedent_joinPieces (h : Indented S m ps qs) (hm : 1 ≤ m) (hqs : ∀ q ∈ qs, S.newline ∉ q)
    (hflush : ∃ q ∈ qs, q ≠ [] ∧ S.leadingSpaces q = 0) :
    S.dedent (joinPieces S.newline ps) = trimEnds S.isBlank (joinPieces S.newline qs) := by
  obtain ⟨q, hq, hne, hzero⟩ := hflush
  obtain ⟨p, hp, hspaces⟩ := h.exists_flush hq hne hzero
  have hbound : m ≤ (joinPieces S.newline ps).length :=
    calc
      m = S.leadingSpaces p := hspaces.symm
      _ ≤ p.length := leadingSpaces_le_length S p
      _ ≤ (joinPieces S.newline ps).length := length_le_joinPieces hp
  have hcommon : S.commonIndent (joinPieces S.newline ps).length ps = m :=
    commonIndent_eq hm hbound h.le_leadingSpaces ⟨p, hp, hspaces⟩
  unfold dedent
  dsimp only
  rw [pieces_joinPieces (List.ne_nil_of_mem hp) (h.newline_not_mem hqs), hcommon, h.map_unindent]

end Indented

/-- The first line of a block that does not start with white space is flush with the margin. -/
theorem exists_flush_of_start (hne : joinPieces S.newline ls ≠ [])
    (hstart : ∀ x ∈ (joinPieces S.newline ls).head?, S.isBlank x = false) :
    ∃ l ∈ ls, l ≠ [] ∧ S.leadingSpaces l = 0 := by
  cases ls with
  | nil => exact absurd rfl hne
  | cons l ls =>
    refine ⟨l, List.mem_cons_self, ?_⟩
    cases l with
    | nil =>
      cases ls with
      | nil => exact absurd rfl hne
      | cons l' ls =>
        have hblank := hstart S.newline rfl
        rw [S.isBlank_newline] at hblank
        simp at hblank
    | cons x xs =>
      have hx : S.isBlank x = false := by
        refine hstart x ?_
        cases ls <;> rfl
      refine ⟨List.cons_ne_nil x xs, ?_⟩
      have hne' : x ≠ S.space := by
        rintro rfl
        rw [S.isBlank_space] at hx
        simp at hx
      simp [leadingSpaces, hne']

/-- An indented block after a line break, with further lines behind it. -/
theorem dedent_append {ps qs : List (List α)} (h : Indented S m ps qs)
    (hqs : ∀ q ∈ qs, S.newline ∉ q) (hm : 1 ≤ m) (hls : ∀ l ∈ ls, S.newline ∉ l)
    (hflush : ∃ l ∈ ls, l ≠ [] ∧ S.leadingSpaces l = 0) :
    S.dedent (S.newline :: joinPieces S.newline (ls.map (S.indent m) ++ ps)) =
      trimEnds S.isBlank (joinPieces S.newline (ls ++ qs)) := by
  obtain ⟨l, hl, hmargin⟩ := hflush
  have hmap : ls.map (S.indent m) ++ ps ≠ [] :=
    List.append_ne_nil_of_left_ne_nil (List.ne_nil_of_mem (List.mem_map_of_mem hl)) ps
  have hlines : ls ++ qs ≠ [] := List.append_ne_nil_of_left_ne_nil (List.ne_nil_of_mem hl) qs
  have hblock : Indented S m ([] :: (ls.map (S.indent m) ++ ps)) ([] :: (ls ++ qs)) :=
    .empty (indented_append m ls h)
  have hfree : ∀ q ∈ [] :: (ls ++ qs), S.newline ∉ q :=
    List.forall_mem_cons.2 ⟨List.not_mem_nil, List.forall_mem_append.2 ⟨hls, hqs⟩⟩
  have hdedent := hblock.dedent_joinPieces hm hfree
    ⟨l, List.mem_cons_of_mem _ (List.mem_append_left _ hl), hmargin⟩
  rw [joinPieces_nil_cons hmap, joinPieces_nil_cons hlines,
    trimEnds_cons S.isBlank_newline] at hdedent
  exact hdedent

/-- An indented block gives the block back, whether or not a line break ends it. -/
theorem dedent_block (hm : 1 ≤ m) (hls : ∀ l ∈ ls, S.newline ∉ l)
    (hne : joinPieces S.newline ls ≠ [])
    (hstart : ∀ x ∈ (joinPieces S.newline ls).head?, S.isBlank x = false)
    (hend : ∀ x ∈ (joinPieces S.newline ls).getLast?, S.isBlank x = false) :
    S.dedent (S.newline :: joinPieces S.newline (ls.map (S.indent m))) =
        joinPieces S.newline ls ∧
      S.dedent (S.newline :: (joinPieces S.newline (ls.map (S.indent m)) ++ [S.newline])) =
        joinPieces S.newline ls := by
  have hflush := exists_flush_of_start hne hstart
  have htrim : trimEnds S.isBlank (joinPieces S.newline ls) = joinPieces S.newline ls :=
    trimEnds_eq_self hstart hend
  have hlines : ls ≠ [] := by
    rintro rfl
    exact hne rfl
  have hmap : ls.map (S.indent m) ≠ [] := fun hnil => hlines (List.map_eq_nil_iff.1 hnil)
  constructor
  · have hplain := dedent_append (m := m) (.nil (S := S)) (by simp) hm hls hflush
    rw [List.append_nil, List.append_nil, htrim] at hplain
    exact hplain
  · have hended := dedent_append (m := m) (.empty (.nil (S := S))) (by simp) hm hls hflush
    rw [joinPieces_concat_nil hmap, joinPieces_concat_nil hlines,
      trimEnds_concat S.isBlank_newline] at hended
    exact hended.trans htrim

end Spacing

/-! ### Texts of characters -/

theorem toList_intercalate_indent (m : ℕ) (lines : List String) :
    ("\n".intercalate (lines.map (String.ofList (List.replicate m ' ') ++ ·))).toList =
      joinPieces '\n' ((lines.map String.toList).map (Spacing.chars.indent m)) := by
  rw [String.toList_intercalate, joinPieces_eq_intercalate, List.map_map, List.map_map]
  congr 2
  funext l
  simp [Spacing.indent, Spacing.chars]

/-- An indented block of text gives the block back, whether or not a line break ends it. -/
theorem dedent_intercalate {m : ℕ} (hm : 1 ≤ m) {lines : List String}
    (hlines : ∀ l ∈ lines, '\n' ∉ l.toList) (hne : "\n".intercalate lines ≠ "")
    (hstart : ∀ c ∈ ("\n".intercalate lines).toList.head?, isBlank c = false)
    (hend : ∀ c ∈ ("\n".intercalate lines).toList.getLast?, isBlank c = false) :
    dedent ("\n" ++ "\n".intercalate (lines.map (String.ofList (List.replicate m ' ') ++ ·))) =
        "\n".intercalate lines ∧
      dedent ("\n" ++ "\n".intercalate (lines.map (String.ofList (List.replicate m ' ') ++ ·)) ++
        "\n") = "\n".intercalate lines := by
  have hjoin : ("\n".intercalate lines).toList = joinPieces '\n' (lines.map String.toList) := by
    rw [String.toList_intercalate, joinPieces_eq_intercalate]
    rfl
  have hnonempty : joinPieces '\n' (lines.map String.toList) ≠ [] := by
    rw [← hjoin]
    intro hnil
    exact hne (String.toList_eq_nil_iff.1 hnil)
  rw [hjoin] at hstart hend
  have hfree : ∀ l ∈ lines.map String.toList, '\n' ∉ l := by simpa using hlines
  obtain ⟨hplain, hended⟩ := Spacing.dedent_block (S := .chars) hm hfree hnonempty hstart hend
  constructor
  · rw [dedent, String.toList_append, toList_intercalate_indent]
    refine (congrArg String.ofList hplain).trans ?_
    rw [← String.ofList_toList (s := "\n".intercalate lines), hjoin]
    rfl
  · rw [dedent, String.toList_append, String.toList_append, toList_intercalate_indent]
    refine (congrArg String.ofList hended).trans ?_
    rw [← String.ofList_toList (s := "\n".intercalate lines), hjoin]
    rfl

/-! ### Byte texts -/

section Bytes

open Glyph

/-- Line breaks are found in a byte text where their bytes are. -/
theorem decode_joinPieces (ls : List (List UInt8)) :
    decode (joinPieces 10 ls) = joinPieces (.char '\n') (ls.map decode) := by
  induction ls with
  | nil => rfl
  | cons l ls ih =>
    cases ls with
    | nil => rfl
    | cons l' ls =>
      rw [joinPieces, decode_append_cons (by decide), ih]
      rfl

/-- So are the spaces before a line. -/
theorem decode_indent (m : ℕ) (l : List UInt8) :
    decode (List.replicate m 32 ++ l) = Spacing.glyphs.indent m (decode l) := by
  induction m with
  | zero => rfl
  | succ m ih =>
    have hspace := decode_append_cons (a := 32) (by decide) [] (List.replicate m 32 ++ l)
    rw [ih] at hspace
    exact hspace

theorem newline_not_mem_decode {l : List UInt8} (h : 10 ∉ l) : .char '\n' ∉ decode l := by
  intro hmem
  refine h ?_
  rw [← encode_decode l, encode]
  exact List.mem_flatMap.2 ⟨.char '\n', hmem, by decide⟩

/-- An indented block of bytes gives the block back, whether or not a line break ends it. -/
theorem dedentBytes_joinPieces {m : ℕ} (hm : 1 ≤ m) {lines : List (List UInt8)}
    (hlines : ∀ l ∈ lines, 10 ∉ l) (hne : joinPieces 10 lines ≠ [])
    (hstart : ∀ g ∈ (decode (joinPieces 10 lines)).head?, isBlank g.toChar = false)
    (hend : ∀ g ∈ (decode (joinPieces 10 lines)).getLast?, isBlank g.toChar = false) :
    dedentBytes (10 :: joinPieces 10 (lines.map (List.replicate m 32 ++ ·))) =
        joinPieces 10 lines ∧
      dedentBytes (10 :: (joinPieces 10 (lines.map (List.replicate m 32 ++ ·)) ++ [10])) =
        joinPieces 10 lines := by
  have hindent : decode (joinPieces 10 (lines.map (List.replicate m 32 ++ ·))) =
      joinPieces (.char '\n') ((lines.map decode).map (Spacing.glyphs.indent m)) := by
    rw [decode_joinPieces, List.map_map, List.map_map]
    congr 2
    funext l
    exact decode_indent m l
  have hfirst : ∀ bs, decode (10 :: bs) = .char '\n' :: decode bs := fun bs =>
    decode_append_cons (a := 10) (by decide) [] bs
  have hnonempty : joinPieces (.char '\n') (lines.map decode) ≠ [] := by
    rw [← decode_joinPieces]
    intro hnil
    have hbytes := encode_decode (joinPieces 10 lines)
    rw [hnil] at hbytes
    exact hne hbytes.symm
  rw [decode_joinPieces] at hstart hend
  have hfree : ∀ l ∈ lines.map decode, .char '\n' ∉ l := by
    intro l hl
    obtain ⟨l', hl', rfl⟩ := List.mem_map.1 hl
    exact newline_not_mem_decode (hlines l' hl')
  obtain ⟨hplain, hended⟩ := Spacing.dedent_block (S := .glyphs) hm hfree hnonempty hstart hend
  have hback : encode (joinPieces (.char '\n') (lines.map decode)) = joinPieces 10 lines := by
    rw [← decode_joinPieces, encode_decode]
  constructor
  · rw [dedentBytes, hfirst, hindent]
    exact (congrArg encode hplain).trans hback
  · have hlast := decode_append_cons (a := 10) (by decide)
      (joinPieces 10 (lines.map (List.replicate m 32 ++ ·))) []
    rw [dedentBytes, hfirst, hlast, hindent]
    exact (congrArg encode hended).trans hback

theorem leadingSpaces_map_char (l : List Char) :
    Spacing.glyphs.leadingSpaces (l.map char) = Spacing.chars.leadingSpaces l := by
  unfold Spacing.leadingSpaces
  rw [List.takeWhile_map, List.length_map]
  congr 2
  funext c
  exact decide_eq_decide.2 char_injective.eq_iff

theorem commonIndent_map_char (bound : ℕ) (ls : List (List Char)) :
    Spacing.glyphs.commonIndent bound (ls.map (List.map char)) =
      Spacing.chars.commonIndent bound ls := by
  unfold Spacing.commonIndent
  rw [List.foldl_map]
  simp only [leadingSpaces_map_char]

theorem unindent_map_char (n : ℕ) (l : List Char) :
    Spacing.glyphs.unindent n (l.map char) = (Spacing.chars.unindent n l).map char := by
  unfold Spacing.unindent
  rw [leadingSpaces_map_char]
  split
  · exact List.map_drop.symm
  · rfl

/-- The bytes of a text are dedented as its characters are. -/
theorem dedentBytes_textBytes (s : String) : dedentBytes (textBytes s) = textBytes (dedent s) := by
  have hglyphs : Spacing.glyphs.dedent (s.toList.map char) =
      (Spacing.chars.dedent s.toList).map char := by
    have hpieces : pieces Spacing.glyphs.newline (s.toList.map char) =
        (pieces Spacing.chars.newline s.toList).map (List.map char) :=
      pieces_map char_injective '\n' s.toList
    have hunindent : ∀ n, Spacing.glyphs.unindent n ∘ List.map char =
        List.map char ∘ Spacing.chars.unindent n := fun n => funext (unindent_map_char n)
    unfold Spacing.dedent
    dsimp only
    rw [hpieces, List.length_map, commonIndent_map_char, List.map_map, hunindent, ← List.map_map]
    exact (congrArg _ (joinPieces_map char '\n' _)).trans (trimEnds_map char _ _)
  rw [dedentBytes, textBytes, decode_flatMap_charBytes, hglyphs, encode_map_char, textBytes, dedent,
    String.toList_ofList]

end Bytes

/-! ### Undoing indentation -/

/-- Dedenting undoes indentation: a block that is not empty and neither starts nor ends with white
space is what is left of a line break and the lines of the block with `m` spaces before each, with
or without a line break after them.  The lines may be any byte texts, and the bytes of a text are
dedented as the text is. -/
theorem dedent_indented (m : ℕ) (hm : 1 ≤ m) :
    (∀ lines : List String, (∀ l ∈ lines, '\n' ∉ l.toList) → "\n".intercalate lines ≠ "" →
      (∀ c ∈ ("\n".intercalate lines).toList.head?, isBlank c = false) →
      (∀ c ∈ ("\n".intercalate lines).toList.getLast?, isBlank c = false) →
      dedent ("\n" ++ "\n".intercalate (lines.map (String.ofList (List.replicate m ' ') ++ ·))) =
          "\n".intercalate lines ∧
        dedent ("\n" ++ "\n".intercalate (lines.map (String.ofList (List.replicate m ' ') ++ ·)) ++
          "\n") = "\n".intercalate lines) ∧
    (∀ lines : List (List UInt8), (∀ l ∈ lines, 10 ∉ l) → joinPieces 10 lines ≠ [] →
      (∀ g ∈ (Glyph.decode (joinPieces 10 lines)).head?, isBlank g.toChar = false) →
      (∀ g ∈ (Glyph.decode (joinPieces 10 lines)).getLast?, isBlank g.toChar = false) →
      dedentBytes (10 :: joinPieces 10 (lines.map (List.replicate m 32 ++ ·))) =
          joinPieces 10 lines ∧
        dedentBytes (10 :: (joinPieces 10 (lines.map (List.replicate m 32 ++ ·)) ++ [10])) =
          joinPieces 10 lines) ∧
    ∀ s : String, dedentBytes (textBytes s) = textBytes (dedent s) :=
  ⟨fun _ hlines hne hstart hend => dedent_intercalate hm hlines hne hstart hend,
    fun _ hlines hne hstart hend => dedentBytes_joinPieces hm hlines hne hstart hend,
    dedentBytes_textBytes⟩

/-- A listing with an empty line and a deeper one, each indented by four spaces, and a block of two
stray bytes on lines of their own. -/
theorem dedent_listing :
    (dedent "\n    % p/1\n      get_list A0\n    \n      proceed" =
        "% p/1\n  get_list A0\n\n  proceed" ∧
      dedent "\n    % p/1\n      get_list A0\n    \n      proceed\n" =
        "% p/1\n  get_list A0\n\n  proceed") ∧
    dedentBytes [10, 32, 32, 32, 32, 255, 10, 32, 32, 32, 32, 32, 254] = [255, 10, 32, 254] ∧
    dedentBytes [10, 32, 32, 32, 32, 255, 10, 32, 32, 32, 32, 32, 254, 10] =
      [255, 10, 32, 254] := by
  constructor
  · refine (dedent_indented 4 (by decide)).1 ["% p/1", "  get_list A0", "", "  proceed"] ?_
      (by decide) ?_ ?_
    · decide
    · intro c hc
      obtain rfl : '%' = c := Option.some.inj hc
      decide
    · intro c hc
      obtain rfl : 'd' = c := Option.some.inj hc
      decide
  · refine (dedent_indented 4 (by decide)).2.1 [[255], [32, 254]] (by simp) (by decide) ?_ ?_
    · intro g hg
      obtain rfl : .stray 255 = g := Option.some.inj hg
      decide
    · intro g hg
      obtain rfl : .stray 254 = g := Option.some.inj hg
      decide

end ClauseCode.Text
