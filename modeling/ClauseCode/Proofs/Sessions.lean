import ClauseCode.Command.Plan
import ClauseCode.Proofs.Grammar
import ClauseCode.Proofs.Separators
import ClauseCode.Proofs.Streams
import Mathlib.Data.List.ReduceOption

/-!
# Sessions

A session answers its input line by line.  The lines are read one after another, each with the
line break that ends it (`ReadLines`); since the break is trimmed, it makes no difference whether
the last line has one (`replLine_concat`).  So the answers to two inputs with a line break between
them are those to the one, then those to the other (`repl_append`).

Each line comes with a choice of its own, which matters if a line has several faults.  What a
session can write in answer to two inputs with a line break between them is whatever it can write in
answer to the one, then whatever it can write in answer to the other (`repl_lines_independent`).

If each line is blank or holds one clause that is compiled (`Holds`), then the lines may as well be
read as a single stream of values: compiling the whole input and answering it line by line write the
same (`compile_agrees_repl`).
-/

namespace ClauseCode

open Json (spaceBytes readAll_append readAll_trimmed readAll_spaces)

/-! ### Clauses of an input -/

namespace Source

variable {choice : Choice String} {as bs line : List UInt8} {cs ds : List Clause} {c : Clause}

theorem clauses_eq_ok_iff :
    clauses choice ⟨line, .eof⟩ = .ok cs ↔
      ∃ vs, Json.readAll ⟨line, .eof⟩ = (vs, none) ∧
        List.Forall₂ (fun v c => Clause.ofJson choice v = .ok c) vs cs := by
  rw [clauses, clausesFrom_eq_ok_iff]
  constructor
  · rintro ⟨hstop, hvs⟩
    exact ⟨_, Prod.ext rfl hstop, hvs⟩
  · rintro ⟨vs, hread, hvs⟩
    rw [hread]
    exact ⟨rfl, hvs⟩

/-- Whether a text is a program, and which one, is not a matter of choice. -/
theorem clauses_eq_ok_congr (choice choice' : Choice String) :
    clauses choice ⟨line, .eof⟩ = .ok cs ↔ clauses choice' ⟨line, .eof⟩ = .ok cs := by
  simp only [clauses_eq_ok_iff, Clause.ofJson_eq_ok_congr choice choice']

theorem clause_eq_ok_iff :
    clause choice line = .ok c ↔ clauses choice ⟨line, .eof⟩ = .ok [c] := by
  unfold clause
  split
  next e he => simp [he]
  next d hd => simp [hd]
  next ds hne hds =>
    rw [hds]
    constructor
    · exact nofun
    · intro h
      exact absurd (Except.ok.inj h) (hne c)

theorem clauses_append (ha : clauses choice ⟨as, .eof⟩ = .ok cs)
    (hb : clauses choice ⟨bs, .eof⟩ = .ok ds) :
    clauses choice ⟨as ++ 10 :: bs, .eof⟩ = .ok (cs ++ ds) := by
  obtain ⟨vs, hvs, hcs⟩ := clauses_eq_ok_iff.1 ha
  obtain ⟨ws, hws, hds⟩ := clauses_eq_ok_iff.1 hb
  exact clauses_eq_ok_iff.2 ⟨vs ++ ws, readAll_append hvs hws, List.rel_append hcs hds⟩

theorem clauses_spaces (h : ∀ b ∈ line, b ∈ spaceBytes) : clauses choice ⟨line, .eof⟩ = .ok [] :=
  clauses_eq_ok_iff.2 ⟨[], readAll_spaces h, .nil⟩

end Source

/-- Clauses that are all compiled are compiled one after another. -/
theorem compileFrom_eq {cs : List Clause} {ks : List CompiledClause}
    (h : List.Forall₂ (fun c k => c.compile = .ok k) cs ks) (n : ℕ) :
    compileFrom n cs = (.ok ks, ks.map (·.logEntry)) := by
  induction h generalizing n with
  | nil => rfl
  | cons hk _ ih => simp [compileFrom, hk, ih]

namespace Command

variable {choice : Choice String} {choices : ℕ → Choice String} {a b l line bytes : List UInt8}
  {ls : List (List UInt8)}

/-! ### Reading lines -/

/-- The lines of an input as they are read, each with the line break that ends it. -/
inductive ReadLines : List UInt8 → List (List UInt8) → Prop
  | nil : ReadLines [] []
  | line {l rest : List UInt8} {ls : List (List UInt8)} (hl : 10 ∉ l) (h : ReadLines rest ls) :
      ReadLines (l ++ 10 :: rest) ((l ++ [10]) :: ls)
  | last {l : List UInt8} (hl : 10 ∉ l) (hne : l ≠ []) : ReadLines l [l]

theorem exists_readLines (bytes : List UInt8) : ∃ ls, ReadLines bytes ls := by
  induction hn : bytes.length using Nat.strongRecOn generalizing bytes with
  | ind n ih =>
    by_cases hbreak : 10 ∈ bytes
    · obtain ⟨l, rest, rfl, hl⟩ := List.eq_append_cons_of_mem hbreak
      have hlt : rest.length < n := by
        rw [← hn, List.length_append, List.length_cons]
        omega
      obtain ⟨ls, hls⟩ := ih _ hlt rest rfl
      exact ⟨_, .line hl hls⟩
    · by_cases hnil : bytes = []
      · exact ⟨[], hnil ▸ .nil⟩
      · exact ⟨[bytes], .last hbreak hnil⟩

/-- The line break at the end of a line is trimmed. -/
theorem replLine_concat (choice : Choice String) (l : List UInt8) :
    replLine choice (l ++ [10]) = replLine choice l := by
  have hdecode : Glyph.decode (l ++ [10]) = Glyph.decode l ++ [.char '\n'] :=
    Glyph.decode_append_cons (by decide) l []
  unfold replLine
  rw [hdecode, Text.trimEnds_concat (by decide)]

/-- The answers to lines, where each line comes with its choice. -/
def answers (choices : ℕ → Choice String) (ls : List (List UInt8)) : Outcome :=
  let each := ls.mapIdx fun i l => replLine (choices i) l
  ⟨each.flatMap (·.1), each.flatMap (·.2), none, false⟩

theorem repl_eq_answers (choices : ℕ → Choice String) (bytes : List UInt8) :
    repl choices ⟨bytes, .eof⟩ = answers choices (Text.pieces 10 bytes) :=
  rfl

theorem answers_cons (choices : ℕ → Choice String) (l : List UInt8) (ls : List (List UInt8)) :
    answers choices (l :: ls) =
      ⟨(replLine (choices 0) l).1 ++ (answers (fun i => choices (i + 1)) ls).writes,
        (replLine (choices 0) l).2 ++ (answers (fun i => choices (i + 1)) ls).log, none,
        false⟩ := by
  simp [answers, List.mapIdx_cons]

/-- The answers to the lines after some others come with the choices that are left. -/
theorem answers_append (choices : ℕ → Choice String) (ls ms : List (List UInt8)) :
    answers choices (ls ++ ms) =
      ⟨(answers choices ls).writes ++ (answers (fun i => choices (i + ls.length)) ms).writes,
        (answers choices ls).log ++ (answers (fun i => choices (i + ls.length)) ms).log, none,
        false⟩ := by
  simp [answers, List.mapIdx_append]

/-- Only as many choices count as there are lines. -/
theorem answers_congr {choices' : ℕ → Choice String} (h : ∀ i < ls.length, choices i = choices' i) :
    answers choices ls = answers choices' ls := by
  have heach : ls.mapIdx (fun i l => replLine (choices i) l) =
      ls.mapIdx fun i l => replLine (choices' i) l := by
    refine List.mapIdx_eq_mapIdx_iff.2 fun i hi => ?_
    rw [h i hi]
  rw [answers, heach]
  rfl

/-- Each line that is read is answered on its own. -/
theorem ReadLines.repl_eq (h : ReadLines bytes ls) (choices : ℕ → Choice String) :
    repl choices ⟨bytes, .eof⟩ = answers choices ls := by
  rw [repl_eq_answers]
  induction h generalizing choices with
  | nil => rfl
  | line hl _ ih =>
    rw [Text.pieces_append_cons, Text.pieces_of_not_mem hl, List.singleton_append, answers_cons,
      answers_cons, replLine_concat, ih]
  | last hl => rw [Text.pieces_of_not_mem hl]

/-- A line break parts a session.  The lines after it come with the choices that are left. -/
theorem repl_append (choices : ℕ → Choice String) (a b : List UInt8) :
    repl choices ⟨a ++ 10 :: b, .eof⟩ =
      ⟨(repl choices ⟨a, .eof⟩).writes ++
          (repl (fun i => choices (i + (a.count 10 + 1))) ⟨b, .eof⟩).writes,
        (repl choices ⟨a, .eof⟩).log ++
          (repl (fun i => choices (i + (a.count 10 + 1))) ⟨b, .eof⟩).log, none, false⟩ := by
  rw [repl_eq_answers, Text.pieces_append_cons, answers_append, Text.length_pieces]
  rfl

/-- Any two sessions are the two parts of a session. -/
theorem exists_repl_append (choices₁ choices₂ : ℕ → Choice String) (a b : List UInt8) :
    ∃ choices, repl choices ⟨a, .eof⟩ = repl choices₁ ⟨a, .eof⟩ ∧
      repl (fun i => choices (i + (a.count 10 + 1))) ⟨b, .eof⟩ = repl choices₂ ⟨b, .eof⟩ := by
  refine ⟨fun i => if i < a.count 10 + 1 then choices₁ i else choices₂ (i - (a.count 10 + 1)),
    ?_, ?_⟩
  · rw [repl_eq_answers, repl_eq_answers]
    refine answers_congr fun i hi => ?_
    rw [Text.length_pieces] at hi
    exact if_pos hi
  · rw [repl_eq_answers, repl_eq_answers]
    refine answers_congr fun i _ => ?_
    dsimp only
    rw [if_neg (by omega), Nat.add_sub_cancel]

/-- The lines of a session are independent: what it can write in answer to two inputs with a line
break between them is what it can write in answer to the one, followed by what it can write in
answer to the other.  No line makes the session fail.  Whatever is chosen, each line that is read is
answered on its own with its choice, and a break after the last one changes nothing. -/
theorem repl_lines_independent (verbose : Bool) (a b : List UInt8) :
    let session := fun (choices : ℕ → Choice String) (bytes : List UInt8) =>
      (Plan.repl verbose).run choices [] ⟨bytes, .eof⟩
    let CanWrite := fun (bytes : List UInt8) (text : String) =>
      ∃ choices, (session choices bytes).output = text
    (∀ text, CanWrite (a ++ 10 :: b) text ↔
      ∃ text₁ text₂, CanWrite a text₁ ∧ CanWrite b text₂ ∧ text = text₁ ++ text₂) ∧
    ∀ choices,
      let later := fun i => choices (i + (a.count 10 + 1))
      (session choices (a ++ 10 :: b)).output =
        (session choices a).output ++ (session later b).output ∧
      (session choices (a ++ 10 :: b)).log = (session choices a).log ++ (session later b).log ∧
      (session choices (a ++ 10 :: b)).error = none ∧
      (∃ ls, ReadLines a ls ∧ (session choices a).writes =
        (ls.mapIdx fun i l => replLine (choices i) l).flatMap (·.1)) ∧
      session choices (a ++ [10]) = session choices a := by
  intro session CanWrite
  have happend : ∀ choices, session choices (a ++ 10 :: b) =
      ⟨(session choices a).writes ++ (session (fun i => choices (i + (a.count 10 + 1))) b).writes,
        (session choices a).log ++ (session (fun i => choices (i + (a.count 10 + 1))) b).log, none,
        false⟩ := fun choices => repl_append choices a b
  have houtput : ∀ choices, (session choices (a ++ 10 :: b)).output =
      (session choices a).output ++
        (session (fun i => choices (i + (a.count 10 + 1))) b).output := by
    intro choices
    rw [happend]
    exact String.join_append
  refine ⟨fun text => ⟨?_, ?_⟩, fun choices => ⟨houtput choices, ?_, ?_, ?_, ?_⟩⟩
  · rintro ⟨choices, rfl⟩
    exact ⟨_, _, ⟨choices, rfl⟩, ⟨_, rfl⟩, houtput choices⟩
  · rintro ⟨_, _, ⟨choices₁, rfl⟩, ⟨choices₂, rfl⟩, rfl⟩
    obtain ⟨choices, h₁, h₂⟩ := exists_repl_append choices₁ choices₂ a b
    refine ⟨choices, (houtput choices).trans ?_⟩
    exact congrArg₂ (· ++ ·) (congrArg Outcome.output h₁) (congrArg Outcome.output h₂)
  · rw [happend]
  · rw [happend]
  · obtain ⟨ls, hls⟩ := exists_readLines a
    exact ⟨ls, hls, congrArg Outcome.writes (hls.repl_eq choices)⟩
  · have hbreak : session choices (a ++ [10]) =
        ⟨(session choices a).writes ++ [], (session choices a).log ++ [], none, false⟩ :=
      repl_append choices a []
    rw [hbreak, List.append_nil, List.append_nil]
    rfl

/-! ### Lines that hold clauses -/

/-- What a line of a program holds: white space alone, or a clause that is compiled. -/
inductive Holds : List UInt8 → Option CompiledClause → Prop
  | blank {line : List UInt8} (h : ∀ b ∈ line, b ∈ spaceBytes) : Holds line none
  | clause {line : List UInt8} {c : Clause} {k : CompiledClause} (choice : Choice String)
      (hc : Source.clause choice line = .ok c) (hk : c.compile = .ok k) : Holds line (some k)

variable {r : Option CompiledClause} {rs : List (Option CompiledClause)}
  {lines : List (List UInt8)}

theorem Holds.exists_clauses (h : Holds line r) (choice : Choice String) :
    ∃ cs, Source.clauses choice ⟨line, .eof⟩ = .ok cs ∧
      List.Forall₂ (fun c k => c.compile = .ok k) cs r.toList := by
  cases h with
  | blank hspace => exact ⟨[], Source.clauses_spaces hspace, .nil⟩
  | @clause c k choice' hc hk =>
    have hone := (Source.clauses_eq_ok_congr choice' choice).1 (Source.clause_eq_ok_iff.1 hc)
    exact ⟨[c], hone, .cons hk .nil⟩

theorem reduceOption_cons_eq (r : Option CompiledClause) (rs : List (Option CompiledClause)) :
    (r :: rs).reduceOption = r.toList ++ rs.reduceOption := by
  cases r <;> rfl

/-- Lines that hold clauses make up a program of these clauses. -/
theorem exists_clauses_joinPieces (h : List.Forall₂ Holds lines rs) (choice : Choice String) :
    ∃ cs, Source.clauses choice ⟨Text.joinPieces 10 lines, .eof⟩ = .ok cs ∧
      List.Forall₂ (fun c k => c.compile = .ok k) cs rs.reduceOption := by
  induction h with
  | nil => exact ⟨[], Source.clauses_spaces (fun _ hb => nomatch hb), .nil⟩
  | @cons line r lines rs hline hlines ih =>
    obtain ⟨cs, hcs, hks⟩ := hline.exists_clauses choice
    obtain ⟨ds, hds, hls⟩ := ih
    rw [reduceOption_cons_eq]
    cases hlines with
    | nil => exact ⟨cs, hcs, (List.append_nil r.toList).symm ▸ hks⟩
    | cons _ _ => exact ⟨cs ++ ds, Source.clauses_append hcs hds, List.rel_append hks hls⟩

/-- A line is answered with the listing of what it holds, whatever is chosen. -/
theorem Holds.replLine_eq (h : Holds line r) (choice : Choice String) :
    replLine choice line = (r.toList.map (·.listing), r.toList.map (·.logEntry)) := by
  cases h with
  | blank hspace =>
    have htrim : Text.trimEnds (fun g => Text.isBlank g.toChar) (Glyph.decode line) = [] :=
      Text.trimEnds_eq_nil fun g hg => (Json.isSpace_of_mem_decode hspace g hg).isBlank
    rw [replLine, htrim]
    rfl
  | @clause c k choice' hc hk =>
    have hone := (Source.clauses_eq_ok_congr choice' choice).1 (Source.clause_eq_ok_iff.1 hc)
    obtain ⟨vs, hvs, hcs⟩ := Source.clauses_eq_ok_iff.1 hone
    have hclause := Source.clause_eq_ok_iff.2
      (Source.clauses_eq_ok_iff.2 ⟨vs, readAll_trimmed hvs, hcs⟩)
    unfold replLine
    dsimp only
    split
    next hempty =>
      -- An empty line holds no clause.
      rw [List.isEmpty_iff.1 hempty] at hclause
      exact nomatch hclause
    next =>
      rw [hclause]
      dsimp only
      rw [hk]
      rfl

/-- Lines are answered with the listings of what they hold, whatever is chosen. -/
theorem answers_eq (h : List.Forall₂ Holds lines rs) (choices : ℕ → Choice String) :
    answers choices lines =
      ⟨rs.reduceOption.map (·.listing), rs.reduceOption.map (·.logEntry), none, false⟩ := by
  induction h generalizing choices with
  | nil => rfl
  | cons hline _ ih =>
    rw [answers_cons, hline.replLine_eq, ih, reduceOption_cons_eq, List.map_append,
      List.map_append]

/-- The two front ends agree.  If each line of a text is blank or holds one clause that is compiled,
then compiling the whole text and answering it line by line both succeed; they write the listings of
these clauses in order, and the same log.  Nothing is left to choice then. -/
theorem compile_agrees_repl (text : List UInt8) (verbose verbose' : Bool)
    (choices choices' : ℕ → Choice String)
    (h : ∀ line ∈ Text.pieces 10 text, ∃ r, Holds line r) :
    let whole := (Plan.compile verbose "text" []).run choices [] ⟨text, .eof⟩
    let session := (Plan.repl verbose').run choices' [] ⟨text, .eof⟩
    ∃ rs : List (Option CompiledClause), List.Forall₂ Holds (Text.pieces 10 text) rs ∧
      whole.error = none ∧ session.error = none ∧
      whole.output = String.join (rs.reduceOption.map (·.listing)) ∧
      session.output = String.join (rs.reduceOption.map (·.listing)) ∧
      whole.log = session.log := by
  intro whole session
  obtain ⟨rs, hrs⟩ := exists_forall₂_iff.2 h
  obtain ⟨cs, hcs, hks⟩ := exists_clauses_joinPieces hrs (choices 0)
  rw [Text.joinPieces_pieces] at hcs
  have hwhole : whole = ⟨rs.reduceOption.map (·.listing), rs.reduceOption.map (·.logEntry), none,
      true⟩ := by
    show compile (choices 0) "text" [] ⟨text, .eof⟩ = _
    simp [compile, allClauses, hcs, compileAll, compileFrom_eq hks, formatted]
  have hsession : session = ⟨rs.reduceOption.map (·.listing), rs.reduceOption.map (·.logEntry),
      none, false⟩ := answers_eq hrs choices'
  rw [hwhole, hsession]
  exact ⟨rs, hrs, rfl, rfl, rfl, rfl, rfl⟩

/-- The bytes of the clause `p(1)` with a carriage return after it, a line with a space, and the
clause `q` without a line break. -/
def mixedBytes : List UInt8 :=
  [123, 34, 112, 34, 58, 91, 49, 93, 125, 13, 10, 32, 10, 34, 113, 34]

/-- Each of these lines is blank or holds a clause, and the front ends agree on them. -/
theorem compile_agrees_repl_mixed :
    let whole := (Plan.compile false "text" []).run (fun _ => .first) [] ⟨mixedBytes, .eof⟩
    let session := (Plan.repl false).run (fun _ => .first) [] ⟨mixedBytes, .eof⟩
    (∀ line ∈ Text.pieces 10 mixedBytes, ∃ r, Holds line r) ∧
      whole.error = none ∧ session.error = none ∧ whole.output = session.output := by
  intro whole session
  have hlines : ∀ line ∈ Text.pieces 10 mixedBytes, ∃ r, Holds line r := by
    have hpieces : Text.pieces 10 mixedBytes =
        [[123, 34, 112, 34, 58, 91, 49, 93, 125, 13], [32], [34, 113, 34]] := by decide
    rw [hpieces, List.forall_mem_cons, List.forall_mem_cons, List.forall_mem_singleton]
    exact ⟨⟨_, .clause .first rfl rfl⟩, ⟨none, .blank (by simp [spaceBytes])⟩,
      ⟨_, .clause .first rfl rfl⟩⟩
  obtain ⟨rs, -, hwhole, hsession, houtput, houtput', -⟩ :=
    compile_agrees_repl mixedBytes false false (fun _ => .first) (fun _ => .first) hlines
  exact ⟨hlines, hwhole, hsession, houtput.trans houtput'.symm⟩

end Command

end ClauseCode
