import ClauseCode.Proofs.Numerals
import ClauseCode.Proofs.Reading
import ClauseCode.Proofs.Values

/-!
# The grammar of programs

`Json.IsTerm` and `Json.IsClause` say which JSON values stand for terms and for clauses.  They are
those that are read as terms (`Json.isTerm_iff`) and as clauses (`Json.isClause_iff`).  Numbers with
a plus sign would be read as well, but no JSON text has them; nor does a value that is read have a
key twice.

A program is read if all its values are clauses (`Source.clausesFrom_eq_ok_iff`).  If one is not,
then the first such value is reported by its number (`Source.clausesFrom_eq_badClause`).
-/

namespace ClauseCode

namespace Json

/-- The values that stand for terms. -/
inductive IsTerm : Json → Prop
  | string (s : String) : IsTerm (.string s)
  | number {text : String} {n : Int} (hn : Decimal.Numeral text.toList n)
      (hfits : -2 ^ 63 ≤ n ∧ n ≤ 2 ^ 63 - 1) : IsTerm (.number text)
  | array {items : List Json} (hitems : ∀ v ∈ items, IsTerm v) : IsTerm (.array items)
  | object {f : String} {items : List Json} (hitems : ∀ v ∈ items, IsTerm v)
      (hbar : f = "|" → 2 ≤ items.length) : IsTerm (.object [(f, .array items)])

/-- The values that stand for clauses. -/
inductive IsClause : Json → Prop
  | clause {members : List (String × Json)} {head : Json}
      (hkeys : ∀ m ∈ members, m.1 = "head" ∨ m.1 = "body")
      (hhead : ("head", head) ∈ members) (hterm : head.IsTerm)
      (hbody : ∀ body, ("body", body) ∈ members →
        ∃ items, body = .array items ∧ ∀ v ∈ items, v.IsTerm) : IsClause (.object members)
  | fact {v : Json} (hhead : ∀ members head, v = .object members → ("head", head) ∉ members)
      (hterm : v.IsTerm) : IsClause v

variable {v : Json} {vs : List Json}

/-! ### Terms -/

theorem exists_ofJsons (h : ∀ v ∈ vs, ∃ t, Term.ofJson v = .ok t) :
    ∃ ts, Term.ofJsons vs = .ok ts ∧ ts.length = vs.length := by
  obtain ⟨ts, hts⟩ := exists_forall₂_iff.2 h
  exact ⟨ts, Term.ofJsons_eq_ok_iff.2 hts, hts.length_eq.symm⟩

theorem IsTerm.exists_ofJson (h : v.IsTerm) : ∃ t, Term.ofJson v = .ok t := by
  induction h with
  | string s => exact ⟨Term.ofString s, rfl⟩
  | @number text n hn hfits =>
    have hparse : Decimal.ofChars text.toList = .ok n :=
      (Decimal.ofChars_eq_ok_iff fun ds => hn.not_plus).2 ⟨hn, Decimal.fits_iff.2 hfits⟩
    exact ⟨.int n, Term.ofNumber_eq_ok_iff.2 ⟨n, Decimal.parse_eq_ok_iff.2 hparse, rfl⟩⟩
  | @array items _ ih =>
    obtain ⟨ts, hts, -⟩ := exists_ofJsons ih
    exact ⟨Term.ofList ts, by rw [Term.ofJson, hts]⟩
  | @object f items _ hbar ih =>
    obtain ⟨ts, hts, hlength⟩ := exists_ofJsons ih
    rw [Term.ofJson, hts]
    by_cases hf : f = "|"
    · -- With two terms or more there is a last one and something before it.
      have hlen := hbar hf
      have hne : ts ≠ [] := by
        rintro rfl
        rw [← hlength] at hlen
        simp at hlen
      have hinit : ts.dropLast ≠ [] := by
        intro hnil
        have hzero : ts.dropLast.length = 0 := by rw [hnil, List.length_nil]
        rw [List.length_dropLast] at hzero
        omega
      refine ⟨.prepend ts.dropLast (ts.getLast hne), Term.ofEntry_eq_ok_iff.2 (Or.inr ⟨hf, ?_⟩)⟩
      exact ⟨_, _, hinit, (List.dropLast_append_getLast hne).symm, rfl⟩
    · exact ⟨.apply f ts, Term.ofEntry_eq_ok_iff.2 (Or.inl ⟨hf, rfl⟩)⟩

theorem Proper.of_mem_array (h : Proper (.array vs)) (hv : v ∈ vs) : v.Proper := by
  cases h with
  | array h => exact h v hv

theorem Proper.of_mem_object {members : List (String × Json)} {key : String}
    (h : Proper (.object members)) (hv : (key, v) ∈ members) : v.Proper := by
  cases h with
  | object _ h => exact h _ hv

theorem Proper.nodup {members : List (String × Json)} (h : Proper (.object members)) :
    (members.map Prod.fst).Nodup := by
  cases h with
  | object hkeys _ => exact hkeys

theorem isTerm_of_ofJson {t : Term} (h : Term.ofJson v = .ok t) (hproper : v.Proper) :
    v.IsTerm := by
  have hall : ∀ {vs : List Json} {ts : List Term},
      List.Forall₂ (fun v _ => v.Proper → v.IsTerm) vs ts → Proper (.array vs) →
        ∀ v ∈ vs, v.IsTerm := by
    intro vs ts hvs hproper v hv
    have hleft := ((List.forall₂_and_left vs ts).1 (hvs.imp fun _ _ h => ⟨h, trivial⟩)).1
    exact hleft v hv (hproper.of_mem_array hv)
  revert hproper
  refine Term.ofJson_induction (motive := fun v _ => v.Proper → v.IsTerm) ?_ ?_ ?_ ?_ h
  · intro s _
    exact .string s
  · intro text n hn hproper
    cases hproper with
    | number hproper =>
      obtain ⟨hnumeral, hfits⟩ :=
        (Decimal.ofChars_eq_ok_iff hproper).1 (Decimal.parse_eq_ok_iff.1 hn)
      exact .number hnumeral (Decimal.fits_iff.1 hfits)
  · intro items ts hts hproper
    exact .array (hall hts hproper)
  · intro f items ts t hts ht hproper
    refine .object (hall hts (hproper.of_mem_object (List.mem_singleton_self _))) fun hf => ?_
    rw [hts.length_eq]
    rcases Term.ofEntry_eq_ok_iff.1 ht with ⟨hne, -⟩ | ⟨-, us, u, hus, rfl, -⟩
    · exact absurd hf hne
    · have hpos := List.length_pos_of_ne_nil hus
      rw [List.length_append, List.length_singleton]
      omega

/-- The values that are read as terms are those of the grammar. -/
theorem isTerm_iff (hproper : v.Proper) : (∃ t, Term.ofJson v = .ok t) ↔ v.IsTerm := by
  constructor
  · rintro ⟨t, ht⟩
    exact isTerm_of_ofJson ht hproper
  · intro h
    exact h.exists_ofJson

/-! ### Clauses -/

theorem exists_bodyOfJson_iff {body : Option Json} (hproper : ∀ v, body = some v → v.Proper) :
    (∃ ts, Clause.bodyOfJson body = .ok ts) ↔
      ∀ v, body = some v → ∃ items, v = .array items ∧ ∀ u ∈ items, u.IsTerm := by
  constructor
  · rintro ⟨ts, hts⟩ v rfl
    rcases Clause.bodyOfJson_eq_ok_iff.1 hts with ⟨hnone, -⟩ | ⟨items, hsome, hitems⟩
    · simp at hnone
    · obtain rfl := Option.some.inj hsome
      have hterm : (Json.array items).IsTerm := by
        refine isTerm_of_ofJson (t := Term.ofList ts) ?_ (hproper _ rfl)
        rw [Term.ofJson, hitems]
      refine ⟨items, rfl, ?_⟩
      cases hterm with
      | array hitems => exact hitems
  · intro h
    cases body with
    | none => exact ⟨[], rfl⟩
    | some v =>
      obtain ⟨items, rfl, hitems⟩ := h v rfl
      obtain ⟨ts, hts, -⟩ := exists_ofJsons fun u hu => (hitems u hu).exists_ofJson
      exact ⟨ts, Clause.bodyOfJson_eq_ok_iff.2 (Or.inr ⟨items, rfl, hts⟩)⟩

/-- The values that are read as clauses are those of the grammar, whatever is chosen. -/
theorem isClause_iff (choice : Choice String) (hproper : v.Proper) :
    (∃ c, Clause.ofJson choice v = .ok c) ↔ v.IsClause := by
  have hbody : ∀ {members}, v = .object members → ∀ u, members.lookup "body" = some u →
      u.Proper := by
    rintro members rfl u hu
    exact hproper.of_mem_object (mem_of_lookup hu)
  constructor
  · rintro ⟨c, hc⟩
    rcases Clause.ofJson_eq_ok_iff.1 hc with ⟨members, head, rfl, hhead, hmembers⟩ | ⟨hhead, hfact⟩
    · obtain ⟨hkeys, hterm, hgoals⟩ := Clause.ofMembers_eq_ok_iff.1 hmembers
      have hmem := mem_of_lookup hhead
      refine .clause hkeys hmem (isTerm_of_ofJson hterm (hproper.of_mem_object hmem)) ?_
      intro body hbodyMem
      exact (exists_bodyOfJson_iff (hbody rfl)).1 ⟨_, hgoals⟩ body
        ((lookup_eq_some_iff_mem hproper.nodup).2 hbodyMem)
    · refine .fact ?_ (isTerm_of_ofJson (Clause.factOfJson_eq_ok_iff.1 hfact).1 hproper)
      intro members head hv hmem
      exact lookup_eq_none_iff_not_mem.1 (hhead members hv) (List.mem_map_of_mem hmem)
  · rintro (⟨hkeys, hhead, hterm, hgoals⟩ | ⟨hhead, hterm⟩)
    · obtain ⟨t, ht⟩ := hterm.exists_ofJson
      obtain ⟨ts, hts⟩ := (exists_bodyOfJson_iff (hbody rfl)).2 fun u hu =>
        hgoals u (mem_of_lookup hu)
      have hlookup := (lookup_eq_some_iff_mem hproper.nodup).2 hhead
      refine ⟨⟨t, ts⟩, Clause.ofJson_eq_ok_iff.2 (Or.inl ⟨_, _, rfl, hlookup, ?_⟩)⟩
      exact Clause.ofMembers_eq_ok_iff.2 ⟨hkeys, ht, hts⟩
    · obtain ⟨t, ht⟩ := hterm.exists_ofJson
      refine ⟨⟨t, []⟩, Clause.ofJson_eq_ok_iff.2 (Or.inr ⟨fun members hv => ?_, ?_⟩)⟩
      · rw [lookup_eq_none_iff_not_mem]
        intro hmem
        obtain ⟨⟨key, head⟩, hm, rfl⟩ := List.mem_map.1 hmem
        exact hhead members head hv hm
      · exact Clause.factOfJson_eq_ok_iff.2 ⟨ht, rfl⟩

end Json

/-! ### Programs -/

namespace Source

variable {choice : Choice String} {stop : Option Json.ReadError} {vs : List Json}
  {cs : List Clause}

theorem clausesFrom_cons_ok {v : Json} {c : Clause} (hc : Clause.ofJson choice v = .ok c) (n : ℕ) :
    clausesFrom choice n stop (v :: vs) =
      match clausesFrom choice (n + 1) stop vs with
      | .error e => .error e
      | .ok cs => .ok (c :: cs) := by
  cases hcs : clausesFrom choice (n + 1) stop vs with
  | error e => simp [clausesFrom, hc, hcs]
  | ok cs => simp [clausesFrom, hc, hcs]

theorem clausesFrom_eq_ok_iff {n : ℕ} :
    clausesFrom choice n stop vs = .ok cs ↔
      stop = none ∧ List.Forall₂ (fun v c => Clause.ofJson choice v = .ok c) vs cs := by
  induction vs generalizing n cs with
  | nil => cases stop <;> simp [clausesFrom, eq_comm]
  | cons v vs ih =>
    constructor
    · intro h
      cases hc : Clause.ofJson choice v with
      | error e => simp [clausesFrom, hc] at h
      | ok c =>
        rw [clausesFrom_cons_ok hc] at h
        split at h
        next => simp at h
        next cs' hcs' =>
          obtain rfl := Except.ok.inj h
          obtain ⟨hstop, hvs⟩ := ih.1 hcs'
          exact ⟨hstop, List.Forall₂.cons hc hvs⟩
    · rintro ⟨hstop, hvs⟩
      cases hvs with
      | cons hc hvs => rw [clausesFrom_cons_ok hc, ih.2 ⟨hstop, hvs⟩]

/-- The first value that is not read as a clause is reported by its number. -/
theorem clausesFrom_eq_badClause {n : ℕ} {before after : List Json} {v : Json}
    {e : Clause.FormError} (hbefore : ∀ u ∈ before, ∃ c, Clause.ofJson choice u = .ok c)
    (hv : Clause.ofJson choice v = .error e) :
    clausesFrom choice n stop (before ++ v :: after) =
      .error (.badClause (n + before.length + 1) e) := by
  induction before generalizing n with
  | nil =>
    show clausesFrom choice n stop (v :: after) = _
    rw [clausesFrom, hv]
    rfl
  | cons u before ih =>
    obtain ⟨⟨c, hc⟩, hbefore⟩ := List.forall_mem_cons.1 hbefore
    have hnumber : n + 1 + before.length + 1 = n + (u :: before).length + 1 := by
      rw [List.length_cons]
      omega
    rw [List.cons_append, clausesFrom_cons_ok hc, ih hbefore, hnumber]

end Source

/-- Among values that are not all clauses there is a first that is none. -/
theorem Json.exists_first_not_isClause {vs : List Json} (h : ¬ ∀ v ∈ vs, v.IsClause) :
    ∃ before v after, vs = before ++ v :: after ∧ (∀ u ∈ before, u.IsClause) ∧ ¬ v.IsClause := by
  induction vs with
  | nil => simp at h
  | cons v vs ih =>
    by_cases hv : v.IsClause
    · have hvs : ¬ ∀ v ∈ vs, v.IsClause := fun hvs => h (List.forall_mem_cons.2 ⟨hv, hvs⟩)
      obtain ⟨before, u, after, rfl, hbefore, hu⟩ := ih hvs
      exact ⟨v :: before, u, after, rfl, List.forall_mem_cons.2 ⟨hv, hbefore⟩, hu⟩
    · exact ⟨[], v, vs, rfl, by simp, hv⟩

/-- The values that are read as terms and as clauses are those of the grammar.  The values of an
input are read as clauses, in order, if and only if they are all of the grammar and no malformed
text comes after them; the first that is not of the grammar is reported by its number, counted from
one. -/
theorem Source.accepts_grammar (choice : Choice String) :
    (∀ v : Json, v.Proper → ((∃ t, Term.ofJson v = .ok t) ↔ v.IsTerm)) ∧
      (∀ v : Json, v.Proper → ((∃ c, Clause.ofJson choice v = .ok c) ↔ v.IsClause)) ∧
      ∀ (input : Json.Input) (vs : List Json) (stop : Option Json.ReadError),
        Json.readAll input = (vs, stop) →
          ((∃ cs, clauses choice input = .ok cs) ↔ stop = none ∧ ∀ v ∈ vs, v.IsClause) ∧
          (∀ cs, clauses choice input = .ok cs →
            List.Forall₂ (fun v c => Clause.ofJson choice v = .ok c) vs cs) ∧
          ((¬ ∀ v ∈ vs, v.IsClause) → ∃ before v after e,
            vs = before ++ v :: after ∧ (∀ u ∈ before, u.IsClause) ∧ ¬ v.IsClause ∧
            Clause.ofJson choice v = .error e ∧
            clauses choice input = .error (.badClause (before.length + 1) e)) := by
  refine ⟨fun v => Json.isTerm_iff, fun v => Json.isClause_iff choice, ?_⟩
  intro input vs stop hread
  have hclauses : clauses choice input = clausesFrom choice 0 stop vs := by rw [clauses, hread]
  have hproper : ∀ v ∈ vs, v.Proper := by
    have h := Json.proper_readAll input
    rwa [hread] at h
  have haccepts : ∀ v ∈ vs, v.IsClause ↔ ∃ c, Clause.ofJson choice v = .ok c :=
    fun v hv => (Json.isClause_iff choice (hproper v hv)).symm
  have hall : (∀ v ∈ vs, v.IsClause) ↔
      ∃ cs, List.Forall₂ (fun v c => Clause.ofJson choice v = .ok c) vs cs := by
    rw [exists_forall₂_iff]
    exact forall₂_congr haccepts
  rw [hclauses]
  refine ⟨?_, ?_, ?_⟩
  · rw [hall, ← exists_and_left]
    exact exists_congr fun cs => clausesFrom_eq_ok_iff
  · intro cs hcs
    exact (clausesFrom_eq_ok_iff.1 hcs).2
  · intro hbad
    obtain ⟨before, v, after, rfl, hbefore, hv⟩ := Json.exists_first_not_isClause hbad
    have hread : ∀ u ∈ before, ∃ c, Clause.ofJson choice u = .ok c := by
      intro u hu
      exact (haccepts u (by simp [hu])).1 (hbefore u hu)
    cases hc : Clause.ofJson choice v with
    | ok c => exact absurd ((haccepts v (by simp)).2 ⟨c, hc⟩) hv
    | error e =>
      refine ⟨before, v, after, e, rfl, hbefore, hv, hc, ?_⟩
      rw [clausesFrom_eq_badClause hread hc, Nat.zero_add]

/-- The bytes of a clause with the head `p` and the goal `q`, and of an object with the key `|` and
the value `[1]`, which is too short for a list with a tail. -/
def shortListBytes : List UInt8 := [
  123, 34, 104, 101, 97, 100, 34, 58, 34, 112, 34, 44, 34, 98, 111, 100, 121, 34, 58, 91, 34, 113,
  34, 93, 125, 32, 123, 34, 124, 34, 58, 91, 49, 93, 125]

/-- The first of the two values is a clause, and the second is reported.  The first would be no
clause with another key in the place of `body`. -/
theorem accepts_grammar_shortList :
    let good : Json := .object [("head", .string "p"), ("body", .array [.string "q"])]
    let bad : Json := .object [("|", .array [.number "1"])]
    let stray : Json := .object [("head", .string "p"), ("goals", .array [.string "q"])]
    Json.readAll ⟨shortListBytes, .eof⟩ = ([good, bad], none) ∧
      good.IsClause ∧ ¬ bad.IsClause ∧ stray.Proper ∧ ¬ stray.IsClause ∧
      ∃ before v after e, [good, bad] = before ++ v :: after ∧
        (∀ u ∈ before, u.IsClause) ∧ ¬ v.IsClause ∧ Clause.ofJson .first v = .error e ∧
        Source.clauses .first ⟨shortListBytes, .eof⟩ =
          .error (.badClause (before.length + 1) e) := by
  intro good bad stray
  obtain ⟨-, hclause, hinput⟩ := Source.accepts_grammar .first
  have hread : Json.readAll ⟨shortListBytes, .eof⟩ = ([good, bad], none) := rfl
  have hproper := Json.proper_readAll ⟨shortListBytes, .eof⟩
  rw [hread] at hproper
  have hgood : good.IsClause :=
    (hclause _ (hproper _ (by simp))).1 ⟨⟨.atom "p", [.atom "q"]⟩, rfl⟩
  have hbad : ¬ bad.IsClause := by
    rw [← hclause _ (hproper _ (by simp))]
    rintro ⟨c, hc⟩
    exact nomatch hc
  have hproper' : stray.Proper :=
    .object (by decide) (by simp [Json.Proper.string, Json.Proper.array])
  have hstray : ¬ stray.IsClause := by
    rw [← hclause _ hproper']
    rintro ⟨c, hc⟩
    exact nomatch hc
  exact ⟨hread, hgood, hbad, hproper', hstray,
    (hinput _ _ _ hread).2.2 fun hall => hbad (hall bad (by simp))⟩

end ClauseCode
