import ClauseCode.Proofs.Pairs
import ClauseCode.Source.Clause

/-!
# What it means that a value is read

A JSON value is read as a term from the inside out.  Whenever this succeeds, the value is a string,
a number, an array or an object with a single key, and the values within it are read as well; so
that a fact about all terms that are read, and the values they are read from, needs one case for
each (`Term.ofJson_induction`).  A value is read as a clause in one of two ways
(`Clause.ofJson_eq_ok_iff`).
-/

namespace ClauseCode

namespace Term

variable {t : Term} {ts : List Term}

theorem ofJsons_cons_eq_ok {v : Json} {vs : List Json} (h : ofJsons (v :: vs) = .ok ts) :
    ∃ t ts', ofJson v = .ok t ∧ ofJsons vs = .ok ts' ∧ ts = t :: ts' := by
  rw [ofJsons] at h
  split at h
  next => simp at h
  next t ht =>
    split at h
    next => simp at h
    next ts' hts => exact ⟨t, ts', ht, hts, (Except.ok.inj h).symm⟩

theorem ofJsons_eq_ok_iff {vs : List Json} :
    ofJsons vs = .ok ts ↔ List.Forall₂ (fun v t => ofJson v = .ok t) vs ts := by
  constructor
  · intro h
    induction vs generalizing ts with
    | nil =>
      obtain rfl := Except.ok.inj h
      exact List.Forall₂.nil
    | cons v vs ih =>
      obtain ⟨t, ts', ht, hts, rfl⟩ := ofJsons_cons_eq_ok h
      exact List.Forall₂.cons ht (ih hts)
  · intro h
    induction h with
    | nil => rfl
    | cons ht _ ih => rw [ofJsons, ht, ih]

/-- An object with a single key is a compound, or a list whose last term is its tail. -/
theorem ofEntry_eq_ok_iff {f : String} :
    ofEntry f ts = .ok t ↔ (f ≠ "|" ∧ t = apply f ts) ∨
      (f = "|" ∧ ∃ us u, us ≠ [] ∧ ts = us ++ [u] ∧ t = prepend us u) := by
  by_cases hf : f = "|"
  · unfold ofEntry
    rw [if_neg (not_not.2 hf)]
    constructor
    · intro h
      split at h
      next t₁ t₂ ts =>
        have hne : t₁ :: t₂ :: ts ≠ [] := List.cons_ne_nil _ _
        obtain rfl := Except.ok.inj h
        exact Or.inr ⟨hf, _, _, by simp, (List.dropLast_append_getLast hne).symm, rfl⟩
      next => simp at h
    · rintro (⟨hne, -⟩ | ⟨-, us, u, hus, rfl, rfl⟩)
      · exact absurd hf hne
      · obtain ⟨t₁, us', rfl⟩ := List.exists_cons_of_ne_nil hus
        cases us' with
        | nil => rfl
        | cons t₂ us' =>
          show Except.ok (prepend ((t₁ :: t₂ :: us') ++ [u]).dropLast
            (((t₁ :: t₂ :: us') ++ [u]).getLast _)) = _
          rw [List.dropLast_concat, List.getLast_concat]
  · unfold ofEntry
    rw [if_pos hf]
    constructor
    · intro h
      exact Or.inl ⟨hf, (Except.ok.inj h).symm⟩
    · rintro (⟨-, rfl⟩ | ⟨hbar, -⟩)
      · rfl
      · exact absurd hbar hf

theorem ofNumber_eq_ok_iff {text : String} :
    ofNumber text = .ok t ↔ ∃ n, Decimal.parse text = .ok n ∧ t = .int n := by
  rw [ofNumber]
  cases Decimal.parse text with
  | error e => simp
  | ok n => simp [eq_comm]

theorem ofJson_array_eq_ok {items : List Json} (h : ofJson (.array items) = .ok t) :
    ∃ ts, ofJsons items = .ok ts ∧ t = ofList ts := by
  rw [ofJson] at h
  split at h
  next ts hts => exact ⟨ts, hts, (Except.ok.inj h).symm⟩
  next => simp at h

theorem ofJson_object_eq_ok : ∀ {members : List (String × Json)},
    ofJson (.object members) = .ok t → ∃ f items ts, members = [(f, .array items)] ∧
      ofJsons items = .ok ts ∧ ofEntry f ts = .ok t
  | [(f, .array items)], h => by
    rw [ofJson] at h
    split at h
    next ts hts => exact ⟨f, items, ts, rfl, hts, h⟩
    next => simp at h
  | [], h => nomatch h
  | (_, v) :: _ :: _, h => by cases v <;> nomatch h
  | [(_, .null)], h | [(_, .bool _)], h | [(_, .number _)], h | [(_, .string _)], h
  | [(_, .object _)], h => nomatch h

/-- Induction on how a term is read. -/
theorem ofJson_induction {motive : Json → Term → Prop}
    (string : ∀ s, motive (.string s) (ofString s))
    (number : ∀ text n, Decimal.parse text = .ok n → motive (.number text) (.int n))
    (array : ∀ items ts, List.Forall₂ motive items ts → motive (.array items) (ofList ts))
    (entry : ∀ f items ts t, List.Forall₂ motive items ts → ofEntry f ts = .ok t →
      motive (.object [(f, .array items)]) t)
    {v : Json} (h : ofJson v = .ok t) : motive v t := by
  induction hsize : sizeOf v using Nat.strongRecOn generalizing v t with
  | _ size ih =>
    subst hsize
    have hitems : ∀ {items ts}, (∀ u ∈ items, sizeOf u < sizeOf v) → ofJsons items = .ok ts →
        List.Forall₂ motive items ts := by
      intro items ts hsmall hts
      have hall := (List.forall₂_and_left _ _).2 ⟨hsmall, ofJsons_eq_ok_iff.1 hts⟩
      exact hall.imp fun u t hu => ih _ hu.1 hu.2 rfl
    cases v with
    | null => nomatch h
    | bool => nomatch h
    | string s =>
      obtain rfl := Except.ok.inj h
      exact string s
    | number text =>
      obtain ⟨n, hn, rfl⟩ := ofNumber_eq_ok_iff.1 h
      exact number text n hn
    | array items =>
      obtain ⟨ts, hts, rfl⟩ := ofJson_array_eq_ok h
      refine array items ts (hitems (fun u hu => ?_) hts)
      have hlt := List.sizeOf_lt_of_mem hu
      rw [Json.array.sizeOf_spec]
      omega
    | object members =>
      obtain ⟨f, items, ts, rfl, hts, ht⟩ := ofJson_object_eq_ok h
      refine entry f items ts t (hitems (fun u hu => ?_) hts) ht
      have hlt := List.sizeOf_lt_of_mem hu
      simp only [Json.object.sizeOf_spec, List.cons.sizeOf_spec, Prod.mk.sizeOf_spec,
        Json.array.sizeOf_spec]
      omega

end Term

namespace Clause

variable {c : Clause}

theorem factOfJson_eq_ok_iff {v : Json} :
    factOfJson v = .ok c ↔ Term.ofJson v = .ok c.head ∧ c.body = [] := by
  obtain ⟨head, body⟩ := c
  rw [factOfJson]
  cases Term.ofJson v with
  | error e => simp
  | ok t => simp [eq_comm]

theorem bodyOfJson_eq_ok_iff {v : Option Json} {ts : List Term} :
    bodyOfJson v = .ok ts ↔
      (v = none ∧ ts = []) ∨ ∃ items, v = some (.array items) ∧ Term.ofJsons items = .ok ts := by
  cases v with
  | none => simp [bodyOfJson, eq_comm]
  | some v =>
    cases v with
    | array items =>
      rw [bodyOfJson]
      cases hitems : Term.ofJsons items <;> simp [hitems]
    | null | bool | number | string | object => simp [bodyOfJson]

theorem unexpectedKeys_eq_nil_iff {members : List (String × Json)} :
    unexpectedKeys members = [] ↔ ∀ m ∈ members, m.1 = "head" ∨ m.1 = "body" := by
  rw [unexpectedKeys, List.filter_eq_nil_iff]
  simp [or_iff_not_imp_left]

variable {choice : Choice String}

/-- An object with a head is read in one way, whatever is chosen. -/
theorem ofMembers_eq_ok_iff {head : Json} {members : List (String × Json)} :
    ofMembers choice head members = .ok c ↔ (∀ m ∈ members, m.1 = "head" ∨ m.1 = "body") ∧
      Term.ofJson head = .ok c.head ∧ bodyOfJson (members.lookup "body") = .ok c.body := by
  rw [ofMembers, ← unexpectedKeys_eq_nil_iff]
  cases unexpectedKeys members with
  | cons key keys => simp
  | nil =>
    cases Term.ofJson head with
    | error e => simp
    | ok h =>
      cases bodyOfJson (members.lookup "body") with
      | error e => simp
      | ok b =>
        obtain ⟨head, body⟩ := c
        simp

/-- A value with the key `head` is read as a clause with this head, and any other as a clause
without goals. -/
theorem ofJson_eq_ok_iff {v : Json} :
    ofJson choice v = .ok c ↔
      (∃ members head, v = .object members ∧ members.lookup "head" = some head ∧
        ofMembers choice head members = .ok c) ∨
      ((∀ members, v = .object members → members.lookup "head" = none) ∧
        factOfJson v = .ok c) := by
  cases v with
  | null | bool | number | string | array => simp [ofJson]
  | object members =>
    rw [ofJson]
    cases hhead : members.lookup "head" with
    | none => simp [hhead, -List.lookup_eq_none_iff]
    | some head => simp [hhead, -List.lookup_eq_none_iff]

/-- Whether a value is read as a clause, and as which one, is not a matter of choice. -/
theorem ofJson_eq_ok_congr {v : Json} (choice choice' : Choice String) :
    ofJson choice v = .ok c ↔ ofJson choice' v = .ok c := by
  simp only [ofJson_eq_ok_iff, ofMembers_eq_ok_iff]

end Clause

end ClauseCode
