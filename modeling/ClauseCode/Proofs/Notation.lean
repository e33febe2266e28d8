import ClauseCode.Proofs.Faithful
import ClauseCode.Proofs.Numerals
import ClauseCode.Proofs.Reading
import ClauseCode.Proofs.Tree

/-!
# Terms and clauses in JSON, there and back

The constructors give each term one representation: they compute what a term remembers about its
variables, and they keep the tail of a list from being a list; and they make every term for which
this holds (`Term.built_iff_shaped`).  Such a term is read back from what is written for it
(`Term.ofJson_toJson`), unless a compound in it has the functor `|` and so is written like a list.
Whatever is read is such a term again (`Term.built_ofJson`, `Term.barless_ofJson`).
-/

namespace ClauseCode

namespace Term

/-! ### The terms that are constructed -/

/-- The terms that the constructors make. -/
inductive Built : Term → Prop
  | atom (name : String) : Built (.atom name)
  | int {n : Int} (hn : Decimal.Fits n) : Built (.int n)
  | ofName {x : String} {t : Term} (ht : ofName x = .ok t) : Built t
  | apply (f : String) {args : List Term} (hargs : ∀ t ∈ args, Built t) : Built (apply f args)
  | prepend {ts : List Term} {tail : Term} (hts : ∀ t ∈ ts, Built t) (htail : Built tail) :
      Built (prepend ts tail)
  | slice {t u : Term} {n : Int} (ht : Built t) (hu : t.slice n = .ok u) : Built u
  | cellHead {t head tail : Term} (ht : Built t) (hcell : t.cell = .ok (head, tail)) : Built head
  | cellTail {t head tail : Term} (ht : Built t) (hcell : t.cell = .ok (head, tail)) : Built tail

mutual

/-- Whether a property holds of a term and of all terms within it. -/
def Everywhere (p : Term → Prop) : Term → Prop
  | comp f args b => p (comp f args b) ∧ EverywhereAll p args
  | list head rest tail b =>
    p (list head rest tail b) ∧ head.Everywhere p ∧ EverywhereAll p rest ∧ tail.Everywhere p
  | t => p t

/-- Whether a property holds everywhere in several terms. -/
def EverywhereAll (p : Term → Prop) : List Term → Prop
  | [] => True
  | t :: ts => t.Everywhere p ∧ EverywhereAll p ts

end

/-- Whether a term is a list. -/
def isChain : Term → Bool
  | list .. => true
  | _ => false

/-- Whether a term is as the constructors make it, apart from the terms within it. -/
def Shaped : Term → Prop
  | atom _ => True
  | int n => Decimal.Fits n
  | var x => Spelling.isVar x = true
  | comp _ args b => b = args.any hasVar
  | list head rest tail b =>
    tail.isChain = false ∧ b = ((head :: rest).any hasVar || tail.hasVar)

/-- Whether a term is no compound with the functor `|`. -/
def NoBar : Term → Prop
  | comp f _ _ => f ≠ "|"
  | _ => True

variable {p : Term → Prop} {t tail : Term} {ts : List Term}

theorem everywhereAll_iff : EverywhereAll p ts ↔ ∀ t ∈ ts, t.Everywhere p := by
  induction ts with
  | nil => simp [EverywhereAll]
  | cons t ts ih => rw [EverywhereAll, ih, List.forall_mem_cons]

theorem prepend_of_isChain_eq_false (h : tail.isChain = false) (t : Term) (ts : List Term) :
    prepend (t :: ts) tail = chain t ts tail := by
  cases tail with
  | list => simp [isChain] at h
  | atom | int | var | comp => rfl

theorem everywhere_prepend (hts : ∀ t ∈ ts, t.Everywhere p) (htail : tail.Everywhere p)
    (hp : ts ≠ [] → p (prepend ts tail)) : (prepend ts tail).Everywhere p := by
  cases ts with
  | nil => exact htail
  | cons t ts =>
    have hchain := hp (List.cons_ne_nil t ts)
    rw [List.forall_mem_cons] at hts
    cases tail with
    | list head rest tail b =>
      obtain ⟨-, hhead, hrest, htail⟩ := htail
      refine ⟨hchain, hts.1, everywhereAll_iff.2 ?_, htail⟩
      intro u hu
      rw [List.mem_append, List.mem_cons] at hu
      rcases hu with hu | rfl | hu
      · exact hts.2 u hu
      · exact hhead
      · exact everywhereAll_iff.1 hrest u hu
    | atom | int | var | comp => exact ⟨hchain, hts.1, everywhereAll_iff.2 hts.2, htail⟩

/-- A list within a list is taken apart, so that the tail of the result is no list. -/
theorem shaped_prepend (hne : ts ≠ []) (htail : tail.Everywhere Shaped) :
    Shaped (prepend ts tail) := by
  obtain ⟨t, ts, rfl⟩ := List.exists_cons_of_ne_nil hne
  cases tail with
  | list head rest tail b => exact ⟨htail.1.1, rfl⟩
  | atom | int | var | comp => exact ⟨rfl, rfl⟩

/-- What is left of a list after some of its cells is as the constructors make it. -/
theorem shaped_afterCells {head : Term} {rest : List Term} {b : Bool}
    (h : (list head rest tail b).Everywhere Shaped) (n : ℕ) :
    (afterCells n head rest tail b).Everywhere Shaped := by
  obtain ⟨⟨hchain, hb⟩, hhead, hrest, htail⟩ := h
  have hall : ∀ t ∈ head :: rest, t.Everywhere Shaped :=
    List.forall_mem_cons.2 ⟨hhead, everywhereAll_iff.1 hrest⟩
  have hdrop : ∀ t ∈ (head :: rest).drop n, t ∈ head :: rest := fun t ht => List.mem_of_mem_drop ht
  unfold afterCells
  split
  next => exact htail
  next t ts heq =>
    rw [heq] at hdrop
    have hts : ∀ u ∈ t :: ts, u.Everywhere Shaped := fun u hu => hall u (hdrop u hu)
    split
    next => exact everywhere_prepend hts htail fun hne => shaped_prepend hne htail
    next hfalse =>
      -- Without variables in the list there are none in its part.
      have hflag : ((t :: ts).any hasVar || tail.hasVar) = false := by
        rw [Bool.not_eq_true] at hfalse
        rw [hfalse, eq_comm, Bool.or_eq_false_iff, List.any_eq_false] at hb
        rw [Bool.or_eq_false_iff, List.any_eq_false]
        exact ⟨fun u hu => hb.1 u (hdrop u hu), hb.2⟩
      rw [List.forall_mem_cons] at hts
      exact ⟨⟨hchain, hflag.symm⟩, hts.1, everywhereAll_iff.2 hts.2, htail⟩

/-- The constructors give each term its one representation. -/
theorem Built.shaped (h : Built t) : t.Everywhere Shaped := by
  induction h with
  | atom name => exact trivial
  | int hn => exact hn
  | @ofName x t ht =>
    unfold Term.ofName at ht
    split at ht
    next hx =>
      obtain rfl := Except.ok.inj ht
      exact hx
    next => simp at ht
  | apply f _ ih => exact ⟨rfl, everywhereAll_iff.2 ih⟩
  | prepend _ _ ihts ihtail =>
    exact everywhere_prepend ihts ihtail fun hne => shaped_prepend hne ihtail
  | @slice t u n _ hu ih =>
    cases t with
    | list head rest tail b =>
      unfold Term.slice at hu
      dsimp only at hu
      split at hu
      next => simp at hu
      next =>
        obtain rfl := Except.ok.inj hu
        exact shaped_afterCells ih n.toNat
    | atom | int | var | comp => simp [Term.slice] at hu
  | @cellHead t head tail _ hcell ih =>
    cases t with
    | list head' rest tail' b =>
      obtain ⟨rfl, -⟩ := Prod.mk.inj (Except.ok.inj hcell)
      exact ih.2.1
    | atom | int | var | comp => simp [cell] at hcell
  | @cellTail t head tail _ hcell ih =>
    cases t with
    | list head' rest tail' b =>
      obtain ⟨-, rfl⟩ := Prod.mk.inj (Except.ok.inj hcell)
      exact shaped_afterCells ih 1
    | atom | int | var | comp => simp [cell] at hcell

theorem built_var {x : String} (hx : Spelling.isVar x = true) : Built (var x) :=
  .ofName (if_pos hx)

theorem prepend_of_shaped {head : Term} {rest : List Term} {b : Bool}
    (h : Shaped (list head rest tail b)) : prepend (head :: rest) tail = list head rest tail b := by
  rw [prepend_of_isChain_eq_false h.1, chain, ← h.2]

/-- Every term of the right representation is made by the constructors. -/
theorem built_of_shaped (h : t.Everywhere Shaped) : Built t := by
  induction t with
  | atom name => exact .atom name
  | int n => exact .int h
  | var x => exact built_var h
  | comp f args b ih =>
    obtain ⟨rfl, hargs⟩ := h
    exact .apply f fun u hu => ih u hu (everywhereAll_iff.1 hargs u hu)
  | list head rest tail b ihead irest itail =>
    obtain ⟨hlist, hhead, hrest, htail⟩ := h
    rw [← prepend_of_shaped hlist]
    refine .prepend (List.forall_mem_cons.2 ⟨ihead hhead, fun u hu => ?_⟩) (itail htail)
    exact irest u hu (everywhereAll_iff.1 hrest u hu)

theorem built_iff_shaped : Built t ↔ t.Everywhere Shaped := ⟨Built.shaped, built_of_shaped⟩

/-- The terms directly below a term that the constructors make are such terms again. -/
theorem Built.of_mem_children {u : Term} (ht : t.Built) (hu : u ∈ t.children) : u.Built := by
  cases t with
  | atom | int | var => simp [Term.children] at hu
  | comp f args b => exact built_of_shaped (everywhereAll_iff.1 ht.shaped.2 u hu)
  | list head rest tail b =>
    have hcell : (list head rest tail b).cell = .ok (head, afterCells 1 head rest tail b) := rfl
    rw [Term.children, List.mem_cons, List.mem_singleton] at hu
    rcases hu with rfl | rfl
    · exact ht.cellHead hcell
    · exact ht.cellTail hcell

instance : DecidablePred Shaped
  | atom _ => isTrue trivial
  | int n => inferInstanceAs (Decidable (Decimal.Fits n))
  | var x => inferInstanceAs (Decidable (Spelling.isVar x = true))
  | comp _ args b => inferInstanceAs (Decidable (b = args.any hasVar))
  | list head rest tail b =>
    inferInstanceAs (Decidable (tail.isChain = false ∧
      b = ((head :: rest).any hasVar || tail.hasVar)))

mutual

/-- Whether a property holds everywhere in a term can be decided if the property can be. -/
def decEverywhere [DecidablePred p] : (t : Term) → Decidable (t.Everywhere p)
  | atom name => inferInstanceAs (Decidable (p (atom name)))
  | int n => inferInstanceAs (Decidable (p (int n)))
  | var x => inferInstanceAs (Decidable (p (var x)))
  | comp f args b =>
    have := decEverywhereAll args
    inferInstanceAs (Decidable (p (comp f args b) ∧ EverywhereAll p args))
  | list head rest tail b =>
    have := decEverywhere head
    have := decEverywhereAll rest
    have := decEverywhere tail
    inferInstanceAs (Decidable (p (list head rest tail b) ∧ head.Everywhere p ∧
      EverywhereAll p rest ∧ tail.Everywhere p))

/-- Whether a property holds everywhere in several terms can be decided likewise. -/
def decEverywhereAll [DecidablePred p] : (ts : List Term) → Decidable (EverywhereAll p ts)
  | [] => isTrue trivial
  | t :: ts =>
    have := decEverywhere t
    have := decEverywhereAll ts
    inferInstanceAs (Decidable (t.Everywhere p ∧ EverywhereAll p ts))

end

instance : DecidablePred Built := fun t =>
  have := decEverywhere (p := Shaped) t
  decidable_of_iff _ built_iff_shaped.symm

/-- What a term remembers about its variables is right if it is as the constructors make it. -/
theorem faithful_of_shaped (h : t.Everywhere Shaped) : t.Faithful := by
  induction t with
  | atom | int | var => trivial
  | comp f args b ih =>
    obtain ⟨rfl, hargs⟩ := h
    exact faithful_apply f fun u hu => ih u hu (everywhereAll_iff.1 hargs u hu)
  | list head rest tail b ihead irest itail =>
    obtain ⟨⟨-, rfl⟩, hhead, hrest, htail⟩ := h
    refine faithful_chain (ihead hhead) (fun u hu => ?_) (itail htail)
    exact irest u hu (everywhereAll_iff.1 hrest u hu)

theorem Built.faithful (h : Built t) : t.Faithful := faithful_of_shaped h.shaped

/-! ### Reading what is written -/

theorem unquoted_quoted (name : String) : unquoted ("'" ++ name ++ "'") = some name := by
  have hchars : ("'" ++ name ++ "'").toList = '\'' :: (name.toList ++ ['\'']) := by simp
  have hname : String.ofList name.toList = name := String.ofList_toList
  unfold unquoted
  rw [hchars]
  cases hcs : name.toList with
  | nil =>
    rw [hcs] at hname
    rw [← hname]
    rfl
  | cons c cs =>
    rw [hcs] at hname
    have hlast : (c :: (cs ++ ['\''])).getLast (List.cons_ne_nil _ _) = '\'' := by simp
    have hinit : (c :: (cs ++ ['\''])).dropLast = c :: cs := by
      rw [← List.cons_append, List.dropLast_concat]
    show (if (c :: (cs ++ ['\''])).getLast _ = '\'' then
      some (String.ofList (c :: (cs ++ ['\''])).dropLast) else none) = _
    rw [if_pos hlast, hinit, hname]

/-- The name of a variable does not begin with a quote. -/
theorem ofString_of_isVar {x : String} (hx : Spelling.isVar x = true) : ofString x = var x := by
  have hquote : unquoted x = none := by
    unfold unquoted
    split
    next c cs hchars =>
      rw [Spelling.isVar, hchars, Spelling.isVarName, Bool.and_eq_true] at hx
      exact absurd hx.1 (by decide)
    next => rfl
  rw [ofString, hquote]
  exact if_pos hx

theorem ofJsons_toJsons (h : ∀ t ∈ ts, ofJson t.toJson = .ok t) :
    ofJsons (toJsons ts) = .ok ts := by
  induction ts with
  | nil => rfl
  | cons t ts ih =>
    rw [List.forall_mem_cons] at h
    rw [toJsons, ofJsons, h.1, ih h.2]

theorem toJsons_append (ts us : List Term) : toJsons (ts ++ us) = toJsons ts ++ toJsons us := by
  induction ts with
  | nil => rfl
  | cons t ts ih => rw [List.cons_append, toJsons, toJsons, ih, List.cons_append]

theorem isNil_iff : t.isNil = true ↔ t = nil := by
  cases t with
  | atom name => simp [isNil, nil]
  | int | var | comp | list => simp [isNil, nil]

/-- A term is read back from what is written for it. -/
theorem ofJson_toJson (hshaped : t.Everywhere Shaped) (hbar : t.Everywhere NoBar) :
    ofJson t.toJson = .ok t := by
  induction t with
  | atom name =>
    rw [toJson, ofJson, ofString, unquoted_quoted]
  | int n =>
    rw [toJson, ofJson, ofNumber, Decimal.parse_text hshaped]
  | var x =>
    rw [toJson, ofJson, ofString_of_isVar hshaped]
  | comp f args b ih =>
    obtain ⟨hb, hargs⟩ := hshaped
    obtain ⟨hf, hbars⟩ := hbar
    rw [everywhereAll_iff] at hargs hbars
    have hall := ofJsons_toJsons fun t ht => ih t ht (hargs t ht) (hbars t ht)
    rw [toJson, ofJson, hall]
    refine ofEntry_eq_ok_iff.2 (Or.inl ⟨hf, ?_⟩)
    rw [Term.apply, ← hb]
  | list head rest tail b ihead irest itail =>
    obtain ⟨hlist, hhead, hrest, htail⟩ := hshaped
    obtain ⟨-, hbar, hbars, hbar'⟩ := hbar
    rw [everywhereAll_iff] at hrest hbars
    have hread : ∀ t ∈ head :: rest, ofJson t.toJson = .ok t :=
      List.forall_mem_cons.2 ⟨ihead hhead hbar, fun t ht => irest t ht (hrest t ht) (hbars t ht)⟩
    rw [toJson]
    split
    next hnil =>
      obtain rfl := isNil_iff.1 hnil
      have hall := ofJsons_toJsons hread
      rw [ofJson, ← toJsons, hall]
      exact congrArg Except.ok (prepend_of_shaped hlist)
    next =>
      have hall : ofJsons (toJsons ((head :: rest) ++ [tail])) =
          .ok ((head :: rest) ++ [tail]) := by
        refine ofJsons_toJsons fun t ht => ?_
        rcases List.mem_append.1 ht with ht | ht
        · exact hread t ht
        · rw [List.mem_singleton.1 ht]
          exact itail htail hbar'
      have hitems : head.toJson :: (toJsons rest ++ [tail.toJson]) =
          toJsons ((head :: rest) ++ [tail]) := (toJsons_append (head :: rest) [tail]).symm
      rw [hitems, ofJson, hall]
      refine ofEntry_eq_ok_iff.2 (Or.inr ⟨rfl, _, _, List.cons_ne_nil _ _, rfl, ?_⟩)
      exact (prepend_of_shaped hlist).symm

/-! ### What is read -/

theorem built_ofString (s : String) : Built (ofString s) := by
  unfold ofString
  split
  next name _ => exact .atom name
  next =>
    split
    next hx => exact .ofName (if_pos hx)
    next => exact .atom s

/-- A term that is read is one that the constructors make. -/
theorem built_ofJson {v : Json} (h : ofJson v = .ok t) : Built t := by
  refine ofJson_induction (motive := fun _ t => Built t) built_ofString ?_ ?_ ?_ h
  · intro text n hn
    exact .int (Decimal.fits_of_ofChars (Decimal.parse_eq_ok_iff.1 hn))
  · intro items ts hts
    exact .prepend (forall_mem_of_forall₂ hts fun _ _ ht => ht) (.atom _)
  · intro f items ts t hts ht
    have hall := forall_mem_of_forall₂ hts fun _ _ ht => ht
    rcases ofEntry_eq_ok_iff.1 ht with ⟨-, rfl⟩ | ⟨-, us, u, -, rfl, rfl⟩
    · exact .apply f hall
    · exact .prepend (fun t ht => hall t (by simp [ht])) (hall u (by simp))

theorem noBar_prepend (hne : ts ≠ []) (tail : Term) : NoBar (prepend ts tail) := by
  obtain ⟨t, ts, rfl⟩ := List.exists_cons_of_ne_nil hne
  cases tail <;> trivial

/-- A term that is read has no compound with the functor `|`. -/
theorem barless_ofJson {v : Json} (h : ofJson v = .ok t) : t.Everywhere NoBar := by
  refine ofJson_induction (motive := fun _ t => t.Everywhere NoBar) ?_ ?_ ?_ ?_ h
  · intro s
    unfold ofString
    split
    next => trivial
    next => split <;> trivial
  · intro text n _
    trivial
  · intro items ts hts
    exact everywhere_prepend (forall_mem_of_forall₂ hts fun _ _ ht => ht) trivial fun hne =>
      noBar_prepend hne nil
  · intro f items ts t hts ht
    have hall := forall_mem_of_forall₂ hts fun _ _ ht => ht
    rcases ofEntry_eq_ok_iff.1 ht with ⟨hf, rfl⟩ | ⟨-, us, u, -, rfl, rfl⟩
    · exact ⟨hf, everywhereAll_iff.2 hall⟩
    · exact everywhere_prepend (fun t ht => hall t (by simp [ht])) (hall u (by simp)) fun hne =>
        noBar_prepend hne u

end Term

/-! ### Clauses -/

namespace Clause

variable {choice : Choice String}

/-- A clause is read back from what is written for it. -/
theorem ofJson_toJson {c : Clause} (hhead : Term.ofJson c.head.toJson = .ok c.head)
    (hbody : ∀ t ∈ c.body, Term.ofJson t.toJson = .ok t) :
    ofJson choice c.toJson = .ok c := by
  refine ofJson_eq_ok_iff.2 (Or.inl ⟨_, c.head.toJson, rfl, rfl, ofMembers_eq_ok_iff.2 ?_⟩)
  refine ⟨by simp, hhead, bodyOfJson_eq_ok_iff.2 (Or.inr ⟨_, rfl, ?_⟩)⟩
  exact Term.ofJsons_toJsons hbody

/-- What is written for a term has the key `head` only if that is its functor. -/
theorem lookup_head_toJson {t : Term} {members : List (String × Json)}
    (ht : ∀ args b, t ≠ .comp "head" args b) (h : t.toJson = .object members) :
    members.lookup "head" = none := by
  cases t with
  | atom | int | var => simp [Term.toJson] at h
  | comp f args b =>
    rw [Term.toJson] at h
    obtain rfl := Json.object.inj h
    have hf : "head" ≠ f := by
      rintro rfl
      exact ht args b rfl
    exact lookup_cons_of_ne hf _ _
  | list head rest tail b =>
    rw [Term.toJson] at h
    split at h
    next => simp at h
    next =>
      obtain rfl := Json.object.inj h
      rfl

/-- A term is read back as a clause without goals, unless its functor makes it look like another
clause. -/
theorem ofJson_term_iff {t : Term} (hread : Term.ofJson t.toJson = .ok t) :
    ofJson choice t.toJson = .ok ⟨t, []⟩ ↔ ∀ args b, t ≠ .comp "head" args b := by
  constructor
  · rintro h args b rfl
    -- The arguments are read as a list, and a list is no compound.
    have hmembers : ofMembers choice (.array (Term.toJsons args))
        [("head", .array (Term.toJsons args))] = .ok ⟨.comp "head" args b, []⟩ := h
    obtain ⟨-, hhead, -⟩ := ofMembers_eq_ok_iff.1 hmembers
    obtain ⟨ts, -, hcomp⟩ := Term.ofJson_array_eq_ok hhead
    cases ts <;> simp [Term.ofList, Term.prepend, Term.nil, Term.chain] at hcomp
  · intro ht
    exact ofJson_eq_ok_iff.2 (Or.inr ⟨fun _ h => lookup_head_toJson ht h,
      factOfJson_eq_ok_iff.2 ⟨hread, rfl⟩⟩)

end Clause

/-- A term is read back from what is written for it if and only if it has no compound with the
functor `|`, and this holds of all terms that are read.  Clauses of such terms are read back as
well, whatever is chosen, and such a term is read back as a clause without goals if and only if its
functor is not `head`. -/
theorem Term.json_round_trip (choice : Choice String) :
    (∀ t : Term, t.Built → (ofJson t.toJson = .ok t ↔ t.Everywhere NoBar)) ∧
      (∀ (v : Json) (t : Term), ofJson v = .ok t →
        t.Built ∧ t.Everywhere NoBar ∧ ofJson t.toJson = .ok t) ∧
      (∀ c : Clause, (∀ t ∈ c.head :: c.body, t.Built ∧ t.Everywhere NoBar) →
        Clause.ofJson choice c.toJson = .ok c) ∧
      ∀ t : Term, t.Built → t.Everywhere NoBar →
        (Clause.ofJson choice t.toJson = .ok ⟨t, []⟩ ↔ ∀ args b, t ≠ .comp "head" args b) := by
  have hterm : ∀ t : Term, t.Built → t.Everywhere NoBar → ofJson t.toJson = .ok t := by
    intro t hbuilt hbar
    exact ofJson_toJson hbuilt.shaped hbar
  refine ⟨?_, ?_, ?_, ?_⟩
  · intro t hbuilt
    exact ⟨barless_ofJson, hterm t hbuilt⟩
  · intro v t h
    have hbuilt := built_ofJson h
    have hbar := barless_ofJson h
    exact ⟨hbuilt, hbar, hterm t hbuilt hbar⟩
  · intro c hc
    obtain ⟨⟨hbuilt, hbar⟩, hbody⟩ := List.forall_mem_cons.1 hc
    refine Clause.ofJson_toJson (hterm _ hbuilt hbar) fun t ht => ?_
    exact hterm t (hbody t ht).1 (hbody t ht).2
  · intro t hbuilt hbar
    exact Clause.ofJson_term_iff (hterm t hbuilt hbar)

/-- The term `head(-5, ['it''s', X | T])`. -/
def quotedTerm : Term := .apply "head" [.int (-5), .prepend [.atom "it's", .var "X"] (.var "T")]

/-- The term is read back as a term and as the head of a clause, but not as a clause. -/
theorem json_round_trip_quoted :
    quotedTerm.Built ∧ Term.ofJson quotedTerm.toJson = .ok quotedTerm ∧
      Clause.ofJson .first (Clause.toJson ⟨quotedTerm, [.var "X"]⟩) =
        .ok ⟨quotedTerm, [.var "X"]⟩ ∧
      Clause.ofJson .first quotedTerm.toJson ≠ .ok ⟨quotedTerm, []⟩ := by
  obtain ⟨hterm, -, hclause, hfact⟩ := Term.json_round_trip .first
  have hX := Term.built_var (x := "X") (by decide)
  have hT := Term.built_var (x := "T") (by decide)
  have hbuilt : quotedTerm.Built := by
    refine .apply _ (List.forall_mem_cons.2 ⟨.int (by decide), ?_⟩)
    refine List.forall_mem_singleton.2 (.prepend ?_ hT)
    exact List.forall_mem_cons.2 ⟨.atom _, List.forall_mem_singleton.2 hX⟩
  have hbar : quotedTerm.Everywhere Term.NoBar := by
    simp [quotedTerm, Term.apply, Term.prepend, Term.chain, Term.Everywhere, Term.EverywhereAll,
      Term.NoBar]
  refine ⟨hbuilt, (hterm _ hbuilt).2 hbar, hclause _ ?_, ?_⟩
  · exact List.forall_mem_cons.2 ⟨⟨hbuilt, hbar⟩, List.forall_mem_singleton.2 ⟨hX, trivial⟩⟩
  · intro h
    exact (hfact _ hbuilt hbar).1 h _ _ rfl

end ClauseCode
