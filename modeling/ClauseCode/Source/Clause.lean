import ClauseCode.Clause
import ClauseCode.Json.Scan
import ClauseCode.Source.Term
import ClauseCode.Text.Lines

/-!
# Clauses in JSON

A clause is an object with the key `head`, perhaps the key `body`, and no other; any other value
is a term and stands for a clause without goals.  A program is a stream of such values with
nothing between them but white space.

The keys of an object come in no order.  If several of them are not expected, then the error names
the one that is come upon first, and each time that a clause is read this may be another one: it is
left to a `Choice`.  Nothing is read after an error, so that one choice is enough for a program.
-/

namespace ClauseCode

namespace Clause

/-- Why a JSON value is no clause. -/
inductive FormError where
  | term (error : Term.FormError)
  /-- A key other than `head` and `body`. -/
  | unexpectedKey (key : String)
  | head (error : Term.FormError)
  /-- A body that is no array. -/
  | bodyKind (value : Json)
  | body (error : Term.FormError)
  deriving Repr

/-- The message for a value that is no clause. -/
def FormError.message : FormError → String
  | term e => e.message
  | unexpectedKey key =>
    "unexpected key " ++ Quoted.text key ++ " in clause, want only \"head\" and \"body\""
  | head e => "head: " ++ e.message
  | bodyKind v => "body must be an array, got " ++ v.kindName
  | body e => "body: " ++ e.message

/-- The messages of what brought an error about, the nearest first. -/
def FormError.causes : FormError → List String
  | term e => e.causes
  | unexpectedKey _ => []
  | head e => e.message :: e.causes
  | bodyKind _ => []
  | body e => e.message :: e.causes

/-- The clause without goals that a JSON value stands for. -/
def factOfJson (v : Json) : Except FormError Clause :=
  match Term.ofJson v with
  | .ok t => .ok ⟨t, []⟩
  | .error e => .error (.term e)

/-- The goals that the value of the key `body` stands for. -/
def bodyOfJson : Option Json → Except FormError (List Term)
  | none => .ok []
  | some (.array items) =>
    match Term.ofJsons items with
    | .ok ts => .ok ts
    | .error e => .error (.body e)
  | some v => .error (.bodyKind v)

/-- The keys of an object that are not expected in a clause. -/
def unexpectedKeys (members : List (String × Json)) : List String :=
  (members.map Prod.fst).filter fun key => key ≠ "head" && key ≠ "body"

/-- The clause that an object with the key `head` stands for. -/
def ofMembers (choice : Choice String) (head : Json) (members : List (String × Json)) :
    Except FormError Clause :=
  match unexpectedKeys members with
  | key :: keys => .error (.unexpectedKey (choice key keys))
  | [] =>
    match Term.ofJson head with
    | .error e => .error (.head e)
    | .ok h =>
      match bodyOfJson (members.lookup "body") with
      | .error e => .error e
      | .ok b => .ok ⟨h, b⟩

/-- The clause that a JSON value stands for. -/
def ofJson (choice : Choice String) (v : Json) : Except FormError Clause :=
  match v with
  | .object members =>
    match members.lookup "head" with
    | some head => ofMembers choice head members
    | none => factOfJson v
  | _ => factOfJson v

/-- A clause as a JSON value. -/
def toJson (c : Clause) : Json :=
  .object [("head", c.head.toJson), ("body", .array (Term.toJsons c.body))]

end Clause

/-! ### Programs -/

namespace Source

/-- Why an input is no program, or not what was asked for. -/
inductive Error where
  /-- A term was asked for, and there is no value. -/
  | noTerm
  /-- A term was asked for, and the first value is malformed. -/
  | malformedTerm (error : Json.ReadError)
  /-- The first value is no term. -/
  | badTerm (error : Term.FormError)
  /-- The `n`-th value is malformed. -/
  | malformed (n : Nat) (error : Json.ReadError)
  /-- The `n`-th value is no clause. -/
  | badClause (n : Nat) (error : Clause.FormError)
  /-- One clause was asked for. -/
  | notOne (n : Nat)
  deriving Repr

/-- The message for an input that is not what was asked for. -/
def Error.message : Error → String
  | noTerm => "decode term: EOF"
  | malformedTerm e => "decode term: " ++ e.message
  | badTerm e => e.message
  | malformed n e => "decode clause #" ++ Decimal.text n ++ ": " ++ e.message
  | badClause n e => "clause #" ++ Decimal.text n ++ ": " ++ e.message
  | notOne n => "expected 1 clause, got " ++ Decimal.text n

/-- The messages of what brought an error about, the nearest first. -/
def Error.causes : Error → List String
  | noTerm => ["EOF"]
  | malformedTerm e => [e.message]
  | badTerm e => e.causes
  | malformed _ e => [e.message]
  | badClause _ e => e.message :: e.causes
  | notOne _ => []

/-- The term that an input begins with; what follows it does not matter. -/
def term (bytes : List UInt8) : Except Error Term :=
  match Json.readAll ⟨bytes, .eof⟩ with
  | (v :: _, _) =>
    match Term.ofJson v with
    | .ok t => .ok t
    | .error e => .error (.badTerm e)
  | ([], some e) => .error (.malformedTerm e)
  | ([], none) => .error .noTerm

/-- The clauses that values stand for, where `n` values come before them and `stop` comes after
them. -/
def clausesFrom (choice : Choice String) (n : Nat) (stop : Option Json.ReadError) :
    List Json → Except Error (List Clause)
  | [] =>
    match stop with
    | none => .ok []
    | some e => .error (.malformed (n + 1) e)
  | v :: vs =>
    match Clause.ofJson choice v with
    | .error e => .error (.badClause (n + 1) e)
    | .ok c =>
      match clausesFrom choice (n + 1) stop vs with
      | .error e => .error e
      | .ok cs => .ok (c :: cs)

/-- The clauses of an input. -/
def clauses (choice : Choice String) (input : Json.Input) : Except Error (List Clause) :=
  clausesFrom choice 0 (Json.readAll input).2 (Json.readAll input).1

/-- The only clause of an input. -/
def clause (choice : Choice String) (bytes : List UInt8) : Except Error Clause :=
  match clauses choice ⟨bytes, .eof⟩ with
  | .error e => .error e
  | .ok [c] => .ok c
  | .ok cs => .error (.notOne cs.length)

end Source

end ClauseCode
