import ClauseCode.Json.Basic
import ClauseCode.Term.Basic

/-!
# Terms in JSON

Programs are written in JSON.  A string is a variable if it has the name of one and an atom
otherwise, and single quotes around it force an atom; a number is an integer; an array is a list;
an object with a single key is a compound, and with the key `|` a list whose last element is its
tail.

`Term.ofJson` reads this form and `Term.toJson` writes it.
-/

namespace ClauseCode.Term

/-- Why a JSON value is no term. -/
inductive FormError where
  /-- A number that is no integer of 64 bits. -/
  | badInt (error : Decimal.Error)
  /-- An object with a number of keys other than one. -/
  | keyCount (n : Nat)
  /-- An object whose value is no array. -/
  | argsKind (functor : String) (value : Json)
  /-- A list with a tail but without both a head and a tail. -/
  | shortList (n : Nat)
  /-- A value of a kind that stands for no term. -/
  | noTerm (value : Json)
  deriving Repr

/-- The text of a value that stands for no term. -/
def FormError.valueText : Json → String
  | .null => "<nil>"
  | v => v.compact

/-- The message for a value that is no term. -/
def FormError.message : FormError → String
  | badInt e => "invalid int " ++ e.source ++ ": " ++ e.message
  | keyCount n => "compound object must have a single key, got " ++ Decimal.text n
  | argsKind functor v =>
    "args of " ++ Quoted.text functor ++ " must be an array, got " ++ v.kindName
  | shortList n =>
    "incomplete list needs at least a head and a tail, got " ++ Decimal.text n ++ " terms"
  | noTerm v => "unexpected JSON value " ++ valueText v ++ " (" ++ v.kindName ++ ")"

/-- The messages of what brought an error about. -/
def FormError.causes : FormError → List String
  | badInt e => [e.message]
  | _ => []

/-- The text between single quotes at its two ends. -/
def unquoted (s : String) : Option String :=
  match s.toList with
  | '\'' :: c :: cs =>
    if (c :: cs).getLast (List.cons_ne_nil c cs) = '\'' then
      some (String.ofList (c :: cs).dropLast)
    else none
  | _ => none

/-- The term that a string stands for. -/
def ofString (s : String) : Term :=
  match unquoted s with
  | some name => atom name
  | none => if Spelling.isVar s then var s else atom s

/-- The term that a number stands for. -/
def ofNumber (text : String) : Except FormError Term :=
  match Decimal.parse text with
  | .ok n => .ok (int n)
  | .error e => .error (.badInt e)

/-- The term that an object with a single key stands for. -/
def ofEntry (functor : String) (args : List Term) : Except FormError Term :=
  if functor ≠ "|" then .ok (apply functor args)
  else
    match args with
    | t :: u :: ts =>
      .ok (prepend (t :: u :: ts).dropLast ((t :: u :: ts).getLast (List.cons_ne_nil _ _)))
    | _ => .error (.shortList args.length)

mutual

/-- The term that a JSON value stands for. -/
def ofJson : Json → Except FormError Term
  | .string s => .ok (ofString s)
  | .number text => ofNumber text
  | .array items =>
    match ofJsons items with
    | .ok ts => .ok (ofList ts)
    | .error e => .error e
  | .object [(functor, .array items)] =>
    match ofJsons items with
    | .ok ts => ofEntry functor ts
    | .error e => .error e
  | .object [(functor, v)] => .error (.argsKind functor v)
  | .object members => .error (.keyCount members.length)
  | v => .error (.noTerm v)

/-- The terms that several JSON values stand for. -/
def ofJsons : List Json → Except FormError (List Term)
  | [] => .ok []
  | v :: vs =>
    match ofJson v with
    | .error e => .error e
    | .ok t =>
      match ofJsons vs with
      | .error e => .error e
      | .ok ts => .ok (t :: ts)

end

mutual

/-- A term as a JSON value.  Atoms are always quoted. -/
def toJson : Term → Json
  | atom name => .string ("'" ++ name ++ "'")
  | int n => .number (Decimal.text n)
  | var x => .string x
  | comp functor args _ => .object [(functor, .array (toJsons args))]
  | list head rest tail _ =>
    if tail.isNil then .array (head.toJson :: toJsons rest)
    else .object [("|", .array (head.toJson :: (toJsons rest ++ [tail.toJson])))]

/-- Several terms as JSON values. -/
def toJsons : List Term → List Json
  | [] => []
  | t :: ts => t.toJson :: toJsons ts

end

end ClauseCode.Term
