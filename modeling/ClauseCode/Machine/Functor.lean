import ClauseCode.Text.Decimal
import ClauseCode.Text.Spelling

/-!
# Functors

A functor is a name with an arity.  Its call kind says how a call to it is resolved: some functors
are compiled in place, some are built into the machine, `call` with at least one argument calls
its argument, and all others name the predicates of a program.
-/

namespace ClauseCode

/-- A name with an arity. -/
structure Functor where
  /-- The name. -/
  name : String
  /-- The number of arguments. -/
  arity : Int
  deriving DecidableEq, Repr

/-- How a call is resolved. -/
inductive CallKind where
  | named
  | builtin
  | inlined
  | callN
  deriving DecidableEq, Repr

namespace CallKind

/-- The text of a call kind. -/
def text : CallKind → String
  | named => "named"
  | builtin => "builtin"
  | inlined => "inlined"
  | callN => "call_n"

/-- The call kinds, in the order of their numbers. -/
def all : List CallKind := [named, builtin, inlined, callN]

/-- The text of the call kind with a given number. -/
def textOfNumber (n : Int) : String :=
  if n < 0 then unknown else
    match all[n.toNat]? with
    | some k => k.text
    | none => unknown
where
  /-- The text of a number without a call kind. -/
  unknown : String := "CallKind(" ++ Decimal.text n ++ ")"

end CallKind

/-- A name with the kind of the calls to it. -/
structure Symbol where
  /-- The name. -/
  name : String
  /-- How calls to it are resolved. -/
  kind : CallKind
  deriving DecidableEq, Repr

/-- The text of a symbol: its name, spelled as an atom. -/
def Symbol.text (s : Symbol) : String := Spelling.atom s.name

namespace Functor

/-- The text of a functor. -/
def text (f : Functor) : String := f.name ++ "/" ++ Decimal.text f.arity

/-- The functors that are compiled in place. -/
def inlined : List Functor :=
  [⟨"!", 0⟩, ⟨"fail", 0⟩, ⟨"false", 0⟩, ⟨"@<", 2⟩, ⟨"@=<", 2⟩, ⟨"@>=", 2⟩, ⟨"@>", 2⟩, ⟨"==", 2⟩,
    ⟨"\\==", 2⟩]

/-- The functors that are built into the machine. -/
def builtin : List Functor :=
  [⟨"=", 2⟩, ⟨"\\=", 2⟩, ⟨"is", 2⟩, ⟨"var", 1⟩, ⟨"nonvar", 1⟩, ⟨"atom", 1⟩, ⟨"integer", 1⟩,
    ⟨"compound", 1⟩]

/-- How calls to a functor are resolved. -/
def kind (f : Functor) : CallKind :=
  if inlined.contains f then .inlined
  else if builtin.contains f then .builtin
  else if f.name = "call" && 1 ≤ f.arity then .callN
  else .named

/-- The symbol of a functor. -/
def symbol (f : Functor) : Symbol := ⟨f.name, f.kind⟩

/-! ### Reading functors -/

/-- Why a text is no functor. -/
inductive ParseError where
  | badForm (source : String)
  | badArity (source : String) (error : Decimal.Error)
  deriving DecidableEq, Repr

/-- The message for a text that is no functor. -/
def ParseError.message : ParseError → String
  | badForm s => Quoted.text s ++ " doesn't match a functor pattern"
  | badArity s e => "invalid arity for functor " ++ Quoted.text s ++ ": " ++ e.message

/-- The messages of what brought an error about. -/
def ParseError.causes : ParseError → List String
  | badForm _ => []
  | badArity _ e => [e.message]

/-- The parts of a text before and after its last slash. -/
def splitLastSlash (cs : List Char) : Option (List Char × List Char) :=
  let back := cs.reverse
  match back.dropWhile (· ≠ '/') with
  | [] => none
  | _ :: name => some (name.reverse, (back.takeWhile (· ≠ '/')).reverse)

/-- Reads a functor: a name without newline, a slash, and digits. -/
def parse (s : String) : Except ParseError Functor :=
  match splitLastSlash s.toList with
  | none => .error (.badForm s)
  | some (name, digits) =>
    if name.isEmpty || name.contains '\n' || digits.isEmpty || !digits.all Decimal.isDigit then
      .error (.badForm s)
    else
      match Decimal.parse (String.ofList digits) with
      | .error e => .error (.badArity s e)
      | .ok n => .ok ⟨String.ofList name, n⟩

/-- Reads a functor from a byte text: its name, which may be any bytes, and its arity.  All that the
form of a functor depends on is in ASCII, and so the bytes are read as characters. -/
def parseBytes (bs : List UInt8) : Option (List UInt8 × Int) :=
  match parse (String.ofList (bs.map byteChar)) with
  | .error _ => none
  | .ok f => some (f.name.toList.map (·.toUInt8), f.arity)

end Functor

end ClauseCode
