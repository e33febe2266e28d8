import ClauseCode.Text.Quoted

/-!
# JSON values

Numbers keep the text they were written with.  The keys of an object are pairwise distinct; its
members are in the order in which their keys were first written.

In the text of a value, strings escape the quote, the backslash, the control characters, and the
five characters that are unsafe within a web page.  Values are written on one line without spaces,
or with one item on each line and two spaces of indentation for each level.
-/

namespace ClauseCode

/-- A JSON value. -/
inductive Json where
  | null
  | bool (value : Bool)
  | number (text : String)
  | string (text : String)
  | array (items : List Json)
  | object (members : List (String × Json))
  deriving Repr

namespace Json

/-- The name that messages give to the kind of a value. -/
def kindName : Json → String
  | null => "<nil>"
  | bool _ => "bool"
  | number _ => "json.Number"
  | string _ => "string"
  | array _ => "[]interface \x7b\x7d"
  | object _ => "map[string]interface \x7b\x7d"

/-- Gives a key a value: in its place if it is there, before all others if it is not. -/
def setMember (key : String) (value : Json) (members : List (String × Json)) :
    List (String × Json) :=
  if members.any (fun m => m.1 = key) then
    members.map fun m => if m.1 = key then (key, value) else m
  else (key, value) :: members

/-! ### Writing -/

/-- A character within a JSON string. -/
def escapeChar (c : Char) : List Char :=
  if c = '"' || c = '\\' then ['\\', c]
  else if c = '\x08' then ['\\', 'b']
  else if c = '\x0c' then ['\\', 'f']
  else if c = '\n' then ['\\', 'n']
  else if c = '\r' then ['\\', 'r']
  else if c = '\t' then ['\\', 't']
  else if c.toNat < 0x20 || c = '<' || c = '>' || c = '&' || c = '\u2028' || c = '\u2029' then
    '\\' :: 'u' :: Quoted.hex 4 c.toNat
  else [c]

/-- A JSON string. -/
def stringText (s : String) : String :=
  String.ofList ('"' :: (s.toList.flatMap escapeChar ++ ['"']))

/-- The text between the brackets of an array or an object, with each item on a line of its own. -/
def block (opening closing indent : String) : List String → String
  | [] => opening ++ closing
  | items =>
    opening ++ "\n" ++ indent ++ "  " ++ String.intercalate (",\n" ++ indent ++ "  ") items ++
      "\n" ++ indent ++ closing

mutual

/-- A value on one line. -/
def compact : Json → String
  | null => "null"
  | bool b => if b then "true" else "false"
  | number text => text
  | string s => stringText s
  | array items => "[" ++ String.intercalate "," (compactItems items) ++ "]"
  | object members => "\x7b" ++ String.intercalate "," (compactMembers members) ++ "\x7d"

/-- The elements of an array. -/
def compactItems : List Json → List String
  | [] => []
  | v :: vs => compact v :: compactItems vs

/-- The members of an object. -/
def compactMembers : List (String × Json) → List String
  | [] => []
  | (k, v) :: ms => (stringText k ++ ":" ++ compact v) :: compactMembers ms

end

mutual

/-- A value with its items on lines of their own, which start with `indent`. -/
def indented (indent : String) : Json → String
  | null => "null"
  | bool b => if b then "true" else "false"
  | number text => text
  | string s => stringText s
  | array items => block "[" "]" indent (indentedItems (indent ++ "  ") items)
  | object members => block "\x7b" "\x7d" indent (indentedMembers (indent ++ "  ") members)

/-- The elements of an array. -/
def indentedItems (indent : String) : List Json → List String
  | [] => []
  | v :: vs => indented indent v :: indentedItems indent vs

/-- The members of an object. -/
def indentedMembers (indent : String) : List (String × Json) → List String
  | [] => []
  | (k, v) :: ms => (stringText k ++ ": " ++ indented indent v) :: indentedMembers indent ms

end

end Json

end ClauseCode
