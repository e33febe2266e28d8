import ClauseCode.Text.Quoted

/-!
# Flags

A flag has a long name, written after two dashes, and a short one, a letter after one dash.  A
switch is turned on by its name alone and may be given a truth value after an equals sign; any
other flag needs a value, after an equals sign or as the next word.  Letters can be put together
after one dash.  Flags may stand between other words, `--` ends them, and the last setting of a
flag counts.
-/

namespace ClauseCode

/-- A flag of a command. -/
structure Flag where
  /-- The long name. -/
  name : String
  /-- The letter. -/
  letter : Char
  /-- Whether the flag needs no value. -/
  isSwitch : Bool
  deriving DecidableEq, Repr

namespace Flag

/-- Why the words of a command line cannot be read. -/
inductive Error where
  | badForm (word : String)
  | unknownName (name : String)
  | unknownLetter (letter : Char) (group : String)
  | nameNeedsValue (word : String)
  | letterNeedsValue (letter : Char) (group : String)
  | badTruth (value : String) (flag : Flag)
  deriving DecidableEq, Repr

/-- The message for words that cannot be read. -/
def Error.message : Error → String
  | badForm word => "bad flag syntax: " ++ word
  | unknownName name => "unknown flag: --" ++ name
  | unknownLetter letter group =>
    "unknown shorthand flag: " ++ Quoted.char letter ++ " in -" ++ group
  | nameNeedsValue word => "flag needs an argument: " ++ word
  | letterNeedsValue letter group =>
    "flag needs an argument: " ++ Quoted.char letter ++ " in -" ++ group
  | badTruth value flag =>
    "invalid argument " ++ Quoted.text value ++ " for " ++
      Quoted.text ("-" ++ String.singleton flag.letter ++ ", --" ++ flag.name) ++
      " flag: strconv.ParseBool: parsing " ++ Quoted.text value ++ ": invalid syntax"

/-- The truth value of a word. -/
def truth (value : String) : Option Bool :=
  if ["1", "t", "T", "TRUE", "true", "True"].contains value then some true
  else if ["0", "f", "F", "FALSE", "false", "False"].contains value then some false
  else none

/-- Settings of flags, the last one first. -/
abbrev Settings := List (Flag × String)

/-- Sets a flag, with a truth value if it is a switch. -/
def set (flag : Flag) (value : String) (settings : Settings) : Except Error Settings :=
  if flag.isSwitch && (truth value).isNone then .error (.badTruth value flag)
  else .ok ((flag, value) :: settings)

/-- The parts of a text before and after its first equals sign. -/
def splitEquals (cs : List Char) : List Char × Option (List Char) :=
  match cs.dropWhile (· ≠ '=') with
  | [] => (cs, none)
  | _ :: value => (cs.takeWhile (· ≠ '='), some value)

/-- The letter that a message shows for a character: one beyond ASCII shows its first byte. -/
def shownLetter (c : Char) : Char :=
  match Glyph.charBytes c with
  | b :: _ => Char.ofNat b.toNat
  | [] => c

/-- A group of letters that is never looked at begins like this. -/
def isSkipped (cs : List Char) : Bool := "test.".toList.isPrefixOf cs

/-- Reads the letters after one dash, with the next word, and says whether that word is used up. -/
def readLetters (flags : List Flag) (nextWord : Option String) (settings : Settings) :
    List Char → Except Error (Settings × Bool)
  | [] => .ok (settings, false)
  | c :: cs =>
    if isSkipped (c :: cs) then .ok (settings, false)
    else
      match flags.find? (fun f => f.letter = c) with
      | none => .error (.unknownLetter (shownLetter c) (String.ofList (c :: cs)))
      | some flag =>
        match cs with
        | '=' :: v :: vs => do
          let settings ← flag.set (String.ofList (v :: vs)) settings
          return (settings, false)
        | _ =>
          if flag.isSwitch then
            match flag.set "true" settings with
            | .ok settings => readLetters flags nextWord settings cs
            | .error e => .error e
          else if !cs.isEmpty then do
            let settings ← flag.set (String.ofList cs) settings
            return (settings, false)
          else
            match nextWord with
            | some value => do
              let settings ← flag.set value settings
              return (settings, true)
            | none => .error (.letterNeedsValue (shownLetter c) (String.ofList (c :: cs)))

/-- Reads the name after two dashes, with the next word, and says whether that word is used up. -/
def readName (flags : List Flag) (nextWord : Option String) (settings : Settings) (cs : List Char) :
    Except Error (Settings × Bool) :=
  let word := "--" ++ String.ofList cs
  if cs.isEmpty || cs.head? = some '-' || cs.head? = some '=' then .error (.badForm word)
  else
    let (name, value) := splitEquals cs
    match flags.find? (fun f => f.name.toList = name) with
    | none => .error (.unknownName (String.ofList name))
    | some flag =>
      match value with
      | some value => do
        let settings ← flag.set (String.ofList value) settings
        return (settings, false)
      | none =>
        if flag.isSwitch then do
          let settings ← flag.set "true" settings
          return (settings, false)
        else
          match nextWord with
          | some value => do
            let settings ← flag.set value settings
            return (settings, true)
          | none => .error (.nameNeedsValue word)

/-- Reads one word, with the next one: a setting of flags and whether the next word is used up, or
no flag at all. -/
def readWord (flags : List Flag) (nextWord : Option String) (settings : Settings) (word : String) :
    Option (Except Error (Settings × Bool)) :=
  match word.toList with
  | '-' :: '-' :: cs => some (readName flags nextWord settings cs)
  | '-' :: c :: cs => some (readLetters flags nextWord settings (c :: cs))
  | _ => none

/-- Reads the words of a command line into settings and the words that are no flags, these in
reverse.  The first `skip` words belong to a flag before them. -/
def readWords (flags : List Flag) (settings : Settings) (others : List String) :
    (skip : Bool) → List String → Except Error (Settings × List String)
  | _, [] => .ok (settings, others.reverse)
  | true, _ :: words => readWords flags settings others false words
  | false, word :: words =>
    if word = "--" then .ok (settings, others.reverse ++ words)
    else
      match readWord flags words.head? settings word with
      | none => readWords flags settings (word :: others) false words
      | some (.error e) => .error e
      | some (.ok (settings, used)) => readWords flags settings others used words

/-- Reads the words of a command line into settings and the words that are no flags. -/
def read (flags : List Flag) (words : List String) : Except Error (Settings × List String) :=
  readWords flags [] [] false words

/-- The last value that a flag was given. -/
def value? (flag : Flag) (settings : Settings) : Option String := settings.lookup flag

/-- Whether a switch is on. -/
def isOn (flag : Flag) (settings : Settings) : Bool := (flag.value? settings).bind truth = some true

/-! ### Finding the name of a command among flags -/

/-- Whether a word is a flag that uses up the next word.  A flag that is not known is taken for
one. -/
def takesNext (flags : List Flag) (word : String) : Bool :=
  match word.toList with
  | '-' :: '-' :: cs =>
    !cs.contains '=' && !flags.any (fun f => f.isSwitch && f.name.toList = cs)
  | ['-', c] => c ≠ '=' && c.toNat < 0x80 && !flags.any (fun f => f.isSwitch && f.letter = c)
  | _ => false

/-- The words that are neither flags nor values of flags, as far as this can be told before the
command is known.  The word before the last one is not followed further if it uses up the next. -/
def plainWords (flags : List Flag) : (skip : Bool) → List String → List String
  | _, [] => []
  | true, _ :: words => plainWords flags false words
  | false, word :: words =>
    if word = "--" then []
    else if takesNext flags word then if words.length ≤ 1 then [] else plainWords flags true words
    else if word ≠ "" && !"-".toList.isPrefixOf word.toList then
      word :: plainWords flags false words
    else plainWords flags false words

/-- The words without the first occurrence of `name` that is neither a flag nor a value of a
flag. -/
def dropWord (flags : List Flag) (name : String) : (skip : Bool) → List String → List String
  | _, [] => []
  | true, word :: words => word :: dropWord flags name false words
  | false, word :: words =>
    if word = "--" then word :: words
    else if takesNext flags word then word :: dropWord flags name true words
    else if word = name && !"-".toList.isPrefixOf word.toList then words
    else word :: dropWord flags name false words

end Flag

end ClauseCode
