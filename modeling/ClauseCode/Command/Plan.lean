import ClauseCode.Command.Flags
import ClauseCode.Command.Outcome

/-!
# Command lines

The words of a command line name one of two commands: `compile`, which takes files, and `repl`,
which takes none.  The flag for a verbose log belongs to both and may also stand before the name.
-/

namespace ClauseCode.Command

/-- The name of the program. -/
def programName : String := "wamc"

/-- The flag that asks for the log. -/
def verboseFlag : Flag := ⟨"verbose", 'v', true⟩

/-- The flag that asks for help. -/
def helpFlag : Flag := ⟨"help", 'h', true⟩

/-- The flag that chooses the output format. -/
def formatFlag : Flag := ⟨"format", 'f', false⟩

/-- What a command line asks for. -/
inductive Plan where
  /-- Nothing but help. -/
  | help
  | compile (verbose : Bool) (format : String) (files : List String)
  | repl (verbose : Bool)
  deriving DecidableEq, Repr

/-- Reads the words after the name of a command. -/
def readFlags (flags : List Flag) (words : List String)
    (next : Flag.Settings → List String → Except String Plan) : Except String Plan :=
  match Flag.read (verboseFlag :: helpFlag :: flags) words with
  | .error e => .error e.message
  | .ok (settings, others) =>
    if helpFlag.isOn settings then .ok .help else next settings others

/-- The message for a word that is no command. -/
def unknownCommand (word path : String) : String :=
  "unknown command " ++ Quoted.text word ++ " for " ++ Quoted.text path

/-- Reads a command line. -/
def Plan.ofWords (words : List String) : Except String Plan :=
  match Flag.plainWords [verboseFlag] false words with
  | [] => readFlags [] words fun _ _ => .ok .help
  | name :: _ =>
    let words := Flag.dropWord [verboseFlag] name false words
    if name = "compile" then
      readFlags [formatFlag] words fun settings files =>
        .ok (.compile (verboseFlag.isOn settings) ((formatFlag.value? settings).getD "text") files)
    else if name = "repl" then
      readFlags [] words fun settings others =>
        match others with
        | [] => .ok (.repl (verboseFlag.isOn settings))
        | word :: _ => .error (unknownCommand word (programName ++ " " ++ name))
    else .error (unknownCommand name programName)

/-- Whether the log is wanted. -/
def Plan.verbose : Plan → Bool
  | help => false
  | compile v _ _ => v
  | repl v => v

/-- The files to read. -/
def Plan.files : Plan → List String
  | compile _ _ files => files
  | _ => []

/-- Does what a command line asks for, given the files it names and the standard input. -/
def Plan.run (p : Plan) (choices : Nat → Choice String) (files : List File) (stdin : Json.Input) :
    Outcome :=
  match p with
  | .help => ⟨[], [], none, false⟩
  | .compile _ format _ => Command.compile (choices 0) format files stdin
  | .repl _ => Command.repl choices stdin

end ClauseCode.Command
