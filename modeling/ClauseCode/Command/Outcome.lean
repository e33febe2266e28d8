import ClauseCode.Compile.Clause
import ClauseCode.Source.Clause

/-!
# What a command does

A command reads inputs and leaves an outcome: what it writes, piece by piece, what goes to the
log, and the error it ends with.

What is written about a malformed clause may depend on the order in which its keys are come upon.
Whole inputs are read up to the first error, with one choice of that order; lines are read each with
a choice of its own.
-/

namespace ClauseCode.Command

/-- What a command does. -/
structure Outcome where
  /-- The pieces written to the output, in order. -/
  writes : List String
  /-- The entries for the log. -/
  log : List Log.Entry
  /-- The message of the error that the command ends with. -/
  error : Option String
  /-- Whether the command ends at the first piece that cannot be written. -/
  stopsAtWrite : Bool

namespace Outcome

/-- The outcome of a command that fails before it does anything. -/
def failed (message : String) : Outcome := ⟨[], [], some message, true⟩

/-- All that is written to the output. -/
def output (o : Outcome) : String := String.join o.writes

/-- The lines that go to the log, if these are wanted. -/
def logText (o : Outcome) (verbose : Bool) : String :=
  if verbose then String.join (o.log.map (·.line)) else ""

/-- The outcome when nothing can be written to the output. -/
def unwritable (o : Outcome) (reason : String) : Outcome :=
  if o.writes.isEmpty then o
  else
    { o with
      writes := []
      error := if o.stopsAtWrite then some reason else o.error }

end Outcome

/-! ### Compiling whole inputs -/

/-- A file that a command is asked to read. -/
structure File where
  /-- Its name. -/
  name : String
  /-- Its content, or the message that says why it cannot be opened. -/
  content : Except String Json.Input

/-- The clauses of files, one after another. -/
def fileClauses (choice : Choice String) : List File → Except String (List Clause)
  | [] => .ok []
  | f :: fs =>
    match f.content with
    | .error message => .error message
    | .ok input =>
      match Source.clauses choice input with
      | .error e => .error (f.name ++ ": " ++ e.message)
      | .ok cs =>
        match fileClauses choice fs with
        | .error e => .error e
        | .ok ds => .ok (cs ++ ds)

/-- The clauses of files, or of the standard input if there are none. -/
def allClauses (choice : Choice String) (files : List File) (stdin : Json.Input) :
    Except String (List Clause) :=
  match files with
  | [] =>
    match Source.clauses choice stdin with
    | .error e => .error e.message
    | .ok cs => .ok cs
  | _ => fileClauses choice files

/-- The pieces that are written for compiled clauses. -/
def formatted (format : String) (cs : List CompiledClause) : List String :=
  if format = "json" then [(Json.array (cs.map (·.toJson))).indented "" ++ "\n"]
  else cs.map (·.listing)

/-- Compiles the clauses of files or of the standard input. -/
def compile (choice : Choice String) (format : String) (files : List File) (stdin : Json.Input) :
    Outcome :=
  if format ≠ "text" && format ≠ "json" then
    .failed ("invalid format " ++ Quoted.text format ++ " (must be text or json)")
  else
    match allClauses choice files stdin with
    | .error message => .failed message
    | .ok cs =>
      match compileAll cs with
      | (.error e, log) => ⟨[], log, some e.message, true⟩
      | (.ok rs, log) => ⟨formatted format rs, log, none, true⟩

/-! ### Compiling line by line -/

/-- What a line is answered, and the entries for the log. -/
def replLine (choice : Choice String) (line : List UInt8) : List String × List Log.Entry :=
  let bytes := Glyph.encode (Text.trimEnds (fun g => Text.isBlank g.toChar) (Glyph.decode line))
  if bytes.isEmpty then ([], [])
  else
    match Source.clause choice bytes with
    | .error e => (["error: " ++ e.message ++ "\n"], [])
    | .ok c =>
      match c.compile with
      | .error e => (["error: " ++ e.message ++ "\n"], [])
      | .ok r => ([r.listing], [r.logEntry])

/-- The lines that can be read of an input; one that a failure cuts off is lost. -/
def inputLines (input : Json.Input) : List (List UInt8) :=
  let lines := Text.pieces 10 input.bytes
  match input.ending with
  | .eof => lines
  | .failure _ => lines.dropLast

/-- Answers each line on its own, the first with the choice of number 0. -/
def repl (choices : Nat → Choice String) (stdin : Json.Input) : Outcome :=
  let answers := (inputLines stdin).mapIdx fun i line => replLine (choices i) line
  { writes := answers.flatMap (·.1)
    log := answers.flatMap (·.2)
    error := match stdin.ending with
      | .eof => none
      | .failure reason => some reason
    stopsAtWrite := false }

end ClauseCode.Command
