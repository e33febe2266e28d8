import ClauseCode.Term.Basic

/-!
# Reports

A report is a message with arguments put into it, and remembers the first argument that is a
report as its cause.  In the message `%v`, `%d` and `%s` stand for the next argument, `%q` for the
next argument in quotes, and `%%` for a percent sign.
-/

namespace ClauseCode

mutual

/-- A message, perhaps with arguments. -/
inductive Report where
  /-- A message that stands for itself. -/
  | plain (text : String)
  /-- A message with arguments to put into it. -/
  | filled (template : String) (args : List ReportArg)

/-- An argument of a report. -/
inductive ReportArg where
  | text (s : String)
  | number (n : Int)
  | term (t : Term)
  | report (r : Report)

end

/-- What an argument of a report shows. -/
inductive Shown where
  | text (s : String)
  | number (n : Int)

namespace Shown

/-- The character with a given number, or U+FFFD if there is none. -/
def charOf (n : Int) : Char :=
  if 0 ≤ n && decide n.toNat.isValidChar then Char.ofNat n.toNat else Glyph.replacement

/-- An argument in the place of a verb. -/
def verb : Shown → Char → String
  | text s, 'q' => Quoted.text s
  | number n, 'q' => Quoted.char (charOf n)
  | text s, _ => s
  | number n, _ => Decimal.text n

/-- Puts arguments into a message; `done` is what comes before it, in reverse. -/
def fill (done : List Char) : List Char → List Shown → List Char
  | '%' :: '%' :: cs, args => fill ('%' :: done) cs args
  | '%' :: v :: cs, a :: args => fill ((a.verb v).toList.reverse ++ done) cs args
  | '%' :: v :: cs, [] =>
    fill (("%!" ++ String.singleton v ++ "(MISSING)").toList.reverse ++ done) cs []
  | c :: cs, args => fill (c :: done) cs args
  | [], _ => done.reverse

end Shown

mutual

/-- The message of a report. -/
def Report.message : Report → String
  | .plain text => text
  | .filled template args => String.ofList (Shown.fill [] template.toList (ReportArg.shownAll args))

/-- What the arguments of a report show. -/
def ReportArg.shownAll : List ReportArg → List Shown
  | [] => []
  | a :: as => a.shown :: ReportArg.shownAll as

/-- What an argument of a report shows. -/
def ReportArg.shown : ReportArg → Shown
  | .text s => .text s
  | .number n => .number n
  | .term t => .text t.text
  | .report r => .text r.message

end

mutual

/-- The messages of what brought a report about, the nearest first. -/
def Report.causes : Report → List String
  | .plain _ => []
  | .filled _ args => ReportArg.causesIn args

/-- The message of the first report among arguments, and the messages of what brought it about. -/
def ReportArg.causesIn : List ReportArg → List String
  | [] => []
  | a :: as => a.causesOr (ReportArg.causesIn as)

/-- The message of an argument that is a report with those of its causes, and `others` for any
other. -/
def ReportArg.causesOr : ReportArg → List String → List String
  | .report r, _ => r.message :: r.causes
  | .text _, others => others
  | .number _, others => others
  | .term _, others => others

end

end ClauseCode
