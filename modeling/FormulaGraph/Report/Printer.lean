/-
  File:      FormulaGraph/Report/Printer.lean
  Subject:   A report as coloured lines for a terminal.

  An entry with a span shows where it is, and the code around it: at most 16 characters before the
  span, the span itself in red, at most 20 characters after it on its line.

      [E] 1:5   x + * y   -> message

  A span that does not fit the text cannot be shown.
-/
import FormulaGraph.Report.Basic
import FormulaGraph.Text.Blank
import FormulaGraph.Text.Lines

namespace FormulaGraph.Report

/-! ## 1. Colours -/

/-- A palette colour. -/
inductive Color where
  | red
  | yellow
  | blue
  | white

def Color.index : Color → Nat
  | red => 1
  | yellow => 3
  | blue => 4
  | white => 7

/-- A text in a colour. -/
def inColor (c : Color) (text : String) : String := s!"\x1b[38;5;{c.index}m{text}\x1b[39m"

/-- A text on a colour. -/
def onColor (c : Color) (text : String) : String := s!"\x1b[48;5;{c.index}m{text}\x1b[49m"

def tag : Severity → String
  | .error => inColor .red "[E]"
  | .warning => inColor .yellow "[W]"

/-! ## 2. The code around a span -/

def charsBefore : Nat := 16

def charsAfter : Nat := 20

/-- The code before a span. Blanks it begins with are made visible. -/
def codeBefore (front : List Char) : String :=
  if front.isEmpty then ""
  else
    let shown := front.drop (front.length - charsBefore)
    onColor .white (String.ofList (shown.takeWhile Text.isBlank)) ++
      String.ofList (shown.dropWhile Text.isBlank)

/-- The span itself; a mark stands for an empty one. -/
def codeWithin? (cs : List Char) (s : Span) : Option String :=
  if s.start = s.stop then some "_" else (s.text? cs).map String.ofList

/-- The code after a span. -/
def codeAfter (back : List Char) : String :=
  String.ofList ((back.reverse.dropWhile (· = '\n')).reverse.take charsAfter)

/-- The code at a span, on one line. -/
def code? (cs : List Char) (s : Span) : Option String := do
  let (line, position) := Text.locate cs s.start
  let content := (Text.line? cs line).getD []
  let front ← Text.takeBytes? position content
  let within ← codeWithin? cs s
  let back ← Text.dropBytes? (min (position + s.length) (Text.byteSize content)) content
  let code := codeBefore front ++ inColor .red within ++ codeAfter back
  return String.ofList (code.toList.filter (· != '\n'))

/-! ## 3. Lines -/

/-- The line of an entry about the text `cs`; `none` if its span does not fit the text. -/
def line? (cs : List Char) (e : Entry) : Option String :=
  let mark := tag e.severity
  let message := inColor .blue e.message
  match e.span with
  | none => some s!"{mark} {message}"
  | some span => do
    let (line, position) := Text.locate cs span.start
    let code ← code? cs span
    return s!"{mark} {line + 1}:{position + 1}\t {code} \t-> {message}"

/-- The printed report on the text `cs`. -/
def print? (r : Report) (cs : List Char) : Option String :=
  (r.entries.mapM (line? cs)).map fun lines => String.join (lines.map (· ++ "\n"))

end FormulaGraph.Report
