/-
  File:      FormulaGraph/Report/Basic.lean
  Subject:   What went wrong, collected for the user.

  An entry without a span is about the whole formula. An invalid formula is reported at its span
  with the bare message; every other failure is reported with its full text.
-/
import FormulaGraph.Failure

namespace FormulaGraph

inductive Severity where
  | error
  | warning
  deriving DecidableEq, Repr

def Severity.name : Severity → String
  | error => "error"
  | warning => "warning"

/-- One thing to tell the user. -/
structure Entry where
  severity : Severity
  message : String
  /-- The part of the text it is about. -/
  span : Option Span
  deriving DecidableEq, Repr

/-- The entries in the order they were made. -/
structure Report where
  entries : List Entry := []
  deriving DecidableEq, Repr

namespace Report

def empty : Report := {}

def add (r : Report) (e : Entry) : Report := ⟨r.entries ++ [e]⟩

def error (r : Report) (span : Span) (message : String) : Report :=
  r.add ⟨.error, message, some span⟩

def warning (r : Report) (message : String) : Report := r.add ⟨.warning, message, none⟩

/-- Reports an invalid formula. -/
def invalid (r : Report) (message : String) : Option Span → Report
  | some span => r.error span message
  | none => r.add ⟨.error, Failure.invalidText message, none⟩

def failure (r : Report) : Failure → Report
  | .invalid cause => r.invalid cause.message cause.span?
  | other => r.add ⟨.error, other.message, none⟩

def count (r : Report) (s : Severity) : Nat := r.entries.countP (·.severity == s)

/-- Whether an error was reported. Warnings do not count. -/
def hasErrors (r : Report) : Bool := 0 < r.count .error

end Report

end FormulaGraph
