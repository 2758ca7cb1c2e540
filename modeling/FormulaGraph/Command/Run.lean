/-
  File:      FormulaGraph/Command/Run.lean
  Subject:   What the commands print.

  A command gives all it prints and its exit code at once. It prints until a step fails; then the
  failure is reported and the code is one. An overflow stops the program with a code of its own.
-/
import FormulaGraph.Build
import FormulaGraph.Command.Label
import FormulaGraph.Command.Options
import FormulaGraph.Drawing
import FormulaGraph.Formula.Printer
import FormulaGraph.Plan.Script
import FormulaGraph.Report.Printer
import FormulaGraph.Table.Tree

namespace FormulaGraph.Command

/-- What a run leaves behind. -/
structure Outcome where
  code : Nat := 0
  output : String := ""
  errors : String := ""
  deriving DecidableEq, Repr

/-! ## 1. Printing until a failure -/

/-- Why a run ends early. -/
inductive Halt where
  | failed (failure : Failure)
  /-- An image of the drawing was asked for, and the program that makes one is not there. -/
  | imageUnavailable
  /-- A number does not fit. -/
  | overflow
  deriving DecidableEq, Repr

/-- A run; its state is what has been printed. -/
abbrev Run (α : Type) := EStateM Halt String α

def print (text : String) : Run Unit := modify (· ++ text)

def printLine (text : String) : Run Unit := print (text ++ "\n")

/-- The result of a step that can fail. -/
def orFail {α : Type} : Except Failure α → Run α
  | .ok a => pure a
  | .error failure => throw (.failed failure)

/-- What is printed about an early end. Spans of a text's own errors fit the text. -/
def Halt.text (cs : List Char) : Halt → String
  | failed failure => ((Report.empty.failure failure).print? cs).getD ""
  | imageUnavailable => "Error calling graphviz. Do you have it installed?\n"
  | overflow => "attempt to multiply with overflow\n"

/-- The exit code of an early end. -/
def Halt.code : Halt → Nat
  | failed _ => 1
  | imageUnavailable => 1
  | overflow => 101

/-- The outcome of a run on the text `cs`. -/
def Run.outcome (cs : List Char) (run : Run Unit) : Outcome :=
  match run "" with
  | .ok _ output => ⟨0, output, ""⟩
  | .error halt output => ⟨halt.code, output, halt.text cs⟩

/-! ## 2. Steps that commands share -/

/-- Reads a formula and shows its outline, under a heading if `headed`. -/
def readFormula (width : Option Nat) (shown headed : Bool) (cs : List Char) : Run Formula := do
  let f ← orFail ((Formula.parse cs).mapError .invalid)
  if headed then print (heading width "AST")
  if shown then print (f.outline 0)
  return f

/-- Lowers a formula and shows the expression, under a heading if `headed`. -/
def lowerFormula (width : Option Nat) (shown headed : Bool) (f : Formula) : Run (Nat × Table) := do
  match f.lower Table.empty with
  | .error (.refused e) _ => throw (.failed (.invalid e))
  | .error (.overflow _) _ => throw .overflow
  | .ok root t =>
    if headed then print (heading width "Expression")
    if shown then printLine (t.tree root).text
    return (root, t)

/-- Names joined for reading. -/
def listed (names : List String) : String := ", ".intercalate names

/-! ## 3. Parsing -/

def parse (width : Option Nat) (o : Options) (expression : String) : Run Unit := do
  let f ← readFormula width true (!o.quiet) expression.toList
  let (root, t) ← lowerFormula width true (!o.quiet) f
  if o.verbose then
    printLine ("free symbols: " ++ listed (t.freeSymbols root))
    printLine s!"distinct nodes: {t.reachableCount root}"

/-! ## 4. Building -/

/-- The names along a container's path. -/
def pathNames (path : String) : List String :=
  ((path.toList.splitOn '/').filter (!·.isEmpty)).map String.ofList

/-- Makes compounds inside each other, from `parent` on; gives the innermost. -/
def createContainers (parent : String) : List String → EmissionM String
  | [] => pure parent
  | name :: rest => do
    let path ← Emission.calling .createCompound name (Store.createCompound parent name)
    createContainers path rest

/-- The width of the column of paths. -/
def pathColumn : Nat := 24

def padded (width : Nat) (text : String) : String :=
  text ++ String.ofList (List.replicate (width - text.length) ' ')

/-- The line of a node. -/
def nodeLine (path : String) (r : Record) : String :=
  let type := (r.nodeType.map (·.name)).getD ""
  let value := match r.value with
    | some x => " = " ++ Layout.plain.render x
    | none => ""
  s!"  {padded pathColumn path} {type}{value}"

def wireLine (w : Wire) : String := s!"  {w.source} -> {w.target} ({w.kind.name})"

/-- Lists a compound with its ports, nodes and wires. -/
def printCompound (s : Store) (c : Compound) : Run Unit := do
  printLine s!"compound {c.path}"
  printLine ("  inputs: " ++ listed (c.inputPorts.map (·.1)))
  printLine s!"  output: {c.outputPort}"
  let nodes ← orFail ((s.listNodes c.path).mapError (.store .listNodes c.path))
  for path in nodes do
    if let some r := s.record? path then printLine (nodeLine path r)
  printLine "connections:"
  for wire in s.wiresWithin c.path do
    printLine (wireLine wire)

/-- A step of building on a store. -/
def onStore {α : Type} (s : Store) (step : EmissionM α) : Run (α × Store) :=
  match step s with
  | .ok a s => pure (a, s)
  | .error failure _ => throw (.failed failure)

def build (width : Option Nat) (o : Options) (b : BuildOptions) : Run Unit := do
  let f ← readFormula width o.verbose o.verbose b.expression.toList
  let (root, t) ← lowerFormula width o.verbose o.verbose f
  let (parent, s) ← onStore Store.empty
    (createContainers rootPath (pathNames (b.container.getD "")))
  let plan ← orFail (t.compile root Catalogue.standard (b.compound parent))
  if b.script then printLine plan.script
  else
    let (compound, s) ← onStore s plan.emit
    if b.image.isSome then throw .imageUnavailable
    if b.drawing then printLine (s.drawing compound.path) else printCompound s compound

/-! ## 5. Any command -/

/-- The outcome of the given options on a terminal of the given width. -/
def Options.outcome (width : Option Nat) (o : Options) : Outcome :=
  match o.action with
  | .build b => (build width o b).outcome b.expression.toList
  | .parse expression => (parse width o expression).outcome expression.toList
  | .operators => { output := Catalogue.standard.listing }

def versionText : String := "jotun 0.1.0\n"

/-- What is shown when the arguments are refused, or help is asked for. -/
def usageText : String := "Usage: jotun [-v|-q] cook|parse|operators [OPTIONS] [EXPRESSION]\n"

end FormulaGraph.Command
