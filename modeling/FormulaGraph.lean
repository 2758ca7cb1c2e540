import FormulaGraph.Build
import FormulaGraph.Command.Run
import FormulaGraph.Drawing
import FormulaGraph.Emission
import FormulaGraph.Formula.Parser
import FormulaGraph.Formula.Printer
import FormulaGraph.Lowering
import FormulaGraph.Main
import FormulaGraph.Plan.Compile
import FormulaGraph.Plan.Script
import FormulaGraph.Report.Printer
import FormulaGraph.Store.Calls
import FormulaGraph.Table.Tree
import FormulaGraph.Table.Walk
import FormulaGraph.Text.Lines
import FormulaGraph.Proofs.Emission.Copy
import FormulaGraph.Proofs.Emission.Rollback
import FormulaGraph.Proofs.Grammar.Recognition
import FormulaGraph.Proofs.Meaning.Lowering
import FormulaGraph.Proofs.Store.Session
import FormulaGraph.Proofs.Store.SingleDriver
import FormulaGraph.Proofs.Table.Normal
import FormulaGraph.Proofs.Json.Numbers
import FormulaGraph.Proofs.Json.Text
import FormulaGraph.Proofs.Json.Reader
import FormulaGraph.Proofs.Json.Record
import FormulaGraph.Proofs.Plan.Script
import FormulaGraph.Proofs.Table.Sharing
import FormulaGraph.Proofs.History.Expression
import FormulaGraph.Proofs.History.Lowering
import FormulaGraph.Proofs.History.Renaming
import FormulaGraph.Proofs.History.Emission
import FormulaGraph.Proofs.History.Outcome
import FormulaGraph.Proofs.Grammar.Height
import FormulaGraph.Proofs.Grammar.Limit
import FormulaGraph.Proofs.Grammar.Tower
import FormulaGraph.Proofs.Text.Boundary
import FormulaGraph.Proofs.Text.Lines
import FormulaGraph.Proofs.Report.Shown
import FormulaGraph.Proofs.Token.Layout
import FormulaGraph.Proofs.Grammar.Spans
import FormulaGraph.Proofs.Grammar.Cursor
import FormulaGraph.Proofs.Report.Refusal
import FormulaGraph.Proofs.Number.Arithmetic
import FormulaGraph.Proofs.Number.Width
import FormulaGraph.Proofs.Table.Order
import FormulaGraph.Proofs.Plan.Worklist
import FormulaGraph.Proofs.Plan.Compiled
import FormulaGraph.Proofs.Plan.Ports
import FormulaGraph.Proofs.Store.Deletion
import FormulaGraph.Proofs.Token.Cut
import FormulaGraph.Proofs.Token.Tiling
import FormulaGraph.Proofs.Grammar.Again
import FormulaGraph.Proofs.Grammar.Shift
import FormulaGraph.Proofs.Grammar.Spread
import FormulaGraph.Proofs.Grammar.Slice
import FormulaGraph.Proofs.Emission.Acyclic
import FormulaGraph.Proofs.Store.InPlace
import FormulaGraph.Proofs.Text.LineIndex
import FormulaGraph.Proofs.Grouping.Literals
import FormulaGraph.Proofs.Grouping.Parts
import FormulaGraph.Proofs.Grouping.Regrouping
import FormulaGraph.Proofs.Grammar.Names
import FormulaGraph.Proofs.Table.Written
import FormulaGraph.Proofs.Table.Rebuild
import FormulaGraph.Proofs.Catalogue.Index
import FormulaGraph.Proofs.Table.Spelling
import FormulaGraph.Proofs.Table.Unambiguous
import FormulaGraph.Proofs.Drawing.Statements
import FormulaGraph.Proofs.Emission.Named
import FormulaGraph.Proofs.Drawing.Wires
import FormulaGraph.Proofs.Store.Naming
