/-
  File:      FormulaGraph/Lowering.lean
  Subject:   From a formula to a node of the table.

  Operands are lowered from left to right, each before its operator. What was added to the table
  before an error stays there. An overflow is no error of the formula: the program stops there.
-/
import FormulaGraph.Formula.Parser
import FormulaGraph.Operator.Functions
import FormulaGraph.Table.Build

namespace FormulaGraph

/-- How a computation ends without a result. -/
inductive Stop (ε : Type) where
  /-- It refuses, and says why. -/
  | refused (reason : ε)
  /-- A number does not fit, and the program stops. -/
  | overflow (cause : Number.Overflow)
  deriving DecidableEq, Repr

/-- The same end, told in other words. -/
def Stop.map {ε ε' : Type} (f : ε → ε') : Stop ε → Stop ε'
  | refused reason => refused (f reason)
  | overflow cause => overflow cause

/-- A step that works on the table and may refuse; the table it leaves is kept either way. -/
abbrev Lowering (α : Type) := EStateM (Stop FormulaError) Table α

namespace Lowering

/-- A step that always succeeds. -/
def build (f : Table → Nat × Table) : Lowering Nat := fun t =>
  let (id, t) := f t
  .ok id t

/-- The power of two nodes. An overflow leaves the table as it is. -/
def power (base exponent : Nat) : Lowering Nat := fun t =>
  match t.power base exponent with
  | .ok (id, t) => .ok id t
  | .error overflow => .error (.overflow overflow) t

/-- The node to the power of minus one. -/
def reciprocal (id : Nat) : Lowering Nat := do
  let minusOne ← build (·.number (.ofInt (-1)))
  power id minusOne

/-- The node of a name: the constants `pi`, `E` and `zoo`, and else a symbol. -/
def symbol (name : String) : Lowering Nat :=
  match name with
  | "pi" => build (·.literal .pi)
  | "E" => build (·.literal .exp1)
  | "zoo" => build (·.literal .complexInfinity)
  | _ => build (·.symbol name)

/-- The remainder of two nodes; a constant zero divisor is an error at `span`. -/
def remainder (a b : Nat) (span : Span) : Lowering Nat := fun t =>
  match t.remainder? a b with
  | some (id, t) => .ok id t
  | none => .error (.refused (.moduloByZero span)) t

/-- An operator applied to two nodes. -/
def binary (op : BinaryOp) (left right : Nat) (span : Span) : Lowering Nat :=
  match op with
  | .add => build (·.sum [left, right])
  | .subtract => do
    let right ← build (·.negate right)
    build (·.sum [left, right])
  | .multiply => build (·.product [left, right])
  | .divide => do
    let right ← reciprocal right
    build (·.product [left, right])
  | .modulo => remainder left right span
  | .power => power left right

/-- A function applied to nodes. The logarithm of `x` to the base `b` is `log(x) / log(b)`; the
    minimum and the maximum of one node are the node. -/
def call (op : Operator) (args : List Nat) (span : Span) : Lowering Nat :=
  match op, args with
  | .log, [x, base] => do
    let above ← build (·.operation .log [x])
    let below ← build (·.operation .log [base])
    let below ← reciprocal below
    build (·.product [above, below])
  | .min, [single] => pure single
  | .max, [single] => pure single
  | .mod, [a, b] => remainder a b span
  | op, args => build (·.operation op args)

end Lowering

namespace Formula

mutual
/-- The node of a formula. -/
def lower : Formula → Lowering Nat
  | integer value _ => Lowering.build (·.number (.ofInt value))
  | float value _ => Lowering.build (·.literal (.float (.ofFloat value)))
  | symbol name _ => Lowering.symbol name
  | binary op left right span => do
    let left ← left.lower
    let right ← right.lower
    Lowering.binary op left right span
  | negative operand _ => do
    let operand ← operand.lower
    Lowering.build (·.negate operand)
  | call name arguments span =>
    let (op, arity) := Operator.ofCall name
    if arity.accepts arguments.length then do
      let args ← lowerAll arguments
      Lowering.call op args span
    else throw (.refused (.wrongArity name arity arguments.length span))
  | group inner _ => inner.lower

/-- The nodes of formulas, from left to right. -/
def lowerAll : List Formula → Lowering (List Nat)
  | [] => pure []
  | f :: fs => do
    let id ← f.lower
    let ids ← lowerAll fs
    return id :: ids
end

end Formula

/-- Reads a text as a formula and lowers it. A text that cannot be read leaves the table as it
    is. -/
def Table.read (cs : List Char) : Lowering Nat :=
  match Formula.parse cs with
  | .ok f => f.lower
  | .error e => throw (.refused e)

end FormulaGraph
