/-
  File:      FormulaGraph/Table/Build.lean
  Subject:   Sums, products, powers and remainders in canonical form.

  Nested sums and products are flattened, their numbers are folded into one coefficient that stands
  first, and neutral coefficients are dropped. Subtraction is adding the negative, division is
  multiplying by the reciprocal. Any sum or product with the complex infinity is the complex
  infinity.
-/
import FormulaGraph.Table.Basic

namespace FormulaGraph.Table

/-- The number that a node stands for, if it can be folded. -/
def numeric? (t : Table) (id : Nat) : Option Number :=
  match t.node? id with
  | some (.literal value) => value.toNumber?
  | _ => none

def isComplexInfinity (t : Table) (id : Nat) : Bool :=
  t.node? id == some (.literal .complexInfinity)

/-- The arguments of `id` if it is an operation `op`, and else `id` itself. -/
def operands (t : Table) (op : Operator) (id : Nat) : List Nat :=
  match t.node? id with
  | some (.operation inner args) => if inner = op then args else [id]
  | _ => [id]

theorem operands_of_not_nested {t : Table} {op : Operator} {id : Nat}
    (h : ∀ inner, t.node? id ≠ some (.operation op inner)) : t.operands op id = [id] := by
  unfold operands
  split
  · rename_i inner args hn
    exact if_neg fun hop => h args (by rw [hn, hop])
  · rfl

/-- Folds numbers from left to right; there is nothing to fold in an empty list. -/
def foldNumbers (f : Number → Number → Number) : List Number → Option Number
  | [] => none
  | n :: ns => some (ns.foldl f n)

/-- The operation on a coefficient and the other arguments. A single argument is the result itself,
    and without other arguments the result is the number `alone`. -/
def combine (t : Table) (op : Operator) (coefficient : Option Number) (others : List Nat)
    (alone : Number) : Nat × Table :=
  match others, coefficient with
  | [], _ => t.number alone
  | [single], none => (single, t)
  | others, none => t.operation op others
  | others, some c =>
    let (first, t) := t.number c
    t.operation op (first :: others)

/-- The sum of the arguments. -/
def sum (t : Table) (args : List Nat) : Nat × Table :=
  let args := args.flatMap (t.operands .add)
  if args.any t.isComplexInfinity then t.literal .complexInfinity
  else
    let coefficient := foldNumbers Number.add (args.filterMap t.numeric?)
    let terms := args.filter fun a => (t.numeric? a).isNone
    t.combine .add (coefficient.filter (!·.isZero)) terms (coefficient.getD .zero)

/-- The product of the arguments. -/
def product (t : Table) (args : List Nat) : Nat × Table :=
  let args := args.flatMap (t.operands .mul)
  if args.any t.isComplexInfinity then t.literal .complexInfinity
  else
    let coefficient := foldNumbers Number.mul (args.filterMap t.numeric?)
    let factors := args.filter fun a => (t.numeric? a).isNone
    if coefficient.any Number.isZero then t.number .zero
    else t.combine .mul (coefficient.filter (!·.isOne)) factors (coefficient.getD .one)

/-- A power of two numbers, if it folds. -/
def foldedPower (t : Table) (base exponent : Number) :
    Except Number.Overflow (Option (Nat × Table)) :=
  if base.isZero && exponent.isNegative then return some (t.literal .complexInfinity)
  else return (← base.pow? exponent).map t.number

/-- The power of two nodes. -/
def power (t : Table) (base exponent : Nat) : Except Number.Overflow (Nat × Table) :=
  let b := t.numeric? base
  let e := t.numeric? exponent
  if e.any Number.isOne then return (base, t)
  else if e.any Number.isZero || b.any Number.isOne then return t.number .one
  else
    match b, e with
    | some b, some e => return (← t.foldedPower b e).getD (t.operation .pow [base, exponent])
    | _, _ => return t.operation .pow [base, exponent]

/-- The remainder of two nodes; `none` if both are numbers and the divisor is zero. -/
def remainder? (t : Table) (a b : Nat) : Option (Nat × Table) :=
  match t.numeric? a, t.numeric? b with
  | some x, some y => (x.modulo? y).map t.number
  | _, _ => some (t.operation .mod [a, b])

/-- Minus one times the node. -/
def negate (t : Table) (id : Nat) : Nat × Table :=
  let (minusOne, t) := t.number (.ofInt (-1))
  t.product [minusOne, id]

end FormulaGraph.Table
