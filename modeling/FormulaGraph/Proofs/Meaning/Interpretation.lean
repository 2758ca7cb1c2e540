/-
  File:      FormulaGraph/Proofs/Meaning/Interpretation.lean
  Subject:   What formulas and expressions mean in a field.

  An interpretation gives values to the free symbols, to `pi` and `E`, and to the called functions.
  Functions may be partial, so a formula need not have a value; no double and no complex infinity
  has one. Of the remainder and the power only the laws are asked that hold in every field.

  * `Interpretation` -- the values and their laws;
  * `Formula.eval` -- the value of a formula, read as it is written;
  * `Tree.eval` -- the value of an expression, whose operations are sums, products, powers,
    remainders and calls.
-/
import Mathlib.Data.Rat.Floor
import Mathlib.Data.Rat.Cast.CharZero
import FormulaGraph.Lowering
import FormulaGraph.Table.Tree

namespace FormulaGraph

/-- An interpretation of names and functions in a field. -/
structure Interpretation (K : Type*) [Field K] where
  symbol : String → K
  pi : K
  exp1 : K
  /-- The called functions, by what their names mean. -/
  function : Operator → List K → Option K
  modulo : K → K → Option K
  power : K → K → Option K
  /-- On rational numbers a remainder is what rounding the quotient down leaves. -/
  modulo_rat : ∀ a b : ℚ, b ≠ 0 → modulo a b = some ((a - b * ⌊a / b⌋ : ℚ) : K)
  power_int : ∀ (a : K) (n : ℤ), a ≠ 0 ∨ 0 ≤ n → power a n = some (a ^ n)
  one_power : ∀ b : K, power 1 b = some 1
  zero_power : ∀ e : ℚ, e < 0 → power 0 e = none

namespace Interpretation

variable {K : Type*} [Field K] (I : Interpretation K)

/-! ## 1. Operations -/

theorem power_zero (a : K) : I.power a 0 = some 1 := by
  have h := I.power_int a 0 (.inr (le_refl 0))
  rwa [Int.cast_zero, zpow_zero] at h

theorem power_one (a : K) : I.power a 1 = some a := by
  have h := I.power_int a 1 (.inr Int.one_nonneg)
  rwa [Int.cast_one, zpow_one] at h

variable [DecidableEq K]

/-- A quotient; there is one exactly if the divisor is not zero. -/
def divide (a b : K) : Option K := if b = 0 then none else some (a / b)

/-- The value of a name. -/
def name (name : String) : Option K :=
  match name with
  | "pi" => some I.pi
  | "E" => some I.exp1
  | "zoo" => none
  | _ => some (I.symbol name)

/-- An operator between two values. -/
def binary (op : BinaryOp) (a b : K) : Option K :=
  match op with
  | .add => some (a + b)
  | .subtract => some (a - b)
  | .multiply => some (a * b)
  | .divide => divide a b
  | .modulo => I.modulo a b
  | .power => I.power a b

/-- A called function. The logarithm of `x` to the base `b` is `log(x) / log(b)`; the minimum and
    the maximum of one value are the value. -/
def call (op : Operator) (args : List K) : Option K :=
  match op, args with
  | .log, [x, base] => do divide (← I.function .log [x]) (← I.function .log [base])
  | .min, [single] => some single
  | .max, [single] => some single
  | .mod, [a, b] => I.modulo a b
  | op, args => I.function op args

/-- An operation of an expression. -/
def operation (op : Operator) (args : List K) : Option K :=
  match op, args with
  | .add, args => some args.sum
  | .mul, args => some args.prod
  | .pow, [a, b] => I.power a b
  | .mod, [a, b] => I.modulo a b
  | op, args => I.function op args

/-- The rational numbers as values. Powers are known for integer exponents and for the base one. -/
def rational (symbol : String → ℚ) (function : Operator → List ℚ → Option ℚ) :
    Interpretation ℚ where
  symbol
  pi := 22 / 7
  exp1 := 19 / 7
  function
  modulo a b := if b = 0 then none else some (a - b * ⌊a / b⌋)
  power a b :=
    if a = 1 then some 1
    else if b.den = 1 then if a = 0 ∧ b < 0 then none else some (a ^ b.num)
    else none
  modulo_rat a b hb := by
    rw [Rat.cast_id, Rat.cast_id, Rat.cast_id, if_neg hb]
  power_int a n hn := by
    split
    · rename_i h
      rw [h, one_zpow]
    · rw [Rat.den_intCast, Rat.num_intCast, if_pos rfl, if_neg]
      rintro ⟨h₀, hneg⟩
      rcases hn with hn | hn
      · exact hn h₀
      · exact absurd hneg (not_lt.mpr (Int.cast_nonneg hn))
  one_power b := if_pos rfl
  zero_power e he := by
    rw [Rat.cast_id, if_neg zero_ne_one]
    split
    · exact if_pos ⟨rfl, he⟩
    · rfl

end Interpretation

/-! ## 2. Formulas -/

section

variable {K : Type*} [Field K] [DecidableEq K] (I : Interpretation K)

namespace Formula

mutual
/-- The value of a formula, if it has one. -/
def eval : Formula → Option K
  | integer value _ => some value
  | float _ _ => none
  | symbol name _ => I.name name
  | binary op left right _ => do I.binary op (← left.eval) (← right.eval)
  | negative operand _ => do return -(← operand.eval)
  | call name arguments _ => do I.call (Operator.ofCall name).1 (← evalAll arguments)
  | group inner _ => inner.eval

/-- The values of formulas, if all have one. -/
def evalAll : List Formula → Option (List K)
  | [] => some []
  | f :: fs => do return (← f.eval) :: (← evalAll fs)
end

/-- Whether a leaf is no double and, if an integer, lies within 64 bits. -/
def isExactLeaf : Formula → Bool
  | integer value _ => fitsBits 64 value
  | float .. => false
  | _ => true

/-- Whether all leaves are exact. -/
def isExact (f : Formula) : Bool := f.leaves.all isExactLeaf

end Formula

/-! ## 3. Expressions -/

/-- The value of a numeric leaf. -/
def Literal.eval : Literal → Option K
  | integer value => some value
  | rational numer denom => Interpretation.divide (numer : K) denom
  | float _ => none
  | zero => some 0
  | one => some 1
  | negativeOne => some (-1)
  | half => some 2⁻¹
  | pi => some I.pi
  | exp1 => some I.exp1
  | complexInfinity => none

namespace Tree

mutual
/-- The value of an expression, if it has one. -/
def eval : Tree → Option K
  | symbol name => some (I.symbol name)
  | literal value => value.eval I
  | operation op args => do I.operation op (← evalAll args)

/-- The values of expressions, if all have one. -/
def evalAll : List Tree → Option (List K)
  | [] => some []
  | t :: ts => do return (← t.eval) :: (← evalAll ts)
end

end Tree

end

end FormulaGraph
