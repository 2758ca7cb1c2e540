/-
  File:      FormulaGraph/Operator/Functions.lean
  Subject:   The functions that a formula may call by name.
-/
import FormulaGraph.Assoc
import FormulaGraph.Operator.Arity
import FormulaGraph.Operator.Basic

namespace FormulaGraph.Operator

/-- The known functions: name, kind, arity. Some have two names. -/
def functions : List (String × Operator × Arity) :=
  [("abs", abs, .exactly 1),
   ("Abs", abs, .exactly 1),
   ("exp", exp, .exactly 1),
   ("log", log, .between 1 2),
   ("ln", log, .exactly 1),
   ("sin", sin, .exactly 1),
   ("cos", cos, .exactly 1),
   ("tan", tan, .exactly 1),
   ("cot", cot, .exactly 1),
   ("sec", sec, .exactly 1),
   ("csc", csc, .exactly 1),
   ("asin", asin, .exactly 1),
   ("acos", acos, .exactly 1),
   ("atan", atan, .exactly 1),
   ("atan2", atan2, .exactly 2),
   ("sinh", sinh, .exactly 1),
   ("cosh", cosh, .exactly 1),
   ("tanh", tanh, .exactly 1),
   ("asinh", asinh, .exactly 1),
   ("acosh", acosh, .exactly 1),
   ("atanh", atanh, .exactly 1),
   ("Min", min, .atLeast 1),
   ("min", min, .atLeast 1),
   ("Max", max, .atLeast 1),
   ("max", max, .atLeast 1),
   ("floor", floor, .exactly 1),
   ("ceiling", ceiling, .exactly 1),
   ("ceil", ceiling, .exactly 1),
   ("sqrt", sqrt, .exactly 1),
   ("cbrt", cbrt, .exactly 1),
   ("Mod", mod, .exactly 2)]

/-- What a called name means. An unknown one is an undefined function of any arguments, but some. -/
def ofCall (name : String) : Operator × Arity :=
  (functions.lookup name).getD (undefined name, .atLeast 1)

/-- What holds of all known functions and of the undefined ones holds of every called name. -/
theorem ofCall_of_forall {P : Operator × Arity → Prop} (known : ∀ entry ∈ functions, P entry.2)
    (unknown : ∀ name, P (undefined name, .atLeast 1)) (name : String) : P (ofCall name) := by
  unfold ofCall
  cases hl : functions.lookup name with
  | none => exact unknown name
  | some entry => exact known _ (Assoc.mem_of_lookup hl)

end FormulaGraph.Operator
