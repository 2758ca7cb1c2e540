/-
  File:      FormulaGraph/Catalogue.lean
  Subject:   Which node type of the graph implements which operator.

  A catalogue lists each operator once. Entering an operator again replaces its node type and keeps
  its place.
-/
import FormulaGraph.Assoc
import FormulaGraph.Operator.Basic

namespace FormulaGraph

/-- The name of a node type in the graph engine, like `Core::Math,add`. -/
structure NodeType where
  name : String
  deriving DecidableEq, Repr

namespace NodeType

/-- The type of every node that holds a literal value. -/
def constant : NodeType := ⟨"Core::Constants,float"⟩

def isConstant (t : NodeType) : Bool := t == constant

/-- What stands in front of the first comma of a reversed name, if there is a comma. -/
def beforeComma? : List Char → Option (List Char)
  | [] => none
  | ',' :: _ => some []
  | c :: cs => (beforeComma? cs).map (c :: ·)

/-- What stands in front of the first double colon of a reversed name. -/
def beforeColons : List Char → List Char
  | [] => []
  | ':' :: ':' :: _ => []
  | c :: cs => c :: beforeColons cs

/-- The part of the name behind the last comma, or without a comma behind the last `::`. Nodes are
    named after it. -/
def shortName (t : NodeType) : String :=
  let reversed := t.name.toList.reverse
  String.ofList ((beforeComma? reversed).getD (beforeColons reversed)).reverse

end NodeType

/-- The node types of operators, in order of first entry. -/
structure Catalogue where
  entries : List (Operator × NodeType) := []
  deriving DecidableEq, Repr

namespace Catalogue

/-- The catalogue of the given pairs; a later pair of an operator wins. -/
def ofList (pairs : List (Operator × NodeType)) : Catalogue :=
  ⟨pairs.foldl (fun entries p => Assoc.put p.1 p.2 entries) []⟩

/-- The node type of an operator. -/
def resolve? (c : Catalogue) (kind : Operator) : Option NodeType := c.entries.lookup kind

/-- The mathematical node types of the standard catalogue. -/
def mathTypes : List (Operator × String) :=
  [(.add, "add"),
   (.mul, "multiply"),
   (.pow, "power"),
   (.mod, "modulo"),
   (.abs, "absolute_value"),
   (.exp, "exponential"),
   (.log, "log_base_e"),
   (.sin, "sin"),
   (.cos, "cos"),
   (.tan, "tan"),
   (.asin, "asin"),
   (.acos, "acos"),
   (.atan, "atan"),
   (.atan2, "atan_2D"),
   (.sinh, "sin_hyperbolic"),
   (.cosh, "cos_hyperbolic"),
   (.tanh, "tan_hyperbolic"),
   (.asinh, "asin_hyperbolic"),
   (.acosh, "acos_hyperbolic"),
   (.atanh, "atan_hyperbolic"),
   (.min, "min"),
   (.max, "max"),
   (.floor, "round_to_floor"),
   (.ceiling, "round_to_ceiling"),
   (.sqrt, "square_root"),
   (.cbrt, "cube_root")]

/-- The literals that the standard catalogue makes constants of; the complex infinity is none. -/
def constantKinds : List Operator :=
  [.integer, .rational, .float, .zero, .one, .negativeOne, .half, .pi, .exp1]

/-- The standard catalogue. -/
def standard : Catalogue :=
  ofList (mathTypes.map (fun p => (p.1, ⟨"Core::Math," ++ p.2⟩)) ++
    constantKinds.map (fun kind => (kind, NodeType.constant)))

/-- The catalogue as a listing, an operator a line. The column is as wide as the longest name has
    bytes, and padding counts characters. -/
def listing (c : Catalogue) : String :=
  let width := (c.entries.map fun e => e.1.name.utf8ByteSize).foldl Nat.max 0
  String.join (c.entries.map fun e =>
    e.1.name ++ String.ofList (List.replicate (width - e.1.name.length + 2) ' ') ++
      e.2.name ++ "\n")

end Catalogue

end FormulaGraph
