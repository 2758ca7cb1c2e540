/-
  File:      FormulaGraph/Formula/Parser.lean
  Subject:   From the tokens of a text to a formula.

  Operators are taken by precedence. A parser gets the tokens that are left and gives back a formula
  and the tokens behind it. The depth limit is counted down: `room` is the number of levels that
  may still be opened. A level is opened by a sign, by an operator, by every operand list an
  operator hands its right operand to, and by every formula in parentheses or in an argument list; a
  level that cannot be opened is an error at the token that stands there.

  * `Formula.primary` -- numbers, symbols, calls and groups;
  * `Formula.operand` -- signs in front of a primary;
  * `Formula.steps` -- the operators that follow an operand and bind tightly enough;
  * `Formula.parse` -- a whole text.
-/
import FormulaGraph.Formula.Basic
import FormulaGraph.Formula.Error
import FormulaGraph.Token.Lexer

namespace FormulaGraph

/-- The outcome of a parser: the formula that was read, and the tokens behind it. -/
abbrev Parsed := Except FormulaError (Formula × List Token)

namespace Formula

/-- The operator that a token is, if it stands between two operands. -/
def operatorOf : TokenKind → Option BinaryOp
  | .plus => some .add
  | .minus => some .subtract
  | .star => some .multiply
  | .slash => some .divide
  | .percent => some .modulo
  | .starStar => some .power
  | .caret => some .power
  | _ => none

/-- The operator that comes next, and the tokens behind it. -/
def nextOperator? : List Token → Option (BinaryOp × List Token)
  | [] => none
  | t :: rest => (operatorOf t.kind).map (·, rest)

/-- A sign that comes next, and the tokens behind it. -/
def nextSign? : List Token → Option (Token × List Token)
  | [] => none
  | t :: rest => if t.kind = .plus ∨ t.kind = .minus then some (t, rest) else none

/-- A minus makes a negative of its operand, a plus leaves it as it is. -/
def withSign (sign : Token) (inner : Formula) : Formula :=
  if sign.kind = .minus then negative inner (sign.span.join inner.span) else inner

/-- The operator between two operands. -/
def combine (op : BinaryOp) (left right : Formula) : Formula :=
  binary op left right (left.span.join right.span)

/-- The least precedence of the operators that a sign leaves to its operand. -/
def signLevel : Nat := 4

/-- The precedences of the operators, the tightest first. -/
def levels : List Nat := [4, 2, 1]

section

variable (stop : Token)

/-- The token that comes next; behind the last one stands the stop token. -/
def current : List Token → Token
  | [] => stop
  | t :: _ => t

/-- No level can be opened here. -/
def tooDeep {α : Type} (ts : List Token) : Except FormulaError α :=
  .error (.tooDeep (current stop ts).span)

/-- The closing parenthesis that has to come next. -/
def expectClose (ts : List Token) : Except FormulaError (Token × List Token) :=
  let t := current stop ts
  if t.kind = .closeParen then .ok (t, ts.drop 1)
  else .error (.unexpected .closeParen t.kind t.span)

/-- One or more arguments up to the closing parenthesis, which is given back too. Between two
    arguments stands a comma, so `steps` bounds their number if it exceeds the number of tokens. -/
def argumentsFrom (sum : List Token → Parsed) :
    (steps : Nat) → List Token → Except FormulaError ((List Formula × Token) × List Token)
  | 0, ts => tooDeep stop ts
  | steps + 1, ts => do
    let (first, ts) ← sum ts
    if (current stop ts).kind = .comma then
      let ((others, close), ts) ← argumentsFrom sum steps (ts.drop 1)
      return ((first :: others, close), ts)
    else
      let (close, ts) ← expectClose stop ts
      return (([first], close), ts)

/-- The arguments behind an opening parenthesis; there may be none. -/
def arguments (sum : List Token → Parsed) (ts : List Token) :
    Except FormulaError ((List Formula × Token) × List Token) :=
  let t := current stop ts
  if t.kind = .closeParen then .ok (([], t), ts.drop 1)
  else argumentsFrom stop sum (ts.length + 1) ts

/-- A number, a symbol, a call or a group; `sum` reads the formulas inside. -/
def primary (sum : List Token → Parsed) (ts : List Token) : Parsed :=
  let t := current stop ts
  let rest := ts.drop 1
  match t.kind with
  | .integer value => .ok (integer value t.span, rest)
  | .float value => .ok (float value t.span, rest)
  | .word name =>
    if (current stop rest).kind = .openParen then do
      let ((args, close), ts) ← arguments stop sum (rest.drop 1)
      return (call name args (t.span.join close.span), ts)
    else .ok (symbol name t.span, rest)
  | .openParen => do
    let (inner, ts) ← sum rest
    let (close, ts) ← expectClose stop ts
    return (group inner (t.span.join close.span), ts)
  | kind => .error (.noOperand kind t.span)

/-- Hands the right operand of `op` to the operators behind it that bind tighter. Operators of one
    level are taken by `extend` all at once, so each level is met once, the tightest first. -/
def tighten (extend : Nat → Formula → List Token → Parsed) (op : BinaryOp) :
    (levels : List Nat) → Formula → List Token → Parsed
  | [], right, ts => .ok (right, ts)
  | level :: levels, right, ts =>
    match nextOperator? ts with
    | none => .ok (right, ts)
    | some (next, _) =>
      if next.precedence = level ∧ next.bindsTighter op then do
        let (right, ts) ← extend level right ts
        tighten extend op levels right ts
      else tighten extend op levels right ts

mutual
/-- An operand: a primary, or signs in front of an operand. -/
def operand : (room : Nat) → List Token → Parsed
  | 0, ts =>
    match nextSign? ts with
    | some (_, rest) => tooDeep stop rest
    | none => primary stop (tooDeep stop) ts
  | room + 1, ts =>
    match nextSign? ts with
    | some (sign, rest) => do
      let (inner, ts) ← operand room rest
      let (inner, ts) ← extend room signLevel inner ts
      return (withSign sign inner, ts)
    | none =>
      primary stop (fun ts => do
        let (first, ts) ← operand room ts
        steps room 0 first ts) ts

/-- Takes the operators that follow `left` and have at least the precedence `least`. -/
def steps : (room least : Nat) → Formula → List Token → Parsed
  | 0, least, left, ts =>
    match nextOperator? ts with
    | none => .ok (left, ts)
    | some (op, rest) => if op.precedence < least then .ok (left, ts) else tooDeep stop rest
  | room + 1, least, left, ts =>
    match nextOperator? ts with
    | none => .ok (left, ts)
    | some (op, rest) =>
      if op.precedence < least then .ok (left, ts)
      else do
        let (right, ts) ← operand room rest
        let (right, ts) ← tighten (fun level f ts => extend room level f ts) op levels right ts
        steps room least (combine op left right) ts

/-- `steps`, one level deeper. -/
def extend : (room least : Nat) → Formula → List Token → Parsed
  | 0, _, _, ts => tooDeep stop ts
  | room + 1, least, left, ts => steps room least left ts
end

/-- A formula with any operators: the content of parentheses, of an argument, of a whole text. -/
def sum : (room : Nat) → List Token → Parsed
  | 0, ts => tooDeep stop ts
  | room + 1, ts => do
    let (first, ts) ← operand stop room ts
    steps stop room 0 first ts

end

/-- The formula that a list of tokens without blanks is. -/
def ofTokens (stop : Token) (ts : List Token) : Except FormulaError Formula :=
  match ts.find? (·.kind == .bad) with
  | some t => .error (.badToken (String.ofList t.text) t.span)
  | none =>
    if ts.isEmpty then .error .empty
    else do
      let (f, rest) ← sum stop depthLimit ts
      match rest with
      | [] => .ok f
      | t :: _ => .error (.unexpected .stop t.kind t.span)

/-- Reads a text as a formula. -/
def parse (cs : List Char) : Except FormulaError Formula :=
  ofTokens (Token.stopAt (Text.byteSize cs)) ((Token.scan cs).filter (·.kind != .blank))

end Formula

end FormulaGraph
