/-
  File:      FormulaGraph/Proofs/Grammar/Shift.lean
  Subject:   Where a formula stands does not matter for reading it.

  The parser looks at the kinds of tokens and only copies their places. So if all tokens stand
  further on by the same distance, it gives the same answer, with all places further on: the
  formula, or the cause for which there is none.

  * `Span.shifted`, `Token.shifted`, `Formula.shifted`, `FormulaError.shifted` -- further on;
  * `moved` -- an answer with all its places further on;
  * `Formula.sum_shifted` -- the parser gives the moved answer for shifted tokens.
-/
import FormulaGraph.Formula.Parser

namespace FormulaGraph

/-! ## 1. Places further on -/

/-- The span, further on by a distance. -/
def Span.shifted (d : Nat) (s : Span) : Span := ⟨s.start + d, s.stop + d⟩

theorem Span.join_shifted (d : Nat) (a b : Span) :
    (a.shifted d).join (b.shifted d) = (a.join b).shifted d := rfl

/-- The token, further on by a distance. -/
def Token.shifted (d : Nat) (t : Token) : Token := { t with start := t.start + d }

@[simp] theorem Token.kind_shifted (d : Nat) (t : Token) : (t.shifted d).kind = t.kind := rfl

@[simp] theorem Token.span_shifted (d : Nat) (t : Token) :
    (t.shifted d).span = t.span.shifted d := by
  simp only [Token.span, Token.shifted, Span.shifted, Nat.add_right_comm]

namespace Formula

mutual
/-- The formula, with all spans further on by a distance. -/
def shifted (d : Nat) : Formula → Formula
  | integer value span => integer value (span.shifted d)
  | float value span => float value (span.shifted d)
  | symbol name span => symbol name (span.shifted d)
  | binary op left right span => binary op (left.shifted d) (right.shifted d) (span.shifted d)
  | negative operand span => negative (operand.shifted d) (span.shifted d)
  | call name arguments span => call name (shiftedAll d arguments) (span.shifted d)
  | group inner span => group (inner.shifted d) (span.shifted d)

def shiftedAll (d : Nat) : List Formula → List Formula
  | [] => []
  | f :: fs => f.shifted d :: shiftedAll d fs
end

@[simp] theorem span_shifted (d : Nat) (f : Formula) : (f.shifted d).span = f.span.shifted d := by
  cases f <;> rfl

end Formula

/-- The cause, with its place further on. -/
def FormulaError.shifted (d : Nat) : FormulaError → FormulaError
  | badToken text span => badToken text (span.shifted d)
  | empty => empty
  | tooDeep span => tooDeep (span.shifted d)
  | unexpected wanted found span => unexpected wanted found (span.shifted d)
  | noOperand found span => noOperand found (span.shifted d)
  | wrongArity name arity given span => wrongArity name arity given (span.shifted d)
  | moduloByZero span => moduloByZero (span.shifted d)

/-- The answer, with its places further on. -/
def moved {α : Type} (d : Nat) (move : α → α) (r : Except FormulaError (α × List Token)) :
    Except FormulaError (α × List Token) :=
  match r with
  | .ok (a, rest) => .ok (move a, rest.map (Token.shifted d))
  | .error e => .error (e.shifted d)

theorem moved_bind {α β : Type} {d : Nat} {move : α → α} {move' : β → β}
    {r : Except FormulaError (α × List Token)}
    {k k' : α × List Token → Except FormulaError (β × List Token)}
    (h : ∀ a rest, k' (move a, rest.map (Token.shifted d)) = moved d move' (k (a, rest))) :
    (moved d move r >>= k') = moved d move' (r >>= k) := by
  cases r with
  | ok found => exact h found.1 found.2
  | error e => rfl

namespace Formula

variable {d : Nat} {stop : Token}

/-! ## 2. Primaries -/

/-- A parser that gives the moved answer for shifted tokens. -/
def Shifts (d : Nat) (read read' : List Token → Parsed) : Prop :=
  ∀ ts, read' (ts.map (Token.shifted d)) = moved d (shifted d) (read ts)

theorem current_shifted (ts : List Token) :
    current (stop.shifted d) (ts.map (Token.shifted d)) = (current stop ts).shifted d := by
  cases ts <;> rfl

theorem nextOperator?_shifted (ts : List Token) :
    nextOperator? (ts.map (Token.shifted d)) =
      (nextOperator? ts).map fun found => (found.1, found.2.map (Token.shifted d)) := by
  cases ts with
  | nil => rfl
  | cons t ts =>
    show (operatorOf t.kind).map _ = ((operatorOf t.kind).map _).map _
    rw [Option.map_map]
    rfl

theorem nextSign?_shifted (ts : List Token) :
    nextSign? (ts.map (Token.shifted d)) =
      (nextSign? ts).map fun found => (found.1.shifted d, found.2.map (Token.shifted d)) := by
  cases ts with
  | nil => rfl
  | cons t ts =>
    show (if t.kind = .plus ∨ t.kind = .minus then _ else _) = Option.map _ (ite _ _ _)
    split <;> rfl

theorem tooDeep_shifted {α : Type} (move : α → α) (ts : List Token) :
    tooDeep (stop.shifted d) (ts.map (Token.shifted d)) = moved d move (tooDeep stop ts) := by
  simp only [tooDeep, moved, FormulaError.shifted, current_shifted, Token.span_shifted]

theorem withSign_shifted (sign : Token) (inner : Formula) :
    withSign (sign.shifted d) (inner.shifted d) = (withSign sign inner).shifted d := by
  simp only [withSign, Token.kind_shifted, Token.span_shifted, span_shifted, Span.join_shifted]
  split <;> rfl

theorem combine_shifted (op : BinaryOp) (left right : Formula) :
    combine op (left.shifted d) (right.shifted d) = (combine op left right).shifted d := by
  simp only [combine, shifted, span_shifted, Span.join_shifted]

theorem expectClose_shifted (ts : List Token) :
    expectClose (stop.shifted d) (ts.map (Token.shifted d)) =
      moved d (Token.shifted d) (expectClose stop ts) := by
  simp only [expectClose, current_shifted, Token.kind_shifted]
  split
  · simp only [moved, List.map_drop]
  · simp only [moved, FormulaError.shifted, Token.span_shifted]

/-- Arguments and the parenthesis that closes them, further on. -/
def shiftedArguments (d : Nat) (found : List Formula × Token) : List Formula × Token :=
  (shiftedAll d found.1, found.2.shifted d)

theorem argumentsFrom_shifted {read read' : List Token → Parsed} (h : Shifts d read read')
    (steps : Nat) (ts : List Token) :
    argumentsFrom (stop.shifted d) read' steps (ts.map (Token.shifted d)) =
      moved d (shiftedArguments d) (argumentsFrom stop read steps ts) := by
  induction steps generalizing ts with
  | zero => exact tooDeep_shifted _ ts
  | succ steps ih =>
    rw [argumentsFrom, argumentsFrom, h ts]
    refine moved_bind fun first rest => ?_
    simp only [current_shifted, Token.kind_shifted]
    split
    · rw [← List.map_drop, ih]
      exact moved_bind fun found rest => rfl
    · rw [expectClose_shifted]
      exact moved_bind fun close rest => rfl

theorem arguments_shifted {read read' : List Token → Parsed} (h : Shifts d read read')
    (ts : List Token) :
    arguments (stop.shifted d) read' (ts.map (Token.shifted d)) =
      moved d (shiftedArguments d) (arguments stop read ts) := by
  simp only [arguments, current_shifted, Token.kind_shifted, List.length_map]
  split
  · simp only [moved, List.map_drop]
    rfl
  · exact argumentsFrom_shifted h _ ts

theorem primary_shifted {read read' : List Token → Parsed} (h : Shifts d read read') :
    Shifts d (primary stop read) (primary (stop.shifted d) read') := by
  intro ts
  unfold primary
  simp only [current_shifted, Token.kind_shifted, Token.span_shifted, ← List.map_drop]
  split
  · rfl
  · rfl
  · split
    · rw [arguments_shifted h]
      refine moved_bind fun found rest => ?_
      simp only [moved, shifted, shiftedArguments, Token.span_shifted, Span.join_shifted, pure,
        Except.pure]
    · rfl
  · rw [h]
    refine moved_bind fun inner rest => ?_
    rw [expectClose_shifted]
    refine moved_bind fun close rest => ?_
    simp only [moved, shifted, Token.span_shifted, Span.join_shifted, pure, Except.pure]
  · rfl

/-! ## 3. Operators -/

/-- A loop over operators that gives the moved answer for shifted tokens. -/
def LoopShifts (d : Nat) (read read' : Nat → Formula → List Token → Parsed) : Prop :=
  ∀ least left ts, read' least (left.shifted d) (ts.map (Token.shifted d)) =
    moved d (shifted d) (read least left ts)

theorem tighten_shifted {extend extend' : Nat → Formula → List Token → Parsed}
    (h : LoopShifts d extend extend') (op : BinaryOp) (levels : List Nat) (right : Formula)
    (ts : List Token) :
    tighten extend' op levels (right.shifted d) (ts.map (Token.shifted d)) =
      moved d (shifted d) (tighten extend op levels right ts) := by
  induction levels generalizing right ts with
  | nil => rfl
  | cons level levels ih =>
    rw [tighten, tighten, nextOperator?_shifted]
    cases nextOperator? ts with
    | none => rfl
    | some found =>
      simp only [Option.map_some]
      split
      · rw [h]
        exact moved_bind fun right rest => ih right rest
      · exact ih right ts

/-- **The parser gives the moved answer**, whatever room there is. -/
theorem parser_shifted (room : Nat) :
    Shifts d (operand stop room) (operand (stop.shifted d) room) ∧
      LoopShifts d (steps stop room) (steps (stop.shifted d) room) ∧
      LoopShifts d (extend stop room) (extend (stop.shifted d) room) := by
  induction room with
  | zero =>
    refine ⟨fun ts => ?_, fun least left ts => ?_, fun least left ts => tooDeep_shifted _ ts⟩
    · rw [operand, operand, nextSign?_shifted]
      cases nextSign? ts with
      | none => exact primary_shifted (fun ts => tooDeep_shifted _ ts) ts
      | some found => exact tooDeep_shifted _ found.2
    · rw [steps, steps, nextOperator?_shifted]
      cases nextOperator? ts with
      | none => rfl
      | some found =>
        simp only [Option.map_some]
        split
        · rfl
        · exact tooDeep_shifted _ found.2
  | succ room ih =>
    obtain ⟨ho, hs, he⟩ := ih
    refine ⟨fun ts => ?_, fun least left ts => ?_, hs⟩
    · rw [operand, operand, nextSign?_shifted]
      cases nextSign? ts with
      | none =>
        refine primary_shifted (fun ts => ?_) ts
        rw [ho]
        exact moved_bind fun first rest => hs 0 first rest
      | some found =>
        simp only [Option.map_some]
        rw [ho]
        refine moved_bind fun inner rest => ?_
        rw [he]
        refine moved_bind fun inner rest => ?_
        rw [withSign_shifted]
        rfl
    · rw [steps, steps, nextOperator?_shifted]
      cases nextOperator? ts with
      | none => rfl
      | some found =>
        simp only [Option.map_some]
        split
        · rfl
        · rw [ho]
          refine moved_bind fun right rest => ?_
          rw [tighten_shifted he]
          refine moved_bind fun right rest => ?_
          rw [combine_shifted]
          exact hs _ _ _

theorem sum_shifted (room : Nat) : Shifts d (sum stop room) (sum (stop.shifted d) room) := by
  intro ts
  cases room with
  | zero => exact tooDeep_shifted _ ts
  | succ room =>
    rw [sum, sum, (parser_shifted room).1]
    exact moved_bind fun first rest => (parser_shifted room).2.1 0 first rest

end Formula

end FormulaGraph
