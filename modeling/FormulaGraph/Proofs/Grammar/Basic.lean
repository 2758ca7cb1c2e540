/-
  File:      FormulaGraph/Proofs/Grammar/Basic.lean
  Subject:   The grammar of formulas, and the steps of the parser that belong to it.

  The grammar has one layer for each precedence. Sums and products group to the left, powers to the
  right, and a sign stands between products and powers:

      sum       := term (('+' | '-') term)*
      term      := factor (('*' | '/' | '%') factor)*
      factor    := ('-' | '+') factor | power
      power     := primary [('**' | '^') factor]
      primary   := integer | float | word | word '(' [sum (',' sum)*] ')' | '(' sum ')'

  A derivation is about tokens without blanks and gives a tree without spans.

  * `Shape`, `Formula.shape` -- a formula without its spans;
  * `Grammar.Sum` and the layers below it -- the grammar;
  * `Grammar.Sum.sentence` -- what every derived list of tokens is like;
  * `Formula.tighten_of_tight`, `Formula.tighten_of_loose` -- how far a right operand is taken.
-/
import FormulaGraph.Formula.Parser
import FormulaGraph.Proofs.Bind

namespace FormulaGraph

/-! ## 1. Trees without spans -/

/-- A formula without spans. -/
inductive Shape where
  | integer (value : Int)
  | float (value : Float)
  | symbol (name : String)
  | binary (op : BinaryOp) (left right : Shape)
  | negative (operand : Shape)
  | call (name : String) (arguments : List Shape)
  | group (inner : Shape)

namespace Formula

mutual
/-- The formula without its spans. -/
def shape : Formula → Shape
  | integer value _ => .integer value
  | float value _ => .float value
  | symbol name _ => .symbol name
  | binary op left right _ => .binary op left.shape right.shape
  | negative operand _ => .negative operand.shape
  | call name arguments _ => .call name (shapeAll arguments)
  | group inner _ => .group inner.shape

def shapeAll : List Formula → List Shape
  | [] => []
  | f :: fs => f.shape :: shapeAll fs
end

end Formula

/-! ## 2. The grammar -/

namespace Grammar

/-- The operators between the terms of a sum. -/
inductive SumOp : TokenKind → BinaryOp → Prop where
  | plus : SumOp .plus .add
  | minus : SumOp .minus .subtract

/-- The operators between the factors of a term. -/
inductive TermOp : TokenKind → BinaryOp → Prop where
  | star : TermOp .star .multiply
  | slash : TermOp .slash .divide
  | percent : TermOp .percent .modulo

/-- The two ways to write a power. -/
inductive PowerOp : TokenKind → Prop where
  | starStar : PowerOp .starStar
  | caret : PowerOp .caret

mutual
/-- `sum := term (('+' | '-') term)*`. -/
inductive Sum : List Token → Shape → Prop where
  | term {ts : List Token} {s : Shape} (h : Term ts s) : Sum ts s
  | step {ts us : List Token} {t : Token} {op : BinaryOp} {left right : Shape} (h : Sum ts left)
      (ho : SumOp t.kind op) (hr : Term us right) : Sum (ts ++ t :: us) (.binary op left right)

/-- `term := factor (('*' | '/' | '%') factor)*`. -/
inductive Term : List Token → Shape → Prop where
  | factor {ts : List Token} {s : Shape} (h : Factor ts s) : Term ts s
  | step {ts us : List Token} {t : Token} {op : BinaryOp} {left right : Shape} (h : Term ts left)
      (ho : TermOp t.kind op) (hr : Factor us right) : Term (ts ++ t :: us) (.binary op left right)

/-- `factor := ('-' | '+') factor | power`. -/
inductive Factor : List Token → Shape → Prop where
  | minus {ts : List Token} {t : Token} {s : Shape} (ht : t.kind = .minus) (h : Factor ts s) :
      Factor (t :: ts) (.negative s)
  | plus {ts : List Token} {t : Token} {s : Shape} (ht : t.kind = .plus) (h : Factor ts s) :
      Factor (t :: ts) s
  | power {ts : List Token} {s : Shape} (h : Power ts s) : Factor ts s

/-- `power := primary [('**' | '^') factor]`. -/
inductive Power : List Token → Shape → Prop where
  | primary {ts : List Token} {s : Shape} (h : Primary ts s) : Power ts s
  | step {ts us : List Token} {t : Token} {base exponent : Shape} (h : Primary ts base)
      (ho : PowerOp t.kind) (hr : Factor us exponent) :
      Power (ts ++ t :: us) (.binary .power base exponent)

/-- `primary := integer | float | word | word '(' [sum (',' sum)*] ')' | '(' sum ')'`. -/
inductive Primary : List Token → Shape → Prop where
  | integer {t : Token} {value : Nat} (ht : t.kind = .integer value) : Primary [t] (.integer value)
  | float {t : Token} {value : Float} (ht : t.kind = .float value) : Primary [t] (.float value)
  | symbol {t : Token} {name : String} (ht : t.kind = .word name) : Primary [t] (.symbol name)
  | emptyCall {t o c : Token} {name : String} (ht : t.kind = .word name) (ho : o.kind = .openParen)
      (hc : c.kind = .closeParen) : Primary [t, o, c] (.call name [])
  | call {t o c : Token} {name : String} {ts : List Token} {args : List Shape}
      (ht : t.kind = .word name) (ho : o.kind = .openParen) (h : Arguments ts args)
      (hc : c.kind = .closeParen) : Primary (t :: o :: (ts ++ [c])) (.call name args)
  | group {o c : Token} {ts : List Token} {s : Shape} (ho : o.kind = .openParen) (h : Sum ts s)
      (hc : c.kind = .closeParen) : Primary (o :: (ts ++ [c])) (.group s)

/-- `sum (',' sum)*`. -/
inductive Arguments : List Token → List Shape → Prop where
  | one {ts : List Token} {s : Shape} (h : Sum ts s) : Arguments ts [s]
  | more {ts us : List Token} {t : Token} {s : Shape} {args : List Shape} (h : Sum ts s)
      (ht : t.kind = .comma) (hr : Arguments us args) : Arguments (ts ++ t :: us) (s :: args)
end

/-- A sign leaves a power to its operand: `-x^2` is the negative of a square. -/
example {m x p n : Token} (hm : m.kind = .minus) (hx : x.kind = .word "x") (hp : p.kind = .caret)
    (hn : n.kind = .integer 2) :
    Sum [m, x, p, n] (.negative (.binary .power (.symbol "x") (.integer 2))) := by
  have hcaret : PowerOp p.kind := by
    rw [hp]
    exact .caret
  have hpower : Power ([x] ++ p :: [n]) (.binary .power (.symbol "x") (.integer 2)) :=
    .step (.symbol hx) hcaret (.power (.primary (.integer hn)))
  exact .term (.factor (.minus hm (.power hpower)))

/-- What every derived list of tokens is like: it begins with a token that closes nothing, and none
    of its tokens is bad. -/
structure Sentence (ts : List Token) : Prop where
  starts : ∃ t us, ts = t :: us ∧ t.kind ≠ .closeParen
  clean : ∀ t ∈ ts, t.kind ≠ .bad

theorem Sentence.ne_nil {ts : List Token} (h : Sentence ts) : ts ≠ [] := by
  obtain ⟨t, us, rfl, -⟩ := h.starts
  exact List.cons_ne_nil t us

theorem Sentence.single {t : Token} (h₁ : t.kind ≠ .closeParen) (h₂ : t.kind ≠ .bad) :
    Sentence [t] where
  starts := ⟨t, [], rfl, h₁⟩
  clean u hu := by
    rw [List.mem_singleton.mp hu]
    exact h₂

/-- A token in front of clean tokens. -/
theorem Sentence.cons {t : Token} {ts : List Token} (h₁ : t.kind ≠ .closeParen)
    (h₂ : t.kind ≠ .bad) (h : ∀ u ∈ ts, u.kind ≠ .bad) : Sentence (t :: ts) where
  starts := ⟨t, ts, rfl, h₁⟩
  clean u hu := by
    rcases List.mem_cons.mp hu with rfl | hu
    · exact h₂
    · exact h u hu

theorem Sentence.append {t : Token} {ts us : List Token} (h : Sentence ts) (ht : t.kind ≠ .bad)
    (h' : ∀ u ∈ us, u.kind ≠ .bad) : Sentence (ts ++ t :: us) where
  starts := by
    obtain ⟨u, vs, rfl, hu⟩ := h.starts
    exact ⟨u, vs ++ t :: us, rfl, hu⟩
  clean u hu := by
    rcases List.mem_append.mp hu with hu | hu
    · exact h.clean u hu
    · rcases List.mem_cons.mp hu with rfl | hu
      · exact ht
      · exact h' u hu

theorem Sentence.closed {c : Token} {ts : List Token} (h : Sentence ts)
    (hc : c.kind = .closeParen) : ∀ u ∈ ts ++ [c], u.kind ≠ .bad :=
  (h.append (by simp [hc]) fun u hu => absurd hu List.not_mem_nil).clean

theorem SumOp.ne_bad {kind : TokenKind} {op : BinaryOp} (h : SumOp kind op) : kind ≠ .bad := by
  cases h <;> exact nofun

theorem TermOp.ne_bad {kind : TokenKind} {op : BinaryOp} (h : TermOp kind op) : kind ≠ .bad := by
  cases h <;> exact nofun

theorem PowerOp.ne_bad {kind : TokenKind} (h : PowerOp kind) : kind ≠ .bad := by
  cases h <;> exact nofun

mutual
theorem Sum.sentence : ∀ {ts : List Token} {s : Shape}, Sum ts s → Sentence ts
  | _, _, .term h => h.sentence
  | _, _, .step h ho hr => h.sentence.append ho.ne_bad hr.sentence.clean

theorem Term.sentence : ∀ {ts : List Token} {s : Shape}, Term ts s → Sentence ts
  | _, _, .factor h => h.sentence
  | _, _, .step h ho hr => h.sentence.append ho.ne_bad hr.sentence.clean

theorem Factor.sentence : ∀ {ts : List Token} {s : Shape}, Factor ts s → Sentence ts
  | _, _, .minus ht h => .cons (by simp [ht]) (by simp [ht]) h.sentence.clean
  | _, _, .plus ht h => .cons (by simp [ht]) (by simp [ht]) h.sentence.clean
  | _, _, .power h => h.sentence

theorem Power.sentence : ∀ {ts : List Token} {s : Shape}, Power ts s → Sentence ts
  | _, _, .primary h => h.sentence
  | _, _, .step h ho hr => h.sentence.append ho.ne_bad hr.sentence.clean

theorem Primary.sentence : ∀ {ts : List Token} {s : Shape}, Primary ts s → Sentence ts
  | _, _, .integer ht => .single (by simp [ht]) (by simp [ht])
  | _, _, .float ht => .single (by simp [ht]) (by simp [ht])
  | _, _, .symbol ht => .single (by simp [ht]) (by simp [ht])
  | _, _, .emptyCall ht ho hc => .cons (by simp [ht]) (by simp [ht]) (by simp [ho, hc])
  | _, _, .call ht ho h hc =>
      .cons (by simp [ht]) (by simp [ht])
        (Sentence.cons (by simp [ho]) (by simp [ho]) (h.sentence.closed hc)).clean
  | _, _, .group ho h hc => .cons (by simp [ho]) (by simp [ho]) (h.sentence.closed hc)

theorem Arguments.sentence : ∀ {ts : List Token} {args : List Shape}, Arguments ts args →
    Sentence ts
  | _, _, .one h => h.sentence
  | _, _, .more h ht hr => h.sentence.append (by simp [ht]) hr.sentence.clean
end

end Grammar

/-! ## 3. The steps of the parser -/

namespace Formula

/-- An operand and the operators behind it. -/
def start (stop : Token) (room room' least : Nat) (ts : List Token) : Parsed := do
  let (first, ts) ← operand stop room ts
  steps stop room' least first ts

/-- The right operand of an operator. -/
def readRight (stop : Token) (room : Nat) (op : BinaryOp) (ts : List Token) : Parsed := do
  let (right, ts) ← operand stop room ts
  tighten (fun level f ts => extend stop room level f ts) op levels right ts

/-- Takes the operators of one level if one of them comes next. -/
def takeLevel (extend : Nat → Formula → List Token → Parsed) (level : Nat) (right : Formula)
    (ts : List Token) : Parsed :=
  match nextOperator? ts with
  | none => .ok (right, ts)
  | some (next, _) => if next.precedence = level then extend level right ts else .ok (right, ts)

variable {extend : Nat → Formula → List Token → Parsed} {op : BinaryOp} {right : Formula}
  {ts : List Token}

/-- A level at which no operator binds tighter is passed over. -/
theorem tighten_cons_of_not {level : Nat} {levels : List Nat}
    (h : ∀ next : BinaryOp, next.precedence = level → next.bindsTighter op = false) :
    tighten extend op (level :: levels) right ts = tighten extend op levels right ts := by
  rw [tighten]
  cases hn : nextOperator? ts with
  | none =>
    cases levels with
    | nil => rfl
    | cons _ _ =>
      rw [tighten, hn]
  | some found =>
    obtain ⟨next, rest⟩ := found
    show (if next.precedence = level ∧ next.bindsTighter op = true then _ else _) = _
    rw [if_neg]
    rintro ⟨hp, hb⟩
    rw [h next hp] at hb
    cases hb

/-- At a level whose operators bind tighter, all of them are taken. -/
theorem tighten_cons_of_tighter {level : Nat} {levels : List Nat}
    (h : ∀ next : BinaryOp, next.precedence = level → next.bindsTighter op = true) :
    tighten extend op (level :: levels) right ts = (do
      let (right, ts) ← takeLevel extend level right ts
      tighten extend op levels right ts) := by
  rw [tighten]
  unfold takeLevel
  cases hn : nextOperator? ts with
  | none =>
    show _ = tighten extend op levels right ts
    cases levels with
    | nil => rfl
    | cons _ _ =>
      rw [tighten, hn]
  | some found =>
    obtain ⟨next, rest⟩ := found
    show (if next.precedence = level ∧ next.bindsTighter op = true then _ else _) = _
    by_cases hp : next.precedence = level
    · simp only [hp, h next hp, and_self, if_true]
    · simp only [hp, false_and, if_false]
      rfl

theorem bindsTighter_of_lt {next : BinaryOp} (h : op.precedence < next.precedence) :
    next.bindsTighter op = true := by
  simp [BinaryOp.bindsTighter, h]

theorem bindsTighter_power {next : BinaryOp} (h : next.precedence = 4) :
    next.bindsTighter op = true := by
  cases next with
  | power => cases op <;> rfl
  | _ => cases h

theorem not_bindsTighter_of_le {next : BinaryOp} (h : next.precedence ≤ op.precedence)
    (hp : next.precedence ≠ 4) : next.bindsTighter op = false := by
  cases next with
  | power => exact absurd rfl hp
  | _ => simpa [BinaryOp.bindsTighter, BinaryOp.rightAssociative] using h

/-- Behind a product or a power only powers are taken. -/
theorem tighten_of_tight (h : 2 ≤ op.precedence) :
    tighten extend op levels right ts = takeLevel extend 4 right ts := by
  have hrest : ∀ (right : Formula) (ts : List Token),
      tighten extend op [2, 1] right ts = .ok (right, ts) := by
    intro right ts
    rw [tighten_cons_of_not fun next hn => not_bindsTighter_of_le (by omega) (by omega),
      tighten_cons_of_not fun next hn => not_bindsTighter_of_le (by omega) (by omega), tighten]
  rw [levels, tighten_cons_of_tighter fun next hn => bindsTighter_power hn]
  simp only [hrest]
  cases takeLevel extend 4 right ts with
  | error e => rfl
  | ok found => rfl

/-- Behind a sum, first powers and then products are taken. -/
theorem tighten_of_loose (h : op.precedence = 1) :
    tighten extend op levels right ts = (do
      let (right, ts) ← takeLevel extend 4 right ts
      takeLevel extend 2 right ts) := by
  have hrest : ∀ (right : Formula) (ts : List Token),
      tighten extend op [2, 1] right ts = takeLevel extend 2 right ts := by
    intro right ts
    have hlast : ∀ (right : Formula) (ts : List Token),
        tighten extend op [1] right ts = .ok (right, ts) := by
      intro right ts
      rw [tighten_cons_of_not fun next hn => not_bindsTighter_of_le (by omega) (by omega), tighten]
    rw [tighten_cons_of_tighter fun next hn => bindsTighter_of_lt (by omega)]
    simp only [hlast]
    cases takeLevel extend 2 right ts with
    | error e => rfl
    | ok found => rfl
  rw [levels, tighten_cons_of_tighter fun next hn => bindsTighter_power hn]
  simp only [hrest]

end Formula

end FormulaGraph
