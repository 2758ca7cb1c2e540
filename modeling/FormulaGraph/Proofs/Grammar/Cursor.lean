/-
  File:      FormulaGraph/Proofs/Grammar/Cursor.lean
  Subject:   The parser as a machine with a cursor.

  The parser hands on the tokens that are left and the room that is left. The machine of this file
  has all tokens in one list, an index into it and a count of the open levels, and it reads, adds
  and subtracts like a program on machine words does: an index out of range, a subtraction below
  zero and a cut inside a character are faults. With enough steps it gives the parser's answer, so
  it has no fault and comes to an end on every text.

  * `Halt`, `State`, `Machine` -- the machine;
  * `binary`, `loop`, `tighter`, `unary`, `primary` -- its procedures, with a bound on the steps;
  * `At` -- where the machine is when the parser has some tokens and some room left;
  * `Reaches` -- the machine gives what the parser gives;
  * `Cursor.parse_eq` -- it does so on every text.
-/
import FormulaGraph.Proofs.Grammar.Recognition
import FormulaGraph.Proofs.Token.Layout

namespace FormulaGraph

namespace Cursor

open Formula (current operatorOf nextOperator? nextSign? combine withSign signLevel levels tooDeep)

/-! ## 1. The machine -/

/-- Why the machine stops without a formula. -/
inductive Halt where
  /-- The text is refused. -/
  | refused (cause : FormulaError)
  /-- An index out of range, a subtraction below zero, or a cut inside a character. -/
  | fault
  /-- The steps have run out. -/
  | exhausted

/-- The index of the token that comes next, and the number of levels that are open. -/
structure State where
  cursor : Nat
  depth : Nat

abbrev Machine (α : Type) := EStateM Halt State α

/-- Gives levels back. -/
def release (count : Nat) : Machine Unit := fun s =>
  if count ≤ s.depth then .ok () { s with depth := s.depth - count } else .error .fault s

section

variable (all : List Token)

/-- The token at an offset from the cursor; behind the last token stands the last token. -/
def peek (offset : Int) : Machine Token := fun s =>
  let offset := if s.cursor + offset < 0 then 0 else offset
  if all.length < 1 then .error .fault s
  else
    match all[min (s.cursor + offset).toNat (all.length - 1)]? with
    | some t => .ok t s
    | none => .error .fault s

/-- The token that comes next, and one step on. -/
def consume : Machine Token := do
  modify fun s => { s with cursor := s.cursor + 1 }
  peek all (-1)

/-- Opens a level. -/
def descend : Machine Unit := do
  modify fun s => { s with depth := s.depth + 1 }
  if (← get).depth > depthLimit then
    let t ← peek all 0
    throw (.refused (.tooDeep t.span))

def operator? : Machine (Option BinaryOp) := do
  let t ← peek all 0
  return operatorOf t.kind

def expectClose : Machine Unit := do
  let t ← consume all
  if t.kind = .closeParen then return ()
  else throw (.refused (.unexpected .closeParen t.kind t.span))

/-- One step on if a token of this kind comes next. -/
def consumeIf (kind : TokenKind) : Machine Bool := do
  let t ← peek all 0
  if t.kind = kind then
    let _ ← consume all
    return true
  else return false

mutual
/-- An operand, unless it is given, and the operators behind it. -/
def binary : (steps : Nat) → Option Formula → (least : Nat) → Machine Formula
  | 0, _, _ => throw .exhausted
  | n + 1, some left, least => do
    descend all
    loop n left least 1
  | n + 1, none, least => do
    descend all
    let left ← unary n
    loop n left least 1

/-- The operators behind `left`; `opened` counts the levels to give back. -/
def loop : (steps : Nat) → Formula → (least opened : Nat) → Machine Formula
  | 0, _, _, _ => throw .exhausted
  | n + 1, left, least, opened => do
    match ← operator? all with
    | none =>
      release opened
      return left
    | some op =>
      if op.precedence < least then
        release opened
        return left
      else
        let _ ← consume all
        descend all
        let right ← unary n
        let right ← tighter n op right
        loop n (combine op left right) least (opened + 1)

/-- The operators behind the right operand of `op` that bind tighter. -/
def tighter : (steps : Nat) → BinaryOp → Formula → Machine Formula
  | 0, _, _ => throw .exhausted
  | n + 1, op, right => do
    match ← operator? all with
    | none => return right
    | some next =>
      if next.bindsTighter op then
        let right ← binary n (some right) next.precedence
        tighter n op right
      else return right

/-- Signs in front of a primary. -/
def unary : (steps : Nat) → Machine Formula
  | 0 => throw .exhausted
  | n + 1 => do
    let sign ← peek all 0
    if sign.kind = .plus ∨ sign.kind = .minus then
      let _ ← consume all
      descend all
      let operand ← unary n
      let operand ← binary n (some operand) signLevel
      release 1
      return withSign sign operand
    else primary n

def primary : (steps : Nat) → Machine Formula
  | 0 => throw .exhausted
  | n + 1 => do
    let first ← consume all
    match first.kind with
    | .integer value => return .integer value first.span
    | .float value => return .float value first.span
    | .word name =>
      let next ← peek all 0
      if next.kind = .openParen then
        let _ ← consume all
        let args ← arguments n
        let last ← peek all (-1)
        return .call name args (first.span.join last.span)
      else return .symbol name first.span
    | .openParen =>
      let inner ← binary n none 0
      expectClose all
      let last ← peek all (-1)
      return .group inner (first.span.join last.span)
    | kind => throw (.refused (.noOperand kind first.span))

def arguments : (steps : Nat) → Machine (List Formula)
  | 0 => throw .exhausted
  | n + 1 => do
    if ← consumeIf all .closeParen then return []
    else someArguments n

def someArguments : (steps : Nat) → Machine (List Formula)
  | 0 => throw .exhausted
  | n + 1 => do
    let first ← binary n none 0
    if ← consumeIf all .comma then
      let others ← someArguments n
      return first :: others
    else
      expectClose all
      return [first]
end

/-- All tokens as one formula. -/
def whole (steps : Nat) : Machine Formula := do
  if all.isEmpty then throw (.refused .empty)
  else
    let first ← peek all 0
    if first.kind = .stop then throw (.refused .empty)
    else
      let f ← binary all steps none 0
      let t ← peek all 0
      if t.kind = .stop then return f else throw (.refused (.unexpected .stop t.kind t.span))

end

/-- What the machine gives, without the state it leaves. -/
def answer {α : Type} : EStateM.Result Halt State α → Except Halt α
  | .ok a _ => .ok a
  | .error halt _ => .error halt

/-- A text as a formula; the text of a bad token is cut out of the text. -/
def parse (steps : Nat) (cs : List Char) : Except Halt Formula :=
  let all := (Token.lex cs).filter (·.kind != .blank)
  match all.find? (·.kind == .bad) with
  | some t =>
    match t.span.text? cs with
    | some text => .error (.refused (.badToken (String.ofList text) t.span))
    | none => .error .fault
  | none => answer (whole all steps ⟨0, 0⟩)

/-! ## 2. Where the machine is -/

variable {all : List Token} {stop t : Token} {ts rest : List Token} {room : Nat} {s : State}

/-- The cursor stands in front of `ts`. -/
def Before (all : List Token) (stop : Token) (ts : List Token) (s : State) : Prop :=
  ∃ front, all = front ++ (ts ++ [stop]) ∧ s.cursor = front.length

/-- The machine where the parser has the tokens `ts` and some room left. -/
structure At (all : List Token) (stop : Token) (ts : List Token) (room : Nat) (s : State) :
    Prop where
  place : Before all stop ts s
  levels : s.depth + room = depthLimit

/-- The token in front of the cursor. -/
def Behind (all : List Token) (t : Token) (s : State) : Prop :=
  ∃ i, s.cursor = i + 1 ∧ all[i]? = some t

theorem peek_of_get {offset : Int} {i : Nat} (hi : (s.cursor : Int) + offset = i)
    (ht : all[i]? = some t) : peek all offset s = .ok t s := by
  have hlt : i < all.length := (List.getElem?_eq_some_iff.mp ht).1
  have hnat : ((s.cursor : Int) + offset).toNat = i := by
    rw [hi]
    rfl
  unfold peek
  dsimp only
  rw [if_neg (by omega), if_neg (by omega), hnat, Nat.min_eq_left (by omega), ht]

theorem peek_back (h : Behind all t s) : peek all (-1) s = .ok t s := by
  obtain ⟨i, hi, ht⟩ := h
  exact peek_of_get (by omega) ht

theorem Before.peek (h : Before all stop ts s) : peek all 0 s = .ok (current stop ts) s := by
  obtain ⟨front, rfl, hcursor⟩ := h
  refine peek_of_get (by rw [hcursor]; exact Int.add_zero _) ?_
  cases ts with
  | nil => simp [current]
  | cons t ts => simp [current]

theorem operator_current (h : At all stop ts room s) (hstop : stop.kind = .stop) :
    operator? all s = .ok ((nextOperator? ts).map (·.1)) s := by
  refine (bindM_of_eq_ok h.place.peek).trans ?_
  show EStateM.Result.ok _ s = _
  congr 1
  cases ts with
  | nil =>
    rw [current, hstop]
    rfl
  | cons t ts =>
    rw [current, nextOperator?, Option.map_map]
    cases operatorOf t.kind <;> rfl

/-- A token is taken. -/
theorem consume_cons (h : At all stop (t :: ts) room s) :
    ∃ s', consume all s = .ok t s' ∧ At all stop ts room s' ∧ Behind all t s' := by
  obtain ⟨front, rfl, hcursor⟩ := h.place
  have hbehind : Behind (front ++ (t :: ts ++ [stop])) t ⟨s.cursor + 1, s.depth⟩ :=
    ⟨s.cursor, rfl, by rw [hcursor]; simp⟩
  refine ⟨⟨s.cursor + 1, s.depth⟩, peek_back hbehind, ⟨⟨front ++ [t], by simp, ?_⟩, h.levels⟩,
    hbehind⟩
  rw [hcursor, List.length_append]
  rfl

/-- Behind the last token the stop token is taken. -/
theorem consume_nil (h : At all stop [] room s) : ∃ s', consume all s = .ok stop s' := by
  obtain ⟨front, rfl, hcursor⟩ := h.place
  have hbehind : Behind (front ++ ([] ++ [stop])) stop ⟨s.cursor + 1, s.depth⟩ :=
    ⟨s.cursor, rfl, by rw [hcursor]; simp⟩
  exact ⟨_, peek_back hbehind⟩

/-- With room for a level it is opened. -/
theorem descend_succ (h : At all stop ts (room + 1) s) :
    ∃ s', descend all s = .ok () s' ∧ At all stop ts room s' := by
  have hlevels := h.levels
  refine ⟨⟨s.cursor, s.depth + 1⟩, ?_, h.place, by dsimp only; omega⟩
  show (if s.depth + 1 > depthLimit then _ else _ : Machine Unit) ⟨s.cursor, s.depth + 1⟩ = _
  rw [if_neg (by omega)]
  rfl

/-- Without room the text is refused at the token that comes next. -/
theorem descend_zero (h : At all stop ts 0 s) :
    ∃ s', descend all s = .error (.refused (.tooDeep (current stop ts).span)) s' := by
  have hlevels := h.levels
  refine ⟨⟨s.cursor, s.depth + 1⟩, ?_⟩
  show (if s.depth + 1 > depthLimit then _ else _ : Machine Unit) ⟨s.cursor, s.depth + 1⟩ = _
  rw [if_pos (by omega)]
  have hpeek : peek all 0 ⟨s.cursor, s.depth + 1⟩ =
      .ok (current stop ts) ⟨s.cursor, s.depth + 1⟩ := Before.peek h.place
  exact bindM_of_eq_ok hpeek

/-- Levels that are open can be given back. -/
theorem release_ok {count : Nat} (h : At all stop ts room s) (hcount : room + count ≤ depthLimit) :
    ∃ s', release count s = .ok () s' ∧ At all stop ts (room + count) s' := by
  have hlevels := h.levels
  refine ⟨⟨s.cursor, s.depth - count⟩, if_pos (by omega), h.place, ?_⟩
  dsimp only
  omega

/-! ## 3. What the machine gives -/

/-- With enough steps the machine gives what the parser gives, and is where `P` says. -/
def Reaches {α β : Type} (m : Nat → Machine β) (s : State)
    (P : α → List Token → β → State → Prop) : Except FormulaError (α × List Token) → Prop
  | .ok (a, rest) => ∃ b s', P a rest b s' ∧ ∃ least, ∀ n, least ≤ n → m n s = .ok b s'
  | .error e => ∃ s' least, ∀ n, least ≤ n → m n s = .error (.refused e) s'

namespace Reaches

variable {α β γ δ : Type} {P : α → List Token → β → State → Prop}
  {Q : γ → List Token → δ → State → Prop} {r : Except FormulaError (α × List Token)}
  {m : Nat → Machine β}

/-- One step more. -/
theorem succ (h : Reaches (fun n => m (n + 1)) s P r) : Reaches m s P r := by
  have hsucc : ∀ {result}, (∃ least, ∀ n, least ≤ n → m (n + 1) s = result) →
      ∃ least, ∀ n, least ≤ n → m n s = result := by
    intro result ⟨least, hn⟩
    refine ⟨least + 1, fun n hle => ?_⟩
    obtain ⟨k, rfl⟩ : ∃ k, n = k + 1 := ⟨n - 1, by omega⟩
    exact hn k (Nat.le_of_succ_le_succ hle)
  cases r with
  | ok found =>
    obtain ⟨b, s', hP, hn⟩ := h
    exact ⟨b, s', hP, hsucc hn⟩
  | error e =>
    obtain ⟨s', hn⟩ := h
    exact ⟨s', hsucc hn⟩

/-- Nothing is left to do. -/
theorem pure {a : α} {b : β} (h : P a rest b s) :
    Reaches (fun _ => (Pure.pure b : Machine β)) s P (.ok (a, rest)) :=
  ⟨b, s, h, 0, fun _ _ => rfl⟩

theorem refuse (e : FormulaError) :
    Reaches (fun _ => (throw (.refused e) : Machine β)) s P (.error e) :=
  ⟨s, 0, fun _ _ => rfl⟩

/-- A step that gives `x`, and what follows. -/
theorem step {ξ : Type} {p : Machine ξ} {x : ξ} {s' : State} {k : Nat → ξ → Machine β}
    (hp : p s = .ok x s') (h : Reaches (fun n => k n x) s' P r) :
    Reaches (fun n => p >>= k n) s P r := by
  have hbind : ∀ n, (p >>= k n) s = k n x s' := fun n => bindM_of_eq_ok hp
  cases r with
  | ok found =>
    obtain ⟨b, s'', hP, least, hn⟩ := h
    exact ⟨b, s'', hP, least, fun n hle => (hbind n).trans (hn n hle)⟩
  | error e =>
    obtain ⟨s'', least, hn⟩ := h
    exact ⟨s'', least, fun n hle => (hbind n).trans (hn n hle)⟩

/-- A step that refuses. -/
theorem halt {ξ : Type} {p : Machine ξ} {e : FormulaError} {s' : State} {k : Nat → ξ → Machine β}
    (hp : p s = .error (.refused e) s') : Reaches (fun n => p >>= k n) s P (.error e) :=
  ⟨s', 0, fun _ _ => bindM_error_iff.mpr (.inl hp)⟩

/-- One procedure, and what follows. -/
theorem bind {k : Nat → β → Machine δ} {f : α × List Token → Except FormulaError (γ × List Token)}
    (h : Reaches m s P r)
    (hk : ∀ a rest b s', r = .ok (a, rest) → P a rest b s' →
      Reaches (fun n => k n b) s' Q (f (a, rest))) :
    Reaches (fun n => m n >>= k n) s Q (r >>= f) := by
  cases r with
  | error e =>
    obtain ⟨s', least, hn⟩ := h
    exact ⟨s', least, fun n hle => bindM_error_iff.mpr (.inl (hn n hle))⟩
  | ok found =>
    obtain ⟨a, rest⟩ := found
    obtain ⟨b, s', hP, least, hn⟩ := h
    have hrest := hk a rest b s' rfl hP
    have hbind : ∀ n, least ≤ n → (m n >>= k n) s = k n b s' :=
      fun n hle => bindM_of_eq_ok (hn n hle)
    show Reaches _ s Q (f (a, rest))
    generalize f (a, rest) = result at hrest
    cases result with
    | ok found =>
      obtain ⟨d, s'', hQ, least', hn'⟩ := hrest
      refine ⟨d, s'', hQ, max least least', fun n hle => ?_⟩
      exact (hbind n (by omega)).trans (hn' n (by omega))
    | error e =>
      obtain ⟨s'', least', hn'⟩ := hrest
      refine ⟨s'', max least least', fun n hle => ?_⟩
      exact (hbind n (by omega)).trans (hn' n (by omega))

end Reaches

/-! ## 4. Primaries -/

/-- The machine gives the parser's formula. -/
def Lands (all : List Token) (stop : Token) (room : Nat) (f : Formula) (rest : List Token)
    (g : Formula) (s : State) : Prop := g = f ∧ At all stop rest room s

/-- The machine reads a formula between parentheses. -/
def SumReached (all : List Token) (stop : Token) (room : Nat) : Prop :=
  ∀ ts s, At all stop ts room s →
    Reaches (fun n => binary all n none 0) s (Lands all stop room) (Formula.sum stop room ts)

theorem consumeIf_true {kind : TokenKind} (h : At all stop (t :: ts) room s) (ht : t.kind = kind) :
    ∃ s', consumeIf all kind s = .ok true s' ∧ At all stop ts room s' ∧ Behind all t s' := by
  obtain ⟨s', hconsume, hat, hbehind⟩ := consume_cons h
  refine ⟨s', (bindM_of_eq_ok h.place.peek).trans ?_, hat, hbehind⟩
  rw [if_pos (show (current stop (t :: ts)).kind = kind from ht)]
  exact bindM_of_eq_ok hconsume

theorem consumeIf_false {kind : TokenKind} (h : At all stop ts room s)
    (ht : (current stop ts).kind ≠ kind) : consumeIf all kind s = .ok false s := by
  refine (bindM_of_eq_ok h.place.peek).trans ?_
  rw [if_neg ht]
  rfl

theorem expectClose_reaches (hstop : stop.kind = .stop) (h : At all stop ts room s) :
    Reaches (fun _ => expectClose all) s
      (fun close rest _ s' => At all stop rest room s' ∧ Behind all close s')
      (Formula.expectClose stop ts) := by
  unfold expectClose Formula.expectClose
  cases ts with
  | nil =>
    obtain ⟨s', hconsume⟩ := consume_nil h
    refine .step hconsume ?_
    have hkind : stop.kind ≠ .closeParen := by simp [hstop]
    simp only [current, hkind, if_false]
    exact .refuse _
  | cons t ts =>
    obtain ⟨s', hconsume, hat, hbehind⟩ := consume_cons h
    refine .step hconsume ?_
    by_cases hkind : t.kind = .closeParen
    · simp only [current, hkind, if_true]
      exact .pure ⟨hat, hbehind⟩
    · simp only [current, hkind, if_false]
      exact .refuse _

/-- The machine gives the parser's arguments, and the closing parenthesis is behind it. -/
def ArgumentsLand (all : List Token) (stop : Token) (room : Nat) (found : List Formula × Token)
    (rest : List Token) (args : List Formula) (s : State) : Prop :=
  args = found.1 ∧ At all stop rest room s ∧ Behind all found.2 s

theorem someArguments_reaches (hstop : stop.kind = .stop) (hsum : SumReached all stop room)
    {steps : Nat} (hsteps : ts.length < steps) (h : At all stop ts room s) :
    Reaches (someArguments all) s (ArgumentsLand all stop room)
      (Formula.argumentsFrom stop (Formula.sum stop room) steps ts) := by
  induction steps generalizing ts s with
  | zero => exact absurd hsteps (Nat.not_lt_zero _)
  | succ steps ih =>
    refine .succ ?_
    simp only [someArguments]
    rw [Formula.argumentsFrom]
    refine (hsum ts s h).bind fun first ts₁ g s₁ hok hland => ?_
    obtain ⟨rfl, hat⟩ := hland
    obtain ⟨us, rfl, -⟩ := Formula.sum_sound hstop room hok
    dsimp only
    split
    · rename_i hcomma
      obtain ⟨t, vs, rfl, ht⟩ := Formula.current_kind hstop hcomma (by simp)
      obtain ⟨s₂, hconsume, hat₂, -⟩ := consumeIf_true hat ht
      refine .step hconsume ?_
      have hlength : vs.length < steps := by
        rw [List.length_append, List.length_cons] at hsteps
        omega
      refine (ih hlength hat₂).bind fun found rest args s₃ _ hfound => ?_
      obtain ⟨rfl, hrest⟩ := hfound
      exact .pure ⟨rfl, hrest⟩
    · rename_i hcomma
      refine .step (consumeIf_false hat hcomma) ?_
      refine (expectClose_reaches hstop hat).bind fun close rest _ s₂ _ hclose => ?_
      exact .pure ⟨rfl, hclose⟩

theorem arguments_reaches (hstop : stop.kind = .stop) (hsum : SumReached all stop room)
    (h : At all stop ts room s) :
    Reaches (arguments all) s (ArgumentsLand all stop room)
      (Formula.arguments stop (Formula.sum stop room) ts) := by
  refine .succ ?_
  simp only [arguments]
  unfold Formula.arguments
  dsimp only
  split
  · rename_i hclose
    obtain ⟨t, us, rfl, ht⟩ := Formula.current_kind hstop hclose (by simp)
    obtain ⟨s₁, hconsume, hat, hbehind⟩ := consumeIf_true h ht
    refine .step hconsume ?_
    exact .pure ⟨rfl, hat, hbehind⟩
  · rename_i hclose
    refine .step (consumeIf_false h hclose) ?_
    exact someArguments_reaches hstop hsum (Nat.lt_succ_self _) h

/-- **The machine reads primaries**, if it reads what stands inside. -/
theorem primary_reaches (hstop : stop.kind = .stop) (hsum : SumReached all stop room)
    (h : At all stop ts room s) :
    Reaches (primary all) s (Lands all stop room)
      (Formula.primary stop (Formula.sum stop room) ts) := by
  refine .succ ?_
  simp only [primary]
  cases ts with
  | nil =>
    obtain ⟨s', hconsume⟩ := consume_nil h
    refine .step hconsume ?_
    unfold Formula.primary
    rw [current]
    simp only [hstop]
    exact .refuse _
  | cons t us =>
    obtain ⟨s₁, hconsume, hat, -⟩ := consume_cons h
    refine .step hconsume ?_
    unfold Formula.primary
    rw [current, List.drop_one, List.tail_cons]
    dsimp only
    cases t.kind with
    | integer value => exact .pure ⟨rfl, hat⟩
    | float value => exact .pure ⟨rfl, hat⟩
    | word name =>
      refine .step hat.place.peek ?_
      by_cases hopen : (current stop us).kind = .openParen
      · simp only [hopen, if_true]
        obtain ⟨o, us, rfl, -⟩ := Formula.current_kind hstop hopen (by simp)
        obtain ⟨s₂, hconsume₂, hat₂, -⟩ := consume_cons hat
        refine .step hconsume₂ ?_
        refine (arguments_reaches hstop hsum hat₂).bind fun found rest args s₃ _ hfound => ?_
        obtain ⟨rfl, hat₃, hbehind⟩ := hfound
        refine .step (peek_back hbehind) ?_
        exact .pure ⟨rfl, hat₃⟩
      · simp only [hopen, if_false]
        exact .pure ⟨rfl, hat⟩
    | openParen =>
      refine (hsum us s₁ hat).bind fun inner ts₁ g s₂ _ hinner => ?_
      obtain ⟨rfl, hat₂⟩ := hinner
      refine (expectClose_reaches hstop hat₂).bind fun close rest _ s₃ _ hclose => ?_
      refine .step (peek_back hclose.2) ?_
      exact .pure ⟨rfl, hclose.1⟩
    | _ => exact .refuse _

/-! ## 5. Operators -/

/-- The machine reads operands. -/
def UnaryReached (all : List Token) (stop : Token) (room : Nat) : Prop :=
  ∀ ts s, At all stop ts room s →
    Reaches (unary all) s (Lands all stop room) (Formula.operand stop room ts)

/-- The machine takes operators, and gives back the levels it was told to. -/
def LoopReached (all : List Token) (stop : Token) (room : Nat) : Prop :=
  ∀ least opened left ts s, At all stop ts room s → room + opened ≤ depthLimit →
    Reaches (fun n => loop all n left least opened) s (Lands all stop (room + opened))
      (Formula.steps stop room least left ts)

/-- The machine takes operators one level deeper. -/
def ExtendReached (all : List Token) (stop : Token) (room : Nat) : Prop :=
  ∀ least left ts s, At all stop ts room s →
    Reaches (fun n => binary all n (some left) least) s (Lands all stop room)
      (Formula.extend stop room least left ts)

/-- Every operator below a level has its level behind it in the list. -/
def Covers : List Nat → Prop
  | [] => True
  | level :: below =>
    (∀ op : BinaryOp, op.precedence < level → op.precedence ∈ below) ∧ Covers below

theorem covers_levels : Covers levels := by
  refine ⟨fun op h => ?_, fun op h => ?_, fun op h => ?_, trivial⟩ <;> cases op <;>
    first
    | decide
    | exact absurd h (by decide)

theorem tighter_done (hstop : stop.kind = .stop) {op : BinaryOp} {right : Formula}
    (h : At all stop ts room s)
    (hnext : ∀ next more, nextOperator? ts = some (next, more) → next.bindsTighter op = false) :
    Reaches (fun n => tighter all n op right) s (Lands all stop room) (.ok (right, ts)) := by
  refine .succ ?_
  simp only [tighter]
  refine .step (operator_current h hstop) ?_
  cases hn : nextOperator? ts with
  | none => exact .pure ⟨rfl, h⟩
  | some found =>
    simp only [Option.map_some, hnext found.1 found.2 hn]
    exact .pure ⟨rfl, h⟩

/-- **The machine takes the operators that bind tighter.** It asks for one operator after the other,
    where the parser goes through the levels; behind the operators of a level only lower ones come
    next. -/
theorem tighter_reaches (hstop : stop.kind = .stop) (he : ExtendReached all stop room)
    {op : BinaryOp} {below : List Nat} (hcovers : Covers below) {right : Formula}
    (h : At all stop ts room s)
    (hnext : ∀ next more, nextOperator? ts = some (next, more) → next.bindsTighter op = true →
      next.precedence ∈ below) :
    Reaches (fun n => tighter all n op right) s (Lands all stop room)
      (Formula.tighten (fun level f ts => Formula.extend stop room level f ts) op below right
        ts) := by
  induction below generalizing right ts s with
  | nil =>
    refine tighter_done hstop h fun next more hn => ?_
    cases htight : next.bindsTighter op with
    | false => rfl
    | true => exact absurd (hnext next more hn htight) List.not_mem_nil
  | cons level below ih =>
    rw [Formula.tighten]
    cases hn : nextOperator? ts with
    | none =>
      refine tighter_done hstop h fun next more hn' => ?_
      rw [hn] at hn'
      cases hn'
    | some found =>
      obtain ⟨next, more⟩ := found
      by_cases htight : next.precedence = level ∧ next.bindsTighter op = true
      · refine .succ ?_
        simp only [tighter, htight, and_self, if_true]
        refine .step (operator_current h hstop) ?_
        simp only [hn, Option.map_some, htight, if_true]
        refine (he level right ts s h).bind fun right' ts₁ g s₁ hok hland => ?_
        obtain ⟨rfl, hat⟩ := hland
        obtain ⟨r, -, hsteps⟩ := Formula.extend_ok hok
        exact ih hcovers.2 hat fun next' more' hn' _ =>
          hcovers.1 next' (Formula.steps_stops hsteps next' more' hn')
      · dsimp only
        rw [if_neg htight]
        refine ih hcovers.2 h fun next' more' hn' htight' => ?_
        have hmem := hnext next' more' hn' htight'
        rw [hn] at hn'
        cases hn'
        exact (List.mem_cons.mp hmem).resolve_left fun hp => htight ⟨hp, htight'⟩

theorem loop_done {opened : Nat} {left : Formula} (h : At all stop ts room s)
    (hopened : room + opened ≤ depthLimit) :
    Reaches (fun _ => do release opened; return left) s (Lands all stop (room + opened))
      (.ok (left, ts)) := by
  obtain ⟨s', hrelease, hat⟩ := release_ok h hopened
  exact .step hrelease (.pure ⟨rfl, hat⟩)

/-- **The machine's loop over operators**, given that with less room it does what it should. -/
theorem loop_reaches (hstop : stop.kind = .stop)
    (hless : ∀ r, room = r + 1 → UnaryReached all stop r ∧ LoopReached all stop r ∧
      ExtendReached all stop r) : LoopReached all stop room := by
  intro least opened left ts s h hopened
  refine .succ ?_
  simp only [loop]
  refine .step (operator_current h hstop) ?_
  cases hn : nextOperator? ts with
  | none =>
    cases room <;>
    · rw [Formula.steps, hn]
      exact loop_done h hopened
  | some found =>
    obtain ⟨op, more⟩ := found
    obtain ⟨t, rfl, -⟩ := Formula.nextOperator?_eq_some hn
    obtain ⟨s₁, hconsume, hat, -⟩ := consume_cons h
    by_cases hlt : op.precedence < least
    · cases room <;>
      · rw [Formula.steps, hn]
        simp only [Option.map_some, hlt, if_true]
        exact loop_done h hopened
    · cases room with
      | zero =>
        obtain ⟨s₂, hdescend⟩ := descend_zero hat
        rw [Formula.steps, hn]
        simp only [Option.map_some, hlt, if_false]
        exact .step hconsume (.halt hdescend)
      | succ r =>
        obtain ⟨hu, hl, he⟩ := hless r rfl
        obtain ⟨s₂, hdescend, hat₂⟩ := descend_succ hat
        rw [Formula.steps, hn]
        simp only [Option.map_some, hlt, if_false]
        refine .step hconsume (.step hdescend ?_)
        refine (hu more s₂ hat₂).bind fun right ts₁ g s₃ _ hright => ?_
        obtain ⟨rfl, hat₃⟩ := hright
        have hall : ∀ next rest, nextOperator? ts₁ = some (next, rest) →
            next.bindsTighter op = true → next.precedence ∈ levels := by
          intro next _ _ _
          cases next <;> decide
        refine (tighter_reaches hstop he covers_levels hat₃ hall).bind
          fun right' ts₂ g' s₄ _ hright' => ?_
        obtain ⟨rfl, hat₄⟩ := hright'
        have hrest := hl least (opened + 1) (combine op left g') ts₂ s₄ hat₄ (by omega)
        rwa [show r + (opened + 1) = r + 1 + opened by omega] at hrest

/-! ## 6. The whole machine -/

theorem extend_reaches_succ (hl : LoopReached all stop room) :
    ExtendReached all stop (room + 1) := by
  intro least left ts s h
  have hlevels := h.levels
  obtain ⟨s₁, hdescend, hat⟩ := descend_succ h
  refine .succ ?_
  simp only [binary]
  exact .step hdescend (hl least 1 left ts s₁ hat (by omega))

theorem sum_reaches_succ (hu : UnaryReached all stop room) (hl : LoopReached all stop room) :
    SumReached all stop (room + 1) := by
  intro ts s h
  have hlevels := h.levels
  obtain ⟨s₁, hdescend, hat⟩ := descend_succ h
  refine .succ ?_
  simp only [binary]
  rw [Formula.sum]
  refine .step hdescend ?_
  refine (hu ts s₁ hat).bind fun first ts₁ g s₂ _ hfirst => ?_
  obtain ⟨rfl, hat₂⟩ := hfirst
  exact hl 0 1 g ts₁ s₂ hat₂ (by omega)

theorem sum_reaches_zero : SumReached all stop 0 := by
  intro ts s h
  obtain ⟨s₁, hdescend⟩ := descend_zero h
  refine .succ ?_
  simp only [binary]
  exact .halt hdescend

theorem extend_reaches_zero : ExtendReached all stop 0 := by
  intro least left ts s h
  obtain ⟨s₁, hdescend⟩ := descend_zero h
  refine .succ ?_
  simp only [binary]
  exact .halt hdescend

/-- Where no sign comes next the machine reads a primary. -/
theorem unary_reaches_primary (hstop : stop.kind = .stop) (hsum : SumReached all stop room)
    (h : At all stop ts room s) (hsign : nextSign? ts = none) :
    Reaches (unary all) s (Lands all stop room)
      (Formula.primary stop (Formula.sum stop room) ts) := by
  have hkind : ¬ ((current stop ts).kind = .plus ∨ (current stop ts).kind = .minus) := by
    cases ts with
    | nil => simp [current, hstop]
    | cons t ts =>
      intro hk
      have hk : t.kind = .plus ∨ t.kind = .minus := hk
      rw [nextSign?, if_pos hk] at hsign
      cases hsign
  refine .succ ?_
  simp only [unary]
  refine .step h.place.peek ?_
  simp only [hkind, if_false]
  exact primary_reaches hstop hsum h

/-- **The machine reads operands**, given that with less room it does. -/
theorem unary_reaches (hstop : stop.kind = .stop) (hsum : SumReached all stop room)
    (hless : ∀ r, room = r + 1 → UnaryReached all stop r ∧ ExtendReached all stop r) :
    UnaryReached all stop room := by
  intro ts s h
  cases hsign : nextSign? ts with
  | none =>
    have hprimary := unary_reaches_primary hstop hsum h hsign
    cases room <;>
    · rw [Formula.operand, hsign]
      exact hprimary
  | some found =>
    obtain ⟨sign, rest⟩ := found
    obtain ⟨rfl, hkind⟩ := Formula.nextSign?_eq_some hsign
    obtain ⟨s₁, hconsume, hat, -⟩ := consume_cons h
    refine .succ ?_
    simp only [unary]
    refine .step h.place.peek ?_
    simp only [current, hkind, if_true]
    refine .step hconsume ?_
    cases room with
    | zero =>
      obtain ⟨s₂, hdescend⟩ := descend_zero hat
      rw [Formula.operand, hsign]
      exact .halt hdescend
    | succ r =>
      obtain ⟨hu, he⟩ := hless r rfl
      have hlevels := h.levels
      obtain ⟨s₂, hdescend, hat₂⟩ := descend_succ hat
      rw [Formula.operand, hsign]
      refine .step hdescend ?_
      refine (hu rest s₂ hat₂).bind fun inner ts₁ g s₃ _ hinner => ?_
      obtain ⟨rfl, hat₃⟩ := hinner
      refine (he signLevel g ts₁ s₃ hat₃).bind fun inner' ts₂ g' s₄ _ hinner' => ?_
      obtain ⟨rfl, hat₄⟩ := hinner'
      obtain ⟨s₅, hrelease, hat₅⟩ := release_ok hat₄ (show r + 1 ≤ depthLimit by omega)
      exact .step hrelease (.pure ⟨rfl, hat₅⟩)

/-- **Whatever room there is, the machine gives what the parser gives.** -/
theorem machine_reaches (hstop : stop.kind = .stop) (all : List Token) (room : Nat) :
    UnaryReached all stop room ∧ LoopReached all stop room ∧ ExtendReached all stop room ∧
      SumReached all stop room := by
  induction room with
  | zero =>
    exact ⟨unary_reaches hstop sum_reaches_zero (fun r hr => nomatch hr),
      loop_reaches hstop (fun r hr => nomatch hr), extend_reaches_zero, sum_reaches_zero⟩
  | succ room ih =>
    obtain ⟨hu, hl, he, -⟩ := ih
    have hsum := sum_reaches_succ hu hl
    refine ⟨unary_reaches hstop hsum fun r hr => ?_, loop_reaches hstop fun r hr => ?_,
      extend_reaches_succ hl, hsum⟩
    · cases hr
      exact ⟨hu, he⟩
    · cases hr
      exact ⟨hu, hl, he⟩

/-- Tokens as one formula, with no token left. -/
def complete (stop : Token) (ts : List Token) : Except FormulaError (Formula × List Token) :=
  if ts.isEmpty then .error .empty
  else do
    let (f, rest) ← Formula.sum stop depthLimit ts
    match rest with
    | [] => .ok (f, [])
    | t :: _ => .error (.unexpected .stop t.kind t.span)

theorem whole_reaches (hstop : stop.kind = .stop) (hts : ∀ t ∈ ts, t.kind ≠ .stop) :
    Reaches (whole (ts ++ [stop])) ⟨0, 0⟩ (fun f _ g _ => g = f) (complete stop ts) := by
  have hat : At (ts ++ [stop]) stop ts depthLimit ⟨0, 0⟩ := ⟨⟨[], rfl, rfl⟩, Nat.zero_add _⟩
  obtain ⟨-, -, -, hsum⟩ := machine_reaches hstop (ts ++ [stop]) depthLimit
  have hsome : (ts ++ [stop]).isEmpty = false := by simp
  unfold whole complete
  simp only [hsome]
  refine .step hat.place.peek ?_
  cases ts with
  | nil =>
    simp only [current, hstop, if_true]
    exact .refuse _
  | cons t us =>
    have hfirst : t.kind ≠ .stop := hts t List.mem_cons_self
    simp only [current, hfirst, if_false]
    refine (hsum (t :: us) _ hat).bind fun f rest g s hok hf => ?_
    obtain ⟨rfl, hat⟩ := hf
    refine .step hat.place.peek ?_
    cases rest with
    | nil =>
      simp only [current, hstop, if_true]
      exact .pure rfl
    | cons u rest =>
      obtain ⟨vs, htokens, -⟩ := Formula.sum_sound hstop depthLimit hok
      have hkind : u.kind ≠ .stop :=
        hts u (htokens ▸ List.mem_append_right vs List.mem_cons_self)
      simp only [current, hkind, if_false]
      exact .refuse _

theorem Reaches.answer {α : Type} {m : Nat → Machine α}
    {r : Except FormulaError (α × List Token)} (h : Reaches m s (fun a _ b _ => b = a) r) :
    ∃ least, ∀ n, least ≤ n → answer (m n s) = (r.map (·.1)).mapError .refused := by
  cases r with
  | ok found =>
    obtain ⟨b, s', rfl, least, hn⟩ := h
    exact ⟨least, fun n hle => by rw [hn n hle]; rfl⟩
  | error e =>
    obtain ⟨s', least, hn⟩ := h
    exact ⟨least, fun n hle => by rw [hn n hle]; rfl⟩

/-- Tokens that are not bad are read as one formula. -/
theorem ofTokens_eq_complete (hbad : ts.find? (·.kind == .bad) = none) :
    Formula.ofTokens stop ts = (complete stop ts).map (·.1) := by
  unfold Formula.ofTokens complete
  rw [hbad]
  cases ts with
  | nil => rfl
  | cons t ts =>
    simp only [List.isEmpty_cons]
    cases Formula.sum stop depthLimit (t :: ts) with
    | error e => rfl
    | ok found =>
      obtain ⟨f, rest⟩ := found
      cases rest <;> rfl

/-- **The machine gives the parser's answer on every text**, so it comes to an end and has no
    fault. -/
theorem parse_eq (cs : List Char) :
    ∃ least, ∀ n, least ≤ n → parse n cs = (Formula.parse cs).mapError .refused := by
  have hlaid := (Token.laid_scan cs).sublist (List.filter_sublist (p := (·.kind != .blank)))
  have hkinds : ∀ t ∈ (Token.scan cs).filter (·.kind != .blank), t.kind ≠ .stop :=
    fun t ht => Token.scanFrom_ne_stop t (List.mem_filter.mp ht).1
  have hall : (Token.lex cs).filter (·.kind != .blank) =
      (Token.scan cs).filter (·.kind != .blank) ++ [Token.stopAt (Text.byteSize cs)] := by
    rw [Token.lex, List.filter_append]
    rfl
  unfold parse Formula.parse
  rw [hall]
  generalize hstop : Token.stopAt (Text.byteSize cs) = stop at hlaid
  have hstop : stop.kind = .stop := by
    rw [← hstop]
    rfl
  generalize (Token.scan cs).filter (·.kind != .blank) = ts at hlaid hkinds
  have hfind : (ts ++ [stop]).find? (·.kind == .bad) = ts.find? (·.kind == .bad) := by
    rw [List.find?_append]
    simp [hstop]
  dsimp only
  rw [hfind]
  cases hbad : ts.find? (·.kind == .bad) with
  | some t =>
    have ht := hlaid.fits t (List.mem_of_find?_eq_some hbad)
    refine ⟨0, fun n _ => ?_⟩
    unfold Formula.ofTokens
    dsimp only
    rw [ht.text, hbad]
    rfl
  | none =>
    rw [ofTokens_eq_complete hbad]
    exact (whole_reaches hstop hkinds).answer

end Cursor

end FormulaGraph
