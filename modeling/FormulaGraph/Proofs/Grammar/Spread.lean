/-
  File:      FormulaGraph/Proofs/Grammar/Spread.lean
  Subject:   Every part of a formula that was read is read again from its own tokens.

  A part of a formula has a block of the tokens, and its operands have blocks inside. Read by
  itself, a block does not always cost what it did in the whole. An operand hands back the levels
  that it took, so the operators behind it find the room as if it were a single token. A power
  behind a plus is such an operand; but the plus belongs to no part, and without it the power is the
  first step of the loop, which keeps its level. So what follows a power behind a plus may need one
  level more by itself than it needed in the whole, and nothing else does.

  * `Covers`, `Spread` -- a formula over its block of tokens, with all its parts;
  * `Alone` -- a block that is read as a formula of its own;
  * `Enters` -- a block that takes the loop to a formula, at the cost of some levels;
  * `operand_spread`, `readRight_spread`, `sum_spread` -- all parts are alone with the room there
    was;
  * `sum_spread_top` -- the same for a whole text, and the parts that may need one level more.
-/
import FormulaGraph.Proofs.Grammar.Again
import FormulaGraph.Proofs.Grammar.Height

namespace FormulaGraph

namespace Formula

/-! ## 1. Blocks of tokens -/

/-- The operands of a formula, from left to right. -/
def operands : Formula → List Formula
  | integer .. => []
  | float .. => []
  | symbol .. => []
  | binary _ left right _ => [left, right]
  | negative operand _ => [operand]
  | call _ arguments _ => arguments
  | group inner _ => [inner]

/-- A power. -/
def isPower : Formula → Bool
  | binary .power .. => true
  | _ => false

/-- An operator whose left operand is a power, or leans on one. -/
def leansOnPower : Formula → Bool
  | binary _ left _ _ => left.isPower || left.leansOnPower
  | _ => false

/-- From the first token of a block to its last one. -/
def Covers (us : List Token) (s : Span) : Prop :=
  ∃ t ∈ us.head?, ∃ t' ∈ us.getLast?, s = t.span.join t'.span

theorem covers_single (t : Token) : Covers [t] t.span := ⟨t, rfl, t, rfl, rfl⟩

theorem Covers.join {us vs : List Token} {a b : Span} (h : Covers us a) (gap : List Token)
    (h' : Covers vs b) : Covers (us ++ (gap ++ vs)) (a.join b) := by
  obtain ⟨t, ht, _, -, rfl⟩ := h
  obtain ⟨_, -, t', ht', rfl⟩ := h'
  refine ⟨t, ?_, t', ?_, rfl⟩
  · rw [List.head?_append, Option.mem_def.mp ht]
    rfl
  · rw [List.getLast?_append, List.getLast?_append, Option.mem_def.mp ht']
    rfl

mutual
/-- A formula over a block of tokens: its span covers the block, its operands have blocks inside,
    one behind the other, and of the formula and all its parts something holds. -/
inductive Spread (P : List Token → Formula → Prop) : List Token → Formula → Prop where
  | node {us : List Token} {f : Formula} (covers : Covers us f.span) (holds : P us f)
      (parts : SpreadAll P us f.operands) : Spread P us f

inductive SpreadAll (P : List Token → Formula → Prop) : List Token → List Formula → Prop where
  | nil {us : List Token} : SpreadAll P us []
  | cons (gap : List Token) {us vs : List Token} {f : Formula} {fs : List Formula}
      (first : Spread P us f) (rest : SpreadAll P vs fs) : SpreadAll P (gap ++ (us ++ vs)) (f :: fs)
end

variable {P Q : List Token → Formula → Prop} {us vs : List Token} {f : Formula} {fs : List Formula}

theorem Spread.covers (h : Spread P us f) : Covers us f.span := by
  cases h
  assumption

mutual
theorem Spread.mono (hpq : ∀ us f, P us f → Q us f) : ∀ {us f}, Spread P us f → Spread Q us f
  | _, _, .node covers holds parts => .node covers (hpq _ _ holds) (parts.mono hpq)

theorem SpreadAll.mono (hpq : ∀ us f, P us f → Q us f) :
    ∀ {us fs}, SpreadAll P us fs → SpreadAll Q us fs
  | _, _, .nil => .nil
  | _, _, .cons gap first rest => .cons gap (first.mono hpq) (rest.mono hpq)
end

theorem SpreadAll.behind (h : SpreadAll P us fs) (gap : List Token) :
    SpreadAll P (gap ++ us) fs := by
  cases h with
  | nil => exact .nil
  | cons gap' first rest =>
    rw [← List.append_assoc]
    exact .cons (gap ++ gap') first rest

theorem SpreadAll.before (h : SpreadAll P us fs) (gap : List Token) :
    SpreadAll P (us ++ gap) fs := by
  induction fs generalizing us with
  | nil => exact .nil
  | cons f fs ih =>
    cases h with
    | cons gap' first rest =>
      rw [List.append_assoc, List.append_assoc]
      exact .cons gap' first (ih rest)

theorem spreadAll_single (h : Spread P us f) (gap : List Token) : SpreadAll P (gap ++ us) [f] := by
  have hall : SpreadAll P (gap ++ (us ++ [])) [f] := .cons gap h .nil
  rwa [List.append_nil] at hall

/-! ## 2. Blocks by themselves -/

/-- The block is read as the formula, with some room. -/
def Alone (room : Nat) (us : List Token) (f : Formula) : Prop :=
  ∀ stop : Token, stop.kind = .stop → sum stop room us = .ok (f, [])

theorem Alone.mono {room room' : Nat} (h : Alone room us f) (hle : room ≤ room') :
    Alone room' us f := by
  intro stop hstop
  rcases sum_mono hle us with hsame | ⟨span, hdeep⟩
  · rw [← hsame]
    exact h stop hstop
  · rw [h stop hstop] at hdeep
    cases hdeep

/-- In front of any part of `rest` the block takes the loop to the formula and costs `spent` levels,
    if there is room for `room` levels at its start. -/
def Enters (room spent : Nat) (us : List Token) (f : Formula) (rest : List Token) : Prop :=
  ∀ (stop : Token) (r r' : Nat) (rest' : List Token), stop.kind = .stop → room ≤ r →
    room ≤ r' + spent → rest' <+: rest →
      start stop r (r' + spent) 0 (us ++ rest') = steps stop r' 0 f rest'

variable {stop : Token} {room room' spent : Nat} {ts rest : List Token}

theorem Enters.mono (h : Enters room spent us f rest) (hle : room ≤ room') :
    Enters room' spent us f rest :=
  fun stop r r' rest' hstop hr hr' hcut =>
    h stop r r' rest' hstop (Nat.le_trans hle hr) (Nat.le_trans hle hr') hcut

theorem Enters.alone (h : Enters room spent us f rest) (hspent : spent ≤ room) :
    Alone (room + 1) us f := by
  intro stop hstop
  obtain ⟨r, rfl⟩ : ∃ r, room = r + spent := ⟨room - spent, by omega⟩
  have hstart := h stop _ r [] hstop (Nat.le_refl _) (Nat.le_refl _) List.nil_prefix
  rw [List.append_nil] at hstart
  have hnone : Stops 0 [] := fun next more hn => by cases hn
  exact hstart.trans (steps_of_stops hnone r f)

/-- An operand costs nothing. -/
theorem enters_operand (hstop : stop.kind = .stop)
    (h : operand stop room (us ++ rest) = .ok (f, rest)) : Enters room 0 us f rest := by
  intro stop' r r' rest' hstop' hr _ hcut
  have hagain := (parser_again hstop hstop' hr).operand.cut h hcut
  rw [start, hagain]
  rfl

/-- An operator with its right operand costs one level. -/
theorem Enters.step (hstop : stop.kind = .stop) {left right : Formula} {t : Token} {op : BinaryOp}
    (h : Enters room' spent us left (t :: (vs ++ rest))) (hop : operatorOf t.kind = some op)
    (hright : readRight stop room op (vs ++ rest) = .ok (right, rest))
    (hroom : room + spent + 1 ≤ room') :
    Enters room' (spent + 1) (us ++ t :: vs) (combine op left right) rest := by
  intro stop' r r' rest' hstop' hr hr' hcut
  have hbehind : t :: (vs ++ rest') <+: t :: (vs ++ rest) :=
    List.cons_prefix_cons.mpr ⟨rfl, (List.prefix_append_right_inj vs).mpr hcut⟩
  have hagain : readRight stop' r' op (vs ++ rest') = .ok (right, rest') :=
    ((parser_again hstop hstop' (by omega)).readRight op).cut hright hcut
  have hspent : r' + (spent + 1) = r' + 1 + spent := by omega
  rw [hspent, List.append_assoc, List.cons_append, h stop' r _ _ hstop' hr (by omega) hbehind,
    steps_of_readRight hop (Nat.zero_le _) hagain]

/-- A formula that the loop has got to: how it is entered, and that it is spread over its block. -/
structure Entry (P : List Token → Formula → Prop) (room spent : Nat) (us : List Token) (f : Formula)
    (rest : List Token) : Prop where
  enters : Enters room spent us f rest
  spread : Spread P us f
  spent_le : spent ≤ room

theorem Entry.mono (h : Entry P room spent us f rest) (hpq : ∀ us f, P us f → Q us f)
    (hle : room ≤ room') : Entry Q room' spent us f rest :=
  ⟨h.enters.mono hle, h.spread.mono hpq, Nat.le_trans h.spent_le hle⟩

/-- **One step of the loop.** -/
theorem Entry.step (hstop : stop.kind = .stop) {left right : Formula} {t : Token} {op : BinaryOp}
    {gap : List Token} (h : Entry P room' spent us left (t :: (gap ++ (vs ++ rest))))
    (hop : operatorOf t.kind = some op)
    (hright : readRight stop room op (gap ++ (vs ++ rest)) = .ok (right, rest))
    (hspread : Spread P vs right) (hroom : room + spent + 1 ≤ room')
    (hholds : Enters room' (spent + 1) (us ++ t :: (gap ++ vs)) (combine op left right) rest →
      P (us ++ t :: (gap ++ vs)) (combine op left right)) :
    Entry P room' (spent + 1) (us ++ t :: (gap ++ vs)) (combine op left right) rest := by
  rw [← List.append_assoc] at hright
  have henters : Enters room' (spent + 1) (us ++ t :: (gap ++ vs)) (combine op left right) rest :=
    Enters.step hstop (by rw [List.append_assoc]; exact h.enters) hop hright hroom
  refine ⟨henters, .node ?_ (hholds henters) ?_, by omega⟩
  · exact h.spread.covers.join (t :: gap) hspread.covers
  · exact .cons [] h.spread (spreadAll_single hspread (t :: gap))

/-! ## 3. What the functions of the parser give -/

/-- An operand is entered for nothing, but a power behind a plus for one level. -/
structure Delayed (spent : Nat) (gap : List Token) (f : Formula) (rest : List Token) : Prop where
  le_one : spent ≤ 1
  power : spent = 1 → f.isPower = true ∧ Stops 4 rest ∧ ∃ t gap', gap = t :: gap' ∧ t.kind = .plus

theorem delayed_zero (gap : List Token) (f : Formula) (rest : List Token) : Delayed 0 gap f rest :=
  ⟨Nat.zero_le 1, nofun⟩

def OperandSpread (stop : Token) (room : Nat) : Prop :=
  ∀ {ts rest : List Token} {f : Formula}, operand stop room ts = .ok (f, rest) →
    ∃ gap us spent, ts = gap ++ (us ++ rest) ∧ Delayed spent gap f rest ∧
      Entry (Alone (room + 1)) room spent us f rest

def RightSpread (stop : Token) (room : Nat) : Prop :=
  ∀ {op : BinaryOp} {ts rest : List Token} {f : Formula},
    readRight stop room op ts = .ok (f, rest) →
    ∃ gap us, ts = gap ++ (us ++ rest) ∧ Spread (Alone (room + 1)) us f

def SumSpread (P : List Token → Formula → Prop) (read : List Token → Parsed) : Prop :=
  ∀ {ts rest : List Token} {f : Formula}, read ts = .ok (f, rest) →
    ∃ gap us, ts = gap ++ (us ++ rest) ∧ Spread P us f

/-! ## 4. Primaries -/

theorem ReadsArguments.spread {read : List Token → Parsed} (hread : SumSpread P read)
    {args : List Formula} {close : Token} (h : ReadsArguments read ts args close rest) :
    ∃ us, ts = us ++ close :: rest ∧ SpreadAll P us args := by
  induction h with
  | one first hclose =>
    obtain ⟨gap, us, rfl, hfirst⟩ := hread first
    exact ⟨gap ++ us, by simp, spreadAll_single hfirst gap⟩
  | @more ts us rest arg args comma close first hcomma others ih =>
    obtain ⟨gap, vs, rfl, hfirst⟩ := hread first
    obtain ⟨ws, rfl, hothers⟩ := ih
    exact ⟨gap ++ (vs ++ comma :: ws), by simp, .cons gap hfirst (hothers.behind [comma])⟩

/-- **A primary covers its tokens**, with its operands spread inside. -/
theorem primary_spread (hstop : stop.kind = .stop) {read : List Token → Parsed}
    (hread : SumSpread P read) (h : primary stop read ts = .ok (f, rest)) :
    ∃ us, ts = us ++ rest ∧ Covers us f.span ∧ SpreadAll P us f.operands := by
  cases primary_ok hstop h with
  | @integer t => exact ⟨[t], rfl, covers_single t, .nil⟩
  | @float t => exact ⟨[t], rfl, covers_single t, .nil⟩
  | @symbol t => exact ⟨[t], rfl, covers_single t, .nil⟩
  | @call t o close name us _ args ht ho inside =>
    rcases arguments_ok hstop inside with ⟨rfl, rfl, -⟩ | ⟨-, hargs⟩
    · exact ⟨[t, o, close], rfl, (covers_single t).join [o] (covers_single close), .nil⟩
    · obtain ⟨vs, rfl, hspread⟩ := hargs.spread hread
      refine ⟨[t] ++ (o :: vs ++ [close]), by simp,
        (covers_single t).join (o :: vs) (covers_single close), ?_⟩
      exact (hspread.before [close]).behind [t, o]
  | @group t close inner us _ ht inside hclose =>
    obtain ⟨gap, vs, rfl, hinner⟩ := hread inside
    refine ⟨[t] ++ ((gap ++ vs) ++ [close]), by simp,
      (covers_single t).join (gap ++ vs) (covers_single close), ?_⟩
    exact ((spreadAll_single hinner gap).before [close]).behind [t]

/-! ## 5. Loops -/

/-- **The loop over operators.** All formulas it builds on the left have `K` in common. -/
theorem steps_entry (hstop : stop.kind = .stop) {K : Formula → Prop} {limit least : Nat}
    (hK : ∀ {op left right}, K left → K (combine op left right))
    (hchain : ∀ {spent us op left right rest}, K left → spent ≤ limit →
      Enters limit spent us (combine op left right) rest → P us (combine op left right))
    (hpart : ∀ us e, Alone limit us e → P us e) (hright : ∀ r, r < room → RightSpread stop r)
    {left : Formula} (h : steps stop room least left ts = .ok (f, rest))
    (hentry : Entry P limit spent us left ts) (hleft : K left) (hroom : room + spent ≤ limit) :
    ∃ vs spent', ts = vs ++ rest ∧ Entry P limit spent' (us ++ vs) f rest ∧ K f := by
  induction room generalizing left ts us spent with
  | zero =>
    rcases steps_ok_cases h with ⟨-, rfl, rfl⟩ | ⟨r, t, op, more, right, ts₁, right', ts₂, hr, -⟩
    · exact ⟨[], spent, rfl, by rwa [List.append_nil], hleft⟩
    · cases hr
  | succ room ih =>
    rcases steps_ok_cases h with ⟨-, rfl, rfl⟩ |
      ⟨r, t, op, more, right, ts₁, right', ts₂, hr, rfl, hop, -, h₁, h₂, h₃⟩
    · exact ⟨[], spent, rfl, by rwa [List.append_nil], hleft⟩
    · cases hr
      have hread : readRight stop room op more = .ok (right', ts₂) := by
        rw [readRight, h₁]
        exact h₂
      obtain ⟨gap, vs, rfl, hspread⟩ := hright room (Nat.lt_succ_self room) hread
      have hspread' : Spread P vs right' := hspread.mono fun us e halone =>
        hpart us e (halone.mono (by omega))
      have hnext := hentry.step hstop hop hread hspread' (by omega)
        (hchain hleft (by omega))
      obtain ⟨ws, spent', rfl, hentry', hKf⟩ :=
        ih (fun r hr => hright r (Nat.lt_succ_of_lt hr)) h₃ hnext (hK hleft) (by omega)
      refine ⟨t :: (gap ++ vs) ++ ws, spent', by simp, ?_, hKf⟩
      rwa [← List.append_assoc]

/-- Where a level was taken none of its operators comes next. -/
theorem takeLevel_stops {level : Nat} {left : Formula} (hcap : Stops (level + 1) ts)
    (h : takeLevel (fun level f ts => extend stop room level f ts) level left ts = .ok (f, rest)) :
    Stops level rest := by
  rcases takeLevel_ok h with ⟨-, rfl, hnot⟩ | hextend
  · intro next more hn
    have hlt := hcap next more hn
    have hne := hnot next more hn
    omega
  · obtain ⟨r, -, hsteps⟩ := extend_ok hextend
    exact steps_stops hsteps

/-- Behind an operand at most one power is taken, and none behind one that was delayed. -/
theorem powers_entry (hstop : stop.kind = .stop) (hright : ∀ r, r < room → RightSpread stop r)
    {left : Formula} (h : extend stop room 4 left ts = .ok (f, rest)) {gap : List Token}
    (hdelayed : Delayed spent gap left ts)
    (hentry : Entry (Alone (room + 1)) room spent us left ts) :
    ∃ vs spent', ts = vs ++ rest ∧ Entry (Alone (room + 1)) room spent' (us ++ vs) f rest ∧
      spent' ≤ 1 ∧ (spent' = 1 → f.isPower = true) ∧ Stops 4 rest := by
  obtain ⟨r, rfl, hsteps⟩ := extend_ok h
  have hstops := steps_stops hsteps
  rcases steps_ok_cases hsteps with ⟨-, rfl, rfl⟩ |
    ⟨r', t, op, more, right, ts₁, right', ts₂, rfl, rfl, hop, hle, h₁, h₂, h₃⟩
  · exact ⟨[], spent, rfl, by rwa [List.append_nil], hdelayed.le_one,
      fun hone => (hdelayed.power hone).1, hstops⟩
  · obtain rfl : op = .power := by
      cases op with
      | power => rfl
      | _ => exact absurd hle (by decide)
    have hnext : nextOperator? (t :: more) = some (.power, more) := by
      rw [nextOperator?, hop]
      rfl
    obtain rfl : spent = 0 := by
      have hnot : spent ≠ 1 := fun hone => Nat.lt_irrefl 4 ((hdelayed.power hone).2.1 _ _ hnext)
      have hle := hdelayed.le_one
      omega
    have hread : readRight stop r' .power more = .ok (right', ts₂) := by
      rw [readRight, h₁]
      exact h₂
    rw [tighten_of_tight (by decide)] at h₂
    have hbehind : Stops 4 ts₂ := takeLevel_stops (stops_five ts₁) h₂
    rw [steps_of_stops hbehind] at h₃
    cases h₃
    obtain ⟨gap, vs, rfl, hspread⟩ := hright r' (by omega) hread
    have hspread' : Spread (Alone (r' + 1 + 1 + 1)) vs right' := hspread.mono fun us e halone =>
      halone.mono (by omega)
    have hnext := hentry.step hstop hop hread hspread' (by omega) fun henters =>
      henters.alone (by omega)
    exact ⟨t :: (gap ++ vs), 1, by simp, hnext, Nat.le_refl 1, fun _ => rfl, hbehind⟩

/-! ## 6. The whole parser -/

theorem sum_spread (hstop : stop.kind = .stop)
    (hless : ∀ r, r < room → OperandSpread stop r ∧ RightSpread stop r) :
    SumSpread (Alone (room + 1)) (sum stop room) := by
  intro ts rest f h
  cases room with
  | zero => cases h
  | succ r =>
    obtain ⟨⟨first, ts₁⟩, h₁, h₂⟩ := bind_ok_iff.mp h
    obtain ⟨gap, us, spent, rfl, hdelayed, hentry⟩ := (hless r (Nat.lt_succ_self r)).1 h₁
    have hspent := hdelayed.le_one
    have hentry' : Entry (Alone (r + 1 + 1)) (r + spent) spent us first ts₁ :=
      hentry.mono (fun us e halone => halone.mono (by omega)) (by omega)
    obtain ⟨vs, spent', rfl, hfinal, -⟩ := steps_entry (K := fun _ => True) hstop (fun _ => trivial)
      (fun _ hspent' henters => (henters.alone hspent').mono (by omega))
      (fun us e halone => halone.mono (by omega))
      (fun r' hr' => (hless r' (Nat.lt_succ_of_lt hr')).2) h₂ hentry' trivial (Nat.le_refl _)
    exact ⟨gap, us ++ vs, by simp, hfinal.spread⟩

/-- **An operand, and its parts.** -/
theorem operand_spread (hstop : stop.kind = .stop)
    (hless : ∀ r, r < room → OperandSpread stop r ∧ RightSpread stop r) :
    OperandSpread stop room := by
  intro ts rest f h
  -- what is read without a plus in front is entered as an operand
  have hplain : ∀ {us}, ts = us ++ rest → Covers us f.span →
      SpreadAll (Alone (room + 1)) us f.operands →
        Entry (Alone (room + 1)) room 0 us f rest := by
    intro us hus hcovers hparts
    rw [hus] at h
    have henters := enters_operand hstop h
    exact ⟨henters, .node hcovers (henters.alone (Nat.zero_le _)) hparts, Nat.zero_le _⟩
  cases hsign : nextSign? ts with
  | none =>
    have hprimary := h
    rw [operand_of_not_sign hsign] at hprimary
    obtain ⟨us, hus, hcovers, hparts⟩ := primary_spread hstop (sum_spread hstop hless) hprimary
    exact ⟨[], us, 0, hus, delayed_zero _ _ _, hplain hus hcovers hparts⟩
  | some found =>
    obtain ⟨sign, more⟩ := found
    obtain ⟨hts, hkind⟩ := nextSign?_eq_some hsign
    cases room with
    | zero =>
      rw [operand, hsign] at h
      cases h
    | succ r =>
      have hsteps := h
      rw [operand, hsign] at hsteps
      obtain ⟨⟨inner, ts₁⟩, h₁, hthen⟩ := bind_ok_iff.mp hsteps
      obtain ⟨⟨inner', ts₂⟩, h₂, hlast⟩ := bind_ok_iff.mp hthen
      cases hlast
      obtain ⟨gap, us, spent, rfl, hdelayed, hentry⟩ := (hless r (Nat.lt_succ_self r)).1 h₁
      obtain ⟨vs, spent', rfl, hentry', hle, hpower, hstops⟩ := powers_entry hstop
        (fun r' hr' => (hless r' (Nat.lt_succ_of_lt hr')).2) h₂ hdelayed hentry
      have hmono : ∀ us e, Alone (r + 1) us e → Alone (r + 1 + 1) us e :=
        fun us e halone => halone.mono (Nat.le_succ _)
      by_cases hminus : sign.kind = .minus
      · -- the minus is the first token of the block
        have hneg : withSign sign inner' = negative inner' (sign.span.join inner'.span) :=
          if_pos hminus
        refine ⟨[], [sign] ++ (gap ++ (us ++ vs)), 0, by simp [hts], delayed_zero _ _ _, ?_⟩
        refine hplain (by simp [hts]) ?_ ?_
        · rw [hneg]
          exact (covers_single sign).join gap hentry'.spread.covers
        · rw [hneg]
          exact (spreadAll_single (hentry'.spread.mono hmono) gap).behind [sign]
      · have hplus : sign.kind = .plus := hkind.resolve_right hminus
        have hsame : withSign sign inner' = inner' := if_neg hminus
        refine ⟨sign :: gap, us ++ vs, spent', by simp [hts], ?_, ?_⟩
        · rw [hsame]
          exact ⟨hle, fun hone => ⟨hpower hone, hstops, sign, gap, rfl, hplus⟩⟩
        · rw [hsame]
          exact hentry'.mono hmono (Nat.le_succ r)

/-- **The right operand of an operator, and its parts.** -/
theorem readRight_spread (hstop : stop.kind = .stop) (hoperand : OperandSpread stop room)
    (hright : ∀ r, r < room → RightSpread stop r) : RightSpread stop room := by
  intro op ts rest f h
  obtain ⟨⟨right, ts₁⟩, h₁, h₂⟩ := bind_ok_iff.mp h
  obtain ⟨gap, us, spent, rfl, hdelayed, hentry⟩ := hoperand h₁
  -- the powers behind the operand
  have hpowers : ∀ {f₁ ts₂}, takeLevel (fun level f ts => extend stop room level f ts) 4 right ts₁ =
      .ok (f₁, ts₂) → ∃ vs spent', ts₁ = vs ++ ts₂ ∧ spent' ≤ 1 ∧
        Entry (Alone (room + 1)) room spent' (us ++ vs) f₁ ts₂ := by
    intro f₁ ts₂ htake
    rcases takeLevel_ok htake with ⟨rfl, rfl, -⟩ | hextend
    · exact ⟨[], spent, rfl, hdelayed.le_one, by rwa [List.append_nil]⟩
    · obtain ⟨vs, spent', hvs, hentry', hle, -⟩ :=
        powers_entry hstop hright hextend hdelayed hentry
      exact ⟨vs, spent', hvs, hle, hentry'⟩
  dsimp only at h₂
  by_cases hop : 2 ≤ op.precedence
  · rw [tighten_of_tight hop] at h₂
    obtain ⟨vs, spent', rfl, -, hentry'⟩ := hpowers h₂
    exact ⟨gap, us ++ vs, by simp, hentry'.spread⟩
  · have hone : op.precedence = 1 := by
      have hpos := precedence_pos op
      omega
    rw [tighten_of_loose hone] at h₂
    obtain ⟨⟨right', ts₂⟩, hfour, htwo⟩ := bind_ok_iff.mp h₂
    obtain ⟨vs, spent', rfl, hspent', hentry'⟩ := hpowers hfour
    rcases takeLevel_ok htwo with ⟨rfl, rfl, -⟩ | hextend
    · exact ⟨gap, us ++ vs, by simp, hentry'.spread⟩
    · obtain ⟨r, rfl, hsteps⟩ := extend_ok hextend
      obtain ⟨ws, spent'', rfl, hfinal, -⟩ := steps_entry (K := fun _ => True) hstop
        (fun _ => trivial) (fun _ hspent henters => henters.alone hspent)
        (fun us e halone => halone.mono (Nat.le_succ _))
        (fun r' hr' => hright r' (Nat.lt_succ_of_lt hr')) hsteps hentry' trivial (by omega)
      exact ⟨gap, us ++ vs ++ ws, by simp, hfinal.spread⟩

/-- **Whatever room there is, every part is alone with it.** -/
theorem parser_spread (hstop : stop.kind = .stop) (room : Nat) :
    OperandSpread stop room ∧ RightSpread stop room := by
  induction room using Nat.strongRecOn with
  | ind room ih =>
    have hoperand : OperandSpread stop room := operand_spread hstop ih
    exact ⟨hoperand, readRight_spread hstop hoperand fun r hr => (ih r hr).2⟩

/-- A part that may need a level more by itself: the formula begins behind a plus that it drops, and
    the part begins where the formula does, with a power that other operators follow. -/
structure Leaning (gap : List Token) (f e : Formula) : Prop where
  dropped : ∃ t gap', gap = t :: gap' ∧ t.kind = .plus
  begins : e.span.start = f.span.start
  leans : e.leansOnPower = true

/-- **The parts of a formula at the outermost level**: all are alone with the room there was, but
    that those which lean on a power behind a plus may take one level more. -/
theorem sum_spread_top (hstop : stop.kind = .stop) (h : sum stop room ts = .ok (f, rest)) :
    ∃ gap us, ts = gap ++ (us ++ rest) ∧
      Spread (fun vs e => Alone room vs e ∨ Alone (room + 1) vs e ∧ Leaning gap f e) us f := by
  cases room with
  | zero => cases h
  | succ r =>
    obtain ⟨⟨first, ts₁⟩, h₁, h₂⟩ := bind_ok_iff.mp h
    obtain ⟨gap, us, spent, rfl, hdelayed, hentry⟩ := (parser_spread hstop r).1 h₁
    have hright : ∀ r', r' < r → RightSpread stop r' := fun r' _ => (parser_spread hstop r').2
    have hle := hdelayed.le_one
    obtain rfl | rfl : spent = 0 ∨ spent = 1 := by omega
    · obtain ⟨vs, spent', rfl, hfinal, -⟩ := steps_entry (K := fun _ => True) hstop
        (fun _ => trivial) (fun _ hspent' henters => henters.alone hspent')
        (fun us e halone => halone.mono (Nat.le_succ r)) hright h₂ hentry trivial (Nat.le_refl _)
      exact ⟨gap, us ++ vs, by simp, hfinal.spread.mono fun us e halone => .inl halone⟩
    · obtain ⟨hpower, -, hgap⟩ := hdelayed.power rfl
      let K : Formula → Prop := fun e =>
        (e.isPower || e.leansOnPower) = true ∧ e.span.start = first.span.start
      obtain ⟨vs, spent', rfl, hfinal, -, hstart⟩ :=
        steps_entry
          (P := fun vs e => Alone (r + 1) vs e ∨ Alone (r + 1 + 1) vs e ∧ Leaning gap first e)
          (K := K) hstop (fun hleft => ⟨by simp [leansOnPower, combine, hleft.1], hleft.2⟩)
          (fun hleft hspent' henters =>
            .inr ⟨henters.alone hspent', hgap, hleft.2, hleft.1⟩)
          (fun us e halone => .inl halone) hright h₂
          (hentry.mono (fun us e halone => .inl halone) (Nat.le_succ r))
          ⟨by rw [hpower, Bool.true_or], rfl⟩ (Nat.le_refl _)
      refine ⟨gap, us ++ vs, by simp, hfinal.spread.mono fun us e holds => ?_⟩
      exact holds.imp_right fun hlean =>
        ⟨hlean.1, hlean.2.dropped, hlean.2.begins.trans hstart.symm, hlean.2.leans⟩

end Formula

end FormulaGraph
