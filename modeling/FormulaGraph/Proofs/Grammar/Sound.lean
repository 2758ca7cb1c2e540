/-
  File:      FormulaGraph/Proofs/Grammar/Sound.lean
  Subject:   What the parser reads derives from the grammar.

  The parser has no layers; it has one loop over operators with a least precedence. The loop is
  tied to the grammar by what stands in front of it: `Left op` is the layer that the grammar asks of
  the operand left of `op`, and whatever operator comes next, the tokens read so far derive from its
  layer. The induction is on the room that is left.

  * `Grammar.Level`, `Grammar.Left` -- the layer of a precedence, and of an operator's left operand;
  * `OperandSound`, `StepsSound` -- the invariant;
  * `Formula.sum_sound` -- a formula that was read, and the tokens it was read from.
-/
import FormulaGraph.Proofs.Grammar.Basic

namespace FormulaGraph

namespace Grammar

/-! ## 1. Operators and layers -/

/-- What operators of a least precedence make up. -/
def Level (least : Nat) : List Token → Shape → Prop :=
  if least ≤ 1 then Sum else if least ≤ 2 then Term else Factor

/-- What an operator asks of its left operand; of its right one it asks for the next level. -/
def Left (op : BinaryOp) : List Token → Shape → Prop :=
  if op = .power then Primary else Level op.precedence

variable {ts us : List Token} {t : Token} {op next : BinaryOp} {s l r : Shape} {p q : Nat}

theorem Level.mono (h : Level p ts s) (hq : q ≤ p) : Level q ts s := by
  unfold Level at h ⊢
  split at h
  · rw [if_pos (by omega)]
    exact h
  · split at h
    · split
      · exact .term h
      · rw [if_pos (by omega)]
        exact h
    · split
      · exact .term (.factor h)
      · split
        · exact .factor h
        · exact h

/-- An operator with operands of its layers. -/
theorem level_step (ho : Formula.operatorOf t.kind = some op) (hl : Left op ts l)
    (hr : Level (op.precedence + 1) us r) :
    Level op.precedence (ts ++ t :: us) (.binary op l r) := by
  unfold Formula.operatorOf at ho
  split at ho <;> cases ho <;> rename_i ht
  · exact Sum.step hl (ht ▸ .plus) hr
  · exact Sum.step hl (ht ▸ .minus) hr
  · exact Term.step hl (ht ▸ .star) hr
  · exact Term.step hl (ht ▸ .slash) hr
  · exact Term.step hl (ht ▸ .percent) hr
  · exact Factor.power (.step hl (ht ▸ .starStar) hr)
  · exact Factor.power (.step hl (ht ▸ .caret) hr)

/-- An operator finds the layer it asks for behind tokens of its level, or behind a primary. -/
theorem left_of_level (h : Level p ts s) (hn : next.precedence ≤ p) (hp : next ≠ .power) :
    Left next ts s := by
  unfold Left
  rw [if_neg hp]
  exact h.mono hn

end Grammar

open Grammar

/-! ## 2. The invariant -/

/-- No operator of at least a precedence comes next. -/
def Stops (least : Nat) (ts : List Token) : Prop :=
  ∀ next more, Formula.nextOperator? ts = some (next, more) → next.precedence < least

/-- Whatever operator of at least a precedence comes next, the tokens before it are of its layer. -/
def Ready (least : Nat) (before : List Token) (s : Shape) (ts : List Token) : Prop :=
  Level least before s ∧
    ∀ next more, Formula.nextOperator? ts = some (next, more) → least ≤ next.precedence →
      Left next before s

/-- An operand is a factor, and a primary if a power comes next. -/
def OperandSound (read : List Token → Parsed) : Prop :=
  ∀ {ts rest : List Token} {f : Formula}, read ts = .ok (f, rest) →
    ∃ us, ts = us ++ rest ∧ Ready 4 us f.shape rest

/-- The operators of a least precedence make up its level. -/
def StepsSound (read : Nat → Formula → List Token → Parsed) : Prop :=
  ∀ {least : Nat} {left f : Formula} {before ts rest : List Token},
    Ready least before left.shape ts → read least left ts = .ok (f, rest) →
      ∃ us, ts = us ++ rest ∧ Level least (before ++ us) f.shape ∧ Stops least rest

/-- What is read between parentheses is a sum. -/
def SumSound (read : List Token → Parsed) : Prop :=
  ∀ {ts rest : List Token} {f : Formula}, read ts = .ok (f, rest) →
    ∃ us, ts = us ++ rest ∧ Sum us f.shape

namespace Formula

variable {stop : Token} {ts rest : List Token} {f : Formula}

theorem nextOperator?_eq_some {op : BinaryOp} (h : nextOperator? ts = some (op, rest)) :
    ∃ t, ts = t :: rest ∧ operatorOf t.kind = some op := by
  cases ts with
  | nil => cases h
  | cons t us =>
    obtain ⟨op', ho, he⟩ := Option.map_eq_some_iff.mp h
    cases he
    exact ⟨t, rfl, ho⟩

theorem nextSign?_eq_some {sign : Token} (h : nextSign? ts = some (sign, rest)) :
    ts = sign :: rest ∧ (sign.kind = .plus ∨ sign.kind = .minus) := by
  cases ts with
  | nil => cases h
  | cons t us =>
    have h : (if t.kind = .plus ∨ t.kind = .minus then some (t, us) else none) =
        some (sign, rest) := h
    split at h
    · rename_i hk
      cases h
      exact ⟨rfl, hk⟩
    · cases h

theorem precedence_pos (op : BinaryOp) : 0 < op.precedence := by
  cases op <;> decide

theorem precedence_le_four (op : BinaryOp) : op.precedence ≤ 4 := by
  cases op <;> decide

/-- An operand may stand in front of any operator. -/
theorem ready_mono {least : Nat} {before : List Token} {s : Shape} (h : Ready 4 before s ts)
    (hl : least ≤ 4) : Ready least before s ts := by
  refine ⟨h.1.mono hl, fun next more hn _ => ?_⟩
  by_cases hp : next = .power
  · subst hp
    exact h.2 .power more hn (Nat.le_refl 4)
  · exact left_of_level h.1 (precedence_le_four next) hp

/-! ## 3. Primaries -/

/-- The current token is the next one unless none is left. -/
theorem current_kind (hstop : stop.kind = .stop) {kind : TokenKind}
    (h : (current stop ts).kind = kind) (hk : kind ≠ .stop) :
    ∃ t us, ts = t :: us ∧ t.kind = kind := by
  cases ts with
  | nil => exact absurd (h.symm.trans hstop) hk
  | cons t us => exact ⟨t, us, rfl, h⟩

theorem expectClose_ok (hstop : stop.kind = .stop) {close : Token}
    (h : expectClose stop ts = .ok (close, rest)) :
    ts = close :: rest ∧ close.kind = .closeParen := by
  unfold expectClose at h
  dsimp only at h
  split at h
  · rename_i hk
    cases h
    obtain ⟨t, us, rfl, ht⟩ := current_kind hstop hk nofun
    exact ⟨rfl, ht⟩
  · cases h

theorem argumentsFrom_sound (hstop : stop.kind = .stop) {read : List Token → Parsed}
    (hread : SumSound read) {steps : Nat} {args : List Formula} {close : Token}
    (h : argumentsFrom stop read steps ts = .ok ((args, close), rest)) :
    ∃ us, ts = us ++ close :: rest ∧ close.kind = .closeParen ∧ Arguments us (shapeAll args) := by
  induction steps generalizing ts args with
  | zero => cases h
  | succ steps ih =>
    obtain ⟨⟨first, ts₁⟩, h₁, hthen⟩ := bind_ok_iff.mp h
    obtain ⟨us, rfl, hus⟩ := hread h₁
    dsimp only at hthen
    split at hthen
    · rename_i hcomma
      obtain ⟨⟨⟨others, close'⟩, ts₂⟩, h₂, hlast⟩ := bind_ok_iff.mp hthen
      cases hlast
      obtain ⟨vs, hvs, hclose, hargs⟩ := ih h₂
      obtain ⟨t, ts₃, rfl, ht⟩ := current_kind hstop hcomma nofun
      have hvs : ts₃ = vs ++ close' :: ts₂ := hvs
      refine ⟨us ++ t :: vs, ?_, hclose, .more hus ht hargs⟩
      rw [hvs, List.append_assoc, List.cons_append]
    · obtain ⟨⟨close', ts₂⟩, h₂, hlast⟩ := bind_ok_iff.mp hthen
      cases hlast
      obtain ⟨rfl, hclose⟩ := expectClose_ok hstop h₂
      exact ⟨us, rfl, hclose, .one hus⟩

/-- **A primary that was read derives from the grammar.** -/
theorem primary_sound (hstop : stop.kind = .stop) {read : List Token → Parsed}
    (hread : SumSound read) (h : primary stop read ts = .ok (f, rest)) :
    ∃ us, ts = us ++ rest ∧ Primary us f.shape := by
  cases ts with
  | nil =>
    unfold primary at h
    rw [current] at h
    simp only [hstop] at h
    cases h
  | cons t us =>
    unfold primary at h
    rw [current, List.drop_one, List.tail_cons] at h
    dsimp only at h
    split at h
    · rename_i value ht
      cases h
      exact ⟨[t], rfl, .integer ht⟩
    · rename_i value ht
      cases h
      exact ⟨[t], rfl, .float ht⟩
    · rename_i name ht
      split at h
      · rename_i hopen
        obtain ⟨o, us, rfl, ho⟩ := current_kind hstop hopen nofun
        obtain ⟨⟨⟨args, close⟩, ts₁⟩, h₁, h⟩ := bind_ok_iff.mp h
        cases h
        have h₁ : arguments stop read us = .ok ((args, close), ts₁) := h₁
        unfold arguments at h₁
        dsimp only at h₁
        split at h₁
        · rename_i hclose
          cases h₁
          obtain ⟨c, us, rfl, hc⟩ := current_kind hstop hclose nofun
          exact ⟨[t, o, c], rfl, .emptyCall ht ho hc⟩
        · obtain ⟨vs, rfl, hclose, hargs⟩ := argumentsFrom_sound hstop hread h₁
          refine ⟨t :: o :: (vs ++ [close]), ?_, .call ht ho hargs hclose⟩
          simp
      · cases h
        exact ⟨[t], rfl, .symbol ht⟩
    · rename_i ht
      obtain ⟨⟨inner, ts₁⟩, h₁, h⟩ := bind_ok_iff.mp h
      obtain ⟨⟨close, ts₂⟩, h₂, h⟩ := bind_ok_iff.mp h
      cases h
      obtain ⟨rfl, hclose⟩ := expectClose_ok hstop h₂
      obtain ⟨vs, rfl, hvs⟩ := hread h₁
      refine ⟨t :: (vs ++ [close]), ?_, .group ht hvs hclose⟩
      simp
    · cases h

/-! ## 4. Operators -/

/-- Precedences jump from 2 to 4. -/
theorem precedence_le_two {op : BinaryOp} (h : op.precedence < 4) :
    op.precedence ≤ 2 ∧ op ≠ .power := by
  cases op with
  | power => exact absurd h (Nat.lt_irrefl 4)
  | _ => exact ⟨by decide, nofun⟩

/-- Operators of one level, given that none of a higher level comes next. -/
theorem takeLevel_sound {extend : Nat → Formula → List Token → Parsed} (he : StepsSound extend)
    {level : Nat} {before : List Token} {right : Formula}
    (hready : Ready level before right.shape ts) (hcap : Stops (level + 1) ts)
    (h : takeLevel extend level right ts = .ok (f, rest)) :
    ∃ us, ts = us ++ rest ∧ Level level (before ++ us) f.shape ∧ Stops level rest := by
  have hself : Stops level ts → ∃ us, ts = us ++ ts ∧
      Level level (before ++ us) right.shape ∧ Stops level ts := fun hs =>
    ⟨[], rfl, by rw [List.append_nil]; exact hready.1, hs⟩
  unfold takeLevel at h
  split at h
  · rename_i hnone
    cases h
    refine hself fun next more hn => ?_
    rw [hnone] at hn
    cases hn
  · rename_i next more hsome
    split at h
    · exact he hready h
    · rename_i hlevel
      cases h
      refine hself fun next' more' hn => ?_
      have hlt := hcap next' more' hn
      rw [hsome] at hn
      cases hn
      omega

/-- The right operand of an operator, taken as far as the operators behind it bind tighter. -/
theorem tighten_sound {extend : Nat → Formula → List Token → Parsed} (he : StepsSound extend)
    {op : BinaryOp} {before : List Token} {right : Formula} (hready : Ready 4 before right.shape ts)
    (h : tighten extend op levels right ts = .ok (f, rest)) :
    ∃ us, ts = us ++ rest ∧ Level (op.precedence + 1) (before ++ us) f.shape ∧
      ∀ next more, nextOperator? rest = some (next, more) →
        next.precedence ≤ op.precedence ∧ next ≠ .power := by
  have hcap : Stops 5 ts := fun next more _ => Nat.lt_succ_of_le (precedence_le_four next)
  by_cases hop : 2 ≤ op.precedence
  · rw [tighten_of_tight hop] at h
    obtain ⟨us, rfl, hlevel, hstops⟩ := takeLevel_sound he hready hcap h
    refine ⟨us, rfl, ?_, fun next more hn => ?_⟩
    · unfold Level at hlevel ⊢
      rw [if_neg (by omega), if_neg (by omega)]
      exact hlevel
    · obtain ⟨hle, hne⟩ := precedence_le_two (hstops next more hn)
      exact ⟨by omega, hne⟩
  · have hone : op.precedence = 1 := by
      cases op with
      | add | subtract => rfl
      | _ => exact absurd (by decide) hop
    rw [tighten_of_loose hone] at h
    obtain ⟨⟨right', ts₁⟩, h₁, h₂⟩ := bind_ok_iff.mp h
    obtain ⟨us, rfl, hlevel, hstops⟩ := takeLevel_sound he hready hcap h₁
    have hready₂ : Ready 2 (before ++ us) right'.shape ts₁ :=
      ⟨hlevel.mono (by decide), fun next more hn _ =>
        left_of_level hlevel (precedence_le_four next) (precedence_le_two (hstops next more hn)).2⟩
    have hcap₂ : Stops 3 ts₁ := fun next more hn =>
      Nat.lt_succ_of_le (precedence_le_two (hstops next more hn)).1
    obtain ⟨vs, rfl, hlevel₂, hstops₂⟩ := takeLevel_sound he hready₂ hcap₂ h₂
    refine ⟨us ++ vs, by rw [List.append_assoc], ?_, fun next more hn => ?_⟩
    · rw [hone, ← List.append_assoc]
      exact hlevel₂
    · have hlt := hstops₂ next more hn
      exact ⟨by omega, (precedence_le_two (by omega)).2⟩

/-- What the loop over operators has done: nothing, or one step and the rest. -/
theorem steps_ok_cases {room least : Nat} {left : Formula}
    (h : steps stop room least left ts = .ok (f, rest)) :
    (Stops least ts ∧ f = left ∧ rest = ts) ∨
      ∃ room' t op more right ts₁ right' ts₂, room = room' + 1 ∧ ts = t :: more ∧
        operatorOf t.kind = some op ∧ least ≤ op.precedence ∧
        operand stop room' more = .ok (right, ts₁) ∧
        tighten (fun level f ts => extend stop room' level f ts) op levels right ts₁ =
          .ok (right', ts₂) ∧
        steps stop room' least (combine op left right') ts₂ = .ok (f, rest) := by
  cases hn : nextOperator? ts with
  | none =>
    refine .inl ⟨fun next more hn' => ?_, ?_⟩
    · rw [hn] at hn'
      cases hn'
    · cases room <;>
      · rw [steps, hn] at h
        cases h
        exact ⟨rfl, rfl⟩
  | some found =>
    obtain ⟨op, more⟩ := found
    by_cases hlt : op.precedence < least
    · refine .inl ⟨fun next more hn' => ?_, ?_⟩
      · rw [hn] at hn'
        cases hn'
        exact hlt
      · cases room <;>
        · rw [steps, hn] at h
          simp only [hlt, if_true] at h
          cases h
          exact ⟨rfl, rfl⟩
    · obtain ⟨t, rfl, hop⟩ := nextOperator?_eq_some hn
      cases room with
      | zero =>
        rw [steps, hn] at h
        simp only [hlt, if_false] at h
        cases h
      | succ room =>
        rw [steps, hn] at h
        simp only [hlt, if_false] at h
        obtain ⟨⟨right, ts₁⟩, h₁, h⟩ := bind_ok_iff.mp h
        obtain ⟨⟨right', ts₂⟩, h₂, h₃⟩ := bind_ok_iff.mp h
        exact .inr ⟨room, t, op, more, right, ts₁, right', ts₂, rfl, rfl, hop, by omega, h₁, h₂, h₃⟩

/-- The loop over operators stops where no operator of its levels comes next. -/
theorem steps_stops {room least : Nat} {left : Formula}
    (h : steps stop room least left ts = .ok (f, rest)) : Stops least rest := by
  induction room generalizing left ts with
  | zero =>
    rcases steps_ok_cases h with ⟨hstops, -, rfl⟩ | ⟨r, t, op, more, right, ts₁, right', ts₂, hr, -⟩
    · exact hstops
    · cases hr
  | succ room ih =>
    rcases steps_ok_cases h with ⟨hstops, -, rfl⟩ |
      ⟨r, t, op, more, right, ts₁, right', ts₂, hr, -, -, -, -, -, h₃⟩
    · exact hstops
    · cases hr
      exact ih h₃

theorem extend_ok {room least : Nat} {left : Formula}
    (h : extend stop room least left ts = .ok (f, rest)) :
    ∃ r, room = r + 1 ∧ steps stop r least left ts = .ok (f, rest) := by
  cases room with
  | zero => cases h
  | succ r => exact ⟨r, rfl, h⟩

/-- **The loop keeps the invariant**, given that it does with less room. -/
theorem steps_sound {room : Nat}
    (hless : ∀ r, room = r + 1 → OperandSound (operand stop r) ∧ StepsSound (steps stop r) ∧
      StepsSound (extend stop r)) : StepsSound (steps stop room) := by
  intro least left f before ts rest hready h
  rcases steps_ok_cases h with ⟨hstops, rfl, rfl⟩ |
    ⟨r, t, op, more, right, ts₁, right', ts₂, hroom, rfl, hop, hle, h₁, h₂, h₃⟩
  · refine ⟨[], rfl, ?_, hstops⟩
    rw [List.append_nil]
    exact hready.1
  · obtain ⟨ho, hs, he⟩ := hless r hroom
    have hnext : nextOperator? (t :: more) = some (op, more) := by
      rw [nextOperator?, hop]
      rfl
    obtain ⟨us, rfl, hright⟩ := ho h₁
    obtain ⟨vs, rfl, hlevel, hbehind⟩ := tighten_sound he hright h₂
    have hresult := level_step hop (hready.2 op _ hnext hle) hlevel
    -- the result is of the operator's level, and what comes next does not bind tighter
    have hready' : Ready least (before ++ t :: (us ++ vs)) (combine op left right').shape ts₂ :=
      ⟨hresult.mono hle, fun next more hn _ =>
        left_of_level hresult (hbehind next more hn).1 (hbehind next more hn).2⟩
    obtain ⟨ws, rfl, hfinal, hstops⟩ := hs hready' h₃
    refine ⟨t :: (us ++ vs ++ ws), by simp, ?_, hstops⟩
    rw [← List.cons_append, ← List.append_assoc]
    exact hfinal

/-! ## 5. The whole parser -/

/-- A primary may stand in front of any operator. -/
theorem ready_of_primary {us : List Token} {s : Shape} (h : Primary us s) : Ready 4 us s ts := by
  have hfactor : Level 4 us s := Factor.power (.primary h)
  refine ⟨hfactor, fun next more _ _ => ?_⟩
  by_cases hp : next = .power
  · unfold Left
    rw [if_pos hp]
    exact h
  · exact left_of_level hfactor (precedence_le_four next) hp

theorem start_sound {room : Nat} (ho : OperandSound (operand stop room))
    (hs : StepsSound (steps stop room)) : SumSound (start stop room room 0) := by
  intro ts rest f h
  obtain ⟨⟨first, ts₁⟩, h₁, h₂⟩ := bind_ok_iff.mp h
  obtain ⟨us, rfl, hready⟩ := ho h₁
  obtain ⟨vs, rfl, hlevel, -⟩ := hs (ready_mono hready (Nat.zero_le 4)) h₂
  exact ⟨us ++ vs, by rw [List.append_assoc], hlevel⟩

theorem operand_sound_succ (hstop : stop.kind = .stop) {room : Nat}
    (ho : OperandSound (operand stop room)) (hs : StepsSound (steps stop room))
    (he : StepsSound (extend stop room)) : OperandSound (operand stop (room + 1)) := by
  intro ts rest f h
  unfold operand at h
  split at h
  · rename_i sign more hsign
    obtain ⟨rfl, hkind⟩ := nextSign?_eq_some hsign
    obtain ⟨⟨inner, ts₁⟩, h₁, hthen⟩ := bind_ok_iff.mp h
    obtain ⟨⟨inner', ts₂⟩, h₂, hlast⟩ := bind_ok_iff.mp hthen
    cases hlast
    obtain ⟨us, rfl, hready⟩ := ho h₁
    obtain ⟨vs, rfl, hlevel, hstops⟩ := he hready h₂
    have hinner : Factor (us ++ vs) inner'.shape := hlevel
    have hfactor : Factor (sign :: (us ++ vs)) (withSign sign inner').shape := by
      unfold withSign
      split
      · rename_i hminus
        exact .minus hminus hinner
      · rename_i hminus
        exact .plus (hkind.resolve_right hminus) hinner
    refine ⟨sign :: (us ++ vs), by simp, hfactor, fun next more hn hle => ?_⟩
    exact absurd hle (Nat.not_le.mpr (hstops next more hn))
  · obtain ⟨us, rfl, hprimary⟩ := primary_sound hstop (start_sound ho hs) h
    exact ⟨us, rfl, ready_of_primary hprimary⟩

/-- **Whatever room there is, what is read derives from the grammar.** -/
theorem parser_sound (hstop : stop.kind = .stop) (room : Nat) :
    OperandSound (operand stop room) ∧ StepsSound (steps stop room) ∧
      StepsSound (extend stop room) := by
  induction room with
  | zero =>
    refine ⟨?_, ?_, ?_⟩
    · intro ts rest f h
      unfold operand at h
      split at h
      · cases h
      · have hread : SumSound (tooDeep stop) := fun h₀ => nomatch h₀
        obtain ⟨us, rfl, hprimary⟩ := primary_sound hstop hread h
        exact ⟨us, rfl, ready_of_primary hprimary⟩
    · exact steps_sound fun r hr => absurd hr (Nat.succ_ne_zero r).symm
    · intro least left f before ts rest _ h
      cases h
  | succ room ih =>
    have hless : ∀ r, room + 1 = r + 1 → OperandSound (operand stop r) ∧
        StepsSound (steps stop r) ∧ StepsSound (extend stop r) := by
      intro r hr
      rw [← Nat.succ.inj hr]
      exact ih
    exact ⟨operand_sound_succ hstop ih.1 ih.2.1 ih.2.2, steps_sound hless, ih.2.1⟩

/-- **A formula that was read, and the tokens it was read from.** -/
theorem sum_sound (hstop : stop.kind = .stop) (room : Nat) : SumSound (sum stop room) := by
  cases room with
  | zero => exact fun h => nomatch h
  | succ room =>
    obtain ⟨ho, hs, -⟩ := parser_sound hstop room
    exact start_sound ho hs

end Formula

end FormulaGraph
