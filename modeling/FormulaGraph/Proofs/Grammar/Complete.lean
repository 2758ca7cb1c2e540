/-
  File:      FormulaGraph/Proofs/Grammar/Complete.lean
  Subject:   What derives from the grammar is read, given room enough.

  More room changes an answer only if the answer was that the formula nests too deep. So it is
  enough to follow the parser where there is room: two levels for each token are.

  A term is read as its first factor and a tail of operators, a sum as its first term and a tail.
  The tail of a derivation is found by induction, since the grammar groups to the left while the
  parser goes from left to right.

  * `UpToDepth`, `Formula.sum_mono` -- what more room can change;
  * `Reads.Factor`, `Reads.Tail`, `Reads.Term`, `Reads.Sum` -- how the layers are read;
  * `Formula.sum_complete` -- every derived list of tokens is read, with its tree.
-/
import FormulaGraph.Proofs.Grammar.Sound

namespace FormulaGraph

open Grammar

/-! ## 1. More room -/

/-- Two answers agree, or the first is that the formula nests too deep. -/
def UpToDepth {α : Type} (r r' : Except FormulaError α) : Prop :=
  r = r' ∨ ∃ span, r = .error (.tooDeep span)

namespace UpToDepth

variable {α β : Type} {r r' r'' : Except FormulaError α}

theorem refl (r : Except FormulaError α) : UpToDepth r r := .inl rfl

theorem trans (h : UpToDepth r r') (h' : UpToDepth r' r'') : UpToDepth r r'' := by
  rcases h with rfl | hdeep
  · exact h'
  · exact .inr hdeep

theorem bind {k k' : α → Except FormulaError β} (h : UpToDepth r r')
    (hk : ∀ a, UpToDepth (k a) (k' a)) : UpToDepth (r >>= k) (r' >>= k') := by
  rcases h with rfl | ⟨span, rfl⟩
  · cases r with
    | error e => exact .inl rfl
    | ok a => exact hk a
  · exact .inr ⟨span, rfl⟩

end UpToDepth

namespace Formula

variable {stop : Token}

theorem upToDepth_tooDeep {α : Type} (ts : List Token) (r : Except FormulaError α) :
    UpToDepth (tooDeep stop ts) r := .inr ⟨_, rfl⟩

theorem argumentsFrom_mono {read read' : List Token → Parsed}
    (h : ∀ ts, UpToDepth (read ts) (read' ts)) (steps : Nat) (ts : List Token) :
    UpToDepth (argumentsFrom stop read steps ts) (argumentsFrom stop read' steps ts) := by
  induction steps generalizing ts with
  | zero => exact .refl _
  | succ steps ih =>
    refine (h ts).bind fun found => ?_
    dsimp only
    split
    · exact (ih _).bind fun _ => .refl _
    · exact .refl _

theorem primary_mono {read read' : List Token → Parsed} (h : ∀ ts, UpToDepth (read ts) (read' ts))
    (ts : List Token) : UpToDepth (primary stop read ts) (primary stop read' ts) := by
  unfold primary
  dsimp only
  split
  · exact .refl _
  · exact .refl _
  · split
    · refine UpToDepth.bind ?_ fun _ => .refl _
      unfold arguments
      dsimp only
      split
      · exact .refl _
      · exact argumentsFrom_mono h _ _
    · exact .refl _
  · exact (h _).bind fun _ => .refl _
  · exact .refl _

theorem tighten_mono {extend extend' : Nat → Formula → List Token → Parsed}
    (h : ∀ level f ts, UpToDepth (extend level f ts) (extend' level f ts)) (op : BinaryOp)
    (levels : List Nat) (right : Formula) (ts : List Token) :
    UpToDepth (tighten extend op levels right ts) (tighten extend' op levels right ts) := by
  induction levels generalizing right ts with
  | nil => exact .refl _
  | cons level levels ih =>
    unfold tighten
    split
    · exact .refl _
    · split
      · exact (h level right ts).bind fun _ => ih _ _
      · exact ih _ _

/-- **One level of room more changes no answer but that of too deep a formula.** -/
theorem parser_mono (room : Nat) :
    (∀ ts, UpToDepth (operand stop room ts) (operand stop (room + 1) ts)) ∧
      (∀ least left ts,
        UpToDepth (steps stop room least left ts) (steps stop (room + 1) least left ts)) ∧
      ∀ least left ts,
        UpToDepth (extend stop room least left ts) (extend stop (room + 1) least left ts) := by
  induction room with
  | zero =>
    refine ⟨fun ts => ?_, fun least left ts => ?_, fun least left ts => upToDepth_tooDeep ts _⟩
    · unfold operand
      split
      · exact upToDepth_tooDeep _ _
      · exact primary_mono (fun ts => upToDepth_tooDeep ts _) ts
    · unfold steps
      split
      · exact .refl _
      · split
        · exact .refl _
        · exact upToDepth_tooDeep _ _
  | succ room ih =>
    obtain ⟨ho, hs, he⟩ := ih
    refine ⟨fun ts => ?_, fun least left ts => ?_, hs⟩
    · rw [operand, operand]
      split
      · exact (ho _).bind fun _ => (he _ _ _).bind fun _ => .refl _
      · exact primary_mono (fun ts => (ho ts).bind fun _ => hs _ _ _) ts
    · rw [steps, steps]
      split
      · exact .refl _
      · split
        · exact .refl _
        · exact (ho _).bind fun _ => (tighten_mono he _ _ _ _).bind fun _ => hs _ _ _

theorem sum_mono {room room' : Nat} (h : room ≤ room') (ts : List Token) :
    UpToDepth (sum stop room ts) (sum stop room' ts) := by
  induction h with
  | refl => exact .refl _
  | @step room' _ ih =>
    refine ih.trans ?_
    cases room' with
    | zero => exact upToDepth_tooDeep ts _
    | succ room' => exact ((parser_mono room').1 ts).bind fun _ => (parser_mono room').2.1 _ _ _

/-! ## 2. The loop, where there is room -/

theorem steps_of_stops {least : Nat} {ts : List Token} (h : Stops least ts) (room : Nat)
    (left : Formula) : steps stop room least left ts = .ok (left, ts) := by
  cases hn : nextOperator? ts with
  | none => cases room <;> rw [steps, hn]
  | some found =>
    obtain ⟨op, more⟩ := found
    have hlt := h op more hn
    cases room <;>
    · rw [steps, hn]
      exact if_pos hlt

/-- One operator is taken, with its right operand. -/
theorem steps_of_readRight {room least : Nat} {left right : Formula} {t : Token} {op : BinaryOp}
    {ts rest : List Token} (hop : operatorOf t.kind = some op) (hle : least ≤ op.precedence)
    (h : readRight stop room op ts = .ok (right, rest)) :
    steps stop (room + 1) least left (t :: ts) =
      steps stop room least (combine op left right) rest := by
  obtain ⟨⟨right', ts₁⟩, h₁, h₂⟩ := bind_ok_iff.mp h
  dsimp only at h₂
  have hn : nextOperator? (t :: ts) = some (op, ts) := by
    rw [nextOperator?, hop]
    rfl
  rw [steps, hn]
  dsimp only
  rw [if_neg (by omega), h₁]
  show (tighten (fun level f ts => extend stop room level f ts) op levels right' ts₁ >>= _) = _
  rw [h₂]
  rfl

/-- With room for one level, a level is taken by the loop. -/
theorem takeLevel_eq_steps {level room : Nat} {ts : List Token} (h : Stops (level + 1) ts)
    (right : Formula) :
    takeLevel (fun level f ts => extend stop (room + 1) level f ts) level right ts =
      steps stop room level right ts := by
  unfold takeLevel
  split
  · rename_i hnone
    refine (steps_of_stops (fun next more hn => ?_) room right).symm
    rw [hnone] at hn
    cases hn
  · rename_i next more hsome
    split
    · rfl
    · rename_i hlevel
      refine (steps_of_stops (fun next' more' hn => ?_) room right).symm
      have hlt := h next' more' hn
      rw [hsome] at hn
      cases hn
      omega

theorem stops_five (ts : List Token) : Stops 5 ts :=
  fun next _ _ => Nat.lt_succ_of_le (precedence_le_four next)

/-- The right operand of a product or a power. -/
theorem readRight_of_tight {room : Nat} {op : BinaryOp} (h : 2 ≤ op.precedence) (ts : List Token) :
    readRight stop (room + 1) op ts = start stop (room + 1) room 4 ts := by
  unfold readRight start
  simp only [tighten_of_tight h, takeLevel_eq_steps (stops_five _)]

/-- The right operand of a sum. -/
theorem readRight_of_loose {room : Nat} {op : BinaryOp} (h : op.precedence = 1) (ts : List Token) :
    readRight stop (room + 1) op ts = (do
      let (right, ts) ← start stop (room + 1) room 4 ts
      takeLevel (fun level f ts => extend stop (room + 1) level f ts) 2 right ts) := by
  unfold readRight start
  simp only [tighten_of_loose h, takeLevel_eq_steps (stops_five _)]
  cases operand stop (room + 1) ts with
  | error e => rfl
  | ok found => rfl

/-! ## 3. How the layers are read -/

/-- What may stand behind tokens: no opening parenthesis, and no operator above a precedence. -/
def Follows (p : Nat) (ts : List Token) : Prop :=
  ∀ t us, ts = t :: us → t.kind ≠ .openParen ∧ ∀ op, operatorOf t.kind = some op → op.precedence ≤ p

theorem Follows.mono {p q : Nat} {ts : List Token} (h : Follows p ts) (hq : p ≤ q) : Follows q ts :=
  fun t us he => ⟨(h t us he).1, fun op hop => Nat.le_trans ((h t us he).2 op hop) hq⟩

theorem Follows.stops {p : Nat} {ts : List Token} (h : Follows p ts) : Stops (p + 1) ts := by
  intro next more hn
  obtain ⟨t, rfl, hop⟩ := nextOperator?_eq_some hn
  exact Nat.lt_succ_of_le ((h t more rfl).2 next hop)

/-- Behind a product only products and sums may stand, so no power comes next. -/
theorem Follows.stops_four {ts : List Token} (h : Follows 2 ts) : Stops 4 ts :=
  fun next more hn => Nat.lt_succ_of_lt (h.stops next more hn)

theorem follows_of_kind {p : Nat} {t : Token} {ts : List Token} (h₁ : t.kind ≠ .openParen)
    (h₂ : operatorOf t.kind = none) : Follows p (t :: ts) := by
  intro u us he
  cases he
  refine ⟨h₁, fun op hop => ?_⟩
  rw [h₂] at hop
  cases hop

theorem follows_operator {p : Nat} {t : Token} {op : BinaryOp} {ts : List Token}
    (hop : operatorOf t.kind = some op) (hp : op.precedence ≤ p) : Follows p (t :: ts) := by
  intro u us he
  cases he
  refine ⟨fun hopen => ?_, fun op' hop' => ?_⟩
  · rw [hopen] at hop
    cases hop
  · rw [hop] at hop'
    cases hop'
    exact hp

end Formula

namespace Reads

variable (stop : Token)

/-- A primary is read as an operand. -/
def Primary (us : List Token) (s : Shape) : Prop :=
  ∀ (room : Nat) (more : List Token), Formula.Follows 4 more → 2 * us.length ≤ room →
    ∃ f : Formula, f.shape = s ∧ Formula.operand stop room (us ++ more) = .ok (f, more)

/-- A factor is read, and the loop goes on behind it. -/
def Factor (us : List Token) (s : Shape) : Prop :=
  ∀ (room room' least : Nat) (more : List Token), least ≤ 4 → Formula.Follows 2 more →
    2 * us.length ≤ room → 2 * us.length ≤ room' →
      ∃ (f : Formula) (r : Nat), f.shape = s ∧ room' ≤ r + us.length ∧
        Formula.start stop room room' least (us ++ more) = Formula.steps stop r least f more

/-- From one tree the loop gets to another, and goes on. -/
def Tail (p : Nat) (us : List Token) (s s' : Shape) : Prop :=
  ∀ (room least : Nat) (left : Formula) (more : List Token), least ≤ p → Formula.Follows p more →
    left.shape = s → 2 * us.length ≤ room →
      ∃ (f : Formula) (r : Nat), f.shape = s' ∧ room ≤ r + us.length ∧
        Formula.steps stop room least left (us ++ more) = Formula.steps stop r least f more

/-- A head of the layer below, and a tail of operators. -/
def Layered (Head : List Token → Shape → Prop) (p : Nat) (us : List Token) (s : Shape) : Prop :=
  ∃ head tail s₀, us = head ++ tail ∧ Head head s₀ ∧ Tail stop p tail s₀ s ∧
    ∀ more, Formula.Follows p more → Formula.Follows p (tail ++ more)

def Term : List Token → Shape → Prop := Layered stop (Factor stop) 2

def Sum : List Token → Shape → Prop := Layered stop (Term stop) 1

/-- What an operator reads as its right operand, behind which a precedence may stand. -/
def Right (op : BinaryOp) (p : Nat) (us : List Token) (s : Shape) : Prop :=
  ∀ (room : Nat) (more : List Token), Formula.Follows p more → 2 * us.length + 1 ≤ room →
    ∃ f : Formula, f.shape = s ∧ Formula.readRight stop room op (us ++ more) = .ok (f, more)

variable {stop : Token} {us vs : List Token} {t : Token} {op : BinaryOp} {s s' : Shape}

/-! ## 4. Operators -/

theorem Factor.right (h : Factor stop us s) (hop : 2 ≤ op.precedence) : Right stop op 2 us s := by
  intro room more hmore hroom
  obtain ⟨r, rfl⟩ : ∃ r, room = r + 1 := ⟨room - 1, by omega⟩
  obtain ⟨f, r', hf, -, hstart⟩ :=
    h (r + 1) r 4 more (Nat.le_refl 4) hmore (by omega) (by omega)
  refine ⟨f, hf, ?_⟩
  rw [Formula.readRight_of_tight hop, hstart]
  exact Formula.steps_of_stops hmore.stops_four r' f

theorem Term.right (h : Term stop us s) (hop : op.precedence = 1) : Right stop op 1 us s := by
  intro room more hmore hroom
  obtain ⟨r, rfl⟩ : ∃ r, room = r + 1 := ⟨room - 1, by omega⟩
  obtain ⟨head, tail, s₀, rfl, hhead, htail, hfollows⟩ := h
  rw [List.length_append] at hroom
  have hbehind := hfollows more (hmore.mono (by decide))
  obtain ⟨f₀, r₀, hf₀, -, hstart⟩ :=
    hhead (r + 1) r 4 (tail ++ more) (Nat.le_refl 4) hbehind (by omega) (by omega)
  obtain ⟨f, r₁, hf, -, hsteps⟩ :=
    htail r 2 f₀ more (Nat.le_refl 2) (hmore.mono (by decide)) hf₀ (by omega)
  refine ⟨f, hf, ?_⟩
  rw [Formula.readRight_of_loose hop, List.append_assoc, hstart,
    Formula.steps_of_stops hbehind.stops_four]
  show Formula.takeLevel _ 2 f₀ (tail ++ more) = _
  rw [Formula.takeLevel_eq_steps hbehind.stops, hsteps]
  exact Formula.steps_of_stops hmore.stops r₁ f

/-- A layer begins with its head. -/
theorem Layered.head {Head : List Token → Shape → Prop} {p : Nat} (h : Head us s) :
    Layered stop Head p us s := by
  refine ⟨us, [], s, (List.append_nil us).symm, h, ?_, fun _ hm => hm⟩
  intro room least left more _ _ hleft _
  exact ⟨left, room, hleft, Nat.le_refl _, rfl⟩

/-- A layer is made longer by an operator and its right operand. -/
theorem Layered.step {Head : List Token → Shape → Prop} {p : Nat} (h : Layered stop Head p us s)
    (hop : Formula.operatorOf t.kind = some op) (hp : op.precedence = p)
    (hr : Right stop op p vs s') : Layered stop Head p (us ++ t :: vs) (.binary op s s') := by
  obtain ⟨head, tail, s₀, rfl, hhead, htail, hfollows⟩ := h
  refine ⟨head, tail ++ t :: vs, s₀, List.append_assoc _ _ _, hhead, ?_, fun more _ => ?_⟩
  · intro room least left more hleast hmore hleft hroom
    rw [List.length_append, List.length_cons] at hroom ⊢
    obtain ⟨f, r, hf, hle, hsteps⟩ :=
      htail room least left (t :: (vs ++ more)) hleast
        (Formula.follows_operator hop (Nat.le_of_eq hp)) hleft (by omega)
    obtain ⟨r', rfl⟩ : ∃ r', r = r' + 1 := ⟨r - 1, by omega⟩
    obtain ⟨g, hg, hright⟩ := hr r' more hmore (by omega)
    refine ⟨Formula.combine op f g, r', ?_, by omega, ?_⟩
    · rw [← hf, ← hg]
      rfl
    · rw [List.append_assoc, List.cons_append, hsteps]
      exact Formula.steps_of_readRight hop (by omega) hright
  · rw [List.append_assoc]
    exact hfollows _ (Formula.follows_operator hop (Nat.le_of_eq hp))

/-- **A sum is read to its end.** -/
theorem Sum.start (h : Sum stop us s) (room : Nat) (more : List Token)
    (hmore : Formula.Follows 0 more) (hroom : 2 * us.length ≤ room) :
    ∃ f : Formula, f.shape = s ∧ Formula.start stop room room 0 (us ++ more) = .ok (f, more) := by
  obtain ⟨us₁, tail₁, s₁, rfl, hfirst, hsum, hfollows₁⟩ := h
  obtain ⟨us₀, tail₀, s₀, rfl, hfactor, hterm, hfollows₀⟩ := hfirst
  rw [List.length_append, List.length_append] at hroom
  have hbehind₁ := hfollows₁ more (hmore.mono (by decide))
  have hbehind₀ := hfollows₀ (tail₁ ++ more) (hbehind₁.mono (by decide))
  -- the first factor, the operators of the first term, the operators of the sum
  obtain ⟨f₀, r₀, hf₀, hle₀, h₀⟩ :=
    hfactor room room 0 (tail₀ ++ (tail₁ ++ more)) (by decide) hbehind₀ (by omega) (by omega)
  obtain ⟨f₁, r₁, hf₁, hle₁, h₁⟩ :=
    hterm r₀ 0 f₀ (tail₁ ++ more) (by decide) (hbehind₁.mono (by decide)) hf₀ (by omega)
  obtain ⟨f, r, hf, -, h₂⟩ :=
    hsum r₁ 0 f₁ more (by decide) (hmore.mono (by decide)) hf₁ (by omega)
  refine ⟨f, hf, ?_⟩
  rw [List.append_assoc, List.append_assoc, h₀, h₁, h₂]
  refine Formula.steps_of_stops (fun next more' hn => ?_) r f
  exact absurd (hmore.stops next more' hn) (Nat.not_lt.mpr (Formula.precedence_pos next))

/-! ## 5. Signs and powers -/

theorem Primary.factor (h : Primary stop us s) : Factor stop us s := by
  intro room room' least more _ hmore hroom _
  obtain ⟨f, hf, hoperand⟩ := h room more (hmore.mono (by decide)) hroom
  refine ⟨f, room', hf, Nat.le_add_right _ _, ?_⟩
  unfold Formula.start
  rw [hoperand]
  rfl

theorem Primary.power (h : Primary stop us s) (hop : Formula.operatorOf t.kind = some .power)
    (hr : Factor stop vs s') : Factor stop (us ++ t :: vs) (.binary .power s s') := by
  intro room room' least more hleast hmore hroom hroom'
  rw [List.length_append, List.length_cons] at hroom hroom' ⊢
  obtain ⟨r, rfl⟩ : ∃ r, room' = r + 1 := ⟨room' - 1, by omega⟩
  obtain ⟨f, hf, hoperand⟩ :=
    h room (t :: (vs ++ more)) (Formula.follows_operator hop (Nat.le_refl 4)) (by omega)
  have hpower : Right stop .power 2 vs s' := hr.right (by decide)
  obtain ⟨g, hg, hright⟩ := hpower r more hmore (by omega)
  refine ⟨Formula.combine .power f g, r, ?_, by omega, ?_⟩
  · rw [← hf, ← hg]
    rfl
  · unfold Formula.start
    rw [List.append_assoc, List.cons_append, hoperand]
    exact Formula.steps_of_readRight hop hleast hright

/-- A sign in front of a factor. -/
theorem Factor.sign (h : Factor stop us s) (ht : t.kind = .plus ∨ t.kind = .minus)
    (hs : ∀ f : Formula, f.shape = s → (Formula.withSign t f).shape = s') :
    Factor stop (t :: us) s' := by
  intro room room' least more _ hmore hroom _
  rw [List.length_cons] at hroom ⊢
  obtain ⟨r, rfl⟩ : ∃ r, room = r + 2 := ⟨room - 2, by omega⟩
  obtain ⟨f, r', hf, -, hstart⟩ := h (r + 1) r 4 more (Nat.le_refl 4) hmore (by omega) (by omega)
  rw [Formula.steps_of_stops hmore.stops_four] at hstart
  have hsign : Formula.nextSign? (t :: (us ++ more)) = some (t, us ++ more) := if_pos ht
  have hoperand : Formula.operand stop (r + 2) (t :: (us ++ more)) =
      .ok (Formula.withSign t f, more) := by
    obtain ⟨⟨inner, ts₁⟩, h₁, h₂⟩ := bind_ok_iff.mp hstart
    have h₂ : Formula.steps stop r 4 inner ts₁ = .ok (f, more) := h₂
    rw [Formula.operand, hsign]
    dsimp only
    rw [h₁]
    show (Formula.steps stop r 4 inner ts₁ >>= _) = _
    rw [h₂]
    rfl
  refine ⟨Formula.withSign t f, room', hs f hf, by omega, ?_⟩
  unfold Formula.start
  rw [List.cons_append, hoperand]
  rfl

/-! ## 6. Primaries -/

theorem expectClose_cons {c : Token} {ts : List Token} (h : c.kind = .closeParen) :
    Formula.expectClose stop (c :: ts) = .ok (c, ts) := if_pos h

theorem follows_close {p : Nat} {c : Token} {ts : List Token} (h : c.kind = .closeParen) :
    Formula.Follows p (c :: ts) :=
  Formula.follows_of_kind (by simp [h]) (by rw [h]; rfl)

/-- Behind a token that is no sign, what a primary contains is read one level deeper. -/
theorem Primary.of_primary (h₁ : t.kind ≠ .plus) (h₂ : t.kind ≠ .minus)
    (h : ∀ (r : Nat) (more : List Token), Formula.Follows 4 more → 2 * us.length + 1 ≤ r →
      ∃ f : Formula, f.shape = s ∧
        Formula.primary stop (Formula.start stop r r 0) (t :: (us ++ more)) = .ok (f, more)) :
    Primary stop (t :: us) s := by
  intro room more hmore hroom
  rw [List.length_cons] at hroom
  obtain ⟨r, rfl⟩ : ∃ r, room = r + 1 := ⟨room - 1, by omega⟩
  obtain ⟨f, hf, hprimary⟩ := h r more hmore (by omega)
  refine ⟨f, hf, ?_⟩
  have hsign : Formula.nextSign? (t :: (us ++ more)) = none := if_neg (not_or.mpr ⟨h₁, h₂⟩)
  rw [List.cons_append, Formula.operand, hsign]
  exact hprimary

theorem Primary.integer {value : Nat} (ht : t.kind = .integer value) :
    Primary stop [t] (.integer value) := by
  refine .of_primary (by simp [ht]) (by simp [ht]) fun r more _ _ => ?_
  refine ⟨.integer value t.span, rfl, ?_⟩
  simp only [Formula.primary, Formula.current, ht]
  rfl

theorem Primary.float {value : Float} (ht : t.kind = .float value) :
    Primary stop [t] (.float value) := by
  refine .of_primary (by simp [ht]) (by simp [ht]) fun r more _ _ => ?_
  refine ⟨.float value t.span, rfl, ?_⟩
  simp only [Formula.primary, Formula.current, ht]
  rfl

/-- A word with no opening parenthesis behind it. -/
theorem Primary.symbol (hstop : stop.kind = .stop) {name : String} (ht : t.kind = .word name) :
    Primary stop [t] (.symbol name) := by
  refine .of_primary (by simp [ht]) (by simp [ht]) fun r more hmore _ => ?_
  have hopen : (Formula.current stop more).kind ≠ .openParen := by
    cases more with
    | nil => simp [Formula.current, hstop]
    | cons u us => exact (hmore u us rfl).1
  refine ⟨.symbol name t.span, rfl, ?_⟩
  unfold Formula.primary
  dsimp only [Formula.current]
  rw [ht]
  exact if_neg hopen

theorem Primary.group {o c : Token} (ho : o.kind = .openParen) (h : Sum stop us s)
    (hc : c.kind = .closeParen) : Primary stop (o :: (us ++ [c])) (.group s) := by
  refine .of_primary (by simp [ho]) (by simp [ho]) fun r more _ hr => ?_
  rw [List.length_append] at hr
  obtain ⟨f, hf, hstart⟩ := h.start r (c :: more) (follows_close hc) (by omega)
  refine ⟨.group f (o.span.join c.span), ?_, ?_⟩
  · rw [← hf]
    rfl
  · unfold Formula.primary
    dsimp only [Formula.current]
    rw [ho]
    dsimp only
    rw [List.drop_one, List.tail_cons, List.append_assoc, List.singleton_append, hstart]
    show (Formula.expectClose stop (c :: more) >>= _) = _
    rw [expectClose_cons hc]
    rfl

/-! ## 7. Calls -/

variable (stop) in
/-- Arguments are read up to the closing parenthesis. -/
def Arguments (us : List Token) (args : List Shape) : Prop :=
  ∀ (room fuel : Nat) (c : Token) (more : List Token), c.kind = .closeParen → us.length < fuel →
    2 * us.length ≤ room →
      ∃ fs : List Formula, Formula.shapeAll fs = args ∧
        Formula.argumentsFrom stop (Formula.start stop room room 0) fuel (us ++ c :: more) =
          .ok ((fs, c), more)

theorem Arguments.one (h : Sum stop us s) : Arguments stop us [s] := by
  intro room fuel c more hc hfuel hroom
  obtain ⟨fuel, rfl⟩ : ∃ n, fuel = n + 1 := ⟨fuel - 1, by omega⟩
  obtain ⟨f, hf, hstart⟩ := h.start room (c :: more) (follows_close hc) hroom
  refine ⟨[f], by rw [← hf]; rfl, ?_⟩
  have hcomma : (Formula.current stop (c :: more)).kind ≠ .comma := by simp [Formula.current, hc]
  rw [Formula.argumentsFrom, hstart]
  show (if (Formula.current stop (c :: more)).kind = .comma then _ else _) = _
  rw [if_neg hcomma, expectClose_cons hc]
  rfl

theorem Arguments.more {args : List Shape} (h : Sum stop us s) (ht : t.kind = .comma)
    (hr : Arguments stop vs args) : Arguments stop (us ++ t :: vs) (s :: args) := by
  intro room fuel c more hc hfuel hroom
  rw [List.length_append, List.length_cons] at hfuel hroom
  obtain ⟨fuel, rfl⟩ : ∃ n, fuel = n + 1 := ⟨fuel - 1, by omega⟩
  obtain ⟨f, hf, hstart⟩ :=
    h.start room (t :: (vs ++ c :: more))
      (Formula.follows_of_kind (by simp [ht]) (by rw [ht]; rfl)) (by omega)
  obtain ⟨fs, hfs, hothers⟩ := hr room fuel c more hc (by omega) (by omega)
  refine ⟨f :: fs, by rw [← hf, ← hfs]; rfl, ?_⟩
  rw [List.append_assoc, List.cons_append, Formula.argumentsFrom, hstart]
  show (if t.kind = .comma then _ else _) = _
  rw [if_pos ht, List.drop_one, List.tail_cons, hothers]
  rfl

/-- A word with an opening parenthesis behind it. -/
theorem primary_call {read : List Token → Parsed} {o : Token} {ts : List Token} {name : String}
    (ht : t.kind = .word name) (ho : o.kind = .openParen) :
    Formula.primary stop read (t :: o :: ts) = (do
      let ((args, close), ts) ← Formula.arguments stop read ts
      return (.call name args (t.span.join close.span), ts)) := by
  unfold Formula.primary
  dsimp only [Formula.current]
  rw [ht]
  exact if_pos ho

theorem Primary.emptyCall {o c : Token} {name : String} (ht : t.kind = .word name)
    (ho : o.kind = .openParen) (hc : c.kind = .closeParen) :
    Primary stop [t, o, c] (.call name []) := by
  refine .of_primary (by simp [ht]) (by simp [ht]) fun r more _ _ => ?_
  refine ⟨.call name [] (t.span.join c.span), rfl, ?_⟩
  have harguments : Formula.arguments stop (Formula.start stop r r 0) (c :: more) =
      .ok (([], c), more) := if_pos hc
  rw [List.cons_append, List.singleton_append, primary_call ht ho, harguments]
  rfl

theorem Primary.call {o c : Token} {name : String} {args : List Shape} (ht : t.kind = .word name)
    (ho : o.kind = .openParen) (hs : Sentence us) (h : Arguments stop us args)
    (hc : c.kind = .closeParen) : Primary stop (t :: o :: (us ++ [c])) (.call name args) := by
  refine .of_primary (by simp [ht]) (by simp [ht]) fun r more _ hr => ?_
  rw [List.length_cons, List.length_append] at hr
  obtain ⟨fs, hfs, hfrom⟩ :=
    h r ((us ++ c :: more).length + 1) c more hc
      (by rw [List.length_append]; omega) (by omega)
  refine ⟨.call name fs (t.span.join c.span), by rw [← hfs]; rfl, ?_⟩
  -- the first token of the arguments does not close the call
  have hopen : (Formula.current stop (us ++ c :: more)).kind ≠ .closeParen := by
    obtain ⟨u, us', rfl, hu⟩ := hs.starts
    exact hu
  have harguments : Formula.arguments stop (Formula.start stop r r 0) (us ++ c :: more) =
      .ok ((fs, c), more) := by
    rw [← hfrom]
    exact if_neg hopen
  rw [List.cons_append, List.append_assoc, List.singleton_append, primary_call ht ho, harguments]
  rfl

end Reads

/-! ## 8. Every derivation is read -/

namespace Grammar

theorem SumOp.operatorOf {kind : TokenKind} {op : BinaryOp} (h : SumOp kind op) :
    Formula.operatorOf kind = some op := by
  cases h <;> rfl

theorem SumOp.precedence {kind : TokenKind} {op : BinaryOp} (h : SumOp kind op) :
    op.precedence = 1 := by
  cases h <;> rfl

theorem TermOp.operatorOf {kind : TokenKind} {op : BinaryOp} (h : TermOp kind op) :
    Formula.operatorOf kind = some op := by
  cases h <;> rfl

theorem TermOp.precedence {kind : TokenKind} {op : BinaryOp} (h : TermOp kind op) :
    op.precedence = 2 := by
  cases h <;> rfl

theorem PowerOp.operatorOf {kind : TokenKind} (h : PowerOp kind) :
    Formula.operatorOf kind = some .power := by
  cases h <;> rfl

variable {stop : Token}

mutual
theorem Sum.reads (hstop : stop.kind = .stop) :
    ∀ {ts : List Token} {s : Shape}, Sum ts s → Reads.Sum stop ts s
  | _, _, .term h => .head (h.reads hstop)
  | _, _, .step h ho hr =>
      (h.reads hstop).step ho.operatorOf ho.precedence ((hr.reads hstop).right ho.precedence)

theorem Term.reads (hstop : stop.kind = .stop) :
    ∀ {ts : List Token} {s : Shape}, Term ts s → Reads.Term stop ts s
  | _, _, .factor h => .head (h.reads hstop)
  | _, _, .step h ho hr =>
      (h.reads hstop).step ho.operatorOf ho.precedence
        ((hr.reads hstop).right (Nat.le_of_eq ho.precedence.symm))

theorem Factor.reads (hstop : stop.kind = .stop) :
    ∀ {ts : List Token} {s : Shape}, Factor ts s → Reads.Factor stop ts s
  | _, _, .minus ht h =>
      (h.reads hstop).sign (.inr ht) fun f hf => by rw [Formula.withSign, if_pos ht, ← hf]; rfl
  | _, _, .plus ht h =>
      (h.reads hstop).sign (.inl ht) fun f hf => by rw [Formula.withSign, if_neg (by simp [ht]), hf]
  | _, _, .power h => h.reads hstop

theorem Power.reads (hstop : stop.kind = .stop) :
    ∀ {ts : List Token} {s : Shape}, Power ts s → Reads.Factor stop ts s
  | _, _, .primary h => (h.reads hstop).factor
  | _, _, .step h ho hr => (h.reads hstop).power ho.operatorOf (hr.reads hstop)

theorem Primary.reads (hstop : stop.kind = .stop) :
    ∀ {ts : List Token} {s : Shape}, Primary ts s → Reads.Primary stop ts s
  | _, _, .integer ht => .integer ht
  | _, _, .float ht => .float ht
  | _, _, .symbol ht => .symbol hstop ht
  | _, _, .emptyCall ht ho hc => .emptyCall ht ho hc
  | _, _, .call ht ho h hc => .call ht ho h.sentence (h.reads hstop) hc
  | _, _, .group ho h hc => .group ho (h.reads hstop) hc

theorem Arguments.reads (hstop : stop.kind = .stop) :
    ∀ {ts : List Token} {args : List Shape}, Arguments ts args → Reads.Arguments stop ts args
  | _, _, .one h => .one (h.reads hstop)
  | _, _, .more h ht hr => .more (h.reads hstop) ht (hr.reads hstop)
end

end Grammar

/-- **What derives from the grammar is read, with its tree.** Two levels for each token are room
    enough. -/
theorem Formula.sum_complete {stop : Token} (hstop : stop.kind = .stop) {ts : List Token}
    {s : Shape} (h : Grammar.Sum ts s) {room : Nat} (hroom : 2 * ts.length < room) :
    ∃ f : Formula, f.shape = s ∧ sum stop room ts = .ok (f, []) := by
  obtain ⟨r, rfl⟩ : ∃ r, room = r + 1 := ⟨room - 1, by omega⟩
  obtain ⟨f, hf, hstart⟩ := (h.reads hstop).start r [] nofun (by omega)
  rw [List.append_nil] at hstart
  exact ⟨f, hf, hstart⟩

end FormulaGraph
