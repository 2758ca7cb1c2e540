/-
  File:      FormulaGraph/Proofs/Grammar/Height.lean
  Subject:   How high a formula is that was read with limited room.

  Levels are counted while the parser goes down, and given back behind every operand. When an
  operator is met its left operand is already read, and the levels it took are free again. So the
  limit bounds the ways through a formula only where going to a left operand counts nothing, and a
  formula may be higher than the limit: each level can hold a chain of operators, whose length is
  bounded by the room on that level.

  * `Formula.depth` -- the height, where going to a left operand counts nothing;
  * `Formula.signs` -- the minus signs on a way through a formula;
  * `Formula.reach` -- the greatest height of an operand with some room;
  * `Formula.parser_within` -- whatever room there is, all three are bounded.
-/
import FormulaGraph.Proofs.Grammar.Recognition

namespace FormulaGraph

namespace Formula

/-! ## 1. Depth and reach -/

mutual
/-- The number of nodes on a way from the root to a leaf, less those that it leaves for their left
    operand; the greatest one of all ways. -/
def depth : Formula → Nat
  | integer .. => 1
  | float .. => 1
  | symbol .. => 1
  | binary _ left right _ => max left.depth (right.depth + 1)
  | negative operand _ => operand.depth + 1
  | call _ arguments _ => depthAll arguments + 1
  | group inner _ => inner.depth + 1

/-- The greatest depth among the formulas. -/
def depthAll : List Formula → Nat
  | [] => 0
  | f :: fs => max f.depth (depthAll fs)
end

mutual
/-- The number of minus signs on a way from the root to a leaf; the greatest one of all ways. -/
def signs : Formula → Nat
  | integer .. => 0
  | float .. => 0
  | symbol .. => 0
  | binary _ left right _ => max left.signs right.signs
  | negative operand _ => operand.signs + 1
  | call _ arguments _ => signsAll arguments
  | group inner _ => inner.signs

/-- The greatest number of signs among the formulas. -/
def signsAll : List Formula → Nat
  | [] => 0
  | f :: fs => max f.signs (signsAll fs)
end

/-- The greatest height of an operand. With one level more it can be a group, and in the group a
    chain of as many operators as there is room for. -/
def reach : Nat → Nat
  | 0 => 1
  | room + 1 => reach room + room + 1

theorem reach_add (room : Nat) : reach room + room = (room + 1) * (room + 2) / 2 := by
  have hsquare : ∀ n : Nat, (n + 1) * (n + 1 + 1) = n * (n + 1) + 2 * (n + 1) := by
    intro n
    rw [Nat.mul_comm, ← Nat.add_mul]
  have hdouble : 2 * reach room = room * (room + 1) + 2 := by
    induction room with
    | zero => rfl
    | succ room ih =>
      have := hsquare room
      rw [reach]
      omega
  have := hsquare room
  show reach room + room = (room + 1) * (room + 1 + 1) / 2
  omega

/-- A formula within bounds for its depth, its height and its signs. -/
structure Within (d h g : Nat) (f : Formula) : Prop where
  depth_le : f.depth ≤ d
  height_le : f.height ≤ h
  signs_le : f.signs ≤ g

variable {stop : Token} {ts rest : List Token} {f left right : Formula} {room least d h g : Nat}

theorem Within.mono {d' h' g' : Nat} (hf : f.Within d h g) (hd : d ≤ d') (hh : h ≤ h')
    (hg : g ≤ g') : f.Within d' h' g' :=
  ⟨Nat.le_trans hf.depth_le hd, Nat.le_trans hf.height_le hh, Nat.le_trans hf.signs_le hg⟩

/-- What an operator adds: nothing to the depth of its left operand, and no sign. -/
theorem Within.combine {d' h' g' : Nat} (op : BinaryOp) (hl : left.Within d h g)
    (hr : right.Within d' h' g') :
    (combine op left right).Within (max d (d' + 1)) (max h h' + 1) (max g g') := by
  have hdepth : (Formula.combine op left right).depth = max left.depth (right.depth + 1) := rfl
  have hheight : (Formula.combine op left right).height = max left.height right.height + 1 := rfl
  have hsigns : (Formula.combine op left right).signs = max left.signs right.signs := rfl
  obtain ⟨hd, hh, hg⟩ := hl
  obtain ⟨hd', hh', hg'⟩ := hr
  exact ⟨by omega, by omega, by omega⟩

theorem withSign_within (sign : Token) (hf : f.Within d h g) :
    (withSign sign f).Within (d + 1) (h + 1) (g + 1) := by
  unfold withSign
  split
  · exact ⟨Nat.succ_le_succ hf.depth_le, Nat.succ_le_succ hf.height_le,
      Nat.succ_le_succ hf.signs_le⟩
  · exact hf.mono (Nat.le_succ d) (Nat.le_succ h) (Nat.le_succ g)

/-! ## 2. Primaries -/

/-- What a primary is made of: it is a leaf, or what stands inside was read as a sum. -/
inductive Made (read : List Token → Parsed) : Formula → Prop where
  | integer {value : Int} {span : Span} : Made read (.integer value span)
  | float {value : Float} {span : Span} : Made read (.float value span)
  | symbol {name : String} {span : Span} : Made read (.symbol name span)
  | call {name : String} {args : List Formula} {span : Span}
      (h : ∀ arg ∈ args, ∃ ts rest, read ts = .ok (arg, rest)) : Made read (.call name args span)
  | group {inner : Formula} {span : Span} (h : ∃ ts rest, read ts = .ok (inner, rest)) :
      Made read (.group inner span)

theorem argumentsFrom_made {read : List Token → Parsed} {steps : Nat} {args : List Formula}
    {close : Token} (h : argumentsFrom stop read steps ts = .ok ((args, close), rest)) :
    ∀ arg ∈ args, ∃ ts rest, read ts = .ok (arg, rest) := by
  induction steps generalizing ts args with
  | zero => cases h
  | succ steps ih =>
    obtain ⟨⟨first, ts₁⟩, h₁, hthen⟩ := bind_ok_iff.mp h
    dsimp only at hthen
    split at hthen
    · obtain ⟨⟨⟨others, close'⟩, ts₂⟩, h₂, hlast⟩ := bind_ok_iff.mp hthen
      cases hlast
      intro arg harg
      rcases List.mem_cons.mp harg with rfl | harg
      · exact ⟨ts, ts₁, h₁⟩
      · exact ih h₂ arg harg
    · obtain ⟨⟨close', ts₂⟩, h₂, hlast⟩ := bind_ok_iff.mp hthen
      cases hlast
      intro arg harg
      rw [List.mem_singleton.mp harg]
      exact ⟨ts, ts₁, h₁⟩

theorem primary_made {read : List Token → Parsed} (h : primary stop read ts = .ok (f, rest)) :
    Made read f := by
  unfold primary at h
  dsimp only at h
  split at h
  · cases h
    exact .integer
  · cases h
    exact .float
  · split at h
    · obtain ⟨⟨⟨args, close⟩, ts₁⟩, h₁, hlast⟩ := bind_ok_iff.mp h
      cases hlast
      unfold arguments at h₁
      dsimp only at h₁
      split at h₁
      · cases h₁
        exact .call fun arg harg => absurd harg List.not_mem_nil
      · exact .call (argumentsFrom_made h₁)
    · cases h
      exact .symbol
  · obtain ⟨⟨inner, ts₁⟩, h₁, hthen⟩ := bind_ok_iff.mp h
    obtain ⟨⟨close, ts₂⟩, h₂, hlast⟩ := bind_ok_iff.mp hthen
    cases hlast
    exact .group ⟨_, ts₁, h₁⟩
  · cases h

theorem heightAll_le {fs : List Formula} (hfs : ∀ f ∈ fs, f.Within d h g) :
    depthAll fs ≤ d ∧ heightAll fs ≤ h ∧ signsAll fs ≤ g := by
  induction fs with
  | nil => exact ⟨Nat.zero_le d, Nat.zero_le h, Nat.zero_le g⟩
  | cons f fs ih =>
    obtain ⟨hd, hh, hg⟩ := hfs f List.mem_cons_self
    obtain ⟨hds, hhs, hgs⟩ := ih fun f' hf' => hfs f' (List.mem_cons_of_mem f hf')
    exact ⟨Nat.max_le.mpr ⟨hd, hds⟩, Nat.max_le.mpr ⟨hh, hhs⟩, Nat.max_le.mpr ⟨hg, hgs⟩⟩

/-- A primary is one level above what stands inside, and has no sign of its own. -/
theorem Made.within {read : List Token → Parsed} (hf : Made read f)
    (hread : ∀ {ts rest : List Token} {f' : Formula}, read ts = .ok (f', rest) →
      f'.Within d h g) : f.Within (d + 1) (h + 1) g := by
  cases hf with
  | integer | float | symbol => exact ⟨Nat.le_add_left 1 d, Nat.le_add_left 1 h, Nat.zero_le g⟩
  | call hargs =>
    obtain ⟨hd, hh, hg⟩ := heightAll_le fun arg harg =>
      let ⟨ts, rest, harg⟩ := hargs arg harg
      hread harg
    exact ⟨Nat.succ_le_succ hd, Nat.succ_le_succ hh, hg⟩
  | group hinner =>
    obtain ⟨ts, rest, hinner⟩ := hinner
    obtain ⟨hd, hh, hg⟩ := hread hinner
    exact ⟨Nat.succ_le_succ hd, Nat.succ_le_succ hh, hg⟩

/-! ## 3. Operators -/

/-- The operators of a level were taken, or none of them comes next. -/
theorem takeLevel_ok {extend : Nat → Formula → List Token → Parsed} {level : Nat}
    (h : takeLevel extend level right ts = .ok (f, rest)) :
    (f = right ∧ rest = ts ∧
      ∀ next more, nextOperator? ts = some (next, more) → next.precedence ≠ level) ∨
      extend level right ts = .ok (f, rest) := by
  unfold takeLevel at h
  split at h
  · rename_i hnone
    cases h
    refine .inl ⟨rfl, rfl, fun next more hn => ?_⟩
    rw [hnone] at hn
    cases hn
  · rename_i next more hsome
    split at h
    · exact .inr h
    · rename_i hlevel
      cases h
      refine .inl ⟨rfl, rfl, fun next' more' hn => ?_⟩
      rw [hsome] at hn
      cases hn
      exact hlevel

/-- The bounds for an operand. -/
def OperandWithin (stop : Token) (room : Nat) : Prop :=
  ∀ {ts rest : List Token} {f : Formula}, operand stop room ts = .ok (f, rest) →
    f.Within (room + 1) (reach room) (room - 1)

/-- The bounds for the loop over operators. A power takes the powers behind it into its right
    operand, so of powers the loop meets only one. -/
structure StepsWithin (stop : Token) (room : Nat) : Prop where
  chain : ∀ {least : Nat} {left f : Formula} {ts rest : List Token},
    steps stop room least left ts = .ok (f, rest) →
      f.Within (max left.depth (room + 1)) (max left.height (reach room) + room)
        (max left.signs (room - 1))
  power : ∀ {left f : Formula} {ts rest : List Token}, steps stop room 4 left ts = .ok (f, rest) →
    f.height ≤ max left.height (reach room) + 1

theorem reach_le_succ (room : Nat) : reach room ≤ reach (room + 1) := by
  rw [reach]
  omega

/-- Powers behind an operand. -/
theorem takePowers_within (hless : ∀ r < room, StepsWithin stop r)
    (hright : right.Within (room + 1) (reach room) (room - 1))
    (h : takeLevel (fun level f ts => extend stop room level f ts) 4 right ts = .ok (f, rest)) :
    f.Within (room + 1) (reach room + min room 1) (room - 1) ∧ Stops 4 rest := by
  rcases takeLevel_ok h with ⟨rfl, rfl, hnot⟩ | hext
  · refine ⟨hright.mono (Nat.le_refl _) (Nat.le_add_right _ _) (Nat.le_refl _),
      fun next more hn => ?_⟩
    exact Nat.lt_of_le_of_ne (precedence_le_four next) (hnot next more hn)
  · obtain ⟨r, rfl, hsteps⟩ := extend_ok hext
    have hs := hless r (Nat.lt_succ_self r)
    obtain ⟨hdepth, -, hsigns⟩ := hs.chain hsteps
    have hheight := hs.power hsteps
    have hmono := reach_le_succ r
    obtain ⟨hd, hh, hg⟩ := hright
    exact ⟨⟨by omega, by omega, by omega⟩, steps_stops hsteps⟩

/-- A right operand. -/
theorem tighten_within (hless : ∀ r < room, StepsWithin stop r) {op : BinaryOp}
    (hright : right.Within (room + 1) (reach room) (room - 1))
    (h : tighten (fun level f ts => extend stop room level f ts) op levels right ts =
      .ok (f, rest)) : f.Within (room + 1) (reach room + room) (room - 1) := by
  by_cases hop : 2 ≤ op.precedence
  · rw [tighten_of_tight hop] at h
    exact (takePowers_within hless hright h).1.mono (Nat.le_refl _) (by omega) (Nat.le_refl _)
  · have hone : op.precedence = 1 := by
      have := precedence_pos op
      omega
    rw [tighten_of_loose hone] at h
    obtain ⟨⟨right', ts₁⟩, h₁, h₂⟩ := bind_ok_iff.mp h
    have hright' := (takePowers_within hless hright h₁).1
    rcases takeLevel_ok h₂ with ⟨rfl, -, -⟩ | hext
    · exact hright'.mono (Nat.le_refl _) (by omega) (Nat.le_refl _)
    · obtain ⟨r, rfl, hsteps⟩ := extend_ok hext
      have hbound := (hless r (Nat.lt_succ_self r)).chain hsteps
      have hmono := reach_le_succ r
      obtain ⟨hd, hh, hg⟩ := hright'
      exact hbound.mono (by omega) (by omega) (by omega)

/-- **The loop keeps the bounds**, given that operands and loops with less room do. -/
theorem steps_within (hless : ∀ r < room, OperandWithin stop r ∧ StepsWithin stop r) :
    StepsWithin stop room := by
  refine ⟨fun {least left f ts rest} h => ?_, fun {left f ts rest} h => ?_⟩
  · rcases steps_ok_cases h with ⟨-, rfl, -⟩ |
      ⟨r, t, op, more, right, ts₁, right', ts₂, rfl, -, -, -, h₁, h₂, h₃⟩
    · exact ⟨by omega, by omega, by omega⟩
    · obtain ⟨ho, hs⟩ := hless r (Nat.lt_succ_self r)
      have hright := tighten_within (fun r' hr' => (hless r' (by omega)).2) (ho h₁) h₂
      have hleft : left.Within left.depth left.height left.signs :=
        ⟨Nat.le_refl _, Nat.le_refl _, Nat.le_refl _⟩
      obtain ⟨hd, hh, hg⟩ := hleft.combine op hright
      have hreach : reach (r + 1) = reach r + r + 1 := rfl
      exact (hs.chain h₃).mono (by omega) (by omega) (by omega)
  · rcases steps_ok_cases h with ⟨-, rfl, -⟩ |
      ⟨r, t, op, more, right, ts₁, right', ts₂, rfl, -, -, hle, h₁, h₂, h₃⟩
    · omega
    · obtain ⟨ho, hs⟩ := hless r (Nat.lt_succ_self r)
      rw [tighten_of_tight (by omega)] at h₂
      obtain ⟨hright, hstops⟩ :=
        takePowers_within (fun r' hr' => (hless r' (by omega)).2) (ho h₁) h₂
      -- the powers that follow are in the right operand, so the loop ends here
      rw [steps_of_stops hstops] at h₃
      cases h₃
      have hh := hright.height_le
      have hreach : reach (r + 1) = reach r + r + 1 := rfl
      show max left.height right'.height + 1 ≤ _
      omega

/-! ## 4. The whole parser -/

theorem start_within (ho : OperandWithin stop room) (hs : StepsWithin stop room)
    (h : start stop room room 0 ts = .ok (f, rest)) :
    f.Within (room + 1) (reach room + room) (room - 1) := by
  obtain ⟨⟨first, ts₁⟩, h₁, h₂⟩ := bind_ok_iff.mp h
  obtain ⟨hd, hh, hg⟩ := ho h₁
  exact (hs.chain h₂).mono (by omega) (by omega) (by omega)

/-- **An operand keeps the bounds**, given that operands and loops with less room do. -/
theorem operand_within (hless : ∀ r < room, OperandWithin stop r ∧ StepsWithin stop r) :
    OperandWithin stop room := by
  intro ts rest f h
  cases room with
  | zero =>
    unfold operand at h
    split at h
    · cases h
    · have hmade := primary_made h
      exact hmade.within (d := 0) (h := 0) (g := 0) fun hread => nomatch hread
  | succ r =>
    obtain ⟨ho, hs⟩ := hless r (Nat.lt_succ_self r)
    unfold operand at h
    split at h
    · rename_i sign more hsign
      obtain ⟨⟨inner, ts₁⟩, h₁, hthen⟩ := bind_ok_iff.mp h
      obtain ⟨⟨inner', ts₂⟩, h₂, hlast⟩ := bind_ok_iff.mp hthen
      cases hlast
      obtain ⟨r', rfl, hsteps⟩ := extend_ok h₂
      have hs' := (hless r' (by omega)).2
      obtain ⟨hd, hh, hg⟩ := ho h₁
      obtain ⟨hdepth, -, hsigns⟩ := hs'.chain hsteps
      have hheight := hs'.power hsteps
      have hreach : reach (r' + 1 + 1) = reach (r' + 1) + (r' + 1) + 1 := rfl
      have hmono := reach_le_succ r'
      have hbound : inner'.Within (r' + 1 + 1) (reach (r' + 1) + 1) r' :=
        ⟨by omega, by omega, by omega⟩
      exact (withSign_within sign hbound).mono (Nat.le_refl _) (by omega) (Nat.le_refl _)
    · have hmade := (primary_made h).within fun hread => start_within ho hs hread
      exact hmade.mono (Nat.le_refl _) (Nat.le_refl _) (Nat.sub_le r 1)

/-- **Whatever room there is, the bounds hold.** -/
theorem parser_within (stop : Token) (room : Nat) :
    OperandWithin stop room ∧ StepsWithin stop room := by
  induction room using Nat.strongRecOn with
  | ind room ih => exact ⟨operand_within ih, steps_within ih⟩

end Formula

end FormulaGraph
