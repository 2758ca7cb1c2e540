/-
  File:      FormulaGraph/Proofs/Grammar/Limit.lean
  Subject:   When the limit on nesting bounds the height of a formula.

  The height of what was read can exceed the limit, as left operands give their levels back. It does
  not where every left operand is low, and it does not in a text of few tokens: a level takes two of
  them, unless it is a sign, and the limit bounds the signs on a way.

  * `Formula.leansRight`, `Formula.parser_leans` -- the formulas whose left operands are low;
  * `Formula.Takes`, `Grammar.Sum.takes` -- the tokens that a height takes;
  * `Formula.height_parse` -- the bounds for texts;
  * `Formula.height_exceeds_depthLimit` -- a text with one token more, read as a formula too high.
-/
import FormulaGraph.Proofs.Grammar.Height

namespace FormulaGraph

namespace Formula

/-! ## 1. Formulas that lean to the right -/

/-- The number of sums and products that follow each other at the left edge. -/
def chainLength : Formula → Nat
  | binary op left _ _ => if op = .power then 0 else left.chainLength + 1
  | _ => 0

mutual
/-- At every operator the left operand is no higher than the right one, or than a chain of its
    length that holds only leaves. -/
def leansRight : Formula → Bool
  | integer .. => true
  | float .. => true
  | symbol .. => true
  | binary _ left right _ =>
    decide (left.height ≤ max right.height (left.chainLength + 1)) &&
      (left.leansRight && right.leansRight)
  | negative operand _ => operand.leansRight
  | call _ arguments _ => allLeanRight arguments
  | group inner _ => inner.leansRight

def allLeanRight : List Formula → Bool
  | [] => true
  | f :: fs => f.leansRight && allLeanRight fs
end

variable {stop : Token} {ts rest : List Token} {f left right : Formula} {room least h : Nat}

/-- The bound for an operand that leans to the right; it is no chain. -/
def OperandLeans (stop : Token) (room : Nat) : Prop :=
  ∀ {ts rest : List Token} {f : Formula}, operand stop room ts = .ok (f, rest) →
    f.chainLength = 0 ∧ (f.leansRight = true → f.height ≤ room + 1)

/-- The bound for the loop over operators. A chain may be as long as its room, so what counts is its
    length and the room together. -/
def StepsLean (stop : Token) (room : Nat) : Prop :=
  ∀ (bound : Nat) {least : Nat} {left f : Formula} {ts rest : List Token},
    steps stop room least left ts = .ok (f, rest) → left.chainLength + room ≤ bound →
      f.leansRight = true →
        left.leansRight = true ∧ (left.height ≤ bound + 1 → f.height ≤ bound + 1)

theorem heightAll_le_of_lean {fs : List Formula} (hall : allLeanRight fs = true)
    (hfs : ∀ f ∈ fs, f.leansRight = true → f.height ≤ h) : heightAll fs ≤ h := by
  induction fs with
  | nil => exact Nat.zero_le h
  | cons f fs ih =>
    obtain ⟨hf, hrest⟩ := Bool.and_eq_true_iff.mp hall
    exact Nat.max_le.mpr ⟨hfs f List.mem_cons_self hf,
      ih hrest fun g hg => hfs g (List.mem_cons_of_mem f hg)⟩

theorem Made.leans {read : List Token → Parsed} (hf : Made read f)
    (hread : ∀ {ts rest : List Token} {g : Formula}, read ts = .ok (g, rest) →
      g.leansRight = true → g.height ≤ h) :
    f.chainLength = 0 ∧ (f.leansRight = true → f.height ≤ h + 1) := by
  cases hf with
  | integer | float | symbol => exact ⟨rfl, fun _ => Nat.le_add_left 1 h⟩
  | call hargs =>
    refine ⟨rfl, fun hlean => Nat.succ_le_succ (heightAll_le_of_lean hlean fun arg harg => ?_)⟩
    obtain ⟨ts, rest, hok⟩ := hargs arg harg
    exact hread hok
  | group hinner =>
    obtain ⟨ts, rest, hok⟩ := hinner
    exact ⟨rfl, fun hlean => Nat.succ_le_succ (hread hok hlean)⟩

/-- Powers make no chain longer. -/
theorem steps_power_chainLength (hs : steps stop room 4 left ts = .ok (f, rest))
    (hleft : left.chainLength = 0) : f.chainLength = 0 := by
  induction room generalizing left ts with
  | zero =>
    rcases steps_ok_cases hs with ⟨-, rfl, -⟩ | ⟨r, t, op, more, right, ts₁, right', ts₂, hr, -⟩
    · exact hleft
    · cases hr
  | succ room ih =>
    rcases steps_ok_cases hs with ⟨-, rfl, -⟩ |
      ⟨r, t, op, more, right, ts₁, right', ts₂, hr, -, -, hle, -, -, h₃⟩
    · exact hleft
    · cases hr
      refine ih h₃ ?_
      cases op with
      | power => rfl
      | _ => exact absurd hle (by decide)

/-- Operators behind an operand, one level deeper. -/
theorem extend_leans (hless : ∀ r < room, StepsLean stop r) (hchain : left.chainLength = 0)
    (hleft : left.leansRight = true → left.height ≤ room + 1)
    (h : extend stop room least left ts = .ok (f, rest)) (hf : f.leansRight = true) :
    f.height ≤ room + 1 := by
  obtain ⟨r, rfl, hsteps⟩ := extend_ok h
  obtain ⟨hlean, hbound⟩ := hless r (Nat.lt_succ_self r) (r + 1) hsteps (by omega) hf
  exact hbound (hleft hlean)

/-- A right operand that leans to the right. -/
theorem tighten_leans (hless : ∀ r < room, StepsLean stop r) {op : BinaryOp}
    (hchain : right.chainLength = 0) (hright : right.leansRight = true → right.height ≤ room + 1)
    (h : tighten (fun level f ts => extend stop room level f ts) op levels right ts =
      .ok (f, rest)) (hf : f.leansRight = true) : f.height ≤ room + 1 := by
  by_cases hop : 2 ≤ op.precedence
  · rw [tighten_of_tight hop] at h
    rcases takeLevel_ok h with ⟨rfl, -, -⟩ | hext
    · exact hright hf
    · exact extend_leans hless hchain hright hext hf
  · have hone : op.precedence = 1 := by
      have := precedence_pos op
      omega
    rw [tighten_of_loose hone] at h
    obtain ⟨⟨right', ts₁⟩, h₁, h₂⟩ := bind_ok_iff.mp h
    have hright' :
        right'.chainLength = 0 ∧ (right'.leansRight = true → right'.height ≤ room + 1) := by
      rcases takeLevel_ok h₁ with ⟨rfl, -, -⟩ | hext
      · exact ⟨hchain, hright⟩
      · obtain ⟨r, -, hsteps⟩ := extend_ok hext
        exact ⟨steps_power_chainLength hsteps hchain, extend_leans hless hchain hright hext⟩
    rcases takeLevel_ok h₂ with ⟨rfl, -, -⟩ | hext
    · exact hright'.2 hf
    · exact extend_leans hless hright'.1 hright'.2 hext hf

theorem chainLength_combine (op : BinaryOp) (left right : Formula) :
    (combine op left right).chainLength ≤ left.chainLength + 1 := by
  show (if op = .power then 0 else left.chainLength + 1) ≤ _
  split <;> omega

/-- **The loop keeps the bound**, given that operands and loops with less room do. -/
theorem steps_lean (hless : ∀ r < room, OperandLeans stop r ∧ StepsLean stop r) :
    StepsLean stop room := by
  intro bound least left f ts rest h hroom hf
  rcases steps_ok_cases h with ⟨-, rfl, -⟩ |
    ⟨r, t, op, more, right, ts₁, right', ts₂, rfl, -, -, -, h₁, h₂, h₃⟩
  · exact ⟨hf, id⟩
  · obtain ⟨ho, hs⟩ := hless r (Nat.lt_succ_self r)
    have hchain := chainLength_combine op left right'
    obtain ⟨hcombine, hbound⟩ := hs bound h₃ (by omega) hf
    obtain ⟨hlocal, hsub⟩ := Bool.and_eq_true_iff.mp hcombine
    obtain ⟨hleft, hright'⟩ := Bool.and_eq_true_iff.mp hsub
    obtain ⟨hzero, hright⟩ := ho h₁
    have hheight := tighten_leans (fun r' hr' => (hless r' (by omega)).2) hzero hright h₂ hright'
    have hlocal := of_decide_eq_true hlocal
    refine ⟨hleft, fun _ => hbound ?_⟩
    show max left.height right'.height + 1 ≤ bound + 1
    omega

theorem start_leans (ho : OperandLeans stop room) (hs : StepsLean stop room)
    (h : start stop room room 0 ts = .ok (f, rest)) (hf : f.leansRight = true) :
    f.height ≤ room + 1 := by
  obtain ⟨⟨first, ts₁⟩, h₁, h₂⟩ := bind_ok_iff.mp h
  obtain ⟨hzero, hfirst⟩ := ho h₁
  obtain ⟨hlean, hbound⟩ := hs room h₂ (by omega) hf
  exact hbound (hfirst hlean)

/-- **An operand keeps the bound**, given that operands and loops with less room do. -/
theorem operand_leans (hless : ∀ r < room, OperandLeans stop r ∧ StepsLean stop r) :
    OperandLeans stop room := by
  intro ts rest f h
  cases room with
  | zero =>
    unfold operand at h
    split at h
    · cases h
    · exact (primary_made h).leans fun hread => nomatch hread
  | succ r =>
    obtain ⟨ho, hs⟩ := hless r (Nat.lt_succ_self r)
    unfold operand at h
    split at h
    · rename_i sign more hsign
      obtain ⟨⟨inner, ts₁⟩, h₁, hthen⟩ := bind_ok_iff.mp h
      obtain ⟨⟨inner', ts₂⟩, h₂, hlast⟩ := bind_ok_iff.mp hthen
      cases hlast
      obtain ⟨hzero, hinner⟩ := ho h₁
      have hbound := extend_leans (fun r' hr' => (hless r' (by omega)).2) hzero hinner h₂
      unfold withSign
      split
      · exact ⟨rfl, fun hf => Nat.succ_le_succ (hbound hf)⟩
      · obtain ⟨r', -, hsteps⟩ := extend_ok h₂
        exact ⟨steps_power_chainLength hsteps hzero, fun hf => Nat.le_succ_of_le (hbound hf)⟩
    · exact (primary_made h).leans fun hread => start_leans ho hs hread

/-- **Whatever room there is, what leans to the right is no higher than the room.** -/
theorem parser_leans (stop : Token) (room : Nat) :
    OperandLeans stop room ∧ StepsLean stop room := by
  induction room using Nat.strongRecOn with
  | ind room ih => exact ⟨operand_leans ih, steps_lean ih⟩

/-! ## 2. The tokens that a height takes -/

/-- What is read as this shape from `n` tokens is no higher than they allow: a level takes two of
    them, and a sign one. -/
def Takes (n : Nat) (s : Shape) : Prop :=
  ∀ f : Formula, f.shape = s → 2 * f.height ≤ n + f.signs + 1

def TakesAll (n : Nat) (ss : List Shape) : Prop :=
  ∀ fs : List Formula, shapeAll fs = ss → 2 * heightAll fs ≤ n + signsAll fs + 1

variable {m n : Nat} {s s' : Shape} {ss : List Shape}

theorem Takes.mono (hs : Takes m s) (hmn : m ≤ n) : Takes n s := by
  intro f hf
  have := hs f hf
  omega

/-- An operator takes two tokens beside the higher operand: its own, and one of the other
    operand. -/
theorem Takes.binary (op : BinaryOp) (hs : Takes m s) (hs' : Takes n s') (hm : 0 < m) (hn : 0 < n) :
    Takes (m + (n + 1)) (.binary op s s') := by
  intro f hf
  cases f with
  | binary op' left right span =>
    cases hf
    have hleft := hs left rfl
    have hright := hs' right rfl
    show 2 * (max left.height right.height + 1) ≤ m + (n + 1) + max left.signs right.signs + 1
    omega
  | _ => cases hf

theorem Takes.negative (hs : Takes n s) : Takes (n + 1) (.negative s) := by
  intro f hf
  cases f with
  | negative operand span =>
    cases hf
    have hoperand := hs operand rfl
    show 2 * (operand.height + 1) ≤ n + 1 + (operand.signs + 1) + 1
    omega
  | _ => cases hf

theorem TakesAll.call (name : String) (hss : TakesAll n ss) : Takes (n + 3) (.call name ss) := by
  intro f hf
  cases f with
  | call name' args span =>
    cases hf
    have hargs := hss args rfl
    show 2 * (heightAll args + 1) ≤ n + 3 + signsAll args + 1
    omega
  | _ => cases hf

theorem Takes.group (hs : Takes n s) : Takes (n + 2) (.group s) := by
  intro f hf
  cases f with
  | group inner span =>
    cases hf
    have hinner := hs inner rfl
    show 2 * (inner.height + 1) ≤ n + 2 + inner.signs + 1
    omega
  | _ => cases hf

theorem takesAll_nil : TakesAll 0 [] := by
  intro fs hfs
  cases fs with
  | nil => exact Nat.zero_le 1
  | cons f fs => cases hfs

theorem Takes.cons {k : Nat} (hs : Takes m s) (hss : TakesAll n ss) (hm : m ≤ k) (hn : n ≤ k) :
    TakesAll k (s :: ss) := by
  intro fs hfs
  cases fs with
  | nil => cases hfs
  | cons f fs =>
    cases hfs
    have hf := hs f rfl
    have hfs := hss fs rfl
    show 2 * max f.height (heightAll fs) ≤ k + max f.signs (signsAll fs) + 1
    omega

end Formula

namespace Grammar

open Formula

theorem Sentence.length_pos {ts : List Token} (h : Sentence ts) : 0 < ts.length :=
  List.length_pos_iff.mpr h.ne_nil

-- one case for each rule of the grammar
mutual
/-- **What derives from some tokens is no higher than they allow.** -/
theorem Sum.takes : ∀ {ts : List Token} {s : Shape}, Sum ts s → Takes ts.length s
  | _, _, .term h => h.takes
  | _, _, .step h _ hr => by
    rw [List.length_append]
    exact h.takes.binary _ hr.takes h.sentence.length_pos hr.sentence.length_pos

theorem Term.takes : ∀ {ts : List Token} {s : Shape}, Term ts s → Takes ts.length s
  | _, _, .factor h => h.takes
  | _, _, .step h _ hr => by
    rw [List.length_append]
    exact h.takes.binary _ hr.takes h.sentence.length_pos hr.sentence.length_pos

theorem Factor.takes : ∀ {ts : List Token} {s : Shape}, Factor ts s → Takes ts.length s
  | _, _, .minus _ h => h.takes.negative
  | _, _, .plus _ h => h.takes.mono (Nat.le_succ _)
  | _, _, .power h => h.takes

theorem Power.takes : ∀ {ts : List Token} {s : Shape}, Power ts s → Takes ts.length s
  | _, _, .primary h => h.takes
  | _, _, .step h _ hr => by
    rw [List.length_append]
    exact h.takes.binary _ hr.takes h.sentence.length_pos hr.sentence.length_pos

theorem Primary.takes : ∀ {ts : List Token} {s : Shape}, Primary ts s → Takes ts.length s
  | _, _, .integer _ | _, _, .float _ | _, _, .symbol _ => by
    intro f hf
    cases f with
    | integer | float | symbol => exact Nat.le_refl 2
    | _ => cases hf
  | _, _, .emptyCall _ _ _ => takesAll_nil.call _
  | _, _, .call _ _ h _ => by
    rw [List.length_cons, List.length_cons, List.length_append]
    exact h.takesAll.call _
  | _, _, .group _ h _ => by
    rw [List.length_cons, List.length_append]
    exact h.takes.group

theorem Arguments.takesAll : ∀ {ts : List Token} {ss : List Shape}, Arguments ts ss →
    TakesAll ts.length ss
  | _, _, .one h => h.takes.cons takesAll_nil (Nat.le_refl _) (Nat.zero_le _)
  | _, _, .more h _ hr => by
    rw [List.length_append, List.length_cons]
    exact h.takes.cons hr.takesAll (by omega) (by omega)
end

end Grammar

namespace Formula

/-! ## 3. Texts -/

/-- **How high a formula is that was read.** It is no higher than `depthLimit` if it leans to the
    right, or if the text has at most two tokens more than that. In any formula at most `depthLimit`
    nodes of a way count, where going to a left operand counts nothing, and the height is bounded by
    a square. -/
theorem height_parse {cs : List Char} {f : Formula} (h : parse cs = .ok f) :
    (f.leansRight = true ∨ (Grammar.tokens cs).length ≤ depthLimit + 2 → f.height ≤ depthLimit) ∧
      f.depth ≤ depthLimit ∧ f.height ≤ depthLimit * (depthLimit + 1) / 2 := by
  have hderived : Grammar.Sum (Grammar.tokens cs) f.shape := ofTokens_sound rfl h
  have htakes := hderived.takes f rfl
  -- one level is taken by the whole
  obtain ⟨room, hpos, hroom⟩ : ∃ room, 0 < room ∧ depthLimit = room + 1 := ⟨255, by decide, rfl⟩
  have hsum := ofTokens_ok h
  rw [hroom] at hsum ⊢
  obtain ⟨ho, hs⟩ := parser_within (Token.stopAt (Text.byteSize cs)) room
  obtain ⟨hdepth, hheight, hsigns⟩ := start_within ho hs hsum
  rw [reach_add] at hheight
  refine ⟨fun hlow => ?_, hdepth, hheight⟩
  rcases hlow with hlean | hfew
  · obtain ⟨ho', hs'⟩ := parser_leans (Token.stopAt (Text.byteSize cs)) room
    exact start_leans ho' hs' hsum hlean
  · omega

/-- What is computed from a text that was read. -/
theorem exists_of_toOption {β : Type} {cs : List Char} {g : Formula → β} {b : β}
    (h : (parse cs).toOption.map g = some b) : ∃ f, parse cs = .ok f ∧ g f = b := by
  generalize parse cs = result at h ⊢
  cases result with
  | error e => cases h
  | ok f => exact ⟨f, rfl, Option.some.inj h⟩

/-- A sum of 256 words leans to the right, and is as high as such a formula can be. -/
theorem height_parse_sum :
    ∃ f, parse ('x' :: (List.replicate 255 ['+', 'x']).flatten) = .ok f ∧
      f.leansRight = true ∧ depthLimit ≤ f.height ∧ f.height ≤ depthLimit ∧
        f.depth ≤ depthLimit := by
  have hread : (parse ('x' :: (List.replicate 255 ['+', 'x']).flatten)).toOption.map
      (fun f => (f.leansRight, decide (depthLimit ≤ f.height))) = some (true, true) := by
    decide +kernel
  obtain ⟨f, hf, hg⟩ := exists_of_toOption hread
  obtain ⟨hlean, hheight⟩ := Prod.mk.inj hg
  obtain ⟨hle, hdepth, -⟩ := height_parse hf
  exact ⟨f, hf, hlean, of_decide_eq_true hheight, hle (.inl hlean), hdepth⟩

/-- Signs and a chain of two summands: the chain begins where the signs' levels are free again, and
    the formula is one node higher than `depthLimit`. -/
theorem height_exceeds_depthLimit :
    ∃ f, parse (List.replicate 254 '-' ++ ['x', '+', 'x', '+', 'x']) = .ok f ∧
      f.height = depthLimit + 1 := by
  have hread : (parse (List.replicate 254 '-' ++ ['x', '+', 'x', '+', 'x'])).toOption.map height =
      some (depthLimit + 1) := by
    decide +kernel
  exact exists_of_toOption hread

end Formula

end FormulaGraph
