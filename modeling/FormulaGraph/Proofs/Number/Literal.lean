/-
  File:      FormulaGraph/Proofs/Number/Literal.lean
  Subject:   The literal of a number, and the number of a literal.

  A literal of a number stands for that number if the number is one that can be written down again:
  a double, an integer, or a fraction that fits 64 bits. Those are the numbers that arithmetic
  gives.

  * `Number.Settled` -- such a number; `quotient?_settled`, `add_settled`, `mul_settled`,
    `pow?_settled`, `modulo?_settled` -- the arithmetic;
  * `Literal.toNumber?_ofNumber` -- the literal of a settled number stands for it;
  * `Literal.IsNormal` -- no other literal would write the same number.
-/
import FormulaGraph.Literal
import FormulaGraph.Proofs.Number.Arithmetic

namespace FormulaGraph

/-! ## 1. Numbers that can be written down -/

namespace Number

/-- A double, or a fraction in lowest terms that is an integer or fits. -/
inductive Settled : Number → Prop where
  | float (value : Scalar) : Settled (.float value)
  | exact (q : ℚ) (h : q.den = 1 ∨ Fits q) : Settled (.exact q)

theorem settled_ofInt (n : Int) : Settled (ofInt n) := by
  rw [← exact_intCast]
  exact .exact n (.inl (Rat.den_intCast n))

theorem WellFormed.settled {x : Number} (h : x.WellFormed) : Settled x := by
  cases x with
  | rational n d =>
    obtain ⟨he, hf⟩ := h.eq_exact
    rw [he]
    exact .exact _ (.inr hf)
  | float value => exact .float value

theorem quotient?_settled {n d : Int} {x : Number} (h : quotient? n d = some x) : Settled x :=
  (quotient?_wellFormed h).settled

theorem getD_settled {x? : Option Number} {y : Number} (h : ∀ x, x? = some x → Settled x)
    (hy : Settled y) : Settled (x?.getD y) := by
  cases hx : x? with
  | none => exact hy
  | some x => exact h x hx

theorem add_settled (x y : Number) : Settled (x.add y) := (add_wellFormed x y).settled

theorem mul_settled (x y : Number) : Settled (x.mul y) := (mul_wellFormed x y).settled

theorem pow?_settled {x y z : Number} (h : x.pow? y = .ok (some z)) : Settled z :=
  (pow?_wellFormed h).settled

theorem modulo?_settled {x y z : Number} (h : x.modulo? y = some z) : Settled z :=
  (modulo?_wellFormed h).settled

end Number

/-! ## 2. Writing a number down -/

namespace Literal

/-- The literal of a fraction: one of its own for some numbers, an integer, or the fraction. -/
theorem ofNumber_cases (q : ℚ) :
    q = 0 ∧ ofNumber (.exact q) = zero ∨ q = 1 ∧ ofNumber (.exact q) = one ∨
      q = -1 ∧ ofNumber (.exact q) = negativeOne ∨ q = 1 / 2 ∧ ofNumber (.exact q) = half ∨
      (∃ n : Int, q = n ∧ ofNumber (.exact q) = integer n) ∨
      q.den ≠ 1 ∧ ofNumber (.exact q) = rational q.num q.den := by
  have hq : (q.num : ℚ) / (q.den : Int) = q := Rat.num_div_den q
  unfold Number.exact ofNumber
  simp only
  split_ifs with h₀ h₁ h₂ h₃ h₄
  · exact .inl ⟨Rat.num_eq_zero.mp h₀, rfl⟩
  · refine .inr (.inl ⟨?_, rfl⟩)
    rw [← hq, h₁.1, h₁.2]
    norm_num
  · refine .inr (.inr (.inl ⟨?_, rfl⟩))
    rw [← hq, h₂.1, h₂.2]
    norm_num
  · refine .inr (.inr (.inr (.inl ⟨?_, rfl⟩)))
    rw [← hq, h₃.1, h₃.2]
    norm_num
  · refine .inr (.inr (.inr (.inr (.inl ⟨q.num, ?_, rfl⟩))))
    conv_lhs => rw [← hq, h₄]
    norm_num
  · exact .inr (.inr (.inr (.inr (.inr ⟨fun hd => h₄ (congrArg Nat.cast hd), rfl⟩))))

/-- **The literal of a settled number stands for that number.** -/
theorem toNumber?_ofNumber {x : Number} (h : x.Settled) : (ofNumber x).toNumber? = some x := by
  cases h with
  | float value => rfl
  | exact q h =>
    rcases ofNumber_cases q with
      ⟨rfl, hl⟩ | ⟨rfl, hl⟩ | ⟨rfl, hl⟩ | ⟨rfl, hl⟩ | ⟨n, rfl, hl⟩ | ⟨hd, hl⟩
    · rfl
    · rfl
    · rfl
    · rw [hl]
      decide +kernel
    · rw [hl]
      rfl
    · rw [hl]
      show Number.quotient? q.num q.den = _
      rw [Number.quotient?_eq (Number.den_ne_zero q), Int.cast_natCast, Rat.num_div_den,
        Number.ofRat_of_fits (h.resolve_left hd)]

/-- What a literal stands for can be written down again. -/
theorem toNumber?_settled {l : Literal} {x : Number} (h : l.toNumber? = some x) : x.Settled := by
  unfold toNumber? at h
  split at h
  · cases h
    exact Number.settled_ofInt _
  · exact Number.quotient?_settled h
  · cases h
    exact .float _
  · cases h
    exact Number.settled_ofInt 0
  · cases h
    exact Number.settled_ofInt 1
  · cases h
    exact Number.settled_ofInt (-1)
  · exact Number.quotient?_settled (n := 1) (d := 2) (h ▸ by decide +kernel)
  · cases h
  · cases h
  · cases h

/-- Integers and fractions that have no literal of their own; fractions are no integers and are in
    lowest terms. -/
def IsNormal : Literal → Prop
  | integer value => value ≠ 0 ∧ value ≠ 1 ∧ value ≠ -1
  | rational numer denom => 1 < denom ∧ Int.gcd numer denom = 1 ∧ ¬ (numer = 1 ∧ denom = 2)
  | _ => True

theorem isNormal_ofNumber {x : Number} (h : x.Settled) : (ofNumber x).IsNormal := by
  cases h with
  | float value => trivial
  | exact q h =>
    unfold Number.exact ofNumber
    simp only
    split_ifs with h₀ h₁ h₂ h₃ h₄
    · trivial
    · trivial
    · trivial
    · trivial
    · exact ⟨h₀, fun hn => h₁ ⟨hn, h₄⟩, fun hn => h₂ ⟨hn, h₄⟩⟩
    · have hpos := q.den_pos
      exact ⟨by omega, q.reduced, h₃⟩

end Literal

end FormulaGraph
