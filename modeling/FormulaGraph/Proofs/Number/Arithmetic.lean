/-
  File:      FormulaGraph/Proofs/Number/Arithmetic.lean
  Subject:   What the arithmetic of well-formed fractions gives.

  A sum, a product, a remainder or a power of fractions is told by its exact value alone: the
  well-formed fraction of that value if there is one, and a double if there is none.

  * `WellFormed.eq_exact` -- a well-formed fraction is the fraction of the rational number it
    stands for; `add_wellFormed`, `mul_wellFormed`, `pow?_wellFormed`, `modulo?_wellFormed` -- what
    the operations give is well-formed;
  * `IsResult` -- what an operation with a given exact value has to give;
  * `remainder_sign`, `abs_remainder_lt` -- the remainder goes with the divisor;
  * `arithmetic_exact` -- fractions, sums, products and remainders;
  * `pow?_stops_iff` -- the one power that needs more than 128 bits;
  * `pow?_exact` -- powers with an integer exponent, and those that there are none of.
-/
import Mathlib.Data.Nat.Prime.Basic
import Mathlib.Data.Sign.Basic
import Mathlib.Tactic.NormNum.Prime
import FormulaGraph.Proofs.Number.Exact

namespace FormulaGraph.Number

/-! ## 1. Well-formed fractions -/

theorem wellFormed_exact {q : ℚ} (h : Fits q) : (exact q).WellFormed :=
  ⟨Int.natCast_pos.mpr q.den_pos, q.reduced, h.1, h.2⟩

/-- **A well-formed fraction is the fraction of the rational number it stands for.** -/
theorem WellFormed.eq_exact {n d : Int} (h : (rational n d).WellFormed) :
    rational n d = exact (n / d) ∧ Fits (n / d) := by
  obtain ⟨hpos, hcoprime, hn, hd⟩ := h
  have hnum : (n / d : ℚ).num = n := Rat.num_div_eq_of_coprime hpos hcoprime
  have hden : ((n / d : ℚ).den : Int) = d := Rat.den_div_eq_of_coprime hpos hcoprime
  unfold exact Fits
  rw [hnum, hden]
  exact ⟨rfl, hn, hd⟩

theorem wellFormed_ofRat (q : ℚ) : (ofRat q).WellFormed := by
  unfold ofRat
  split
  · rename_i h
    exact wellFormed_exact h
  · trivial

theorem quotient?_wellFormed {n d : Int} {x : Number} (h : quotient? n d = some x) :
    x.WellFormed := by
  by_cases hd : d = 0
  · rw [quotient?, if_pos hd] at h
    cases h
  · rw [quotient?_eq hd] at h
    cases h
    exact wellFormed_ofRat _

theorem getD_wellFormed {x? : Option Number} {y : Number} (h : ∀ x, x? = some x → x.WellFormed)
    (hy : y.WellFormed) : (x?.getD y).WellFormed := by
  cases hx : x? with
  | none => exact hy
  | some x => exact h x hx

theorem add_wellFormed (x y : Number) : (x.add y).WellFormed := by
  unfold add
  split
  · exact getD_wellFormed (fun _ => quotient?_wellFormed) trivial
  · trivial

theorem mul_wellFormed (x y : Number) : (x.mul y).WellFormed := by
  unfold mul
  split
  · exact getD_wellFormed (fun _ => quotient?_wellFormed) trivial
  · trivial

theorem exactPower?_wellFormed {n d e : Int} {x : Number} (h : exactPower? n d e = .ok (some x)) :
    x.WellFormed := by
  obtain h | h := exactPower?_ok h
  · cases h
  · exact quotient?_wellFormed h.symm

/-- What a power is, if there is one: a double, or the power of a fraction that was found. -/
theorem pow?_cases {x y z : Number} (h : x.pow? y = .ok (some z)) :
    (∃ v, z = float v) ∨ ∃ n d e, x = rational n d ∧ y = ofInt e ∧ (n ≠ 0 ∨ 0 ≤ e) ∧
      exactPower? n d e = .ok (some z) := by
  unfold pow? at h
  dsimp only at h
  split at h
  · cases h
  · rename_i hpole
    split at h
    · rename_i n d e f
      split at h
      · rename_i hf
        obtain ⟨x?, hx, h⟩ := bind_ok_iff.mp h
        cases x? with
        | none => exact .inl ⟨_, (Option.some.inj (Except.ok.inj h)).symm⟩
        | some x =>
          cases h
          refine .inr ⟨n, d, e, rfl, congrArg (rational e) hf, ?_, hx⟩
          by_contra hside
          push Not at hside
          exact hpole (Bool.and_eq_true_iff.mpr ⟨beq_iff_eq.mpr hside.1, decide_eq_true hside.2⟩)
      · cases h
    · split at h
      · cases h
      · exact .inl ⟨_, (Option.some.inj (Except.ok.inj h)).symm⟩

/-- Only an integer power of a fraction stops. -/
theorem pow?_error_cases {x y : Number} {cause : Overflow} (h : x.pow? y = .error cause) :
    ∃ n d e, x = rational n d ∧ y = ofInt e ∧ exactPower? n d e = .error cause := by
  unfold pow? at h
  dsimp only at h
  split at h
  · cases h
  · split at h
    · rename_i n d e f _
      split at h
      · rename_i hf
        rcases bind_error_iff.mp h with h | ⟨_, _, h⟩
        · exact ⟨n, d, e, rfl, congrArg (rational e) hf, h⟩
        · cases h
      · cases h
    · cases h

theorem pow?_wellFormed {x y z : Number} (h : x.pow? y = .ok (some z)) : z.WellFormed := by
  obtain ⟨v, rfl⟩ | ⟨n, d, e, -, -, -, h⟩ := pow?_cases h
  · trivial
  · exact exactPower?_wellFormed h

theorem modulo?_wellFormed {x y z : Number} (h : x.modulo? y = some z) : z.WellFormed := by
  unfold modulo? at h
  split at h
  · cases h
  · split at h
    · exact quotient?_wellFormed h
    · cases h
      trivial

/-- What an operation with the exact value `q` has to give: the well-formed fraction of `q`, or, if
    a part of `q` in lowest terms exceeds 64 bits, the quotient of its parts as doubles. -/
structure IsResult (q : ℚ) (x : Number) : Prop where
  fraction : Fits q → ∃ n d : Int, x = rational n d ∧ (rational n d).WellFormed ∧ (n / d : ℚ) = q
  double : ¬ Fits q → x = float (.ofFloat (Float.ofInt q.num / Float.ofInt q.den))

theorem isResult_ofRat (q : ℚ) : IsResult q (ofRat q) where
  fraction h := ⟨q.num, q.den, ofRat_of_fits h, wellFormed_exact h, by
    rw [Int.cast_natCast, Rat.num_div_den]⟩
  double h := if_neg h

/-- Only one number is the result. -/
theorem IsResult.eq_ofRat {q : ℚ} {x : Number} (h : IsResult q x) : x = ofRat q := by
  by_cases hf : Fits q
  · obtain ⟨n, d, rfl, hw, rfl⟩ := h.fraction hf
    rw [hw.eq_exact.1, ofRat_of_fits hf]
  · rw [h.double hf, ofRat, if_neg hf]

/-- A fraction that is the result is reduced, and it is not rounded. -/
theorem IsResult.of_rational {q : ℚ} {n d : Int} (h : IsResult q (rational n d)) :
    (rational n d).WellFormed ∧ (n / d : ℚ) = q := by
  by_cases hf : Fits q
  · obtain ⟨n', d', he, hw, hv⟩ := h.fraction hf
    cases he
    exact ⟨hw, hv⟩
  · cases h.double hf

/-! ## 2. Remainders -/

/-- The remainder as a part of the divisor. -/
theorem remainder_eq_mul_fract {p q : ℚ} (hq : q ≠ 0) :
    p - q * ⌊p / q⌋ = q * Int.fract (p / q) := by
  rw [Int.fract, mul_sub, mul_div_cancel₀ p hq]

/-- The remainder is zero or has the sign of the divisor. -/
theorem remainder_sign {p q : ℚ} (hq : q ≠ 0) :
    p - q * ⌊p / q⌋ = 0 ∨ SignType.sign (p - q * ⌊p / q⌋) = SignType.sign q := by
  rw [remainder_eq_mul_fract hq]
  rcases (Int.fract_nonneg (p / q)).eq_or_lt with hzero | hpos
  · exact .inl (by rw [← hzero, mul_zero])
  · exact .inr (by rw [sign_mul, sign_pos hpos, mul_one])

/-- The remainder is smaller than the divisor. -/
theorem abs_remainder_lt {p q : ℚ} (hq : q ≠ 0) : |p - q * ⌊p / q⌋| < |q| := by
  rw [remainder_eq_mul_fract hq, abs_mul, abs_of_nonneg (Int.fract_nonneg (p / q))]
  exact mul_lt_of_lt_one_right (abs_pos.mpr hq) (Int.fract_lt_one _)

/-! ## 3. Sums, products and remainders -/

/-- **The arithmetic of fractions is exact as far as its results fit.** Cancelling a quotient of two
    64-bit integers, adding, multiplying, and taking the remainder by a divisor other than zero give
    the results of the exact values. So they depend on the exact values alone, sums and products
    commute also where they become doubles, and a fraction that comes out is reduced and exact. -/
theorem arithmetic_exact :
    (∀ n d : Int, fitsBits 64 n = true → fitsBits 64 d = true → d ≠ 0 →
      ∃ x, quotient? n d = some x ∧ IsResult (n / d) x) ∧
    (∀ a b c d : Int, (rational a b).WellFormed → (rational c d).WellFormed →
      IsResult (a / b + c / d) (add (rational a b) (rational c d)) ∧
      IsResult (a / b * (c / d)) (mul (rational a b) (rational c d)) ∧
      (c ≠ 0 → ∃ x r, modulo? (rational a b) (rational c d) = some x ∧ IsResult r x ∧
        r = a / b - c / d * ⌊(a / b : ℚ) / (c / d)⌋ ∧
        (r = 0 ∨ SignType.sign r = SignType.sign (c / d : ℚ)) ∧ |r| < |(c / d : ℚ)|) ∧
      add (rational a b) (rational c d) = add (rational c d) (rational a b) ∧
      mul (rational a b) (rational c d) = mul (rational c d) (rational a b)) ∧
    (∀ q x y, IsResult q x → IsResult q y → x = y) ∧
    ∀ q n d, IsResult q (rational n d) → (rational n d).WellFormed ∧ (n / d : ℚ) = q := by
  refine ⟨fun n d _ _ hd => ⟨_, quotient?_eq hd, isResult_ofRat _⟩, ?_,
    fun q x y hx hy => hx.eq_ofRat.trans hy.eq_ofRat.symm, fun q n d h => h.of_rational⟩
  intro a b c d hx hy
  have hcd : c ≠ 0 → (c / d : ℚ) ≠ 0 := fun hc =>
    div_ne_zero (Int.cast_ne_zero.mpr hc) (Int.cast_ne_zero.mpr hy.1.ne')
  rw [hx.eq_exact.1, hy.eq_exact.1]
  refine ⟨?_, ?_, fun hc => ?_, ?_, ?_⟩
  · rw [add_exact]
    exact isResult_ofRat _
  · rw [mul_exact]
    exact isResult_ofRat _
  · exact ⟨_, _, modulo?_exact (hcd hc), isResult_ofRat _, rfl, remainder_sign (hcd hc),
      abs_remainder_lt (hcd hc)⟩
  · rw [add_exact, add_exact, add_comm]
  · rw [mul_exact, mul_exact, mul_comm]

/-- The reciprocal of the least integer does not fit; a remainder of `7/2` by `-2/3` is `-1/2`. -/
theorem arithmetic_exact_least :
    (∃ x, quotient? 1 (-2 ^ 63) = some x ∧ IsResult ((1 : Int) / (-2 ^ 63 : Int)) x) ∧
    (rational 7 2).WellFormed ∧ (rational (-2) 3).WellFormed ∧
    ∃ x r, modulo? (rational 7 2) (rational (-2) 3) = some x ∧ IsResult r x ∧ r = -1 / 2 := by
  obtain ⟨hquotient, hops, -⟩ := arithmetic_exact
  obtain ⟨x, r, hx, hr, hvalue, -⟩ := (hops 7 2 (-2) 3 (by decide) (by decide)).2.2.1 (by decide)
  refine ⟨hquotient 1 (-2 ^ 63) (by decide) (by decide) (by decide), by decide, by decide, x, r, hx,
    hr, hvalue.trans ?_⟩
  norm_num

/-! ## 4. Powers -/

/-- The least integer of 128 bits, the only one whose opposite has more. -/
def least128 : Int := -2 ^ 127

theorem fits128_iff {n : Int} : fitsBits 128 n = true ↔ n.natAbs < 2 ^ 127 ∨ n = least128 := by
  rw [fitsBits_iff, least128]
  omega

/-- The least integer of 128 bits is a power of a part of a fraction in one way only. -/
theorem eq_of_pow_eq_least {a : Int} {k : Nat} (ha : fitsBits 64 a = true)
    (h : a ^ k = least128) : a = -2 ∧ k = 127 := by
  have habs : a.natAbs ^ k = 2 ^ 127 := by
    rw [← Int.natAbs_pow, h]
    decide
  have hk : k ≠ 0 := by
    rintro rfl
    rw [pow_zero] at habs
    exact absurd habs (by decide)
  -- the absolute value is a power of two, and 127 is prime
  obtain ⟨j, -, hj⟩ := (Nat.dvd_prime_pow Nat.prime_two).mp (habs ▸ dvd_pow_self a.natAbs hk)
  have hjk : j * k = 127 := by
    rw [hj, ← pow_mul] at habs
    exact Nat.pow_right_injective (Nat.le_refl 2) habs
  have hsmall := natAbs_le_of_fitsBits ha
  have hprime : Nat.Prime 127 := by norm_num
  rcases (Nat.dvd_prime hprime).mp (Dvd.intro _ hjk) with rfl | rfl
  · obtain rfl : k = 127 := by omega
    have hsign : a ≠ 2 := by
      rintro rfl
      exact absurd h (by decide)
    omega
  · rw [hj] at hsmall
    exact absurd hsmall (by decide)

/-- Only a numerator is negative. So if the lower of two powers is, the exponent is negative and the
    upper one is positive; and the lower one has an opposite, but for `(-2) ^ (-127)`. -/
theorem powers_of_neg {n d e : Int} (hb : (rational n d).WellFormed)
    (hexcept : ¬ (n = -2 ∧ d = 1 ∧ e = -127))
    (hfits : fitsBits 128 ((powerParts n d e).1 ^ e.natAbs) = true)
    (hneg : (powerParts n d e).2 ^ e.natAbs < 0) :
    0 < (powerParts n d e).1 ^ e.natAbs ∧ (powerParts n d e).2 ^ e.natAbs ≠ least128 := by
  obtain ⟨hd, -, hn, -⟩ := hb
  unfold powerParts at hfits hneg ⊢
  split at hneg
  · rename_i he
    rw [if_pos he] at hfits ⊢
    have hfits : fitsBits 128 (d ^ e.natAbs) = true := hfits
    refine ⟨pow_pos hd _, fun hleast => ?_⟩
    obtain ⟨hn, hk⟩ := eq_of_pow_eq_least hn hleast
    -- a denominator above one would have a power that does not fit
    have hone : ¬ 2 ≤ d := by
      intro htwo
      rw [hk, fitsBits_iff] at hfits
      have : (2 : Int) ^ 127 ≤ d ^ 127 := pow_le_pow_left₀ (by decide) htwo 127
      omega
    exact hexcept ⟨hn, by omega, by omega⟩
  · exact absurd hneg (pow_pos hd _).not_gt

/-- **A power of a fraction does not stop** if it is not `(-2) ^ (-127)`. -/
theorem exactPower?_defined {n d e : Int} (hb : (rational n d).WellFormed)
    (hexcept : ¬ (n = -2 ∧ d = 1 ∧ e = -127)) : ∃ x?, exactPower? n d e = .ok x? := by
  by_cases he : e.natAbs < 2 ^ 32
  · rw [exactPower?_eq he]
    split
    · rename_i above below habove hbelow
      obtain ⟨hfits, rfl⟩ := within128_eq_some_iff.mp habove
      obtain ⟨hfits', rfl⟩ := within128_eq_some_iff.mp hbelow
      refine ⟨_, strictQuotient?_eq_ok_iff.mpr (and_assoc.mp ⟨?_, rfl⟩)⟩
      split
      · rename_i hneg
        obtain ⟨hpos, hleast⟩ := powers_of_neg hb hexcept hfits hneg
        have hopposite := (fits128_iff.mp hfits').resolve_right hleast
        rw [fitsBits_iff] at hfits
        exact ⟨fits128_of_lt (by omega), fits128_of_lt (by omega)⟩
      · rw [Int.one_mul, Int.one_mul]
        exact ⟨hfits, hfits'⟩
    · exact ⟨none, rfl⟩
  · exact ⟨none, if_neg he⟩

/-- `(-2) ^ (-127)` does: its denominator `-2 ^ 127` cannot be made positive. -/
theorem pow?_least : pow? (ofInt (-2)) (ofInt (-127)) = .error ⟨2 ^ 127⟩ := rfl

/-- A power with an integer exponent is the one that is found exactly, or else a double. -/
theorem pow?_ofInt {n d e : Int} (hside : n ≠ 0 ∨ 0 ≤ e) :
    ∃ v, pow? (rational n d) (ofInt e) = do
      let exact ← exactPower? n d e
      return some (exact.getD (float v)) := by
  have hpole : ((rational n d).isZero && (ofInt e).isNegative) ≠ true := by
    intro h
    obtain ⟨hz, he⟩ := Bool.and_eq_true_iff.mp h
    have he : e < 0 := of_decide_eq_true he
    exact hside.elim (fun hn => hn (beq_iff_eq.mp hz)) (fun h₀ => absurd he (by omega))
  exact ⟨_, (if_neg hpole).trans (if_pos rfl)⟩

/-- **One power stops**, and no other. -/
theorem pow?_stops_iff {x y : Number} (hx : x.WellFormed) :
    (∃ overflow, x.pow? y = .error overflow) ↔ x = ofInt (-2) ∧ y = ofInt (-127) := by
  constructor
  · rintro ⟨overflow, h⟩
    obtain ⟨n, d, e, rfl, rfl, hstops⟩ := pow?_error_cases h
    by_contra hexcept
    obtain ⟨x?, hpower⟩ := exactPower?_defined (e := e) hx fun ⟨hn, hd, he⟩ =>
      hexcept (by rw [hn, hd, he]; exact ⟨rfl, rfl⟩)
    cases hpower.symm.trans hstops
  · rintro ⟨rfl, rfl⟩
    exact ⟨_, pow?_least⟩

/-- **Integer powers are exact as far as they fit.** With an exponent of at most 32 bits, a fraction
    whose power fits has that power, and any other fraction has a double, but that the power of `-2`
    and `-127` stops. Zero has no negative power, and no fraction has a power whose exponent is a
    fraction but no integer. -/
theorem pow?_exact {n d : Int} (hb : (rational n d).WellFormed) :
    (∀ e : Int, e.natAbs ≤ 2 ^ 32 - 1 → n ≠ 0 ∨ 0 ≤ e →
      (Fits ((n / d : ℚ) ^ e) →
        ∃ k l : Int, pow? (rational n d) (ofInt e) = .ok (some (rational k l)) ∧
          (rational k l).WellFormed ∧ (k / l : ℚ) = (n / d : ℚ) ^ e) ∧
      (¬ Fits ((n / d : ℚ) ^ e) →
        if n = -2 ∧ d = 1 ∧ e = -127 then pow? (rational n d) (ofInt e) = .error ⟨2 ^ 127⟩
        else ∃ v, pow? (rational n d) (ofInt e) = .ok (some (float v)))) ∧
    (∀ e : Int, n = 0 → e < 0 → pow? (rational n d) (ofInt e) = .ok none) ∧
    ∀ k l : Int, (rational k l).WellFormed → l ≠ 1 →
      pow? (rational n d) (rational k l) = .ok none := by
  refine ⟨fun e he hside => ?_, fun e hn he => ?_, fun k l _ hl => ?_⟩
  · have hq : (n / d : ℚ) ≠ 0 ∨ 0 ≤ e := hside.imp_left fun hn =>
      div_ne_zero (Int.cast_ne_zero.mpr hn) (Int.cast_ne_zero.mpr hb.1.ne')
    obtain ⟨hn, hd⟩ : (n / d : ℚ).num = n ∧ ((n / d : ℚ).den : Int) = d :=
      ⟨Rat.num_div_eq_of_coprime hb.1 hb.2.1, Rat.den_div_eq_of_coprime hb.1 hb.2.1⟩
    obtain ⟨v, hpow⟩ := pow?_ofInt (d := d) hside
    rw [hpow]
    constructor
    · intro hf
      have hexact := exactPower?_of_fits hq (by omega) hf
      rw [hn, hd] at hexact
      obtain ⟨k, l, hk, hw, hv⟩ := (isResult_ofRat _).fraction hf
      refine ⟨k, l, ?_, hw, hv⟩
      rw [hexact, ← hk, ofRat_of_fits hf]
      rfl
    · intro hf
      split
      · rename_i hexcept
        obtain ⟨rfl, rfl, rfl⟩ := hexcept
        exact hpow.symm.trans pow?_least
      · rename_i hexcept
        obtain ⟨x?, hx⟩ := exactPower?_defined hb hexcept
        rw [hx]
        cases x? with
        | none => exact ⟨v, rfl⟩
        | some x =>
          have hfound : exactPower? (n / d : ℚ).num (n / d : ℚ).den e = .ok (some x) := by
            rw [hn, hd, hx]
          rw [exactPower?_eq_some hq hfound, (isResult_ofRat _).double hf]
          exact ⟨_, rfl⟩
  · subst hn
    exact if_pos (Bool.and_eq_true_iff.mpr ⟨rfl, decide_eq_true he⟩)
  · unfold pow?
    split
    · rfl
    · exact if_neg hl

/-- The least integer is a power of `-2`, and its reciprocal is one that does not fit. -/
theorem pow?_exact_least :
    (rational (-2) 1).WellFormed ∧
    (∃ k l : Int, pow? (rational (-2) 1) (ofInt 63) = .ok (some (rational k l)) ∧
      (rational k l).WellFormed ∧ (k / l : ℚ) = -2 ^ 63) ∧
    (∃ v, pow? (rational (-2) 1) (ofInt (-63)) = .ok (some (float v))) ∧
    pow? (rational (-2) 1) (rational 1 2) = .ok none := by
  have hpower : ((-2 : Int) / (1 : Int) : ℚ) ^ (63 : Int) = ((-2 ^ 63 : Int) : ℚ) := by norm_num
  have hreciprocal : ((-2 : Int) / (1 : Int) : ℚ) ^ (-63 : Int) = mkRat (-1) (2 ^ 63) := by
    rw [Rat.mkRat_eq_div]
    norm_num
  obtain ⟨hints, -, hfractions⟩ := pow?_exact (n := -2) (d := 1) (by decide)
  obtain ⟨k, l, hpow, hw, hvalue⟩ := (hints 63 (by decide) (.inl (by decide))).1
    (hpower ▸ fits_intCast (by decide))
  refine ⟨by decide, ⟨k, l, hpow, hw, ?_⟩, ?_, hfractions 1 2 (by decide) (by decide)⟩
  · rw [hvalue, hpower]
    norm_num
  · refine (if_neg (by decide)).mp ((hints (-63) (by decide) (.inl (by decide))).2 ?_)
    rw [hreciprocal]
    decide +kernel

/-- The power that is neither a fraction nor a double: it does not fit, its exponent has seven bits,
    and the opposite of its denominator has more than 128. -/
theorem pow?_exact_fails :
    (rational (-2) 1).WellFormed ∧ (-127 : Int).natAbs ≤ 2 ^ 32 - 1 ∧
    ¬ Fits (((-2 : Int) / (1 : Int) : ℚ) ^ (-127 : Int)) ∧
    pow? (rational (-2) 1) (ofInt (-127)) = .error ⟨2 ^ 127⟩ ∧ fitsBits 128 (2 ^ 127) = false := by
  have hpower : ((-2 : Int) / (1 : Int) : ℚ) ^ (-127 : Int) = mkRat (-1) (2 ^ 127) := by
    rw [Rat.mkRat_eq_div]
    norm_num
  refine ⟨by decide, by decide, ?_, pow?_least, by decide⟩
  rw [hpower]
  decide +kernel

end FormulaGraph.Number
