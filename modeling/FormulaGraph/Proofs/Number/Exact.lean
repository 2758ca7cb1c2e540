/-
  File:      FormulaGraph/Proofs/Number/Exact.lean
  Subject:   Folding fractions is arithmetic on rational numbers, as far as it stays exact.

  A fraction in lowest terms with a positive denominator is determined by the rational number it
  stands for. So each operation on fractions is told by one rational number: the operation gives the
  fraction of that number if both parts fit 64 bits, and a double if they do not.

  * `Fits`, `exact`, `ofRat` -- the rational numbers that are fractions, and what becomes of any
    other;
  * `quotient?_eq` -- cancelling gives the fraction of the quotient;
  * `add_exact`, `mul_exact`, `exactPower?_eq_some`, `modulo?_exact` -- the arithmetic;
  * `checkedPower_eq`, `exactPower?_of_fits` -- squaring finds every power that fits;
  * `isZero_add_exact`, `isZero_mul_exact` -- no sum or product but zero passes for zero, also where
    it became a double.
-/
import Mathlib.Data.Rat.Floor
import FormulaGraph.Number
import FormulaGraph.Proofs.Bind
import FormulaGraph.Proofs.Number.Double

namespace FormulaGraph.Number

/-! ## 1. Fractions and rational numbers -/

/-- Both parts of the rational number lie within 64 bits. -/
def Fits (q : ℚ) : Prop := fitsBits 64 q.num = true ∧ fitsBits 64 q.den = true

instance (q : ℚ) : Decidable (Fits q) := inferInstanceAs (Decidable (_ ∧ _))

/-- The fraction of a rational number. -/
def exact (q : ℚ) : Number := rational q.num q.den

/-- The fraction of a rational number if it fits, and else the quotient of its parts as doubles. -/
def ofRat (q : ℚ) : Number :=
  if Fits q then exact q else float (.ofFloat (Float.ofInt q.num / Float.ofInt q.den))

theorem ofRat_of_fits {q : ℚ} (h : Fits q) : ofRat q = exact q := if_pos h

theorem fits_intCast {n : Int} (h : fitsBits 64 n = true) : Fits n := by
  refine ⟨?_, ?_⟩
  · rw [Rat.num_intCast]
    exact h
  · rw [Rat.den_intCast]
    decide

theorem exact_intCast (n : Int) : exact n = ofInt n := by
  rw [exact, Rat.num_intCast, Rat.den_intCast]
  rfl

theorem ofRat_intCast {n : Int} (h : fitsBits 64 n = true) : ofRat n = ofInt n := by
  rw [ofRat_of_fits (fits_intCast h), exact_intCast]

theorem ofRat_zero : ofRat 0 = zero := ofRat_intCast (by decide)

theorem ofRat_one : ofRat 1 = one := ofRat_intCast (by decide)

theorem isOne_exact (q : ℚ) : (exact q).isOne = true ↔ q = 1 := by
  constructor
  · intro h
    obtain ⟨hn, hd⟩ := Bool.and_eq_true_iff.mp h
    exact Rat.ext (by simpa using hn) (by simpa using hd)
  · rintro rfl
    rfl

theorem isOne_ofRat (q : ℚ) : (ofRat q).isOne = true ↔ q = 1 := by
  unfold ofRat
  split
  · exact isOne_exact q
  · rename_i h
    refine ⟨fun h₁ => absurd h₁ Bool.false_ne_true, fun h₁ => absurd ?_ h⟩
    rw [h₁]
    decide

theorem isZero_exact (q : ℚ) : (exact q).isZero = true ↔ q = 0 := by
  show (q.num == 0) = true ↔ q = 0
  rw [beq_iff_eq, Rat.num_eq_zero]

theorem isNegative_exact (q : ℚ) : (exact q).isNegative = true ↔ q < 0 := by
  show decide (q.num < 0) = true ↔ q < 0
  rw [decide_eq_true_iff, Rat.num_neg]

theorem fitsBits_iff {bits : Nat} {n : Int} :
    fitsBits bits n = true ↔ -(2 ^ (bits - 1) : Int) ≤ n ∧ n < 2 ^ (bits - 1) := by
  simp [fitsBits]

/-- A part of a fraction is far below `2 ^ 64`. -/
theorem natAbs_le_of_fitsBits {n : Int} (h : fitsBits 64 n = true) : n.natAbs ≤ 2 ^ 63 := by
  rw [fitsBits_iff] at h
  omega

/-! ## 2. Cancelling -/

/-- **Cancelling gives the fraction of the quotient.** -/
theorem quotient?_eq {n d : Int} (hd : d ≠ 0) : quotient? n d = some (ofRat (n / d)) := by
  -- the sign of the denominator is moved to the numerator
  obtain ⟨s, hs, hpos, hs₁⟩ :
      ∃ s : Int, s = (if d < 0 then -1 else 1) ∧ 0 < s * d ∧ s.natAbs = 1 := by
    refine ⟨_, rfl, ?_, ?_⟩
    · split <;> omega
    · split <;> rfl
  have hg : (0 : Int) < Int.gcd n d := Int.natCast_pos.mpr (Int.gcd_pos_of_ne_zero_right n hd)
  obtain ⟨n', hn'⟩ : (Int.gcd n d : Int) ∣ s * n := (Int.gcd_dvd_left n d).mul_left s
  obtain ⟨d', hd'⟩ : (Int.gcd n d : Int) ∣ s * d := (Int.gcd_dvd_right n d).mul_left s
  have hnum : s * n / (Int.gcd n d : Int) = n' := by
    rw [hn', Int.mul_ediv_cancel_left _ hg.ne']
  have hden : s * d / (Int.gcd n d : Int) = d' := by
    rw [hd', Int.mul_ediv_cancel_left _ hg.ne']
  have hd'pos : 0 < d' := by
    rw [hd'] at hpos
    exact (mul_pos_iff_of_pos_left hg).mp hpos
  have hcoprime : n'.natAbs.Coprime d'.natAbs := by
    have h := Int.gcd_mul_left s n d
    rw [hn', hd', Int.gcd_mul_left, hs₁, Int.natAbs_natCast, Nat.one_mul] at h
    exact Nat.eq_of_mul_eq_mul_left (Int.natCast_pos.mp hg) (h.trans (Nat.mul_one _).symm)
  have hq : (n / d : ℚ) = n' / d' := by
    have hs₀ : (s : ℚ) ≠ 0 := by
      intro h
      rw [Int.cast_eq_zero.mp h] at hs₁
      cases hs₁
    have hg₀ : ((Int.gcd n d : Int) : ℚ) ≠ 0 := Int.cast_ne_zero.mpr hg.ne'
    calc (n / d : ℚ) = (s * n : Int) / (s * d : Int) := by
          push_cast
          rw [mul_div_mul_left _ _ hs₀]
      _ = n' / d' := by
          rw [hn', hd', Int.cast_mul, Int.cast_mul, mul_div_mul_left _ _ hg₀]
  have hqn : (n / d : ℚ).num = n' := by
    rw [hq]
    exact Rat.num_div_eq_of_coprime hd'pos hcoprime
  have hqd : ((n / d : ℚ).den : Int) = d' := by
    rw [hq]
    exact Rat.den_div_eq_of_coprime hd'pos hcoprime
  unfold quotient? ofRat Fits exact
  rw [if_neg hd]
  simp only [← hs, hnum, hden, hqn, hqd, Bool.and_eq_true]
  split <;> rfl

/-- A quotient of 128 bits passes for zero only if it is zero. -/
theorem isZero_ofRat {n d : Int} (hd : d ≠ 0) (hn' : n.natAbs < 2 ^ 128)
    (hd' : d.natAbs < 2 ^ 128) :
    (ofRat (n / d)).isZero = true ↔ (n / d : ℚ) = 0 := by
  by_cases h₀ : (n / d : ℚ) = 0
  · rw [h₀]
    exact ⟨fun _ => rfl, fun _ => rfl⟩
  · have hn : n ≠ 0 := by
      rintro rfl
      exact h₀ (by simp)
    unfold ofRat
    split
    · exact isZero_exact _
    · -- cancelling makes both parts smaller, so the double is a normal one
      have hnum : (n / d : ℚ).num.natAbs ≤ n.natAbs := by
        rw [← Rat.divInt_eq_div]
        exact Int.natAbs_le_of_dvd_ne_zero (Rat.num_dvd n hd) hn
      have hden : ((n / d : ℚ).den : Int).natAbs ≤ d.natAbs := by
        rw [← Rat.divInt_eq_div]
        exact Int.natAbs_le_of_dvd_ne_zero (Rat.den_dvd n d) hd
      have hfloat := Double.quotient_ne_zero (fun h => h₀ (Rat.num_eq_zero.mp h))
        (Int.natCast_ne_zero.mpr (n / d : ℚ).den_nz) (hnum.trans_lt hn') (hden.trans_lt hd')
      show (Float.ofInt (n / d : ℚ).num / Float.ofInt (n / d : ℚ).den == 0.0) = true ↔ _
      rw [hfloat]
      exact ⟨fun h => absurd h (by simp), fun h => absurd h h₀⟩

/-! ## 3. Sums and products -/

theorem den_ne_zero (q : ℚ) : (q.den : Int) ≠ 0 := Int.natCast_ne_zero.mpr q.den_nz

theorem add_eq_div (p q : ℚ) :
    p + q = ((p.num * q.den + q.num * p.den : Int) : ℚ) / ((p.den * q.den : Int) : ℚ) := by
  have hp : (p.den : ℚ) ≠ 0 := Nat.cast_ne_zero.mpr p.den_nz
  have hq : (q.den : ℚ) ≠ 0 := Nat.cast_ne_zero.mpr q.den_nz
  conv_lhs => rw [← Rat.num_div_den p, ← Rat.num_div_den q]
  push_cast
  field_simp

theorem mul_eq_div (p q : ℚ) :
    p * q = ((p.num * q.num : Int) : ℚ) / ((p.den * q.den : Int) : ℚ) := by
  conv_lhs => rw [← Rat.num_div_den p, ← Rat.num_div_den q]
  push_cast
  rw [div_mul_div_comm]

/-- **A sum of fractions is the fraction of the sum**, or its double. -/
theorem add_exact (p q : ℚ) : add (exact p) (exact q) = ofRat (p + q) := by
  show (quotient? (p.num * q.den + q.num * p.den) (p.den * q.den)).getD (float .nan) = _
  rw [quotient?_eq (mul_ne_zero (den_ne_zero p) (den_ne_zero q)), add_eq_div]
  rfl

/-- **A product of fractions is the fraction of the product**, or its double. -/
theorem mul_exact (p q : ℚ) : mul (exact p) (exact q) = ofRat (p * q) := by
  show (quotient? (p.num * q.num) (p.den * q.den)).getD (float .nan) = _
  rw [quotient?_eq (mul_ne_zero (den_ne_zero p) (den_ne_zero q)), mul_eq_div]
  rfl

/-- A product of two parts has 126 bits and a sign. -/
theorem natAbs_mul_le {a b : Int} (ha : fitsBits 64 a = true) (hb : fitsBits 64 b = true) :
    (a * b).natAbs ≤ 2 ^ 126 := by
  rw [Int.natAbs_mul]
  calc a.natAbs * b.natAbs ≤ 2 ^ 63 * 2 ^ 63 :=
        Nat.mul_le_mul (natAbs_le_of_fitsBits ha) (natAbs_le_of_fitsBits hb)
    _ = 2 ^ 126 := by norm_num

/-- No sum but zero passes for zero. -/
theorem isZero_add_exact {p q : ℚ} (hp : Fits p) (hq : Fits q) :
    (ofRat (p + q)).isZero = true ↔ p + q = 0 := by
  have h₁ := natAbs_mul_le hp.1 hq.2
  have h₂ := natAbs_mul_le hq.1 hp.2
  have h₃ := natAbs_mul_le hp.2 hq.2
  have hsum := Int.natAbs_add_le (p.num * q.den) (q.num * p.den)
  rw [add_eq_div]
  exact isZero_ofRat (mul_ne_zero (den_ne_zero p) (den_ne_zero q)) (by omega) (by omega)

/-- No product but zero passes for zero. -/
theorem isZero_mul_exact {p q : ℚ} (hp : Fits p) (hq : Fits q) :
    (ofRat (p * q)).isZero = true ↔ p * q = 0 := by
  have h₁ := natAbs_mul_le hp.1 hq.1
  have h₂ := natAbs_mul_le hp.2 hq.2
  rw [mul_eq_div]
  exact isZero_ofRat (mul_ne_zero (den_ne_zero p) (den_ne_zero q)) (by omega) (by omega)

/-! ## 4. Powers and remainders -/

theorem within128_eq_some_iff {n m : Int} :
    within128 n = some m ↔ fitsBits 128 n = true ∧ m = n := by
  unfold within128
  split
  · rename_i h
    exact ⟨fun hm => ⟨h, (Option.some.inj hm).symm⟩, fun hm => congrArg some hm.2.symm⟩
  · rename_i h
    exact ⟨fun hm => (Option.some_ne_none m hm.symm).elim, fun hm => absurd hm.1 h⟩

theorem within128_of_fits {n : Int} (h : fitsBits 128 n = true) : within128 n = some n := if_pos h

theorem within128_of_not_fits {n : Int} (h : ¬ fitsBits 128 n = true) : within128 n = none :=
  if_neg h

theorem fits128_of_lt {n : Int} (h : n.natAbs < 2 ^ 127) : fitsBits 128 n = true := by
  rw [fitsBits_iff]
  omega

theorem strict_of_fits {n : Int} (h : fitsBits 128 n = true) : strict n = .ok n := if_pos h

theorem strict_ok {n m : Int} (h : strict n = .ok m) : fitsBits 128 n = true := by
  unfold strict at h
  split at h
  · assumption
  · cases h

theorem strict_error {n : Int} {cause : Overflow} (h : strict n = .error cause) :
    ¬ fitsBits 128 n = true ∧ cause = ⟨n⟩ := by
  unfold strict at h
  split at h
  · cases h
  · rename_i hnot
    exact ⟨hnot, (Except.error.inj h).symm⟩

/-- Cancelling stops unless both parts fit after the change of sign. -/
theorem strictQuotient?_eq_ok_iff {n d : Int} {x? : Option Number} :
    strictQuotient? n d = .ok x? ↔ fitsBits 128 ((if d < 0 then -1 else 1) * n) = true ∧
      fitsBits 128 ((if d < 0 then -1 else 1) * d) = true ∧ x? = quotient? n d := by
  constructor
  · intro h
    obtain ⟨_, hn, h⟩ := bind_ok_iff.mp h
    obtain ⟨_, hd, h⟩ := bind_ok_iff.mp h
    exact ⟨strict_ok hn, strict_ok hd, (Except.ok.inj h).symm⟩
  · rintro ⟨hn, hd, rfl⟩
    exact bind_ok_iff.mpr ⟨_, strict_of_fits hn, bind_ok_iff.mpr ⟨_, strict_of_fits hd, rfl⟩⟩

/-- Of the integers of 128 bits only the least has no opposite, so cancelling stops there. -/
theorem strictQuotient?_overflow {n d : Int} {cause : Overflow} (hn : fitsBits 128 n = true)
    (hd : fitsBits 128 d = true) (h : strictQuotient? n d = .error cause) :
    cause = ⟨2 ^ 127⟩ := by
  have hopposite {k : Int} (hk : fitsBits 128 k = true)
      (hs : strict ((if d < 0 then -1 else 1) * k) = .error cause) : cause = ⟨2 ^ 127⟩ := by
    obtain ⟨hnot, rfl⟩ := strict_error hs
    rw [fitsBits_iff] at hk hnot
    congr 1
    split at hnot <;> split <;> omega
  rcases bind_error_iff.mp h with h | ⟨_, _, h⟩
  · exact hopposite hn h
  · rcases bind_error_iff.mp h with h | ⟨_, _, h⟩
    · exact hopposite hd h
    · cases h

theorem strictQuotient?_eq {n d : Int} (hn : n.natAbs < 2 ^ 127) (hd : d.natAbs < 2 ^ 127) :
    strictQuotient? n d = .ok (quotient? n d) := by
  refine strictQuotient?_eq_ok_iff.mpr ⟨fits128_of_lt ?_, fits128_of_lt ?_, rfl⟩
  · split <;> omega
  · split <;> omega

/-- A power that fits has only powers below it that fit. -/
theorem fitsBits_pow_of_le {base : Int} {k e : Nat} (hk : k ≤ e)
    (h : fitsBits 128 (base ^ e) = true) :
    fitsBits 128 (base ^ k) = true := by
  rcases Nat.eq_or_lt_of_le hk with rfl | hlt
  · exact h
  have hsmall : (base ^ k).natAbs ≤ 2 ^ 126 := by
    rw [Int.natAbs_pow]
    by_cases hb : base.natAbs ≤ 1
    · exact (pow_le_one₀ (Nat.zero_le _) hb).trans (by norm_num)
    · -- there is a factor of two between the powers at least
      have hstep : base.natAbs ^ k * 2 ≤ base.natAbs ^ e :=
        calc base.natAbs ^ k * 2 ≤ base.natAbs ^ k * base.natAbs := Nat.mul_le_mul_left _ (by omega)
          _ = base.natAbs ^ (k + 1) := (Nat.pow_succ ..).symm
          _ ≤ base.natAbs ^ e := Nat.pow_le_pow_right (by omega) hlt
      have hbound : base.natAbs ^ e ≤ 2 ^ 127 := by
        rw [← Int.natAbs_pow]
        rw [fitsBits_iff] at h
        omega
      omega
  rw [fitsBits_iff]
  omega

/-- **Repeated squaring gives the power exactly if it fits**: no partial result is larger. -/
theorem checkedPower_eq {base : Int} {bits e : Nat} (he : e < 2 ^ bits) :
    checkedPower base bits e = within128 (base ^ e) := by
  induction bits generalizing e with
  | zero =>
    obtain rfl : e = 0 := by omega
    rw [pow_zero]
    rfl
  | succ bits ih =>
    have hsquare : base ^ (e / 2) * base ^ (e / 2) = base ^ (2 * (e / 2)) := by
      rw [Nat.two_mul, pow_add]
    unfold checkedPower
    rw [ih (by omega)]
    by_cases hroot : fitsBits 128 (base ^ (e / 2)) = true
    · rw [within128_of_fits hroot]
      show (within128 (base ^ (e / 2) * base ^ (e / 2)) >>= _) = _
      rw [hsquare]
      by_cases hfits : fitsBits 128 (base ^ (2 * (e / 2))) = true
      · rw [within128_of_fits hfits]
        show (if e % 2 = 1 then within128 (base ^ (2 * (e / 2)) * base)
          else some (base ^ (2 * (e / 2)))) = _
        by_cases hodd : e % 2 = 1
        · rw [if_pos hodd, ← pow_succ]
          congr 2
          omega
        · have heven : 2 * (e / 2) = e := by omega
          rw [heven] at hfits
          rw [if_neg hodd, heven, within128_of_fits hfits]
      · rw [within128_of_not_fits hfits,
          within128_of_not_fits (mt (fitsBits_pow_of_le (by omega)) hfits)]
        rfl
    · rw [within128_of_not_fits hroot,
        within128_of_not_fits (mt (fitsBits_pow_of_le (Nat.div_le_self e 2)) hroot)]
      rfl

/-- The parts that a power raises: those of the fraction, turned over for a negative exponent. -/
def powerParts (n d m : Int) : Int × Int := if m < 0 then (d, n) else (n, d)

theorem exactPower?_eq {n d m : Int} (hm : m.natAbs < 2 ^ 32) :
    exactPower? n d m =
      match within128 ((powerParts n d m).1 ^ m.natAbs),
        within128 ((powerParts n d m).2 ^ m.natAbs) with
      | some above, some below => strictQuotient? above below
      | _, _ => .ok none := by
  rw [← checkedPower_eq hm, ← checkedPower_eq hm]
  exact if_pos hm

/-- A power that is found is a quotient of powers. -/
theorem exactPower?_ok {n d m : Int} {x? : Option Number} (h : exactPower? n d m = .ok x?) :
    x? = none ∨
      x? = quotient? ((powerParts n d m).1 ^ m.natAbs) ((powerParts n d m).2 ^ m.natAbs) := by
  by_cases hm : m.natAbs < 2 ^ 32
  · rw [exactPower?_eq hm] at h
    split at h
    · rename_i above below habove hbelow
      rw [(within128_eq_some_iff.mp habove).2, (within128_eq_some_iff.mp hbelow).2] at h
      exact .inr (strictQuotient?_eq_ok_iff.mp h).2.2
    · exact .inl (Except.ok.inj h).symm
  · exact .inl (Except.ok.inj ((if_neg hm).symm.trans h)).symm

theorem exactPower?_overflow {n d m : Int} {cause : Overflow}
    (h : exactPower? n d m = .error cause) : cause = ⟨2 ^ 127⟩ := by
  by_cases hm : m.natAbs < 2 ^ 32
  · rw [exactPower?_eq hm] at h
    split at h
    · rename_i above below habove hbelow
      obtain ⟨hfits, rfl⟩ := within128_eq_some_iff.mp habove
      obtain ⟨hfits', rfl⟩ := within128_eq_some_iff.mp hbelow
      exact strictQuotient?_overflow hfits hfits' h
    · cases h
  · cases (if_neg hm).symm.trans h

theorem powerParts_snd_ne_zero {n d m : Int} (hd : d ≠ 0) (hside : n ≠ 0 ∨ 0 ≤ m) :
    (powerParts n d m).2 ≠ 0 := by
  unfold powerParts
  split
  · exact hside.resolve_right (by omega)
  · exact hd

/-- The quotient of the powers is the power. -/
theorem zpow_eq_div (q : ℚ) (m : Int) :
    q ^ m = (((powerParts q.num q.den m).1 ^ m.natAbs : Int) : ℚ) /
      ((powerParts q.num q.den m).2 ^ m.natAbs : Int) := by
  rw [Int.cast_pow, Int.cast_pow, ← div_pow]
  unfold powerParts
  split
  · have hm : m = -(m.natAbs : Int) := by omega
    conv_lhs => rw [hm, zpow_neg, zpow_natCast, ← inv_pow, ← Rat.num_div_den q, inv_div]
    rfl
  · have hm : m = (m.natAbs : Int) := by omega
    conv_lhs => rw [hm, zpow_natCast, ← Rat.num_div_den q]
    rfl

/-- Powers of a fraction in lowest terms are in lowest terms. -/
theorem parts_zpow {q : ℚ} {m : Int} (hq : q ≠ 0 ∨ 0 ≤ m) :
    (q ^ m).num.natAbs = ((powerParts q.num q.den m).1 ^ m.natAbs).natAbs ∧
      (q ^ m).den = ((powerParts q.num q.den m).2 ^ m.natAbs).natAbs := by
  rw [Int.natAbs_pow, Int.natAbs_pow]
  unfold powerParts
  split
  · rename_i hneg
    have hm : m = -(m.natAbs : Int) := by omega
    have hq₀ : q ≠ 0 := hq.resolve_right (by omega)
    have hpow : q ^ m = q⁻¹ ^ m.natAbs := by
      conv_lhs => rw [hm, zpow_neg, zpow_natCast, ← inv_pow]
    have hsign : q.num.sign.natAbs = 1 := Int.natAbs_sign_of_ne_zero (Rat.num_ne_zero.mpr hq₀)
    rw [hpow, Rat.num_pow, Rat.den_pow, Int.natAbs_pow, Rat.num_inv, Int.natAbs_mul, hsign,
      Nat.one_mul, Rat.den_inv_of_ne_zero hq₀]
    exact ⟨rfl, rfl⟩
  · have hm : m = (m.natAbs : Int) := by omega
    have hpow : q ^ m = q ^ m.natAbs := by
      conv_lhs => rw [hm, zpow_natCast]
    rw [hpow, Rat.num_pow, Rat.den_pow, Int.natAbs_pow]
    exact ⟨rfl, rfl⟩

/-- **A power of a fraction, if it is found, is the fraction of the power**, or its double. -/
theorem exactPower?_eq_some {q : ℚ} {m : Int} {x : Number} (hq : q ≠ 0 ∨ 0 ≤ m)
    (h : exactPower? q.num q.den m = .ok (some x)) : x = ofRat (q ^ m) := by
  obtain h | h := exactPower?_ok h
  · cases h
  · have hbelow := powerParts_snd_ne_zero (den_ne_zero q) (hq.imp_left Rat.num_ne_zero.mpr)
    rw [quotient?_eq (pow_ne_zero _ hbelow), ← zpow_eq_div] at h
    exact Option.some.inj h

/-- **A power that fits is found**: no step of the way to it refuses or stops. -/
theorem exactPower?_of_fits {q : ℚ} {m : Int} (hq : q ≠ 0 ∨ 0 ≤ m) (hm : m.natAbs < 2 ^ 32)
    (hf : Fits (q ^ m)) : exactPower? q.num q.den m = .ok (some (exact (q ^ m))) := by
  obtain ⟨hnum, hden⟩ := parts_zpow hq
  have hn := natAbs_le_of_fitsBits hf.1
  have hd := natAbs_le_of_fitsBits hf.2
  rw [hnum] at hn
  rw [Int.natAbs_natCast, hden] at hd
  have hbelow := powerParts_snd_ne_zero (den_ne_zero q) (hq.imp_left Rat.num_ne_zero.mpr)
  rw [exactPower?_eq hm, within128_of_fits (fits128_of_lt (by omega)),
    within128_of_fits (fits128_of_lt (by omega)), ← ofRat_of_fits hf, zpow_eq_div q m,
    ← quotient?_eq (pow_ne_zero _ hbelow)]
  exact strictQuotient?_eq (by omega) (by omega)

/-- Division that rounds down is the floor of the quotient. -/
theorem floor_div (a : Int) {b : Int} (hb : b ≠ 0) : ⌊(a / b : ℚ)⌋ = a.fdiv b := by
  have hpos : ∀ (a : Int) (b : Nat), ⌊(a / (b : Int) : ℚ)⌋ = a.fdiv b := by
    intro a b
    rw [Int.fdiv_eq_ediv_of_nonneg a (Int.natCast_nonneg b), Int.cast_natCast,
      Rat.floor_intCast_div_natCast]
  rcases Int.eq_nat_or_neg b with ⟨n, rfl | rfl⟩
  · exact hpos a n
  · rw [← Int.neg_fdiv_neg, Int.neg_neg, ← hpos, Int.cast_neg, Int.cast_neg, div_neg, neg_div]

/-- **The remainder of fractions is the fraction of the remainder**, or its double. -/
theorem modulo?_exact {p q : ℚ} (hq : q ≠ 0) :
    modulo? (exact p) (exact q) = some (ofRat (p - q * ⌊p / q⌋)) := by
  have hp' : (p.den : ℚ) ≠ 0 := Nat.cast_ne_zero.mpr p.den_nz
  have hq' : (q.den : ℚ) ≠ 0 := Nat.cast_ne_zero.mpr q.den_nz
  have hnum : q.num ≠ 0 := fun h => hq (Rat.num_eq_zero.mp h)
  have hfloor : ⌊p / q⌋ = (p.num * q.den).fdiv (q.num * p.den) := by
    rw [← floor_div _ (mul_ne_zero hnum (den_ne_zero p))]
    congr 1
    conv_lhs => rw [← Rat.num_div_den p, ← Rat.num_div_den q]
    push_cast
    rw [div_div_div_eq, mul_comm (p.den : ℚ)]
  have hvalue : p - q * ⌊p / q⌋ =
      (((p.num * q.den).fmod (q.num * p.den) : Int) : ℚ) / ((p.den * q.den : Int) : ℚ) := by
    rw [Int.fmod_def, hfloor]
    generalize (p.num * q.den).fdiv (q.num * p.den) = k
    conv_lhs => rw [← Rat.num_div_den p, ← Rat.num_div_den q]
    push_cast
    field_simp
  have hzero : (exact q).isZero = false := by
    rw [Bool.eq_false_iff]
    exact fun h => hq ((isZero_exact q).mp h)
  unfold modulo?
  rw [hzero, if_neg (by simp)]
  show quotient? ((p.num * q.den).fmod (q.num * p.den)) (p.den * q.den) = _
  rw [quotient?_eq (mul_ne_zero (den_ne_zero p) (den_ne_zero q)), hvalue]

end FormulaGraph.Number
