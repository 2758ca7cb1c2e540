/-
  File:      FormulaGraph/Proofs/Number/Double.lean
  Subject:   The double of a quotient of integers is not zero.

  A fraction that does not fit becomes a double. If that double could be zero, a term would get lost
  without a trace; it cannot, since integers of 128 bits and their quotients stay far inside the
  range of normal doubles. Only sizes are followed here, not values.

  * `Normal` -- a mantissa of 53 bits and an exponent within bounds;
  * `normal_round`, `normal_unpack_pack` -- rounding and storing keep it;
  * `normal_ofInt`, `normal_div` -- integers and their quotients have it;
  * `quotient_ne_zero` -- so the quotient is not zero.
-/
import Mathlib.Algebra.Order.Ring.Nat
import Mathlib.Tactic.NormNum

namespace FormulaGraph.Double

open Float.Model Float.Model.UnpackedFloat

/-- A number with a mantissa of 53 bits whose exponent lies between two bounds. -/
def Normal (lo hi : Int) (u : UnpackedFloat) : Prop :=
  ∃ s m e h, u = .finite s m e h ∧ 2 ^ 52 ≤ m ∧ m < 2 ^ 53 ∧ lo ≤ e ∧ e ≤ hi

theorem Normal.mono {lo hi lo' hi' : Int} {u : UnpackedFloat} (h : Normal lo hi u) (hlo : lo' ≤ lo)
    (hhi : hi ≤ hi') : Normal lo' hi' u := by
  obtain ⟨s, m, e, hm, hu, h₁, h₂, h₃, h₄⟩ := h
  exact ⟨s, m, e, hm, hu, h₁, h₂, by omega, by omega⟩

/-! ## 1. Rounding -/

theorem mantissa_shiftRight (em : ExtendedMantissa) (k : Nat) :
    (em >>> k).mantissa = em.mantissa / 2 ^ k := by
  induction k with
  | zero =>
    show em.mantissa = _
    simp
  | succ k ih =>
    show (em >>> k).mantissa / 2 = _
    rw [ih, Nat.div_div_eq_div_mul, Nat.pow_succ]

theorem mantissa_ofMantissaAndAccuracy (m : Nat) (a : Accuracy) :
    (ExtendedMantissa.ofMantissaAndAccuracy m a).mantissa = m := by
  rcases a with _ | _ | _ | _ <;> rfl

/-- Rounding goes up by one at most. -/
theorem roundedMantissa_bounds (em : ExtendedMantissa) :
    em.mantissa ≤ em.roundedMantissa ∧ em.roundedMantissa ≤ em.mantissa + 1 := by
  obtain ⟨m, r, s⟩ := em
  have hmod : m % 2 ≤ 1 := by omega
  cases r <;> cases s
  · exact ⟨Nat.le_refl m, Nat.le_succ m⟩
  · exact ⟨Nat.le_refl m, Nat.le_succ m⟩
  · exact ⟨Nat.le_add_right m _, Nat.add_le_add_left hmod m⟩
  · exact ⟨Nat.le_succ m, Nat.le_refl _⟩

theorem targetExponent_eq (m : Nat) (e : Int) :
    Format.binary64.targetExponent (totalExponent m e) = max ((m.log2 : Int) + e - 52) (-1074) := by
  have hm : Format.binary64.mantissaBits = 53 := by decide
  have hmin : Format.binary64.minExponent = -1074 := by decide
  rw [Format.targetExponent, totalExponent, hm, hmin]
  omega

/-- What is left of a mantissa once it is cut to 53 bits. -/
theorem shiftToTargetExponent_eq {m k : Nat} {e : Int} (a : Accuracy) (hk : m.log2 = 52 + k)
    (he : -1074 ≤ e + k) :
    shiftToTargetExponent Format.binary64 m e a =
      (ExtendedMantissa.ofMantissaAndAccuracy m a >>> k, e + k) := by
  have hshift : (Format.binary64.targetExponent (totalExponent m e) - e).toNat = k := by
    rw [targetExponent_eq]
    omega
  unfold shiftToTargetExponent shiftToExponent
  simp only [hshift]

/-- **Rounding a long mantissa gives a normal number** of the same size, or twice that if all of its
    bits carry over. -/
theorem normal_round (s : Sign) {m k : Nat} {e : Int} (a : Accuracy) (hk : m.log2 = 52 + k)
    (he : -1074 ≤ e + k) :
    Normal (e + k) (e + k + 1) (roundWithAccuracy Format.binary64 s m e a) := by
  have hm : m ≠ 0 := by
    rintro rfl
    simp at hk
    omega
  obtain ⟨hlow, hhigh⟩ := (Nat.log2_eq_iff hm).mp hk
  -- the mantissa that is left has 53 bits
  have hcut : 2 ^ 52 ≤ m / 2 ^ k ∧ m / 2 ^ k < 2 ^ 53 := by
    constructor
    · rw [Nat.le_div_iff_mul_le (Nat.two_pow_pos k), ← Nat.pow_add]
      exact hlow
    · rw [Nat.div_lt_iff_lt_mul (Nat.two_pow_pos k), ← Nat.pow_add]
      exact hhigh.trans_eq (by congr 1; omega)
  unfold roundWithAccuracy
  rw [shiftToTargetExponent_eq a hk he]
  obtain ⟨hr₁, hr₂⟩ := roundedMantissa_bounds (ExtendedMantissa.ofMantissaAndAccuracy m a >>> k)
  rw [mantissa_shiftRight, mantissa_ofMantissaAndAccuracy] at hr₁ hr₂
  dsimp only
  generalize (ExtendedMantissa.ofMantissaAndAccuracy m a >>> k).roundedMantissa = r at hr₁ hr₂ ⊢
  have hr : r ≠ 0 := by
    have := Nat.two_pow_pos 52
    omega
  by_cases hcarry : r < 2 ^ 53
  · have hlog : r.log2 = 52 + 0 := (Nat.log2_eq_iff hr).mpr ⟨by omega, hcarry⟩
    rw [shiftToTargetExponent_eq .exact hlog (by omega)]
    have hz : (ExtendedMantissa.ofMantissaAndAccuracy r .exact >>> (0 : Nat)).mantissa = r := by
      rw [mantissa_shiftRight, mantissa_ofMantissaAndAccuracy, Nat.pow_zero, Nat.div_one]
    refine ⟨s, _, _, _, dif_neg (by rw [hz]; exact hr), ?_, ?_, by omega, by omega⟩
    · rw [hz]
      omega
    · rw [hz]
      exact hcarry
  · obtain rfl : r = 2 ^ 53 := by omega
    have hlog : (2 ^ 53).log2 = 52 + 1 := by rw [Nat.log2_two_pow]
    rw [shiftToTargetExponent_eq .exact hlog (by omega)]
    have hz : (ExtendedMantissa.ofMantissaAndAccuracy (2 ^ 53) .exact >>> (1 : Nat)).mantissa =
        2 ^ 52 := by
      rw [mantissa_shiftRight, mantissa_ofMantissaAndAccuracy]
      norm_num
    refine ⟨s, _, _, _, dif_neg (by rw [hz]; decide), ?_, ?_, by omega, by omega⟩
    · rw [hz]
    · rw [hz]
      decide

/-! ## 2. Storing -/

/-- A mantissa of 53 bits is its leading one and the 52 bits that are stored. -/
theorem toNat_append_mantissa {m : Nat} (h₁ : 2 ^ 52 ≤ m) (h₂ : m < 2 ^ 53) :
    (1#1 ++ BitVec.ofNat 52 m).toNat = m := by
  rw [BitVec.toNat_append, ← Nat.shiftLeft_add_eq_or_of_lt (BitVec.isLt _), Nat.shiftLeft_eq]
  simp only [BitVec.toNat_ofNat]
  omega

/-- An exponent that is neither that of zero nor that of infinity is read with a leading one. -/
theorem unpack_eq_finite {b : BitVec Format.binary64.numBits} (h₁ : unpackExponent b ≠ -1#11)
    (h₂ : unpackExponent b ≠ 0#11) :
    ∃ s h, UnpackedFloat.unpack Format.binary64 b =
      .finite s (1#1 ++ unpackMantissa b).toNat
        ((unpackExponent b).toNat - ((Format.binary64.exponentBias : Int) + (52 : Nat))) h :=
  ⟨_, _, (if_neg h₁).trans (if_neg h₂)⟩

/-- **A normal number is read back as it was stored.** -/
theorem normal_unpack_pack {lo hi : Int} {u : UnpackedFloat} (h : Normal lo hi u)
    (hlo : -1074 ≤ lo) (hhi : hi ≤ 971) : Normal lo hi (Float.Model.pack u).unpack := by
  obtain ⟨s, m, e, hm, rfl, h₁, h₂, h₃, h₄⟩ := h
  have hlog : m.log2 + 1 = Format.binary64.mantissaBits := by
    have : m.log2 = 52 := (Nat.log2_eq_iff (Nat.ne_of_gt hm)).mpr ⟨h₁, h₂⟩
    rw [this]
    decide
  obtain ⟨b, hb⟩ : ∃ b : Nat, e = (b : Int) - 1075 := ⟨(e + 1075).toNat, by omega⟩
  have hbias : (Format.binary64.exponentBias : Int) = 1023 := by decide
  have hstored : (e + (Format.binary64.exponentBias : Int) + (52 : Nat)).toNat = b := by
    rw [hbias]
    omega
  have hexp : (BitVec.ofNat 11 b).toNat = b := by
    rw [BitVec.toNat_ofNat, Nat.mod_eq_of_lt (by omega)]
  have hne : BitVec.ofNat 11 b ≠ 0#11 := fun he => by
    have := congrArg BitVec.toNat he
    rw [hexp] at this
    simp at this
    omega
  have hninf : BitVec.ofNat 11 b ≠ -1#11 := fun he => by
    have := congrArg BitVec.toNat he
    rw [hexp] at this
    simp at this
    omega
  have hpack : UnpackedFloat.pack Format.binary64 (.finite s m e hm) =
      packComponents Format.binary64 s (BitVec.ofNat 11 b) (BitVec.ofNat 52 m) := by
    unfold UnpackedFloat.pack
    simp only [hstored, hlog, if_true]
    rw [if_neg (by omega)]
  have hbits : (Float.Model.pack (.finite s m e hm)).unpack =
      UnpackedFloat.unpack Format.binary64
        (packComponents Format.binary64 s (BitVec.ofNat 11 b) (BitVec.ofNat 52 m)) := by
    rw [← hpack]
    rfl
  have hexponent : unpackExponent (packComponents Format.binary64 s (BitVec.ofNat 11 b)
      (BitVec.ofNat 52 m)) = BitVec.ofNat 11 b := unpackExponent_packComponents
  have hmantissa : unpackMantissa (packComponents Format.binary64 s (BitVec.ofNat 11 b)
      (BitVec.ofNat 52 m)) = BitVec.ofNat 52 m := unpackMantissa_packComponents
  obtain ⟨s', hm', hunpack⟩ :=
    unpack_eq_finite (hexponent.trans_ne hninf) (hexponent.trans_ne hne)
  rw [hbits, hunpack]
  refine ⟨s', _, _, hm', rfl, ?_, ?_, ?_, ?_⟩
  · rw [hmantissa, toNat_append_mantissa h₁ h₂]
    exact h₁
  · rw [hmantissa, toNat_append_mantissa h₁ h₂]
    exact h₂
  · rw [hexponent, hexp, hbias]
    omega
  · rw [hexponent, hexp, hbias]
    omega

/-! ## 3. Arithmetic -/

/-- A product of two normal numbers is normal. -/
theorem normal_mul {lo hi lo' hi' : Int} {u v : UnpackedFloat} (hu : Normal lo hi u)
    (hv : Normal lo' hi' v) (h : -1126 ≤ lo + lo') :
    Normal (lo + lo' + 52) (hi + hi' + 54) (UnpackedFloat.mul Format.binary64 u v) := by
  obtain ⟨s, m, e, hm, rfl, h₁, h₂, h₃, h₄⟩ := hu
  obtain ⟨s', m', e', hm', rfl, h₁', h₂', h₃', h₄'⟩ := hv
  show Normal _ _ (roundWithAccuracy Format.binary64 (s * s') (m * m') (e + e') .exact)
  have hlow : 2 ^ 104 ≤ m * m' := le_trans (by norm_num) (Nat.mul_le_mul h₁ h₁')
  have hhigh : m * m' < 2 ^ 106 :=
    lt_of_lt_of_eq (Nat.mul_lt_mul_of_lt_of_le h₂ (Nat.le_of_lt h₂') (by norm_num)) (by norm_num)
  have hne : m * m' ≠ 0 := by omega
  by_cases hbit : m * m' < 2 ^ 105
  · have hlog : (m * m').log2 = 52 + 52 := (Nat.log2_eq_iff hne).mpr ⟨hlow, hbit⟩
    exact (normal_round _ .exact hlog (by omega)).mono (by omega) (by omega)
  · have hlog : (m * m').log2 = 52 + 53 := (Nat.log2_eq_iff hne).mpr ⟨by omega, hhigh⟩
    exact (normal_round _ .exact hlog (by omega)).mono (by omega) (by omega)

/-- A quotient of two normal numbers is normal. -/
theorem normal_div {lo hi lo' hi' : Int} {u v : UnpackedFloat} (hu : Normal lo hi u)
    (hv : Normal lo' hi' v) (h : -1021 ≤ lo - hi') :
    Normal (lo - hi' - 53) (hi - lo' - 51) (UnpackedFloat.div Format.binary64 u v) := by
  obtain ⟨s, m, e, hm, rfl, h₁, h₂, h₃, h₄⟩ := hu
  obtain ⟨s', m', e', hm', rfl, h₁', h₂', h₃', h₄'⟩ := hv
  have hlog : m.log2 = 52 := (Nat.log2_eq_iff (Nat.ne_of_gt hm)).mpr ⟨h₁, h₂⟩
  have hlog' : m'.log2 = 52 := (Nat.log2_eq_iff (Nat.ne_of_gt hm')).mpr ⟨h₁', h₂'⟩
  -- the numerator is moved up by 53 places, so the quotient keeps 53 bits or one more
  have htarget : min (e - e')
      (Format.binary64.targetExponent (totalExponent m e - totalExponent m' e')) = e - e' - 53 := by
    have hm : Format.binary64.mantissaBits = 53 := by decide
    have hmin : Format.binary64.minExponent = -1074 := by decide
    rw [Format.targetExponent, totalExponent, totalExponent, hlog, hlog', hm, hmin]
    omega
  have hshift : (e - e' - (e - e' - 53)).toNat = 53 := by omega
  have hcore : UnpackedFloat.divCore Format.binary64 m e m' e' =
      (m <<< 53 / m', e - e' - 53, accuracyOfFraction (m <<< 53 % m') m') := by
    unfold UnpackedFloat.divCore
    simp only [htarget, hshift]
  show Normal _ _ (roundWithAccuracy Format.binary64 (s / s')
    (UnpackedFloat.divCore Format.binary64 m e m' e').1
    (UnpackedFloat.divCore Format.binary64 m e m' e').2.1
    (UnpackedFloat.divCore Format.binary64 m e m' e').2.2)
  rw [hcore, Nat.shiftLeft_eq]
  dsimp only
  have hlow : 2 ^ 52 ≤ m * 2 ^ 53 / m' := by
    rw [Nat.le_div_iff_mul_le hm']
    calc 2 ^ 52 * m' ≤ 2 ^ 52 * 2 ^ 53 := Nat.mul_le_mul_left _ (Nat.le_of_lt h₂')
      _ ≤ m * 2 ^ 53 := Nat.mul_le_mul_right _ h₁
  have hhigh : m * 2 ^ 53 / m' < 2 ^ 54 := by
    rw [Nat.div_lt_iff_lt_mul hm']
    calc m * 2 ^ 53 < 2 ^ 53 * 2 ^ 53 := Nat.mul_lt_mul_of_pos_right h₂ (by norm_num)
      _ = 2 ^ 54 * 2 ^ 52 := by norm_num
      _ ≤ 2 ^ 54 * m' := Nat.mul_le_mul_left _ h₁'
  generalize m * 2 ^ 53 / m' = q at hlow hhigh ⊢
  have hq : q ≠ 0 := by omega
  by_cases hbit : q < 2 ^ 53
  · have hlogq : q.log2 = 52 + 0 := (Nat.log2_eq_iff hq).mpr ⟨hlow, hbit⟩
    exact (normal_round _ _ hlogq (by omega)).mono (by omega) (by omega)
  · have hlogq : q.log2 = 52 + 1 := (Nat.log2_eq_iff hq).mpr ⟨by omega, hhigh⟩
    exact (normal_round _ _ hlogq (by omega)).mono (by omega) (by omega)

/-! ## 4. Integers and their quotients -/

/-- Moving a mantissa up keeps its leading bit. -/
theorem log2_mul_two_pow {n : Nat} (hn : n ≠ 0) (k : Nat) : (n * 2 ^ k).log2 = n.log2 + k := by
  obtain ⟨hlow, hhigh⟩ := (Nat.log2_eq_iff hn).mp rfl
  refine (Nat.log2_eq_iff (Nat.mul_ne_zero hn (Nat.two_pow_pos k).ne')).mpr ⟨?_, ?_⟩
  · rw [Nat.pow_add]
    exact Nat.mul_le_mul_right _ hlow
  · rw [Nat.add_right_comm, Nat.pow_add]
    exact Nat.mul_lt_mul_of_pos_right hhigh (Nat.two_pow_pos k)

/-- An integer of at most 53 bits. -/
theorem normal_toFloat {n : Nat} (hn : n ≠ 0) (h : n < 2 ^ 53) :
    Normal (-52) 1 (n.toUInt64.toFloat).toModel.unpack := by
  have hnat : n.toUInt64.toNat = n := by
    show n % 2 ^ 64 = n
    omega
  have hround : UnpackedFloat.ofUInt64 Format.binary64 n.toUInt64 =
      UnpackedFloat.round Format.binary64 .positive n 0 := by
    have hpos : compare (n : Int) 0 = .gt := by
      rw [Int.compare_eq_gt]
      omega
    show UnpackedFloat.normalize Format.binary64 (n.toUInt64.toNat : Int) 0 .positive = _
    rw [hnat]
    unfold UnpackedFloat.normalize
    rw [hpos]
    rfl
  have hlog : n.log2 ≤ 52 := Nat.le_of_lt_succ ((Nat.log2_lt hn).mpr h)
  -- the mantissa is moved up until it has 53 bits
  have hshift : ((0 : Int) - Format.binary64.targetExponent (totalExponent n 0)).toNat =
      52 - n.log2 := by
    rw [targetExponent_eq]
    omega
  have hlog' : (n <<< (52 - n.log2)).log2 = 52 + 0 := by
    rw [Nat.shiftLeft_eq, log2_mul_two_pow hn]
    omega
  show Normal _ _ (Float.Model.pack (UnpackedFloat.ofUInt64 Format.binary64 n.toUInt64)).unpack
  refine normal_unpack_pack ?_ (by norm_num) (by norm_num)
  rw [hround]
  unfold UnpackedFloat.round decreaseExponent
  simp only [hshift]
  exact (normal_round _ .exact hlog' (by omega)).mono (by omega) (by omega)

/-- The double `1.0`, by which a short integer is multiplied. -/
theorem normal_one : Normal (-52) (-52) (Float.ofBits 4607182418800017408).toModel.unpack :=
  ⟨.positive, 2 ^ 52, -52, Nat.two_pow_pos 52, rfl, by norm_num, by norm_num, by norm_num,
    by norm_num⟩

/-- **A positive integer of 128 bits is a normal double.** -/
theorem normal_ofNat {n : Nat} (hn : n ≠ 0) (h : n < 2 ^ 128) :
    Normal (-52) 77 (Float.ofNat n).toModel.unpack := by
  by_cases hshort : n < 2 ^ 53
  · have hfloat : (Float.ofNat n).toModel =
        Float.Model.mul n.toUInt64.toFloat.toModel (Float.ofBits 4607182418800017408).toModel := by
      show (Float.ofScientific n false 0).toModel = _
      unfold Float.ofScientific
      rw [dif_pos ⟨hshort, by norm_num⟩]
      rfl
    rw [hfloat]
    refine (normal_unpack_pack (normal_mul (normal_toFloat hn hshort) normal_one (by norm_num)) ?_
      ?_).mono ?_ ?_ <;> norm_num
  · have hlog₁ : 53 ≤ n.log2 := (Nat.le_log2 hn).mpr (by omega)
    have hlog₂ : n.log2 ≤ 127 := Nat.le_of_lt_succ ((Nat.log2_lt hn).mpr h)
    have hfloat : (Float.ofNat n).toModel = Float.Model.pack
        (roundWithAccuracy Format.binary64 .positive (n <<< 53 * 10 ^ 0) (-53 + 0) .exact) := by
      show (Float.ofScientific n false 0).toModel = _
      unfold Float.ofScientific
      rw [dif_neg (by omega)]
      show Float.Model.pack (UnpackedFloat.ofScientific Format.binary64 n 0) = _
      have hbits : (0 : Int) < 2 ^ Format.binary64.exponentBits := by decide
      unfold UnpackedFloat.ofScientific
      rw [dif_neg hn, if_neg (by omega), if_neg (by omega), if_pos (by norm_num)]
      rfl
    have hlog : (n <<< 53 * 10 ^ 0).log2 = 52 + (n.log2 + 1) := by
      rw [Nat.shiftLeft_eq, Nat.pow_zero, Nat.mul_one, log2_mul_two_pow hn]
      omega
    rw [hfloat]
    refine (normal_unpack_pack (normal_round _ .exact hlog ?_) ?_ ?_).mono ?_ ?_ <;>
      push_cast <;> omega

theorem normal_neg {lo hi : Int} {u : UnpackedFloat} (h : Normal lo hi u) : Normal lo hi u.neg := by
  obtain ⟨s, m, e, hm, rfl, hb⟩ := h
  exact ⟨-s, m, e, hm, rfl, hb⟩

theorem normal_ofInt {n : Int} (hn : n ≠ 0) (h : n.natAbs < 2 ^ 128) :
    Normal (-52) 77 (Float.ofInt n).toModel.unpack := by
  cases n with
  | ofNat n => exact normal_ofNat (fun h₀ => hn (congrArg Int.ofNat h₀)) h
  | negSucc n =>
    exact normal_unpack_pack (normal_neg (normal_ofNat n.succ_ne_zero h)) (by norm_num)
      (by norm_num)

/-- A normal number is not zero. -/
theorem Normal.beq_zero {lo hi : Int} {x : Float} (h : Normal lo hi x.toModel.unpack) :
    (x == 0.0) = false := by
  obtain ⟨s, m, e, hm, hu, -⟩ := h
  have hzero : (0.0 : Float).toModel.unpack = .zero .positive := rfl
  show UnpackedFloat.beq x.toModel.unpack (0.0 : Float).toModel.unpack = false
  rw [hu, hzero]
  cases s <;> rfl

/-- A normal number is no infinity. -/
theorem Normal.isInf_eq_false {lo hi : Int} {x : Float} (h : Normal lo hi x.toModel.unpack) :
    x.isInf = false := by
  obtain ⟨s, m, e, hm, hu, -⟩ := h
  show x.toModel.unpack.isInf = false
  rw [hu]
  rfl

/-- **The quotient of two integers of 128 bits is not rounded to zero.** -/
theorem quotient_ne_zero {n d : Int} (hn : n ≠ 0) (hd : d ≠ 0) (hn' : n.natAbs < 2 ^ 128)
    (hd' : d.natAbs < 2 ^ 128) : (Float.ofInt n / Float.ofInt d == 0.0) = false := by
  have hdiv := normal_div (normal_ofInt hn hn') (normal_ofInt hd hd') (by norm_num)
  exact (normal_unpack_pack hdiv (by norm_num) (by norm_num)).beq_zero

end FormulaGraph.Double
