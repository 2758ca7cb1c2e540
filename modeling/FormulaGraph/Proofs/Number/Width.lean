/-
  File:      FormulaGraph/Proofs/Number/Width.lean
  Subject:   Folding on integers of 128 bits.

  The arithmetic of fractions works on unbounded integers; only a power looks at its size, before it
  changes signs. The program of this file takes the same steps one operation at a time, and hands
  the exact result of each to a function `fit`, which says what becomes of it on a machine: a result
  that fits stays as it is, and of any other nothing is known. Where the arithmetic gives a result,
  the program gives the same whatever `fit` does, so no result on the way has more than 128 bits.
  For one power the arithmetic stops, and so does the machine that stops at a result that does not
  fit.

  * `Wide.gcd`, `Wide.quotient`, `Wide.sum`, `Wide.product`, `Wide.power`, `Wide.remainder` -- the
    program; `strict`, `wrap` -- a machine that stops at a result that does not fit, and one that
    drops bits;
  * `Obtained` -- the numbers that arithmetic leads to; they are well-formed;
  * `Wide.gcd_eq`, `Wide.quotient_eq` -- Euclid's loop and cancelling stay within 128 bits;
  * `Operation.run_eq` -- so do the operations that give a result; `strict_power_least`,
    `wrap_power_least` -- the power that stops;
  * `folding_overflow` -- the arithmetic is the machine that stops, and stops for that power only.
-/
import FormulaGraph.Proofs.Number.Arithmetic

namespace FormulaGraph.Number

/-! ## 1. The program -/

namespace Wide

section

variable {m : Type → Type} [Monad m] (fit : Int → m Int)

/-- The quotient of two integers, rounded toward zero. -/
def quot (a b : Int) : m Int := fit (a.tdiv b)

/-- The remainder that goes with `quot`; a machine computes both. -/
def rem (a b : Int) : m Int := do
  let _ ← quot fit a b
  fit (a.tmod b)

/-- The remainder that is not negative. -/
def remEuclid (a b : Int) : m Int := do
  let _ ← quot fit a b
  fit (a % b)

/-- The remainder with the sign of the divisor: the one that is not negative, moved down by a
    negative divisor. -/
def remFloor (a b : Int) : m Int := do
  let r ← remEuclid fit a b
  if b < 0 ∧ r ≠ 0 then fit (r + b) else return r

/-- Euclid's loop. A remainder is smaller than its divisor, so it always fits, and the loop goes on
    with it as it is. -/
def gcd (a b : Int) : m Int :=
  if b = 0 then fit a.natAbs
  else do
    let _ ← rem fit a b
    gcd b (a.tmod b)
termination_by b.natAbs
decreasing_by
  rw [Int.natAbs_tmod]
  exact Nat.mod_lt _ (by omega)

/-- `quotient?`, step by step. -/
def quotient (numer denom : Int) : m (Option Number) :=
  if denom = 0 then return none
  else do
    let sign : Int := if denom < 0 then -1 else 1
    let divisor := max (← gcd fit numer denom) 1
    let n ← quot fit (← fit (sign * numer)) divisor
    let d ← quot fit (← fit (sign * denom)) divisor
    if fitsBits 64 n && fitsBits 64 d then return some (rational n d)
    else return some (float (.ofFloat (Float.ofInt n / Float.ofInt d)))

/-- `Number.add`, step by step. -/
def sum : Number → Number → m Number
  | rational a b, rational c d => do
    let numer ← fit ((← fit (a * d)) + (← fit (c * b)))
    let result ← quotient fit numer (← fit (b * d))
    return result.getD (float .nan)
  | x, y => return x.add y

/-- `Number.mul`, step by step. -/
def product : Number → Number → m Number
  | rational a b, rational c d => do
    let numer ← fit (a * c)
    let result ← quotient fit numer (← fit (b * d))
    return result.getD (float .nan)
  | x, y => return x.mul y

/-- `exactPower?`, step by step. A power that does not fit is refused here, not handed to `fit`. -/
def exactPower (numer denom exponent : Int) : m (Option Number) :=
  if exponent.natAbs < Nat.pow 2 32 then
    let (above, below) := if exponent < 0 then (denom, numer) else (numer, denom)
    match checkedPower above 32 exponent.natAbs, checkedPower below 32 exponent.natAbs with
    | some n, some d => quotient fit n d
    | _, _ => return none
  else return none

/-- `Number.pow?`, step by step. -/
def power (base exponent : Number) : m (Option Number) :=
  if base.isZero && exponent.isNegative then return none
  else
    let power := Scalar.combine Float.pow base.toScalar exponent.toScalar
    match base, exponent with
    | rational numer denom, rational e f =>
      if f = 1 then do
        let exact ← exactPower fit numer denom e
        return some (exact.getD (float power))
      else return none
    | _, _ => return if power.value.isNaN then none else some (float power)

/-- `Number.modulo?`, step by step. -/
def remainder : Number → Number → m (Option Number)
  | rational a b, rational c d =>
    if (rational c d).isZero then return none
    else do
      let divisor ← fit (c * b)
      let r ← remFloor fit (← fit (a * d)) divisor
      quotient fit r (← fit (b * d))
  | x, y => return x.modulo? y

end

end Wide

/-- The machine that keeps the last 128 bits of a result. -/
def wrap (n : Int) : Id Int := n.bmod (2 ^ 128)

/-- The operations of folding. -/
inductive Operation where
  | add
  | mul
  | pow
  | modulo
  deriving DecidableEq, Repr

namespace Operation

def result? : Operation → Number → Number → Except Overflow (Option Number)
  | add, x, y => .ok (some (x.add y))
  | mul, x, y => .ok (some (x.mul y))
  | pow, x, y => x.pow? y
  | modulo, x, y => .ok (x.modulo? y)

/-- The operation on a machine. -/
def run {m : Type → Type} [Monad m] (fit : Int → m Int) :
    Operation → Number → Number → m (Option Number)
  | add, x, y => some <$> Wide.sum fit x y
  | mul, x, y => some <$> Wide.product fit x y
  | pow, x, y => Wide.power fit x y
  | modulo, x, y => Wide.remainder fit x y

theorem result?_wellFormed {op : Operation} {x y z : Number} (h : op.result? x y = .ok (some z)) :
    z.WellFormed := by
  cases op with
  | add =>
    cases h
    exact add_wellFormed x y
  | mul =>
    cases h
    exact mul_wellFormed x y
  | pow => exact pow?_wellFormed h
  | modulo => exact modulo?_wellFormed (Except.ok.inj h)

end Operation

/-- The numbers that operations lead to from quotients of 64-bit integers and from doubles. -/
inductive Obtained : Number → Prop where
  | quotient {n d : Int} {x : Number} (hn : fitsBits 64 n = true) (hd : fitsBits 64 d = true)
      (h : quotient? n d = some x) : Obtained x
  | float (value : Scalar) : Obtained (float value)
  | step {op : Operation} {x y z : Number} (hx : Obtained x) (hy : Obtained y)
      (h : op.result? x y = .ok (some z)) : Obtained z

theorem Obtained.wellFormed {x : Number} (h : Obtained x) : x.WellFormed := by
  cases h with
  | quotient _ _ h => exact quotient?_wellFormed h
  | float value => trivial
  | step _ _ h => exact Operation.result?_wellFormed h

theorem obtained_ofInt {n : Int} (h : fitsBits 64 n = true) : Obtained (ofInt n) :=
  .quotient h (d := 1) (by decide) (by
    rw [quotient?_eq (by decide), Int.cast_one, div_one, ofRat_intCast h])

/-! ## 2. Sizes -/

/-- Only one quotient does not fit. -/
theorem fits128_tdiv {a b : Int} (ha : fitsBits 128 a = true) (h : a = least128 → b ≠ -1) :
    fitsBits 128 (a.tdiv b) = true := by
  have hle := Int.natAbs_tdiv_le_natAbs a b
  rcases fits128_iff.mp ha with hlt | rfl
  · exact fits128_of_lt (by omega)
  · by_cases hone : b = 1
    · rw [hone, Int.tdiv_one]
      exact ha
    · refine fits128_of_lt ?_
      rw [Int.natAbs_tdiv]
      by_cases hzero : b = 0
      · rw [hzero]
        decide
      · have hb : 2 ≤ b.natAbs := by
          have := h rfl
          omega
        calc least128.natAbs / b.natAbs ≤ least128.natAbs / 2 := Nat.div_le_div_left hb (by decide)
          _ < 2 ^ 127 := by decide

theorem natAbs_tmod_lt (a : Int) {b : Int} (hb : b ≠ 0) : (a.tmod b).natAbs < b.natAbs := by
  rw [Int.natAbs_tmod]
  exact Nat.mod_lt _ (by omega)

/-- A part times a denominator has 126 bits and a sign. -/
theorem natAbs_mul_den_lt {a d : Int} (ha : fitsBits 64 a = true) (hd : fitsBits 64 d = true)
    (hpos : 0 < d) : (a * d).natAbs < 2 ^ 126 := by
  have hden : d.natAbs ≤ 2 ^ 63 - 1 := by
    rw [fitsBits_iff] at hd
    omega
  rw [Int.natAbs_mul]
  calc a.natAbs * d.natAbs ≤ 2 ^ 63 * (2 ^ 63 - 1) := Nat.mul_le_mul (natAbs_le_of_fitsBits ha) hden
    _ < 2 ^ 126 := by decide

/-! ## 3. The program on any machine -/

/-- A machine that leaves alone what fits. -/
def KeepsFitting {m : Type → Type} [Monad m] (fit : Int → m Int) : Prop :=
  ∀ n, fitsBits 128 n = true → fit n = pure n

theorem strict_keepsFitting : KeepsFitting strict := fun _ h => if_pos h

theorem wrap_keepsFitting : KeepsFitting wrap := by
  intro n h
  rw [fitsBits_iff] at h
  exact Int.bmod_eq_of_le_mul_two (by omega) (by omega)

namespace Wide

variable {m : Type → Type} [Monad m] {fit : Int → m Int}

theorem quot_eq (hfit : KeepsFitting fit) {a b : Int} (ha : fitsBits 128 a = true)
    (h : a = least128 → b ≠ -1) : quot fit a b = pure (a.tdiv b) :=
  hfit _ (fits128_tdiv ha h)

variable [LawfulMonad m]

theorem rem_eq (hfit : KeepsFitting fit) {a b : Int} (ha : fitsBits 128 a = true)
    (hb : fitsBits 128 b = true) (hb₀ : b ≠ 0) (h : a = least128 → b ≠ -1) :
    rem fit a b = pure (a.tmod b) := by
  have hlt := natAbs_tmod_lt a hb₀
  rw [rem, quot_eq hfit ha h, pure_bind]
  refine hfit _ (fits128_of_lt ?_)
  rcases fits128_iff.mp hb with hb | rfl
  · omega
  · exact hlt

/-- **Euclid's loop stays within 128 bits**, if the least integer meets a positive one only: then it
    is never divided by `-1`, and it is not left at the end. -/
theorem gcd_eq (hfit : KeepsFitting fit) {a b : Int} (ha : fitsBits 128 a = true)
    (hb : fitsBits 128 b = true) (hab : a = least128 → 0 < b) (hba : b = least128 → 0 < a) :
    gcd fit a b = pure (Int.gcd a b : Int) := by
  induction hk : b.natAbs using Nat.strong_induction_on generalizing a b with
  | _ k ih =>
    unfold gcd
    split
    · rename_i hb₀
      have ha' : a ≠ least128 := fun h => by
        have := hab h
        omega
      rw [hb₀, Int.gcd_zero_right]
      exact hfit _ (fits128_of_lt (by
        rw [Int.natAbs_natCast]
        exact (fits128_iff.mp ha).resolve_right ha'))
    · rename_i hb₀
      have hlt := natAbs_tmod_lt a hb₀
      have hmod : (a.tmod b).natAbs < 2 ^ 127 := by
        rcases fits128_iff.mp hb with hb | rfl
        · omega
        · exact hlt
      have hnext : b = least128 → 0 < a.tmod b := by
        -- a positive integer of 128 bits is its own remainder
        intro h
        have hpos := hba h
        have hsmall : a < 2 ^ 127 := (fitsBits_iff.mp ha).2
        have : a.tmod b = a := by
          rw [h, least128, Int.tmod_neg]
          exact Int.tmod_eq_of_lt (by omega) hsmall
        omega
      rw [rem_eq hfit ha hb hb₀ (fun h => by have := hab h; omega), pure_bind,
        ih _ (by omega) hb (fits128_of_lt hmod) hnext (fun h => by
          rw [h] at hmod
          exact absurd hmod (by decide)) rfl]
      have hgcd : Int.gcd b (a.tmod b) = Int.gcd a b := by
        rw [Int.gcd_def, Int.gcd_def, Int.natAbs_tmod, Nat.gcd_comm, ← Nat.gcd_rec, Nat.gcd_comm]
      rw [hgcd]

/-- **Cancelling stays within 128 bits** if both parts fit after the change of sign. -/
theorem quotient_eq (hfit : KeepsFitting fit) {n d : Int} {x? : Option Number}
    (hn : fitsBits 128 n = true) (hd : fitsBits 128 d = true) (hd₀ : d ≠ 0)
    (h : strictQuotient? n d = .ok x?) : quotient fit n d = pure x? := by
  obtain ⟨hsn, hsd, rfl⟩ := strictQuotient?_eq_ok_iff.mp h
  have hg : (0 : Int) < Int.gcd n d := Int.natCast_pos.mpr (Int.gcd_pos_of_ne_zero_right n hd₀)
  -- a part without an opposite keeps its sign, and then the denominator is positive
  have hpos : n = least128 ∨ d = least128 → 0 < d := by
    intro hleast
    by_contra hneg
    rw [if_pos (by omega), fitsBits_iff] at hsn hsd
    unfold least128 at hleast
    omega
  have hleast : d ≠ least128 := fun h => absurd (h ▸ hpos (.inr h)) (by decide)
  obtain ⟨s, hs⟩ : ∃ s : Int, s = if d < 0 then -1 else 1 := ⟨_, rfl⟩
  rw [← hs] at hsn hsd
  have hcut : ∀ x : Int, fitsBits 128 x = true → (Int.gcd n d : Int) ∣ x →
      quot fit x (Int.gcd n d) = pure (x / Int.gcd n d) := by
    intro x hx hdvd
    rw [quot_eq hfit hx (fun _ => by omega), Int.tdiv_eq_ediv_of_dvd hdvd]
  have hmax : max (Int.gcd n d : Int) 1 = Int.gcd n d := max_eq_left (by omega)
  unfold quotient quotient?
  simp only [if_neg hd₀, ← hs,
    gcd_eq hfit hn hd (fun h => hpos (.inl h)) (fun h => absurd h hleast), pure_bind, hmax,
    hfit _ hsn, hfit _ hsd,
    hcut _ hsn ((Int.gcd_dvd_left n d).mul_left s), hcut _ hsd ((Int.gcd_dvd_right n d).mul_left s)]
  split <;> rfl

/-- A positive denominator is never in the way. -/
theorem quotient_eq_of_pos (hfit : KeepsFitting fit) {n d : Int} (hn : fitsBits 128 n = true)
    (hd : d.natAbs < 2 ^ 127) (hpos : 0 < d) : quotient fit n d = pure (quotient? n d) :=
  quotient_eq hfit hn (fits128_of_lt hd) hpos.ne' (strictQuotient?_eq_ok_iff.mpr (by
    rw [if_neg hpos.not_gt, Int.one_mul, Int.one_mul]
    exact ⟨hn, fits128_of_lt hd, rfl⟩))

/-! ## 4. Sums, products and remainders -/

theorem sum_eq (hfit : KeepsFitting fit) {x y : Number} (hx : x.WellFormed) (hy : y.WellFormed) :
    sum fit x y = pure (x.add y) := by
  match x, y, hx, hy with
  | rational a b, rational c d, ⟨hb, _, ha, hb'⟩, ⟨hd, _, hc, hd'⟩ =>
    have had := natAbs_mul_den_lt ha hd' hd
    have hcb := natAbs_mul_den_lt hc hb' hb
    have hbd := natAbs_mul_den_lt hb' hd' hd
    have hsum := Int.natAbs_add_le (a * d) (c * b)
    show (fit (a * d) >>= fun _ => _) = _
    rw [hfit _ (fits128_of_lt (by omega)), pure_bind, hfit _ (fits128_of_lt (by omega)), pure_bind,
      hfit _ (fits128_of_lt (by omega)), pure_bind, hfit _ (fits128_of_lt (by omega)), pure_bind,
      quotient_eq_of_pos hfit (fits128_of_lt (by omega)) (by omega) (mul_pos hb hd), pure_bind]
    rfl
  | .float _, _, _, _ => rfl
  | rational _ _, .float _, _, _ => rfl

theorem product_eq (hfit : KeepsFitting fit) {x y : Number} (hx : x.WellFormed)
    (hy : y.WellFormed) :
    product fit x y = pure (x.mul y) := by
  match x, y, hx, hy with
  | rational a b, rational c d, ⟨hb, _, ha, hb'⟩, ⟨hd, _, hc, hd'⟩ =>
    have hac := natAbs_mul_le ha hc
    have hbd := natAbs_mul_den_lt hb' hd' hd
    show (fit (a * c) >>= fun _ => _) = _
    rw [hfit _ (fits128_of_lt (by omega)), pure_bind, hfit _ (fits128_of_lt (by omega)), pure_bind,
      quotient_eq_of_pos hfit (fits128_of_lt (by omega)) (by omega) (mul_pos hb hd), pure_bind]
    rfl
  | .float _, _, _, _ => rfl
  | rational _ _, .float _, _, _ => rfl

theorem natAbs_emod_lt (a : Int) {b : Int} (hb : b ≠ 0) : (a % b).natAbs < b.natAbs := by
  have hnonneg := Int.emod_nonneg a hb
  have hlt := Int.emod_lt_abs a hb
  rw [Int.abs_eq_natAbs] at hlt
  omega

/-- The remainder with the sign of the divisor, told by the one that is not negative. -/
theorem fmod_eq_ite (a b : Int) :
    a.fmod b = if b < 0 ∧ a % b ≠ 0 then a % b + b else a % b := by
  rw [Int.fmod_eq_emod]
  by_cases hdvd : b ∣ a
  · rw [if_pos (.inr hdvd), if_neg fun h => h.2 (Int.emod_eq_zero_of_dvd hdvd), Int.add_zero]
  · have hne : a % b ≠ 0 := fun h => hdvd (Int.dvd_of_emod_eq_zero h)
    by_cases hb : b < 0
    · rw [if_neg (by omega), if_pos ⟨hb, hne⟩]
    · rw [if_pos (.inl (by omega)), if_neg fun h => hb h.1, Int.add_zero]

theorem natAbs_fmod_lt (a : Int) {b : Int} (hb : b ≠ 0) : (a.fmod b).natAbs < b.natAbs := by
  have hnonneg := Int.emod_nonneg a hb
  have hlt := natAbs_emod_lt a hb
  rw [fmod_eq_ite]
  split <;> omega

theorem remFloor_eq (hfit : KeepsFitting fit) {a b : Int} (ha : a.natAbs < 2 ^ 127)
    (hb : b.natAbs < 2 ^ 127) (hb₀ : b ≠ 0) : remFloor fit a b = pure (a.fmod b) := by
  have hquot : a = least128 → b ≠ -1 := fun h => by
    rw [h] at ha
    exact absurd ha (by decide)
  have hmod := natAbs_emod_lt a hb₀
  have hfloor := natAbs_fmod_lt a hb₀
  rw [remFloor, remEuclid, quot_eq hfit (fits128_of_lt ha) hquot, pure_bind,
    hfit _ (fits128_of_lt (by omega)), pure_bind]
  rw [fmod_eq_ite] at hfloor ⊢
  split
  · rename_i hneg
    rw [if_pos hneg] at hfloor
    exact hfit _ (fits128_of_lt (by omega))
  · rfl

theorem remainder_eq (hfit : KeepsFitting fit) {x y : Number} (hx : x.WellFormed)
    (hy : y.WellFormed) : remainder fit x y = pure (x.modulo? y) := by
  match x, y, hx, hy with
  | rational a b, rational c d, ⟨hb, _, ha, hb'⟩, ⟨hd, _, hc, hd'⟩ =>
    show (if (rational c d).isZero then _ else _) = pure (if (rational c d).isZero then _ else _)
    split
    · rfl
    · rename_i hzero
      have hc₀ : c ≠ 0 := fun h => hzero (by rw [h]; rfl)
      have had := natAbs_mul_den_lt ha hd' hd
      have hcb := natAbs_mul_den_lt hc hb' hb
      have hbd := natAbs_mul_den_lt hb' hd' hd
      have hcb₀ : c * b ≠ 0 := mul_ne_zero hc₀ hb.ne'
      have hfloor := natAbs_fmod_lt (a * d) hcb₀
      rw [hfit _ (fits128_of_lt (by omega)), pure_bind, hfit _ (fits128_of_lt (by omega)),
        pure_bind, remFloor_eq hfit (by omega) (by omega) hcb₀, pure_bind,
        hfit _ (fits128_of_lt (by omega)), pure_bind]
      exact quotient_eq_of_pos hfit (fits128_of_lt (by omega)) (by omega) (mul_pos hb hd)
  | .float _, _, _, _ => rfl
  | rational _ _, .float _, _, _ => rfl

/-! ## 5. Powers -/

omit [LawfulMonad m] in
theorem exactPower_eq_match {n d e : Int} (he : e.natAbs < 2 ^ 32) :
    exactPower fit n d e =
      match within128 ((powerParts n d e).1 ^ e.natAbs),
        within128 ((powerParts n d e).2 ^ e.natAbs) with
      | some above, some below => quotient fit above below
      | _, _ => pure none := by
  rw [← checkedPower_eq he, ← checkedPower_eq he]
  exact if_pos he

/-- **A power that is found stays within 128 bits.** -/
theorem exactPower_eq (hfit : KeepsFitting fit) {n d e : Int} {x? : Option Number} (hd : d ≠ 0)
    (hside : n ≠ 0 ∨ 0 ≤ e) (h : exactPower? n d e = .ok x?) : exactPower fit n d e = pure x? := by
  by_cases he : e.natAbs < 2 ^ 32
  · rw [exactPower?_eq he] at h
    rw [exactPower_eq_match he]
    cases habove : within128 ((powerParts n d e).1 ^ e.natAbs) with
    | none =>
      rw [habove] at h
      cases h
      rfl
    | some above =>
      cases hbelow : within128 ((powerParts n d e).2 ^ e.natAbs) with
      | none =>
        rw [habove, hbelow] at h
        cases h
        rfl
      | some below =>
        rw [habove, hbelow] at h
        obtain ⟨hfits, rfl⟩ := within128_eq_some_iff.mp habove
        obtain ⟨hfits', rfl⟩ := within128_eq_some_iff.mp hbelow
        exact quotient_eq hfit hfits hfits' (pow_ne_zero _ (powerParts_snd_ne_zero hd hside)) h
  · cases (if_neg he).symm.trans h
    exact if_neg he

theorem power_eq (hfit : KeepsFitting fit) {x y : Number} {z? : Option Number} (hx : x.WellFormed)
    (h : x.pow? y = .ok z?) : power fit x y = pure z? := by
  unfold pow? at h
  unfold power
  by_cases hpole : (x.isZero && y.isNegative) = true
  · rw [if_pos hpole] at h ⊢
    cases h
    rfl
  rw [if_neg hpole] at h ⊢
  match x, y, hx with
  | rational n d, rational e f, hx =>
    dsimp only at h ⊢
    by_cases hf : f = 1
    · have hside : n ≠ 0 ∨ 0 ≤ e := by
        by_contra h
        push Not at h
        exact hpole (Bool.and_eq_true_iff.mpr ⟨beq_iff_eq.mpr h.1, decide_eq_true h.2⟩)
      rw [if_pos hf] at h ⊢
      obtain ⟨x?, hpower, h⟩ := bind_ok_iff.mp h
      cases h
      rw [exactPower_eq hfit hx.1.ne' hside hpower, pure_bind]
    · rw [if_neg hf] at h ⊢
      cases h
      rfl
  | .float _, _, _ =>
    cases h
    rfl
  | rational _ _, .float _, _ =>
    cases h
    rfl

/-- Cancelling the reciprocal of the least integer needs the opposite of that. -/
theorem quotient_least (hfit : KeepsFitting fit) :
    quotient fit 1 least128 = (do
      let d ← quot fit (← fit (2 ^ 127)) 1
      if fitsBits 64 (-1) && fitsBits 64 d then return some (rational (-1) d)
      else return some (float (.ofFloat (Float.ofInt (-1) / Float.ofInt d)))) := by
  have hgcd : gcd fit 1 least128 = pure 1 :=
    gcd_eq hfit (by decide) (by decide) (by decide) (by decide)
  have hone : fit (-1) = pure (-1) := hfit _ (by decide)
  have hquot : quot fit (-1) 1 = pure (-1) := quot_eq hfit (by decide) (by decide)
  rw [quotient, if_neg (by decide), hgcd, pure_bind]
  show (fit (-1) >>= fun n => quot fit n 1 >>= fun n => fit (2 ^ 127) >>= fun d => _) = _
  rw [hone, pure_bind, hquot, pure_bind]
  rfl

/-- So does `(-2) ^ (-127)`. -/
theorem power_least (hfit : KeepsFitting fit) :
    power fit (ofInt (-2)) (ofInt (-127)) = quotient fit 1 least128 := by
  have hpowers : checkedPower 1 32 127 = some 1 ∧ checkedPower (-2) 32 127 = some least128 := by
    decide +kernel
  have hquotient : exactPower fit (-2) 1 (-127) = quotient fit 1 least128 := by
    show (match checkedPower 1 32 127, checkedPower (-2) 32 127 with
      | some n, some d => quotient fit n d
      | _, _ => pure none) = _
    rw [hpowers.1, hpowers.2]
  show (exactPower fit (-2) 1 (-127) >>= fun exact => pure (some (exact.getD _))) = _
  rw [hquotient, quotient_least hfit, bind_assoc]
  refine bind_congr fun v => ?_
  rw [bind_assoc]
  refine bind_congr fun d => ?_
  split <;> exact pure_bind _ _

/-- Cancelling a quotient of 64-bit integers stays within 128 bits. -/
theorem quotient_eq_of_fits64 (hfit : KeepsFitting fit) {n d : Int} (hn : fitsBits 64 n = true)
    (hd : fitsBits 64 d = true) : quotient fit n d = pure (quotient? n d) := by
  by_cases hd₀ : d = 0
  · rw [quotient, quotient?, if_pos hd₀, if_pos hd₀]
  · have hn' := natAbs_le_of_fitsBits hn
    have hd' := natAbs_le_of_fitsBits hd
    exact quotient_eq hfit (fits128_of_lt (by omega)) (fits128_of_lt (by omega)) hd₀
      (strictQuotient?_eq (by omega) (by omega))

end Wide

/-! ## 6. All operations -/

/-- **An operation that gives a result stays within 128 bits**: what a machine does about results
    that do not fit does not matter. -/
theorem Operation.run_eq {m : Type → Type} [Monad m] [LawfulMonad m] {fit : Int → m Int}
    (hfit : KeepsFitting fit) {op : Operation} {x y : Number} {z? : Option Number}
    (hx : x.WellFormed) (hy : y.WellFormed) (h : op.result? x y = .ok z?) :
    op.run fit x y = pure z? := by
  cases op with
  | add =>
    cases h
    show some <$> Wide.sum fit x y = _
    rw [Wide.sum_eq hfit hx hy, map_pure]
  | mul =>
    cases h
    show some <$> Wide.product fit x y = _
    rw [Wide.product_eq hfit hx hy, map_pure]
  | pow => exact Wide.power_eq hfit hx h
  | modulo =>
    cases h
    exact Wide.remainder_eq hfit hx hy

theorem Operation.stops_iff {op : Operation} {x y : Number} (hx : x.WellFormed) :
    (∃ overflow, op.result? x y = .error overflow) ↔
      op = .pow ∧ x = ofInt (-2) ∧ y = ofInt (-127) := by
  cases op with
  | pow => exact (pow?_stops_iff hx).trans ⟨fun h => ⟨rfl, h⟩, fun h => h.2⟩
  | add | mul | modulo =>
    constructor
    · rintro ⟨_, h⟩
      cases h
    · rintro ⟨h, -⟩
      cases h

/-- The machine that stops does so at the opposite of the least integer. -/
theorem strict_power_least :
    Operation.pow.run strict (ofInt (-2)) (ofInt (-127)) = .error ⟨2 ^ 127⟩ := by
  show Wide.power strict (ofInt (-2)) (ofInt (-127)) = _
  rw [Wide.power_least strict_keepsFitting, Wide.quotient_least strict_keepsFitting]
  rfl

/-- The machine that drops bits keeps the least integer as it is. -/
theorem wrap_power_least :
    Operation.pow.run wrap (ofInt (-2)) (ofInt (-127)) =
      some (float (.ofFloat (Float.ofInt (-1) / Float.ofInt least128))) := by
  have hleast : Wide.quot wrap (wrap (2 ^ 127)) 1 = least128 := by
    show (((2 ^ 127 : Int).bmod (2 ^ 128)).tdiv 1).bmod (2 ^ 128) = least128
    decide
  show Wide.power wrap (ofInt (-2)) (ofInt (-127)) = _
  rw [Wide.power_least wrap_keepsFitting, Wide.quotient_least wrap_keepsFitting]
  show (if fitsBits 64 (-1) && fitsBits 64 (Wide.quot wrap (wrap (2 ^ 127)) 1) then some _
    else some (float (.ofFloat (Float.ofInt (-1) /
      Float.ofInt (Wide.quot wrap (wrap (2 ^ 127)) 1))))) = _
  rw [hleast]
  rfl

/-- **Folding overflows for one power only.** Whatever numbers arithmetic has led to, an operation
    is what the machine does that stops at a result of more than 128 bits. It gives a result, and
    the same one on the machine that drops bits, unless it is the power of `-2` and `-127`.
    Cancelling a quotient of 64-bit integers always does. -/
theorem folding_overflow (op : Operation) {x y : Number} (hx : Obtained x) (hy : Obtained y) :
    op.run strict x y = op.result? x y ∧
    ((∃ z?, op.result? x y = .ok z? ∧ op.run wrap x y = z?) ↔
      ¬ (op = .pow ∧ x = ofInt (-2) ∧ y = ofInt (-127))) ∧
    ∀ n d : Int, fitsBits 64 n = true → fitsBits 64 d = true →
      Wide.quotient strict n d = .ok (quotient? n d) := by
  have hquotient : ∀ n d : Int, fitsBits 64 n = true → fitsBits 64 d = true →
      Wide.quotient strict n d = .ok (quotient? n d) := fun n d hn hd =>
    Wide.quotient_eq_of_fits64 strict_keepsFitting hn hd
  have hstops : (∃ overflow, op.result? x y = .error overflow) ↔ _ :=
    Operation.stops_iff hx.wellFormed
  cases hr : op.result? x y with
  | ok z? =>
    refine ⟨Operation.run_eq strict_keepsFitting hx.wellFormed hy.wellFormed hr,
      ⟨fun _ hexcept => ?_, fun _ => ⟨z?, rfl, ?_⟩⟩, hquotient⟩
    · obtain ⟨overflow, ho⟩ := hstops.mpr hexcept
      rw [hr] at ho
      cases ho
    · exact Operation.run_eq wrap_keepsFitting hx.wellFormed hy.wellFormed hr
  | error overflow =>
    have hexcept := hstops.mp ⟨overflow, hr⟩
    refine ⟨?_, ⟨?_, fun h => absurd hexcept h⟩, hquotient⟩
    · obtain ⟨rfl, rfl, rfl⟩ := hexcept
      rw [strict_power_least, ← hr]
      exact pow?_least.symm
    · rintro ⟨_, h, -⟩
      cases h

/-- Cancelling, a product and a power at the edges: `-2 ^ 63` is the least integer of 64 bits, and
    `(-2) ^ 127` is the least of 128. -/
theorem folding_overflow_edges :
    Wide.quotient strict (-2 ^ 63) (-2 ^ 63) = .ok (quotient? (-2 ^ 63) (-2 ^ 63)) ∧
    (∃ z?, Operation.mul.result? (ofInt (-2 ^ 63)) (ofInt (-2 ^ 63)) = .ok z? ∧
      Operation.mul.run wrap (ofInt (-2 ^ 63)) (ofInt (-2 ^ 63)) = z?) ∧
    Operation.pow.run strict (ofInt (-2)) (ofInt 127) =
      Operation.pow.result? (ofInt (-2)) (ofInt 127) := by
  have hleast : Obtained (ofInt (-2 ^ 63)) := obtained_ofInt (by decide)
  obtain ⟨-, hmul, hquotient⟩ := folding_overflow .mul hleast hleast
  exact ⟨hquotient _ _ (by decide) (by decide), hmul.mpr fun h => absurd h.1 (by decide),
    (folding_overflow .pow (obtained_ofInt (n := -2) (by decide))
      (obtained_ofInt (n := 127) (by decide))).1⟩

/-- The one power that needs more: its denominator `-2 ^ 127` cannot be made positive. Folding stops
    there, and without the last bits the double would be positive although the power is negative. -/
theorem power_overflows :
    Obtained (ofInt (-2)) ∧ Obtained (ofInt (-127)) ∧
    Operation.pow.result? (ofInt (-2)) (ofInt (-127)) = .error ⟨2 ^ 127⟩ ∧
    fitsBits 128 (2 ^ 127) = false ∧
    (Operation.pow.run wrap (ofInt (-2)) (ofInt (-127))).map isNegative = some false := by
  refine ⟨obtained_ofInt (by decide), obtained_ofInt (by decide), pow?_least, by decide, ?_⟩
  rw [wrap_power_least]
  decide +kernel

end FormulaGraph.Number
