/-
  File:      FormulaGraph/Proofs/Json/Numbers.lean
  Subject:   Numbers that are written are found again.

  A numeral ends where no digit, point or exponent mark follows, so it is found again in front of
  any text that starts with none of these. Ids and doubles are written as such numerals; a double
  because its shortest decimal is never zero, and so has no leading zeros.

  * `Numeral.Proper`, `Numeral.scan_append` -- a numeral of the grammar, and its end;
  * `scanNumber?_append` -- the same with a sign in front;
  * `natural?_toDigits`, `double?_toDigits` -- the number of an id;
  * `isNumber_render` -- every finite double is written as a number.
-/
import FormulaGraph.Decimal.Layout
import FormulaGraph.Json.Numbers
import FormulaGraph.Proofs.Number.Double

namespace FormulaGraph

/-! ## 1. Where a numeral ends -/

/-- Nothing that a numeral could go on with stands in front. -/
def EndsNumeral (rest : List Char) : Prop :=
  ∀ c ∈ rest.head?, c.isDigit = false ∧ c ≠ '.' ∧ c ≠ 'e' ∧ c ≠ 'E'

theorem endsNumeral_nil : EndsNumeral [] := nofun

theorem endsNumeral_cons {c : Char} (rest : List Char)
    (h : c.isDigit = false ∧ c ≠ '.' ∧ c ≠ 'e' ∧ c ≠ 'E') : EndsNumeral (c :: rest) := by
  intro d hd
  cases hd
  exact h

/-- A run of characters ends where none of them stands in front of the rest. -/
theorem takeWhile_run {p : Char → Bool} {run rest : List Char} (h : ∀ c ∈ run, p c = true)
    (hr : ∀ c ∈ rest.head?, p c = false) :
    (run ++ rest).takeWhile p = run ∧ (run ++ rest).dropWhile p = rest := by
  rw [List.takeWhile_append_of_pos h, List.dropWhile_append_of_pos h]
  cases rest with
  | nil => exact ⟨List.append_nil _, rfl⟩
  | cons c rest =>
    have hc := hr c rfl
    rw [List.takeWhile_cons, List.dropWhile_cons, hc]
    exact ⟨List.append_nil _, rfl⟩

/-- An exponent of the grammar. -/
structure Exponent.Proper (e : Exponent) : Prop where
  mark : e.mark = 'e' ∨ e.mark = 'E'
  sign : ∀ c ∈ e.sign, c = '+' ∨ c = '-'
  ne_nil : e.digits ≠ []
  digits : ∀ c ∈ e.digits, c.isDigit = true

theorem Exponent.scan?_append {e : Exponent} {rest : List Char} (h : e.Proper)
    (hr : ∀ c ∈ rest.head?, c.isDigit = false) : scan? (e.text ++ rest) = some (e, rest) := by
  obtain ⟨hmark, hsign, hne, hdigits⟩ := h
  obtain ⟨htake, hdrop⟩ := takeWhile_run hdigits hr
  obtain ⟨mark, sign, digits⟩ := e
  obtain ⟨d, digits, rfl⟩ := List.exists_cons_of_ne_nil hne
  have hd : d.isDigit = true := hdigits d List.mem_cons_self
  rw [List.cons_append] at htake hdrop
  unfold scan?
  cases sign with
  | none =>
    have hnot : ¬ (d = '+' ∨ d = '-') := by
      intro hor
      rcases hor with rfl | rfl <;> exact absurd hd (by decide)
    simp only [text, Option.toList_none, List.nil_append, List.cons_append, if_pos hmark,
      if_neg hnot, if_pos hd, htake, hdrop]
  | some c =>
    simp only [text, Option.toList_some, List.nil_append, List.cons_append, if_pos hmark,
      if_pos (hsign c rfl), if_pos hd, htake, hdrop]

namespace Numeral

/-- A numeral as the grammar of JSON has it. -/
structure Proper (n : Numeral) : Prop where
  whole : ∀ c ∈ n.whole, c.isDigit = true
  fraction : ∀ digits ∈ n.fraction, ∀ c ∈ digits, c.isDigit = true
  exponent : ∀ e ∈ n.exponent, e.Proper
  grammar : Json.isNumeral n = true

theorem scanExponent_append {exponent : Option Exponent} {rest : List Char}
    (h : ∀ e ∈ exponent, e.Proper) (hr : EndsNumeral rest) :
    scanExponent ((exponent.map Exponent.text).getD [] ++ rest) = (exponent, rest) := by
  unfold scanExponent
  cases exponent with
  | some e =>
    have htext : (some e |>.map Exponent.text).getD [] ++ rest = e.text ++ rest := rfl
    rw [htext, Exponent.scan?_append (h e rfl) fun c hc => (hr c hc).1]
  | none =>
    have hnone : Exponent.scan? rest = none := by
      cases rest with
      | nil => rfl
      | cons c rest =>
        obtain ⟨-, -, he, hE⟩ := hr c rfl
        exact if_neg (not_or.mpr ⟨he, hE⟩)
    have htext : ((none : Option Exponent).map Exponent.text).getD [] ++ rest = rest := rfl
    rw [htext, hnone]

theorem scanFraction_append {fraction : Option (List Char)} {rest : List Char}
    (h : ∀ digits ∈ fraction, ∀ c ∈ digits, c.isDigit = true)
    (hr : ∀ c ∈ rest.head?, c.isDigit = false ∧ c ≠ '.') :
    scanFraction ((fraction.map ('.' :: ·)).getD [] ++ rest) = (fraction, rest) := by
  cases fraction with
  | some digits =>
    obtain ⟨htake, hdrop⟩ := takeWhile_run (h digits rfl) fun c hc => (hr c hc).1
    show (some ((digits ++ rest).takeWhile Char.isDigit),
      (digits ++ rest).dropWhile Char.isDigit) = _
    rw [htake, hdrop]
  | none =>
    cases rest with
    | nil => rfl
    | cons c rest => exact if_neg (hr c rfl).2

/-- **A numeral is found again**, and what follows it is left. -/
theorem scan_append {n : Numeral} {rest : List Char} (h : n.Proper) (hr : EndsNumeral rest) :
    scan (n.text ++ rest) = (n, rest) := by
  obtain ⟨whole, fraction, exponent⟩ := n
  have htail₂ : ∀ c ∈ ((exponent.map Exponent.text).getD [] ++ rest).head?,
      c.isDigit = false ∧ c ≠ '.' := by
    cases exponent with
    | none => exact fun c hc => ⟨(hr c hc).1, (hr c hc).2.1⟩
    | some e =>
      intro c hc
      cases hc
      rcases (h.exponent e rfl).mark with hm | hm <;> exact hm ▸ by decide
  have htail₁ : ∀ c ∈ ((fraction.map ('.' :: ·)).getD [] ++
      ((exponent.map Exponent.text).getD [] ++ rest)).head?, c.isDigit = false := by
    cases fraction with
    | none => exact fun c hc => (htail₂ c hc).1
    | some digits =>
      intro c hc
      cases hc
      rfl
  obtain ⟨htake, hdrop⟩ := takeWhile_run h.whole htail₁
  simp only [scan, text, List.append_assoc]
  rw [htake, hdrop, scanFraction_append h.fraction htail₂, scanExponent_append h.exponent hr]

/-- A numeral starts with a digit. -/
theorem Proper.exists_cons {n : Numeral} (h : n.Proper) :
    ∃ d ds, n.text = d :: ds ∧ d.isDigit = true := by
  have hgrammar := h.grammar
  simp only [Json.isNumeral, Bool.and_eq_true, Bool.not_eq_true', List.isEmpty_eq_false_iff]
    at hgrammar
  obtain ⟨d, ds, hw⟩ := List.exists_cons_of_ne_nil hgrammar.1.2
  have htext : n.text = d :: (ds ++ ((n.fraction.map ('.' :: ·)).getD [] ++
      (n.exponent.map Exponent.text).getD [])) := by
    rw [text, hw, List.cons_append]
  exact ⟨d, _, htext, h.whole d (hw ▸ List.mem_cons_self)⟩

end Numeral

namespace Json

/-- A number as it is written: a sign, and a numeral of the grammar. -/
def IsNumber (written : List Char) : Prop :=
  ∃ (negative : Bool) (n : Numeral), n.Proper ∧
    written = (if negative then ['-'] else []) ++ n.text

/-- A number starts with a digit or a sign. -/
theorem IsNumber.exists_cons {written : List Char} (h : IsNumber written) :
    ∃ c cs, written = c :: cs ∧ (c.isDigit = true ∨ c = '-') := by
  obtain ⟨negative, n, hn, rfl⟩ := h
  cases negative with
  | true => exact ⟨'-', n.text, rfl, .inr rfl⟩
  | false =>
    obtain ⟨d, ds, htext, hd⟩ := hn.exists_cons
    exact ⟨d, ds, htext, .inl hd⟩

/-- **A number is found again**, and what follows it is left. -/
theorem scanNumber?_append {written rest : List Char} (h : IsNumber written)
    (hr : EndsNumeral rest) :
    scanNumber? (written ++ rest) = some (written, rest) := by
  obtain ⟨negative, n, hn, rfl⟩ := h
  have hunsigned : (n.text ++ rest).takeWhile (· == '-') = [] := by
    obtain ⟨d, ds, htext, hd⟩ := hn.exists_cons
    have hne : (d == '-') = false := by
      refine beq_eq_false_iff_ne.mpr fun he => ?_
      rw [he] at hd
      exact absurd hd (by decide)
    rw [htext, List.cons_append, List.takeWhile_cons, hne]
    rfl
  have hsign : ((if negative then ['-'] else []) ++ n.text ++ rest).takeWhile (· == '-') =
      if negative then ['-'] else [] := by
    cases negative with
    | true => exact congrArg ('-' :: ·) hunsigned
    | false => exact hunsigned
  have hlength : (if negative then ['-'] else []).length ≤ 1 := by
    cases negative <;> decide
  unfold scanNumber?
  rw [hsign, List.append_assoc]
  dsimp only
  rw [List.drop_left, Numeral.scan_append hn hr]
  simp only [hn.grammar, decide_eq_true hlength, Bool.and_self, if_true]

end Json

/-- A numeral whose parts are digits and that has no leading zero. -/
theorem Numeral.proper_of {n : Numeral} (hw : ∀ c ∈ n.whole, c.isDigit = true) (hne : n.whole ≠ [])
    (hhead : n.whole.head? ≠ some '0' ∨ n.whole.length = 1)
    (hf : ∀ digits ∈ n.fraction, digits ≠ [] ∧ ∀ c ∈ digits, c.isDigit = true)
    (he : ∀ e ∈ n.exponent, e.Proper) : n.Proper where
  whole := hw
  fraction digits hd := (hf digits hd).2
  exponent := he
  grammar := by
    have hfraction : n.fraction ≠ some [] := fun hnil => (hf [] hnil).1 rfl
    simp only [Json.isNumeral, Bool.and_eq_true, Bool.or_eq_true, bne_iff_ne, beq_iff_eq,
      Bool.not_eq_true', List.isEmpty_eq_false_iff]
    exact ⟨⟨hhead, hne⟩, hfraction⟩

/-! ## 2. Digits of naturals -/

theorem isDigit_toDigits (n : Nat) : ∀ c ∈ Nat.toDigits 10 n, c.isDigit = true :=
  fun _ hc => Nat.isDigit_of_mem_toDigits (by decide) (by decide) hc

/-- Only zero is written with a zero in front. -/
theorem head?_toDigits_ne {n : Nat} (h : n ≠ 0) : (Nat.toDigits 10 n).head? ≠ some '0' := by
  induction n using Nat.strongRecOn with
  | ind n ih =>
    by_cases hlt : n < 10
    · have hdigit : ∀ n < 10, n ≠ 0 → n.digitChar ≠ '0' := by decide
      rw [Nat.toDigits_of_lt_base hlt]
      exact fun he => hdigit n hlt h (Option.some.inj he)
    · have hquotient := ih (n / 10) (by omega) (by omega)
      rw [Nat.toDigits_of_base_le (by decide) (by omega)]
      obtain ⟨d, ds, hd⟩ := List.exists_cons_of_ne_nil (Nat.toDigits_ne_nil (n := n / 10) (b := 10))
      rw [hd] at hquotient ⊢
      exact hquotient

namespace Json

theorem proper_toDigits (n : Nat) : Numeral.Proper ⟨Nat.toDigits 10 n, none, none⟩ := by
  refine Numeral.proper_of (isDigit_toDigits n) Nat.toDigits_ne_nil ?_ nofun nofun
  by_cases hn : n = 0
  · exact .inr (by rw [hn]; decide)
  · exact .inl (head?_toDigits_ne hn)

theorem isNumber_toDigits (n : Nat) : IsNumber (Nat.toDigits 10 n) :=
  ⟨false, _, proper_toDigits n, (List.append_nil _).symm⟩

theorem numeralOf_toDigits (n : Nat) :
    numeralOf (Nat.toDigits 10 n) = (false, ⟨Nat.toDigits 10 n, none, none⟩) := by
  have hscan := Numeral.scan_append (proper_toDigits n) endsNumeral_nil
  have htext : (⟨Nat.toDigits 10 n, none, none⟩ : Numeral).text ++ [] = Nat.toDigits 10 n := by
    simp [Numeral.text]
  rw [htext] at hscan
  unfold numeralOf
  split
  · rename_i cs hcs
    have hsign : '-'.isDigit = true := isDigit_toDigits n '-' (hcs ▸ List.mem_cons_self)
    exact absurd hsign (by decide)
  · rw [hscan]

/-- The natural number that was written. -/
theorem natural?_toDigits {n limit : Nat} (h : n ≤ limit) :
    natural? limit (Nat.toDigits 10 n) = some n := by
  have hvalue : digitsValue (Nat.toDigits 10 n) = n := Nat.ofDigitChars_ten_toDigits
  unfold natural?
  rw [numeralOf_toDigits]
  simp [Numeral.isWhole, hvalue, h]

/-- More digits do not make a number smaller. -/
theorem le_ofDigitChars (cs : List Char) (n : Nat) : n ≤ Nat.ofDigitChars 10 cs n := by
  induction cs generalizing n with
  | nil => exact Nat.le_refl n
  | cons c cs ih =>
    have hle := ih (10 * n + (c.toNat - '0'.toNat))
    show n ≤ Nat.ofDigitChars 10 cs (10 * n + (c.toNat - '0'.toNat))
    omega

/-- Digits that fit into the significand are all taken. -/
theorem Significand.takeWhole_eq (cs : List Char) (s : Significand)
    (h : Nat.ofDigitChars 10 cs s.value < 2 ^ 64) :
    s.takeWhole cs = { s with value := Nat.ofDigitChars 10 cs s.value } := by
  induction cs generalizing s with
  | nil => rfl
  | cons c cs ih =>
    have hvalue : s.value * 10 + digitOf c = 10 * s.value + (c.toNat - '0'.toNat) := by
      rw [digitOf, Nat.mul_comm]
    have hfold : Nat.ofDigitChars 10 (c :: cs) s.value =
        Nat.ofDigitChars 10 cs (s.value * 10 + digitOf c) := by
      rw [hvalue]
      rfl
    have hle := le_ofDigitChars cs (s.value * 10 + digitOf c)
    rw [hfold] at h ⊢
    have hfull : s.isFull (digitOf c) = false := by
      simp only [isFull, decide_eq_false_iff_not, Nat.pow_eq]
      omega
    rw [takeWhole, hfull]
    exact ih { s with value := s.value * 10 + digitOf c } h

/-- A natural number of 64 bits is within the doubles. -/
theorem double?_toDigits {n : Nat} (h : n < 2 ^ 64) :
    (double? (Nat.toDigits 10 n)).isSome = true := by
  have hdigits : Nat.ofDigitChars 10 (Nat.toDigits 10 n) 0 = n := Nat.ofDigitChars_ten_toDigits
  have hsignificand : Significand.ofNumeral ⟨Nat.toDigits 10 n, none, none⟩ = ⟨n, 0⟩ := by
    have htake := Significand.takeWhole_eq (Nat.toDigits 10 n) {} (hdigits.symm ▸ h)
    unfold Significand.ofNumeral
    dsimp only
    rw [htake]
    show (⟨Nat.ofDigitChars 10 (Nat.toDigits 10 n) 0, 0 + 0⟩ : Significand) = _
    rw [hdigits]
    rfl
  have hscaled : (scaled? ⟨n, 0⟩).isSome = true := by
    by_cases hn : n = 0
    · rw [scaled?, if_pos hn]
      rfl
    · have hone : Double.Normal (-52) 77 (powerOfTen 0).toModel.unpack :=
        Double.normal_ofNat (n := 1) (by decide) (by decide)
      have hproduct := Double.normal_mul (Double.normal_ofNat hn (by omega)) hone (by decide)
      have hfinite : (Float.ofNat n * powerOfTen 0).isInf = false :=
        (Double.normal_unpack_pack hproduct (by decide) (by decide)).isInf_eq_false
      rw [scaled?, if_neg hn, if_neg (Int.lt_irrefl 0)]
      show (if (Float.ofNat n * powerOfTen 0).isInf then none else some _).isSome = true
      rw [hfinite]
      rfl
  unfold double?
  rw [numeralOf_toDigits]
  dsimp only
  rw [hsignificand, Option.isSome_map]
  exact hscaled

end Json

/-! ## 3. Doubles -/

namespace Decimal

/-- Zero is outside an interval above zero. -/
theorem Interval.holds_zero {i : Interval} (h : 0 < i.low) (e : Int) : i.holds e 0 = false := by
  have hgrid : 0 < i.low * Nat.pow 10 (-e).toNat := Nat.mul_pos h (Nat.pow_pos (by decide))
  unfold holds
  dsimp only
  rw [Nat.zero_mul, Nat.zero_mul]
  split
  · rw [decide_eq_false (Nat.not_le.mpr hgrid), Bool.false_and]
  · rw [decide_eq_false (Nat.not_lt_zero _), Bool.false_and]

theorem Interval.onGrid_ne_zero {i : Interval} {tie : Tie} {e : Int} {n : Nat} (h : 0 < i.low)
    (hn : i.onGrid tie e = some n) : n ≠ 0 := by
  have hheld : ∀ m, i.holds e m = true → m ≠ 0 := by
    intro m hm hzero
    rw [hzero, holds_zero h e] at hm
    cases hm
  unfold onGrid at hn
  dsimp only at hn
  split at hn
  · cases hn
  · rename_i hm _
    cases hn
    exact hheld _ hm
  · cases hn
    exact Nat.succ_ne_zero _
  · rename_i hm _
    have hm := hheld _ hm
    split at hn
    · cases hn
      exact hm
    · split at hn
      · cases hn
        exact Nat.succ_ne_zero _
      · split at hn
        · cases hn
          exact Nat.succ_ne_zero _
        · cases hn
          split
          · exact hm
          · exact Nat.succ_ne_zero _

/-- The shortest decimal of a double is not zero, unless the double is. -/
theorem shortest_ne_zero {mantissa : Nat} (h : mantissa ≠ 0) (tie : Tie) (exponent : Int)
    (finest : Bool) : (shortest tie mantissa exponent finest).digits ≠ 0 := by
  have hlow : 0 < (Interval.around mantissa exponent finest).low := by
    unfold Interval.around
    dsimp only
    refine Nat.mul_pos ?_ (Nat.pow_pos (by decide))
    split <;> omega
  unfold shortest
  dsimp only
  cases hfound : (List.range 24).findSome? fun (k : Nat) =>
      ((Interval.around mantissa exponent finest).onGrid tie
        (Interval.topExponent mantissa exponent - k)).map fun n =>
          Decimal.mk n (Interval.topExponent mantissa exponent - k) with
  | none => exact h
  | some d =>
    obtain ⟨k, -, hk⟩ := List.exists_of_findSome?_eq_some hfound
    obtain ⟨n, hn, rfl⟩ := Option.map_eq_some_iff.mp hk
    exact Interval.onGrid_ne_zero hlow hn

end Decimal

namespace Layout

theorem isDigit_replicate (k : Nat) : ∀ c ∈ List.replicate k '0', c.isDigit = true := by
  intro c hc
  rw [List.eq_of_mem_replicate hc]
  rfl

/-- What a whole number has behind its point. -/
theorem isDigit_pointZero (l : Layout) :
    ∀ digits ∈ if l.pointZero then some ['0'] else none,
      digits ≠ [] ∧ ∀ c ∈ digits, c.isDigit = true := by
  intro digits hd
  split at hd
  · cases hd
    exact ⟨List.cons_ne_nil _ _, isDigit_replicate 1⟩
  · cases hd

theorem exists_numeral_positionalText (l : Layout) {digits : List Char} (point : Int)
    (hdigits : ∀ c ∈ digits, c.isDigit = true) (hne : digits ≠ [])
    (hhead : digits.head? ≠ some '0') :
    ∃ n : Numeral, n.Proper ∧ l.positionalText digits point = n.text := by
  unfold positionalText
  split
  · refine ⟨⟨['0'], some (List.replicate (-point).toNat '0' ++ digits), none⟩,
      Numeral.proper_of (isDigit_replicate 1) (List.cons_ne_nil _ _) (.inr rfl) ?_ (by simp), ?_⟩
    · intro fraction hf
      cases hf
      exact ⟨List.append_ne_nil_of_right_ne_nil _ hne,
        List.forall_mem_append.mpr ⟨isDigit_replicate _, hdigits⟩⟩
    · simp [Numeral.text]
  · split
    · refine ⟨⟨digits ++ List.replicate (point.toNat - digits.length) '0',
        if l.pointZero then some ['0'] else none, none⟩,
        Numeral.proper_of ?_ ?_ (.inl ?_) l.isDigit_pointZero (by simp), ?_⟩
      · exact List.forall_mem_append.mpr ⟨hdigits, isDigit_replicate _⟩
      · exact List.append_ne_nil_of_left_ne_nil hne _
      · obtain ⟨d, ds, rfl⟩ := List.exists_cons_of_ne_nil hne
        exact hhead
      · simp only [Numeral.text]
        split <;> simp
    · rename_i hpos hlen
      have htake : 0 < point.toNat := by omega
      have hdrop : point.toNat < digits.length := by omega
      refine ⟨⟨digits.take point.toNat, some (digits.drop point.toNat), none⟩,
        Numeral.proper_of ?_ ?_ (.inl ?_) ?_ (by simp), ?_⟩
      · exact fun c hc => hdigits c (List.mem_of_mem_take hc)
      · exact fun hnil => by
          have := congrArg List.length hnil
          simp only [List.length_take, List.length_nil] at this
          omega
      · rw [List.head?_take, if_neg (by omega)]
        exact hhead
      · intro fraction hf
        cases hf
        refine ⟨fun hnil => ?_, fun c hc => hdigits c (List.mem_of_mem_drop hc)⟩
        have := List.drop_eq_nil_iff.mp hnil
        omega
      · simp [Numeral.text]

theorem exists_numeral_exponentText (l : Layout) {digits : List Char} (lead : Int)
    (hdigits : ∀ c ∈ digits, c.isDigit = true) (hne : digits ≠ []) :
    ∃ n : Numeral, n.Proper ∧ l.exponentText digits lead = n.text := by
  obtain ⟨d, fraction, rfl⟩ := List.exists_cons_of_ne_nil hne
  obtain ⟨hd, hfraction⟩ := List.forall_mem_cons.mp hdigits
  refine ⟨⟨[d], if fraction.isEmpty then none else some fraction,
    some ⟨'e', if lead < 0 then some '-' else if l.plus then some '+' else none,
      Nat.toDigits 10 lead.natAbs⟩⟩,
    Numeral.proper_of ?_ (List.cons_ne_nil _ _) (.inr rfl) ?_ ?_, ?_⟩
  · exact fun c hc => List.mem_singleton.mp hc ▸ hd
  · intro digits hf
    dsimp only at hf
    split at hf
    · cases hf
    · rename_i hempty
      cases hf
      exact ⟨fun hnil => hempty (hnil ▸ rfl), hfraction⟩
  · intro e he
    cases he
    refine ⟨.inl rfl, ?_, Nat.toDigits_ne_nil, isDigit_toDigits _⟩
    intro c hc
    dsimp only at hc
    split at hc
    · cases hc
      exact .inr rfl
    · split at hc
      · cases hc
        exact .inl rfl
      · cases hc
  · have hfractionText : ((if fraction.isEmpty then none else some fraction).map
        ('.' :: ·)).getD [] = if fraction.isEmpty then [] else '.' :: fraction := by
      cases fraction <;> rfl
    have hsign : (if lead < 0 then some '-' else if l.plus then some '+' else none).toList =
        if lead < 0 then ['-'] else if l.plus then ['+'] else [] := by
      split
      · rfl
      · split <;> rfl
    simp only [Numeral.text, hfractionText, Option.map_some, Option.getD_some, Exponent.text, hsign]
    rfl

theorem exists_numeral_decimalText (l : Layout) {d : Decimal} (hd : d.digits ≠ 0) :
    ∃ n : Numeral, n.Proper ∧ l.decimalText d = n.text := by
  have hdigits := isDigit_toDigits d.digits
  have hne : Nat.toDigits 10 d.digits ≠ [] := Nat.toDigits_ne_nil
  have hhead := head?_toDigits_ne hd
  unfold decimalText
  dsimp only
  split
  · exact l.exists_numeral_positionalText _ hdigits hne hhead
  · split
    · exact l.exists_numeral_positionalText _ hdigits hne hhead
    · exact l.exists_numeral_exponentText _ hdigits hne

end Layout

namespace Json

/-- **Every finite double is written as a number.** -/
theorem isNumber_render (l : Layout) {x : Float} (h : (Double.ofFloat x).isFinite = true) :
    IsNumber (l.render x).toList := by
  unfold Layout.render
  dsimp only
  cases hx : Double.ofFloat x with
  | nan =>
    rw [hx] at h
    cases h
  | infinite negative =>
    rw [hx] at h
    cases h
  | finite negative mantissa exponent =>
    have hsigned : ∀ n : Numeral, n.Proper →
        IsNumber (String.ofList (if negative then '-' :: n.text else n.text)).toList := by
      intro n hn
      refine ⟨negative, n, hn, ?_⟩
      rw [String.toList_ofList]
      cases negative <;> rfl
    cases mantissa with
    | zero =>
      have hproper : Numeral.Proper ⟨['0'], if l.pointZero then some ['0'] else none, none⟩ :=
        Numeral.proper_of (Layout.isDigit_replicate 1) (List.cons_ne_nil _ _) (.inr rfl)
          l.isDigit_pointZero nofun
      have htext : (⟨['0'], if l.pointZero then some ['0'] else none, none⟩ : Numeral).text =
          if l.pointZero then ['0', '.', '0'] else ['0'] := by
        cases l.pointZero <;> rfl
      have hzero := hsigned _ hproper
      rw [htext] at hzero
      exact hzero
    | succ m =>
      obtain ⟨n, hn, htext⟩ := l.exists_numeral_decimalText
        (Decimal.shortest_ne_zero m.succ_ne_zero l.tie exponent (exponent == Double.leastExponent))
      show IsNumber
        (String.ofList (if negative then '-' :: l.decimalText _ else l.decimalText _)).toList
      rw [htext]
      exact hsigned n hn

end Json

end FormulaGraph
