/-
  File:      FormulaGraph/Proofs/Json/Text.lean
  Subject:   A text that is escaped is read back.

  Both readers, the one that looks for the closing quote and the one that gives the text, take an
  escaped character as one; so they are followed character by character of the text, not of what is
  written.

  * `unescape?_escape` -- the text of what was escaped;
  * `scans_escape` -- the closing quote is the one behind it;
  * `unescape?_of_plain`, `scans_of_plain` -- a text without escapes stands for itself.
-/
import FormulaGraph.Json.Reader

namespace FormulaGraph.Json

/-- Two hexadecimal digits are enough for the characters below a blank. -/
theorem hexUnit?_hexDigit {n : Nat} (h : n < 32) :
    hexUnit? '0' '0' (hexDigit (n / 16)) (hexDigit n) = some n := by
  have hall : ∀ n < 32, hexUnit? '0' '0' (hexDigit (n / 16)) (hexDigit n) = some n := by decide
  exact hall n h

/-! ## 1. One character -/

/-- The ways in which a character is written. -/
theorem escapeChar_cases (c : Char) :
    (∃ d, escapeChar c = ['\\', d] ∧ d ≠ 'u' ∧ escaped? d = some c) ∨
      (c.toNat < 32 ∧
        escapeChar c = ['\\', 'u', '0', '0', hexDigit (c.toNat / 16), hexDigit c.toNat]) ∨
      (32 ≤ c.toNat ∧ c ≠ '"' ∧ c ≠ '\\' ∧ escapeChar c = [c]) := by
  have hchar : ∀ n, c.toNat = n → Char.ofNat n = c := by
    intro n hn
    rw [← hn, Char.ofNat_toNat]
  unfold escapeChar
  split
  · exact .inl ⟨'"', rfl, by decide, rfl⟩
  · exact .inl ⟨'\\', rfl, by decide, rfl⟩
  · exact .inl ⟨'n', rfl, by decide, rfl⟩
  · exact .inl ⟨'r', rfl, by decide, rfl⟩
  · exact .inl ⟨'t', rfl, by decide, rfl⟩
  · rename_i hquote hslash _ _ _
    split
    · rename_i h₈
      exact .inl ⟨'b', rfl, by decide, congrArg some (hchar 8 h₈)⟩
    · split
      · rename_i h₁₂
        exact .inl ⟨'f', rfl, by decide, congrArg some (hchar 12 h₁₂)⟩
      · split
        · rename_i h₃₂
          exact .inr (.inl ⟨h₃₂, rfl⟩)
        · rename_i h₃₂
          exact .inr (.inr ⟨Nat.le_of_not_lt h₃₂, hquote, hslash, rfl⟩)

/-- A character that is no backslash stands for itself. -/
theorem unescape?_cons {c : Char} (h : c ≠ '\\') (rest : List Char) :
    unescape? (c :: rest) = (unescape? rest).map (c :: ·) := by
  rw [unescape?.eq_def]
  split
  · rename_i heq
    cases heq
  · rename_i heq
    cases heq
    exact absurd rfl h
  · rename_i heq
    cases heq
    exact absurd rfl h
  · rename_i heq
    cases heq
    cases unescape? rest <;> rfl

theorem unescape?_backslash {c d : Char} (hu : d ≠ 'u') (he : escaped? d = some c)
    (rest : List Char) : unescape? ('\\' :: d :: rest) = (unescape? rest).map (c :: ·) := by
  rw [unescape?.eq_def]
  split
  · rename_i heq
    cases heq
  · rename_i heq
    cases heq
    exact absurd rfl hu
  · rename_i heq
    cases heq
    rw [he]
    cases unescape? rest <;> rfl
  · rename_i hnot heq
    cases heq
    exact (hnot d rest rfl rfl).elim

theorem unescape?_escapeChar (c : Char) (rest : List Char) :
    unescape? (escapeChar c ++ rest) = (unescape? rest).map (c :: ·) := by
  rcases escapeChar_cases c with ⟨d, hd, hu, he⟩ | ⟨hlt, he⟩ | ⟨-, -, hslash, he⟩
  · rw [hd]
    exact unescape?_backslash hu he rest
  · rw [he]
    show unescape? ('\\' :: 'u' :: '0' :: '0' :: _ :: _ :: rest) = _
    have hhigh : isHighSurrogate c.toNat = false := by
      simp only [isHighSurrogate, Bool.and_eq_false_iff, decide_eq_false_iff_not]
      omega
    have hlow : isLowSurrogate c.toNat = false := by
      simp only [isLowSurrogate, Bool.and_eq_false_iff, decide_eq_false_iff_not]
      omega
    rw [unescape?, hexUnit?_hexDigit hlt]
    simp only [Option.bind_eq_bind, Option.bind_some, hhigh, hlow, Bool.false_eq_true, if_false,
      Char.ofNat_toNat]
    cases unescape? rest <;> rfl
  · rw [he]
    exact unescape?_cons hslash rest

/-! ## 2. Whole texts -/

/-- **The text of what was escaped.** -/
theorem unescape?_escape (text : List Char) : unescape? (escape text) = some text := by
  induction text with
  | nil => rfl
  | cons c text ih =>
    have happend : escape (c :: text) = escapeChar c ++ escape text := List.flatMap_cons
    rw [happend, unescape?_escapeChar, ih]
    rfl

/-- A text without a backslash stands for itself. -/
theorem unescape?_of_plain {text : List Char} (h : '\\' ∉ text) : unescape? text = some text := by
  induction text with
  | nil => rfl
  | cons c text ih =>
    obtain ⟨hc, htext⟩ := not_or.mp (mt List.mem_cons.mpr h)
    rw [unescape?_cons (Ne.symm hc), ih htext]
    rfl

/-- A written string whose closing quote is found. -/
def Scans (written : List Char) : Prop :=
  ∀ rest, scanString? (written ++ '"' :: rest) = some (written, rest)

theorem scans_nil : Scans [] := fun rest => by
  rw [List.nil_append, scanString?]

theorem Scans.cons {c : Char} {written : List Char} (h : Scans written) (hc : 32 ≤ c.toNat)
    (hquote : c ≠ '"') (hslash : c ≠ '\\') : Scans (c :: written) := by
  intro rest
  have htail := h rest
  rw [List.cons_append, scanString?.eq_def]
  generalize written ++ '"' :: rest = tail at htail ⊢
  split
  · rename_i heq
    cases heq
  · rename_i heq
    cases heq
    exact absurd rfl hquote
  · rename_i heq
    cases heq
    exact absurd rfl hslash
  · rename_i heq
    cases heq
    exact absurd rfl hslash
  · rename_i heq
    cases heq
    rw [if_neg (not_or.mpr ⟨Nat.not_lt.mpr hc, hslash⟩), htail]
    rfl

theorem Scans.backslash {c d : Char} {written : List Char} (h : Scans written) (hu : d ≠ 'u')
    (he : escaped? d = some c) : Scans ('\\' :: d :: written) := by
  intro rest
  have htail := h rest
  rw [List.cons_append, List.cons_append, scanString?.eq_def]
  generalize written ++ '"' :: rest = tail at htail ⊢
  split
  · rename_i heq
    cases heq
  · rename_i heq
    cases heq
  · rename_i heq
    cases heq
    exact absurd rfl hu
  · rename_i heq
    cases heq
    rw [he, htail]
    rfl
  · rename_i hnot heq
    cases heq
    exact (hnot d _ rfl rfl).elim

theorem Scans.escapeChar {written : List Char} (h : Scans written) (c : Char) :
    Scans (escapeChar c ++ written) := by
  rcases escapeChar_cases c with ⟨d, hd, hu, he⟩ | ⟨hlt, he⟩ | ⟨h₃₂, hquote, hslash, he⟩
  · rw [hd]
    exact h.backslash hu he
  · intro rest
    rw [he]
    show scanString? ('\\' :: 'u' :: '0' :: '0' :: _ :: _ :: (written ++ '"' :: rest)) = _
    rw [scanString?, hexUnit?_hexDigit hlt, h rest]
    rfl
  · rw [he]
    exact h.cons h₃₂ hquote hslash

/-- **The closing quote of an escaped text is the one behind it.** -/
theorem scans_escape (text : List Char) : Scans (escape text) := by
  induction text with
  | nil => exact scans_nil
  | cons c text ih =>
    have happend : escape (c :: text) = Json.escapeChar c ++ escape text := List.flatMap_cons
    rw [happend]
    exact ih.escapeChar c

theorem scans_of_plain {text : List Char}
    (h : ∀ c ∈ text, 32 ≤ c.toNat ∧ c ≠ '"' ∧ c ≠ '\\') : Scans text := by
  induction text with
  | nil => exact scans_nil
  | cons c text ih =>
    obtain ⟨⟨h₃₂, hquote, hslash⟩, htext⟩ := List.forall_mem_cons.mp h
    exact (ih htext).cons h₃₂ hquote hslash

end FormulaGraph.Json
