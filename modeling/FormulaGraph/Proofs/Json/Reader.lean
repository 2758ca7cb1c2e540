/-
  File:      FormulaGraph/Proofs/Json/Reader.lean
  Subject:   A value that is written is read back.

  The induction is on the steps that the reader may take; as many as characters are written suffice,
  so the bound of `read?` is never met. What has to be known of the rest is only that a number could
  not go on in it, and behind a value a comma or a line break follows.

  * `Legible` -- every number and every string in a value is written as the grammar has it;
  * `readValue_write`, `readItems_write`, `readMembers_write` -- one value in front of any rest;
  * `read?_write` -- a whole text.
-/
import FormulaGraph.Proofs.Json.Numbers
import FormulaGraph.Proofs.Json.Text

namespace FormulaGraph.Json

mutual
/-- Whether the numbers, the strings and the keys of a value are written as such. -/
def Legible : Json → Prop
  | number written => IsNumber written
  | string written => Scans written
  | array items => LegibleItems items
  | object members => LegibleMembers members
  | _ => True

def LegibleItems : List Json → Prop
  | [] => True
  | item :: items => item.Legible ∧ LegibleItems items

def LegibleMembers : List (List Char × Json) → Prop
  | [] => True
  | (key, value) :: members => Scans key ∧ value.Legible ∧ LegibleMembers members
end

/-! ## 1. Blanks -/

theorem isSpace_newLine (level : Nat) : ∀ c ∈ newLine level, isSpace c = true := by
  intro c hc
  rcases List.mem_cons.mp hc with rfl | hc
  · rfl
  · rw [List.eq_of_mem_replicate hc]
    rfl

theorem skipSpace_newLine (level : Nat) (rest : List Char) :
    skipSpace (newLine level ++ rest) = skipSpace rest :=
  List.dropWhile_append_of_pos (isSpace_newLine level)

/-- No number starts with a blank. -/
theorem isSpace_eq_false {c : Char} (h : c.isDigit = true ∨ c = '-') : isSpace c = false := by
  refine Bool.eq_false_iff.mpr fun hc => ?_
  simp only [isSpace, Bool.or_eq_true, beq_iff_eq] at hc
  rcases hc with ((rfl | rfl) | rfl) | rfl <;> exact absurd h (by decide)

theorem skipSpace_cons {c : Char} (h : isSpace c = false) (rest : List Char) :
    skipSpace (c :: rest) = c :: rest := by
  unfold skipSpace
  rw [List.dropWhile_cons, h]
  rfl

/-- Behind a value in a list a comma or a line break follows. -/
theorem endsNumeral_comma (rest : List Char) : EndsNumeral (',' :: rest) :=
  endsNumeral_cons rest (by decide)

theorem endsNumeral_newLine (level : Nat) (rest : List Char) :
    EndsNumeral (newLine level ++ rest) :=
  endsNumeral_cons _ (by decide)

/-! ## 2. Reading -/

/-- Reading goes past blanks. -/
theorem readValue_newLine (steps level : Nat) (rest : List Char) :
    readValue steps (newLine level ++ rest) = readValue steps rest := by
  cases steps with
  | zero => rfl
  | succ steps =>
    unfold readValue
    rw [skipSpace_newLine]

theorem readValue_blank (steps : Nat) (rest : List Char) :
    readValue steps (' ' :: rest) = readValue steps rest := by
  cases steps with
  | zero => rfl
  | succ steps => rfl

/-- A character that starts a number starts nothing else. -/
theorem readValue_number {written rest : List Char} (h : IsNumber written) (hr : EndsNumeral rest)
    (steps : Nat) : readValue (steps + 1) (written ++ rest) = some (number written, rest) := by
  have hscan := scanNumber?_append h hr
  obtain ⟨c, cs, rfl, hc⟩ := h.exists_cons
  rw [List.cons_append] at hscan ⊢
  generalize cs ++ rest = tail at hscan ⊢
  unfold readValue
  rw [skipSpace_cons (isSpace_eq_false hc)]
  split
  case h_7 =>
    rw [hscan]
    rfl
  all_goals
    rename_i heq
    cases heq
    exact absurd hc (by decide)

theorem readValue_quote (steps : Nat) (text : List Char) :
    readValue (steps + 1) ('"' :: text) = (do
      let (written, rest) ← scanString? text
      return (string written, rest)) := by
  unfold readValue
  rw [skipSpace_cons rfl]
  rfl

theorem readValue_string {written : List Char} (h : Scans written) (steps : Nat)
    (rest : List Char) :
    readValue (steps + 1) (quoted written ++ rest) = some (string written, rest) := by
  have hscan := h rest
  have hquoted : quoted written ++ rest = '"' :: (written ++ '"' :: rest) := by simp [quoted]
  rw [hquoted, readValue_quote, hscan]
  rfl

theorem scanKey?_quote (level : Nat) (text : List Char) :
    scanKey? (newLine level ++ '"' :: text) = (do
      let (key, rest) ← scanString? text
      match skipSpace rest with
      | ':' :: rest => return (key, rest)
      | _ => none) := by
  unfold scanKey?
  rw [skipSpace_newLine, skipSpace_cons rfl]
  rfl

/-- A key and its colon. -/
theorem scanKey?_append {key : List Char} (h : Scans key) (level : Nat) (rest : List Char) :
    scanKey? (newLine level ++ (quoted key ++ ':' :: rest)) = some (key, rest) := by
  have hscan := h (':' :: rest)
  have hquoted : quoted key ++ ':' :: rest = '"' :: (key ++ '"' :: ':' :: rest) := by simp [quoted]
  rw [hquoted, scanKey?_quote, hscan]
  rfl

/-- A value starts with no blank and no closing bracket. -/
theorem write_eq_cons (j : Json) (level : Nat) (h : j.Legible) :
    ∃ c cs, j.write level = c :: cs ∧ isSpace c = false ∧ c ≠ ']' := by
  cases j with
  | null => exact ⟨'n', _, rfl, rfl, by decide⟩
  | bool value =>
    cases value with
    | true => exact ⟨'t', _, rfl, rfl, by decide⟩
    | false => exact ⟨'f', _, rfl, rfl, by decide⟩
  | number written =>
    obtain ⟨c, cs, hw, hc⟩ := IsNumber.exists_cons h
    refine ⟨c, cs, hw, isSpace_eq_false hc, ?_⟩
    rintro rfl
    exact absurd hc (by decide)
  | string written => exact ⟨'"', _, rfl, rfl, by decide⟩
  | array items => cases items <;> exact ⟨'[', _, rfl, rfl, by decide⟩
  | object members => cases members <;> exact ⟨'\x7b', _, rfl, rfl, by decide⟩

theorem readValue_bracket (steps : Nat) (text : List Char) :
    readValue (steps + 1) ('[' :: text) = (match skipSpace text with
      | ']' :: rest => some (array [], rest)
      | _ => do
        let (items, rest) ← readItems steps text
        return (array items, rest)) := by
  unfold readValue
  rw [skipSpace_cons rfl]
  rfl

/-- Items between brackets; the first does not look like the closing one. -/
theorem readValue_array {steps : Nat} {text rest : List Char} {items : List Json}
    (hfirst : ∃ c cs, skipSpace text = c :: cs ∧ c ≠ ']')
    (h : readItems steps text = some (items, rest)) :
    readValue (steps + 1) ('[' :: text) = some (array items, rest) := by
  obtain ⟨c, cs, hskip, hc⟩ := hfirst
  rw [readValue_bracket, hskip]
  split
  · rename_i heq
    cases heq
    exact absurd rfl hc
  · rw [h]
    rfl

theorem readValue_brace (steps : Nat) (text : List Char) :
    readValue (steps + 1) ('\x7b' :: text) = (match skipSpace text with
      | '\x7d' :: rest => some (object [], rest)
      | _ => do
        let (members, rest) ← readMembers steps text
        return (object members, rest)) := by
  unfold readValue
  rw [skipSpace_cons rfl]
  rfl

/-- Members between braces; the first does not look like the closing one. -/
theorem readValue_object {steps : Nat} {text rest : List Char} {members : List (List Char × Json)}
    (hfirst : ∃ cs, skipSpace text = '"' :: cs)
    (h : readMembers steps text = some (members, rest)) :
    readValue (steps + 1) ('\x7b' :: text) = some (object members, rest) := by
  obtain ⟨cs, hskip⟩ := hfirst
  rw [readValue_brace, hskip]
  split
  · rename_i heq
    cases heq
  · rw [h]
    rfl

section Step

variable {steps : Nat} {text rest more after : List Char} {key : List Char} {value : Json}

theorem readItems_last (hv : readValue steps text = some (value, rest))
    (hr : skipSpace rest = ']' :: after) : readItems (steps + 1) text = some ([value], after) := by
  simp [readItems, hv, hr]

theorem readItems_more {items : List Json} (hv : readValue steps text = some (value, rest))
    (hr : skipSpace rest = ',' :: more) (hi : readItems steps more = some (items, after)) :
    readItems (steps + 1) text = some (value :: items, after) := by
  simp [readItems, hv, hr, hi]

theorem readMembers_last (hk : scanKey? text = some (key, more))
    (hv : readValue steps more = some (value, rest)) (hr : skipSpace rest = '\x7d' :: after) :
    readMembers (steps + 1) text = some ([(key, value)], after) := by
  simp [readMembers, hk, hv, hr]

theorem readMembers_more {members : List (List Char × Json)} {next : List Char}
    (hk : scanKey? text = some (key, more)) (hv : readValue steps more = some (value, rest))
    (hr : skipSpace rest = ',' :: next) (hm : readMembers steps next = some (members, after)) :
    readMembers (steps + 1) text = some ((key, value) :: members, after) := by
  simp [readMembers, hk, hv, hr, hm]

end Step

mutual
/-- **A value is read back**, and what follows it is left. -/
theorem readValue_write : ∀ (j : Json) (level steps : Nat) (rest : List Char), j.Legible →
    (j.write level).length ≤ steps → EndsNumeral rest →
    readValue steps (j.write level ++ rest) = some (j, rest)
  | j, level, 0, rest, hj, hs, _ => by
      obtain ⟨c, cs, hc, -⟩ := j.write_eq_cons level hj
      rw [hc] at hs
      cases hs
  | null, _, _ + 1, _, _, _, _ => rfl
  | bool true, _, _ + 1, _, _, _, _ => rfl
  | bool false, _, _ + 1, _, _, _, _ => rfl
  | number _, _, steps + 1, _, hj, _, hr => readValue_number hj hr steps
  | string _, _, steps + 1, rest, hj, _, _ => readValue_string hj steps rest
  | array [], _, _ + 1, _, _, _, _ => rfl
  | array (item :: items), level, steps + 1, rest, hj, hs, _ => by
      obtain ⟨hitem, hitems⟩ : item.Legible ∧ LegibleItems items := hj
      simp only [write, List.length_cons, List.length_append] at hs
      have hread := readItems_write items item (level + 1) level steps rest hitem hitems
        (by simp only [List.length_append]; omega)
      have htext : (array (item :: items)).write level ++ rest = '[' ::
          (newLine (level + 1) ++ item.write (level + 1) ++ writeItems (level + 1) items ++
            newLine level ++ ']' :: rest) := by
        simp [write]
      rw [htext]
      refine readValue_array ?_ hread
      obtain ⟨c, cs, hc, hspace, hne⟩ := item.write_eq_cons (level + 1) hitem
      simp only [List.append_assoc, skipSpace_newLine, hc, List.cons_append, skipSpace_cons hspace]
      exact ⟨c, _, rfl, hne⟩
  | object [], _, _ + 1, _, _, _, _ => rfl
  | object ((key, value) :: members), level, steps + 1, rest, hj, hs, _ => by
      obtain ⟨hkey, hvalue, hmembers⟩ : Scans key ∧ value.Legible ∧ LegibleMembers members := hj
      simp only [write, List.length_cons, List.length_append] at hs
      have hread := readMembers_write members key value (level + 1) level steps rest hkey hvalue
        hmembers (by simp only [List.length_append, List.length_cons]; omega)
      have htext : (object ((key, value) :: members)).write level ++ rest = '\x7b' ::
          (newLine (level + 1) ++ quoted key ++ ':' :: ' ' :: value.write (level + 1) ++
            writeMembers (level + 1) members ++ newLine level ++ '\x7d' :: rest) := by
        simp [write]
      rw [htext]
      refine readValue_object ?_ hread
      simp only [List.append_assoc, skipSpace_newLine]
      exact ⟨_, skipSpace_cons rfl _⟩
termination_by structural _ _ steps => steps

theorem readItems_write : ∀ (items : List Json) (item : Json) (level outer steps : Nat)
    (rest : List Char), item.Legible → LegibleItems items →
    (newLine level ++ item.write level ++ writeItems level items).length < steps →
    readItems steps (newLine level ++ item.write level ++ writeItems level items ++
      newLine outer ++ ']' :: rest) = some (item :: items, rest)
  | _, _, _, _, 0, _, _, _, hs => absurd hs (Nat.not_lt_zero _)
  | [], item, level, outer, steps + 1, rest, hitem, _, hs => by
      simp only [List.length_append] at hs
      have hvalue :=
        readValue_write item level steps (newLine outer ++ ']' :: rest) hitem (by omega)
        (endsNumeral_newLine outer (']' :: rest))
      simp only [writeItems, List.append_nil, List.append_assoc]
      refine readItems_last ((readValue_newLine _ _ _).trans hvalue) ?_
      rw [skipSpace_newLine, skipSpace_cons rfl]
  | next :: items, item, level, outer, steps + 1, rest, hitem, hitems, hs => by
      obtain ⟨hnext, hitems⟩ : next.Legible ∧ LegibleItems items := hitems
      simp only [writeItems, List.length_append, List.length_cons] at hs
      have hvalue := readValue_write item level steps (',' :: (newLine level ++ next.write level ++
        writeItems level items ++ newLine outer ++ ']' :: rest)) hitem (by omega)
        (endsNumeral_comma _)
      have hread := readItems_write items next level outer steps rest hnext hitems
        (by simp only [List.length_append]; omega)
      simp only [writeItems, List.append_assoc, List.cons_append] at hvalue hread ⊢
      exact readItems_more ((readValue_newLine _ _ _).trans hvalue) (skipSpace_cons rfl _) hread
termination_by structural _ _ _ _ steps => steps

theorem readMembers_write : ∀ (members : List (List Char × Json)) (key : List Char) (value : Json)
    (level outer steps : Nat) (rest : List Char), Scans key → value.Legible →
    LegibleMembers members →
    (newLine level ++ quoted key ++ ':' :: ' ' :: value.write level ++
      writeMembers level members).length < steps →
    readMembers steps (newLine level ++ quoted key ++ ':' :: ' ' :: value.write level ++
      writeMembers level members ++ newLine outer ++ '\x7d' :: rest) =
        some ((key, value) :: members, rest)
  | _, _, _, _, _, 0, _, _, _, _, hs => absurd hs (Nat.not_lt_zero _)
  | [], key, value, level, outer, steps + 1, rest, hkey, hvalue, _, hs => by
      simp only [List.length_append, List.length_cons] at hs
      have hvalue := readValue_write value level steps (newLine outer ++ '\x7d' :: rest) hvalue
        (by omega) (endsNumeral_newLine outer ('\x7d' :: rest))
      simp only [writeMembers, List.append_nil, List.append_assoc, List.cons_append]
      refine readMembers_last (scanKey?_append hkey _ _)
        ((readValue_blank _ _).trans hvalue) ?_
      rw [skipSpace_newLine, skipSpace_cons rfl]
  | (key', value') :: members, key, value, level, outer, steps + 1, rest, hkey, hvalue, hmembers,
      hs => by
      obtain ⟨hkey', hvalue', hmembers⟩ :
        Scans key' ∧ value'.Legible ∧ LegibleMembers members := hmembers
      simp only [writeMembers, List.length_append, List.length_cons] at hs
      have hvalue := readValue_write value level steps (',' :: (newLine level ++ quoted key' ++
        ':' :: ' ' :: value'.write level ++ writeMembers level members ++ newLine outer ++
          '\x7d' :: rest)) hvalue (by omega) (endsNumeral_comma _)
      have hread := readMembers_write members key' value' level outer steps rest hkey' hvalue'
        hmembers (by simp only [List.length_append, List.length_cons]; omega)
      simp only [writeMembers, List.append_assoc, List.cons_append] at hvalue hread ⊢
      exact readMembers_more (scanKey?_append hkey _ _) ((readValue_blank _ _).trans hvalue)
        (skipSpace_cons rfl _) hread
termination_by structural _ _ _ _ _ steps => steps
end

/-- **A written text is read back.** -/
theorem read?_write {j : Json} (h : j.Legible) (level : Nat) : read? (j.write level) = some j := by
  have hread := readValue_write j level (2 * (j.write level).length + 2) [] h (by omega)
    endsNumeral_nil
  rw [List.append_nil] at hread
  unfold read?
  rw [hread]
  rfl

end FormulaGraph.Json
