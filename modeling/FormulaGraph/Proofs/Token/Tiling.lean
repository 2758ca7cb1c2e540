/-
  File:      FormulaGraph/Proofs/Token/Tiling.lean
  Subject:   The tokens of a text cover it, each of them once and as far as it goes.

  The lexer takes token behind token until nothing is left, so their spans lie end to end, from the
  start of the text to the stop token. Words and blanks are taken whole, so two of them never meet;
  and a token reads the same by itself as it does in the text, since `Rule.cut` lets all of the rest
  be cut.

  * `Meets` -- two neighbours, with no gap and no seam between them;
  * `Tiles` -- tokens that cover a text from its start to its end;
  * `Whole` -- a token that is one by itself, and a number if it has only digits;
  * `lex_tiles` -- the tokens of every text tile it, and all of them are whole.
-/
import Mathlib.Data.List.Chain
import Mathlib.Data.Nat.Digits.Defs
import FormulaGraph.Proofs.Token.Cut

namespace FormulaGraph

namespace Token

/-! ## 1. What the lexer should give -/

/-- A token and its neighbour: nothing stands between them, and they are not parts of one word or of
    one run of blanks. -/
structure Meets (a b : Token) : Prop where
  adjacent : a.span.stop = b.span.start
  words : ∀ v w, ¬ (a.kind = .word v ∧ b.kind = .word w)
  blanks : ¬ (a.kind = .blank ∧ b.kind = .blank)

/-- **Tokens that cover a text.** -/
structure Tiles (cs : List Char) (ts : List Token) : Prop where
  /-- The first begins at the start, each one where the last ended, and the stop token at the
      end. -/
  first : ts.head?.map Token.start = some 0
  neighbours : ts.IsChain Meets
  last : ts.getLast? = some (stopAt (Text.byteSize cs))
  /-- Every other token has characters, and does not stop the list. -/
  nonempty : ∀ t ∈ ts.dropLast, t.span.start < t.span.stop ∧ t.kind ≠ .stop
  /-- All ends are boundaries of characters, and what lies between them is the token's text. -/
  fits : ∀ t ∈ ts, t.span.Fits cs ∧ t.span.text? cs = some t.text
  /-- Nothing is lost. -/
  texts : (ts.map Token.text).flatten = cs

/-- The number that digits denote, the last of them the ones. -/
def decimal (digits : List Char) : Nat :=
  Nat.ofDigits 10 (digits.reverse.map fun c => c.toNat - '0'.toNat)

/-- **A token that is one by itself.** -/
structure Whole (t : Token) : Prop where
  bad : t.kind = .bad → t.text.length = 1
  alone : t.kind ≠ .stop → lex t.text = [⟨t.kind, t.text, 0⟩, stopAt (Text.byteSize t.text)]
  digits : t.text ≠ [] → (∀ c ∈ t.text, c.isDigit = true) →
    t.kind = if decimal t.text ≤ Nat.pow 2 63 - 1 then .integer (decimal t.text)
      else .float (Numeral.toFloat ⟨t.text, none, none⟩)

/-! ## 2. One token -/

variable {c : Char} {kind : TokenKind} {cs rest text more : List Char} {offset : Nat}
  {ts : List Token}

theorem digitsValue_append (ds : List Char) (c : Char) :
    digitsValue (ds ++ [c]) = 10 * digitsValue ds + (c.toNat - '0'.toNat) := by
  simp [digitsValue]

theorem digitsValue_eq_decimal (ds : List Char) : digitsValue ds = decimal ds := by
  induction ds using List.reverseRecOn with
  | nil => rfl
  | append_singleton ds c ih =>
    rw [digitsValue_append, ih, decimal, decimal, List.reverse_append, List.reverse_singleton,
      List.singleton_append, List.map_cons, Nat.ofDigits_cons, Nat.add_comm]

/-- A number that has only digits has neither a point nor an exponent. -/
theorem numeral_of_digits {n : Numeral} (h : Numeral.scan cs = (n, more))
    (hdigits : ∀ c ∈ n.text, c.isDigit = true) : n = ⟨n.text, none, none⟩ := by
  obtain ⟨whole, fraction, exponent⟩ := n
  have hfraction : fraction = none := by
    cases fraction with
    | none => rfl
    | some ds => exact absurd (hdigits '.' (by simp [Numeral.text])) (by decide)
  have hexponent : exponent = none := by
    cases exponent with
    | none => rfl
    | some e =>
      have hscan : (Numeral.scanExponent (Numeral.scanFraction (cs.dropWhile Char.isDigit)).2).1 =
          some e := congrArg (fun r => r.1.exponent) h
      unfold Numeral.scanExponent at hscan
      split at hscan
      · rename_i e' behind hsome
        obtain rfl : e' = e := Option.some.inj hscan
        have hmark := hdigits e'.mark (by simp [Numeral.text, Exponent.text])
        rcases (Exponent.scan?_eq_some hsome).1.mark with he | he
        · exact absurd (he ▸ hmark) (by decide)
        · exact absurd (he ▸ hmark) (by decide)
      · cases hscan
  subst hfraction hexponent
  simp [Numeral.text]

theorem numberKind_whole (ds : List Char) :
    numberKind ⟨ds, none, none⟩ = if decimal ds ≤ Nat.pow 2 63 - 1 then .integer (decimal ds)
      else .float (Numeral.toFloat ⟨ds, none, none⟩) := by
  simp only [numberKind, Numeral.isWhole, Option.isNone_none, Bool.and_self, Bool.true_and,
    decide_eq_true_eq, digitsValue_eq_decimal, greatestInteger]

/-- A number is no word, no blank and not bad, … -/
theorem numberKind_kind (n : Numeral) :
    (∀ name, numberKind n ≠ .word name) ∧ numberKind n ≠ .blank ∧ numberKind n ≠ .bad := by
  unfold numberKind
  split <;> exact ⟨nofun, nofun, nofun⟩

/-- … and neither is a punctuation mark. -/
theorem mark?_kind (h : mark? c rest = some (kind, text)) :
    (∀ name, kind ≠ .word name) ∧ kind ≠ .blank ∧ kind ≠ .bad := by
  unfold mark? at h
  split at h
  case h_3 => split at h <;> cases h <;> exact ⟨nofun, nofun, nofun⟩
  case h_10 => cases h
  all_goals
    cases h
    exact ⟨nofun, nofun, nofun⟩

theorem Rule.text_of_bad (h : Rule c rest kind text more) (hkind : kind = .bad) : text = [c] := by
  cases h with
  | number => exact absurd hkind (numberKind_kind _).2.2
  | word => cases hkind
  | blank => cases hkind
  | mark _ _ _ found => exact absurd hkind (mark?_kind found).2.2
  | bad => rfl

/-- A word begins as words do, and goes on as far as it can. -/
theorem Rule.of_word (h : Rule c rest kind text more) {name : String} (hkind : kind = .word name) :
    startsWord c = true ∧ ∀ d ∈ more.head?, continuesWord d = false := by
  cases h with
  | number => exact absurd hkind ((numberKind_kind _).1 name)
  | word _ starts => exact ⟨starts, head?_dropWhile _ _⟩
  | blank => cases hkind
  | mark _ _ _ found => exact absurd hkind ((mark?_kind found).1 name)
  | bad => cases hkind

/-- So does a run of blanks. -/
theorem Rule.of_blank (h : Rule c rest kind text more) (hkind : kind = .blank) :
    Text.isBlank c = true ∧ ∀ d ∈ more.head?, Text.isBlank d = false := by
  cases h with
  | number => exact absurd hkind (numberKind_kind _).2.1
  | word => cases hkind
  | blank _ _ starts => exact ⟨starts, head?_dropWhile _ _⟩
  | mark _ _ _ found => exact absurd hkind (mark?_kind found).2.1
  | bad => cases hkind

/-- Every rule gives a whole token. -/
theorem Rule.whole (h : Rule c rest kind text more) (offset : Nat) :
    Whole ⟨kind, text, offset⟩ where
  bad hkind := by
    have htext : text = [c] := h.text_of_bad hkind
    rw [htext]
    rfl
  alone _ := by
    obtain ⟨body, rfl, hagain⟩ := h.cut (List.nil_prefix)
    have hscans : Scans 0 (c :: (body ++ [])) [⟨kind, c :: body, 0⟩] := .cons hagain .nil
    rw [List.append_nil] at hscans
    rw [lex, hscans.scan_eq]
    rfl
  digits _ hdigits := by
    obtain ⟨body, hbody, -⟩ := h.cut (List.nil_prefix)
    have hstarts : startsNumber (c :: rest) = true := by
      rw [startsNumber_cons, hdigits c (by rw [hbody]; exact List.mem_cons_self), Bool.true_or]
    -- every rule but that of numbers asks that none begins here
    cases h with
    | number _ scan =>
      conv_lhs => rw [numeral_of_digits scan hdigits]
      exact numberKind_whole _
    | word number => exact absurd (hstarts.symm.trans number) (by decide)
    | blank number => exact absurd (hstarts.symm.trans number) (by decide)
    | mark number => exact absurd (hstarts.symm.trans number) (by decide)
    | bad number => exact absurd (hstarts.symm.trans number) (by decide)

/-! ## 3. All tokens -/

/-- A token and the one that is read next are neighbours. -/
theorem Rule.meets {c₂ : Char} {rest₂ text₂ more₂ : List Char} {kind₂ : TokenKind}
    (h : Rule c rest kind text (c₂ :: rest₂)) (h₂ : Rule c₂ rest₂ kind₂ text₂ more₂) :
    Meets ⟨kind, text, offset⟩ ⟨kind₂, text₂, offset + Text.byteSize text⟩ where
  adjacent := rfl
  words v w hwords := by
    have hends : continuesWord c₂ = false := (h.of_word hwords.1).2 c₂ rfl
    have hstarts : startsWord c₂ = true := (h₂.of_word hwords.2).1
    simp only [continuesWord, startsWord, Bool.or_eq_true, Bool.or_eq_false_iff] at hends hstarts
    rcases hstarts with hletter | hunderscore
    · exact absurd (hletter.symm.trans hends.1.1) (by decide)
    · exact absurd (hunderscore.symm.trans hends.2) (by decide)
  blanks hblanks := by
    have hends : Text.isBlank c₂ = false := (h.of_blank hblanks.1).2 c₂ rfl
    exact absurd ((h₂.of_blank hblanks.2).1.symm.trans hends) (by decide)

theorem meets_stopAt (t : Token) : Meets t (stopAt t.span.stop) where
  adjacent := rfl
  words _ _ h := TokenKind.noConfusion h.2
  blanks h := TokenKind.noConfusion h.2

/-- Where a text ends whose first token is known. -/
theorem offset_add_byteSize (offset : Nat) (c : Char) (body more : List Char) :
    offset + Text.byteSize (c :: (body ++ more)) =
      offset + Text.byteSize (c :: body) + Text.byteSize more := by
  rw [Nat.add_assoc, ← Text.byteSize_append, List.cons_append]

/-- **From an offset on the tokens lie end to end**, up to the stop token. -/
theorem Scans.neighbours (h : Scans offset cs ts) :
    (ts ++ [stopAt (offset + Text.byteSize cs)]).IsChain Meets ∧
      (ts ++ [stopAt (offset + Text.byteSize cs)]).head?.map Token.start = some offset := by
  induction h with
  | nil => exact ⟨.singleton _, rfl⟩
  | @cons offset c body more kind ts first rest ih =>
    rw [offset_add_byteSize, List.cons_append]
    refine ⟨?_, rfl⟩
    cases rest with
    | nil => exact .cons_cons (meets_stopAt _) ih.1
    | cons second rest => exact .cons_cons (first.meets second) ih.1

theorem Scans.whole (h : Scans offset cs ts) : ∀ t ∈ ts, t.Whole := by
  induction h with
  | nil => exact nofun
  | cons first rest ih => exact List.forall_mem_cons.mpr ⟨first.whole _, ih⟩

/-- No token is empty. -/
theorem Scans.nonempty (h : Scans offset cs ts) : ∀ t ∈ ts, t.span.start < t.span.stop := by
  induction h with
  | nil => exact nofun
  | @cons offset c body more kind ts first rest ih =>
    refine List.forall_mem_cons.mpr ⟨?_, ih⟩
    have hpos := c.utf8Size_pos
    show offset < offset + (c.utf8Size + Text.byteSize body)
    omega

theorem stopAt_whole (offset : Nat) : (stopAt offset).Whole :=
  ⟨nofun, fun h => absurd rfl h, fun h => absurd rfl h⟩

theorem tiles_lex (cs : List Char) : Tiles cs (lex cs) := by
  have hscans := scans_scan cs
  have hlaid := laid_scan cs
  obtain ⟨hchain, hfirst⟩ := hscans.neighbours
  rw [Nat.zero_add] at hchain hfirst
  exact {
    first := hfirst
    neighbours := hchain
    last := List.getLast?_concat
    nonempty := fun t ht => by
      rw [lex, List.dropLast_concat] at ht
      exact ⟨hscans.nonempty t ht, scanFrom_ne_stop t ht⟩
    fits := fun t ht => by
      have hfits : t.Fits cs := by
        rcases List.mem_append.mp ht with ht | ht
        · exact hlaid.fits t ht
        · rw [List.mem_singleton.mp ht]
          exact hlaid.stop_fits
      exact ⟨hfits.span, hfits.text⟩
    texts := by
      rw [lex, List.map_append, List.flatten_append, hscans.text_eq]
      exact List.append_nil cs }

/-- **The lexer loses nothing**: for every text it comes to an end, whatever number of steps it may
    take beyond the number of characters; its tokens tile the text; and each of them is a token by
    itself, with the decimal value of its digits if it has no other characters. -/
theorem lex_tiles (cs : List Char) :
    (∀ steps, cs.length ≤ steps → scanFrom steps 0 cs = scan cs) ∧ Tiles cs (lex cs) ∧
      ∀ t ∈ lex cs, t.Whole := by
  have hscans := scans_scan cs
  refine ⟨fun steps hsteps => hscans.scanFrom_eq hsteps, tiles_lex cs, fun t ht => ?_⟩
  rcases List.mem_append.mp ht with ht | ht
  · exact hscans.whole t ht
  · rw [List.mem_singleton.mp ht]
    exact stopAt_whole _

-- an exponent without digits is a word, and a point takes digits on either side
example :
    (lex ['1', '.', 'e', '+', '.', '5', 'e', '2', '*', '*', '*']).map (String.ofList ∘ Token.text) =
    ["1.", "e", "+", ".5e2", "**", "*", ""] := by decide +kernel

end Token

end FormulaGraph
