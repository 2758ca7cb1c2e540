/-
  File:      FormulaGraph/Proofs/Token/Cut.lean
  Subject:   Reading a part of a text.

  To read a token the lexer looks at up to three characters behind it, to see whether a point, an
  exponent or a star belongs to it. What it finds there only ever makes the token longer, so the
  token stays the same if the text ends earlier, but not inside it. Hence a part of a text that
  begins and ends where tokens do is read as these tokens.

  * `Token.Rule` -- the rules of the lexer, one of which gives the token;
  * `Rule.cut` -- it gives the same token if less follows;
  * `Token.Scans` -- the tokens of a text from an offset on;
  * `scans_scanFrom`, `Scans.scanFrom_eq` -- the scanner gives them, with enough steps, and only
    them;
  * `Scans.middle` -- a stretch of the tokens is what the stretch of the text is read as.
-/
import FormulaGraph.Proofs.Json.Numbers
import FormulaGraph.Proofs.Token.Layout

namespace FormulaGraph

variable {p : Char → Bool} {rest rest' cs cs' : List Char}

/-! ## 1. Numbers -/

/-- What does not stand in front of a text does not if the text ends earlier. -/
theorem head?_cut (h : ∀ c ∈ rest.head?, p c = false) (hcut : rest' <+: rest) :
    ∀ c ∈ rest'.head?, p c = false := by
  obtain ⟨back, rfl⟩ := hcut
  cases rest' with
  | nil => exact nofun
  | cons c cs => exact h

theorem head?_dropWhile (p : Char → Bool) (cs : List Char) :
    ∀ c ∈ (cs.dropWhile p).head?, p c = false := by
  intro c hc
  have hnot := List.head?_dropWhile_not p cs
  rw [Option.mem_def.mp hc] at hnot
  simpa using hnot

/-- A run of characters is found again if less follows. -/
theorem takeWhile_cut (hcut : rest' <+: cs.dropWhile p) :
    (cs.takeWhile p ++ rest').takeWhile p = cs.takeWhile p ∧
      (cs.takeWhile p ++ rest').dropWhile p = rest' :=
  takeWhile_run (List.all_eq_true.mp List.all_takeWhile) (head?_cut (head?_dropWhile p cs) hcut)

namespace Exponent

variable {e : Exponent}

theorem scan?_eq_some (h : scan? cs = some (e, rest)) :
    e.Proper ∧ ∀ c ∈ rest.head?, c.isDigit = false := by
  have hrun : ∀ {d : Char} {ds : List Char}, d.isDigit = true →
      (d :: ds).takeWhile Char.isDigit ≠ [] := by
    intro d ds hd
    rw [List.takeWhile_cons_of_pos hd]
    exact List.cons_ne_nil _ _
  unfold scan? at h
  repeat' split at h
  all_goals try contradiction
  all_goals
    obtain ⟨rfl, rfl⟩ := Prod.mk.inj (Option.some.inj h)
    refine ⟨?_, head?_dropWhile _ _⟩
  case h_2.isTrue hmark _ _ hsign _ _ _ hd =>
    exact ⟨hmark, fun c hc => Option.mem_some.mp hc ▸ hsign, hrun hd,
      List.all_eq_true.mp List.all_takeWhile⟩
  case h_2.isFalse.isTrue hmark _ _ _ _ hd =>
    exact ⟨hmark, nofun, hrun hd, List.all_eq_true.mp List.all_takeWhile⟩

theorem scan?_cut (h : scan? cs = some (e, rest)) (hcut : rest' <+: rest) :
    scan? (e.text ++ rest') = some (e, rest') :=
  scan?_append (scan?_eq_some h).1 (head?_cut (scan?_eq_some h).2 hcut)

/-- A text in which no exponent begins has none if it ends earlier. -/
theorem scan?_cut_none (h : scan? cs = none) (hcut : cs' <+: cs) : scan? cs' = none := by
  obtain ⟨back, rfl⟩ := hcut
  cases hscan : scan? cs' with
  | none => rfl
  | some found =>
    -- with the digits that follow it the exponent is one of the whole text
    obtain ⟨e, more⟩ := found
    have htext := scan?_text hscan
    obtain ⟨⟨hmark, hsign, hne, hdigits⟩, -⟩ := scan?_eq_some hscan
    let e' : Exponent := ⟨e.mark, e.sign, e.digits ++ (more ++ back).takeWhile Char.isDigit⟩
    have he' : e'.Proper := by
      refine ⟨hmark, hsign, List.append_ne_nil_of_left_ne_nil hne _, fun c hc => ?_⟩
      rcases List.mem_append.mp hc with hc | hc
      · exact hdigits c hc
      · exact List.all_eq_true.mp List.all_takeWhile c hc
    have hwhole : e'.text ++ (more ++ back).dropWhile Char.isDigit = cs' ++ back := by
      simp only [e', Exponent.text, ← htext, List.cons_append, List.append_assoc,
        List.takeWhile_append_dropWhile]
    rw [← hwhole, scan?_append he' (head?_dropWhile _ _)] at h
    cases h

end Exponent

namespace Numeral

theorem scanFraction_cut (hcut : rest' <+: (scanFraction cs).2) :
    scanFraction (((scanFraction cs).1.map ('.' :: ·)).getD [] ++ rest') =
      ((scanFraction cs).1, rest') := by
  cases cs with
  | nil =>
    obtain rfl : rest' = [] := List.prefix_nil.mp hcut
    rfl
  | cons c cs =>
    by_cases hpoint : c = '.'
    · simp only [scanFraction, if_pos hpoint, Option.map_some, Option.getD_some, List.cons_append,
        if_true] at hcut ⊢
      rw [(takeWhile_cut hcut).1, (takeWhile_cut hcut).2]
    · simp only [scanFraction, if_neg hpoint, Option.map_none, Option.getD_none, List.nil_append]
        at hcut ⊢
      cases rest' with
      | nil => rfl
      | cons d ds =>
        rw [(List.cons_prefix_cons.mp hcut).1]
        exact if_neg hpoint

theorem scanExponent_cut (hcut : rest' <+: (scanExponent cs).2) :
    scanExponent (((scanExponent cs).1.map Exponent.text).getD [] ++ rest') =
      ((scanExponent cs).1, rest') := by
  cases hscan : Exponent.scan? cs with
  | none =>
    simp only [scanExponent, hscan, Option.map_none, Option.getD_none, List.nil_append] at hcut ⊢
    rw [Exponent.scan?_cut_none hscan hcut]
  | some found =>
    simp only [scanExponent, hscan, Option.map_some, Option.getD_some] at hcut ⊢
    rw [Exponent.scan?_cut hscan hcut]

/-- **A number is found again if less follows.** -/
theorem scan_cut (hcut : rest' <+: (scan cs).2) :
    scan ((scan cs).1.text ++ rest') = ((scan cs).1, rest') := by
  let fraction := scanFraction (cs.dropWhile Char.isDigit)
  let exponent := scanExponent fraction.2
  let behind := (exponent.1.map Exponent.text).getD [] ++ rest'
  have hbehind : behind <+: fraction.2 := by
    rw [← scanExponent_text fraction.2]
    exact (List.prefix_append_right_inj _).mpr hcut
  have hwhole : (fraction.1.map ('.' :: ·)).getD [] ++ behind <+: cs.dropWhile Char.isDigit := by
    rw [← scanFraction_text (cs.dropWhile Char.isDigit)]
    exact (List.prefix_append_right_inj _).mpr hbehind
  have htext : (scan cs).1.text ++ rest' =
      cs.takeWhile Char.isDigit ++ ((fraction.1.map ('.' :: ·)).getD [] ++ behind) := by
    simp only [scan, text, List.append_assoc, behind, fraction, exponent]
  have hexponent : scanExponent behind = (exponent.1, rest') := scanExponent_cut hcut
  rw [htext, scan, (takeWhile_cut hwhole).1, (takeWhile_cut hwhole).2, scanFraction_cut hbehind]
  simp only [hexponent]
  rfl

end Numeral

/-! ## 2. One token -/

namespace Token

variable {c : Char} {kind : TokenKind} {text more more' : List Char}

theorem startsNumber_cons (c : Char) (rest : List Char) :
    startsNumber (c :: rest) = (c.isDigit || (c == '.' && rest.head?.any Char.isDigit)) := by
  cases rest with
  | nil => simp [startsNumber]
  | cons d ds => rfl

theorem startsNumber_cut (h : startsNumber (c :: rest) = false) (hcut : rest' <+: rest) :
    startsNumber (c :: rest') = false := by
  obtain ⟨back, rfl⟩ := hcut
  cases rest' with
  | nil =>
    rw [startsNumber_cons, Bool.or_eq_false_iff] at h
    rw [startsNumber_cons, h.1]
    simp
  | cons d ds => exact h

/-- What makes a number begin belongs to it. -/
theorem startsNumber_text (h : startsNumber cs = true) (rest' : List Char) :
    (Numeral.scan cs).1.text ≠ [] ∧ startsNumber ((Numeral.scan cs).1.text ++ rest') = true := by
  cases cs with
  | nil => cases h
  | cons c cs =>
    rw [startsNumber_cons] at h
    by_cases hc : c.isDigit = true
    · have htext : ∃ body, (Numeral.scan (c :: cs)).1.text = c :: body := by
        simp only [Numeral.scan, Numeral.text, List.takeWhile_cons_of_pos hc, List.cons_append]
        exact ⟨_, rfl⟩
      obtain ⟨body, htext⟩ := htext
      rw [htext, List.cons_append, startsNumber_cons, hc]
      exact ⟨List.cons_ne_nil _ _, rfl⟩
    · -- a point, and a digit behind it
      rw [Bool.not_eq_true] at hc
      rw [hc, Bool.false_or, Bool.and_eq_true, beq_iff_eq] at h
      obtain ⟨rfl, hnext⟩ := h
      cases cs with
      | nil => cases hnext
      | cons d ds =>
        have hd : d.isDigit = true := hnext
        have htext : ∃ body, (Numeral.scan ('.' :: d :: ds)).1.text = '.' :: d :: body := by
          simp only [Numeral.scan, Numeral.text, Numeral.scanFraction, if_true,
            List.takeWhile_cons_of_neg (by decide : ¬ ('.' : Char).isDigit = true),
            List.dropWhile_cons_of_neg (by decide : ¬ ('.' : Char).isDigit = true),
            List.takeWhile_cons_of_pos hd, Option.map_some, Option.getD_some, List.nil_append,
            List.cons_append]
          exact ⟨_, rfl⟩
        obtain ⟨body, htext⟩ := htext
        rw [htext, List.cons_append, List.cons_append, startsNumber_cons]
        exact ⟨List.cons_ne_nil _ _, by simp [hd]⟩

theorem mark?_cut (h : mark? c rest = some (kind, text))
    (hcut : more' <+: rest.drop (text.length - 1)) :
    ∃ body, text = c :: body ∧ mark? c (body ++ more') = some (kind, text) ∧
      (body ++ more').drop (text.length - 1) = more' := by
  unfold mark? at h
  split at h
  case h_3 =>
    by_cases hstar : rest.head? = some '*'
    · rw [if_pos hstar] at h
      obtain ⟨rfl, rfl⟩ := Prod.mk.inj (Option.some.inj h)
      exact ⟨['*'], rfl, rfl, rfl⟩
    · rw [if_neg hstar] at h
      obtain ⟨rfl, rfl⟩ := Prod.mk.inj (Option.some.inj h)
      have hstar' : more'.head? ≠ some '*' := by
        obtain ⟨back, hback⟩ := hcut
        rw [List.length_singleton, Nat.sub_self, List.drop_zero] at hback
        rw [← hback] at hstar
        cases more' with
        | nil => exact nofun
        | cons d ds => exact hstar
      refine ⟨[], rfl, ?_, rfl⟩
      rw [List.nil_append, mark?, if_neg hstar']
  case h_10 => cases h
  all_goals
    obtain ⟨rfl, rfl⟩ := Prod.mk.inj (Option.some.inj h)
    exact ⟨[], rfl, rfl, rfl⟩

theorem mark?_eq_none (h : mark? c rest = none) (rest' : List Char) : mark? c rest' = none := by
  unfold mark? at h ⊢
  split at h
  case h_10 => rfl
  all_goals cases h

/-- The rules of the lexer, each with the guards of those before it. -/
inductive Rule (c : Char) (rest : List Char) : TokenKind → List Char → List Char → Prop where
  | number {n : Numeral} {more : List Char} (starts : startsNumber (c :: rest) = true)
      (scan : Numeral.scan (c :: rest) = (n, more)) : Rule c rest (numberKind n) n.text more
  | word (number : startsNumber (c :: rest) = false) (starts : startsWord c = true) :
      Rule c rest (.word (String.ofList (c :: rest.takeWhile continuesWord)))
        (c :: rest.takeWhile continuesWord) (rest.dropWhile continuesWord)
  | blank (number : startsNumber (c :: rest) = false) (word : startsWord c = false)
      (starts : Text.isBlank c = true) :
      Rule c rest .blank (c :: rest.takeWhile Text.isBlank) (rest.dropWhile Text.isBlank)
  | mark {kind : TokenKind} {text : List Char} (number : startsNumber (c :: rest) = false)
      (word : startsWord c = false) (blank : Text.isBlank c = false)
      (found : mark? c rest = some (kind, text)) :
      Rule c rest kind text (rest.drop (text.length - 1))
  | bad (number : startsNumber (c :: rest) = false) (word : startsWord c = false)
      (blank : Text.isBlank c = false) (mark : mark? c rest = none) : Rule c rest .bad [c] rest

/-- Some rule applies, … -/
theorem rule_readToken (c : Char) (rest : List Char) :
    Rule c rest (readToken c rest).1 (readToken c rest).2.1 (readToken c rest).2.2 := by
  unfold readToken
  split
  · rename_i starts
    exact .number starts rfl
  · rename_i number
    rw [Bool.not_eq_true] at number
    split
    · rename_i starts
      exact .word number starts
    · rename_i word
      rw [Bool.not_eq_true] at word
      split
      · rename_i starts
        exact .blank number word starts
      · rename_i blank
        rw [Bool.not_eq_true] at blank
        split
        · rename_i kind text found
          exact .mark number word blank found
        · rename_i mark
          exact .bad number word blank mark

/-- … and it gives the token. -/
theorem Rule.readToken_eq (h : Rule c rest kind text more) :
    readToken c rest = (kind, text, more) := by
  have hnot : ∀ {b : Bool}, b = false → ¬ b = true := fun h => by rw [h]; exact Bool.false_ne_true
  unfold readToken
  cases h with
  | number starts scan => rw [if_pos starts, scan]
  | word number starts => rw [if_neg (hnot number), if_pos starts]
  | blank number word starts => rw [if_neg (hnot number), if_neg (hnot word), if_pos starts]
  | mark number word blank found =>
    rw [if_neg (hnot number), if_neg (hnot word), if_neg (hnot blank), found]
  | bad number word blank mark =>
    rw [if_neg (hnot number), if_neg (hnot word), if_neg (hnot blank), mark]

theorem rule_of_readToken (h : readToken c rest = (kind, text, more)) :
    Rule c rest kind text more := by
  have hrule := rule_readToken c rest
  rwa [h] at hrule

theorem Rule.text_append (h : Rule c rest kind text more) : text ++ more = c :: rest := by
  have htext := readToken_text c rest
  rwa [h.readToken_eq] at htext

/-- **A token is read again if less follows it.** -/
theorem Rule.cut (h : Rule c rest kind text more) (hcut : more' <+: more) :
    ∃ body, text = c :: body ∧ Rule c (body ++ more') kind text more' := by
  have htext := h.text_append
  -- what is left is a front part of the text, so it looks no more like a number than before
  have hnumber : ∀ {body}, startsNumber (c :: rest) = false → text = c :: body →
      startsNumber (c :: (body ++ more')) = false := by
    rintro body hnot rfl
    refine startsNumber_cut hnot ?_
    rw [← (List.cons.inj htext).2]
    exact (List.prefix_append_right_inj body).mpr hcut
  cases h with
  | @number n _ starts scan =>
    obtain ⟨hne, hstarts⟩ := startsNumber_text starts more'
    have hagain := @Numeral.scan_cut more' (c :: rest)
    rw [scan] at hne hstarts hagain
    obtain ⟨d, body, hbody⟩ := List.exists_cons_of_ne_nil hne
    specialize hagain hcut
    rw [hbody, List.cons_append] at htext hagain hstarts
    obtain rfl : d = c := (List.cons.inj htext).1
    exact ⟨body, hbody, .number hstarts hagain⟩
  | word number starts =>
    have hrule := Rule.word (hnumber number rfl) starts
    rw [(takeWhile_cut hcut).1, (takeWhile_cut hcut).2] at hrule
    exact ⟨_, rfl, hrule⟩
  | blank number word starts =>
    have hrule := Rule.blank (hnumber number rfl) word starts
    rw [(takeWhile_cut hcut).1, (takeWhile_cut hcut).2] at hrule
    exact ⟨_, rfl, hrule⟩
  | mark number word blank found =>
    obtain ⟨body, hbody, hagain, hdrop⟩ := mark?_cut found hcut
    have hrule := Rule.mark (hnumber number hbody) word blank hagain
    rw [hdrop] at hrule
    exact ⟨body, hbody, hrule⟩
  | bad number word blank mark =>
    exact ⟨[], rfl, .bad (hnumber number rfl) word blank (mark?_eq_none mark _)⟩

/-! ## 3. All tokens -/

/-- The tokens of a text that begins at an offset. -/
inductive Scans : Nat → List Char → List Token → Prop where
  | nil {offset : Nat} : Scans offset [] []
  | cons {offset : Nat} {c : Char} {body more : List Char} {kind : TokenKind} {ts : List Token}
      (first : Rule c (body ++ more) kind (c :: body) more)
      (rest : Scans (offset + Text.byteSize (c :: body)) more ts) :
      Scans offset (c :: (body ++ more)) (⟨kind, c :: body, offset⟩ :: ts)

variable {steps offset : Nat} {ts us vs : List Token}

/-- Steps as many as there are characters are enough: every token takes one. -/
theorem scans_scanFrom (h : cs.length ≤ steps) (offset : Nat) :
    Scans offset cs (scanFrom steps offset cs) := by
  induction steps generalizing offset cs with
  | zero =>
    obtain rfl : cs = [] := List.length_eq_zero_iff.mp (Nat.le_zero.mp h)
    exact .nil
  | succ steps ih =>
    cases cs with
    | nil => exact .nil
    | cons c rest =>
      unfold scanFrom
      rcases hread : readToken c rest with ⟨kind, text, more⟩
      have hrule := rule_of_readToken hread
      obtain ⟨body, rfl, hagain⟩ := hrule.cut (List.prefix_refl more)
      obtain rfl : body ++ more = rest := (List.cons.inj hrule.text_append).2
      refine .cons hagain (ih ?_ _)
      simp only [List.length_cons, List.length_append] at h
      omega

/-- **There is no other list of tokens**, so more steps change nothing. -/
theorem Scans.scanFrom_eq (h : Scans offset cs ts) (hsteps : cs.length ≤ steps) :
    scanFrom steps offset cs = ts := by
  induction h generalizing steps with
  | nil => cases steps <;> rfl
  | @cons offset c body more kind ts first rest ih =>
    cases steps with
    | zero => exact absurd hsteps (Nat.not_succ_le_zero _)
    | succ steps =>
      simp only [List.length_cons, List.length_append] at hsteps
      unfold scanFrom
      rw [first.readToken_eq]
      exact congrArg _ (ih (by omega))

/-- The texts of the tokens make up the text. -/
theorem Scans.text_eq (h : Scans offset cs ts) : (ts.map Token.text).flatten = cs := by
  induction h with
  | nil => rfl
  | cons first rest ih => rw [List.map_cons, List.flatten_cons, ih, List.cons_append]

/-- The tokens in front are the tokens of their text. -/
theorem Scans.front (h : Scans offset cs (us ++ vs)) :
    Scans offset (us.map Token.text).flatten us := by
  induction us generalizing offset cs with
  | nil => exact .nil
  | cons u us ih =>
    rw [List.cons_append] at h
    cases h with
    | @cons _ c body more kind _ first rest =>
      have hcut : (us.map Token.text).flatten <+: more := by
        rw [← rest.text_eq, List.map_append, List.flatten_append]
        exact List.prefix_append _ _
      obtain ⟨body', hbody, hagain⟩ := first.cut hcut
      obtain rfl : body = body' := (List.cons.inj hbody).2
      exact .cons hagain (ih rest)

/-- The tokens behind are the tokens of what is left, further on. -/
theorem Scans.back (h : Scans offset cs (us ++ vs)) :
    Scans (offset + Text.byteSize (us.map Token.text).flatten) (vs.map Token.text).flatten vs := by
  induction us generalizing offset cs with
  | nil => rwa [← h.text_eq] at h
  | cons u us ih =>
    rw [List.cons_append] at h
    cases h with
    | @cons _ c body more kind _ first rest =>
      rw [List.map_cons, List.flatten_cons, Text.byteSize_append, ← Nat.add_assoc]
      exact ih rest

/-- **A stretch of the tokens is what the stretch of the text is read as.** -/
theorem Scans.middle (h : Scans offset cs (us ++ (ts ++ vs))) :
    Scans (offset + Text.byteSize (us.map Token.text).flatten) (ts.map Token.text).flatten ts :=
  h.back.front

theorem scans_scan (cs : List Char) : Scans 0 cs (scan cs) := scans_scanFrom (Nat.le_refl _) 0

theorem Scans.scan_eq (h : Scans 0 cs ts) : scan cs = ts := h.scanFrom_eq (Nat.le_refl _)

end Token

end FormulaGraph
