/-
  File:      FormulaGraph/Proofs/Grammar/Again.lean
  Subject:   What was read is read again, with less behind it and more room.

  The parser looks one token ahead, and what it sees there can only make it go on. So the tokens it
  has read are read as the same formula if the text ends sooner behind them. It may have more room
  too, since room is only ever found missing.

  * `Again` -- one parser reads again what another has read;
  * `Again.bind` -- so do two in a row;
  * `ReadsPrimary`, `primary_ok` -- what a primary was read from;
  * `Formula.parser_again` -- the parser, with more room.
-/
import FormulaGraph.Proofs.Grammar.Complete

namespace FormulaGraph

/-! ## 1. Reading again -/

/-- What one parser has read is read by the other from the same tokens, also if less follows
    them. -/
def Again {α : Type} (read read' : List Token → Except FormulaError (α × List Token)) : Prop :=
  ∀ (ts rest : List Token) (a : α), read ts = .ok (a, rest) →
    ∃ us, ts = us ++ rest ∧ ∀ rest', rest' <+: rest → read' (us ++ rest') = .ok (a, rest')

namespace Again

variable {α β : Type} {read read' : List Token → Except FormulaError (α × List Token)}

theorem cut (h : Again read read') {us rest rest' : List Token} {a : α}
    (hread : read (us ++ rest) = .ok (a, rest)) (hcut : rest' <+: rest) :
    read' (us ++ rest') = .ok (a, rest') := by
  obtain ⟨us', hus, hagain⟩ := h _ _ _ hread
  rw [List.append_cancel_right hus]
  exact hagain rest' hcut

theorem bind {k k' : α → List Token → Except FormulaError (β × List Token)} (h : Again read read')
    (hk : ∀ a, Again (k a) (k' a)) :
    Again (fun ts => do
        let (a, ts) ← read ts
        k a ts)
      (fun ts => do
        let (a, ts) ← read' ts
        k' a ts) := by
  intro ts rest b hread
  obtain ⟨⟨a, ts₁⟩, h₁, h₂⟩ := bind_ok_iff.mp hread
  obtain ⟨us, rfl, hagain₁⟩ := h _ _ _ h₁
  obtain ⟨vs, rfl, hagain₂⟩ := hk a _ _ _ h₂
  refine ⟨us ++ vs, (List.append_assoc us vs rest).symm, fun rest' hcut => ?_⟩
  have hbehind : vs ++ rest' <+: vs ++ rest := (List.prefix_append_right_inj vs).mpr hcut
  rw [List.append_assoc]
  show (read' (us ++ (vs ++ rest')) >>= _) = _
  rw [hagain₁ _ hbehind]
  exact hagain₂ rest' hcut

/-- A parser that takes nothing. -/
theorem pure (a : α) : Again (fun ts => .ok (a, ts)) (fun ts => .ok (a, ts)) := by
  intro ts rest b h
  cases h
  exact ⟨[], rfl, fun rest' _ => rfl⟩

end Again

namespace Formula

variable {stop stop' : Token} {ts rest rest' : List Token}

/-! ## 2. One token ahead -/

theorem nextOperator?_cut (hcut : rest' <+: rest) :
    nextOperator? rest' = none ∨ ∃ found found', nextOperator? rest = some found ∧
      nextOperator? rest' = some found' ∧ found'.1 = found.1 := by
  obtain ⟨back, rfl⟩ := hcut
  cases rest' with
  | nil => exact .inl rfl
  | cons t us =>
    cases hop : operatorOf t.kind with
    | none =>
      refine .inl ?_
      rw [nextOperator?, hop]
      rfl
    | some op =>
      refine .inr ⟨(op, us ++ back), (op, us), ?_, ?_, rfl⟩
      · rw [List.cons_append, nextOperator?, hop]
        rfl
      · rw [nextOperator?, hop]
        rfl

theorem Stops.cut {least : Nat} (h : Stops least rest) (hcut : rest' <+: rest) :
    Stops least rest' := by
  intro next more hn
  rcases nextOperator?_cut hcut with hnone | ⟨found, found', hrest, hrest', hsame⟩
  · rw [hnone] at hn
    cases hn
  · rw [hrest'] at hn
    cases hn
    have hlt := h found.1 found.2 hrest
    rwa [← hsame] at hlt

theorem nextSign?_cut (h : nextSign? rest = none) (hcut : rest' <+: rest) :
    nextSign? rest' = none := by
  obtain ⟨back, rfl⟩ := hcut
  cases rest' with
  | nil => rfl
  | cons t us =>
    rw [List.cons_append, nextSign?] at h
    rw [nextSign?]
    split at h
    · cases h
    · rename_i hkind
      exact if_neg hkind

/-- What does not come next does not if the text ends sooner. -/
theorem current_cut (hstop' : stop'.kind = .stop) {kind : TokenKind}
    (h : (current stop rest).kind ≠ kind) (hkind : kind ≠ .stop) (hcut : rest' <+: rest) :
    (current stop' rest').kind ≠ kind := by
  obtain ⟨back, rfl⟩ := hcut
  cases rest' with
  | nil =>
    rw [current, hstop']
    exact fun h => hkind h.symm
  | cons t us => exact h

/-! ## 3. Primaries taken apart -/

/-- Arguments that were read, and the parenthesis behind them. -/
inductive ReadsArguments (read : List Token → Parsed) :
    List Token → List Formula → Token → List Token → Prop where
  | one {ts rest : List Token} {arg : Formula} {close : Token}
      (first : read ts = .ok (arg, close :: rest)) (hclose : close.kind = .closeParen) :
      ReadsArguments read ts [arg] close rest
  | more {ts us rest : List Token} {arg : Formula} {args : List Formula} {comma close : Token}
      (first : read ts = .ok (arg, comma :: us)) (hcomma : comma.kind = .comma)
      (others : ReadsArguments read us args close rest) :
      ReadsArguments read ts (arg :: args) close rest

/-- A primary that was read; what stands inside was read as a sum. -/
inductive ReadsPrimary (stop : Token) (read : List Token → Parsed) :
    List Token → Formula → List Token → Prop where
  | integer {t : Token} {value : Nat} {rest : List Token} (ht : t.kind = .integer value) :
      ReadsPrimary stop read (t :: rest) (.integer value t.span) rest
  | float {t : Token} {value : Float} {rest : List Token} (ht : t.kind = .float value) :
      ReadsPrimary stop read (t :: rest) (.float value t.span) rest
  | symbol {t : Token} {name : String} {rest : List Token} (ht : t.kind = .word name)
      (hopen : (current stop rest).kind ≠ .openParen) :
      ReadsPrimary stop read (t :: rest) (.symbol name t.span) rest
  | call {t o close : Token} {name : String} {us rest : List Token} {args : List Formula}
      (ht : t.kind = .word name) (ho : o.kind = .openParen)
      (inside : arguments stop read us = .ok ((args, close), rest)) :
      ReadsPrimary stop read (t :: o :: us) (.call name args (t.span.join close.span)) rest
  | group {t close : Token} {inner : Formula} {us rest : List Token} (ht : t.kind = .openParen)
      (inside : read us = .ok (inner, close :: rest)) (hclose : close.kind = .closeParen) :
      ReadsPrimary stop read (t :: us) (.group inner (t.span.join close.span)) rest

variable {read read' : List Token → Parsed} {args : List Formula} {close : Token} {f : Formula}

theorem argumentsFrom_ok (hstop : stop.kind = .stop) {steps : Nat}
    (h : argumentsFrom stop read steps ts = .ok ((args, close), rest)) :
    ReadsArguments read ts args close rest := by
  induction steps generalizing ts args with
  | zero => cases h
  | succ steps ih =>
    obtain ⟨⟨first, ts₁⟩, h₁, hthen⟩ := bind_ok_iff.mp h
    dsimp only at hthen
    split at hthen
    · rename_i hcomma
      obtain ⟨t, us, rfl, ht⟩ := current_kind hstop hcomma (by simp)
      obtain ⟨⟨⟨others, close'⟩, ts₂⟩, h₂, hlast⟩ := bind_ok_iff.mp hthen
      cases hlast
      exact .more h₁ ht (ih h₂)
    · obtain ⟨⟨close', ts₂⟩, h₂, hlast⟩ := bind_ok_iff.mp hthen
      cases hlast
      obtain ⟨rfl, hclose⟩ := expectClose_ok hstop h₂
      exact .one h₁ hclose

/-- There are no arguments, or there are some. -/
theorem arguments_ok (hstop : stop.kind = .stop)
    (h : arguments stop read ts = .ok ((args, close), rest)) :
    args = [] ∧ ts = close :: rest ∧ close.kind = .closeParen ∨
      (current stop ts).kind ≠ .closeParen ∧ ReadsArguments read ts args close rest := by
  unfold arguments at h
  dsimp only at h
  split at h
  · rename_i hclose
    obtain ⟨t, us, rfl, ht⟩ := current_kind hstop hclose (by simp)
    cases h
    exact .inl ⟨rfl, rfl, ht⟩
  · rename_i hclose
    exact .inr ⟨hclose, argumentsFrom_ok hstop h⟩

theorem primary_ok (hstop : stop.kind = .stop) (h : primary stop read ts = .ok (f, rest)) :
    ReadsPrimary stop read ts f rest := by
  cases ts with
  | nil =>
    unfold primary at h
    rw [current] at h
    simp only [hstop] at h
    cases h
  | cons t us =>
    unfold primary at h
    rw [current, List.drop_one, List.tail_cons] at h
    dsimp only at h
    split at h
    · rename_i value ht
      cases h
      exact .integer ht
    · rename_i value ht
      cases h
      exact .float ht
    · rename_i name ht
      split at h
      · rename_i hopen
        obtain ⟨o, us, rfl, ho⟩ := current_kind hstop hopen (by simp)
        obtain ⟨⟨⟨args, close⟩, ts₁⟩, h₁, hlast⟩ := bind_ok_iff.mp h
        cases hlast
        exact .call ht ho h₁
      · rename_i hopen
        cases h
        exact .symbol ht hopen
    · rename_i ht
      obtain ⟨⟨inner, ts₁⟩, h₁, hthen⟩ := bind_ok_iff.mp h
      obtain ⟨⟨close, ts₂⟩, h₂, hlast⟩ := bind_ok_iff.mp hthen
      cases hlast
      obtain ⟨rfl, hclose⟩ := expectClose_ok hstop h₂
      exact .group ht h₁ hclose
    · cases h

/-! ## 4. Primaries read again -/

/-- As many steps as there are tokens are enough for the arguments. -/
theorem ReadsArguments.again (hread : Again read read')
    (h : ReadsArguments read ts args close rest) :
    ∃ us, ts = us ++ rest ∧ ∀ steps rest', us.length ≤ steps → rest' <+: rest →
      argumentsFrom stop' read' steps (us ++ rest') = .ok ((args, close), rest') := by
  induction h with
  | @one ts rest arg close first hclose =>
    obtain ⟨us, rfl, hfirst⟩ := hread _ _ _ first
    refine ⟨us ++ [close], by simp, fun steps rest' hsteps hcut => ?_⟩
    rw [List.length_append, List.length_singleton] at hsteps
    obtain ⟨n, rfl⟩ : ∃ n, steps = n + 1 := ⟨steps - 1, by omega⟩
    have hbehind : close :: rest' <+: close :: rest := List.cons_prefix_cons.mpr ⟨rfl, hcut⟩
    rw [List.append_assoc, List.singleton_append, argumentsFrom, hfirst _ hbehind]
    show (if close.kind = .comma then _ else _) = _
    rw [if_neg (by simp [hclose])]
    show (expectClose stop' (close :: rest') >>= _) = _
    rw [Reads.expectClose_cons hclose]
    rfl
  | @more ts us rest arg args comma close first hcomma others ih =>
    obtain ⟨vs, rfl, hfirst⟩ := hread _ _ _ first
    obtain ⟨ws, rfl, hothers⟩ := ih
    refine ⟨vs ++ comma :: ws, by simp, fun steps rest' hsteps hcut => ?_⟩
    rw [List.length_append, List.length_cons] at hsteps
    obtain ⟨n, rfl⟩ : ∃ n, steps = n + 1 := ⟨steps - 1, by omega⟩
    have hbehind : comma :: (ws ++ rest') <+: comma :: (ws ++ rest) :=
      List.cons_prefix_cons.mpr ⟨rfl, (List.prefix_append_right_inj ws).mpr hcut⟩
    rw [List.append_assoc, List.cons_append, argumentsFrom, hfirst _ hbehind]
    show (if comma.kind = .comma then _ else _) = _
    rw [if_pos hcomma]
    show (argumentsFrom stop' read' n (ws ++ rest') >>= _) = _
    rw [hothers n rest' (by omega) hcut]
    rfl

theorem arguments_again (hstop : stop.kind = .stop) (hstop' : stop'.kind = .stop)
    (hread : Again read read') : Again (arguments stop read) (arguments stop' read') := by
  intro ts rest found h
  obtain ⟨args, close⟩ := found
  rcases arguments_ok hstop h with ⟨rfl, rfl, hclose⟩ | ⟨hclose, hargs⟩
  · refine ⟨[close], rfl, fun rest' _ => ?_⟩
    unfold arguments
    exact if_pos hclose
  · obtain ⟨us, rfl, hagain⟩ := hargs.again hread
    refine ⟨us, rfl, fun rest' hcut => ?_⟩
    have hbehind : us ++ rest' <+: us ++ rest := (List.prefix_append_right_inj us).mpr hcut
    unfold arguments
    dsimp only
    rw [if_neg (current_cut hstop' hclose (by simp) hbehind)]
    refine hagain _ rest' ?_ hcut
    rw [List.length_append]
    omega

/-- **A primary is read again**, if what stands inside is. -/
theorem primary_again (hstop : stop.kind = .stop) (hstop' : stop'.kind = .stop)
    (hread : Again read read') : Again (primary stop read) (primary stop' read') := by
  intro ts rest f h
  cases primary_ok hstop h with
  | @integer t value _ ht =>
    refine ⟨[t], rfl, fun rest' _ => ?_⟩
    simp only [primary, List.singleton_append, current, ht, List.drop_one, List.tail_cons]
  | @float t value _ ht =>
    refine ⟨[t], rfl, fun rest' _ => ?_⟩
    simp only [primary, List.singleton_append, current, ht, List.drop_one, List.tail_cons]
  | @symbol t name _ ht hopen =>
    refine ⟨[t], rfl, fun rest' hcut => ?_⟩
    simp only [primary, List.singleton_append, current, ht, List.drop_one, List.tail_cons]
    exact if_neg (current_cut hstop' hopen (by simp) hcut)
  | @call t o close name us _ args ht ho inside =>
    obtain ⟨vs, rfl, hagain⟩ := arguments_again hstop hstop' hread _ _ _ inside
    refine ⟨t :: o :: vs, rfl, fun rest' hcut => ?_⟩
    rw [List.cons_append, List.cons_append, Reads.primary_call ht ho, hagain rest' hcut]
    rfl
  | @group t close inner us _ ht inside hclose =>
    obtain ⟨vs, rfl, hagain⟩ := hread _ _ _ inside
    refine ⟨t :: (vs ++ [close]), by simp, fun rest' hcut => ?_⟩
    have hbehind : close :: rest' <+: close :: rest := List.cons_prefix_cons.mpr ⟨rfl, hcut⟩
    simp only [primary, List.cons_append, List.append_assoc, List.nil_append, current, ht,
      List.drop_one, List.tail_cons]
    rw [hagain _ hbehind]
    show (expectClose stop' (close :: rest') >>= _) = _
    rw [Reads.expectClose_cons hclose]
    rfl

/-! ## 5. Operators -/

theorem tighten_of_none {extend : Nat → Formula → List Token → Parsed} {op : BinaryOp}
    {levels : List Nat} {right : Formula} (h : nextOperator? ts = none) :
    tighten extend op levels right ts = .ok (right, ts) := by
  cases levels with
  | nil => rfl
  | cons level levels => rw [tighten, h]

/-- A right operand is read again, if the loop for its operators does and takes nothing where there
    are none. -/
theorem tighten_again {extend extend' : Nat → Formula → List Token → Parsed}
    (he : ∀ level f, Again (extend level f) (extend' level f))
    (hidle : ∀ {level f ts found}, nextOperator? ts = none → extend' level f ts = .ok found →
      found = (f, ts)) (op : BinaryOp) (levels : List Nat) (right : Formula) :
    Again (tighten extend op levels right) (tighten extend' op levels right) := by
  induction levels generalizing right with
  | nil => exact .pure right
  | cons level levels ih =>
    intro ts rest f h
    rw [tighten] at h
    cases hn : nextOperator? ts with
    | none =>
      rw [hn] at h
      cases h
      refine ⟨[], rfl, fun rest' hcut => tighten_of_none ?_⟩
      rcases nextOperator?_cut hcut with hnone | ⟨found, _, hsome, -, -⟩
      · exact hnone
      · rw [hn] at hsome
        cases hsome
    | some found =>
      rw [hn] at h
      dsimp only at h
      -- the same operator comes next, or none because all tokens are cut off
      have hnext : ∀ {ts'}, ts' <+: ts → nextOperator? ts' = none ∨
          ∃ more, nextOperator? ts' = some (found.1, more) := by
        intro ts' hcut
        rcases nextOperator?_cut hcut with hnone | ⟨found₁, found', hsome, hsome', hsame⟩
        · exact .inl hnone
        · rw [hn] at hsome
          cases hsome
          exact .inr ⟨found'.2, by rw [hsome', ← hsame]⟩
      by_cases htight : found.1.precedence = level ∧ found.1.bindsTighter op = true
      · rw [if_pos htight] at h
        obtain ⟨us, rfl, hagain⟩ := (he level right).bind ih _ _ _ h
        refine ⟨us, rfl, fun rest' hcut => ?_⟩
        have hbehind : us ++ rest' <+: us ++ rest := (List.prefix_append_right_inj us).mpr hcut
        have hagain' := hagain rest' hcut
        rcases hnext hbehind with hnone | ⟨more, hsome⟩
        · obtain ⟨found', h₁, h₂⟩ := bind_ok_iff.mp hagain'
          rw [hidle hnone h₁] at h₂
          dsimp only at h₂
          rwa [tighten_of_none hnone] at h₂ ⊢
        · rw [tighten, hsome]
          dsimp only
          rw [if_pos htight]
          exact hagain'
      · rw [if_neg htight] at h
        obtain ⟨us, rfl, hagain⟩ := ih right _ _ _ h
        refine ⟨us, rfl, fun rest' hcut => ?_⟩
        have hbehind : us ++ rest' <+: us ++ rest := (List.prefix_append_right_inj us).mpr hcut
        rcases hnext hbehind with hnone | ⟨more, hsome⟩
        · rw [← hagain rest' hcut, tighten_of_none hnone, tighten_of_none hnone]
        · rw [tighten, hsome]
          dsimp only
          rw [if_neg htight]
          exact hagain rest' hcut

theorem extend_idle {room level : Nat} {f : Formula} {found : Formula × List Token}
    (hnone : nextOperator? ts = none) (h : extend stop room level f ts = .ok found) :
    found = (f, ts) := by
  obtain ⟨r, rfl, hsteps⟩ := extend_ok h
  have hstops : Stops level ts := fun next more hn => by rw [hnone] at hn; cases hn
  rw [steps_of_stops hstops] at hsteps
  exact (Except.ok.inj hsteps).symm

/-! ## 6. The whole parser -/

/-- What the parser has read with some room it reads again with more. -/
structure ParserAgain (stop stop' : Token) (room room' : Nat) : Prop where
  operand : Again (operand stop room) (operand stop' room')
  steps : ∀ least left, Again (steps stop room least left) (steps stop' room' least left)
  extend : ∀ least left, Again (extend stop room least left) (extend stop' room' least left)

theorem ParserAgain.readRight {room room' : Nat} (h : ParserAgain stop stop' room room')
    (op : BinaryOp) : Again (readRight stop room op) (readRight stop' room' op) :=
  h.operand.bind fun right => tighten_again h.extend extend_idle op levels right

theorem ParserAgain.start {room room' : Nat} (h : ParserAgain stop stop' room room')
    (least : Nat) : Again (start stop room room least) (start stop' room' room' least) :=
  h.operand.bind fun first => h.steps least first

/-- The loop, given that there is less room behind the next operator. -/
theorem steps_again {room room' : Nat}
    (hless : ∀ r r', room = r + 1 → room' = r' + 1 → ParserAgain stop stop' r r')
    (hle : room ≤ room') (least : Nat) (left : Formula) :
    Again (steps stop room least left) (steps stop' room' least left) := by
  intro ts rest f h
  rcases steps_ok_cases h with ⟨hstops, rfl, rfl⟩ |
    ⟨r, t, op, more, right, ts₁, right', ts₂, rfl, rfl, hop, hleast, h₁, h₂, h₃⟩
  · exact ⟨[], rfl, fun rest' hcut => steps_of_stops (Stops.cut hstops hcut) room' f⟩
  · obtain ⟨r', rfl⟩ : ∃ r', room' = r' + 1 := ⟨room' - 1, by omega⟩
    have hagain := hless r r' rfl rfl
    have hright : Formula.readRight stop r op more = .ok (right', ts₂) := by
      rw [Formula.readRight, h₁]
      exact h₂
    obtain ⟨us, rfl, hus⟩ := hagain.readRight op _ _ _ hright
    obtain ⟨vs, rfl, hvs⟩ := hagain.steps least _ _ _ _ h₃
    refine ⟨t :: (us ++ vs), by simp, fun rest' hcut => ?_⟩
    have hbehind : vs ++ rest' <+: vs ++ rest := (List.prefix_append_right_inj vs).mpr hcut
    rw [List.cons_append, List.append_assoc, steps_of_readRight hop hleast (hus _ hbehind)]
    exact hvs rest' hcut

/-- Without a sign in front an operand is a primary, with sums inside. -/
theorem operand_of_not_sign {room : Nat} (h : nextSign? ts = none) :
    operand stop room ts = primary stop (sum stop room) ts := by
  cases room with
  | zero =>
    rw [operand, h]
    rfl
  | succ room =>
    rw [operand, h]
    rfl

theorem operand_again {room room' : Nat} (hstop : stop.kind = .stop) (hstop' : stop'.kind = .stop)
    (hless : ∀ r r', room = r + 1 → room' = r' + 1 → ParserAgain stop stop' r r')
    (hle : room ≤ room') : Again (operand stop room) (operand stop' room') := by
  intro ts rest f h
  cases hsign : nextSign? ts with
  | none =>
    have hsum : Again (sum stop room) (sum stop' room') := by
      cases room with
      | zero => exact fun ts rest f h => nomatch h
      | succ r =>
        obtain ⟨r', rfl⟩ : ∃ r', room' = r' + 1 := ⟨room' - 1, by omega⟩
        exact (hless r r' rfl rfl).start 0
    rw [operand_of_not_sign hsign] at h
    obtain ⟨us, rfl, hagain⟩ := primary_again hstop hstop' hsum _ _ _ h
    refine ⟨us, rfl, fun rest' hcut => ?_⟩
    have hbehind : us ++ rest' <+: us ++ rest := (List.prefix_append_right_inj us).mpr hcut
    rw [operand_of_not_sign (nextSign?_cut hsign hbehind)]
    exact hagain rest' hcut
  | some found =>
    obtain ⟨sign, more⟩ := found
    obtain ⟨rfl, hkind⟩ := nextSign?_eq_some hsign
    have hsign' : ∀ us, nextSign? (sign :: us) = some (sign, us) := fun us => if_pos hkind
    cases room with
    | zero =>
      rw [operand, hsign] at h
      cases h
    | succ r =>
      obtain ⟨r', rfl⟩ : ∃ r', room' = r' + 1 := ⟨room' - 1, by omega⟩
      have hagain := hless r r' rfl rfl
      rw [operand, hsign] at h
      obtain ⟨us, rfl, hus⟩ := (hagain.operand.bind fun inner =>
        (hagain.extend signLevel inner).bind fun inner => .pure (withSign sign inner)) _ _ _ h
      refine ⟨sign :: us, rfl, fun rest' hcut => ?_⟩
      rw [List.cons_append, operand, hsign']
      exact hus rest' hcut

/-- **The parser reads again what it has read**, with at least the room it had. -/
theorem parser_again (hstop : stop.kind = .stop) (hstop' : stop'.kind = .stop) {room room' : Nat}
    (hle : room ≤ room') : ParserAgain stop stop' room room' := by
  induction room generalizing room' with
  | zero =>
    have hless : ∀ r r', 0 = r + 1 → room' = r' + 1 → ParserAgain stop stop' r r' :=
      fun r _ hr => absurd hr (Nat.succ_ne_zero r).symm
    exact {
      operand := operand_again hstop hstop' hless hle
      steps := steps_again hless hle
      extend := fun _ _ _ _ _ h => nomatch h }
  | succ room ih =>
    have hless : ∀ r r', room + 1 = r + 1 → room' = r' + 1 → ParserAgain stop stop' r r' := by
      intro r r' hr hr'
      cases hr
      exact ih (by omega)
    obtain ⟨r', rfl⟩ : ∃ r', room' = r' + 1 := ⟨room' - 1, by omega⟩
    exact {
      operand := operand_again hstop hstop' hless hle
      steps := steps_again hless hle
      extend := fun least left => (ih (by omega)).steps least left }

end Formula

end FormulaGraph
