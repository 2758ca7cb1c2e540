/-
  File:      FormulaGraph/Proofs/Grammar/Tower.lean
  Subject:   A formula that is as high as any.

  Each level of a tower is a group that holds the tower below it and a chain of summands. The levels
  that the tower below took are given back behind it, so the chain is as long as the room on its
  level, and all chains add up.

  * `tower`, `chain` -- the text;
  * `TowerTokens`, `scan_tower` -- its tokens;
  * `operand_tower`, `parse_tower` -- it is read, and how high it is;
  * `exists_height_eq` -- the bound on the height of a formula is reached.
-/
import FormulaGraph.Proofs.Grammar.Height

namespace FormulaGraph

namespace Formula

/-! ## 1. The text -/

/-- `k` summands behind a formula. -/
def chain : Nat → List Char
  | 0 => []
  | k + 1 => '+' :: 'x' :: chain k

/-- Groups in groups, each with as many summands as there is room for. -/
def tower : Nat → List Char
  | 0 => ['x']
  | room + 1 => '(' :: (tower room ++ (chain room ++ [')']))

/-- The tokens of a chain. -/
inductive ChainTokens : Nat → List Token → Prop where
  | nil : ChainTokens 0 []
  | cons {k : Nat} {plus word : Token} {us : List Token} (hplus : plus.kind = .plus)
      (hword : word.kind = .word "x") (h : ChainTokens k us) :
      ChainTokens (k + 1) (plus :: word :: us)

/-- The tokens of a tower. -/
inductive TowerTokens : Nat → List Token → Prop where
  | word {word : Token} (hword : word.kind = .word "x") : TowerTokens 0 [word]
  | group {room : Nat} {o c : Token} {us vs : List Token} (ho : o.kind = .openParen)
      (h : TowerTokens room us) (hchain : ChainTokens room vs) (hc : c.kind = .closeParen) :
      TowerTokens (room + 1) (o :: (us ++ (vs ++ [c])))

/-- A mark that stands for itself. -/
theorem readToken_mark {c : Char} {kind : TokenKind} {cs : List Char}
    (hnumber : Token.startsNumber (c :: cs) = false) (hword : Token.startsWord c = false)
    (hblank : Text.isBlank c = false) (hmark : Token.mark? c cs = some (kind, [c])) :
    Token.readToken c cs = (kind, [c], cs) := by
  unfold Token.readToken
  rw [hnumber, hword, hblank, hmark]
  rfl

theorem startsNumber_eq_false {c : Char} (hdigit : c.isDigit = false) (hpoint : c ≠ '.')
    (cs : List Char) : Token.startsNumber (c :: cs) = false := by
  cases cs with
  | nil => exact hdigit
  | cons d ds =>
    rw [Token.startsNumber, hdigit, beq_false_of_ne hpoint]
    rfl

theorem readToken_plus (cs : List Char) : Token.readToken '+' cs = (.plus, ['+'], cs) :=
  readToken_mark (startsNumber_eq_false rfl (by decide) cs) (by decide +kernel) (by decide) rfl

theorem readToken_open (cs : List Char) : Token.readToken '(' cs = (.openParen, ['('], cs) :=
  readToken_mark (startsNumber_eq_false rfl (by decide) cs) (by decide +kernel) (by decide) rfl

theorem readToken_close (cs : List Char) : Token.readToken ')' cs = (.closeParen, [')'], cs) :=
  readToken_mark (startsNumber_eq_false rfl (by decide) cs) (by decide +kernel) (by decide) rfl

/-- A text that does not go on with a word. -/
def EndsWord (cs : List Char) : Prop := ∀ c ∈ cs.head?, Token.continuesWord c = false

theorem readToken_word {cs : List Char} (h : EndsWord cs) :
    Token.readToken 'x' cs = (.word "x", ['x'], cs) := by
  have hstart : Token.startsWord 'x' = true := by decide +kernel
  unfold Token.readToken
  rw [startsNumber_eq_false rfl (by decide) cs, hstart]
  cases cs with
  | nil => rfl
  | cons c cs =>
    have hc := h c rfl
    simp [hc]

theorem scanFrom_cons {c : Char} {kind : TokenKind} {cs : List Char}
    (h : Token.readToken c cs = (kind, [c], cs)) (steps offset : Nat) :
    Token.scanFrom (steps + 1) offset (c :: cs) =
      ⟨kind, [c], offset⟩ :: Token.scanFrom steps (offset + c.utf8Size) cs := by
  rw [Token.scanFrom, h]
  rfl

theorem endsWord_chain {cs : List Char} (h : EndsWord cs) (k : Nat) : EndsWord (chain k ++ cs) := by
  cases k with
  | zero => exact h
  | succ k =>
    intro c hc
    cases hc
    decide +kernel

theorem scanFrom_chain {cs : List Char} (h : EndsWord cs) (k steps offset : Nat) :
    ∃ us offset', ChainTokens k us ∧
      Token.scanFrom ((chain k).length + steps) offset (chain k ++ cs) =
        us ++ Token.scanFrom steps offset' cs := by
  induction k generalizing offset with
  | zero => exact ⟨[], offset, .nil, by simp [chain]⟩
  | succ k ih =>
    obtain ⟨us, offset', hus, hscan⟩ := ih (offset + '+'.utf8Size + 'x'.utf8Size)
    refine ⟨⟨.plus, ['+'], offset⟩ :: ⟨.word "x", ['x'], offset + '+'.utf8Size⟩ :: us, offset',
      .cons rfl rfl hus, ?_⟩
    have hlength : (chain (k + 1)).length + steps = (chain k).length + steps + 1 + 1 := by
      rw [chain, List.length_cons, List.length_cons]
      omega
    rw [hlength, chain, List.cons_append, List.cons_append, scanFrom_cons (readToken_plus _),
      scanFrom_cons (readToken_word (endsWord_chain h k)), hscan]
    rfl

theorem endsWord_close (cs : List Char) : EndsWord (')' :: cs) := by
  intro c hc
  cases hc
  decide +kernel

theorem scanFrom_tower {cs : List Char} (h : EndsWord cs) (room steps offset : Nat) :
    ∃ us offset', TowerTokens room us ∧
      Token.scanFrom ((tower room).length + steps) offset (tower room ++ cs) =
        us ++ Token.scanFrom steps offset' cs := by
  induction room generalizing cs steps offset with
  | zero =>
    refine ⟨[⟨.word "x", ['x'], offset⟩], offset + 'x'.utf8Size, .word rfl, ?_⟩
    rw [tower, List.length_singleton, Nat.add_comm, List.singleton_append,
      scanFrom_cons (readToken_word h)]
    rfl
  | succ room ih =>
    have hclose := endsWord_close cs
    obtain ⟨us, offset₁, hus, hscan⟩ := ih (endsWord_chain hclose room)
      ((chain room).length + (steps + 1)) (offset + '('.utf8Size)
    obtain ⟨vs, offset₂, hvs, hscan'⟩ := scanFrom_chain hclose room (steps + 1) offset₁
    refine ⟨⟨.openParen, ['('], offset⟩ :: (us ++ (vs ++ [⟨.closeParen, [')'], offset₂⟩])),
      offset₂ + ')'.utf8Size, .group rfl hus hvs rfl, ?_⟩
    have hlength : (tower (room + 1)).length + steps =
        (tower room).length + ((chain room).length + (steps + 1)) + 1 := by
      simp only [tower, List.length_cons, List.length_append, List.length_nil]
      omega
    have htext : tower (room + 1) ++ cs = '(' :: (tower room ++ (chain room ++ (')' :: cs))) := by
      simp [tower]
    rw [hlength, htext, scanFrom_cons (readToken_open _), hscan, hscan',
      scanFrom_cons (readToken_close _)]
    simp

/-! ## 2. The tokens -/

variable {stop : Token} {us vs more : List Token} {room k : Nat}

/-- Neither bad nor blank. -/
def Proper (ts : List Token) : Prop := ∀ t ∈ ts, t.kind ≠ .bad ∧ t.kind ≠ .blank

theorem Proper.cons {t : Token} (ht : t.kind ≠ .bad ∧ t.kind ≠ .blank) (h : Proper us) :
    Proper (t :: us) := by
  intro u hu
  rcases List.mem_cons.mp hu with rfl | hu
  · exact ht
  · exact h u hu

theorem Proper.append (h : Proper us) (h' : Proper vs) : Proper (us ++ vs) := by
  intro u hu
  rcases List.mem_append.mp hu with hu | hu
  · exact h u hu
  · exact h' u hu

theorem proper_nil : Proper [] := fun _ ht => absurd ht List.not_mem_nil

theorem ChainTokens.proper (h : ChainTokens k us) : Proper us := by
  induction h with
  | nil => exact proper_nil
  | cons hplus hword _ ih => exact .cons (by simp [hplus]) (.cons (by simp [hword]) ih)

theorem TowerTokens.proper (h : TowerTokens room us) : Proper us := by
  induction h with
  | word hword => exact .cons (by simp [hword]) proper_nil
  | group ho _ hchain hc ih =>
    exact .cons (by simp [ho]) (ih.append (hchain.proper.append (.cons (by simp [hc]) proper_nil)))

theorem TowerTokens.ne_nil (h : TowerTokens room us) : us ≠ [] := by
  cases h <;> exact List.cons_ne_nil _ _

/-! ## 3. The formula -/

theorem Follows.not_open (hstop : stop.kind = .stop) {p : Nat} (h : Follows p more) :
    (current stop more).kind ≠ .openParen := by
  cases more with
  | nil => simp [current, hstop]
  | cons t us => exact (h t us rfl).1

/-- No operator comes next where none of a positive precedence may stand. -/
theorem Follows.stops_zero (h : Follows 0 more) : Stops 0 more := by
  intro next rest hn
  obtain ⟨t, rfl, hop⟩ := nextOperator?_eq_some hn
  have := precedence_pos next
  have := (h t rest rfl).2 next hop
  omega

theorem ChainTokens.follows (h : ChainTokens k us) (hmore : Follows 0 more) :
    Follows 1 (us ++ more) := by
  cases h with
  | nil => exact hmore.mono (Nat.zero_le 1)
  | @cons _ plus _ _ hplus _ _ =>
    have hop : operatorOf plus.kind = some .add := by
      rw [hplus]
      rfl
    exact follows_operator hop (Nat.le_refl 1)

theorem operand_word (hstop : stop.kind = .stop) {word : Token} (hword : word.kind = .word "x")
    {p : Nat} (hmore : Follows p more) (room : Nat) :
    operand stop room (word :: more) = .ok (.symbol "x" word.span, more) := by
  have hsign : nextSign? (word :: more) = none := if_neg (by simp [hword])
  have hprimary : ∀ read, primary stop read (word :: more) = .ok (.symbol "x" word.span, more) := by
    intro read
    unfold primary
    dsimp only [current]
    rw [hword]
    exact if_neg (hmore.not_open hstop)
  cases room <;> rw [operand, hsign] <;> exact hprimary _

theorem takeLevel_of_stops {extend : Nat → Formula → List Token → Parsed} {level : Nat}
    (h : Stops level more) (right : Formula) :
    takeLevel extend level right more = .ok (right, more) := by
  unfold takeLevel
  split
  · rfl
  · rename_i next rest hn
    have := h next rest hn
    exact if_neg (by omega)

/-- A summand that is a word. -/
theorem readRight_word (hstop : stop.kind = .stop) {word : Token} (hword : word.kind = .word "x")
    (hmore : Follows 1 more) (room : Nat) :
    readRight stop room .add (word :: more) = .ok (.symbol "x" word.span, more) := by
  have hstops : Stops 2 more := hmore.stops
  have hstops' : Stops 4 more :=
    fun next rest hn => Nat.lt_of_lt_of_le (hstops next rest hn) (by decide)
  unfold readRight
  rw [operand_word hstop hword hmore]
  show tighten _ .add levels _ more = _
  rw [tighten_of_loose rfl, takeLevel_of_stops hstops']
  exact takeLevel_of_stops hstops _

theorem height_pos (f : Formula) : 1 ≤ f.height := by
  cases f <;> simp [height]

/-- **Every summand of a chain adds to the height.** -/
theorem steps_chain (hstop : stop.kind = .stop) (h : ChainTokens k us) (hmore : Follows 0 more)
    (hroom : k ≤ room) (left : Formula) :
    ∃ f, steps stop room 0 left (us ++ more) = .ok (f, more) ∧ f.height = left.height + k := by
  induction h generalizing room left with
  | nil => exact ⟨left, steps_of_stops hmore.stops_zero room left, rfl⟩
  | @cons k plus word us hplus hword h ih =>
    obtain ⟨room, rfl⟩ : ∃ r, room = r + 1 := ⟨room - 1, by omega⟩
    have hright := readRight_word hstop hword (h.follows hmore) room
    obtain ⟨f, hf, hheight⟩ := ih (Nat.le_of_succ_le_succ hroom)
      (combine .add left (.symbol "x" word.span))
    refine ⟨f, ?_, ?_⟩
    · rw [List.cons_append, List.cons_append,
        steps_of_readRight (by rw [hplus]; rfl) (Nat.zero_le _) hright]
      exact hf
    · have hpos := left.height_pos
      have hcombine : (combine .add left (.symbol "x" word.span)).height =
          max left.height 1 + 1 := rfl
      omega

/-- **A tower is read, and it is as high as an operand can be.** -/
theorem operand_tower (hstop : stop.kind = .stop) (h : TowerTokens room us) {p : Nat}
    (hmore : Follows p more) :
    ∃ f, operand stop room (us ++ more) = .ok (f, more) ∧ f.height = reach room := by
  induction h generalizing p more with
  | word hword => exact ⟨_, operand_word hstop hword hmore 0, rfl⟩
  | @group room o c us vs ho h hchain hc ih =>
    have hclose : Follows 0 (c :: more) := Reads.follows_close hc
    obtain ⟨first, hfirst, hheight⟩ := ih (hchain.follows hclose)
    obtain ⟨inner, hinner, hheight'⟩ := steps_chain hstop hchain hclose (Nat.le_refl room) first
    refine ⟨.group inner (o.span.join c.span), ?_, ?_⟩
    · have hsign : nextSign? (o :: (us ++ (vs ++ c :: more))) = none := if_neg (by simp [ho])
      have htokens : o :: (us ++ (vs ++ [c])) ++ more = o :: (us ++ (vs ++ c :: more)) := by simp
      rw [htokens, operand, hsign]
      unfold primary
      dsimp only [current]
      rw [ho]
      dsimp only
      rw [List.drop_one, List.tail_cons, hfirst]
      show ((steps stop room 0 first (vs ++ c :: more)) >>= _) = _
      rw [hinner]
      show (expectClose stop (c :: more) >>= _) = _
      rw [Reads.expectClose_cons hc]
      rfl
    · show inner.height + 1 = _
      rw [hheight', hheight]
      rfl

theorem scan_tower (room k : Nat) :
    ∃ us vs, TowerTokens room us ∧ ChainTokens k vs ∧
      Token.scan (tower room ++ chain k) = us ++ vs := by
  have hend : EndsWord [] := nofun
  obtain ⟨us, offset, hus, hscan⟩ :=
    scanFrom_tower (endsWord_chain hend k) room ((chain k).length + 0) 0
  obtain ⟨vs, offset', hvs, hscan'⟩ := scanFrom_chain hend k 0 offset
  refine ⟨us, vs, hus, hvs, ?_⟩
  rw [hscan', List.append_nil, Nat.add_zero, Token.scanFrom, List.append_nil] at hscan
  rw [Token.scan, List.length_append]
  exact hscan

/-- With one level for the whole, a tower is read with a chain of summands behind it. -/
theorem sum_tower (hstop : stop.kind = .stop) (hus : TowerTokens room us)
    (hvs : ChainTokens room vs) :
    ∃ f, sum stop (room + 1) (us ++ vs) = .ok (f, []) ∧ f.height = reach room + room := by
  have hnil : Follows 0 [] := nofun
  obtain ⟨first, hfirst, hheight⟩ := operand_tower hstop hus (hvs.follows hnil)
  obtain ⟨f, hf, hheight'⟩ := steps_chain hstop hvs hnil (Nat.le_refl room) first
  rw [List.append_nil] at hfirst hf
  refine ⟨f, ?_, by rw [hheight', hheight]⟩
  rw [sum, hfirst]
  exact hf

/-- **A text that is as high as any.** -/
theorem parse_tower (hroom : depthLimit = room + 1) :
    ∃ f, parse (tower room ++ chain room) = .ok f ∧ f.height = reach room + room := by
  obtain ⟨us, vs, hus, hvs, hscan⟩ := scan_tower room room
  have hproper := hus.proper.append hvs.proper
  have hfilter : (us ++ vs).filter (·.kind != .blank) = us ++ vs :=
    List.filter_eq_self.mpr fun t ht => bne_iff_ne.mpr (hproper t ht).2
  have hbad : (us ++ vs).find? (·.kind == .bad) = none :=
    List.find?_eq_none.mpr fun t ht hk => (hproper t ht).1 (eq_of_beq hk)
  have hempty : (us ++ vs).isEmpty = false := by
    simp [hus.ne_nil]
  have hstop : (Token.stopAt (Text.byteSize (tower room ++ chain room))).kind = .stop := rfl
  obtain ⟨f, hf, hheight⟩ := sum_tower hstop hus hvs
  refine ⟨f, ?_, hheight⟩
  rw [parse, hscan, hfilter]
  unfold ofTokens
  rw [hbad, hempty, hroom, hf]
  rfl

/-- **The square bound on the height is reached.** -/
theorem exists_height_eq :
    ∃ cs f, parse cs = .ok f ∧ f.height = depthLimit * (depthLimit + 1) / 2 := by
  obtain ⟨room, hroom⟩ : ∃ room, depthLimit = room + 1 := ⟨255, rfl⟩
  obtain ⟨f, hf, hheight⟩ := parse_tower hroom
  refine ⟨_, f, hf, ?_⟩
  rw [hheight, reach_add, hroom]

end Formula

end FormulaGraph
