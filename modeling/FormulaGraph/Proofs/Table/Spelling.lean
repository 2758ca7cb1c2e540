/-
  File:      FormulaGraph/Proofs/Table/Spelling.lean
  Subject:   The text of a tree tells the tree, up to the names of operations.

  The text of a tree is a word and, but for the constants, something in parentheses. Neither of them
  tells alone which form it is: an undefined function may be called `Symbol`, `Integer` or `pi`.
  What stands behind the word does: a quote, a digit or a sign, the beginning of a word, or no
  parenthesis at all. Texts are compared with something behind them, since that is how arguments
  stand in the text of an operation.

  * `Tree.Legible` -- words for names, and no literal but constants and fractions;
  * `Tree.byName` -- operations by their names only;
  * `Tree.Form`, `Tree.Spelled` -- the four forms of a text, and how each is spelled;
  * `Tree.Legible.cancels` -- equal texts are texts of trees that agree by name;
  * `Tree.text_eq_iff` -- and the other way round.
-/
import FormulaGraph.Proofs.Grouping.Literals
import FormulaGraph.Proofs.Json.Numbers
import FormulaGraph.Proofs.Store.Path
import FormulaGraph.Proofs.Table.Written

namespace FormulaGraph

open Token (IsWord startsWord continuesWord)

/-! ## 1. Words -/

/-- A word ends where no character stands that it could go on with. -/
theorem Token.IsWord.cancel {v w : String} {xs ys : List Char} (hv : IsWord v) (hw : IsWord w)
    (hx : ∀ c ∈ xs.head?, continuesWord c = false) (hy : ∀ c ∈ ys.head?, continuesWord c = false)
    (h : v.toList ++ xs = w.toList ++ ys) : v = w ∧ xs = ys := by
  have hcut := takeWhile_run hv.continues hx
  rw [h, (takeWhile_run hw.continues hy).1, (takeWhile_run hw.continues hy).2] at hcut
  exact ⟨String.toList_inj.mp hcut.1.symm, hcut.2.symm⟩

/-- No word begins with a digit. -/
theorem Token.startsWord_of_isDigit {c : Char} (h : c.isDigit = true) : startsWord c = false := by
  have hdigits : ∀ n < 10, startsWord (Char.ofNat (48 + n)) = false := by decide +kernel
  have hbounds : 48 ≤ c.toNat ∧ c.toNat ≤ 57 := by
    simpa [Char.isDigit, UInt32.le_iff_toNat_le] using h
  have hc := hdigits (c.toNat - 48) (by omega)
  rwa [show 48 + (c.toNat - 48) = c.toNat by omega, Char.ofNat_toNat] at hc

/-! ## 2. Fractions -/

theorem toList_toString_int (n : Int) : (toString n).toList =
    if 0 ≤ n then Nat.toDigits 10 n.toNat else '-' :: Nat.toDigits 10 (-n).toNat := by
  have hdigits (m : Nat) : m.repr.toList = Nat.toDigits 10 m := by
    rw [Nat.repr_eq_ofList_toDigits, String.toList_ofList]
  rw [Int.toString_eq_repr, Int.repr_eq_if]
  split
  · exact hdigits _
  · rw [String.toList_append, hdigits]
    rfl

theorem mem_toString_int {n : Int} {c : Char} (h : c ∈ (toString n).toList) :
    c.isDigit = true ∨ c = '-' := by
  rw [toList_toString_int] at h
  split at h
  · exact .inl (isDigit_toDigits _ c h)
  · rcases List.mem_cons.mp h with rfl | h
    · exact .inr rfl
    · exact .inl (isDigit_toDigits _ c h)

theorem toString_int_ne_nil (n : Int) : (toString n).toList ≠ [] := by
  rw [toList_toString_int]
  split
  · exact Nat.toDigits_ne_nil
  · exact List.cons_ne_nil _ _

theorem toString_int_inj {m n : Int} (h : (toString m).toList = (toString n).toList) : m = n := by
  have hsign (k : Nat) (ds : List Char) : Nat.toDigits 10 k ≠ '-' :: ds := fun hk =>
    absurd (isDigit_toDigits k '-' (hk ▸ List.mem_cons_self)) (by decide)
  have hvalue {j k : Nat} (hjk : Nat.toDigits 10 j = Nat.toDigits 10 k) : j = k := by
    rw [← @Nat.ofDigitChars_ten_toDigits j, hjk, Nat.ofDigitChars_ten_toDigits]
  rw [toList_toString_int, toList_toString_int] at h
  split at h
  · split at h
    · have := hvalue h
      omega
    · exact absurd h (hsign _ _)
  · split at h
    · exact absurd h.symm (hsign _ _)
    · have := hvalue (List.cons.inj h).2
      omega

namespace Literal

/-- The word in front of a fraction. -/
def fractionWord (q : ℚ) : String := if q.den = 1 then "Integer" else "Rational"

/-- What stands in parentheses behind it. -/
def fractionBody (q : ℚ) : List Char :=
  if q.den = 1 then (toString q.num).toList
  else (toString q.num).toList ++ ',' :: ' ' :: (toString (q.den : Int)).toList

theorem text_integer (n : Int) :
    (integer n).text.toList = "Integer".toList ++ '(' :: ((toString n).toList ++ [')']) := by
  show ("Integer(" ++ toString n ++ ")").toList = _
  simp

theorem text_rational (n d : Int) :
    (rational n d).text.toList = "Rational".toList ++
      '(' :: ((toString n).toList ++ ',' :: ' ' :: (toString d).toList ++ [')']) := by
  show ("Rational(" ++ toString n ++ ", " ++ toString d ++ ")").toList = _
  simp

/-- **The text of a fraction**, whichever literal it is written as. -/
theorem text_ofNumber (q : ℚ) : (ofNumber (.exact q)).text.toList =
    (fractionWord q).toList ++ '(' :: (fractionBody q ++ [')']) := by
  unfold fractionWord fractionBody
  rcases ofNumber_cases q with
    ⟨rfl, hl⟩ | ⟨rfl, hl⟩ | ⟨rfl, hl⟩ | ⟨rfl, hl⟩ | ⟨n, rfl, hl⟩ | ⟨hd, hl⟩
  · rw [hl]; decide +kernel
  · rw [hl]; decide +kernel
  · rw [hl]; decide +kernel
  · rw [hl]; decide +kernel
  · rw [hl, if_pos (Rat.den_intCast n), if_pos (Rat.den_intCast n), Rat.num_intCast]
    exact text_integer n
  · rw [hl, if_neg hd, if_neg hd]
    exact text_rational q.num q.den

/-- Word and parentheses tell the fraction. -/
theorem fraction_inj {q r : ℚ} (hw : fractionWord q = fractionWord r)
    (hb : fractionBody q = fractionBody r) : q = r := by
  have hcomma (n : Int) : ',' ∉ (toString n).toList := fun hm =>
    absurd (mem_toString_int hm) (by decide)
  unfold fractionWord at hw
  unfold fractionBody at hb
  by_cases hq : q.den = 1
  · by_cases hr : r.den = 1
    · rw [if_pos hq, if_pos hr] at hb
      exact Rat.ext (toString_int_inj hb) (hq.trans hr.symm)
    · rw [if_pos hq, if_neg hr] at hw
      exact absurd hw (by decide)
  · by_cases hr : r.den = 1
    · rw [if_neg hq, if_pos hr] at hw
      exact absurd hw (by decide)
    · rw [if_neg hq, if_neg hr] at hb
      obtain ⟨hnum, hden⟩ := append_cons_inj_first (hcomma _) (hcomma _) hb
      exact Rat.ext (toString_int_inj hnum)
        (Int.ofNat.inj (toString_int_inj (List.cons.inj hden).2))

/-- A fraction ends at the first parenthesis. -/
theorem paren_notMem_fractionBody (q : ℚ) : ')' ∉ fractionBody q := by
  have hparen (n : Int) : ')' ∉ (toString n).toList := fun hm =>
    absurd (mem_toString_int hm) (by decide)
  unfold fractionBody
  split
  · exact hparen _
  · rw [List.mem_append, List.mem_cons, List.mem_cons]
    rintro (hm | hm | hm | hm)
    · exact hparen _ hm
    · exact absurd hm (by decide)
    · exact absurd hm (by decide)
    · exact hparen _ hm

/-- A fraction begins with a digit or a sign. -/
theorem fractionBody_head (q : ℚ) :
    ∃ c cs, fractionBody q = c :: cs ∧ (c.isDigit = true ∨ c = '-') := by
  obtain ⟨c, cs, hnum⟩ := List.exists_cons_of_ne_nil (toString_int_ne_nil q.num)
  have hc : c.isDigit = true ∨ c = '-' := mem_toString_int (hnum ▸ List.mem_cons_self)
  unfold fractionBody
  rw [hnum]
  split
  · exact ⟨c, cs, rfl, hc⟩
  · exact ⟨c, _, rfl, hc⟩

end Literal

/-! ## 3. Forms -/

namespace Tree

/-- Words for names, and no literal but constants and fractions. -/
inductive Legible : Tree → Prop where
  | symbol {name : String} (word : IsWord name) : Legible (.symbol name)
  | constant {l : Literal} (h : l = .pi ∨ l = .exp1 ∨ l = .complexInfinity) : Legible (.literal l)
  | fraction (q : ℚ) : Legible (.literal (.ofNumber (.exact q)))
  | operation {op : Operator} {args : List Tree} (word : IsWord op.name)
      (legible : ∀ a ∈ args, Legible a) : Legible (.operation op args)

/-- The forms of a text, told by what stands behind its first word. -/
inductive Form where
  | symbol
  | fraction
  | call
  | constant
  deriving DecidableEq, Repr

/-- The form of a text, from what stands behind its first word. -/
def Form.ofTail : List Char → Form
  | mark :: c :: _ =>
    if mark ≠ '(' then constant
    else if c = '\'' then symbol
    else if c.isDigit = true ∨ c = '-' then fraction
    else call
  | _ => constant

/-- What may stand behind a text: nothing, or what ends an argument. -/
def Closes (rest : List Char) : Prop := ∀ c ∈ rest.head?, c = ',' ∨ c = ')'

theorem closes_cons {c : Char} (h : c = ',' ∨ c = ')') (rest : List Char) : Closes (c :: rest) := by
  intro d hd
  cases hd
  exact h

/-- How a tree is spelled: its form, its first word, and what stands behind the word. -/
inductive Spelled : Tree → Form → String → List Char → Prop where
  | symbol {name : String} (word : IsWord name) :
      Spelled (.symbol name) .symbol "Symbol" ('(' :: '\'' :: (name.toList ++ ['\'', ')']))
  | fraction (q : ℚ) : Spelled (.literal (.ofNumber (.exact q))) .fraction (Literal.fractionWord q)
      ('(' :: (Literal.fractionBody q ++ [')']))
  | call {op : Operator} {args : List Tree} (word : IsWord op.name)
      (legible : ∀ a ∈ args, a.Legible) :
      Spelled (.operation op args) .call op.name ('(' :: ((textAll args).toList ++ [')']))
  | constant {l : Literal} (h : l = .pi ∨ l = .exp1 ∨ l = .complexInfinity) :
      Spelled (.literal l) .constant l.text []

/-- The texts of further arguments, each behind a comma. -/
def further (args : List Tree) : List Char := args.flatMap fun a => ',' :: ' ' :: a.text.toList

theorem toList_textAll_cons (first : Tree) (rest : List Tree) :
    (textAll (first :: rest)).toList = first.text.toList ++ further rest := by
  induction rest generalizing first with
  | nil => exact (List.append_nil _).symm
  | cons second rest ih =>
    show (first.text ++ ", " ++ textAll (second :: rest)).toList = _
    rw [String.toList_append, String.toList_append, ih, List.append_assoc]
    rfl

theorem closes_further (args : List Tree) (rest : List Char) :
    Closes (further args ++ ')' :: rest) := by
  cases args with
  | nil => exact closes_cons (.inr rfl) rest
  | cons a args => exact closes_cons (.inl rfl) _

variable {a b : Tree} {form form' : Form} {word word' : String} {tail tail' xs ys : List Char}

/-- **Every legible tree is spelled in one of the forms.** -/
theorem Legible.spelled (h : a.Legible) :
    ∃ form word tail, Spelled a form word tail ∧ a.text.toList = word.toList ++ tail := by
  cases h with
  | @symbol name hname =>
    refine ⟨_, _, _, .symbol hname, ?_⟩
    show ("Symbol('" ++ name ++ "')").toList = _
    simp
  | constant hl => exact ⟨_, _, _, .constant hl, (List.append_nil _).symm⟩
  | fraction q => exact ⟨_, _, _, .fraction q, Literal.text_ofNumber q⟩
  | @operation op args hname hargs =>
    refine ⟨_, _, _, .call hname hargs, ?_⟩
    show (op.name ++ "(" ++ textAll args ++ ")").toList = _
    simp

theorem Spelled.isWord (h : Spelled a form word tail) : IsWord word := by
  cases h with
  | symbol _ => decide +kernel
  | fraction q =>
    unfold Literal.fractionWord
    split <;> decide +kernel
  | call hname _ => exact hname
  | constant hl => rcases hl with rfl | rfl | rfl <;> decide +kernel

/-- A text begins as words do. -/
theorem Legible.head (h : a.Legible) : ∃ c cs, a.text.toList = c :: cs ∧ startsWord c = true := by
  obtain ⟨form, word, tail, hs, htext⟩ := h.spelled
  obtain ⟨c, cs, hword, hc, -⟩ := hs.isWord
  exact ⟨c, cs ++ tail, by rw [htext, hword]; rfl, hc⟩

theorem ofTail_of_startsWord {c : Char} (h : startsWord c = true) (cs : List Char) :
    Form.ofTail ('(' :: c :: cs) = .call := by
  have hquote : c ≠ '\'' := by
    rintro rfl
    exact absurd h (by decide +kernel)
  have hnumber : ¬ (c.isDigit = true ∨ c = '-') := by
    rintro (hd | rfl)
    · rw [Token.startsWord_of_isDigit hd] at h
      cases h
    · exact absurd h (by decide +kernel)
  show (if '(' ≠ '(' then Form.constant else if c = '\'' then .symbol
    else if c.isDigit = true ∨ c = '-' then .fraction else .call) = .call
  rw [if_neg (by decide), if_neg hquote, if_neg hnumber]

/-- **What stands behind the first word tells the form.** -/
theorem Spelled.ofTail (h : Spelled a form word tail) (hx : Closes xs) :
    Form.ofTail (tail ++ xs) = form := by
  cases h with
  | symbol _ => rfl
  | fraction q =>
    obtain ⟨c, cs, hbody, hc⟩ := Literal.fractionBody_head q
    have hquote : c ≠ '\'' := by
      rintro rfl
      exact absurd hc (by decide)
    rw [hbody]
    show (if '(' ≠ '(' then Form.constant else if c = '\'' then .symbol
      else if c.isDigit = true ∨ c = '-' then .fraction else .call) = .fraction
    rw [if_neg (by decide), if_neg hquote, if_pos hc]
  | @call op args _ hargs =>
    cases args with
    | nil => rfl
    | cons first rest =>
      obtain ⟨c, cs, hfirst, hc⟩ := (hargs first List.mem_cons_self).head
      rw [toList_textAll_cons, hfirst]
      exact ofTail_of_startsWord hc _
  | constant _ =>
    cases xs with
    | nil => rfl
    | cons mark rest =>
      cases rest with
      | nil => rfl
      | cons c rest =>
        have hmark : mark ≠ '(' := by
          rintro rfl
          exact absurd (hx _ rfl) (by decide)
        exact if_pos hmark

/-- Behind the first word stands nothing that it could go on with. -/
theorem Spelled.stops (h : Spelled a form word tail) (hx : Closes xs) :
    ∀ c ∈ (tail ++ xs).head?, continuesWord c = false := by
  have hparen : ∀ c ∈ some '(', continuesWord c = false := by
    intro c hc
    cases hc
    decide +kernel
  cases h with
  | symbol _ => exact hparen
  | fraction q => exact hparen
  | call _ _ => exact hparen
  | constant _ =>
    intro c hc
    rcases hx c hc with rfl | rfl <;> decide +kernel

/-- **Equal texts have the same form and the same first word.** -/
theorem Spelled.cancel (ha : Spelled a form word tail) (hb : Spelled b form' word' tail')
    (hx : Closes xs) (hy : Closes ys)
    (h : word.toList ++ tail ++ xs = word'.toList ++ tail' ++ ys) :
    form = form' ∧ word = word' ∧ tail ++ xs = tail' ++ ys := by
  rw [List.append_assoc, List.append_assoc] at h
  obtain ⟨hword, htail⟩ := ha.isWord.cancel hb.isWord (ha.stops hx) (hb.stops hy) h
  refine ⟨?_, hword, htail⟩
  rw [← ha.ofTail hx, htail]
  exact hb.ofTail hy

/-! ## 4. Equal texts -/

mutual
/-- The tree with every operation told by its name only. -/
def byName : Tree → Tree
  | symbol name => symbol name
  | literal value => literal value
  | operation op args => operation (.undefined op.name) (byNameAll args)

def byNameAll : List Tree → List Tree
  | [] => []
  | a :: as => a.byName :: byNameAll as
end

mutual
/-- Names are all that a text has of operations. -/
theorem text_byName : ∀ a : Tree, a.byName.text = a.text
  | symbol _ => rfl
  | literal _ => rfl
  | operation op args => by
      show op.name ++ "(" ++ textAll (byNameAll args) ++ ")" = op.name ++ "(" ++ textAll args ++ ")"
      rw [textAll_byNameAll args]

theorem textAll_byNameAll : ∀ as : List Tree, textAll (byNameAll as) = textAll as
  | [] => rfl
  | [a] => text_byName a
  | a :: b :: as => by
      show a.byName.text ++ ", " ++ textAll (byNameAll (b :: as)) =
        a.text ++ ", " ++ textAll (b :: as)
      rw [text_byName a, textAll_byNameAll (b :: as)]
end

/-- Whatever stands behind, an equal text is that of a tree that agrees by name; and then what
    stands behind agrees too. -/
def Cancels (a : Tree) : Prop :=
  ∀ (b : Tree) (xs ys : List Char), b.Legible → Closes xs → Closes ys →
    a.text.toList ++ xs = b.text.toList ++ ys → a.byName = b.byName ∧ xs = ys

theorem cancel_further {as bs : List Tree} (ha : ∀ a ∈ as, a.Cancels) (hb : ∀ b ∈ bs, b.Legible)
    (h : further as ++ ')' :: xs = further bs ++ ')' :: ys) :
    byNameAll as = byNameAll bs ∧ xs = ys := by
  induction as generalizing bs with
  | nil =>
    cases bs with
    | nil => exact ⟨rfl, (List.cons.inj h).2⟩
    | cons b bs => exact absurd (List.cons.inj h).1 (by decide)
  | cons a as ih =>
    cases bs with
    | nil => exact absurd (List.cons.inj h).1 (by decide)
    | cons b bs =>
      obtain ⟨ha, has⟩ := List.forall_mem_cons.mp ha
      obtain ⟨hb, hbs⟩ := List.forall_mem_cons.mp hb
      have h : (a.text.toList ++ further as) ++ ')' :: xs =
          (b.text.toList ++ further bs) ++ ')' :: ys :=
        (List.cons.inj (List.cons.inj h).2).2
      rw [List.append_assoc, List.append_assoc] at h
      obtain ⟨hname, hrest⟩ := ha b _ _ hb (closes_further as xs) (closes_further bs ys) h
      obtain ⟨hnames, hrest⟩ := ih has hbs hrest
      exact ⟨congrArg₂ List.cons hname hnames, hrest⟩

/-- The closing parenthesis does not begin an argument. -/
theorem Legible.cons_ne (h : a.Legible) : ')' :: xs ≠ a.text.toList ++ ys := by
  obtain ⟨c, cs, htext, hc⟩ := h.head
  intro heq
  rw [htext] at heq
  obtain ⟨rfl, -⟩ := List.cons.inj heq
  exact absurd hc (by decide +kernel)

/-- The arguments of an operation, up to the closing parenthesis. -/
theorem cancel_arguments {as bs : List Tree} (ha : ∀ a ∈ as, a.Legible ∧ a.Cancels)
    (hb : ∀ b ∈ bs, b.Legible)
    (h : (textAll as).toList ++ ')' :: xs = (textAll bs).toList ++ ')' :: ys) :
    byNameAll as = byNameAll bs ∧ xs = ys := by
  cases as with
  | nil =>
    cases bs with
    | nil => exact ⟨rfl, (List.cons.inj h).2⟩
    | cons b bs =>
      rw [toList_textAll_cons, List.append_assoc] at h
      exact absurd h (hb b List.mem_cons_self).cons_ne
  | cons a as =>
    cases bs with
    | nil =>
      rw [toList_textAll_cons, List.append_assoc] at h
      exact absurd h.symm (ha a List.mem_cons_self).1.cons_ne
    | cons b bs =>
      obtain ⟨ha, has⟩ := List.forall_mem_cons.mp ha
      obtain ⟨hb, hbs⟩ := List.forall_mem_cons.mp hb
      rw [toList_textAll_cons, toList_textAll_cons, List.append_assoc, List.append_assoc] at h
      obtain ⟨hname, hrest⟩ := ha.2 b _ _ hb (closes_further as xs) (closes_further bs ys) h
      obtain ⟨hnames, hrest⟩ := cancel_further (fun a ha => (has a ha).2) hbs hrest
      exact ⟨congrArg₂ List.cons hname hnames, hrest⟩

/-- **One level**: a text cancels if those of the arguments do. -/
theorem Legible.cancels_of_args (h : a.Legible)
    (hargs : ∀ op args, a = .operation op args → ∀ x ∈ args, x.Cancels) : a.Cancels := by
  intro b xs ys hb hx hy heq
  obtain ⟨form, word, tail, hsa, htext⟩ := h.spelled
  obtain ⟨form', word', tail', hsb, htext'⟩ := hb.spelled
  rw [htext, htext'] at heq
  obtain ⟨rfl, hword, htail⟩ := hsa.cancel hsb hx hy heq
  -- the two are of one form now
  cases hsa with
  | @symbol name hname =>
    cases hsb with
    | @symbol name' hname' =>
      have htail : name.toList ++ ['\'', ')'] ++ xs = name'.toList ++ ['\'', ')'] ++ ys :=
        (List.cons.inj (List.cons.inj htail).2).2
      rw [List.append_assoc, List.append_assoc] at htail
      have hquote (zs : List Char) :
          ∀ c ∈ (['\'', ')'] ++ zs).head?, continuesWord c = false := by
        intro c hc
        cases hc
        decide +kernel
      obtain ⟨rfl, hrest⟩ := hname.cancel hname' (hquote xs) (hquote ys) htail
      exact ⟨rfl, List.append_cancel_left hrest⟩
  | fraction q =>
    cases hsb with
    | fraction r =>
      have htail : Literal.fractionBody q ++ [')'] ++ xs = Literal.fractionBody r ++ [')'] ++ ys :=
        (List.cons.inj htail).2
      rw [List.append_assoc, List.append_assoc] at htail
      obtain ⟨hbody, hrest⟩ := append_cons_inj_first (Literal.paren_notMem_fractionBody q)
        (Literal.paren_notMem_fractionBody r) htail
      rw [Literal.fraction_inj hword hbody]
      exact ⟨rfl, hrest⟩
  | @call op args _ hlegible =>
    cases hsb with
    | @call op' args' _ hlegible' =>
      have htail : (textAll args).toList ++ [')'] ++ xs = (textAll args').toList ++ [')'] ++ ys :=
        (List.cons.inj htail).2
      rw [List.append_assoc, List.append_assoc] at htail
      have hboth : ∀ x ∈ args, x.Legible ∧ x.Cancels :=
        fun x hm => ⟨hlegible x hm, hargs op args rfl x hm⟩
      obtain ⟨hnames, hrest⟩ := cancel_arguments hboth hlegible' htail
      refine ⟨?_, hrest⟩
      show Tree.operation (.undefined op.name) (byNameAll args) =
        .operation (.undefined op'.name) (byNameAll args')
      rw [hword, hnames]
  | @constant l hl =>
    cases hsb with
    | @constant l' hl' =>
      have hdistinct : ∀ m ∈ [Literal.pi, .exp1, .complexInfinity],
          ∀ m' ∈ [Literal.pi, .exp1, .complexInfinity], m.text = m'.text → m = m' := by
        decide +kernel
      obtain rfl := hdistinct l (by simpa using hl) l' (by simpa using hl') hword
      exact ⟨rfl, htail⟩

/-- **Equal texts are texts of trees that agree by name.** -/
theorem Legible.cancels (h : a.Legible) : a.Cancels := by
  induction h with
  | symbol hname => exact (Legible.symbol hname).cancels_of_args nofun
  | constant hl => exact (Legible.constant hl).cancels_of_args nofun
  | fraction q => exact (Legible.fraction q).cancels_of_args nofun
  | operation hname hlegible ih =>
    refine (Legible.operation hname hlegible).cancels_of_args fun op args heq => ?_
    cases heq
    exact ih

/-- **The text of a legible tree tells the tree by name**, and nothing more. -/
theorem text_eq_iff (ha : a.Legible) (hb : b.Legible) : a.text = b.text ↔ a.byName = b.byName := by
  constructor
  · intro h
    have hnil : Closes [] := fun c hc => by cases hc
    exact (ha.cancels b [] [] hb hnil hnil (by rw [h])).1
  · intro h
    rw [← text_byName a, h, text_byName b]

end Tree

end FormulaGraph
