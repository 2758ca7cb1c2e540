/-
  File:      FormulaGraph/Proofs/Grammar/Spans.lean
  Subject:   The places that the parser writes down.

  Every span comes from tokens: the span of one, or from the start of one to the end of a later one.
  Tokens lie in the text one behind the other, so if the parser meets them in this order all spans
  fit. The invariant says where it stands: what was read ends before the token that comes next.

  * `Formula.Placed` -- a formula whose spans fit the text;
  * `Walks` -- a formula or a cause with fitting spans;
  * `Formula.parser_walks` -- whatever room there is, the parser walks;
  * `Table.read_refuses` -- the causes for which a text is refused can be shown.
-/
import FormulaGraph.Lowering
import FormulaGraph.Proofs.Grammar.Recognition
import FormulaGraph.Proofs.Number.Arithmetic
import FormulaGraph.Proofs.Report.Shown
import FormulaGraph.Proofs.Table.Growth
import FormulaGraph.Proofs.Token.Layout

namespace FormulaGraph

open Token (Laid)

/-! ## 1. Formulas in a text -/

/-- A formula whose spans fit the text; the names of its calls are one line. -/
inductive Formula.Placed (cs : List Char) : Formula → Prop where
  | integer {value : Int} {span : Span} (h : span.Fits cs) : Placed cs (.integer value span)
  | float {value : Float} {span : Span} (h : span.Fits cs) : Placed cs (.float value span)
  | symbol {name : String} {span : Span} (h : span.Fits cs) : Placed cs (.symbol name span)
  | binary {op : BinaryOp} {left right : Formula} {span : Span} (h : span.Fits cs)
      (hl : Placed cs left) (hr : Placed cs right) : Placed cs (.binary op left right span)
  | negative {operand : Formula} {span : Span} (h : span.Fits cs) (ho : Placed cs operand) :
      Placed cs (.negative operand span)
  | call {name : String} {args : List Formula} {span : Span} (h : span.Fits cs)
      (hname : OneLine name) (hargs : ∀ arg ∈ args, Placed cs arg) :
      Placed cs (.call name args span)
  | group {inner : Formula} {span : Span} (h : span.Fits cs) (hi : Placed cs inner) :
      Placed cs (.group inner span)

theorem Formula.Placed.fits {cs : List Char} {f : Formula} (h : f.Placed cs) : f.span.Fits cs := by
  cases h <;> assumption

/-- What a step gives, or a cause that can be shown. -/
def Walks {α : Type} (cs : List Char) (P : α → List Token → Prop) :
    Except FormulaError (α × List Token) → Prop
  | .ok (a, rest) => P a rest
  | .error e => e.Presentable cs

theorem Walks.bind {α β : Type} {cs : List Char} {P : α → List Token → Prop}
    {Q : β → List Token → Prop} {r : Except FormulaError (α × List Token)}
    {k : α × List Token → Except FormulaError (β × List Token)} (h : Walks cs P r)
    (hk : ∀ a rest, P a rest → Walks cs Q (k (a, rest))) : Walks cs Q (r >>= k) := by
  cases r with
  | ok found => exact hk found.1 found.2 h
  | error e => exact h

theorem Walks.mono {α : Type} {cs : List Char} {P Q : α → List Token → Prop}
    {r : Except FormulaError (α × List Token)} (h : Walks cs P r)
    (hpq : ∀ a rest, P a rest → Q a rest) : Walks cs Q r := by
  cases r with
  | ok found => exact hpq found.1 found.2 h
  | error e => exact h

namespace Formula

variable {cs : List Char} {stop : Token} {ts : List Token} {lo : Nat}

/-- A formula that was read from `lo` on, and the tokens behind it. -/
structure Spanned (cs : List Char) (stop : Token) (lo : Nat) (f : Formula) (rest : List Token) :
    Prop where
  placed : f.Placed cs
  laid : Laid cs stop rest
  lower : lo ≤ f.span.start
  upper : f.span.stop ≤ (current stop rest).start

/-- Where the parser stands when it has read something from `lo` on. -/
theorem Spanned.le {f : Formula} {rest : List Token} (h : Spanned cs stop lo f rest) :
    lo ≤ (current stop rest).start :=
  Nat.le_trans h.lower (Nat.le_trans h.placed.fits.ordered h.upper)

theorem laid_current (h : Laid cs stop ts) : (current stop ts).Fits cs := by
  cases ts with
  | nil => exact h.stop_fits
  | cons t ts => exact h.head

/-- A token ends before the next one begins. -/
theorem laid_next {t : Token} (h : Laid cs stop (t :: ts)) :
    t.span.stop ≤ (current stop ts).start := by
  cases ts with
  | nil => exact h.before_stop t List.mem_cons_self
  | cons u us => exact List.rel_of_pairwise_cons h.ordered List.mem_cons_self

/-- A cause at a place that fits. -/
theorem presentable_at {span : Span} (h : span.Fits cs) {e : FormulaError} (he : e.Plain)
    (hspan : e.span? = some span) : e.Presentable cs := by
  refine ⟨fun s hs => ?_, he.oneLine⟩
  rw [hspan] at hs
  cases hs
  exact h

/-- A cause at the token that comes next. -/
theorem presentable_current (h : Laid cs stop ts) {e : FormulaError} (he : e.Plain)
    (hspan : e.span? = some (current stop ts).span) : e.Presentable cs :=
  presentable_at (laid_current h).span he hspan

theorem tooDeep_walks {α : Type} {P : α → List Token → Prop} (h : Laid cs stop ts) :
    Walks cs P (tooDeep stop ts) := presentable_current h trivial rfl

/-! ## 2. Primaries -/

/-- A closing parenthesis that was read from `lo` on. -/
structure Closed (cs : List Char) (stop : Token) (lo : Nat) (close : Token) (rest : List Token) :
    Prop where
  fits : close.Fits cs
  laid : Laid cs stop rest
  lower : lo ≤ close.start
  upper : close.span.stop ≤ (current stop rest).start

theorem expectClose_walks (hstop : stop.kind = .stop) (h : Laid cs stop ts)
    (hlo : lo ≤ (current stop ts).start) :
    Walks cs (Closed cs stop lo) (expectClose stop ts) := by
  unfold expectClose
  dsimp only
  split
  · rename_i hk
    obtain ⟨t, us, rfl, -⟩ := current_kind hstop hk (by simp)
    exact ⟨h.head, h.tail, hlo, laid_next h⟩
  · exact presentable_current h trivial rfl

/-- What reads the formulas inside. -/
def SumWalks (cs : List Char) (stop : Token) (read : List Token → Parsed) : Prop :=
  ∀ ts, Laid cs stop ts → Walks cs (Spanned cs stop (current stop ts).start) (read ts)

/-- Arguments, and the parenthesis that closes them. -/
def ClosedArguments (cs : List Char) (stop : Token) (lo : Nat) (found : List Formula × Token)
    (rest : List Token) : Prop :=
  (∀ arg ∈ found.1, arg.Placed cs) ∧ Closed cs stop lo found.2 rest

theorem argumentsFrom_walks (hstop : stop.kind = .stop) {read : List Token → Parsed}
    (hread : SumWalks cs stop read) (steps : Nat) (h : Laid cs stop ts)
    (hlo : lo ≤ (current stop ts).start) :
    Walks cs (ClosedArguments cs stop lo) (argumentsFrom stop read steps ts) := by
  induction steps generalizing ts lo with
  | zero => exact tooDeep_walks h
  | succ steps ih =>
    refine (hread ts h).bind fun first ts₁ hfirst => ?_
    have hlo₁ : lo ≤ (current stop ts₁).start := Nat.le_trans hlo hfirst.le
    dsimp only
    split
    · rename_i hcomma
      obtain ⟨t, us, rfl, -⟩ := current_kind hstop hcomma (by simp)
      have hus : lo ≤ (current stop us).start :=
        Nat.le_trans hlo₁ (Nat.le_trans hfirst.laid.head.span.ordered (laid_next hfirst.laid))
      refine (ih hfirst.laid.tail hus).bind fun found ts₂ hfound => ?_
      refine ⟨fun arg harg => ?_, hfound.2⟩
      rcases List.mem_cons.mp harg with rfl | harg
      · exact hfirst.placed
      · exact hfound.1 arg harg
    · refine (expectClose_walks hstop hfirst.laid hlo₁).bind fun close ts₂ hclose => ?_
      refine ⟨fun arg harg => ?_, hclose⟩
      rw [List.mem_singleton.mp harg]
      exact hfirst.placed

theorem arguments_walks (hstop : stop.kind = .stop) {read : List Token → Parsed}
    (hread : SumWalks cs stop read) (h : Laid cs stop ts) (hlo : lo ≤ (current stop ts).start) :
    Walks cs (ClosedArguments cs stop lo) (arguments stop read ts) := by
  unfold arguments
  dsimp only
  split
  · rename_i hk
    obtain ⟨t, us, rfl, -⟩ := current_kind hstop hk (by simp)
    exact ⟨fun arg harg => absurd harg List.not_mem_nil, h.head, h.tail, hlo, laid_next h⟩
  · exact argumentsFrom_walks hstop hread _ h hlo

/-- **A primary has fitting spans**, if what stands inside has. -/
theorem primary_walks (hstop : stop.kind = .stop) {read : List Token → Parsed}
    (hread : SumWalks cs stop read) : SumWalks cs stop (primary stop read) := by
  intro ts h
  cases ts with
  | nil =>
    unfold primary
    rw [current]
    simp only [hstop]
    exact presentable_current h trivial (by rw [current]; rfl)
  | cons t us =>
    have ht := h.head
    have hnext := laid_next h
    have hleaf : ∀ f : Formula, f.span = t.span → f.Placed cs →
        Spanned cs stop t.start f us := fun f hspan hf =>
      ⟨hf, h.tail, by rw [hspan]; exact Nat.le_refl _, by rw [hspan]; exact hnext⟩
    unfold primary
    rw [current, List.drop_one, List.tail_cons]
    dsimp only
    split
    · exact hleaf _ rfl (.integer ht.span)
    · exact hleaf _ rfl (.float ht.span)
    · rename_i name hword
      split
      · rename_i hopen
        obtain ⟨o, us, rfl, -⟩ := current_kind hstop hopen (by simp)
        have hlo : t.span.stop ≤ (current stop us).start :=
          Nat.le_trans hnext (Nat.le_trans h.tail.head.span.ordered (laid_next h.tail))
        refine (arguments_walks hstop hread h.tail.tail hlo).bind fun found rest hfound => ?_
        obtain ⟨hargs, hclose⟩ := hfound
        have hle : t.span.start ≤ found.2.span.stop :=
          Nat.le_trans ht.span.ordered (Nat.le_trans hclose.lower hclose.fits.span.ordered)
        exact ⟨.call (ht.span.join hclose.fits.span hle) (ht.plain.word name hword) hargs,
          hclose.laid, Nat.le_refl _, hclose.upper⟩
      · exact hleaf _ rfl (.symbol ht.span)
    · refine (hread us h.tail).bind fun inner ts₁ hinner => ?_
      refine (expectClose_walks hstop hinner.laid (Nat.le_trans hnext hinner.le)).bind
        fun close rest hclose => ?_
      have hle : t.span.start ≤ close.span.stop :=
        Nat.le_trans ht.span.ordered (Nat.le_trans hclose.lower hclose.fits.span.ordered)
      exact ⟨.group (ht.span.join hclose.fits.span hle) hinner.placed, hclose.laid,
        Nat.le_refl _, hclose.upper⟩
    · exact presentable_current h trivial rfl

/-! ## 3. Operators -/

/-- A formula that ends before the token that comes next. -/
structure Stands (cs : List Char) (stop : Token) (f : Formula) (ts : List Token) : Prop where
  placed : f.Placed cs
  laid : Laid cs stop ts
  upper : f.span.stop ≤ (current stop ts).start

theorem Spanned.stands {f : Formula} {rest : List Token} (h : Spanned cs stop lo f rest) :
    Stands cs stop f rest := ⟨h.placed, h.laid, h.upper⟩

theorem Stands.spanned {f : Formula} (h : Stands cs stop f ts) (hlo : lo ≤ f.span.start) :
    Spanned cs stop lo f ts := ⟨h.placed, h.laid, hlo, h.upper⟩

/-- What takes the operators behind a formula. -/
def StepsWalk (cs : List Char) (stop : Token) (read : Nat → Formula → List Token → Parsed) : Prop :=
  ∀ (least : Nat) (left : Formula) (ts : List Token), Stands cs stop left ts →
    Walks cs (Spanned cs stop left.span.start) (read least left ts)

theorem tighten_walks {extend : Nat → Formula → List Token → Parsed}
    (he : StepsWalk cs stop extend) (op : BinaryOp) (levels : List Nat) {right : Formula}
    (h : Stands cs stop right ts) (hlo : lo ≤ right.span.start) :
    Walks cs (Spanned cs stop lo) (tighten extend op levels right ts) := by
  induction levels generalizing right ts with
  | nil => exact h.spanned hlo
  | cons level levels ih =>
    rw [tighten]
    split
    · exact h.spanned hlo
    · split
      · refine (he level right ts h).bind fun right' ts₁ hright' => ?_
        exact ih hright'.stands (Nat.le_trans hlo hright'.lower)
      · exact ih h hlo

/-- An operator between two formulas, the second of which begins behind the first. -/
theorem Stands.combine {left right : Formula} {rest : List Token} (op : BinaryOp)
    (hleft : Stands cs stop left ts) (hlo : left.span.stop ≤ lo)
    (hright : Spanned cs stop lo right rest) : Stands cs stop (combine op left right) rest := by
  have hl := hleft.placed.fits
  have hr := hright.placed.fits
  have hle : left.span.start ≤ right.span.stop :=
    Nat.le_trans hl.ordered (Nat.le_trans hlo (Nat.le_trans hright.lower hr.ordered))
  exact ⟨.binary (hl.join hr hle) hleft.placed hright.placed, hright.laid, hright.upper⟩

/-- **The loop over operators has fitting spans**, if with less room it has, and operands have. -/
theorem steps_walk {room : Nat}
    (hless : ∀ r, room = r + 1 → SumWalks cs stop (operand stop r) ∧
      StepsWalk cs stop (steps stop r) ∧ StepsWalk cs stop (extend stop r)) :
    StepsWalk cs stop (steps stop room) := by
  intro least left ts h
  have hself : Spanned cs stop left.span.start left ts := h.spanned (Nat.le_refl _)
  cases hn : nextOperator? ts with
  | none =>
    cases room <;> rw [steps, hn] <;> exact hself
  | some found =>
    obtain ⟨op, rest⟩ := found
    obtain ⟨t, rfl, -⟩ := nextOperator?_eq_some hn
    have hlo : left.span.stop ≤ (current stop rest).start :=
      Nat.le_trans h.upper (Nat.le_trans h.laid.head.span.ordered (laid_next h.laid))
    cases room with
    | zero =>
      rw [steps, hn]
      dsimp only
      split
      · exact hself
      · exact tooDeep_walks h.laid.tail
    | succ room =>
      obtain ⟨ho, hs, he⟩ := hless room rfl
      rw [steps, hn]
      dsimp only
      split
      · exact hself
      · refine (ho rest h.laid.tail).bind fun right ts₁ hright => ?_
        refine (tighten_walks he op levels hright.stands hright.lower).bind
          fun right' ts₂ hright' => ?_
        exact hs least _ ts₂ (h.combine op hlo hright')

/-! ## 4. The whole parser -/

theorem start_walks {room : Nat} (ho : SumWalks cs stop (operand stop room))
    (hs : StepsWalk cs stop (steps stop room)) : SumWalks cs stop (start stop room room 0) := by
  intro ts h
  refine (ho ts h).bind fun first ts₁ hfirst => ?_
  exact (hs 0 first ts₁ hfirst.stands).mono fun f rest hf =>
    hf.stands.spanned (Nat.le_trans hfirst.lower hf.lower)

theorem withSign_spanned {sign : Token} {f : Formula} {rest : List Token} (hsign : sign.Fits cs)
    (hlo : sign.span.stop ≤ lo) (h : Spanned cs stop lo f rest) :
    Spanned cs stop sign.start (withSign sign f) rest := by
  have hf := h.placed.fits
  unfold withSign
  split
  · have hle : sign.span.start ≤ f.span.stop :=
      Nat.le_trans hsign.span.ordered (Nat.le_trans hlo (Nat.le_trans h.lower hf.ordered))
    exact ⟨.negative (hsign.span.join hf hle) h.placed, h.laid, Nat.le_refl _, h.upper⟩
  · exact h.stands.spanned (Nat.le_trans hsign.span.ordered (Nat.le_trans hlo h.lower))

theorem operand_walks_succ (hstop : stop.kind = .stop) {room : Nat}
    (ho : SumWalks cs stop (operand stop room)) (hs : StepsWalk cs stop (steps stop room))
    (he : StepsWalk cs stop (extend stop room)) : SumWalks cs stop (operand stop (room + 1)) := by
  intro ts h
  unfold operand
  split
  · rename_i sign rest hsign
    obtain ⟨rfl, -⟩ := nextSign?_eq_some hsign
    refine (ho rest h.tail).bind fun inner ts₁ hinner => ?_
    refine (he signLevel inner ts₁ hinner.stands).bind fun inner' ts₂ hinner' => ?_
    exact withSign_spanned h.head (laid_next h)
      (hinner'.stands.spanned (Nat.le_trans hinner.lower hinner'.lower))
  · exact primary_walks hstop (start_walks ho hs) ts h

/-- **Whatever room there is, all spans fit.** -/
theorem parser_walks (hstop : stop.kind = .stop) (room : Nat) :
    SumWalks cs stop (operand stop room) ∧ StepsWalk cs stop (steps stop room) ∧
      StepsWalk cs stop (extend stop room) := by
  induction room with
  | zero =>
    refine ⟨fun ts h => ?_, steps_walk (fun r hr => nomatch hr), fun _ _ ts h => ?_⟩
    · unfold operand
      split
      · rename_i sign rest hsign
        obtain ⟨rfl, -⟩ := nextSign?_eq_some hsign
        exact tooDeep_walks h.tail
      · exact primary_walks hstop (fun ts h => tooDeep_walks h) ts h
    · exact tooDeep_walks h.laid
  | succ room ih =>
    obtain ⟨ho, hs, he⟩ := ih
    refine ⟨operand_walks_succ hstop ho hs he, steps_walk fun r hr => ?_, hs⟩
    cases hr
    exact ⟨ho, hs, he⟩

theorem sum_walks (hstop : stop.kind = .stop) (room : Nat) : SumWalks cs stop (sum stop room) := by
  cases room with
  | zero => exact fun ts h => tooDeep_walks h
  | succ room =>
    obtain ⟨ho, hs, -⟩ := parser_walks hstop room
    exact start_walks ho hs

/-- A formula whose spans fit, or a cause that can be shown. -/
def Settles (cs : List Char) : Except FormulaError Formula → Prop
  | .ok f => f.Placed cs
  | .error e => e.Presentable cs

theorem ofTokens_settles (hstop : stop.kind = .stop) (h : Laid cs stop ts) :
    Settles cs (ofTokens stop ts) := by
  unfold ofTokens
  split
  · rename_i t hfind
    have hfits := h.fits t (List.mem_of_find?_eq_some hfind)
    have hkind := List.find?_some hfind
    have hplain : OneLine (String.ofList t.text) := by
      rw [OneLine, String.toList_ofList]
      exact hfits.plain.bad (eq_of_beq hkind)
    exact presentable_at hfits.span hplain rfl
  · split
    · exact ⟨by simp [FormulaError.span?], FormulaError.Plain.oneLine trivial⟩
    · have hsum := sum_walks hstop depthLimit ts h
      generalize sum stop depthLimit ts = result at hsum ⊢
      cases result with
      | error e => exact hsum
      | ok found =>
        obtain ⟨f, rest⟩ := found
        cases rest with
        | nil => exact hsum.placed
        | cons t rest => exact presentable_current hsum.laid trivial rfl

/-- **The places in a formula that was read, or the place of the cause, fit the text.** -/
theorem parse_settles (cs : List Char) : Settles cs (parse cs) :=
  ofTokens_settles rfl ((Token.laid_scan cs).sublist List.filter_sublist)

/-! ## 5. Lowering -/

/-- What lowering refuses, it refuses at the place of a node. It overflows only where the least
    integer of 128 bits would get its opposite. -/
def Refuses {α : Type} (cs : List Char) : EStateM.Result (Stop FormulaError) Table α → Prop
  | .ok _ _ => True
  | .error (.refused e) _ => e.Presentable cs
  | .error (.overflow cause) _ => cause = ⟨2 ^ 127⟩

theorem Refuses.bind {α β : Type} {m : Lowering α} {k : α → Lowering β} {t : Table}
    (hm : Refuses cs (m t)) (hk : ∀ a t₁, Refuses cs (k a t₁)) : Refuses cs ((m >>= k) t) := by
  show Refuses cs (EStateM.bind m k t)
  unfold EStateM.bind
  cases hr : m t with
  | ok a t₁ => exact hk a t₁
  | error stop t₁ =>
    rw [hr] at hm
    cases stop with
    | refused e => exact hm
    | overflow cause => exact hm

theorem remainder_refuses {a b : Nat} {span : Span} (h : span.Fits cs) (t : Table) :
    Refuses cs (Lowering.remainder a b span t) := by
  unfold Lowering.remainder
  split
  · trivial
  · exact presentable_at h trivial rfl

theorem power_refuses (a b : Nat) (t : Table) : Refuses cs (Lowering.power a b t) := by
  unfold Lowering.power
  split
  · trivial
  · rename_i hoverflow
    obtain ⟨b, e, -, -, hpow⟩ := Table.power_overflow hoverflow
    obtain ⟨n, d, m, -, -, hexact⟩ := Number.pow?_error_cases hpow
    exact Number.exactPower?_overflow hexact

theorem reciprocal_refuses (a : Nat) (t : Table) : Refuses cs (Lowering.reciprocal a t) :=
  Refuses.bind (m := Lowering.build (·.number (.ofInt (-1)))) trivial
    fun minusOne t₁ => power_refuses a minusOne t₁

theorem binary_refuses {op : BinaryOp} {a b : Nat} {span : Span} (h : span.Fits cs) (t : Table) :
    Refuses cs (Lowering.binary op a b span t) := by
  cases op with
  | divide => exact (reciprocal_refuses b t).bind fun _ _ => trivial
  | modulo => exact remainder_refuses h t
  | power => exact power_refuses a b t
  | _ => trivial

theorem call_refuses {op : Operator} {args : List Nat} {span : Span} (h : span.Fits cs)
    (t : Table) : Refuses cs (Lowering.call op args span t) := by
  unfold Lowering.call
  split
  · rename_i x base
    refine Refuses.bind (m := Lowering.build (·.operation .log [x])) trivial fun above t₁ => ?_
    refine Refuses.bind (m := Lowering.build (·.operation .log [base])) trivial fun below t₂ => ?_
    exact (reciprocal_refuses below t₂).bind fun _ _ => trivial
  · trivial
  · trivial
  · exact remainder_refuses h t
  · trivial

mutual
/-- **Lowering a formula whose spans fit refuses only for causes that can be shown.** -/
theorem lower_refuses : ∀ (f : Formula), f.Placed cs → ∀ t, Refuses cs (f.lower t)
  | .integer .., _, _ => trivial
  | .float .., _, _ => trivial
  | .symbol name _, _, t => by
    rw [lower]
    unfold Lowering.symbol
    split <;> trivial
  | .binary op left right span, .binary h hl hr, t => by
    rw [lower]
    refine (lower_refuses left hl t).bind fun a t₁ => ?_
    exact (lower_refuses right hr t₁).bind fun b t₂ => binary_refuses h t₂
  | .negative operand _, .negative _ ho, t => by
    rw [lower]
    exact (lower_refuses operand ho t).bind fun a t₁ => trivial
  | .call name args span, .call h hname hargs, t => by
    rw [lower]
    dsimp only
    split
    · exact (lowerAll_refuses args hargs t).bind fun ids t₁ => call_refuses h t₁
    · exact presentable_at h hname rfl
  | .group inner _, .group _ hi, t => by
    rw [lower]
    exact lower_refuses inner hi t

theorem lowerAll_refuses : ∀ (fs : List Formula), (∀ f ∈ fs, f.Placed cs) →
    ∀ t, Refuses cs (lowerAll fs t)
  | [], _, _ => trivial
  | f :: fs, h, t => by
    rw [lowerAll]
    refine (lower_refuses f (h f List.mem_cons_self) t).bind fun id t₁ => ?_
    exact (lowerAll_refuses fs (fun g hg => h g (List.mem_cons_of_mem f hg)) t₁).bind
      fun ids t₂ => trivial
end

end Formula

/-- **The causes for which a text is refused can be shown.** -/
theorem Table.read_refuses (cs : List Char) (t : Table) : Formula.Refuses cs (Table.read cs t) := by
  have hparse := Formula.parse_settles cs
  unfold Table.read
  cases hp : Formula.parse cs with
  | error e =>
    rw [hp] at hparse
    exact hparse
  | ok f =>
    rw [hp] at hparse
    exact Formula.lower_refuses f hparse t

end FormulaGraph
