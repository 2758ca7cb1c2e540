/-
  File:      FormulaGraph/Proofs/Table/Written.lean
  Subject:   What stands in the nodes that reading formulas leaves behind.

  Names come from word tokens, and the numbers that a builder writes down come from arithmetic or
  from a formula, so they can be read off again. That is a property of each node by itself: which
  arguments it has does not matter.

  * `Literal.Settled` -- a constant, or the literal of a number that can be written down;
  * `Node.Written`, `Table.Written` -- words and settled literals only;
  * `Table.Written.sum`, …, `Formula.writes_lower` -- builders and lowering add no others;
  * `Table.written_readAll` -- reading any texts, one after the other, into the empty table.
-/
import FormulaGraph.Proofs.Grammar.Names
import FormulaGraph.Proofs.Table.Normal

namespace FormulaGraph

variable {t : Table} {id : Nat} {node : Node} {n : Number} {span : Span}

/-! ## 1. Nodes -/

/-- A constant that is never folded, or the literal of a number that can be written down. -/
def Literal.Settled (l : Literal) : Prop :=
  l = .pi ∨ l = .exp1 ∨ l = .complexInfinity ∨ ∃ n : Number, n.Settled ∧ l = .ofNumber n

theorem Literal.settled_complexInfinity : Literal.Settled .complexInfinity := .inr (.inr (.inl rfl))

theorem Literal.settled_ofNumber (h : n.Settled) : (Literal.ofNumber n).Settled :=
  .inr (.inr (.inr ⟨n, h, rfl⟩))

/-- The literal of the number that a settled literal stands for is that literal. -/
theorem Literal.Settled.ofNumber_eq {l : Literal} (h : l.Settled) (hn : l.toNumber? = some n) :
    Literal.ofNumber n = l := by
  rcases h with rfl | rfl | rfl | ⟨m, hm, rfl⟩
  · cases hn
  · cases hn
  · cases hn
  · rw [toNumber?_ofNumber hm] at hn
    rw [Option.some.inj hn]

/-- An operator whose name is a word if it is an undefined function. -/
def Operator.Worded : Operator → Prop
  | undefined name => Token.IsWord name
  | _ => True

theorem Operator.worded_ofCall {name : String} (h : Token.IsWord name) :
    (ofCall name).1.Worded := by
  unfold ofCall
  cases hl : functions.lookup name with
  | none => exact h
  | some entry =>
    have hknown : ∀ entry ∈ functions, entry.2.1.Worded := by simp [functions, Worded]
    exact hknown _ (Assoc.mem_of_lookup hl)

/-- Words and settled literals only. -/
def Node.Written : Node → Prop
  | symbol name => Token.IsWord name
  | literal value => value.Settled
  | operation op _ => op.Worded

/-! ## 2. Builders -/

namespace Table

/-- All nodes are written. -/
def Written (t : Table) : Prop := ∀ id node, t.node? id = some node → node.Written

theorem written_empty : empty.Written := by
  intro id node hn
  simp [node?, empty] at hn

theorem Written.intern (h : t.Written) (hn : node.Written) : (t.intern node).2.Written := by
  intro id other hother
  rcases node?_intern_cases hother with hold | rfl
  · exact h id other hold
  · exact hn

theorem Written.number (h : t.Written) (hn : n.Settled) : (t.number n).2.Written :=
  h.intern (Literal.settled_ofNumber hn)

theorem Written.infinity (h : t.Written) : (t.literal .complexInfinity).2.Written :=
  h.intern Literal.settled_complexInfinity

theorem Written.combine {coefficient : Option Number} {alone : Number} (h : t.Written)
    (op : Operator) (hop : op.Worded) (hc : ∀ c, coefficient = some c → c.Settled)
    (halone : alone.Settled) (args : List Nat) :
    (t.combine op coefficient args alone).2.Written := by
  unfold Table.combine
  split
  · exact h.number halone
  · exact h
  · exact h.intern hop
  · exact (h.number (hc _ rfl)).intern hop

theorem Written.sum (h : t.Written) (args : List Nat) : (t.sum args).2.Written := by
  unfold Table.sum
  dsimp only
  split
  · exact h.infinity
  · have hsettled := foldNumbers_settled Number.add_settled t (args.flatMap (t.operands .add))
    exact h.combine .add trivial (fun c hc => hsettled c (Option.filter_eq_some_iff.mp hc).1)
      (Number.getD_settled hsettled (Number.settled_ofInt 0)) _

theorem Written.product (h : t.Written) (args : List Nat) : (t.product args).2.Written := by
  unfold Table.product
  dsimp only
  split
  · exact h.infinity
  · split
    · exact h.number (Number.settled_ofInt 0)
    · have hsettled := foldNumbers_settled Number.mul_settled t (args.flatMap (t.operands .mul))
      exact h.combine .mul trivial (fun c hc => hsettled c (Option.filter_eq_some_iff.mp hc).1)
        (Number.getD_settled hsettled (Number.settled_ofInt 1)) _

theorem Written.power {base exponent : Nat} {result : Nat × Table} (h : t.Written)
    (hp : t.power base exponent = .ok result) : result.2.Written := by
  cases powered hp with
  | base _ => exact h
  | one _ => exact h.number (Number.settled_ofInt 1)
  | infinity _ _ _ => exact h.infinity
  | number _ _ hn => exact h.number (Number.pow?_settled hn)
  | operation _ _ _ => exact h.intern trivial

theorem Written.remainder {a b : Nat} {result : Nat × Table} (h : t.Written)
    (hr : t.remainder? a b = some result) : result.2.Written := by
  unfold remainder? at hr
  split at hr
  · obtain ⟨n, hn, rfl⟩ := Option.map_eq_some_iff.mp hr
    exact h.number (Number.modulo?_settled hn)
  · cases hr
    exact h.intern trivial

theorem Written.negate (h : t.Written) (id : Nat) : (t.negate id).2.Written :=
  (h.number (Number.settled_ofInt (-1))).product _

end Table

/-! ## 3. Lowering -/

namespace Lowering

variable {α β : Type}

/-- A step leaves a table written, whether it succeeds or not. -/
def Writes (m : Lowering α) : Prop := ∀ t : Table, t.Written → (stateOf (m t)).Written

theorem Writes.bind {m : Lowering α} {f : α → Lowering β} (hm : Writes m) (hf : ∀ x, Writes (f x)) :
    Writes (m >>= f) := by
  intro t h
  have hfirst := hm t h
  show (stateOf (EStateM.bind m f t)).Written
  unfold EStateM.bind
  cases hr : m t with
  | ok x t₁ =>
    rw [hr] at hfirst
    exact hf x t₁ hfirst
  | error e t₁ =>
    rw [hr] at hfirst
    exact hfirst

theorem writes_pure (x : α) : Writes (pure x : Lowering α) := fun _ h => h

theorem writes_throw (e : Stop FormulaError) : Writes (throw e : Lowering α) := fun _ h => h

theorem writes_build {f : Table → Nat × Table} (hf : ∀ t : Table, t.Written → (f t).2.Written) :
    Writes (build f) := hf

theorem writes_symbol {name : String} (hname : Token.IsWord name) : Writes (symbol name) := by
  unfold symbol
  split
  · exact writes_build fun t h => h.intern (.inl rfl)
  · exact writes_build fun t h => h.intern (.inr (.inl rfl))
  · exact writes_build fun t h => h.infinity
  · exact writes_build fun t h => h.intern hname

theorem writes_remainder (a b : Nat) : Writes (remainder a b span) := by
  intro t h
  unfold remainder
  split
  · rename_i hr
    exact h.remainder hr
  · exact h

theorem writes_power (a b : Nat) : Writes (power a b) := by
  intro t h
  unfold power
  split
  · rename_i hr
    exact h.power hr
  · exact h

theorem writes_reciprocal (id : Nat) : Writes (reciprocal id) :=
  (writes_build fun _ h => h.number (Number.settled_ofInt (-1))).bind fun _ => writes_power _ _

theorem writes_binary (op : BinaryOp) (a b : Nat) : Writes (binary op a b span) := by
  cases op with
  | add => exact writes_build fun t h => h.sum _
  | subtract =>
    exact (writes_build fun t h => h.negate _).bind fun _ => writes_build fun t h => h.sum _
  | multiply => exact writes_build fun t h => h.product _
  | divide =>
    exact (writes_reciprocal _).bind fun _ => writes_build fun t h => h.product _
  | modulo => exact writes_remainder a b
  | power => exact writes_power _ _

theorem writes_call {op : Operator} (hop : op.Worded) (args : List Nat) :
    Writes (call op args span) := by
  have hlog (arg : Nat) : Writes (build (·.operation .log [arg])) :=
    writes_build fun t h => h.intern trivial
  unfold call
  split
  · refine (hlog _).bind fun above => (hlog _).bind fun below => ?_
    exact (writes_reciprocal _).bind fun inverse => writes_build fun t h => h.product _
  · exact writes_pure _
  · exact writes_pure _
  · exact writes_remainder _ _
  · exact writes_build fun t h => h.intern hop

end Lowering

namespace Formula

open Lowering (Writes)

mutual
/-- **Lowering writes words and settled literals**, given that the formula's names are words. -/
theorem writes_lower : ∀ f : Formula, (∀ name ∈ f.shape.names, Token.IsWord name) → Writes f.lower
  | integer value _, _ => Lowering.writes_build fun t h => h.number (Number.settled_ofInt value)
  | float value _, _ => Lowering.writes_build fun t h => h.number (.float (.ofFloat value))
  | symbol name _, hnames => Lowering.writes_symbol (hnames name (List.mem_singleton_self name))
  | binary op left right _, hnames => by
      obtain ⟨hleft, hright⟩ := List.forall_mem_append.mp hnames
      exact (writes_lower left hleft).bind fun a => (writes_lower right hright).bind fun b =>
        Lowering.writes_binary op a b
  | negative operand _, hnames =>
      (writes_lower operand hnames).bind fun _ => Lowering.writes_build fun t h => h.negate _
  | call name arguments span, hnames => by
      obtain ⟨hname, harguments⟩ := List.forall_mem_cons.mp hnames
      show Writes (if (Operator.ofCall name).2.accepts arguments.length then
        lowerAll arguments >>= fun args => Lowering.call (Operator.ofCall name).1 args span
        else throw (.refused (.wrongArity name (Operator.ofCall name).2 arguments.length span)))
      split
      · exact (writes_lowerAll arguments harguments).bind fun args =>
          Lowering.writes_call (Operator.worded_ofCall hname) args
      · exact Lowering.writes_throw _
  | group inner _, hnames => writes_lower inner hnames

theorem writes_lowerAll : ∀ fs : List Formula,
    (∀ name ∈ Shape.namesAll (shapeAll fs), Token.IsWord name) → Writes (lowerAll fs)
  | [], _ => Lowering.writes_pure _
  | f :: fs, hnames => by
      obtain ⟨hfirst, hrest⟩ := List.forall_mem_append.mp hnames
      exact (writes_lower f hfirst).bind fun _ => (writes_lowerAll fs hrest).bind fun _ =>
        Lowering.writes_pure _
end

end Formula

namespace Table

theorem writes_read (cs : List Char) : Lowering.Writes (Table.read cs) := by
  unfold Table.read
  cases hp : Formula.parse cs with
  | ok f => exact f.writes_lower (Formula.isWord_of_parse hp)
  | error e => exact Lowering.writes_throw (.refused e)

/-- **Reading formulas writes words and settled literals only.** -/
theorem written_readAll (texts : List (List Char)) : (readAll texts).Written := by
  induction texts using List.reverseRecOn with
  | nil => exact written_empty
  | append_singleton texts cs ih =>
    have hstep : readAll (texts ++ [cs]) = stateOf (read cs (readAll texts)) := by simp [readAll]
    rw [hstep]
    exact writes_read cs _ ih

end Table

end FormulaGraph
