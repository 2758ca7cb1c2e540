/-
  File:      FormulaGraph/Proofs/Drawing/Statements.lean
  Subject:   Reading the edges off a drawing.

  A drawing is a text. What it draws is told by its statements, one a line: a statement with an
  arrow between two quoted ids is an edge. A quote in an id is escaped and a backslash is not, so an
  id with a backslash at its end would swallow its closing quote, and a name with a newline would
  end its line.

  * `edge?`, `edges` -- the edge of a statement, and all edges of a drawing, in their order;
  * `Statement` -- a line that is read as told;
  * `statement_wireLine`, `statement_nodeLine`, `statement_portLine` -- the three kinds of lines;
  * `edges_drawing` -- the edges of a drawing are the ends of the wires.
-/
import FormulaGraph.Drawing
import FormulaGraph.Proofs.Json.Numbers
import FormulaGraph.Proofs.Text.Lines

namespace FormulaGraph

namespace Drawing

/-! ## 1. The reader -/

/-- An id up to its closing quote, and what stands behind. A quote behind a backslash is one of the
    id. -/
def readId : List Char → Option (List Char × List Char)
  | [] => none
  | '"' :: rest => some ([], rest)
  | '\\' :: '"' :: rest => (readId rest).map fun r => ('"' :: r.1, r.2)
  | c :: rest => (readId rest).map fun r => (c :: r.1, r.2)

/-- What stands behind a mark. -/
def behind? (mark cs : List Char) : Option (List Char) :=
  if mark.isPrefixOf cs then some (cs.drop mark.length) else none

theorem behind?_append (mark cs : List Char) : behind? mark (mark ++ cs) = some cs := by
  simp [behind?]

/-- The ids that a statement joins, if it is an edge. -/
def edge? (line : List Char) : Option (String × String) :=
  (behind? ['\t', '"'] line).bind fun rest =>
    (readId rest).bind fun source =>
      (behind? [' ', '-', '>', ' ', '"'] source.2).bind fun rest =>
        (readId rest).map fun target => (String.ofList source.1, String.ofList target.1)

/-- The edges of a drawing. -/
def edges (drawing : String) : List (String × String) :=
  (drawing.toList.splitOn '\n').filterMap edge?

/-- A name that can be read back: one line, and no backslash. -/
def IsTame (name : String) : Prop := OneLine name ∧ '\\' ∉ name.toList

instance (name : String) : Decidable (IsTame name) := inferInstanceAs (Decidable (_ ∧ _))

theorem toList_quote (id : String) : (quote id).toList =
    '"' :: ((id.toList.flatMap fun c => if c = '"' then ['\\', '"'] else [c]) ++ ['"']) := by
  show ("\"" ++ String.ofList _ ++ "\"").toList = _
  simp

/-- **A quoted id is read back.** -/
theorem readId_quoted {id : List Char} (h : '\\' ∉ id) (rest : List Char) :
    readId ((id.flatMap fun c => if c = '"' then ['\\', '"'] else [c]) ++ '"' :: rest) =
      some (id, rest) := by
  induction id with
  | nil => rfl
  | cons c id ih =>
    obtain ⟨hc, hid⟩ := not_or.mp (List.mem_cons.not.mp h)
    rw [List.flatMap_cons, List.append_assoc]
    by_cases hquote : c = '"'
    · subst hquote
      rw [if_pos rfl]
      show (readId (_ ++ '"' :: rest)).map _ = _
      rw [ih hid]
      rfl
    · have hstep (cs : List Char) :
          readId (c :: cs) = (readId cs).map fun r => (c :: r.1, r.2) := by
        rw [readId]
        · exact hquote
        · intro _ hslash _
          exact hc hslash.symm
      rw [if_neg hquote, List.singleton_append, hstep, ih hid]
      rfl

/-! ## 2. Statements -/

/-- A line that is read as an edge, or as none. -/
def Statement (line : String) (edge : Option (String × String)) : Prop :=
  ∃ body : String, line = body ++ "\n" ∧ OneLine body ∧ edge? body.toList = edge

/-- **The edge of the first line comes first.** -/
theorem edges_statement {line : String} {edge : Option (String × String)} (h : Statement line edge)
    (rest : String) : edges (line ++ rest) = edge.toList ++ edges rest := by
  obtain ⟨body, rfl, hline, rfl⟩ := h
  have hsplit : (body ++ "\n" ++ rest).toList.splitOn '\n' =
      body.toList :: rest.toList.splitOn '\n' := by
    have hlist : (body ++ "\n" ++ rest).toList = body.toList ++ '\n' :: rest.toList := by simp
    rw [hlist]
    refine List.splitOnP_append_cons_of_forall_mem (fun c hc => ?_) '\n' rfl _
    exact beq_eq_false_iff_ne.mpr fun heq => hline (heq ▸ hc)
  unfold edges
  rw [hsplit]
  cases he : edge? body.toList with
  | none => rw [List.filterMap_cons_none he]; rfl
  | some ends => rw [List.filterMap_cons_some he]; rfl

/-- The edges of many lines. -/
theorem edges_statements {α : Type} (line : α → String) (edge : α → Option (String × String))
    {as : List α} (h : ∀ a ∈ as, Statement (line a) (edge a)) (rest : String) :
    edges (String.join (as.map line) ++ rest) = as.filterMap edge ++ edges rest := by
  induction as with
  | nil => rfl
  | cons a as ih =>
    obtain ⟨ha, has⟩ := List.forall_mem_cons.mp h
    rw [List.map_cons, String.join_cons, String.append_assoc, edges_statement ha, ih has]
    cases he : edge a with
    | none => rw [List.filterMap_cons_none he]; rfl
    | some ends => rw [List.filterMap_cons_some he]; rfl

/-- Lines without edges. -/
theorem edges_of_none {lines : List String} (h : ∀ line ∈ lines, Statement line none)
    (rest : String) : edges (String.join lines ++ rest) = edges rest := by
  have hedges := edges_statements (fun line => line) (fun _ => none) h rest
  have hnone : lines.filterMap (fun _ => (none : Option (String × String))) = [] :=
    List.filterMap_eq_nil_iff.mpr fun _ _ => rfl
  rwa [List.map_id', hnone] at hedges

/-- A quoted id, an arrow, and another one. -/
theorem edge?_arrow {source target : String} (hs : '\\' ∉ source.toList) (ht : '\\' ∉ target.toList)
    (rest : List Char) :
    edge? ('\t' ::
        ((quote source).toList ++ [' ', '-', '>', ' '] ++ (quote target).toList ++ rest)) =
      some (source, target) := by
  have hline : '\t' ::
        ((quote source).toList ++ [' ', '-', '>', ' '] ++ (quote target).toList ++ rest) =
      ['\t', '"'] ++ ((source.toList.flatMap fun c => if c = '"' then ['\\', '"'] else [c]) ++
        '"' :: ([' ', '-', '>', ' ', '"'] ++
          ((target.toList.flatMap fun c => if c = '"' then ['\\', '"'] else [c]) ++
            '"' :: rest))) := by
    rw [toList_quote, toList_quote]
    simp
  rw [hline, edge?, behind?_append, Option.bind_some, readId_quoted hs, Option.bind_some,
    behind?_append, Option.bind_some, readId_quoted ht]
  simp

/-- A quoted id and attributes: no edge. -/
theorem edge?_attributes {id : String} (h : '\\' ∉ id.toList) (rest : List Char) :
    edge? ('\t' :: ((quote id).toList ++ '\t' :: rest)) = none := by
  have hline : '\t' :: ((quote id).toList ++ '\t' :: rest) =
      ['\t', '"'] ++ ((id.toList.flatMap fun c => if c = '"' then ['\\', '"'] else [c]) ++
        '"' :: '\t' :: rest) := by
    rw [toList_quote]
    simp
  rw [hline, edge?, behind?_append, Option.bind_some, readId_quoted h, Option.bind_some]
  rfl

theorem oneLine_quote {id : String} (h : OneLine id) : OneLine (quote id) := by
  unfold OneLine
  rw [toList_quote, List.mem_cons, List.mem_append, List.mem_flatMap]
  rintro (hm | ⟨c, hc, hm⟩ | hm)
  · exact absurd hm (by decide)
  · split at hm
    · exact absurd hm (by decide)
    · rw [List.mem_singleton] at hm
      exact h (hm ▸ hc)
  · exact absurd hm (by decide)

/-- The text of a number has no newline. -/
theorem oneLine_render (x : Float) : OneLine (Layout.plain.render x) := by
  have hdigits (d : Decimal) : '\n' ∉ Layout.plain.decimalText d := by
    have hten : '\n' ∉ Nat.toDigits 10 d.digits := fun hm =>
      absurd (isDigit_toDigits _ _ hm) (by decide)
    show '\n' ∉ Layout.positionalText _ _ _
    unfold Layout.positionalText
    split
    · simp [hten]
    · split
      · simp [hten, Layout.plain]
      · have htake (n : Nat) : '\n' ∉ (Nat.toDigits 10 d.digits).take n :=
          fun hm => hten (List.mem_of_mem_take hm)
        have hdrop (n : Nat) : '\n' ∉ (Nat.toDigits 10 d.digits).drop n :=
          fun hm => hten (List.mem_of_mem_drop hm)
        simp [htake, hdrop]
  have hsigned (negative : Bool) {body : List Char} (h : '\n' ∉ body) :
      OneLine (String.ofList (if negative then '-' :: body else body)) := by
    unfold OneLine
    rw [String.toList_ofList]
    cases negative
    · exact h
    · exact fun hm => h ((List.mem_cons.mp hm).resolve_left (by decide))
  unfold Layout.render
  dsimp only
  split
  · decide
  · exact hsigned _ (by decide)
  · exact hsigned _ (by decide)
  · exact hsigned _ (hdigits _)

theorem oneLine_wireColor (kind : WireKind) : OneLine (wireColor kind) := by
  cases kind <;> decide

/-- **A wire is read as its ends.** -/
theorem statement_wireLine {w : Wire} (hs : IsTame (wireEnds w).1) (ht : IsTame (wireEnds w).2)
    (hport : OneLine (splitPort w.target).2) : Statement (wireLine w) (some (wireEnds w)) := by
  refine ⟨"\t" ++ (quote (wireEnds w).1 ++ " -> " ++ quote (wireEnds w).2) ++ ("\t[label=\"" ++
    (splitPort w.target).2 ++ "\" color=" ++ wireColor w.kind ++ " fontcolor=" ++
    wireColor w.kind ++ "]"), ?_, ?_, ?_⟩
  · show "\t" ++ (quote (wireEnds w).1 ++ " -> " ++ quote (wireEnds w).2) ++ "\t[label=\"" ++
      (splitPort w.target).2 ++ "\" color=" ++ wireColor w.kind ++ " fontcolor=" ++
      wireColor w.kind ++ "]\n" = _
    simp only [String.append_assoc]
    rfl
  · have hcolor := oneLine_wireColor w.kind
    have hmarks : OneLine "\t" ∧ OneLine " -> " ∧ OneLine "\t[label=\"" ∧ OneLine "\" color=" ∧
        OneLine " fontcolor=" ∧ OneLine "]" := by decide
    simp only [oneLine_append, oneLine_quote hs.1, oneLine_quote ht.1, hport, hcolor, hmarks,
      and_self]
  · generalize "\t[label=\"" ++ (splitPort w.target).2 ++ "\" color=" ++ wireColor w.kind ++
      " fontcolor=" ++ wireColor w.kind ++ "]" = attributes
    have hlist : ("\t" ++ (quote (wireEnds w).1 ++ " -> " ++ quote (wireEnds w).2) ++
        attributes).toList = '\t' :: ((quote (wireEnds w).1).toList ++ [' ', '-', '>', ' '] ++
          (quote (wireEnds w).2).toList ++ attributes.toList) := by
      simp
    rw [hlist]
    exact edge?_arrow hs.2 ht.2 _

/-- A quoted id with attributes in brackets is a line without an edge. -/
theorem statement_attributes {id attributes : String} (hid : IsTame id) (ha : OneLine attributes) :
    Statement ("\t" ++ quote id ++ "\t" ++ attributes ++ "\n") none := by
  refine ⟨"\t" ++ quote id ++ "\t" ++ attributes, rfl, ?_, ?_⟩
  · have htab : OneLine "\t" := by decide
    simp only [oneLine_append, oneLine_quote hid.1, ha, htab, and_self]
  · have hlist : ("\t" ++ quote id ++ "\t" ++ attributes).toList =
        '\t' :: ((quote id).toList ++ '\t' :: attributes.toList) := by simp
    rw [hlist]
    exact edge?_attributes hid.2 _

theorem statement_nodeLine {path : String} {r : Record} (hp : IsTame path) (hr : OneLine r.name) :
    Statement (nodeLine path r) none := by
  have hline (color label : String) (hcolor : OneLine color) (hlabel : OneLine label) :
      Statement ("\t" ++ quote path ++ "\t[style=filled fillcolor=" ++ color ++ " label=\"" ++
        label ++ "\"]\n") none := by
    have hmarks : OneLine "[style=filled fillcolor=" ∧ OneLine " label=\"" ∧ OneLine "\"]" := by
      decide
    have hattributes :
        OneLine ("[style=filled fillcolor=" ++ color ++ " label=\"" ++ label ++ "\"]") := by
      simp only [oneLine_append, hcolor, hlabel, hmarks, and_self]
    have hstatement := statement_attributes hp hattributes
    simp only [String.append_assoc] at hstatement ⊢
    exact hstatement
  unfold nodeLine
  cases r.nodeType with
  | none => exact hline "lightblue" r.name (by decide) hr
  | some _ =>
    cases r.value with
    | none => exact hline "white" r.name (by decide) hr
    | some value => exact hline "lightgray" _ (by decide) (oneLine_render value)

theorem statement_portLine {compound port color : String} (hid : IsTame (portPath compound port))
    (hp : OneLine port) (hcolor : OneLine color) :
    Statement (portLine compound port color) none := by
  have hmarks :
      OneLine "[shape=box style=filled fillcolor=" ∧ OneLine " label=\"" ∧ OneLine "\"]" := by
    decide
  have hattributes :
      OneLine ("[shape=box style=filled fillcolor=" ++ color ++ " label=\"" ++ port ++ "\"]") := by
    simp only [oneLine_append, hcolor, hp, hmarks, and_self]
  have hstatement := statement_attributes hid hattributes
  simp only [String.append_assoc] at hstatement
  show Statement ("\t" ++ quote (portPath compound port) ++
    "\t[shape=box style=filled fillcolor=" ++ color ++ " label=\"" ++ port ++ "\"]\n") none
  simp only [String.append_assoc]
  exact hstatement

/-! ## 3. Drawings -/

theorem edges_header (rest : String) :
    edges ("strict digraph \x7b\n\trankdir=LR\n\tnodesep=0.5\n" ++ rest) = edges rest := by
  have hchecked : ∀ line ∈ ["strict digraph \x7b", "\trankdir=LR", "\tnodesep=0.5"],
      OneLine line ∧ edge? line.toList = none := by decide
  exact edges_statements (· ++ "\n") (fun _ => none) (fun line hm => ⟨line, rfl, hchecked line hm⟩)
    rest

theorem isTame_of_portPath {k port : String} (h : IsTame (portPath k port)) : OneLine port := by
  obtain ⟨h, -⟩ := h
  unfold portPath at h
  exact (oneLine_append.mp h).2

/-- **The edges of a drawing are the ends of the wires**, in their order, if all names are tame. -/
theorem edges_drawing {s : Store} {k : String}
    (hports : ∀ r, s.record? k = some r → ∀ port ∈ r.inputs ++ r.outputs, IsTame (portPath k port))
    (hnodes : ∀ path r, isWithin k path = true → s.record? path = some r →
      IsTame path ∧ OneLine r.name)
    (hwires : ∀ w ∈ s.wiresWithin k,
      IsTame (wireEnds w).1 ∧ IsTame (wireEnds w).2 ∧ OneLine (splitPort w.target).2) :
    edges (s.drawing k) = (s.wiresWithin k).map wireEnds := by
  unfold Store.drawing
  dsimp only
  rw [String.join_append, String.join_append, String.append_assoc, edges_header,
    String.append_assoc, String.append_assoc, edges_of_none, edges_of_none,
    edges_statements wireLine (some ∘ wireEnds), List.filterMap_eq_map]
  · have hfooter : edges "\x7d\n" = [] := by decide
    rw [hfooter, List.append_nil]
  · intro w hw
    obtain ⟨hs, ht, hport⟩ := hwires w hw
    exact statement_wireLine hs ht hport
  · intro line hline
    obtain ⟨path, hp, hline⟩ := List.mem_filterMap.mp hline
    obtain ⟨r, hr, rfl⟩ := Option.map_eq_some_iff.mp hline
    obtain ⟨hpath, hname⟩ := hnodes path r (List.mem_filter.mp hp).2 hr
    exact statement_nodeLine hpath hname
  · intro line hline
    cases hr : s.record? k with
    | none =>
      rw [hr] at hline
      cases hline
    | some r =>
      rw [hr] at hline
      have hport {port color : String} (hm : port ∈ r.inputs ++ r.outputs)
          (hcolor : OneLine color) :
          Statement (portLine k port color) none :=
        statement_portLine (hports r hr port hm) (isTame_of_portPath (hports r hr port hm)) hcolor
      rcases List.mem_append.mp hline with hm | hm
      · obtain ⟨port, hp, rfl⟩ := List.mem_map.mp hm
        exact hport (List.mem_append_left _ hp) (by decide)
      · obtain ⟨port, hp, rfl⟩ := List.mem_map.mp hm
        exact hport (List.mem_append_right _ hp) (by decide)

end Drawing

end FormulaGraph
