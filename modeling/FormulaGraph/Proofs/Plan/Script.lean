/-
  File:      FormulaGraph/Proofs/Plan/Script.lean
  Subject:   A script says what the plan says.

  Writing a plan and reading it back gives the plan in which every double was written and read on
  its own; nothing else is touched, whatever characters the names are made of. Where a double reads
  back as it was, so does the plan. An infinity and NaN are written as `null`: a step that sets such
  a value is refused, while a planned node merely loses it.

  * `Plan.ids`, `Plan.doubles` -- the ids and the doubles in a plan;
  * `Plan.reread?` -- the plan with its doubles read back;
  * `BuildStep.ofJson?_toJson`, `PlannedNode.ofJson?_toJson`, `Link.ofJson?_toJson` -- one record;
  * `Plan.ofScript?_script` -- a whole script;
  * `Plan.script_roundTrip` -- which scripts read back, and as what.
-/
import FormulaGraph.Proofs.Emission.Copy
import FormulaGraph.Proofs.Json.Record

namespace FormulaGraph

open Json (IsHeader greatestId ofText ofNat ofDouble record)

/-! ## 1. Ids and doubles -/

def Endpoint.ids : Endpoint → List Nat
  | node expr => [expr]
  | _ => []

namespace BuildStep

def ids : BuildStep → List Nat
  | createNode expr _ => [expr]
  | setLiteralValue expr _ => [expr]
  | connect _ source target => source.ids ++ target.ids
  | _ => []

def doubles : BuildStep → List Float
  | setLiteralValue _ value => [value]
  | _ => []

/-- The step with its double read back. -/
def reread? : BuildStep → Option BuildStep
  | setLiteralValue expr value => (Json.reread? value).map (setLiteralValue expr)
  | step => some step

end BuildStep

/-- A double that may be absent, after it was written and read. What is written as `null` is absent
    then. -/
def Json.rereadOptional? : Option Float → Option (Option Float)
  | none => some none
  | some x => if (Double.ofFloat x).isFinite then (reread? x).map some else some none

/-- The node with its double read back. -/
def PlannedNode.reread? (n : PlannedNode) : Option PlannedNode :=
  (Json.rereadOptional? n.value).map fun value => { n with value }

def Link.ids : Link → List Nat
  | output source => [source]
  | input _ target => [target]
  | node source target => [source, target]

namespace Plan

/-- All ids in a plan. -/
def ids (p : Plan) : List Nat :=
  p.root :: (p.steps.flatMap BuildStep.ids ++ p.nodes.map PlannedNode.expr ++
    p.links.flatMap Link.ids)

/-- All doubles in a plan. -/
def doubles (p : Plan) : List Float :=
  p.steps.flatMap BuildStep.doubles ++ p.nodes.filterMap PlannedNode.value

/-- The plan with its doubles read back. -/
def reread? (p : Plan) : Option Plan := do
  let steps ← p.steps.mapM BuildStep.reread?
  let nodes ← p.nodes.mapM PlannedNode.reread?
  return { p with steps, nodes }

end Plan

/-! ## 2. Records -/

namespace Endpoint

/-- An endpoint is written as a record of one field, whose name tells the kind. -/
theorem exists_record (e : Endpoint) (h : ∀ id ∈ e.ids, id ≤ greatestId) :
    ∃ name value, e.toJson = record [(name, value)] ∧ IsHeader [name] ∧ value.Legible ∧
      value.isSound = true ∧ value.nesting = 0 ∧ ofJson? e.toJson = some e := by
  have hchoice : ∀ {name : String} {value : Json}, IsHeader [name] →
      (record [(name, value)]).choice? = some (name, some value) := by
    intro name value hheader
    show (Json.unescape? name.toList).map _ = _
    rw [hheader.unescape?_eq (List.mem_singleton_self name), Option.map_some, String.ofList_toList]
  cases e with
  | node expr =>
    have hid := h expr (List.mem_singleton_self expr)
    have hheader : IsHeader ["node"] := by decide +kernel
    refine ⟨_, _, rfl, hheader, Json.legible_ofNat expr, Json.isSound_ofNat hid, rfl, ?_⟩
    unfold ofJson? toJson
    rw [hchoice hheader]
    simp [Json.id?_ofNat hid]
  | compoundInput name =>
    have hheader : IsHeader ["compound_input"] := by decide +kernel
    refine ⟨_, _, rfl, hheader, Json.legible_ofText name, Json.isSound_ofText name, rfl, ?_⟩
    unfold ofJson? toJson
    rw [hchoice hheader]
    simp
  | compoundOutput name =>
    have hheader : IsHeader ["compound_output"] := by decide +kernel
    refine ⟨_, _, rfl, hheader, Json.legible_ofText name, Json.isSound_ofText name, rfl, ?_⟩
    unfold ofJson? toJson
    rw [hchoice hheader]
    simp

theorem legible_toJson (e : Endpoint) (h : ∀ id ∈ e.ids, id ≤ greatestId) : e.toJson.Legible := by
  obtain ⟨name, value, he, hheader, hl, -⟩ := e.exists_record h
  rw [he]
  exact Json.legible_record hheader (List.forall_mem_singleton.mpr hl)

theorem isSound_toJson (e : Endpoint) (h : ∀ id ∈ e.ids, id ≤ greatestId) :
    e.toJson.isSound = true := by
  obtain ⟨name, value, he, hheader, -, hs, -⟩ := e.exists_record h
  rw [he, Json.isSound_record [(name, value)] hheader, List.all_cons, hs]
  rfl

theorem nesting_toJson_le (e : Endpoint) (h : ∀ id ∈ e.ids, id ≤ greatestId) :
    e.toJson.nesting ≤ 1 := by
  obtain ⟨name, value, he, -, -, -, hn, -⟩ := e.exists_record h
  rw [he]
  exact Json.nesting_record_le (List.forall_mem_singleton.mpr (Nat.le_of_eq hn))

theorem ofJson?_toJson (e : Endpoint) (h : ∀ id ∈ e.ids, id ≤ greatestId) :
    ofJson? e.toJson = some e := by
  obtain ⟨name, value, -, -, -, -, -, hd⟩ := e.exists_record h
  exact hd

end Endpoint

namespace BuildStep

/-- **A step is read back**, up to the double in it. -/
theorem ofJson?_toJson (s : BuildStep) (h : ∀ id ∈ s.ids, id ≤ greatestId) :
    s.toJson.Legible ∧ ofJson? s.toJson = s.reread? := by
  cases s with
  | createCompound parent name =>
    have hheader : IsHeader ["op", "parent", "name"] := by decide +kernel
    refine ⟨Json.legible_tagged hheader (by simp [Json.legible_ofText]), ?_⟩
    refine bind_of_eq_some (Json.tagged?_of_sound hheader (by simp) (by simp)) ?_
    refine bind_of_eq_some (Json.fields?_record _ hheader.tail) ?_
    refine bind_of_eq_some (Json.lookup_field hheader.tail (.head _)) ?_
    refine bind_of_eq_some (Json.text?_ofText parent) ?_
    refine bind_of_eq_some (Json.lookup_field hheader.tail (.tail _ (.head _))) ?_
    exact bind_of_eq_some (Json.text?_ofText name) rfl
  | createOutputPort name =>
    have hheader : IsHeader ["op", "name"] := by decide +kernel
    refine ⟨Json.legible_tagged hheader (by simp [Json.legible_ofText]), ?_⟩
    refine bind_of_eq_some (Json.tagged?_of_sound hheader (by simp) (by simp)) ?_
    refine bind_of_eq_some (Json.fields?_record _ hheader.tail) ?_
    refine bind_of_eq_some (Json.lookup_field hheader.tail (.head _)) ?_
    exact bind_of_eq_some (Json.text?_ofText name) rfl
  | createInputPort name skipExisting =>
    have hheader : IsHeader ["op", "name", "skip_existing"] := by decide +kernel
    refine ⟨Json.legible_tagged hheader (by simp [Json.legible_ofText, Json.Legible]), ?_⟩
    refine bind_of_eq_some (Json.tagged?_of_sound hheader (by simp) (by simp)) ?_
    refine bind_of_eq_some (Json.fields?_record _ hheader.tail) ?_
    refine bind_of_eq_some (Json.lookup_field hheader.tail (.head _)) ?_
    refine bind_of_eq_some (Json.text?_ofText name) ?_
    exact bind_of_eq_some (Json.lookup_field hheader.tail (.tail _ (.head _))) rfl
  | createNode expr nodeType =>
    have hid := h expr (List.mem_singleton_self expr)
    have hheader : IsHeader ["op", "expr", "node_type"] := by decide +kernel
    refine ⟨Json.legible_tagged hheader (by simp [Json.legible_ofText, Json.legible_ofNat]), ?_⟩
    refine bind_of_eq_some
      (Json.tagged?_of_sound hheader (by simp) (by simp [Json.isSound_ofNat hid])) ?_
    refine bind_of_eq_some (Json.fields?_record _ hheader.tail) ?_
    refine bind_of_eq_some (Json.lookup_field hheader.tail (.head _)) ?_
    refine bind_of_eq_some (Json.id?_ofNat hid) ?_
    refine bind_of_eq_some (Json.lookup_field hheader.tail (.tail _ (.head _))) ?_
    exact bind_of_eq_some (Json.text?_ofText nodeType.name) rfl
  | setLiteralValue expr value =>
    have hid := h expr (List.mem_singleton_self expr)
    have hheader : IsHeader ["op", "expr", "value"] := by decide +kernel
    refine ⟨Json.legible_tagged hheader (by simp [Json.legible_ofDouble, Json.legible_ofNat]), ?_⟩
    cases hsound : (ofDouble value).isSound with
    | false =>
      -- a double without a meaning spoils the whole record
      have htagged : (setLiteralValue expr value).toJson.tagged? "op" = none :=
        (Json.tagged?_record hheader (by simp)).trans (if_neg (by simp [hsound]))
      unfold ofJson?
      rw [htagged, reread?, Json.reread?_eq_none hsound]
      rfl
    | true =>
      refine bind_of_eq_some
        (Json.tagged?_of_sound hheader (by simp) (by simp [Json.isSound_ofNat hid, hsound])) ?_
      refine bind_of_eq_some (Json.fields?_record _ hheader.tail) ?_
      refine bind_of_eq_some (Json.lookup_field hheader.tail (.head _)) ?_
      refine bind_of_eq_some (Json.id?_ofNat hid) ?_
      refine bind_of_eq_some (Json.lookup_field hheader.tail (.tail _ (.head _))) ?_
      rw [Json.doubleOf?_ofDouble, reread?]
      cases Json.reread? value <;> rfl
  | connect kind source target =>
    obtain ⟨hsource, htarget⟩ := List.forall_mem_append.mp h
    have hheader : IsHeader ["op", "kind", "source", "target"] := by decide +kernel
    have hkind : WireKind.ofScriptName? kind.scriptName = some kind := by
      cases kind <;> decide +kernel
    refine ⟨Json.legible_tagged hheader (by
      simp [Json.legible_ofText, source.legible_toJson hsource, target.legible_toJson htarget]), ?_⟩
    refine bind_of_eq_some (Json.tagged?_of_sound hheader
      (by simp [source.nesting_toJson_le hsource, target.nesting_toJson_le htarget])
      (by simp [source.isSound_toJson hsource, target.isSound_toJson htarget])) ?_
    refine bind_of_eq_some (Json.fields?_record _ hheader.tail) ?_
    refine bind_of_eq_some (Json.lookup_field hheader.tail (.head _)) ?_
    refine bind_of_eq_some (Json.name?_ofText true kind.scriptName) ?_
    refine bind_of_eq_some hkind ?_
    refine bind_of_eq_some (Json.lookup_field hheader.tail (.tail _ (.head _))) ?_
    refine bind_of_eq_some (source.ofJson?_toJson hsource) ?_
    refine bind_of_eq_some (Json.lookup_field hheader.tail (.tail _ (.tail _ (.head _)))) ?_
    exact bind_of_eq_some (target.ofJson?_toJson htarget) rfl

end BuildStep

namespace Link

/-- **A link is read back.** -/
theorem ofJson?_toJson (l : Link) (h : ∀ id ∈ l.ids, id ≤ greatestId) :
    l.toJson.Legible ∧ ofJson? l.toJson = some l := by
  cases l with
  | output source =>
    have hid := h source (List.mem_singleton_self source)
    have hheader : IsHeader ["kind", "source"] := by decide +kernel
    refine ⟨Json.legible_tagged hheader (by simp [Json.legible_ofNat]), ?_⟩
    refine bind_of_eq_some
      (Json.tagged?_of_sound hheader (by simp) (by simp [Json.isSound_ofNat hid])) ?_
    refine bind_of_eq_some (Json.fields?_record _ hheader.tail) ?_
    refine bind_of_eq_some (Json.lookup_field hheader.tail (.head _)) ?_
    exact bind_of_eq_some (Json.id?_ofNat hid) rfl
  | input symbol target =>
    have hid := h target (List.mem_singleton_self target)
    have hheader : IsHeader ["kind", "symbol", "target"] := by decide +kernel
    refine ⟨Json.legible_tagged hheader (by simp [Json.legible_ofText, Json.legible_ofNat]), ?_⟩
    refine bind_of_eq_some
      (Json.tagged?_of_sound hheader (by simp) (by simp [Json.isSound_ofNat hid])) ?_
    refine bind_of_eq_some (Json.fields?_record _ hheader.tail) ?_
    refine bind_of_eq_some (Json.lookup_field hheader.tail (.head _)) ?_
    refine bind_of_eq_some (Json.text?_ofText symbol) ?_
    refine bind_of_eq_some (Json.lookup_field hheader.tail (.tail _ (.head _))) ?_
    exact bind_of_eq_some (Json.id?_ofNat hid) rfl
  | node source target =>
    have hsource := h source (by simp [ids])
    have htarget := h target (by simp [ids])
    have hheader : IsHeader ["kind", "source", "target"] := by decide +kernel
    refine ⟨Json.legible_tagged hheader (by simp [Json.legible_ofNat]), ?_⟩
    refine bind_of_eq_some (Json.tagged?_of_sound hheader (by simp)
      (by simp [Json.isSound_ofNat hsource, Json.isSound_ofNat htarget])) ?_
    refine bind_of_eq_some (Json.fields?_record _ hheader.tail) ?_
    refine bind_of_eq_some (Json.lookup_field hheader.tail (.head _)) ?_
    refine bind_of_eq_some (Json.id?_ofNat hsource) ?_
    refine bind_of_eq_some (Json.lookup_field hheader.tail (.tail _ (.head _))) ?_
    exact bind_of_eq_some (Json.id?_ofNat htarget) rfl

end Link

/-- A field that may be left out has its own name, if any. -/
theorem Json.optional_names {α : Type} (name : String) (encode : α → Json) (value : Option α) :
    ((Json.optional name encode value).map Prod.fst).Sublist [name] := by
  cases value with
  | none => exact List.nil_sublist _
  | some a => exact List.Sublist.refl _

theorem Json.lookup_optional {α : Type} (key name : String) (encode : α → Json) (value : Option α) :
    (Json.optional name encode value).lookup key =
      if key = name then value.map encode else none := by
  cases value with
  | none => exact (ite_self none).symm
  | some a =>
    show List.lookup key [(name, encode a)] = _
    by_cases hkey : key = name
    · simp [hkey]
    · simp [hkey, List.lookup_cons, beq_false_of_ne hkey]

theorem Json.optional?_text {α : Type} (text : α → String) (value : Option α) :
    Json.optional? Json.text? (value.map fun a => ofText (text a)) = some (value.map text) := by
  cases value with
  | none => rfl
  | some a => exact congrArg (Option.map some) (Json.text?_ofText (text a))

theorem Json.optional?_double (value : Option Float) :
    Json.optional? Json.doubleOf? (value.map ofDouble) = Json.rereadOptional? value := by
  cases value with
  | none => rfl
  | some x =>
    show Json.optional? Json.doubleOf? (some (ofDouble x)) =
      if (Double.ofFloat x).isFinite then (Json.reread? x).map some else some none
    split
    · rename_i hfinite
      rw [← Json.doubleOf?_ofDouble, ofDouble, if_pos hfinite]
      rfl
    · rename_i hfinite
      rw [ofDouble, if_neg hfinite]
      rfl

theorem Json.legible_optional {α : Type} (name : String) {encode : α → Json} (value : Option α)
    (h : ∀ a, (encode a).Legible) : ∀ f ∈ Json.optional name encode value, f.2.Legible := by
  intro f hf
  cases value with
  | none => cases hf
  | some a =>
    rw [List.mem_singleton.mp hf]
    exact h a

namespace PlannedNode

/-- The names of the fields are different, whichever are left out. -/
theorem isHeader_toJson (n : PlannedNode) :
    IsHeader (([("expr", ofNat n.expr), ("role", ofText n.role.scriptName)] ++
      Json.optional "node_type" (fun t : NodeType => ofText t.name) n.nodeType ++
      Json.optional "value" ofDouble n.value ++
      Json.optional "port" ofText n.port).map Prod.fst) := by
  have hheader : IsHeader ["expr", "role", "node_type", "value", "port"] := by decide +kernel
  refine hheader.sublist ?_
  simp only [List.map_append]
  exact (((List.Sublist.refl ["expr", "role"]).append (Json.optional_names _ _ _)).append
    (Json.optional_names _ _ _)).append (Json.optional_names _ _ _)

theorem legible_toJson (n : PlannedNode) : n.toJson.Legible := by
  refine Json.legible_record n.isHeader_toJson ?_
  refine List.forall_mem_append.mpr ⟨List.forall_mem_append.mpr ⟨List.forall_mem_append.mpr
    ⟨?_, ?_⟩, ?_⟩, ?_⟩
  · simp [Json.legible_ofNat, Json.legible_ofText]
  · exact Json.legible_optional _ _ fun t => Json.legible_ofText t.name
  · exact Json.legible_optional _ _ Json.legible_ofDouble
  · exact Json.legible_optional _ _ Json.legible_ofText

/-- **A planned node is read back**, up to its double. -/
theorem ofJson?_toJson (n : PlannedNode) (h : n.expr ≤ greatestId) :
    ofJson? n.toJson = n.reread? := by
  have hrole : Role.ofScriptName? n.role.scriptName = some n.role := by
    cases n.role <;> decide +kernel
  have htype : n.nodeType.map (NodeType.mk ∘ NodeType.name) = n.nodeType := by
    cases n.nodeType <;> rfl
  have hport : Json.optional? Json.text? (n.port.map ofText) = some n.port :=
    (Json.optional?_text id n.port).trans (congrArg some (congrFun Option.map_id n.port))
  have hmap : ∀ value? : Option (Option Float), (value?.bind fun value => some { n with value }) =
      value?.map fun value => { n with value } := by
    intro value?
    cases value? <;> rfl
  unfold ofJson? toJson
  rw [Json.fields?_record _ n.isHeader_toJson]
  simp [List.lookup_append, Json.lookup_optional, List.lookup_cons, Json.id?_ofNat h, hrole, htype,
    hport, hmap, Json.optional?_text, Json.optional?_double, reread?]

end PlannedNode

/-! ## 3. Whole scripts -/

theorem mapM_map_eq {α β γ : Type} {encode : α → β} {decode : β → Option γ} {f : α → Option γ}
    {l : List α} (h : ∀ a ∈ l, decode (encode a) = f a) :
    (l.map encode).mapM decode = l.mapM f := by
  induction l with
  | nil => rfl
  | cons a l ih =>
    obtain ⟨ha, hl⟩ := List.forall_mem_cons.mp h
    rw [List.map_cons, List.mapM_cons, List.mapM_cons, ha, ih hl]

theorem mapM_eq_some_self {α : Type} {f : α → Option α} {l : List α} (h : ∀ a ∈ l, f a = some a) :
    l.mapM f = some l := by
  induction l with
  | nil => rfl
  | cons a l ih =>
    obtain ⟨ha, hl⟩ := List.forall_mem_cons.mp h
    rw [List.mapM_cons, ha, ih hl]
    rfl

theorem isSome_mapM_iff {α β : Type} {f : α → Option β} {l : List α} :
    (l.mapM f).isSome = true ↔ ∀ a ∈ l, (f a).isSome = true := by
  induction l with
  | nil => simp
  | cons a l ih =>
    rw [List.mapM_cons, List.forall_mem_cons, ← ih]
    cases f a with
    | none => simp
    | some b => cases l.mapM f <;> simp

namespace Plan

variable {p : Plan}

/-- The fields of a script. -/
def fields (p : Plan) : List (String × Json) :=
  [("compound_name", ofText p.compoundName), ("parent", ofText p.parent),
    ("output_port", ofText p.outputPort), ("root", ofNat p.root),
    ("ops", .array (p.steps.map BuildStep.toJson)),
    ("nodes", .array (p.nodes.map PlannedNode.toJson)),
    ("connections", .array (p.links.map Link.toJson))]

theorem isHeader_fields (p : Plan) : IsHeader (p.fields.map Prod.fst) := by
  show IsHeader ["compound_name", "parent", "output_port", "root", "ops", "nodes", "connections"]
  decide +kernel

theorem lookup_fields {name : String} {value : Json} (h : (name, value) ∈ p.fields) :
    p.fields.lookup name = some value :=
  Json.lookup_field p.isHeader_fields h

/-- **A plan is read back**, up to the doubles in it. -/
theorem ofJson?_toJson (h : ∀ id ∈ p.ids, id ≤ greatestId) :
    p.toJson.Legible ∧ ofJson? p.toJson = p.reread? := by
  obtain ⟨hroot, h⟩ := List.forall_mem_cons.mp h
  obtain ⟨h, hlinks⟩ := List.forall_mem_append.mp h
  obtain ⟨hsteps, hnodes⟩ := List.forall_mem_append.mp h
  have hstep : ∀ s ∈ p.steps, s.toJson.Legible ∧ BuildStep.ofJson? s.toJson = s.reread? :=
    fun s hs => s.ofJson?_toJson fun id hid => hsteps id (List.mem_flatMap.mpr ⟨s, hs, hid⟩)
  have hnode : ∀ n ∈ p.nodes, PlannedNode.ofJson? n.toJson = n.reread? :=
    fun n hn => n.ofJson?_toJson (hnodes n.expr (List.mem_map_of_mem hn))
  have hlink : ∀ l ∈ p.links, l.toJson.Legible ∧ Link.ofJson? l.toJson = some l :=
    fun l hl => l.ofJson?_toJson fun id hid => hlinks id (List.mem_flatMap.mpr ⟨l, hl, hid⟩)
  constructor
  · have hops : (Json.array (p.steps.map BuildStep.toJson)).Legible :=
      Json.legible_array (List.forall_mem_map.mpr fun s hs => (hstep s hs).1)
    have hplanned : (Json.array (p.nodes.map PlannedNode.toJson)).Legible :=
      Json.legible_array (List.forall_mem_map.mpr fun n _ => n.legible_toJson)
    have hconnections : (Json.array (p.links.map Link.toJson)).Legible :=
      Json.legible_array (List.forall_mem_map.mpr fun l hl => (hlink l hl).1)
    refine Json.legible_record p.isHeader_fields ?_
    simp [Json.legible_ofText, Json.legible_ofNat, hops, hplanned, hconnections]
  · have hfields : Json.fields? ["compound_name", "parent", "output_port", "root", "ops", "nodes",
        "connections"] p.toJson = some p.fields := Json.fields?_record _ p.isHeader_fields
    have hops := mapM_map_eq fun s hs => (hstep s hs).2
    have hplanned := mapM_map_eq hnode
    have hconnections := (mapM_map_eq fun l hl => (hlink l hl).2).trans
      (mapM_eq_some_self fun _ _ => rfl)
    unfold ofJson?
    refine bind_of_eq_some hfields ?_
    refine bind_of_eq_some (lookup_fields (.head _)) ?_
    refine bind_of_eq_some (Json.text?_ofText p.compoundName) ?_
    refine bind_of_eq_some (lookup_fields (.tail _ (.head _))) ?_
    refine bind_of_eq_some (Json.text?_ofText p.parent) ?_
    refine bind_of_eq_some (lookup_fields (.tail _ (.tail _ (.head _)))) ?_
    refine bind_of_eq_some (Json.text?_ofText p.outputPort) ?_
    refine bind_of_eq_some (lookup_fields (.tail _ (.tail _ (.tail _ (.head _))))) ?_
    refine bind_of_eq_some (Json.id?_ofNat hroot) ?_
    refine bind_of_eq_some (lookup_fields (.tail _ (.tail _ (.tail _ (.tail _ (.head _)))))) ?_
    refine bind_of_eq_some rfl ?_
    -- the lists of steps and nodes may fail, on both sides in the same way
    refine bind_congr_of_eq hops fun steps => ?_
    refine bind_of_eq_some
      (lookup_fields (.tail _ (.tail _ (.tail _ (.tail _ (.tail _ (.head _))))))) ?_
    refine bind_of_eq_some rfl ?_
    refine bind_congr_of_eq hplanned fun nodes => ?_
    refine bind_of_eq_some
      (lookup_fields (.tail _ (.tail _ (.tail _ (.tail _ (.tail _ (.tail _ (.head _)))))))) ?_
    refine bind_of_eq_some rfl ?_
    exact bind_of_eq_some hconnections rfl

/-- **Reading a script gives the plan with its doubles read back.** -/
theorem ofScript?_script (h : ∀ id ∈ p.ids, id ≤ greatestId) : ofScript? p.script = p.reread? := by
  obtain ⟨hlegible, hdecode⟩ := ofJson?_toJson h
  unfold ofScript? script
  rw [String.toList_ofList, Json.read?_write hlegible]
  exact hdecode

/-! ## 4. Which scripts read back -/

theorem isSome_reread?_iff : p.reread?.isSome = true ↔
    (∀ s ∈ p.steps, s.reread?.isSome = true) ∧ ∀ n ∈ p.nodes, n.reread?.isSome = true := by
  rw [← isSome_mapM_iff, ← isSome_mapM_iff, reread?]
  cases p.steps.mapM BuildStep.reread? with
  | none => simp
  | some steps => cases p.nodes.mapM PlannedNode.reread? <;> simp

/-- A plan whose doubles read back as they were reads back as it was. -/
theorem reread?_eq_self (hfinite : ∀ x ∈ p.doubles, (Double.ofFloat x).isFinite = true)
    (h : ∀ x ∈ p.doubles, Json.reread? x = some x) : p.reread? = some p := by
  obtain ⟨hsteps, hnodes⟩ := List.forall_mem_append.mp h
  have hstep : ∀ s ∈ p.steps, s.reread? = some s := by
    intro s hs
    cases s with
    | setLiteralValue expr value =>
      have hvalue := hsteps value (List.mem_flatMap.mpr ⟨_, hs, List.mem_singleton_self value⟩)
      exact congrArg (Option.map _) hvalue
    | _ => rfl
  have hnode : ∀ n ∈ p.nodes, n.reread? = some n := by
    intro n hn
    obtain ⟨expr, role, nodeType, value?, port⟩ := n
    cases value? with
    | none => rfl
    | some x =>
      have hx : x ∈ p.nodes.filterMap PlannedNode.value := List.mem_filterMap.mpr ⟨_, hn, rfl⟩
      have hoptional : Json.rereadOptional? (some x) = some (some x) := by
        show (if (Double.ofFloat x).isFinite then (Json.reread? x).map some else some none) = _
        rw [if_pos (hfinite x (List.mem_append_right _ hx)), hnodes x hx]
        rfl
      exact congrArg (Option.map _) hoptional
  unfold reread?
  rw [mapM_eq_some_self hstep, mapM_eq_some_self hnode]
  rfl

/-- A planned node is always read, unless its double is none that can be. -/
theorem isSome_reread?_node {n : PlannedNode}
    (h : ∀ x ∈ n.value, (Double.ofFloat x).isFinite = true → (Json.reread? x).isSome = true) :
    n.reread?.isSome = true := by
  unfold PlannedNode.reread?
  rw [Option.isSome_map]
  cases hv : n.value with
  | none => rfl
  | some x =>
    show (if (Double.ofFloat x).isFinite then (Json.reread? x).map some else some none).isSome =
      true
    split
    · rename_i hfinite
      rw [Option.isSome_map]
      exact h x hv hfinite
    · rfl

/-- The value of a planned node is set by one of its steps. -/
theorem mem_steps_of_planNode {c : Catalogue} {id : Nat} {node : Node} {n : PlannedNode}
    (h : Table.planNode c id node = .ok n) {x : Float} (hx : n.value = some x) :
    .setLiteralValue n.expr x ∈ n.steps := by
  rcases planNode_ok_cases h with ⟨name, -, rfl⟩ | ⟨kind, type, -, -, -, hport, htype, -⟩
  · cases hx
  · rw [PlannedNode.steps_of_type hport htype, hx]
    exact List.mem_cons_of_mem _ (List.mem_singleton_self _)

theorem mem_steps_of_compile {t : Table} {root : Nat} {c : Catalogue} {o : CompoundOptions}
    (h : t.compile root c o = .ok p) {n : PlannedNode} (hn : n ∈ p.nodes) {x : Float}
    (hx : n.value = some x) : .setLiteralValue n.expr x ∈ p.steps := by
  obtain ⟨nodes, hplan, rfl⟩ := Table.compile_ok h
  have hset : ∀ n ∈ nodes, ∀ x, n.value = some x → .setLiteralValue n.expr x ∈ n.steps := by
    clear hn h
    generalize t.creations root = creations at hplan
    induction hplan with
    | nil => nofun
    | cons hd _ ih =>
      exact List.forall_mem_cons.mpr ⟨fun _ hx => mem_steps_of_planNode hd hx, ih⟩
  exact List.mem_cons_of_mem _ (List.mem_cons_of_mem _
    (List.mem_append_left _ (List.mem_flatMap.mpr ⟨n, hn, hset n hn x hx⟩)))

/-- Where finite doubles read back, so does every plan in which no step sets another. -/
theorem isSome_reread?_iff_finite
    (h : ∀ x ∈ p.doubles, (Double.ofFloat x).isFinite = true → (Json.reread? x).isSome = true) :
    p.reread?.isSome = true ↔ ∀ expr value, .setLiteralValue expr value ∈ p.steps →
      (Double.ofFloat value).isFinite = true := by
  rw [isSome_reread?_iff]
  constructor
  · intro hsome expr value hs
    have hvalue : ((Json.reread? value).map (BuildStep.setLiteralValue expr)).isSome = true :=
      hsome.1 _ hs
    unfold Json.reread? at hvalue
    split at hvalue
    · assumption
    · cases hvalue
  · intro hfinite
    refine ⟨fun s hs => ?_, fun n hn => isSome_reread?_node fun x hx => ?_⟩
    · cases s with
      | setLiteralValue expr value =>
        have hmem : value ∈ p.doubles := List.mem_append_left _
          (List.mem_flatMap.mpr ⟨_, hs, List.mem_singleton_self value⟩)
        show ((Json.reread? value).map _).isSome = true
        rw [Option.isSome_map]
        exact h value hmem (hfinite expr value hs)
      | _ => rfl
    · exact h x (List.mem_append_right _ (List.mem_filterMap.mpr ⟨n, hn, hx⟩))

/-- A compiled plan has no double that is not set by a step. -/
theorem finite_of_compile {t : Table} {root : Nat} {c : Catalogue} {o : CompoundOptions}
    (hc : t.compile root c o = .ok p)
    (h : ∀ expr value, .setLiteralValue expr value ∈ p.steps →
      (Double.ofFloat value).isFinite = true) :
    ∀ x ∈ p.doubles, (Double.ofFloat x).isFinite = true := by
  refine List.forall_mem_append.mpr ⟨fun x hx => ?_, fun x hx => ?_⟩
  · obtain ⟨s, hs, hx⟩ := List.mem_flatMap.mp hx
    cases s with
    | setLiteralValue expr value =>
      obtain rfl := List.mem_singleton.mp hx
      exact h expr x hs
    | _ => cases hx
  · obtain ⟨n, hn, hx⟩ := List.mem_filterMap.mp hx
    exact h n.expr x (mem_steps_of_compile hc hn hx)

/-- **Build scripts read back.** Where finite doubles can be read where they are written, a plan
    reads back unless a step sets an infinity or NaN. Where they also read back as they were, a plan
    without infinities and NaN reads back as it was, and what reads back from a compiled plan is
    that plan. -/
theorem script_roundTrip (p : Plan) (hids : ∀ id ∈ p.ids, id ≤ greatestId)
    (hreads : ∀ x ∈ p.doubles, (Double.ofFloat x).isFinite = true →
      (Json.double? (Layout.script.render x).toList).isSome = true) :
    ((ofScript? p.script).isSome = true ↔
        ∀ expr value, .setLiteralValue expr value ∈ p.steps →
          (Double.ofFloat value).isFinite = true) ∧
      ((∀ x ∈ p.doubles, (Double.ofFloat x).isFinite = true →
          Json.double? (Layout.script.render x).toList = some x) →
        ((∀ x ∈ p.doubles, (Double.ofFloat x).isFinite = true) → ofScript? p.script = some p) ∧
          ∀ t root c o, Table.compile t root c o = .ok p → (ofScript? p.script).isSome = true →
            ofScript? p.script = some p) := by
  have hreread : ∀ x, (Double.ofFloat x).isFinite = true →
      Json.reread? x = Json.double? (Layout.script.render x).toList :=
    fun x hfinite => if_pos hfinite
  have hsome := isSome_reread?_iff_finite fun x hx hfinite =>
    (congrArg Option.isSome (hreread x hfinite)).trans (hreads x hx hfinite)
  rw [ofScript?_script hids]
  refine ⟨hsome, fun hsame => ?_⟩
  have hself : (∀ x ∈ p.doubles, (Double.ofFloat x).isFinite = true) → p.reread? = some p :=
    fun hfinite => reread?_eq_self hfinite fun x hx =>
      (hreread x (hfinite x hx)).trans (hsame x hx (hfinite x hx))
  exact ⟨hself, fun t root c o hc h => hself (finite_of_compile hc (hsome.mp h))⟩

/-- A plan whose names are made of quotes, backslashes and control characters. -/
def awkward : Plan where
  compoundName := "a \"b\"\\\n"
  parent := "/\t"
  outputPort := "\u0001"
  root := 2
  steps := [.createCompound "/\t" "a \"b\"\\\n", .createOutputPort "\u0001",
    .createInputPort "\"" true, .createNode 1 ⟨"constant"⟩, .setLiteralValue 1 0.5,
    .connect .symbolToInput (.compoundInput "\"") (.node 2)]
  nodes := [{ expr := 0, role := .input, port := some "\"" },
    { expr := 1, role := .literal, nodeType := some ⟨"constant"⟩, value := some 0.5 }]
  links := [.output 2, .input "\"" 2, .node 1 2]

theorem script_roundTrip_awkward : ofScript? awkward.script = some awkward :=
  ((script_roundTrip awkward (by decide +kernel) (by decide +kernel)).2 (by decide +kernel)).1
    (by decide +kernel)

-- Not every double reads back as it was: the digits are rounded first, then their product.
example : Json.double? (Layout.script.render 9007199254740991.0).toList =
    some 9007199254740990.0 := by decide +kernel

end Plan

end FormulaGraph
