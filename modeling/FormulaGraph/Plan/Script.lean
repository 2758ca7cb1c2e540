/-
  File:      FormulaGraph/Plan/Script.lean
  Subject:   A plan as a JSON script, written and read.

  * `Plan.script` -- the text of a plan;
  * `Plan.ofScript?` -- the plan of a text.

  A record is an object with a member for each field. In reading, other members are passed over, a
  field that stands twice is refused, and an array of the fields in order does as well. Steps and
  links are records with a tag, which may stand anywhere among the members; such a record is refused
  as a whole if any number or string in it has no meaning, also where it is passed over.
-/
import FormulaGraph.Decimal.Layout
import FormulaGraph.Json.Reader
import FormulaGraph.Plan.Basic

namespace FormulaGraph

/-! ## 1. Writing -/

namespace Json

def ofText (text : String) : Json := string (escape text.toList)

def ofNat (n : Nat) : Json := number (Nat.toDigits 10 n)

/-- A double; an infinity and NaN are written as `null`. -/
def ofDouble (x : Float) : Json :=
  if (Double.ofFloat x).isFinite then number (Layout.script.render x).toList else null

/-- An object from field names, which need no escaping, and their values. -/
def record (fields : List (String × Json)) : Json :=
  object (fields.map fun f => (f.1.toList, f.2))

end Json

namespace WireKind

/-- The name of a kind in a script. -/
def scriptName : WireKind → String
  | nodeToNode => "node_to_node"
  | symbolToInput => "symbol_to_input"
  | nodeToOutput => "node_to_output"
  | inputToOutput => "input_to_output"

def ofScriptName? (name : String) : Option WireKind :=
  [nodeToNode, symbolToInput, nodeToOutput, inputToOutput].find? (·.scriptName == name)

end WireKind

namespace Role

def scriptName : Role → String
  | input => "input"
  | operator => "operator"
  | literal => "literal"

def ofScriptName? (name : String) : Option Role :=
  [input, operator, literal].find? (·.scriptName == name)

end Role

def Endpoint.toJson : Endpoint → Json
  | node expr => .record [("node", .ofNat expr)]
  | compoundInput name => .record [("compound_input", .ofText name)]
  | compoundOutput name => .record [("compound_output", .ofText name)]

def BuildStep.toJson : BuildStep → Json
  | createCompound parent name =>
    .record [("op", .ofText "create_compound"), ("parent", .ofText parent), ("name", .ofText name)]
  | createOutputPort name => .record [("op", .ofText "create_output_port"), ("name", .ofText name)]
  | createInputPort name skipExisting =>
    .record [("op", .ofText "create_input_port"), ("name", .ofText name),
      ("skip_existing", .bool skipExisting)]
  | createNode expr nodeType =>
    .record [("op", .ofText "create_node"), ("expr", .ofNat expr),
      ("node_type", .ofText nodeType.name)]
  | setLiteralValue expr value =>
    .record [("op", .ofText "set_literal_value"), ("expr", .ofNat expr), ("value", .ofDouble value)]
  | connect kind source target =>
    .record [("op", .ofText "connect"), ("kind", .ofText kind.scriptName),
      ("source", source.toJson), ("target", target.toJson)]

/-- A field that is left out if it has no value. -/
def Json.optional {α : Type} (name : String) (encode : α → Json) (value : Option α) :
    List (String × Json) :=
  (value.map fun a => (name, encode a)).toList

def PlannedNode.toJson (n : PlannedNode) : Json :=
  .record ([("expr", .ofNat n.expr), ("role", .ofText n.role.scriptName)] ++
    Json.optional "node_type" (fun t : NodeType => .ofText t.name) n.nodeType ++
    Json.optional "value" .ofDouble n.value ++
    Json.optional "port" .ofText n.port)

def Link.toJson : Link → Json
  | output source => .record [("kind", .ofText "output"), ("source", .ofNat source)]
  | input symbol target =>
    .record [("kind", .ofText "input"), ("symbol", .ofText symbol), ("target", .ofNat target)]
  | node source target =>
    .record [("kind", .ofText "node"), ("source", .ofNat source), ("target", .ofNat target)]

def Plan.toJson (p : Plan) : Json :=
  .record [("compound_name", .ofText p.compoundName), ("parent", .ofText p.parent),
    ("output_port", .ofText p.outputPort), ("root", .ofNat p.root),
    ("ops", .array (p.steps.map BuildStep.toJson)),
    ("nodes", .array (p.nodes.map PlannedNode.toJson)),
    ("connections", .array (p.links.map Link.toJson))]

/-- The script of a plan. -/
def Plan.script (p : Plan) : String := String.ofList (p.toJson.write 0)

/-! ## 2. Reading -/

namespace Json

/-- The text of a string. -/
def text? : Json → Option String
  | string written => (unescape? written).map String.ofList
  | _ => none

def bool? : Json → Option Bool
  | bool value => some value
  | _ => none

/-- The greatest id of an expression. -/
def greatestId : Nat := Nat.pow 2 32 - 1

def id? : Json → Option Nat
  | number written => natural? greatestId written
  | _ => none

def doubleOf? : Json → Option Float
  | number written => double? written
  | _ => none

def array? : Json → Option (List Json)
  | array items => some items
  | _ => none

/-- The value of a field that may be absent or `null`. -/
def optional? {α : Type} (decode : Json → Option α) : Option Json → Option (Option α)
  | none => some none
  | some null => some none
  | some value => (decode value).map some

mutual
/-- Whether every number and every string has a meaning. -/
def isSound : Json → Bool
  | number written => (double? written).isSome
  | string written => (unescape? written).isSome
  | array items => itemsSound items
  | object members => membersSound members
  | _ => true

def itemsSound : List Json → Bool
  | [] => true
  | item :: items => item.isSound && itemsSound items

def membersSound : List (List Char × Json) → Bool
  | [] => true
  | (key, value) :: members =>
    (unescape? key).isSome && value.isSound && membersSound members
end

/-- The members of an object with the texts of their keys. -/
def members? (members : List (List Char × Json)) : Option (List (String × Json)) :=
  members.mapM fun m => (unescape? m.1).map fun key => (String.ofList key, m.2)

/-- The fields of a record that are given, from an object or from an array in the order of
    `names`. -/
def fields? (names : List String) : Json → Option (List (String × Json))
  | object members => do
    let members ← members? members
    if names.all fun name => members.countP (·.1 == name) ≤ 1 then some members else none
  | array items => if items.length ≤ names.length then some (names.zip items) else none
  | _ => none

/-- How deep a text may nest where everything in it is given a meaning. -/
def nestingLimit : Nat := 127

/-- The tag of a record and the record without it. The record stands two levels deep. -/
def tagged? (tag : String) (j : Json) : Option (String × Json) :=
  if j.isSound && j.nesting + 2 ≤ nestingLimit then
    match j with
    | object members => do
      let keys ← members? members
      if keys.countP (·.1 == tag) = 1 then
        let name ← (keys.lookup tag).bind text?
        return (name, object (members.filter fun m => unescape? m.1 != some tag.toList))
      else none
    | array (first :: rest) => do
      let name ← first.text?
      return (name, array rest)
    | _ => none
  else none

/-- A choice among named alternatives: a name alone, or an object with the name and a value. -/
def choice? : Json → Option (String × Option Json)
  | string written => (text? (string written)).map (·, none)
  | object [(key, value)] => (unescape? key).map fun key => (String.ofList key, some value)
  | _ => none

/-- A name without a value; `null` is none, and within a tagged record the empty object too. -/
def name? (withinTagged : Bool) (j : Json) : Option String := do
  match ← choice? j with
  | (name, none) => return name
  | (name, some null) => return name
  | (name, some (object [])) => if withinTagged then return name else none
  | _ => none

end Json

def Endpoint.ofJson? (j : Json) : Option Endpoint := do
  match ← j.choice? with
  | ("node", some value) => value.id?.map node
  | ("compound_input", some value) => value.text?.map compoundInput
  | ("compound_output", some value) => value.text?.map compoundOutput
  | _ => none

def BuildStep.ofJson? (j : Json) : Option BuildStep := do
  let (op, body) ← j.tagged? "op"
  match op with
  | "create_compound" =>
    let fields ← body.fields? ["parent", "name"]
    return createCompound (← (← fields.lookup "parent").text?) (← (← fields.lookup "name").text?)
  | "create_output_port" =>
    let fields ← body.fields? ["name"]
    return createOutputPort (← (← fields.lookup "name").text?)
  | "create_input_port" =>
    let fields ← body.fields? ["name", "skip_existing"]
    return createInputPort (← (← fields.lookup "name").text?)
      (← (← fields.lookup "skip_existing").bool?)
  | "create_node" =>
    let fields ← body.fields? ["expr", "node_type"]
    return createNode (← (← fields.lookup "expr").id?) ⟨← (← fields.lookup "node_type").text?⟩
  | "set_literal_value" =>
    let fields ← body.fields? ["expr", "value"]
    return setLiteralValue (← (← fields.lookup "expr").id?) (← (← fields.lookup "value").doubleOf?)
  | "connect" =>
    let fields ← body.fields? ["kind", "source", "target"]
    let kind ← (← fields.lookup "kind").name? true
    return connect (← WireKind.ofScriptName? kind)
      (← Endpoint.ofJson? (← fields.lookup "source"))
      (← Endpoint.ofJson? (← fields.lookup "target"))
  | _ => none

def PlannedNode.ofJson? (j : Json) : Option PlannedNode := do
  let fields ← j.fields? ["expr", "role", "node_type", "value", "port"]
  let expr ← (← fields.lookup "expr").id?
  let role ← Role.ofScriptName? (← (← fields.lookup "role").name? false)
  let nodeType ← Json.optional? Json.text? (fields.lookup "node_type")
  let value ← Json.optional? Json.doubleOf? (fields.lookup "value")
  let port ← Json.optional? Json.text? (fields.lookup "port")
  return ⟨expr, role, nodeType.map NodeType.mk, value, port⟩

def Link.ofJson? (j : Json) : Option Link := do
  let (kind, body) ← j.tagged? "kind"
  match kind with
  | "output" =>
    let fields ← body.fields? ["source"]
    return output (← (← fields.lookup "source").id?)
  | "input" =>
    let fields ← body.fields? ["symbol", "target"]
    return input (← (← fields.lookup "symbol").text?) (← (← fields.lookup "target").id?)
  | "node" =>
    let fields ← body.fields? ["source", "target"]
    return node (← (← fields.lookup "source").id?) (← (← fields.lookup "target").id?)
  | _ => none

namespace Plan

def ofJson? (j : Json) : Option Plan := do
  let fields ← j.fields?
    ["compound_name", "parent", "output_port", "root", "ops", "nodes", "connections"]
  let compoundName ← (← fields.lookup "compound_name").text?
  let parent ← (← fields.lookup "parent").text?
  let outputPort ← (← fields.lookup "output_port").text?
  let root ← (← fields.lookup "root").id?
  let steps ← (← (← fields.lookup "ops").array?).mapM BuildStep.ofJson?
  let nodes ← (← (← fields.lookup "nodes").array?).mapM PlannedNode.ofJson?
  let links ← (← (← fields.lookup "connections").array?).mapM Link.ofJson?
  return ⟨compoundName, parent, outputPort, root, steps, nodes, links⟩

/-- The plan that a script describes. -/
def ofScript? (text : String) : Option Plan := (Json.read? text.toList).bind ofJson?

end Plan

end FormulaGraph
