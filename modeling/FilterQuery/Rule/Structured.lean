import FilterQuery.Json.Basic
import FilterQuery.Rule.Basic

/-!
Rules as JSON. Annotations that are absent are left out, and the whole annotation with them when all
are. Unknown fields are ignored in reading.
-/

namespace FilterQuery

namespace Value

def toJson : Value → Json
  | flag b => .bool b
  | text s => .text s
  | list items => .ofTexts items

def ofJson? : Json → Option Value
  | .bool b => some (flag b)
  | .text s => some (text s)
  | .list items => (items.mapM Json.asText?).map list
  | _ => none

end Value

/-- The fields that have a value. -/
def presentFields (fields : List (String × Option Json)) : List (String × Json) :=
  fields.filterMap fun (name, j) => j.map (name, ·)

namespace Annotation

def toJson (a : Annotation) : Json :=
  .object <| presentFields
    [("column_offset", a.column.map .ofNat), ("operator_offset", a.operator.map .ofNat),
      ("value_offset", a.value.map .ofNat), ("label", a.label.map .text)]

/-- A field that is absent or `null`, or that `read` accepts. -/
def optional? (j : Json) (name : String) (read : Json → Option α) : Option (Option α) :=
  match j.find? name with
  | none => some none
  | some v => (read v).map some

def ofJson? (j : Json) : Option Annotation :=
  if j.isObject then do
    let column ← optional? j "column_offset" Json.asNat?
    let operator ← optional? j "operator_offset" Json.asNat?
    let value ← optional? j "value_offset" Json.asNat?
    let label ← optional? j "label" Json.asText?
    some { column, operator, value, label }
  else none

end Annotation

namespace Condition

def jsonFields (c : Condition) : List (String × Json) :=
  [("column", .text c.column), ("op", .text c.comparison.name), ("value", c.value.toJson)] ++
    if c.note = {} then [] else [("meta", c.note.toJson)]

def ofJson? (j : Json) : Option Condition := do
  let column ← (← j.get? "column").asText?
  let comparison ← Comparison.ofName? (← (← j.get? "op").asText?)
  let value ← Value.ofJson? (← j.get? "value")
  let note ←
    match j.get? "meta" with
    | none => some {}
    | some v => Annotation.ofJson? v
  some { column, comparison, value, note }

end Condition

namespace Rule

mutual

def toJson : Rule → Json
  | condition c => .object (("type", .text "condition") :: c.jsonFields)
  | chain op children =>
    .object [("type", .text "chain"), ("op", .text op.name), ("children", .list (toJsons children))]

def toJsons : List Rule → List Json
  | [] => []
  | r :: rs => r.toJson :: toJsons rs

end

mutual

/-- The rule that the value describes. -/
def ofJson? : Json → Option Rule
  | .object fields =>
    match fields.lookup "type" with
    | some (.text "condition") => (Condition.ofJson? (.object fields)).map condition
    | some (.text "chain") => do
      let op ← Connective.ofName? (← (← fields.lookup "op").asText?)
      (childrenOf? fields).map (chain op)
    | _ => none
  | _ => none

/-- The children among the fields of a chain. -/
def childrenOf? : List (String × Json) → Option (List Rule)
  | [] => none
  | ("children", .list items) :: _ => ofJsons? items
  | ("children", _) :: _ => none
  | _ :: fields => childrenOf? fields

def ofJsons? : List Json → Option (List Rule)
  | [] => some []
  | j :: js => do
    let r ← ofJson? j
    let rs ← ofJsons? js
    some (r :: rs)

end

end Rule
end FilterQuery
