/-!
JSON values. Numbers are integers of at most 64 bits or doubles. A field name occurs once in an
object.
-/

namespace FilterQuery

inductive Json where
  | null
  | bool (b : Bool)
  | int (n : Int)
  | real (x : Float)
  | text (s : String)
  | list (items : List Json)
  | object (fields : List (String × Json))

namespace Json

/-- Puts a field where its name belongs in the order of code points. It replaces a field of the same
name. -/
def insertField (name : String) (value : Json) : List (String × Json) → List (String × Json)
  | [] => [(name, value)]
  | (n, v) :: fields =>
    if name < n then (name, value) :: (n, v) :: fields
    else if name = n then (name, value) :: fields
    else (n, v) :: insertField name value fields

/-- The object with these fields, of which the last one of each name counts, in the order of their
names. -/
def ofFields (fields : List (String × Json)) : Json :=
  object (fields.foldl (fun fs (n, v) => insertField n v fs) [])

def get? (j : Json) (name : String) : Option Json :=
  match j with
  | object fields => fields.lookup name
  | _ => none

/-- The value of a field; a field that is `null` counts as absent. -/
def find? (j : Json) (name : String) : Option Json :=
  match j.get? name with
  | some null => none
  | v => v

def asText? : Json → Option String
  | text s => some s
  | _ => none

def asBool? : Json → Option Bool
  | bool b => some b
  | _ => none

def asList? : Json → Option (List Json)
  | list items => some items
  | _ => none

/-- A number without sign, fraction and exponent. -/
def asNat? : Json → Option Nat
  | int n => if 0 ≤ n then some n.toNat else none
  | _ => none

def isObject : Json → Bool
  | object _ => true
  | _ => false

def ofNat (n : Nat) : Json := int n

def ofOption (f : α → Json) : Option α → Json
  | some a => f a
  | none => null

def ofTexts (ss : List String) : Json := list (ss.map text)

def ofNats (ns : List Nat) : Json := list (ns.map ofNat)

end Json
end FilterQuery
