import FilterQuery.Condition.Spec
import FilterQuery.Json.Printer

/-!
# Encoding conditions and specs

Keys stand in a fixed order. A spec leaves out what is unset or empty.
-/
namespace FilterQuery

/-- A floating-point number; what is no finite number is `null`. -/
def Json.ofFloat (x : Float) : Json := if x.isFinite then .number (.float x) else .null

def Json.ofCount (n : UInt64) : Json := .integer n.toNat

def Operator.toJson (o : Operator) : Json := .text o.name

/-- A connective by its name in documents. -/
def Connective.toJson (c : Connective) : Json := .text c.key

/-- A direction by its name in documents. -/
def Direction.toJson (d : Direction) : Json := .text d.key

/-- A scalar as the JSON value of its kind. -/
def Scalar.toJson : Scalar → Json
  | .null => .null
  | .bool b => .bool b
  | .int i => .integer i.toInt
  | .float x => .ofFloat x
  | .text s => .text s

def Operand.toJson : Operand → Json
  | .scalar value => value.toJson
  | .list values => .array (values.map Scalar.toJson)

/-- A predicate with its three keys. -/
def Predicate.toJson (p : Predicate) : Json :=
  .ofMembers [("operator", p.operator.toJson), ("field", .text p.field),
    ("value", p.operand.toJson)]

namespace Condition

mutual

/-- A leaf has its predicate's three keys, a group its connective and its children. -/
def toJson : Condition → Json
  | leaf p => p.toJson
  | group c children => .ofMembers [("logic", c.toJson), ("children", .array (toJsons children))]

def toJsons : List Condition → List Json
  | [] => []
  | c :: cs => c.toJson :: toJsons cs

end

end Condition

/-- A sort key with both of its keys. -/
def SortKey.toJson (k : SortKey) : Json :=
  .ofMembers [("field", .text k.field), ("direction", k.direction.toJson)]

/-- The keys of a list. -/
def SortKey.listToJson (ks : List SortKey) : Json := .array (ks.map SortKey.toJson)

/-- A spec, without what is unset or empty. -/
def Spec.toJson (s : Spec Condition) : Json :=
  let member {α : Type} (key : String) (encode : α → Json) (a : Option α) : List (String × Json) :=
    (a.map fun a => (key, encode a)).toList
  .ofMembers <|
    member "root" Condition.toJson s.root ++
    (if s.sorts.isEmpty then [] else [("sorts", SortKey.listToJson s.sorts)]) ++
    member "offset" Json.ofCount s.offset ++
    member "limit" Json.ofCount s.limit

end FilterQuery
