import FilterQuery.Condition.Spec
import FilterQuery.Decode.Record
import FilterQuery.Sql.Dialect

/-!
# Decoding conditions and specs

A node of the tree is a group if it has children and a leaf if it has none. A leaf needs an
operator, a field and, unless its operator reads none, an operand; `null` counts as absent for the
first two and is an operand for the third.
-/
namespace FilterQuery.Decode

/-- An operator by name or code. -/
def operator : Decoder Operator
  | _, .string (some s) => .ok (Operator.ofName s)
  | _, .number (.integer i) => .ok (if i < 0 then .unrecognized else Operator.ofCode i.toNat)
  | 0, .array _ => malformed
  | 0, .object _ _ => malformed
  | _, v => expected "an operator name or numeric operator code" v

/-- `AND` or `OR`, in capital or small letters. -/
def connective : Decoder Connective :=
  variant [("AND", .and), ("and", .and), ("OR", .or), ("or", .or)]

/-- `ASC` or `DESC`, in capital or small letters. -/
def direction : Decoder Direction :=
  variant [("ASC", .ascending), ("asc", .ascending), ("DESC", .descending), ("desc", .descending)]

/-- A dialect by its own name. -/
def dialect : Decoder Dialect := variant [("postgres", .postgres), ("mysql", .mysql)]

/-- The scalar of a number. An integer from 2⁶³ on is taken as a floating-point number. -/
def scalarOfNumber : Number → Option Scalar
  | .integer i =>
    if i < 0x8000000000000000 then some (.int (Int64.ofInt i))
    else match Number.ofMagnitude false (Decimal.toFloat ⟨i.toNat, 0⟩) with
      | .float x => some (.float x)
      | _ => none
  | .float x => some (.float x)
  | .overflow => none

/-- The scalar that a value denotes. -/
def scalar? : Json → Option Scalar
  | .null => some .null
  | .bool b => some (.bool b)
  | .number n => scalarOfNumber n
  | .string (some s) => some (.text s)
  | _ => none

/-- The operand that a value denotes: an array of scalars is a list. -/
def operand? : Json → Option Operand
  | .array items => (items.mapM scalar?).map .list
  | v => (scalar? v).map .scalar

/-- A value that is kept as a whole and then has to denote something of a kind. -/
def kept {α : Type} (kind : String) (meaning : Json → Option α) : Decoder α := fun room v =>
  if v.fits room then
    match meaning v with
    | some a => .ok a
    | none => refuse (.noVariant kind)
  else malformed

def scalar : Decoder Scalar := kept "Scalar" scalar?

def operand : Decoder Operand := kept "Operand" operand?

/-- What a node of the tree gives, key by key. -/
structure NodeParts where
  operator : Option (Option Operator) := none
  field : Option (Option String) := none
  operand : Option Operand := none
  connective : Option Connective := none
  children : Option (Option (List Condition)) := none

namespace NodeParts

/-- The fields of a node, with the decoder of its children. -/
def record (child : Json → Result Condition) : Record NodeParts where
  name := "RawNode"
  fields := [
    { name := "operator"
      given := fun p => p.operator.isSome
      take := fun room v p => do
        let a ← optional Decode.operator room v
        pure { p with operator := some a } },
    { name := "field"
      given := fun p => p.field.isSome
      take := fun room v p => do
        let a ← optional string room v
        pure { p with field := some a } },
    { name := "value"
      mayEnd := true
      given := fun p => p.operand.isSome
      take := fun room v p => do
        let a ← Decode.operand room v
        pure { p with operand := some a } },
    { name := "logic"
      mayEnd := true
      given := fun p => p.connective.isSome
      take := fun room v p => do
        let a ← Decode.connective room v
        pure { p with connective := some a } },
    { name := "children"
      aliases := ["conditions"]
      given := fun p => p.children.isSome
      take := fun room v p => do
        let a ← optional (list fun _ => child) room v
        pure { p with children := some a } }]

/-- The leaf that the parts make up: what is missing first is named. -/
def leaf (p : NodeParts) : Except Condition.Fault Condition :=
  match p.operator.join with
  | none => .error (.missingKey "operator")
  | some operator =>
    match p.field.join with
    | none => .error (.missingKey "field")
    | some field =>
      match p.operand with
      | some operand => .ok (.leaf ⟨operator, field, operand⟩)
      | none =>
        if operator.ignoresOperand then .ok (.leaf (.unary operator field))
        else .error (.missingKey "value")

/-- The node that the parts make up. -/
def node (p : NodeParts) : Except Condition.Fault Condition :=
  match p.children.join with
  | some children => Condition.group? .group (p.connective.getD .and) children
  | none => p.leaf

end NodeParts

/-- A node, with the decoder of its children. -/
def nodeOver (child : Json → Result Condition) (room : Nat) (v : Json) : Result Condition := do
  let parts ← (NodeParts.record child).take {} room v
  match parts.node with
  | .ok c => .ok c
  | .error f => refuse (.fault f)

/-- A condition. A node opens one container for itself and one for its children. -/
def condition : Decoder Condition
  | 0 => nodeOver (fun _ => malformed) 0
  | 1 => nodeOver (fun _ => malformed) 1
  | room + 2 => nodeOver (condition room) (room + 2)

/-- What a sort key gives, key by key. -/
structure SortParts where
  field : Option String := none
  direction : Option Direction := none

namespace SortParts

def record : Record SortParts where
  name := "SortEntry"
  fields := [
    { name := "field"
      aliases := ["sort"]
      given := fun p => p.field.isSome
      take := fun room v p => do
        let a ← string room v
        pure { p with field := some a } },
    { name := "direction"
      aliases := ["dir"]
      mayEnd := true
      given := fun p => p.direction.isSome
      take := fun room v p => do
        let a ← Decode.direction room v
        pure { p with direction := some a } }]

end SortParts

/-- A sort key; ascending unless a direction is given. -/
def sortKey : Decoder SortKey := fun room v => do
  let parts ← SortParts.record.take {} room v
  match parts.field with
  | some field => .ok ⟨field, parts.direction.getD .ascending⟩
  | none => refuse (.missingField "field")

/-- What a spec gives, key by key. -/
structure SpecParts where
  root : Option (Option Condition) := none
  sorts : Option (List SortKey) := none
  offset : Option (Option UInt64) := none
  limit : Option (Option UInt64) := none

namespace SpecParts

def record : Record SpecParts where
  name := "ConditionSpec"
  fields := [
    { name := "root"
      mayEnd := true
      given := fun p => p.root.isSome
      take := fun room v p => do
        let a ← optional condition room v
        pure { p with root := some a } },
    { name := "sorts"
      mayEnd := true
      given := fun p => p.sorts.isSome
      take := fun room v p => do
        let a ← list sortKey room v
        pure { p with sorts := some a } },
    { name := "offset"
      mayEnd := true
      given := fun p => p.offset.isSome
      take := fun room v p => do
        let a ← optional natural room v
        pure { p with offset := some a } },
    { name := "limit"
      mayEnd := true
      given := fun p => p.limit.isSome
      take := fun room v p => do
        let a ← optional natural room v
        pure { p with limit := some a } }]

end SpecParts

/-- A spec; what is not given is unset. -/
def spec : Decoder (Spec Condition) := fun room v => do
  let p ← SpecParts.record.take {} room v
  .ok ⟨p.root.join, p.sorts.getD [], p.offset.join, p.limit.join⟩

end FilterQuery.Decode
