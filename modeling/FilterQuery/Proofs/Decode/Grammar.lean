import FilterQuery.Condition.Spec
import FilterQuery.Json.Numeral
import Mathlib.Data.List.Forall2

/-!
# The grammar of specs

Which documents are specs and what they say, as relations on whole documents. A record is known by
what stands under its keys: neither the order of members nor the choice between two names of a key
matters, and what stands under other keys is not looked at.
-/
namespace FilterQuery.Grammar

abbrev Members := List (Option String × Json)

/-- What stands under the names, in the order of the members. -/
def under (names : List String) (ms : Members) : List Json :=
  ms.filterMap fun (key, v) => if key.any names.contains then some v else none

/-- The members of a record: those of an object, or the items of an array under the keys in their
order, with at least `least` of them. -/
inductive Fields (keys : List String) (least : Nat) : Json → Members → Prop where
  | object (ms : Members) : Fields keys least (.object ms true) ms
  | array {items : List Json} (enough : least ≤ items.length) (fit : items.length ≤ keys.length) :
      Fields keys least (.array items) ((keys.map some).zip items)

/-- Nothing stands under the names, or a single value with a meaning. -/
inductive Entry {α : Type} (names : List String) (Means : Json → α → Prop) (ms : Members) :
    Option α → Prop where
  | absent (nothing : under names ms = []) : Entry names Means ms none
  | given {v : Json} {a : α} (one : under names ms = [v]) (means : Means v a) :
      Entry names Means ms (some a)

/-- As an entry, but `null` stands for nothing. -/
inductive Nullable {α : Type} (names : List String) (Means : Json → α → Prop) (ms : Members) :
    Option α → Prop where
  | absent (nothing : under names ms = []) : Nullable names Means ms none
  | null (one : under names ms = [.null]) : Nullable names Means ms none
  | given {v : Json} {a : α} (one : under names ms = [v]) (means : Means v a) :
      Nullable names Means ms (some a)

inductive OfText : Json → String → Prop where
  | mk (s : String) : OfText (.text s) s

/-- A natural number below 2⁶⁴. -/
inductive OfCount : Json → UInt64 → Prop where
  | mk (n : UInt64) : OfCount (.integer n.toNat) n

/-- A name in any spelling, or a code; what is not known is unrecognized. -/
inductive OfOperator : Json → Operator → Prop where
  | name (s : String) : OfOperator (.text s) (Operator.ofName s)
  | code (n : Nat) : OfOperator (.integer n) (Operator.ofCode n)
  | negative {i : Int} (sign : i < 0) : OfOperator (.integer i) .unrecognized

/-- One of several names, alone or as the only key of an object with `null` beside it. -/
inductive OfVariant {α : Type} (known : List (String × α)) : Json → α → Prop where
  | name {s : String} {a : α} (one : known.lookup s = some a) : OfVariant known (.text s) a
  | object {s : String} {a : α} (one : known.lookup s = some a) :
      OfVariant known (.object [(some s, .null)] true) a

def OfConnective : Json → Connective → Prop :=
  OfVariant [("AND", .and), ("and", .and), ("OR", .or), ("or", .or)]

def OfDirection : Json → Direction → Prop :=
  OfVariant [("ASC", .ascending), ("asc", .ascending), ("DESC", .descending), ("desc", .descending)]

/-- Integers stay integers below 2⁶³, and are floating-point numbers from there on. -/
inductive OfScalar : Json → Scalar → Prop where
  | null : OfScalar .null .null
  | bool (b : Bool) : OfScalar (.bool b) (.bool b)
  | text (s : String) : OfScalar (.text s) (.text s)
  | int {i : Int} (small : i < 0x8000000000000000) : OfScalar (.integer i) (.int (Int64.ofInt i))
  | wide {i : Int} {x : Float} (large : 0x8000000000000000 ≤ i)
      (nearest : Number.ofMagnitude false (Decimal.toFloat ⟨i.toNat, 0⟩) = .float x) :
      OfScalar (.integer i) (.float x)
  | float (x : Float) : OfScalar (.number (.float x)) (.float x)

inductive OfOperand : Json → Operand → Prop where
  | scalar {v : Json} {a : Scalar} (value : OfScalar v a) : OfOperand v (.scalar a)
  | list {vs : List Json} {values : List Scalar} (items : List.Forall₂ OfScalar vs values) :
      OfOperand (.array vs) (.list values)

def nodeKeys : List String := ["operator", "field", "value", "logic", "children"]

def childNames : List String := ["children", "conditions"]

/-- The operand of a leaf: what is given, or `null` where the operator ignores it. -/
inductive LeafOperand (operator : Operator) : Option Operand → Operand → Prop where
  | given (operand : Operand) : LeafOperand operator (some operand) operand
  | ignored (unread : operator.ignoresOperand = true) :
      LeafOperand operator none (.scalar .null)

/-- A node is a group if it has children. What its other keys say has to be well-formed all the
same. -/
inductive OfNode : Json → Condition → Prop where
  | leaf {v : Json} {ms : Members} {operator : Operator} {field : String} {value : Option Operand}
      {operand : Operand} {connective : Option Connective} (fields : Fields nodeKeys 5 v ms)
      (hasOperator : Nullable ["operator"] OfOperator ms (some operator))
      (hasField : Nullable ["field"] OfText ms (some field))
      (hasValue : Entry ["value"] OfOperand ms value)
      (hasLogic : Entry ["logic"] OfConnective ms connective)
      (childless : under childNames ms = [] ∨ under childNames ms = [.null])
      (reads : LeafOperand operator value operand) : OfNode v (.leaf ⟨operator, field, operand⟩)
  | group {v : Json} {ms : Members} {operator : Option Operator} {field : Option String}
      {value : Option Operand} {connective : Option Connective} {items : List Json}
      {children : List Condition} (fields : Fields nodeKeys 5 v ms)
      (hasOperator : Nullable ["operator"] OfOperator ms operator)
      (hasField : Nullable ["field"] OfText ms field)
      (hasValue : Entry ["value"] OfOperand ms value)
      (hasLogic : Entry ["logic"] OfConnective ms connective)
      (hasChildren : under childNames ms = [.array items]) (populated : items ≠ [])
      (nodes : List.Forall₂ OfNode items children) :
      OfNode v (.group (connective.getD .and) children)

inductive OfNodes : Json → List Condition → Prop where
  | mk {vs : List Json} {cs : List Condition} (items : List.Forall₂ OfNode vs cs) :
      OfNodes (.array vs) cs

/-- A sort key, ascending unless a direction is given. -/
inductive OfSort : Json → SortKey → Prop where
  | mk {v : Json} {ms : Members} {field : String} {direction : Option Direction}
      (fields : Fields ["field", "direction"] 1 v ms)
      (hasField : Entry ["field", "sort"] OfText ms (some field))
      (hasDirection : Entry ["direction", "dir"] OfDirection ms direction) :
      OfSort v ⟨field, direction.getD .ascending⟩

inductive OfSorts : Json → List SortKey → Prop where
  | mk {vs : List Json} {keys : List SortKey} (items : List.Forall₂ OfSort vs keys) :
      OfSorts (.array vs) keys

inductive OfSpec : Json → Spec Condition → Prop where
  | mk {v : Json} {ms : Members} {root : Option Condition} {sorts : Option (List SortKey)}
      {offset limit : Option UInt64} (fields : Fields ["root", "sorts", "offset", "limit"] 0 v ms)
      (hasRoot : Nullable ["root"] OfNode ms root) (hasSorts : Entry ["sorts"] OfSorts ms sorts)
      (hasOffset : Nullable ["offset"] OfCount ms offset)
      (hasLimit : Nullable ["limit"] OfCount ms limit) :
      OfSpec v ⟨root, sorts.getD [], offset, limit⟩

end FilterQuery.Grammar
