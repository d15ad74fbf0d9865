import FilterQuery.Decode.Basic

/-!
# Records

A record is an object whose known keys are its fields, in any order and each at most once, or an
array of its fields in their order. Keys that are not known are skipped.
-/
namespace FilterQuery.Decode

/-- A field of a record whose values are gathered in a `σ`. -/
structure Field (σ : Type) where
  name : String
  aliases : List String := []
  /-- An array may end before this field. -/
  mayEnd : Bool := false
  given : σ → Bool
  take : Nat → Json → σ → Result σ

namespace Field

variable {σ : Type}

/-- The field is meant by a key. -/
def answers (f : Field σ) (key : String) : Bool := key == f.name || f.aliases.contains key

end Field

/-- The name of a record and its fields in order. -/
structure Record (σ : Type) where
  name : String
  fields : List (Field σ)

namespace Record

variable {σ : Type}

/-- Takes the members of an object. A key is judged before its value is looked at. -/
def takeMembers (r : Record σ) (room : Nat) : List (Option String × Json) → σ → Result σ
  | [], s => .ok s
  | (none, _) :: _, _ => malformed
  | (some key, v) :: rest, s =>
    match r.fields.find? (·.answers key) with
    | none => if v.isWhole then r.takeMembers room rest s else malformed
    | some f => do
      if f.given s then refuse (.duplicateField f.name)
      let s ← f.take room v s
      r.takeMembers room rest s

/-- Takes the items of an array, `count` fields after the first. -/
def takeItems (r : Record σ) (room : Nat) : Nat → List (Field σ) → List Json → σ → Result σ
  | _, [], [], s => .ok s
  | _, [], _ :: _, _ => malformed
  | count, f :: fields, v :: items, s => do
    let s ← f.take room v s
    r.takeItems room (count + 1) fields items s
  | count, f :: fields, [], s =>
    if f.mayEnd then r.takeItems room (count + 1) fields [] s
    else refuse (.tooShort count r.name r.fields.length)

/-- Takes a record in either form. -/
def take (r : Record σ) (start : σ) : Decoder σ
  | 0, .array _ => malformed
  | 0, .object _ _ => malformed
  | room + 1, .array items => r.takeItems room 0 r.fields items start
  | room + 1, .object members closed => do
    let s ← r.takeMembers room members start
    if closed then .ok s else malformed
  | _, v => expected ("struct " ++ r.name) v

end Record

end FilterQuery.Decode
