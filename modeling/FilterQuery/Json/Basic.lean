/-!
# JSON documents, as far as they can be read

A reading of a text stops where the text stops being JSON. What was read up to there is kept, so a
decoder can tell whether something else was wrong before that point.
-/
namespace FilterQuery

/-- A number of a JSON text. Integers keep their exact value from -2⁶³ to 2⁶⁴ - 1; what no
floating-point number can hold is an overflow. -/
inductive Number where
  | integer (i : Int)
  | float (x : Float)
  | overflow
  deriving DecidableEq

/-- What a JSON text says. A string is `none` if one of its escapes names half of a character.
Members are in the order of the text. -/
inductive Json where
  | null
  | bool (b : Bool)
  | number (n : Number)
  | string (s : Option String)
  | array (items : List Json)
  /-- `closed` tells whether the text comes to the end of the object. -/
  | object (members : List (Option String × Json)) (closed : Bool)
  /-- The text stops being JSON here, and nothing after it is read. -/
  | broken

namespace Json

/-- A string in which every character is whole. -/
def text (s : String) : Json := .string (some s)

def integer (i : Int) : Json := .number (.integer i)

/-- An object that is read to its end. -/
def ofMembers (members : List (String × Json)) : Json :=
  .object (members.map fun (key, value) => (some key, value)) true

mutual

/-- The text was JSON to the end of this value. -/
def isWhole : Json → Bool
  | .broken => false
  | .array items => itemsWhole items
  | .object members closed => membersWhole members && closed
  | _ => true

def itemsWhole : List Json → Bool
  | [] => true
  | v :: vs => v.isWhole && itemsWhole vs

def membersWhole : List (Option String × Json) → Bool
  | [] => true
  | (_, v) :: rest => v.isWhole && membersWhole rest

end

/-- A value that can be kept: JSON to its end, numbers in range, strings of whole characters, and
at most `room` containers within one another. -/
def fits : Nat → Json → Bool
  | _, .null => true
  | _, .bool _ => true
  | _, .number .overflow => false
  | _, .number _ => true
  | _, .string s => s.isSome
  | _, .broken => false
  | 0, .array _ => false
  | 0, .object _ _ => false
  | room + 1, .array items => items.all (fits room)
  | room + 1, .object members closed =>
    members.all (fun (key, value) => key.isSome && fits room value) && closed

end Json

end FilterQuery
