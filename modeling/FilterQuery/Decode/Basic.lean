import FilterQuery.Decode.Error
import FilterQuery.Json.Reader

/-!
# Decoding values

A decoder takes the number of containers that may still be opened and a value, and goes through the
value in the order of the text: the first error it meets is the answer.
-/
namespace FilterQuery.Decode

abbrev Result (α : Type) := Except DecodeError α

/-- A decoder of values, given the number of containers that may still be opened. -/
abbrev Decoder (α : Type) := Nat → Json → Result α

/-- The value is no JSON, or nested too deeply. -/
def malformed {α : Type} : Result α := .error .malformed

/-- The value says the wrong thing. -/
def refuse {α : Type} (m : Mismatch) : Result α := .error (.mismatch m)

/-- What stands there. A scalar is read to its end, a container is named by its first character. -/
def found : Json → Result Found
  | .null => .ok .null
  | .bool b => .ok (.bool b)
  | .number (.integer i) => .ok (.integer i)
  | .number (.float x) => .ok (.float x)
  | .number .overflow => malformed
  | .string (some s) => .ok (.string s)
  | .string none => malformed
  | .array _ => .ok .sequence
  | .object _ _ => .ok .map
  | .broken => malformed

def expected {α : Type} (what : String) (v : Json) : Result α := do refuse (.kind (← found v) what)

def string : Decoder String
  | _, .string (some s) => .ok s
  | _, v => expected "a string" v

/-- A natural number below 2⁶⁴. -/
def natural : Decoder UInt64
  | _, .number (.integer i) =>
    if i < 0 then refuse (.belowZero i)
    else if i < 0x10000000000000000 then .ok (UInt64.ofNat i.toNat)
    else malformed
  | _, v => expected "u64" v

/-- A value, or nothing for `null`. -/
def optional {α : Type} (d : Decoder α) : Decoder (Option α)
  | _, .null => .ok none
  | room, v => (d room v).map some

/-- An array whose items are decoded in turn. -/
def list {α : Type} (item : Nat → Json → Result α) : Decoder (List α)
  | 0, .array _ => malformed
  | room + 1, .array items => items.mapM (item room)
  | _, v => expected "a sequence" v

/-- One of several names, or an object with one of them as its only key and `null` beside it. -/
def variant {α : Type} (known : List (String × α)) : Decoder α
  | _, .string (some s) => pick s
  | _ + 1, .object ((some s, v) :: rest) closed => do
    let a ← pick s
    match v with
    | .null => if rest.isEmpty && closed then .ok a else malformed
    | v => expected "unit" v
  | _, _ => malformed
where
  /-- The variant of a name. -/
  pick (s : String) : Result α :=
    match known.lookup s with
    | some a => .ok a
    | none => refuse (.unknownVariant s (known.map Prod.fst))

/-- Containers may be nested this deep. -/
def nesting : Nat := 127

/-- Decodes a text, after whose value nothing may follow. -/
def ofText {α : Type} (d : Decoder α) (s : String) : Result α := do
  let reading := Json.read s
  let a ← d nesting reading.json
  if reading.ends then .ok a else malformed

end FilterQuery.Decode
