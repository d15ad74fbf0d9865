import FilterQuery.Json.Token

/-!
# Reading JSON

A value is read from the front of the tokens. Where the tokens stop being JSON, the innermost open
container ends in a broken part and no token is left for the others.
-/
namespace FilterQuery.Json

mutual

/-- The value at the front of the tokens, and the tokens after it; `fuel` bounds the steps. -/
def value : Nat → List Token → Json × List Token
  | 0, _ => (.broken, [])
  | _ + 1, .null :: rest => (.null, rest)
  | _ + 1, .bool b :: rest => (.bool b, rest)
  | _ + 1, .number n :: rest => (.number n, rest)
  | _ + 1, .string s :: rest => (.string s, rest)
  | _ + 1, .openArray :: .closeArray :: rest => (.array [], rest)
  | fuel + 1, .openArray :: rest =>
    let (items, rest) := items fuel rest
    (.array items, rest)
  | _ + 1, .openObject :: .closeObject :: rest => (.object [] true, rest)
  | fuel + 1, .openObject :: rest =>
    let (members, closed, rest) := members fuel rest
    (.object members closed, rest)
  | _ + 1, _ => (.broken, [])

/-- The items up to the end of an array that has one. -/
def items : Nat → List Token → List Json × List Token
  | 0, _ => ([.broken], [])
  | fuel + 1, tokens =>
    let (v, rest) := value fuel tokens
    match rest with
    | .comma :: rest =>
      let (vs, rest) := items fuel rest
      (v :: vs, rest)
    | .closeArray :: rest => ([v], rest)
    | _ => ([v, .broken], [])

/-- The members up to the end of an object, and whether it has one. A key has to be a string. -/
def members : Nat → List Token → List (Option String × Json) × Bool × List Token
  | 0, _ => ([], false, [])
  | fuel + 1, .string key :: .colon :: rest =>
    let (v, rest) := value fuel rest
    match rest with
    | .comma :: rest =>
      let (ms, closed, rest) := members fuel rest
      ((key, v) :: ms, closed, rest)
    | .closeObject :: rest => ([(key, v)], true, rest)
    | _ => ([(key, v)], false, [])
  | _ + 1, .string key :: _ => ([(key, .broken)], false, [])
  | _ + 1, _ => ([], false, [])

end

theorem value_openArray_eq {fuel : Nat} {ts : List Token} (h : ∀ rest, ts ≠ .closeArray :: rest) :
    value (fuel + 1) (.openArray :: ts) = (.array (items fuel ts).1, (items fuel ts).2) := by
  rw [value]
  exact h

theorem value_openObject_eq {fuel : Nat} {ts : List Token}
    (h : ∀ rest, ts ≠ .closeObject :: rest) :
    value (fuel + 1) (.openObject :: ts) =
      (.object (members fuel ts).1 (members fuel ts).2.1, (members fuel ts).2.2) := by
  rw [value]
  exact h

/-- A text read as JSON: its value, and whether the text ends with it. -/
structure Reading where
  json : Json
  ends : Bool

def read (s : String) : Reading :=
  let tokens := Token.ofText s
  let (json, rest) := value (2 * tokens.length + 1) tokens
  ⟨json, rest.isEmpty⟩

end FilterQuery.Json
