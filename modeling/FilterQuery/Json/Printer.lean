import FilterQuery.Decimal.Layout
import FilterQuery.Json.Basic

/-!
# Writing JSON

A document has a compact text without white space, and one on several lines indented by two spaces,
in which an empty container stays on one line.
-/
namespace FilterQuery

namespace Number

def chars : Number → List Char
  | .integer i => integerChars i
  | .float x => Layout.json.text x
  | .overflow => []

end Number

namespace Json

/-- How a character is written inside a string: quotes, backslashes and the characters below U+0020
are escaped. -/
def escape (c : Char) : List Char :=
  match c with
  | '"' => ['\\', '"']
  | '\\' => ['\\', '\\']
  | '\x08' => ['\\', 'b']
  | '\t' => ['\\', 't']
  | '\n' => ['\\', 'n']
  | '\x0c' => ['\\', 'f']
  | '\r' => ['\\', 'r']
  | c =>
    if c.toNat < 0x20 then
      ['\\', 'u', '0', '0', Nat.digitChar (c.toNat / 16), Nat.digitChar (c.toNat % 16)]
    else [c]

def quote (s : String) : List Char := '"' :: (s.toList.flatMap escape ++ ['"'])

def keyChars (key : Option String) : List Char := quote (key.getD "")

mutual

/-- The text without white space. -/
def compact : Json → List Char
  | .null => ['n', 'u', 'l', 'l']
  | .bool true => ['t', 'r', 'u', 'e']
  | .bool false => ['f', 'a', 'l', 's', 'e']
  | .number n => n.chars
  | .string s => quote (s.getD "")
  | .array items => '[' :: compactItems items
  | .object members _ => '{' :: compactMembers members
  | .broken => []

/-- The items with commas between them, and the end of the array. -/
def compactItems : List Json → List Char
  | [] => [']']
  | [v] => v.compact ++ [']']
  | v :: vs => v.compact ++ ',' :: compactItems vs

/-- The members with commas between them, and the end of the object. -/
def compactMembers : List (Option String × Json) → List Char
  | [] => ['}']
  | [(key, v)] => keyChars key ++ ':' :: v.compact ++ ['}']
  | (key, v) :: rest => keyChars key ++ ':' :: v.compact ++ ',' :: compactMembers rest

end

def line (indent : Nat) : List Char := '\n' :: List.replicate (2 * indent) ' '

mutual

/-- The text on several lines, for a value that stands `indent` levels deep. -/
def pretty (indent : Nat) : Json → List Char
  | .array (v :: vs) => '[' :: prettyItems indent (v :: vs)
  | .object (m :: ms) _ => '{' :: prettyMembers indent (m :: ms)
  | .array [] => ['[', ']']
  | .object [] _ => ['{', '}']
  | .null => ['n', 'u', 'l', 'l']
  | .bool true => ['t', 'r', 'u', 'e']
  | .bool false => ['f', 'a', 'l', 's', 'e']
  | .number n => n.chars
  | .string s => quote (s.getD "")
  | .broken => []

/-- The items, each on a line of its own, and the end of the array. -/
def prettyItems (indent : Nat) : List Json → List Char
  | [] => line indent ++ [']']
  | [v] => line (indent + 1) ++ v.pretty (indent + 1) ++ line indent ++ [']']
  | v :: vs => line (indent + 1) ++ v.pretty (indent + 1) ++ ',' :: prettyItems indent vs

/-- The members, each on a line of its own, and the end of the object. -/
def prettyMembers (indent : Nat) : List (Option String × Json) → List Char
  | [] => line indent ++ ['}']
  | [(key, v)] => line (indent + 1) ++ keyChars key ++ ':' :: ' ' :: v.pretty (indent + 1) ++
      line indent ++ ['}']
  | (key, v) :: rest => line (indent + 1) ++ keyChars key ++ ':' :: ' ' :: v.pretty (indent + 1) ++
      ',' :: prettyMembers indent rest

end

def compactText (v : Json) : String := String.ofList v.compact

def prettyText (v : Json) : String := String.ofList (v.pretty 0)

end Json

end FilterQuery
