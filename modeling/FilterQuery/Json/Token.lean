import FilterQuery.Json.Numeral

/-!
# Tokens of JSON texts

White space separates tokens and is dropped. Where no token can be read the text is `unreadable`,
and that is its last token.
-/
namespace FilterQuery.Json

inductive Token where
  | openArray
  | closeArray
  | openObject
  | closeObject
  | comma
  | colon
  | null
  | bool (b : Bool)
  | number (n : Number)
  | string (s : Option String)
  | unreadable

/-- One unit of a string: a character, or the half of one that an escape names. -/
inductive Piece where
  | char (c : Char)
  | half (unit : Nat)
  deriving DecidableEq, Repr

namespace Piece

/-- The unit that four hexadecimal digits name. -/
def ofUnit (unit : Nat) : Piece :=
  if 0xD800 ≤ unit && unit < 0xE000 then .half unit else .char (Char.ofNat unit)

/-- The text of the units: a leading half and a trailing half make one character, and any other
half leaves no text. -/
def join : List Piece → Option (List Char)
  | [] => some []
  | .char c :: rest => (join rest).map (c :: ·)
  | .half lead :: .half trail :: rest =>
    if lead < 0xDC00 && 0xDC00 ≤ trail then
      (join rest).map (Char.ofNat (0x10000 + (lead - 0xD800) * 0x400 + (trail - 0xDC00)) :: ·)
    else none
  | .half _ :: _ => none

end Piece

namespace Token

/-- The value of a hexadecimal digit of either case. -/
def hexDigit? (c : Char) : Option Nat :=
  if c.isDigit then some (c.toNat - 48)
  else if 'a' ≤ c && c ≤ 'f' then some (c.toNat - 87)
  else if 'A' ≤ c && c ≤ 'F' then some (c.toNat - 55)
  else none

/-- The characters that a backslash and one letter name. -/
def escaped? : Char → Option Char
  | '"' => some '"'
  | '\\' => some '\\'
  | '/' => some '/'
  | 'b' => some '\x08'
  | 'f' => some '\x0c'
  | 'n' => some '\n'
  | 'r' => some '\r'
  | 't' => some '\t'
  | _ => none

/-- The units of a string up to its closing quote, and what follows the quote. Characters below
U+0020 have to be escaped. -/
def scanString : List Char → Option (List Piece × List Char)
  | [] => none
  | '"' :: rest => some ([], rest)
  | '\\' :: 'u' :: a :: b :: c :: d :: rest => do
    let unit := (((← hexDigit? a) * 16 + (← hexDigit? b)) * 16 + (← hexDigit? c)) * 16 +
      (← hexDigit? d)
    let (pieces, rest) ← scanString rest
    pure (Piece.ofUnit unit :: pieces, rest)
  | '\\' :: c :: rest => do
    let c ← escaped? c
    let (pieces, rest) ← scanString rest
    pure (Piece.char c :: pieces, rest)
  | c :: rest =>
    if c.toNat < 0x20 || c = '\\' then none
    else (scanString rest).map fun (pieces, rest) => (Piece.char c :: pieces, rest)

def isSpace (c : Char) : Bool := c = ' ' || c = '\t' || c = '\n' || c = '\r'

/-- What follows `word`, if it stands at the front. -/
def after (word cs : List Char) : Option (List Char) :=
  if word.isPrefixOf cs then some (cs.drop word.length) else none

/-- The token at the front of a text that does not begin with white space. -/
def next (c : Char) (rest : List Char) : Option (Token × List Char) :=
  match c with
  | '[' => some (openArray, rest)
  | ']' => some (closeArray, rest)
  | '{' => some (openObject, rest)
  | '}' => some (closeObject, rest)
  | ',' => some (comma, rest)
  | ':' => some (colon, rest)
  | 'n' => (after ['u', 'l', 'l'] rest).map fun rest => (null, rest)
  | 't' => (after ['r', 'u', 'e'] rest).map fun rest => (bool true, rest)
  | 'f' => (after ['a', 'l', 's', 'e'] rest).map fun rest => (bool false, rest)
  | '"' => (scanString rest).map fun (pieces, rest) =>
      (string ((Piece.join pieces).map String.ofList), rest)
  | c => (Numeral.scan (c :: rest)).map fun (n, rest) => (number n.value, rest)

/-- The tokens of a text; `fuel` bounds its length. -/
def scan : Nat → List Char → List Token
  | 0, _ => []
  | _ + 1, [] => []
  | fuel + 1, c :: rest =>
    if isSpace c then scan fuel rest
    else match next c rest with
      | some (token, rest) => token :: scan fuel rest
      | none => [unreadable]

def ofText (s : String) : List Token := scan s.toList.length s.toList

end Token

end FilterQuery.Json
