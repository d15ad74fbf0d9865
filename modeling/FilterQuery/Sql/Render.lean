import FilterQuery.Sql.Dialect
import FilterQuery.Sql.Token

/-!
# Rendering

Writing tokens in a dialect extends a text and a list of parameters: a word is written as it is, a
name between quotes, and a bound value as the placeholder of its place among the parameters.
-/
namespace FilterQuery.Sql

/-- The values that tokens bind, in order. -/
def boundValues : List Token → List Scalar
  | [] => []
  | .bound v :: rest => v :: boundValues rest
  | _ :: rest => boundValues rest

/-- The text of tokens after `count` parameters. -/
def write (d : Dialect) (count : Nat) : List Token → List Char
  | [] => []
  | .word w :: rest => w.text.toList ++ write d count rest
  | .name s :: rest => d.quoted s ++ write d count rest
  | .bound _ :: rest => d.placeholder count ++ write d (count + 1) rest

/-- A text and the parameters that its placeholders stand for. -/
structure Output where
  text : List Char := []
  params : List Scalar := []

namespace Output

def add (d : Dialect) (o : Output) (ts : List Token) : Output :=
  ⟨o.text ++ write d o.params.length ts, o.params ++ boundValues ts⟩

def sql (o : Output) : String := String.ofList o.text

@[simp] theorem add_nil (d : Dialect) (o : Output) : o.add d [] = o := by
  simp [add, write, boundValues]

@[simp] theorem add_word (d : Dialect) (o : Output) (w : Word) (ts : List Token) :
    o.add d (.word w :: ts) = add d ⟨o.text ++ w.text.toList, o.params⟩ ts := by
  simp [add, write, boundValues]

@[simp] theorem add_name (d : Dialect) (o : Output) (s : String) (ts : List Token) :
    o.add d (.name s :: ts) = add d ⟨o.text ++ d.quoted s, o.params⟩ ts := by
  simp [add, write, boundValues]

@[simp] theorem add_bound (d : Dialect) (o : Output) (v : Scalar) (ts : List Token) :
    o.add d (.bound v :: ts) =
      add d ⟨o.text ++ d.placeholder o.params.length, o.params ++ [v]⟩ ts := by
  simp [add, write, boundValues]

end Output

end FilterQuery.Sql

namespace FilterQuery

def Expr.render (d : Dialect) (e : Expr) (o : Sql.Output) : Sql.Output := o.add d e.tokens

def Select.render (d : Dialect) (s : Select) (o : Sql.Output) : Sql.Output := o.add d s.tokens

end FilterQuery
