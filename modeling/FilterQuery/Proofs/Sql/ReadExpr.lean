import FilterQuery.Proofs.Sql.Input

/-!
# Reading expressions

An expression is read from its text and its parameters. Parentheses, and the words that cannot be
taken for one another, say which expression it is; only what is tested for membership in the empty
list cannot be read, since it is not written.
-/
namespace FilterQuery

open Sql

namespace Sql

/-- The words that end the first expression in a pair of parentheses. -/
def enders : List Word :=
  [.closing, .comma, .among, .within, .isNull false, .isNull true,
    .operation (.compare .equal), .operation (.compare .notEqual), .operation (.compare .less),
    .operation (.compare .greater), .operation (.compare .atMost), .operation (.compare .atLeast),
    .operation (.compare .like), .operation (.compare .notLike), .operation (.combine .and),
    .operation (.combine .or)]

/-- Reads what stands after the first expression in parentheses and the word that ends it. -/
def readEnd (expr : Input → Option (Expr × Input)) (items : Input → Option (List Expr × Input))
    (e : Expr) (w : Word) (i : Input) : Option (Expr × Input) :=
  match w with
  | .closing => some (.tuple [e], i)
  | .comma => do
    let (es, i) ← items i
    let i ← i.skip .closing
    some (.tuple (e :: es), i)
  | .among => do
    let (es, i) ← items i
    let i ← i.skip .closing
    let i ← i.skip .closing
    some (.inList e es, i)
  | .within => do
    let (low, i) ← expr i
    let i ← i.skip .upTo
    let (high, i) ← expr i
    let i ← i.skip .closing
    some (.between e low high, i)
  | .isNull negated => do
    let i ← i.skip .closing
    some (.isNull e negated, i)
  | .operation op => do
    let (right, i) ← expr i
    let i ← i.skip .closing
    some (.binary e op right, i)
  | _ => none

def readGroup (expr : Input → Option (Expr × Input)) (items : Input → Option (List Expr × Input))
    (i : Input) : Option (Expr × Input) :=
  match i.skip .closing with
  | some i => some (.tuple [], i)
  | none => do
    let (e, i) ← expr i
    let (w, i) ← i.oneOf enders
    readEnd expr items e w i

/-- Reads an expression. The first argument bounds its size. -/
def readExpr (d : Dialect) : Nat → Input → Option (Expr × Input)
  | 0, _ => none
  | size + 1, i =>
    match i.skip .never with
    | some i => some (.inList .wildcard [], i)
    | none =>
      match i.skip .opening with
      | some i => readGroup (readExpr d size) (Input.several (readExpr d size) size) i
      | none =>
        match i.skip .star with
        | some i => some (.wildcard, i)
        | none =>
          match i.bound d with
          | some (v, i) => some (.value v, i)
          | none => (i.dotted d).map fun ((part, name), i) => (.column ⟨part, name⟩, i)

end Sql

namespace Expr

mutual

/-- The expression with one spelling for all memberships in the empty list. -/
def normal : Expr → Expr
  | column c => column c
  | value v => value v
  | wildcard => wildcard
  | tuple items => tuple (normals items)
  | binary left op right => binary left.normal op right.normal
  | inList _ [] => inList wildcard []
  | inList e (i :: is) => inList e.normal (normals (i :: is))
  | between e low high => between e.normal low.normal high.normal
  | isNull e negated => isNull e.normal negated

def normals : List Expr → List Expr
  | [] => []
  | e :: es => e.normal :: normals es

end

theorem normals_eq_map (es : List Expr) : normals es = es.map normal := by
  induction es with
  | nil => rfl
  | cons e es ih => rw [normals, ih, List.map_cons]

mutual

/-- What normalizing changes is not spelled. -/
theorem tokens_normal : ∀ e : Expr, e.normal.tokens = e.tokens
  | column _ => rfl
  | value _ => rfl
  | wildcard => rfl
  | tuple items => by rw [normal, tokens, tokens, tokensOfAll_normals items]
  | binary left op right => by
    rw [normal, tokens, tokens, tokens_normal left, tokens_normal right]
  | inList _ [] => rfl
  | inList e (i :: is) => by
    have hitems := tokensOfAll_normals (i :: is)
    rw [normals] at hitems
    rw [normal, normals, tokens, tokens, tokens_normal e, hitems]
  | between e low high => by
    rw [normal, tokens, tokens, tokens_normal e, tokens_normal low, tokens_normal high]
  | isNull e negated => by rw [normal, tokens, tokens, tokens_normal e]

theorem tokensOfAll_normals : ∀ es : List Expr, tokensOfAll (normals es) = tokensOfAll es
  | [] => rfl
  | e :: es => by
    rw [normals, tokensOfAll, tokensOfAll, tokens_normal e, tokensOfAll_normals es]

end

/-- No expression begins like the text of `never` after its parenthesis, or like a closing
parenthesis. -/
theorem exists_head_tokens (d : Dialect) (count : Nat) (e : Expr) (ts : List Token) :
    ∃ c cs, write d count (e.tokens ++ ts) = c :: cs ∧ c ≠ '1' ∧ c ≠ ')' := by
  cases e with
  | column c =>
    obtain ⟨part, name⟩ := c
    cases part <;> cases d <;> exact ⟨_, _, rfl, by decide, by decide⟩
  | value v => cases d <;> exact ⟨_, _, rfl, by decide, by decide⟩
  | inList e items => cases items <;> exact ⟨_, _, rfl, by decide, by decide⟩
  | _ => exact ⟨_, _, rfl, by decide, by decide⟩

end Expr

namespace Sql

/-- Expressions of this size read back, before what is no dot. -/
abbrev ReadsBack (d : Dialect) (size : Nat) (e : Expr) : Prop :=
  Input.Reads d (readExpr d size) e.tokens e.normal [.dot]

abbrev ReadsBackAll (d : Dialect) (size : Nat) (es : List Expr) : Prop :=
  Input.Reads d (Input.several (readExpr d size) size) (separated (Expr.tokensOfAll es))
    (Expr.normals es) [.comma, .dot]

variable {d : Dialect} {count n size : Nat} {ts : List Token}

theorem comparable_enders : ∀ w ∈ enders, ∀ a ∈ enders, a ≠ w → a.comparable w = false := by
  decide

theorem dot_comparable_enders : ∀ w ∈ enders, ∀ a ∈ [Word.dot], a.comparable w = false := by
  decide

theorem operation_mem_enders (op : BinaryOp) : .operation op ∈ enders := by
  cases op with
  | compare c => cases c <;> decide
  | combine c => cases c <;> decide

theorem readExpr_opening {c : Char} {cs : List Char} (h : write d count ts = c :: cs)
    (hc : c ≠ '1') :
    readExpr d (size + 1) (.ofTokens d count (.word .opening :: ts)) =
      readGroup (readExpr d size) (Input.several (readExpr d size) size)
        (.ofTokens d count ts) := by
  have hnever : (Input.ofTokens d count (.word .opening :: ts)).skip .never = none := by
    simp [Input.skip, Input.ofTokens, write, h, Word.text, List.isPrefixOf?, Ne.symm hc]
  rw [readExpr, hnever, Input.skip_word]

/-- The first expression in parentheses is read before the word that ends it. -/
theorem readGroup_first {expr : Input → Option (Expr × Input)}
    {items : Input → Option (List Expr × Input)} {e e' : Expr} {w : Word} (hw : w ∈ enders)
    (h : expr (.ofTokens d count (e.tokens ++ .word w :: ts)) =
      some (e', .ofTokens d n (.word w :: ts))) :
    readGroup expr items (.ofTokens d count (e.tokens ++ .word w :: ts)) =
      readEnd expr items e' w (.ofTokens d n ts) := by
  obtain ⟨c, cs, hhead, _, hc⟩ := e.exists_head_tokens d count (.word w :: ts)
  have hclosing : (Input.ofTokens d count (e.tokens ++ .word w :: ts)).skip .closing = none := by
    simp [Input.skip, Input.ofTokens, hhead, Word.text, List.isPrefixOf?, Ne.symm hc]
  rw [readGroup, hclosing]
  simp [h, Input.oneOf_word hw (comparable_enders w hw)]

/-- A group is read if its first expression is, and then what follows the word that ends it. -/
theorem readExpr_group {e : Expr} {w : Word} (hw : w ∈ enders) (h : ReadsBack d size e)
    (count : Nat) (ts : List Token) :
    ∃ n, readExpr d (size + 1) (.ofTokens d count (.word .opening :: (e.tokens ++ .word w :: ts))) =
      readEnd (readExpr d size) (Input.several (readExpr d size) size) e.normal w
        (.ofTokens d n ts) := by
  obtain ⟨c, cs, hhead, hc, _⟩ := e.exists_head_tokens d count (.word w :: ts)
  obtain ⟨n, he⟩ := h count _ (apart_word (dot_comparable_enders w hw) ts)
  exact ⟨n, by rw [readExpr_opening hhead hc, readGroup_first hw he]⟩

theorem isPrefixOf?_eq_none {q : Char} {xs : List Char} (hne : xs ≠ []) (h : q ∉ xs)
    (ys : List Char) : xs.isPrefixOf? (q :: ys) = none := by
  cases xs with
  | nil => exact absurd rfl hne
  | cons x xs =>
    rw [List.mem_cons, not_or] at h
    simp [List.isPrefixOf?, Ne.symm h.1]

/-- Where a name begins there is neither a word nor a placeholder. -/
theorem skip_eq_none_of_quote {i : Input} {cs : List Char} (h : i.text = d.quote :: cs) (w : Word) :
    i.skip w = none := by
  obtain ⟨c, tail, hw, _⟩ := w.exists_head
  have hne : w.text.toList ≠ [] := by rw [hw]; exact List.cons_ne_nil c tail
  rw [Input.skip, h, isPrefixOf?_eq_none hne (Word.quote_not_mem d w), Option.map_none]

theorem bound_eq_none_of_quote {i : Input} {cs : List Char} (h : i.text = d.quote :: cs) :
    i.bound d = none := by
  have hne : d.placeholder i.count ≠ [] := by cases d <;> exact List.cons_ne_nil _ _
  rw [Input.bound, h, isPrefixOf?_eq_none hne (quote_not_mem_placeholder d _)]

theorem readExpr_column (c : ColumnName) : ReadsBack d (size + 1) (.column c) := by
  intro count ts hts
  obtain ⟨part, name⟩ := c
  obtain ⟨cs, hquote⟩ : ∃ cs, write d count (dotted part name ++ ts) = d.quote :: cs := by
    cases part <;> exact ⟨_, rfl⟩
  have htext : (Input.ofTokens d count (dotted part name ++ ts)).text = d.quote :: cs := hquote
  refine ⟨count, ?_⟩
  rw [Expr.tokens, Expr.normal, readExpr, skip_eq_none_of_quote htext,
    skip_eq_none_of_quote htext, skip_eq_none_of_quote htext, bound_eq_none_of_quote htext,
    Input.dotted_dotted d count (apart_cons.mp hts).1]
  rfl

theorem readExpr_value (v : Scalar) : ReadsBack d (size + 1) (.value v) := by
  intro count ts _
  have hskip : ∀ w ∈ [Word.never, .opening, .star],
      (Input.ofTokens d count (.bound v :: ts)).skip w = none := by
    cases d <;> simp [Input.skip, Input.ofTokens, write, Dialect.placeholder, Word.text,
      List.isPrefixOf?]
  refine ⟨count + 1, ?_⟩
  rw [Expr.tokens, Expr.normal, List.singleton_append, readExpr, hskip .never (by decide),
    hskip .opening (by decide), hskip .star (by decide), Input.bound_bound]

theorem readExpr_wildcard : ReadsBack d (size + 1) .wildcard := by
  intro count ts _
  have hnever : clear .never (.word .star :: ts) = true := rfl
  have hopening : clear .opening (.word .star :: ts) = true := rfl
  refine ⟨count, ?_⟩
  rw [Expr.tokens, Expr.normal, List.singleton_append, readExpr, Input.skip_eq_none hnever,
    Input.skip_eq_none hopening, Input.skip_word]

theorem readExpr_never (e : Expr) : ReadsBack d (size + 1) (.inList e []) := by
  intro count ts _
  refine ⟨count, ?_⟩
  rw [Expr.tokens, Expr.normal, List.singleton_append, readExpr, Input.skip_word]

theorem readExpr_nothing : ReadsBack d (size + 1) (.tuple []) := by
  intro count ts _
  refine ⟨count, ?_⟩
  have htokens : (Expr.tuple []).tokens ++ ts = .word .opening :: .word .closing :: ts := rfl
  rw [htokens, readExpr_opening (c := ')') rfl (by decide), readGroup, Input.skip_word]
  rfl

theorem readExpr_single {e : Expr} (he : ReadsBack d size e) :
    ReadsBack d (size + 1) (.tuple [e]) := by
  intro count ts hts
  obtain ⟨n, hgroup⟩ := readExpr_group (w := .closing) (by decide) he count ts
  refine ⟨n, ?_⟩
  rw [readEnd] at hgroup
  simpa [Expr.tokens, Expr.tokensOfAll, separated, Expr.normal, Expr.normals] using hgroup

theorem readExpr_tuple {e f : Expr} {fs : List Expr} (he : ReadsBack d size e)
    (hfs : ReadsBackAll d size (f :: fs)) : ReadsBack d (size + 1) (.tuple (e :: f :: fs)) := by
  intro count ts hts
  obtain ⟨n, hgroup⟩ := readExpr_group (w := .comma) (by decide) he count
    (separated (Expr.tokensOfAll (f :: fs)) ++ .word .closing :: ts)
  obtain ⟨m, hrest⟩ := hfs n (.word .closing :: ts) (apart_word (by decide) ts)
  refine ⟨m, ?_⟩
  rw [readEnd, hrest] at hgroup
  simpa [Expr.tokens, Expr.tokensOfAll, separated, Expr.normal, Expr.normals] using hgroup

theorem readExpr_binary {left right : Expr} (op : BinaryOp) (hleft : ReadsBack d size left)
    (hright : ReadsBack d size right) : ReadsBack d (size + 1) (.binary left op right) := by
  intro count ts hts
  obtain ⟨n, hgroup⟩ := readExpr_group (operation_mem_enders op) hleft count
    (right.tokens ++ .word .closing :: ts)
  obtain ⟨m, hr⟩ := hright n (.word .closing :: ts) (apart_word (by decide) ts)
  refine ⟨m, ?_⟩
  rw [readEnd, hr] at hgroup
  simpa [Expr.tokens, Expr.normal] using hgroup

theorem readExpr_inList {e i : Expr} {is : List Expr} (he : ReadsBack d size e)
    (his : ReadsBackAll d size (i :: is)) : ReadsBack d (size + 1) (.inList e (i :: is)) := by
  intro count ts hts
  obtain ⟨n, hgroup⟩ := readExpr_group (w := .among) (by decide) he count
    (separated (Expr.tokensOfAll (i :: is)) ++ .word .closing :: .word .closing :: ts)
  obtain ⟨m, hrest⟩ := his n (.word .closing :: .word .closing :: ts) (apart_word (by decide) _)
  refine ⟨m, ?_⟩
  rw [readEnd, hrest] at hgroup
  simpa [Expr.tokens, Expr.normal] using hgroup

/-- The AND of a range stands before its upper bound, where no operation can stand. -/
theorem readExpr_between {e low high : Expr} (he : ReadsBack d size e)
    (hlow : ReadsBack d size low) (hhigh : ReadsBack d size high) :
    ReadsBack d (size + 1) (.between e low high) := by
  intro count ts hts
  obtain ⟨n, hgroup⟩ := readExpr_group (w := .within) (by decide) he count
    (low.tokens ++ .word .upTo :: (high.tokens ++ .word .closing :: ts))
  obtain ⟨m, hl⟩ := hlow n (.word .upTo :: (high.tokens ++ .word .closing :: ts))
    (apart_word (by decide) _)
  obtain ⟨k, hh⟩ := hhigh m (.word .closing :: ts) (apart_word (by decide) ts)
  refine ⟨k, ?_⟩
  rw [readEnd, hl] at hgroup
  simpa [Expr.tokens, Expr.normal, hh] using hgroup

theorem readExpr_isNull {e : Expr} (negated : Bool) (he : ReadsBack d size e) :
    ReadsBack d (size + 1) (.isNull e negated) := by
  intro count ts hts
  have hnull : .isNull negated ∈ enders := by cases negated <;> decide
  obtain ⟨n, hgroup⟩ := readExpr_group hnull he count (.word .closing :: ts)
  refine ⟨n, ?_⟩
  rw [readEnd, Input.skip_word] at hgroup
  simpa [Expr.tokens, Expr.normal] using hgroup

/-- An expression is read back, and what follows is left to read. -/
theorem readExpr_tokens {e : Expr} (hsize : sizeOf e ≤ size) : ReadsBack d size e := by
  -- The size is what the reader recurses on, so the induction is on it and not on the expression.
  induction size generalizing e with
  | zero => cases e <;> simp at hsize
  | succ size ih =>
    have hitems : ∀ {es : List Expr}, es ≠ [] → sizeOf es ≤ size → ReadsBackAll d size es := by
      intro es hne hes
      rw [ReadsBackAll, Expr.tokensOfAll_eq_map, Expr.normals_eq_map]
      exact Input.several_of_sizeOf (fun e he => ih he) (by decide) hne hes
    cases e with
    | column c => exact readExpr_column c
    | value v => exact readExpr_value v
    | wildcard => exact readExpr_wildcard
    | tuple items =>
      rw [Expr.tuple.sizeOf_spec] at hsize
      rcases items with _ | ⟨e, _ | ⟨f, fs⟩⟩
      · exact readExpr_nothing
      · rw [List.cons.sizeOf_spec] at hsize
        exact readExpr_single (ih (by omega))
      · rw [List.cons.sizeOf_spec] at hsize
        exact readExpr_tuple (ih (by omega)) (hitems (List.cons_ne_nil f fs) (by omega))
    | binary left op right =>
      rw [Expr.binary.sizeOf_spec] at hsize
      exact readExpr_binary op (ih (by omega)) (ih (by omega))
    | inList e items =>
      rw [Expr.inList.sizeOf_spec] at hsize
      cases items with
      | nil => exact readExpr_never e
      | cons i is =>
        exact readExpr_inList (ih (by omega)) (hitems (List.cons_ne_nil i is) (by omega))
    | between e low high =>
      rw [Expr.between.sizeOf_spec] at hsize
      exact readExpr_between (ih (by omega)) (ih (by omega)) (ih (by omega))
    | isNull e negated =>
      rw [Expr.isNull.sizeOf_spec] at hsize
      exact readExpr_isNull negated (ih (by omega))

end Sql

end FilterQuery
