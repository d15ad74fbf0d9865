import FilterQuery.Sql.Render

/-!
# Placeholders and parameters

Whatever the names in a query, what stands outside its quoted names holds one placeholder for each
parameter, in the order of the parameters and numbered on from those already there.
-/
namespace FilterQuery

namespace Sql

/-- The text outside quoted names: every quote opens or closes, so a doubled one changes nothing. -/
def outside (quote : Char) : Bool → List Char → List Char
  | _, [] => []
  | inside, c :: cs =>
    if c = quote then outside quote (!inside) cs
    else if inside then outside quote inside cs
    else c :: outside quote inside cs

/-- Whether a name is still open after a text. -/
def endsInside (quote : Char) : Bool → List Char → Bool
  | inside, [] => inside
  | inside, c :: cs => endsInside quote (if c = quote then !inside else inside) cs

/-- The placeholders of a text: question marks, and dollar signs with the digits after them. -/
def placeholders : List Char → List (List Char)
  | [] => []
  | c :: cs =>
    if c = '?' then ['?'] :: placeholders cs
    else if c = '$' then ('$' :: cs.takeWhile Char.isDigit) :: placeholders cs
    else placeholders cs

/-- The placeholders of `count` parameters after `first` others. -/
def numbering (d : Dialect) (first count : Nat) : List (List Char) :=
  match d with
  | .postgres => (List.range count).map fun i => '$' :: Nat.toDigits 10 (first + i + 1)
  | .mysql => List.replicate count ['?']

/-- Something with these bound values is written after an output. -/
structure Appends (d : Dialect) (before after : Output) (values : List Scalar) : Prop where
  params : after.params = before.params ++ values
  text : ∃ added, after.text = before.text ++ added ∧
    endsInside d.quote false added = false ∧
    placeholders (outside d.quote false added) =
      numbering d before.params.length values.length

theorem outside_append {quote : Char} {xs : List Char} (h : quote ∉ xs) (ys : List Char) :
    outside quote false (xs ++ ys) = xs ++ outside quote false ys := by
  induction xs with
  | nil => rfl
  | cons x xs ih =>
    rw [List.mem_cons, not_or] at h
    simp [outside, Ne.symm h.1, ih h.2]

theorem endsInside_append {quote : Char} {xs : List Char} (h : quote ∉ xs) (ys : List Char) :
    endsInside quote false (xs ++ ys) = endsInside quote false ys := by
  induction xs with
  | nil => rfl
  | cons x xs ih =>
    rw [List.mem_cons, not_or] at h
    simp [endsInside, Ne.symm h.1, ih h.2]

/-- A quoted name leaves nothing outside, whatever it contains. -/
theorem outside_enclose (quote : Char) (name rest : List Char) :
    outside quote false (Text.enclose quote name ++ rest) = outside quote false rest := by
  have hinner : outside quote true (Text.double quote name ++ quote :: rest) =
      outside quote false rest := by
    induction name with
    | nil => simp [Text.double, outside]
    | cons c cs ih => by_cases hc : c = quote <;> simp [Text.double, outside, hc, ih]
  simpa [Text.enclose, outside] using hinner

theorem endsInside_enclose (quote : Char) (name rest : List Char) :
    endsInside quote false (Text.enclose quote name ++ rest) = endsInside quote false rest := by
  have hinner : endsInside quote true (Text.double quote name ++ quote :: rest) =
      endsInside quote false rest := by
    induction name with
    | nil => simp [Text.double, endsInside]
    | cons c cs ih => by_cases hc : c = quote <;> simp [Text.double, endsInside, hc, ih]
  simpa [Text.enclose, endsInside] using hinner

theorem isDigit_of_mem_digitChars {n : Nat} {c : Char} (h : c ∈ digitChars n) :
    c.isDigit = true := Nat.isDigit_of_mem_toDigits (by decide) (by decide) h

/-- A word has no quote and no placeholder in it. -/
theorem Word.fixed_of_mem {w : Word} {c : Char} (h : c ∈ w.text.toList) :
    c ≠ '"' ∧ c ≠ '\x60' ∧ c ≠ '?' ∧ c ≠ '$' := by
  have hall : w.text.toList.all
      (fun c => c != '"' && c != '\x60' && c != '?' && c != '$') = true := by
    cases w with
    | operation op =>
      cases op with
      | compare c => cases c <;> rfl
      | combine c => cases c <;> rfl
    | isNull negated => cases negated <;> rfl
    | direction d => cases d <;> rfl
    | _ => rfl
  have hc := List.all_eq_true.mp hall c h
  simpa [and_assoc] using hc

/-- A word begins, and not with a digit. -/
theorem Word.exists_head (w : Word) : ∃ c cs, w.text.toList = c :: cs ∧ c.isDigit = false := by
  cases w with
  | operation op =>
    cases op with
    | compare c => cases c <;> exact ⟨_, _, rfl, rfl⟩
    | combine c => cases c <;> exact ⟨_, _, rfl, rfl⟩
  | isNull negated => cases negated <;> exact ⟨_, _, rfl, rfl⟩
  | direction d => cases d <;> exact ⟨_, _, rfl, rfl⟩
  | _ => exact ⟨_, _, rfl, rfl⟩

theorem Word.quote_not_mem (d : Dialect) (w : Word) : d.quote ∉ w.text.toList := by
  intro h
  have hfixed := Word.fixed_of_mem h
  cases d
  · exact hfixed.1 rfl
  · exact hfixed.2.1 rfl

theorem quote_not_mem_placeholder (d : Dialect) (count : Nat) :
    d.quote ∉ d.placeholder count := by
  cases d with
  | mysql => simp [Dialect.placeholder, Dialect.quote]
  | postgres =>
    intro h
    rcases List.mem_cons.mp h with h | h
    · exact absurd h (by decide)
    · exact absurd (isDigit_of_mem_digitChars h) (by decide)

/-- The tokens that are no names. -/
def unnamed : List Token → List Token
  | [] => []
  | .name _ :: rest => unnamed rest
  | t :: rest => t :: unnamed rest

/-- Outside its quoted names a text is what it is without names. -/
theorem outside_write (d : Dialect) (count : Nat) (ts : List Token) :
    outside d.quote false (write d count ts) = write d count (unnamed ts) := by
  induction ts generalizing count with
  | nil => rfl
  | cons t rest ih =>
    cases t with
    | word w => rw [write, outside_append (Word.quote_not_mem d w), ih, unnamed, write]; simp
    | name s => rw [write, Dialect.quoted, outside_enclose, ih, unnamed]
    | bound v =>
      rw [write, outside_append (quote_not_mem_placeholder d count), ih, unnamed, write]; simp

theorem endsInside_write (d : Dialect) (count : Nat) (ts : List Token) :
    endsInside d.quote false (write d count ts) = false := by
  induction ts generalizing count with
  | nil => rfl
  | cons t rest ih =>
    cases t with
    | word w => rw [write, endsInside_append (Word.quote_not_mem d w), ih]
    | name s => rw [write, Dialect.quoted, endsInside_enclose, ih]
    | bound v => rw [write, endsInside_append (quote_not_mem_placeholder d count), ih]

/-- No digit can extend the placeholder before a text. -/
theorem takeWhile_isDigit_write (d : Dialect) (count : Nat) (ts : List Token) :
    (write d count ts).takeWhile Char.isDigit = [] := by
  cases ts with
  | nil => rfl
  | cons t rest =>
    cases t with
    | word w =>
      obtain ⟨c, cs, hw, hc⟩ := w.exists_head
      simp [write, hw, hc]
    | name s => cases d <;> rfl
    | bound v => cases d <;> rfl

theorem placeholders_append {xs : List Char} (h : ∀ c ∈ xs, c ≠ '?' ∧ c ≠ '$') (ys : List Char) :
    placeholders (xs ++ ys) = placeholders ys := by
  induction xs with
  | nil => rfl
  | cons x xs ih =>
    have hx := h x List.mem_cons_self
    simp [placeholders, hx, ih fun c hc => h c (List.mem_cons_of_mem _ hc)]

theorem numbering_succ (d : Dialect) (first count : Nat) :
    numbering d first (count + 1) = d.placeholder first :: numbering d (first + 1) count := by
  cases d with
  | mysql => rfl
  | postgres =>
    simp [numbering, Dialect.placeholder, digitChars, List.range_succ_eq_map, Function.comp_def,
      Nat.add_assoc, Nat.add_comm 1]

/-- Without names, a text has the placeholders of its bound values. -/
theorem placeholders_write (d : Dialect) (count : Nat) (ts : List Token) :
    placeholders (write d count (unnamed ts)) = numbering d count (boundValues ts).length := by
  induction ts generalizing count with
  | nil => cases d <;> rfl
  | cons t rest ih =>
    cases t with
    | word w =>
      have hw : ∀ c ∈ w.text.toList, c ≠ '?' ∧ c ≠ '$' := fun c hc => (Word.fixed_of_mem hc).2.2
      simpa [unnamed, write, boundValues, placeholders_append hw] using ih count
    | name s => simpa [unnamed, boundValues] using ih count
    | bound v =>
      have hrest := ih (count + 1)
      rw [boundValues, List.length_cons, numbering_succ, ← hrest]
      cases d with
      | mysql => simp [unnamed, write, Dialect.placeholder, placeholders]
      | postgres =>
        have hdigits : ∀ c ∈ digitChars (count + 1), c.isDigit = true :=
          fun c hc => isDigit_of_mem_digitChars hc
        have hplain : ∀ c ∈ digitChars (count + 1), c ≠ '?' ∧ c ≠ '$' := by
          intro c hc
          have := hdigits c hc
          constructor <;> rintro rfl <;> exact absurd this (by decide)
        simp [unnamed, write, Dialect.placeholder, placeholders, placeholders_append hplain,
          List.takeWhile_append_of_pos hdigits, takeWhile_isDigit_write]

theorem Output.appends_add (d : Dialect) (o : Output) (ts : List Token) :
    Appends d o (o.add d ts) (boundValues ts) where
  params := rfl
  text := ⟨write d o.params.length ts, rfl, endsInside_write d _ ts, by
    rw [outside_write, placeholders_write]⟩

@[simp] theorem boundValues_word (w : Word) (ts : List Token) :
    boundValues (.word w :: ts) = boundValues ts := rfl

theorem boundValues_append (ts us : List Token) :
    boundValues (ts ++ us) = boundValues ts ++ boundValues us := by
  induction ts with
  | nil => rfl
  | cons t ts ih => cases t <;> simp [boundValues, ih]

theorem boundValues_separated (tss : List (List Token)) :
    boundValues (separated tss) = tss.flatMap boundValues := by
  fun_induction separated tss with
  | case1 => rfl
  | case2 ts => simp
  | case3 ts rest hne ih => simp [boundValues_append, boundValues, ih]

@[simp] theorem boundValues_dotted (part : Option String) (name : String) :
    boundValues (dotted part name) = [] := by
  cases part <;> rfl

end Sql

open Sql

namespace Expr

mutual

/-- The values of an expression in reading order. Membership in the empty list has none. -/
def values : Expr → List Scalar
  | column _ => []
  | value v => [v]
  | wildcard => []
  | tuple items => valuesOfAll items
  | binary left _ right => left.values ++ right.values
  | inList _ [] => []
  | inList e (i :: is) => e.values ++ valuesOfAll (i :: is)
  | between e low high => e.values ++ low.values ++ high.values
  | isNull e _ => e.values

def valuesOfAll : List Expr → List Scalar
  | [] => []
  | e :: es => e.values ++ valuesOfAll es

end

mutual

theorem boundValues_tokens (e : Expr) : boundValues e.tokens = e.values := by
  cases e with
  | column c => simp [tokens, values]
  | value v => rfl
  | wildcard => rfl
  | tuple items =>
    have h := boundValues_tokensOfAll items
    simp [tokens, values, boundValues, boundValues_append, boundValues_separated, h]
  | binary left op right =>
    have hl := boundValues_tokens left
    have hr := boundValues_tokens right
    simp [tokens, values, boundValues, boundValues_append, hl, hr]
  | inList e items =>
    cases items with
    | nil => rfl
    | cons i is =>
      have he := boundValues_tokens e
      have his := boundValues_tokensOfAll (i :: is)
      simp [tokens, values, boundValues, boundValues_append, boundValues_separated, he, his]
  | between e low high =>
    have he := boundValues_tokens e
    have hl := boundValues_tokens low
    have hh := boundValues_tokens high
    simp [tokens, values, boundValues, boundValues_append, he, hl, hh]
  | isNull e negated =>
    have he := boundValues_tokens e
    simp [tokens, values, boundValues, boundValues_append, he]

theorem boundValues_tokensOfAll (es : List Expr) :
    (tokensOfAll es).flatMap boundValues = valuesOfAll es := by
  cases es with
  | nil => rfl
  | cons e es =>
    rw [tokensOfAll, List.flatMap_cons, boundValues_tokens e, boundValues_tokensOfAll es,
      valuesOfAll]

end

theorem tokensOfAll_eq_map (es : List Expr) : tokensOfAll es = es.map tokens := by
  induction es with
  | nil => rfl
  | cons e es ih => rw [tokensOfAll, ih, List.map_cons]

end Expr

namespace Select

/-- The values of a query in reading order: the limit stands before the offset. -/
def values (s : Select) : List Scalar :=
  Expr.valuesOfAll s.columns ++ (s.condition.map Expr.values).getD [] ++
    Expr.valuesOfAll (s.order.map OrderItem.expr) ++
    (s.limit.map Expr.values).getD [] ++ (s.offset.map Expr.values).getD []

def columnTokens (columns : List Expr) : List Token :=
  if columns.isEmpty then [.word .star] else separated (columns.map Expr.tokens)

def sourceTokens : Option Source → List Token
  | some source => source.tokens
  | none => []

def orderTokens (order : List OrderItem) : List Token :=
  if order.isEmpty then [] else .word .order :: separated (order.map OrderItem.tokens)

theorem tokens_eq (s : Select) : s.tokens = .word .select ::
    (columnTokens s.columns ++ sourceTokens s.source ++ clause .condition s.condition ++
      orderTokens s.order ++ clause .limit s.limit ++ clause .offset s.offset) := by
  obtain ⟨columns, source, condition, order, limit, offset⟩ := s
  cases source <;> rfl

theorem boundValues_clause (w : Word) (e : Option Expr) :
    boundValues (clause w e) = (e.map Expr.values).getD [] := by
  cases e with
  | none => rfl
  | some e => simp [clause, Expr.boundValues_tokens]

theorem boundValues_order (items : List OrderItem) :
    (items.map OrderItem.tokens).flatMap boundValues =
      Expr.valuesOfAll (items.map OrderItem.expr) := by
  induction items with
  | nil => rfl
  | cons item items ih =>
    have hitem : boundValues item.tokens = item.expr.values := by
      rw [OrderItem.tokens, boundValues_append, Expr.boundValues_tokens]
      cases item.direction <;> simp [boundValues]
    rw [List.map_cons, List.flatMap_cons, hitem, ih, List.map_cons, Expr.valuesOfAll]

theorem boundValues_tokens (s : Select) : boundValues s.tokens = s.values := by
  have hcolumns : boundValues (columnTokens s.columns) = Expr.valuesOfAll s.columns := by
    rw [columnTokens, ← Expr.tokensOfAll_eq_map]
    cases s.columns with
    | nil => rfl
    | cons e es =>
      simpa [boundValues_separated] using Expr.boundValues_tokensOfAll (e :: es)
  have hsource : boundValues (sourceTokens s.source) = [] := by
    rcases s.source with _ | ⟨table, _ | label⟩ <;>
      simp [sourceTokens, Source.tokens, boundValues, boundValues_append]
  have horder : boundValues (orderTokens s.order) =
      Expr.valuesOfAll (s.order.map OrderItem.expr) := by
    rw [← boundValues_order, orderTokens]
    cases s.order <;> simp [boundValues, boundValues_separated]
  rw [tokens_eq, boundValues_word, boundValues_append, boundValues_append, boundValues_append,
    boundValues_append, boundValues_append, hcolumns, hsource, horder, boundValues_clause,
    boundValues_clause, boundValues_clause, values, List.append_nil]

end Select

/-- Rendering writes after what is there: the values of the expression or query in reading order,
the same in both dialects, and among its text the placeholders of just these. -/
theorem Sql.render_appends (d : Dialect) (o : Output) :
    (∀ e : Expr, Appends d o (e.render d o) e.values) ∧
      ∀ s : Select, Appends d o (s.render d o) s.values := by
  constructor
  · intro e
    rw [← e.boundValues_tokens]
    exact o.appends_add d e.tokens
  · intro s
    rw [← s.boundValues_tokens]
    exact o.appends_add d s.tokens

end FilterQuery
