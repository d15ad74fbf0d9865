import Mathlib.Data.List.Basic
import FilterQuery.Proofs.Sql.Placeholders

/-!
# Reading the text of a query

The text and the parameters of a query are read from the left: fixed words, quoted names, and
placeholders with the parameters they stand for. Reading undoes writing as long as what follows
cannot be taken for a part of what is read.
-/
namespace FilterQuery

/-- Reads a text after its opening quote: what stands before the closing quote, and the rest. -/
def Text.unquote (quote : Char) : List Char → Option (List Char × List Char)
  | [] => none
  | [c] => if c = quote then some ([], []) else none
  | c :: next :: rest =>
    if c = quote then
      if next = quote then (unquote quote rest).map fun (name, rest) => (quote :: name, rest)
      else some ([], next :: rest)
    else (unquote quote (next :: rest)).map fun (name, rest) => (c :: name, rest)

theorem Text.unquote_double {quote : Char} {rest : List Char} (h : rest.head? ≠ some quote)
    (name : List Char) :
    unquote quote (double quote name ++ quote :: rest) = some (name, rest) := by
  induction name with
  | nil =>
    cases rest with
    | nil => simp [double, unquote]
    | cons c cs =>
      have hc : c ≠ quote := by simpa using h
      simp [double, unquote, hc]
  | cons c cs ih =>
    by_cases hc : c = quote
    · simp [double, hc, unquote, ih]
    · obtain ⟨next, tail, ht⟩ : ∃ next tail, double quote cs ++ quote :: rest = next :: tail :=
        List.exists_cons_of_ne_nil (by simp)
      rw [ht] at ih
      simp [double, hc, ht, unquote, ih]

namespace Sql

namespace Word

/-- The text of one word begins with the text of the other. -/
def comparable (a b : Word) : Bool :=
  a.text.toList.isPrefixOf b.text.toList || b.text.toList.isPrefixOf a.text.toList

theorem comparable_of_append {a b : Word} {xs ys : List Char}
    (h : a.text.toList ++ xs = b.text.toList ++ ys) : a.comparable b = true := by
  have ha : a.text.toList <+: b.text.toList ++ ys := ⟨xs, h⟩
  have hb : b.text.toList <+: b.text.toList ++ ys := List.prefix_append _ _
  rcases List.prefix_or_prefix_of_prefix ha hb with hab | hba
  · simp [comparable, List.isPrefixOf_iff_prefix.mpr hab]
  · simp [comparable, List.isPrefixOf_iff_prefix.mpr hba]

end Word

/-- The text of these tokens cannot be taken for the word. -/
def clear (w : Word) : List Token → Bool
  | [] => true
  | .word a :: _ => !w.comparable a
  | _ :: _ => false

/-- The text of these tokens cannot be taken for any of the words. -/
def apart (ws : List Word) (ts : List Token) : Prop := ∀ w ∈ ws, clear w ts = true

theorem apart_word {ws : List Word} {w : Word} (h : ∀ a ∈ ws, a.comparable w = false)
    (ts : List Token) : apart ws (.word w :: ts) := by
  intro a ha
  simp [clear, h a ha]

theorem apart_cons {w : Word} {ws : List Word} {ts : List Token} :
    apart (w :: ws) ts ↔ clear w ts = true ∧ apart ws ts := List.forall_mem_cons

/-- What is left of a text and its parameters, `count` of which have been read. -/
structure Input where
  text : List Char
  params : List Scalar
  count : Nat

namespace Input

def ofTokens (d : Dialect) (count : Nat) (ts : List Token) : Input :=
  ⟨write d count ts, boundValues ts, count⟩

def skip (w : Word) (i : Input) : Option Input :=
  (w.text.toList.isPrefixOf? i.text).map fun text => { i with text := text }

def oneOf (ws : List Word) (i : Input) : Option (Word × Input) :=
  ws.findSome? fun w => (i.skip w).map fun i => (w, i)

def bound (d : Dialect) (i : Input) : Option (Scalar × Input) :=
  match (d.placeholder i.count).isPrefixOf? i.text, i.params with
  | some text, v :: params => some (v, ⟨text, params, i.count + 1⟩)
  | _, _ => none

def name (d : Dialect) (i : Input) : Option (String × Input) :=
  match i.text with
  | [] => none
  | c :: cs =>
    if c = d.quote then
      (Text.unquote d.quote cs).map fun (name, rest) =>
        (String.ofList name, { i with text := rest })
    else none

def dotted (d : Dialect) (i : Input) : Option ((Option String × String) × Input) := do
  let (first, i) ← i.name d
  match i.skip .dot with
  | none => some ((none, first), i)
  | some i =>
    let (second, i) ← i.name d
    some ((some first, second), i)

/-- Reads one thing, and after each comma another one. The first argument bounds their number. -/
def several {α : Type} (read : Input → Option (α × Input)) : Nat → Input → Option (List α × Input)
  | 0, _ => none
  | bound + 1, i => do
    let (x, i) ← read i
    match i.skip .comma with
    | none => some ([x], i)
    | some i =>
      let (xs, i) ← several read bound i
      some (x :: xs, i)

/-- Reads a thing after a word, if the text begins with the word. -/
def clause {α : Type} (w : Word) (read : Input → Option (α × Input)) (i : Input) :
    Option (Option α × Input) :=
  match i.skip w with
  | none => some (none, i)
  | some i => (read i).map fun (x, i) => (some x, i)

/-- Reading what is written as these tokens gives `x` and leaves what follows, if it is apart from
the words. -/
def Reads {α : Type} (d : Dialect) (read : Input → Option (α × Input)) (written : List Token) (x : α)
    (ws : List Word) : Prop :=
  ∀ count ts, apart ws ts →
    ∃ n, read (ofTokens d count (written ++ ts)) = some (x, ofTokens d n ts)

variable {d : Dialect} {count : Nat} {ts : List Token}

@[simp] theorem skip_word (w : Word) :
    (ofTokens d count (.word w :: ts)).skip w = some (ofTokens d count ts) := by
  have h : w.text.toList.isPrefixOf? (w.text.toList ++ write d count ts) =
      some (write d count ts) := List.isPrefixOf?_eq_some_iff_append_eq.mpr rfl
  simp [skip, ofTokens, write, h]

theorem skip_eq_none {w : Word} (h : clear w ts = true) :
    (ofTokens d count ts).skip w = none := by
  rw [skip, Option.map_eq_none_iff, Option.eq_none_iff_forall_ne_some]
  intro rest hrest
  rw [List.isPrefixOf?_eq_some_iff_append_eq] at hrest
  cases ts with
  | nil =>
    obtain ⟨c, cs, hw, _⟩ := w.exists_head
    rw [hw] at hrest
    cases hrest
  | cons t ts =>
    cases t with
    | word a =>
      have hc : w.comparable a = true := Word.comparable_of_append hrest
      simp [clear, hc] at h
    | name s => cases h
    | bound v => cases h

theorem oneOf_word {w : Word} {ws : List Word} (hw : w ∈ ws)
    (h : ∀ a ∈ ws, a ≠ w → a.comparable w = false) :
    (ofTokens d count (.word w :: ts)).oneOf ws = some (w, ofTokens d count ts) := by
  induction ws with
  | nil => cases hw
  | cons a ws ih =>
    by_cases ha : a = w
    · simp [oneOf, ha]
    · have hskip : (ofTokens d count (.word w :: ts)).skip a = none := by
        apply skip_eq_none
        simp [clear, h a List.mem_cons_self ha]
      have hmem : w ∈ ws := by
        rcases List.mem_cons.mp hw with rfl | hm
        · exact absurd rfl ha
        · exact hm
      have hrest := ih hmem fun b hb => h b (List.mem_cons_of_mem _ hb)
      rw [oneOf] at hrest
      simp [oneOf, hskip, hrest]

theorem oneOf_eq_none {ws : List Word} (h : apart ws ts) :
    (ofTokens d count ts).oneOf ws = none := by
  rw [oneOf, List.findSome?_eq_none_iff]
  intro w hw
  rw [skip_eq_none (h w hw), Option.map_none]

@[simp] theorem bound_bound (v : Scalar) :
    (ofTokens d count (.bound v :: ts)).bound d = some (v, ofTokens d (count + 1) ts) := by
  have h : (d.placeholder count).isPrefixOf? (d.placeholder count ++ write d (count + 1) ts) =
      some (write d (count + 1) ts) := List.isPrefixOf?_eq_some_iff_append_eq.mpr rfl
  simp [bound, ofTokens, write, boundValues, h]

/-- No quote extends a name that a word or nothing follows. -/
theorem head_write_ne_quote (d : Dialect) (count : Nat) {w : Word} (h : clear w ts = true) :
    (write d count ts).head? ≠ some d.quote := by
  cases ts with
  | nil => simp [write]
  | cons t ts =>
    cases t with
    | word a =>
      obtain ⟨c, cs, ha, _⟩ := a.exists_head
      have hmem : d.quote ∉ a.text.toList := Word.quote_not_mem d a
      rw [ha, List.mem_cons, not_or] at hmem
      simpa [write, ha] using Ne.symm hmem.1
    | name s => cases h
    | bound v => cases h

theorem name_name (d : Dialect) (count : Nat) {w : Word} (h : clear w ts = true) (s : String) :
    (ofTokens d count (.name s :: ts)).name d = some (s, ofTokens d count ts) := by
  have hread := Text.unquote_double (head_write_ne_quote d count h) s.toList
  simp [name, ofTokens, write, boundValues, Dialect.quoted, Text.enclose, hread]

theorem dotted_dotted (d : Dialect) (count : Nat) (h : clear .dot ts = true)
    (part : Option String) (s : String) :
    (ofTokens d count (Sql.dotted part s ++ ts)).dotted d =
      some ((part, s), ofTokens d count ts) := by
  cases part with
  | none =>
    rw [Sql.dotted, List.cons_append, List.nil_append, dotted, name_name d count h]
    simp [skip_eq_none h]
  | some part =>
    have hdot : clear .closing (.word .dot :: .name s :: ts) = true := by rfl
    rw [Sql.dotted]
    simp only [List.cons_append, List.nil_append, dotted, name_name d count hdot, Option.bind_eq_bind,
      Option.bind_some, skip_word, name_name d count h]

theorem clause_none {α : Type} (read : Input → Option (α × Input)) (w : Word) (ws : List Word) :
    Reads d (clause w read) [] none (w :: ws) := by
  intro count ts hts
  refine ⟨count, ?_⟩
  rw [List.nil_append, clause, skip_eq_none (apart_cons.mp hts).1]

theorem clause_some {α : Type} {read : Input → Option (α × Input)} {written : List Token} {x : α}
    {ws : List Word} (h : Reads d read written x ws) (w : Word) :
    Reads d (clause w read) (.word w :: written) (some x) (w :: ws) := by
  intro count ts hts
  obtain ⟨n, hx⟩ := h count ts (apart_cons.mp hts).2
  refine ⟨n, ?_⟩
  rw [List.cons_append, clause, skip_word]
  simp [hx]

/-- Where single things are read back before a comma, so are several. -/
theorem several_separated {α : Type} {read : Input → Option (α × Input)}
    {written : α → List Token} {result : α → α} {ws : List Word} {bound : Nat} {xs : List α}
    (hread : ∀ x ∈ xs, Reads d read (written x) (result x) ws)
    (hcomma : ∀ w ∈ ws, w.comparable .comma = false) (hne : xs ≠ []) (hbound : xs.length ≤ bound) :
    Reads d (several read bound) (separated (xs.map written)) (xs.map result) (.comma :: ws) := by
  induction xs generalizing bound with
  | nil => exact absurd rfl hne
  | cons x xs ih =>
    intro count ts hts
    obtain ⟨hclear, hapart⟩ := apart_cons.mp hts
    obtain ⟨bound, rfl⟩ : ∃ k, bound = k + 1 := Nat.exists_eq_add_one.mpr (by simp at hbound; omega)
    have hx := hread x List.mem_cons_self
    cases xs with
    | nil =>
      obtain ⟨n, hx⟩ := hx count ts hapart
      refine ⟨n, ?_⟩
      rw [List.map_cons, List.map_nil, separated, several, hx]
      simp [skip_eq_none hclear]
    | cons y ys =>
      have hsplit : separated ((x :: y :: ys).map written) ++ ts =
          written x ++ .word .comma :: (separated ((y :: ys).map written) ++ ts) := by
        simp [separated]
      obtain ⟨n, hx⟩ := hx count _ (apart_word hcomma (separated ((y :: ys).map written) ++ ts))
      have hrest := ih (fun z hz => hread z (List.mem_cons_of_mem x hz)) (List.cons_ne_nil y ys)
        (Nat.le_of_succ_le_succ hbound)
      obtain ⟨m, hys⟩ := hrest n ts hts
      refine ⟨m, ?_⟩
      rw [hsplit, several, hx]
      simp only [Option.bind_eq_bind, Option.bind_some, skip_word, hys]
      rfl

/-- One number bounds both the things and how many they are. -/
theorem several_of_sizeOf {α : Type} [SizeOf α] {read : Input → Option (α × Input)}
    {written : α → List Token} {result : α → α} {ws : List Word} {size : Nat} {xs : List α}
    (hread : ∀ x, sizeOf x ≤ size → Reads d read (written x) (result x) ws)
    (hcomma : ∀ w ∈ ws, w.comparable .comma = false) (hne : xs ≠ []) (hsize : sizeOf xs ≤ size) :
    Reads d (several read size) (separated (xs.map written)) (xs.map result) (.comma :: ws) := by
  have hlength : ∀ ys : List α, ys.length ≤ sizeOf ys := by
    intro ys
    induction ys with
    | nil => exact Nat.zero_le _
    | cons y ys ih =>
      rw [List.length_cons, List.cons.sizeOf_spec]
      omega
  refine several_separated (fun x hx => hread x ?_) hcomma hne (Nat.le_trans (hlength xs) hsize)
  have hlt := List.sizeOf_lt_of_mem hx
  omega

end Input

end Sql

end FilterQuery
