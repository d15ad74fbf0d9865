import FilterQuery.Proofs.Sql.Form
import Mathlib.Data.List.Chain

/-!
# What stands outside quoted names

A piece of a text is shown if no quoted name is open where it begins. The words of a query are shown
whatever its names are. Conversely, some pieces are known by two characters that stand side by side
in one word only, so they are shown by no other tokens.
-/
namespace FilterQuery

namespace Sql

/-- The piece stands in the text, and no name is open where it begins. -/
def Shows (quote : Char) (text piece : List Char) : Prop :=
  ∃ before after, text = before ++ piece ++ after ∧ endsInside quote false before = false

theorem outside_split (quote : Char) (inside : Bool) (xs ys : List Char) :
    outside quote inside (xs ++ ys) =
      outside quote inside xs ++ outside quote (endsInside quote inside xs) ys := by
  induction xs generalizing inside with
  | nil => rfl
  | cons x xs ih =>
    by_cases hx : x = quote
    · simp [outside, endsInside, hx, ih]
    · cases inside <;> simp [outside, endsInside, hx, ih]

/-- Without a quote in it, what is shown is left where names are taken out. -/
theorem Shows.infix_outside {quote : Char} {text piece : List Char} (h : Shows quote text piece)
    (hpiece : quote ∉ piece) : piece <:+: outside quote false text := by
  obtain ⟨before, after, rfl, hbefore⟩ := h
  rw [List.append_assoc, outside_split, hbefore, outside_append hpiece]
  exact ⟨_, _, List.append_assoc _ _ _⟩

theorem write_append (d : Dialect) (count : Nat) (ts us : List Token) :
    write d count (ts ++ us) =
      write d count ts ++ write d (count + (boundValues ts).length) us := by
  induction ts generalizing count with
  | nil => rfl
  | cons t ts ih =>
    cases t with
    | word w => simp [write, boundValues, ih]
    | name s => simp [write, boundValues, ih]
    | bound v => simp [write, boundValues, ih, Nat.add_assoc, Nat.add_comm 1]

/-- Lists that bind nothing are written one by one. -/
theorem write_separated (d : Dialect) (count : Nat) {tss : List (List Token)}
    (h : ∀ ts ∈ tss, boundValues ts = []) :
    write d count (separated tss) = ", ".toList.intercalate (tss.map (write d count)) := by
  fun_induction separated tss with
  | case1 => rfl
  | case2 ts => simp
  | case3 ts rest hne ih =>
    rw [List.forall_mem_cons] at h
    obtain ⟨us, rest, rfl⟩ := List.exists_cons_of_ne_nil hne
    rw [write_append, h.1, write, List.length_nil, Nat.add_zero, ih h.2]
    rfl

theorem write_words (d : Dialect) (count : Nat) (ws : List Word) :
    write d count (ws.map .word) = ws.flatMap fun w => w.text.toList := by
  induction ws with
  | nil => rfl
  | cons w ws ih => rw [List.map_cons, write, ih, List.flatMap_cons]

/-- Words in a row are shown where they are written. -/
theorem shows_of_piece (d : Dialect) (count : Nat) {ws : List Word} {ts : List Token}
    (h : ws.map .word <:+: ts) :
    Shows d.quote (write d count ts) (ws.flatMap fun w => w.text.toList) := by
  obtain ⟨before, after, rfl⟩ := h
  refine ⟨write d count before,
    write d (count + (boundValues (before ++ ws.map .word)).length) after, ?_,
    endsInside_write d count before⟩
  rw [write_append, write_append, write_words]

theorem mem_form_iff {w : Word} {ts : List Token} : some w ∈ form ts ↔ .word w ∈ ts := by
  induction ts with
  | nil => simp [form]
  | cons t ts ih => cases t <;> simp [form, ih]

/-- What a list is written with, beside the commas, is in its items. -/
theorem mem_form_separated {tss : List (List Token)} {f : Option Word}
    (hf : f ∈ form (separated tss)) : f = some .comma ∨ ∃ ts ∈ tss, f ∈ form ts := by
  fun_induction separated tss with
  | case1 => cases hf
  | case2 ts => exact .inr ⟨ts, List.mem_singleton.mpr rfl, hf⟩
  | case3 ts rest hne ih =>
    rw [form_append, List.mem_append] at hf
    rcases hf with hhead | htail
    · exact .inr ⟨ts, List.mem_cons_self, hhead⟩
    · rcases List.mem_cons.mp htail with hcomma | hrest
      · exact .inl hcomma
      · rcases ih hrest with hcomma | ⟨us, hus, hf⟩
        · exact .inl hcomma
        · exact .inr ⟨us, List.mem_cons_of_mem _ hus, hf⟩

/-- The characters `x` and `y` are not `a` and `b` in this order. -/
def Apart (a b x y : Char) : Prop := ¬ (x = a ∧ y = b)

instance (a b x y : Char) : Decidable (Apart a b x y) := inferInstanceAs (Decidable (¬ _))

theorem isChain_of_not_mem {a b : Char} {cs : List Char} (h : b ∉ cs) :
    cs.IsChain (Apart a b) := by
  induction cs with
  | nil => exact .nil
  | cons c cs ih =>
    rw [List.mem_cons, not_or] at h
    rw [List.isChain_cons]
    refine ⟨fun y hy hab => h.2 ?_, ih h.2⟩
    rw [← hab.2]
    exact List.mem_of_mem_head? hy

theorem not_isChain_of_pair {a b : Char} {cs : List Char} (h : [a, b] <:+: cs) :
    ¬ cs.IsChain (Apart a b) := by
  obtain ⟨before, after, rfl⟩ := h
  intro hchain
  have hpair := hchain.left_of_append.right_of_append
  rw [List.isChain_pair] at hpair
  exact hpair ⟨rfl, rfl⟩

/-- The text of one place of a form. -/
def placeText (d : Dialect) (count : Nat) : Option Word → List Char
  | some w => w.text.toList
  | none => d.placeholder count

theorem placeText_ne_nil (d : Dialect) (count : Nat) (f : Option Word) :
    placeText d count f ≠ [] := by
  cases f with
  | none => cases d <;> simp [placeText, Dialect.placeholder]
  | some w =>
    obtain ⟨c, cs, hw, _⟩ := w.exists_head
    simp [placeText, hw]

theorem writeForm_cons (d : Dialect) (count : Nat) (f : Option Word) (fs : List (Option Word)) :
    ∃ next, writeForm d count (f :: fs) = placeText d count f ++ writeForm d next fs := by
  cases f with
  | some w => exact ⟨count, rfl⟩
  | none => exact ⟨count + 1, rfl⟩

/-- What holds of neighbours within the places of a form and across them holds in its text. -/
theorem isChain_writeForm {R : Char → Char → Prop} {d : Dialect} {fs : List (Option Word)}
    (hwithin : ∀ f ∈ fs, ∀ n, (placeText d n f).IsChain R)
    (hacross : fs.IsChain fun f g => ∀ m n, ∀ x ∈ (placeText d m f).getLast?,
      ∀ y ∈ (placeText d n g).head?, R x y) (count : Nat) :
    (writeForm d count fs).IsChain R := by
  induction fs generalizing count with
  | nil => exact .nil
  | cons f fs ih =>
    rw [List.forall_mem_cons] at hwithin
    obtain ⟨next, htext⟩ := writeForm_cons d count f fs
    have hrest := ih hwithin.2 hacross.tail next
    rw [htext, List.isChain_append]
    refine ⟨hwithin.1 count, hrest, fun x hx y hy => ?_⟩
    cases fs with
    | nil => simp [writeForm] at hy
    | cons g gs =>
      rw [List.isChain_cons_cons] at hacross
      obtain ⟨_, hnext⟩ := writeForm_cons d next g gs
      rw [hnext, List.head?_append_of_ne_nil _ (placeText_ne_nil d next g)] at hy
      exact hacross.1 count next x hx y hy

theorem mem_placeholder {d : Dialect} {count : Nat} {c : Char} (h : c ∈ d.placeholder count) :
    c = '?' ∨ c = '$' ∨ c.isDigit = true := by
  cases d with
  | mysql => exact .inl (List.mem_singleton.mp h)
  | postgres =>
    rcases List.mem_cons.mp h with hc | hc
    · exact .inr (.inl hc)
    · exact .inr (.inr (isDigit_of_mem_digitChars hc))

/-- All words. -/
def Word.vocabulary : List Word :=
  [select, star, comma, dot, opening, closing, source, label, condition,
    operation (.compare .equal), operation (.compare .notEqual), operation (.compare .less),
    operation (.compare .greater), operation (.compare .atMost), operation (.compare .atLeast),
    operation (.compare .like), operation (.compare .notLike), operation (.combine .and),
    operation (.combine .or), never, among, within, upTo, isNull false, isNull true, order,
    direction .ascending, direction .descending, limit, offset]

theorem Word.mem_vocabulary (w : Word) : w ∈ vocabulary := by
  cases w with
  | operation op =>
    cases op with
    | compare c => cases c <;> decide
    | combine c => cases c <;> decide
  | isNull negated => cases negated <;> decide
  | direction d => cases d <;> decide
  | _ => decide

/-- The characters `a` and `b` stand side by side in this word, in no other word, and nowhere else
in a query, since nothing begins with `b`. -/
structure Word.Mark (w : Word) (a b : Char) : Prop where
  has : [a, b] <:+: w.text.toList
  alone : ∀ u ∈ vocabulary, u ≠ w → u.text.toList.IsChain (Apart a b)
  inner : ∀ u ∈ vocabulary, u.text.toList.head? ≠ some b
  written : b ≠ '?' ∧ b ≠ '$' ∧ b.isDigit = false

/-- A word with a mark is shown where it is a token, and nowhere else. -/
theorem shows_word_iff {w : Word} {a b : Char} (h : w.Mark a b) (d : Dialect) (count : Nat)
    (ts : List Token) : Shows d.quote (write d count ts) w.text.toList ↔ .word w ∈ ts := by
  constructor
  · intro hshows
    by_contra hmem
    rw [← mem_form_iff] at hmem
    have hplaceholder : ∀ n, b ∉ d.placeholder n := by
      intro n hb
      rcases mem_placeholder hb with hb | hb | hb
      · exact h.written.1 hb
      · exact h.written.2.1 hb
      · rw [h.written.2.2] at hb
        cases hb
    have hwithin : ∀ f ∈ form ts, ∀ n, (placeText d n f).IsChain (Apart a b) := by
      intro f hf n
      cases f with
      | none => exact isChain_of_not_mem (hplaceholder n)
      | some u =>
        refine h.alone u u.mem_vocabulary ?_
        rintro rfl
        exact hmem hf
    have hacross : (form ts).IsChain fun f g => ∀ m n, ∀ x ∈ (placeText d m f).getLast?,
        ∀ y ∈ (placeText d n g).head?, Apart a b x y := by
      refine (List.pairwise_of_forall fun f g m n x _ y hy hab => ?_).isChain
      rw [hab.2] at hy
      cases g with
      | none => exact hplaceholder n (List.mem_of_mem_head? hy)
      | some u => exact h.inner u u.mem_vocabulary hy
    have hchain := isChain_writeForm hwithin hacross count
    have hpair := h.has.trans (hshows.infix_outside (w.quote_not_mem d))
    rw [outside_write, write_unnamed] at hpair
    exact not_isChain_of_pair hpair hchain
  · intro hmem
    obtain ⟨before, after, rfl⟩ := List.append_of_mem hmem
    have hpiece : [w].map .word <:+: before ++ .word w :: after := ⟨before, after, by simp⟩
    simpa using shows_of_piece d count hpiece

theorem Word.mark_order : order.Mark 'B' 'Y' :=
  ⟨by decide +kernel, by decide +kernel, by decide +kernel, by decide +kernel⟩

theorem Word.mark_limit : limit.Mark 'M' 'I' :=
  ⟨by decide +kernel, by decide +kernel, by decide +kernel, by decide +kernel⟩

theorem Word.mark_offset : offset.Mark 'F' 'F' :=
  ⟨by decide +kernel, by decide +kernel, by decide +kernel, by decide +kernel⟩

/-- The words that a clause of a query starts with. -/
def Word.startsClause : Word → Bool
  | select | source | condition | order | limit | offset => true
  | _ => false

/-- No clause starts within the tokens. -/
def Clauseless (ts : List Token) : Prop := ∀ w, .word w ∈ ts → w.startsClause = false

namespace Clauseless

theorem not_mem {ts : List Token} (h : Clauseless ts) {w : Word} (hw : w.startsClause = true) :
    .word w ∉ ts := by
  intro hmem
  rw [h w hmem] at hw
  cases hw

theorem nil : Clauseless [] := fun _ hw => absurd hw List.not_mem_nil

theorem word {w : Word} (hw : w.startsClause = false) {ts : List Token} (h : Clauseless ts) :
    Clauseless (.word w :: ts) := by
  intro u hu
  rcases List.mem_cons.mp hu with heq | hrest
  · cases heq
    exact hw
  · exact h u hrest

theorem append {ts us : List Token} (h : Clauseless ts) (k : Clauseless us) :
    Clauseless (ts ++ us) := by
  intro w hw
  rcases List.mem_append.mp hw with hw | hw
  · exact h w hw
  · exact k w hw

theorem separated {tss : List (List Token)} (h : ∀ ts ∈ tss, Clauseless ts) :
    Clauseless (separated tss) := by
  intro w hw
  rcases mem_form_separated (mem_form_iff.mpr hw) with hcomma | ⟨ts, hts, hw⟩
  · cases hcomma
    rfl
  · exact h ts hts w (mem_form_iff.mp hw)

theorem dotted (part : Option String) (name : String) : Clauseless (dotted part name) := by
  intro w hw
  cases part with
  | none => simp [Sql.dotted] at hw
  | some q =>
    obtain rfl : w = .dot := by simpa [Sql.dotted] using hw
    rfl

end Clauseless

end Sql

open Sql

namespace Expr

mutual

theorem clauseless_tokens (e : Expr) : Clauseless e.tokens := by
  have hclosing : Clauseless [.word .closing] := .word rfl .nil
  cases e with
  | column c => exact .dotted c.qualifier c.name
  | value v =>
    intro w hw
    cases List.mem_singleton.mp hw
  | wildcard => exact .word rfl .nil
  | tuple items =>
    have hitems := Clauseless.separated (clauseless_tokensOfAll items)
    exact .word rfl (hitems.append hclosing)
  | binary left op right =>
    have hright := (clauseless_tokens right).append hclosing
    exact .word rfl ((clauseless_tokens left).append (.word rfl hright))
  | inList e items =>
    cases items with
    | nil => exact .word rfl .nil
    | cons i is =>
      have hitems := Clauseless.separated (clauseless_tokensOfAll (i :: is))
      exact .word rfl ((clauseless_tokens e).append
        (.word rfl (hitems.append (.word rfl hclosing))))
  | between e low high =>
    have hhigh := (clauseless_tokens high).append hclosing
    exact .word rfl ((clauseless_tokens e).append
      (.word rfl ((clauseless_tokens low).append (.word rfl hhigh))))
  | isNull e negated =>
    exact .word rfl ((clauseless_tokens e).append (.word rfl hclosing))

theorem clauseless_tokensOfAll (es : List Expr) : ∀ ts ∈ tokensOfAll es, Clauseless ts := by
  cases es with
  | nil => exact fun ts hts => absurd hts List.not_mem_nil
  | cons e es =>
    rw [tokensOfAll, List.forall_mem_cons]
    exact ⟨clauseless_tokens e, clauseless_tokensOfAll es⟩

end

end Expr

namespace Select

theorem clauseless_columnTokens (es : List Expr) : Clauseless (columnTokens es) := by
  unfold columnTokens
  split
  · exact .word rfl .nil
  · rw [← Expr.tokensOfAll_eq_map]
    exact .separated (Expr.clauseless_tokensOfAll es)

variable {w : Word} (hw : w.startsClause = true)
include hw

theorem word_mem_clause {u : Word} (e : Option Expr) :
    .word w ∈ clause u e ↔ w = u ∧ e.isSome := by
  cases e with
  | none => simp [clause]
  | some e =>
    have he := e.clauseless_tokens.not_mem hw
    simp [clause, he]

theorem word_mem_orderTokens (items : List OrderItem) :
    .word w ∈ orderTokens items ↔ w = .order ∧ items ≠ [] := by
  have hitems : Clauseless (separated (items.map OrderItem.tokens)) := by
    refine .separated fun ts hts => ?_
    obtain ⟨item, _, rfl⟩ := List.mem_map.mp hts
    refine item.expr.clauseless_tokens.append ?_
    cases item.direction with
    | none => exact .nil
    | some d => exact .word rfl .nil
  have hnot := hitems.not_mem hw
  cases items with
  | nil => simp [orderTokens]
  | cons item items =>
    rw [orderTokens, List.isEmpty_cons, if_neg Bool.false_ne_true, List.mem_cons, or_iff_left hnot]
    simp

theorem word_mem_sourceTokens (source : Option Source) :
    .word w ∈ sourceTokens source ↔ w = .source ∧ source.isSome := by
  cases source with
  | none => simp [sourceTokens]
  | some s =>
    obtain ⟨table, label⟩ := s
    have htable := (Clauseless.dotted table.schema table.name).not_mem hw
    have hlabel : w ≠ .label := by
      rintro rfl
      cases hw
    cases label <;> simp [sourceTokens, Source.tokens, htable, hlabel]

/-- A clause is there if there is something to say in it. -/
theorem word_mem_tokens_iff (s : Select) : .word w ∈ s.tokens ↔
    w = .select ∨ w = .source ∧ s.source.isSome ∨ w = .condition ∧ s.condition.isSome ∨
      w = .order ∧ s.order ≠ [] ∨ w = .limit ∧ s.limit.isSome ∨ w = .offset ∧ s.offset.isSome := by
  have hcolumns := (clauseless_columnTokens s.columns).not_mem hw
  rw [tokens_eq, List.mem_cons]
  simp only [List.mem_append, word_mem_clause hw, word_mem_orderTokens hw,
    word_mem_sourceTokens hw, hcolumns, false_or, or_assoc]
  simp

end Select

end FilterQuery
