import FilterQuery.Proofs.Compile.Query
import FilterQuery.Proofs.Decode.Reading
import FilterQuery.Proofs.Sql.Shown

/-!
# The order and the page of a selection

What follows the condition in the text of a selection is the order, the limit and the offset. They
are settled by the sorts and the counts of the spec: of the tree they take the number of parameters
alone, to number their own. A count of zero says nothing, whichever way it got into the spec.
-/
namespace FilterQuery

open Sql

/-- A sort key as it is written: its column, then its direction. -/
def SortKey.text (d : Dialect) (key : SortKey) : List Char :=
  let column := ColumnName.parse key.field
  let part := match column.qualifier with
    | some qualifier => d.quoted qualifier ++ ['.']
    | none => []
  let direction := match key.direction with
    | .ascending => " ASC".toList
    | .descending => " DESC".toList
  part ++ d.quoted column.name ++ direction

/-- The order that keys ask for: each of them is written, in the order of the list. -/
def orderText (d : Dialect) : List SortKey → List Char
  | [] => []
  | key :: keys =>
    " ORDER BY ".toList ++ ", ".toList.intercalate ((key :: keys).map (SortKey.text d))

namespace Sql

/-- The placeholders of one dialect are all alike. -/
theorem write_mysql (m n : Nat) (ts : List Token) : write .mysql m ts = write .mysql n ts := by
  induction ts generalizing m n with
  | nil => rfl
  | cons t ts ih =>
    cases t with
    | word w => rw [write, write, ih m n]
    | name s => rw [write, write, ih m n]
    | bound v => rw [write, write, ih (m + 1) (n + 1)]; rfl

end Sql

namespace Draft

theorem boundValues_of_orderItem {keys : List SortKey} {ts : List Token}
    (hts : ts ∈ (keys.map orderItem).map OrderItem.tokens) : boundValues ts = [] := by
  rw [List.map_map] at hts
  obtain ⟨key, _, rfl⟩ := List.mem_map.mp hts
  simp [orderItem, OrderItem.tokens, Expr.named, Expr.tokens, boundValues_append, boundValues]

theorem write_orderItem (d : Dialect) (count : Nat) (key : SortKey) :
    write d count (orderItem key).tokens = key.text d := by
  obtain ⟨field, direction⟩ := key
  rw [orderItem, OrderItem.tokens, write_append, Expr.named, Expr.tokens, SortKey.text]
  cases (ColumnName.parse field).qualifier <;> cases direction <;> simp [dotted, write, Word.text]

theorem write_order (d : Dialect) (count : Nat) (keys : List SortKey) :
    write d count (Select.orderTokens (keys.map orderItem)) = orderText d keys := by
  cases keys with
  | nil => rfl
  | cons key keys =>
    have hbound : ∀ ts ∈ ((key :: keys).map orderItem).map OrderItem.tokens, boundValues ts = [] :=
      fun ts hts => boundValues_of_orderItem hts
    have hkeys := write_separated d count hbound
    have htexts : (((key :: keys).map orderItem).map OrderItem.tokens).map (write d count) =
        (key :: keys).map (SortKey.text d) := by
      rw [List.map_map, List.map_map]
      exact List.map_congr_left fun k _ => write_orderItem d count k
    rw [Select.orderTokens, List.map_cons, List.isEmpty_cons, if_neg Bool.false_ne_true, write,
      ← List.map_cons, hkeys, htexts]
    rfl

theorem boundValues_order (keys : List SortKey) :
    boundValues (Select.orderTokens (keys.map orderItem)) = [] := by
  unfold Select.orderTokens
  split
  · rfl
  · rw [boundValues_word, boundValues_separated, List.flatMap_eq_nil_iff]
    exact fun ts hts => boundValues_of_orderItem hts

end Draft

/-- A count is set if it is given and not zero. -/
def IsSet (n : Option UInt64) : Prop := ∃ k ∈ n, k ≠ 0

/-- A count as a parameter: an integer that is not negative, as there is none above 2⁶³ - 1. -/
def Capped (n : UInt64) (v : Scalar) : Prop :=
  ∃ i : Int64, v = .int i ∧ 0 ≤ i.toInt ∧ i.toInt = min n.toNat (2 ^ 63 - 1)

/-- What a limit and an offset come to after `count` parameters: a text, and the parameters that it
has placeholders for. There is an offset only after a limit. -/
inductive Paged (d : Dialect) (count : Nat) :
    Option UInt64 → Option UInt64 → List Char → List Scalar → Prop where
  | all {limit offset : Option UInt64} (unlimited : ¬ IsSet limit) : Paged d count limit offset [] []
  | first {n : UInt64} {offset : Option UInt64} {v : Scalar} (positive : n ≠ 0)
      (start : ¬ IsSet offset) (capped : Capped n v) :
      Paged d count (some n) offset (" LIMIT ".toList ++ d.placeholder count) [v]
  | window {n m : UInt64} {v w : Scalar} (positive : n ≠ 0) (later : m ≠ 0) (capped : Capped n v)
      (capped' : Capped m w) : Paged d count (some n) (some m)
        (" LIMIT ".toList ++ d.placeholder count ++ " OFFSET ".toList ++ d.placeholder (count + 1))
        [v, w]

theorem capped_count (n : UInt64) : ∃ v, Draft.count n = .value v ∧ Capped n v := by
  have hlt : min n.toNat 0x7FFFFFFFFFFFFFFF < 2 ^ 63 := by omega
  have hint := Int64.toInt_ofNat_of_lt hlt
  refine ⟨_, rfl, _, rfl, ?_, ?_⟩
  · omega
  · omega

namespace Spec

variable {ρ : Type}

theorem positive_cases (n : Option UInt64) :
    ¬ IsSet n ∧ positive n = none ∨ ∃ k, k ≠ 0 ∧ n = some k ∧ positive n = some k := by
  cases n with
  | none =>
    refine .inl ⟨?_, rfl⟩
    rintro ⟨k, hk, _⟩
    cases hk
  | some k =>
    by_cases hk : k = 0
    · refine .inl ⟨?_, by rw [hk]; rfl⟩
      rintro ⟨j, hj, hne⟩
      cases hj
      exact hne hk
    · refine .inr ⟨k, hk, rfl, ?_⟩
      have hpos : 0 < k := UInt64.pos_iff_ne_zero.mpr hk
      simp [positive, hpos]

theorem isSet_iff (n : Option UInt64) : IsSet n ↔ (positive n).isSome := by
  rcases positive_cases n with ⟨hset, hnone⟩ | ⟨k, hk, rfl, hsome⟩
  · simp [hset, hnone]
  · simp [hsome, IsSet, hk]

/-- The limit and the offset of a query. -/
def pageTokens (s : Spec ρ) : List Token :=
  Select.clause .limit (s.page.limit.map Draft.count) ++
    Select.clause .offset (s.page.offset.map Draft.count)

theorem paged (d : Dialect) (s : Spec ρ) (count : Nat) :
    Paged d count s.limit s.offset (write d count s.pageTokens) (boundValues s.pageTokens) := by
  rcases positive_cases s.limit with ⟨hset, hlimit⟩ | ⟨n, hn, hs, hlimit⟩
  · have htokens : s.pageTokens = [] := by simp [pageTokens, page, hlimit, Select.clause]
    rw [htokens]
    exact .all hset
  · obtain ⟨v, hv, hcapped⟩ := capped_count n
    rw [hs]
    rcases positive_cases s.offset with ⟨hset, hoffset⟩ | ⟨m, hm, hs', hoffset⟩
    · have htokens : s.pageTokens = [.word .limit, .bound v] := by
        simp [pageTokens, page, hlimit, hoffset, Select.clause, hv, Expr.tokens]
      rw [htokens]
      simpa [write, boundValues, Word.text] using Paged.first hn hset hcapped
    · obtain ⟨w, hw, hcapped'⟩ := capped_count m
      have htokens : s.pageTokens = [.word .limit, .bound v, .word .offset, .bound w] := by
        simp [pageTokens, page, hlimit, hoffset, Select.clause, hv, hw, Expr.tokens]
      rw [hs', htokens]
      simpa [write, boundValues, Word.text] using Paged.window hn hm hcapped hcapped'

end Spec

namespace Selection

/-- The selection `whole` is `bare` with an order and a page after it. Its clauses for them are
those of a spec with sorts, and with counts that are set. -/
structure Completes {ρ : Type} (d : Dialect) (s : Spec ρ) (page : Nat → List Char)
    (counts : List Scalar) (bare whole : Selection) : Prop where
  sql : whole.sql.toList = bare.sql.toList ++ orderText d s.sorts ++ page bare.params.length
  params : whole.params = bare.params ++ counts
  ordered : Shows d.quote whole.sql.toList " ORDER BY ".toList ↔ s.sorts ≠ []
  limited : Shows d.quote whole.sql.toList " LIMIT ".toList ↔ IsSet s.limit
  moved : Shows d.quote whole.sql.toList " OFFSET ".toList ↔ IsSet s.limit ∧ IsSet s.offset

variable (dialect : Dialect) (table : String) (columns : List String)

/-- The query of a spec is that of its root, its order and its page. -/
theorem tokens_query (s : Spec Condition) :
    (s.query table columns).tokens =
      (Spec.query table columns { root := s.root }).tokens ++
        (Select.orderTokens (s.sorts.map Draft.orderItem) ++ s.pageTokens) := by
  have hbare : (Spec.query table columns { root := s.root }).tokens =
      .word .select :: (Select.columnTokens (columns.map Draft.column) ++
        Select.sourceTokens (some ⟨TableName.parse table, none⟩) ++
        Select.clause .condition (s.root.bind Condition.expr?)) := by
    rw [Select.tokens_eq]
    simp [Spec.query, Spec.page, Spec.positive, Select.orderTokens, Select.clause]
  rw [hbare, Select.tokens_eq, Spec.pageTokens]
  simp [Spec.query]

theorem completes (s : Spec Condition) (root : Option Condition) :
    Completes dialect s (fun count => write dialect count s.pageTokens) (boundValues s.pageTokens)
      (make dialect table columns (some { root := root }))
      (make dialect table columns (some (s.withRoot root))) := by
  have htokens := tokens_query table columns (s.withRoot root)
  refine ⟨?_, ?_, ?_, ?_, ?_⟩
  · rw [toList_sql_make, toList_sql_make, params_make, Option.getD_some, Option.getD_some, htokens,
      write_append, write_append, Draft.write_order, Draft.boundValues_order, Nat.zero_add,
      List.length_nil, Nat.add_zero, List.append_assoc]
    rfl
  · rw [params_make, params_make, Option.getD_some, Option.getD_some, htokens, boundValues_append,
      boundValues_append, Draft.boundValues_order, List.nil_append]
    rfl
  · rw [toList_sql_make]
    refine (shows_word_iff Word.mark_order dialect 0 _).trans ?_
    rw [Select.word_mem_tokens_iff rfl]
    simp [Spec.query, Spec.withRoot]
  · rw [toList_sql_make]
    refine (shows_word_iff Word.mark_limit dialect 0 _).trans ?_
    rw [Select.word_mem_tokens_iff rfl, Spec.isSet_iff]
    simp [Spec.query, Spec.withRoot, Spec.page]
  · rw [toList_sql_make]
    refine (shows_word_iff Word.mark_offset dialect 0 _).trans ?_
    rw [Select.word_mem_tokens_iff rfl, Spec.isSet_iff, Spec.isSet_iff]
    cases hlimit : Spec.positive s.limit <;> simp [Spec.query, Spec.withRoot, Spec.page, hlimit]

end Selection

/-- The counts of a spec: the key of each in a document, and how it is set. -/
inductive Spec.Counts : String → (Spec Condition → Option UInt64 → Spec Condition) → Prop where
  | offset : Counts "offset" setOffset
  | limit : Counts "limit" setLimit

namespace Grammar

def specKeys : List String := ["root", "sorts", "offset", "limit"]

/-- Documents of specs that say the same, but where the first one has a zero under the key the
second one has `null` or nothing. -/
inductive Zeroed (key : String) : Json → Json → Prop where
  | mk {v w : Json} {ms ns : Members} (fields : Fields specKeys 0 v ms)
      (fields' : Fields specKeys 0 w ns) (zero : under [key] ms = [.integer 0])
      (unset : under [key] ns = [] ∨ under [key] ns = [.null])
      (others : ∀ other ∈ specKeys, other ≠ key → under [other] ms = under [other] ns) :
      Zeroed key v w

theorem ofCount_zero_iff {n : UInt64} : OfCount (.integer 0) n ↔ n = 0 := by
  constructor
  · intro h
    generalize hv : Json.integer 0 = v at h
    cases h
    have hzero : (0 : Int) = n.toNat := by simpa [Json.integer] using hv
    exact UInt64.toNat_inj.mp (by simpa using hzero.symm)
  · rintro rfl
    exact .mk 0

section

variable {α : Type} {names : List String} {ms ns : Members} (Means : Json → α → Prop) (a : Option α)

theorem entry_congr_under (h : under names ms = under names ns) :
    Entry names Means ms a ↔ Entry names Means ns a := by
  constructor
  · rintro (nothing | ⟨one, means⟩)
    · exact .absent (h ▸ nothing)
    · exact .given (h ▸ one) means
  · rintro (nothing | ⟨one, means⟩)
    · exact .absent (h ▸ nothing)
    · exact .given (h ▸ one) means

theorem nullable_congr_under (h : under names ms = under names ns) :
    Nullable names Means ms a ↔ Nullable names Means ns a := by
  simp only [nullable_iff, entry_congr_under _ _ h]

theorem nullable_zero_iff {n : Option UInt64} (h : under names ms = [.integer 0]) :
    Nullable names OfCount ms n ↔ n = some 0 := by
  constructor
  · rintro (nothing | one | ⟨one, means⟩)
    · rw [h] at nothing
      cases nothing
    · rw [h] at one
      cases one
    · rw [h] at one
      cases one
      rw [ofCount_zero_iff.mp means]
  · rintro rfl
    exact .given h (.mk 0)

theorem nullable_unset_iff {n : Option UInt64} (h : under names ms = [] ∨ under names ms = [.null]) :
    Nullable names OfCount ms n ↔ n = none := by
  constructor
  · rintro (nothing | one | ⟨one, means⟩)
    · rfl
    · rfl
    · rcases h with h | h
      · rw [h] at one
        cases one
      · rw [h] at one
        cases one
        cases means
  · rintro rfl
    rcases h with h | h
    · exact .absent h
    · exact .null h

end

theorem ofSpec_iff {v : Json} {ms : Members} (hv : Fields specKeys 0 v ms) {s : Spec Condition} :
    OfSpec v s ↔ Nullable ["root"] OfNode ms s.root ∧
      (∃ sorts, Entry ["sorts"] OfSorts ms sorts ∧ sorts.getD [] = s.sorts) ∧
      Nullable ["offset"] OfCount ms s.offset ∧ Nullable ["limit"] OfCount ms s.limit := by
  constructor
  · rintro ⟨hms, hroot, hsorts, hoffset, hlimit⟩
    obtain rfl := hv.unique hms
    exact ⟨hroot, ⟨_, hsorts, rfl⟩, hoffset, hlimit⟩
  · rintro ⟨hroot, ⟨sorts, hsorts, heq⟩, hoffset, hlimit⟩
    have hspec := OfSpec.mk hv hroot hsorts hoffset hlimit
    rwa [heq] at hspec

/-- What a document with a zero says is what the other one says, but for the count. -/
theorem Zeroed.ofSpec_iff {key : String} {set : Spec Condition → Option UInt64 → Spec Condition}
    (hkey : Spec.Counts key set) {v w : Json} (h : Zeroed key v w) (s : Spec Condition) :
    (OfSpec v s → s = set s (some 0)) ∧ (OfSpec w s → s = set s none) ∧
      (OfSpec v (set s (some 0)) ↔ OfSpec w (set s none)) := by
  obtain ⟨hv, hw, hzero, hunset, hothers⟩ := h
  have hroot := fun a => nullable_congr_under OfNode a
    (hothers "root" (by decide) (by cases hkey <;> decide))
  have hsorts := fun a => entry_congr_under OfSorts a
    (hothers "sorts" (by decide) (by cases hkey <;> decide))
  simp only [Grammar.ofSpec_iff hv, Grammar.ofSpec_iff hw, hroot, hsorts]
  obtain ⟨root, sorts, offset, limit⟩ := s
  cases hkey with
  | offset =>
    have hlimit := fun a => nullable_congr_under OfCount a
      (hothers "limit" (by decide) (by decide))
    simp +contextual [nullable_zero_iff hzero, nullable_unset_iff hunset, hlimit, Spec.setOffset]
  | limit =>
    have hoffset := fun a => nullable_congr_under OfCount a
      (hothers "offset" (by decide) (by decide))
    simp +contextual [nullable_zero_iff hzero, nullable_unset_iff hunset, hoffset, Spec.setLimit]

end Grammar

namespace Selection

variable (dialect : Dialect) (table : String) (columns : List String)

theorem make_zero {key : String} {set : Spec Condition → Option UInt64 → Spec Condition}
    (hkey : Spec.Counts key set) (s : Spec Condition) :
    make dialect table columns (some (set s (some 0))) =
      make dialect table columns (some (set s none)) := by
  refine make_congr dialect table columns ?_ ?_
  · cases hkey <;> rfl
  · cases hkey <;> rfl

/-- What one text gives as the text of a spec, the other one gives as well. -/
def ReadAlike (text other : String) : Prop := ∀ selection : Selection,
  (∃ s, Decode.ofText Decode.spec text = .ok s ∧
      make dialect table columns (some s) = selection) ↔
    ∃ s, Decode.ofText Decode.spec other = .ok s ∧
      make dialect table columns (some s) = selection

/-- Texts make the same selection if one has a zero where the other has nothing. -/
theorem readAlike_of_zeroed {key : String}
    {set : Spec Condition → Option UInt64 → Spec Condition} (hkey : Spec.Counts key set)
    {v w : Json} (h : Grammar.Zeroed key v w) {text other : String}
    (htext : Json.Spells v text) (hother : Json.Spells w other)
    (hv : v.fits Decode.nesting = true) (hw : w.fits Decode.nesting = true) :
    ReadAlike dialect table columns text other := by
  intro selection
  rw [Decode.ofText_eq htext (Json.isWhole_of_fits hv),
    Decode.ofText_eq hother (Json.isWhole_of_fits hw)]
  have hreads : ∀ s, Decode.spec Decode.nesting v = .ok s ↔ Grammar.OfSpec v s :=
    fun s => Decode.spec_eq_ok_iff hv
  have hreads' : ∀ s, Decode.spec Decode.nesting w = .ok s ↔ Grammar.OfSpec w s :=
    fun s => Decode.spec_eq_ok_iff hw
  constructor
  · rintro ⟨s, hs, hselection⟩
    obtain ⟨hzero, _, hsame⟩ := h.ofSpec_iff hkey s
    have hspec := (hreads s).mp hs
    have hset := hzero hspec
    rw [hset] at hspec
    refine ⟨set s none, (hreads' _).mpr (hsame.mp hspec), ?_⟩
    rw [← make_zero dialect table columns hkey, ← hset, hselection]
  · rintro ⟨s, hs, hselection⟩
    obtain ⟨_, hunset, hsame⟩ := h.ofSpec_iff hkey s
    have hspec := (hreads' s).mp hs
    have hset := hunset hspec
    rw [hset] at hspec
    refine ⟨set s (some 0), (hreads _).mpr (hsame.mpr hspec), ?_⟩
    rw [make_zero dialect table columns hkey, ← hset, hselection]

/-- The order and the page of a selection. They come after all that the condition says and are
settled by the sorts, the limit and the offset of the spec, whatever its root is. Zero and nothing
come to the same: for a new spec, for one that is changed, and for one that is read. -/
theorem ordered_and_paged :
    (∀ s : Spec Condition, ∃ page counts,
      (∀ n, Paged dialect n s.limit s.offset (page n) counts) ∧
      (dialect = .mysql → ∀ m n, page m = page n) ∧
      ∀ root, Completes dialect s page counts (make dialect table columns (some { root := root }))
        (make dialect table columns (some (s.withRoot root)))) ∧
    (∀ root n field direction,
      make dialect table columns (some (.make root (some 0) n field direction)) =
        make dialect table columns (some (.make root none n field direction)) ∧
      make dialect table columns (some (.make root n (some 0) field direction)) =
        make dialect table columns (some (.make root n none field direction))) ∧
    ∀ key set, Spec.Counts key set →
      (∀ s, make dialect table columns (some (set s (some 0))) =
        make dialect table columns (some (set s none))) ∧
      ∀ v w, Grammar.Zeroed key v w → ∀ text other, Json.Spells v text → Json.Spells w other →
        v.fits Decode.nesting = true → w.fits Decode.nesting = true →
          ReadAlike dialect table columns text other := by
  refine ⟨fun s => ⟨_, _, s.paged dialect, ?_, completes dialect table columns s⟩, ?_, ?_⟩
  · rintro rfl m n
    exact write_mysql m n _
  · exact fun root n field direction => ⟨rfl, rfl⟩
  · intro key set hkey
    refine ⟨make_zero dialect table columns hkey, ?_⟩
    intro v w h text other htext hother hv hw
    exact readAlike_of_zeroed dialect table columns hkey h htext hother hv hw

/-- A document with an offset, and what else there is. -/
def moved (others : List (String × Json)) : Json := .ofMembers (("offset", .integer 3) :: others)

theorem printable_moved {others : List (String × Json)} (h : ∀ m ∈ others, m.2.Printable) :
    (moved others).Printable := by
  refine Json.printable_ofMembers ?_
  rw [List.forall_mem_cons]
  exact ⟨Json.printable_integer (by decide) (by decide), h⟩

/-- With a limit of zero an offset is left out, as it is with none. -/
theorem ordered_and_paged_unlimited :
    Grammar.Zeroed "limit" (moved [("limit", .integer 0)]) (moved []) ∧
      ∃ s, Decode.ofText Decode.spec (moved [("limit", .integer 0)]).prettyText = .ok s ∧
        (make .postgres "t" [] (some s)).sql = "SELECT * FROM \"t\"" := by
  have hlimit : (Json.integer 0).Printable := Json.printable_integer (by decide) (by decide)
  have hv : (moved [("limit", .integer 0)]).Printable := printable_moved (by simpa using hlimit)
  have hw : (moved []).Printable := printable_moved (by simp)
  have hzeroed : Grammar.Zeroed "limit" (moved [("limit", .integer 0)]) (moved []) := by
    refine .mk (.object _) (.object _) rfl (.inl rfl) ?_
    simp [Grammar.specKeys, Grammar.under]
  have hspec : Grammar.OfSpec (moved []) ⟨none, [], some 3, none⟩ :=
    .mk (.object _) (.absent rfl) (.absent rfl) (.given rfl (.mk 3)) (.absent rfl)
  have hfits : (moved []).fits Decode.nesting = true := by decide
  have hread : Decode.spec Decode.nesting (moved []) = .ok ⟨none, [], some 3, none⟩ :=
    (Decode.spec_eq_ok_iff hfits).mpr hspec
  have htext := (Decode.ofText_eq hw.spells_compactText (Json.isWhole_of_fits hfits)).trans hread
  obtain ⟨_, _, hzero⟩ := ordered_and_paged .postgres "t" []
  have hsame := (hzero "limit" Spec.setLimit .limit).2 _ _ hzeroed _ _ hv.spells_prettyText
    hw.spells_compactText (by decide) hfits
  obtain ⟨s, hs, hselection⟩ := (hsame _).mpr ⟨_, htext, rfl⟩
  refine ⟨hzeroed, s, hs, ?_⟩
  rw [hselection]
  decide +kernel

end Selection

end FilterQuery
