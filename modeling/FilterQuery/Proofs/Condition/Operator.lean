import FilterQuery.Proofs.Encode.RoundTrip
import FilterQuery.Proofs.Text.AsciiCase

/-!
# Spellings of operators

The recognized operators have eighteen names. A text spells a name in any case of its letters, with
`-` or a space for any `_`, and between blanks. Main statement: a text is read as a recognized
operator exactly if it spells a name of this operator, so other spellings of a text say the same.
-/
namespace FilterQuery.Operator

/-- The names of the recognized operators. Six of the operators have a long name too. -/
def names : List (String × Operator) :=
  [("EQ", equal), ("EQUALS", equal), ("NEQ", notEqual), ("NOT_EQUALS", notEqual),
    ("LT", less), ("LESS_THAN", less), ("GT", greater), ("GREATER_THAN", greater),
    ("LTE", atMost), ("LESS_OR_EQUALS", atMost), ("GTE", atLeast), ("GREATER_OR_EQUALS", atLeast),
    ("BETWEEN", between), ("LIKE", like), ("NOT_LIKE", notLike), ("IN", oneOf),
    ("IS_NULL", isNull), ("IS_NOT_NULL", isNotNull)]

/-- A character of a text and the character of a name that it stands for. -/
inductive StandsFor : Char → Char → Prop where
  | itself {c d : Char} (alike : Text.SameButCase c d) : StandsFor c d
  | separator {c : Char} (separator : c = '-' ∨ c = ' ') : StandsFor c '_'

/-- Between blanks, the text stands character by character for a name of the operator. -/
def Spells (s : String) (o : Operator) : Prop :=
  ∃ t name, Text.Padded s t ∧ (name, o) ∈ names ∧ List.Forall₂ StandsFor t.toList name.toList

/-- The characters between the words of a name. -/
def IsSeparator (c : Char) : Prop := c = '-' ∨ c = ' ' ∨ c = '_'

instance (c : Char) : Decidable (IsSeparator c) := inferInstanceAs (Decidable (_ ∨ _))

def SameButSeparator (c d : Char) : Prop := c = d ∨ IsSeparator c ∧ IsSeparator d

instance (c d : Char) : Decidable (SameButSeparator c d) := inferInstanceAs (Decidable (_ ∨ _))

/-- A change that leaves what a text spells: of the case of letters, of the blanks around the text,
or of the separators strictly inside. -/
inductive Respelled (s s' : String) : Prop where
  | case (alike : List.Forall₂ Text.SameButCase s.toList s'.toList) : Respelled s s'
  | blanks {t : String} (padded : Text.Padded s t) (padded' : Text.Padded s' t) : Respelled s s'
  | separators {before inner inner' after : List Char} {first last : Char}
      (blank : Text.Blank before) (blank' : Text.Blank after)
      (visible : Text.isBlank first = false) (visible' : Text.isBlank last = false)
      (text : s.toList = before ++ first :: (inner ++ last :: after))
      (text' : s'.toList = before ++ first :: (inner' ++ last :: after))
      (alike : List.Forall₂ SameButSeparator inner inner') : Respelled s s'

/-- What no name allows: two separators in a row, a tab, or a character that is not in ASCII. -/
inductive Flawed : List Char → Prop where
  | doubled {a b : Char} (before after : List Char) (separator : IsSeparator a)
      (separator' : IsSeparator b) : Flawed (before ++ a :: b :: after)
  | tab {cs : List Char} (tab : '\t' ∈ cs) : Flawed cs
  | beyondAscii {cs : List Char} {c : Char} (mem : c ∈ cs) (beyond : 128 ≤ c.toNat) : Flawed cs

theorem isUpper_or_eq_of_mem_names {name : String} {o : Operator} (h : (name, o) ∈ names) :
    ∀ c ∈ name.toList, c.isUpper = true ∨ c = '_' := by
  have hall : (names.all fun p => p.1.toList.all fun c => c.isUpper || c == '_') = true := by
    decide +kernel
  simpa using List.all_eq_true.mp (List.all_eq_true.mp hall (name, o) h)

theorem not_doubled_of_mem_names {name : String} {o : Operator} (h : (name, o) ∈ names) :
    ¬ ['_', '_'] <:+: name.toList := by
  have hall : (names.all fun p => ¬ ['_', '_'] <:+: p.1.toList) = true := by
    decide +kernel
  simpa using List.all_eq_true.mp hall (name, o) h

theorem ofFolded_eq_iff {name : String} {o : Operator} :
    ofFolded name = o ∧ o ≠ unrecognized ↔ (name, o) ∈ names := by
  constructor
  · rintro ⟨rfl, hknown⟩
    unfold ofFolded at hknown ⊢
    split <;> simp [names] at hknown ⊢
  · intro h
    have hall : (names.all fun p => ofFolded p.1 = p.2 ∧ p.2 ≠ unrecognized) = true := by
      decide +kernel
    simpa using List.all_eq_true.mp hall (name, o) h

/-- What is left of a character when a name is folded. -/
def foldChar (c : Char) : Char := foldSeparator c.toUpper

theorem toList_fold (s : String) : (fold s).toList = (Text.trim s).toList.map foldChar := by
  simp [fold, foldChar, Function.comp_def]

theorem toUpper_eq_separator {c : Char} (h : c.toUpper = '-' ∨ c.toUpper = ' ') :
    c = '-' ∨ c = ' ' := by
  rcases h with h | h
  · have halike : Text.SameButCase c '-' := Text.sameButCase_iff.mpr (h.trans rfl)
    exact .inl (halike.eq_of_not_isAlpha rfl)
  · have halike : Text.SameButCase c ' ' := Text.sameButCase_iff.mpr (h.trans rfl)
    exact .inr (halike.eq_of_not_isAlpha rfl)

theorem standsFor_foldChar (c : Char) : StandsFor c (foldChar c) := by
  rw [foldChar, foldSeparator]
  split
  · next h => exact .separator (toUpper_eq_separator (by simpa using h))
  · exact .itself (Text.sameButCase_iff.mpr (Char.toUpper_toUpper_eq_toUpper c).symm)

theorem StandsFor.foldChar_eq {c d : Char} (h : StandsFor c d) : foldChar c = foldChar d := by
  cases h with
  | itself halike => rw [foldChar, foldChar, Text.sameButCase_iff.mp halike]
  | separator hseparator => rcases hseparator with rfl | rfl <;> rfl

theorem foldChar_of_isSeparator {c : Char} (h : IsSeparator c) : foldChar c = '_' := by
  rcases h with rfl | rfl | rfl <;> rfl

theorem SameButSeparator.foldChar_eq {c d : Char} (h : SameButSeparator c d) :
    foldChar c = foldChar d := by
  rcases h with rfl | ⟨hc, hd⟩
  · rfl
  · rw [foldChar_of_isSeparator hc, foldChar_of_isSeparator hd]

theorem map_foldChar_eq {R : Char → Char → Prop} (hR : ∀ c d, R c d → foldChar c = foldChar d)
    {cs ds : List Char} (h : List.Forall₂ R cs ds) : cs.map foldChar = ds.map foldChar := by
  rw [← List.forall₂_eq_eq_eq, List.forall₂_map_left_iff, List.forall₂_map_right_iff]
  exact h.imp hR

theorem foldChar_eq_self {c : Char} (hlower : ¬ c.isLower = true) (hdash : c ≠ '-')
    (hspace : c ≠ ' ') : foldChar c = c := by
  rw [foldChar, Char.toUpper_eq_of_not_isLower hlower, foldSeparator, if_neg]
  simp [hdash, hspace]

theorem foldChar_of_mem_names {name : String} {o : Operator} (h : (name, o) ∈ names) {c : Char}
    (hc : c ∈ name.toList) : foldChar c = c := by
  rcases isUpper_or_eq_of_mem_names h c hc with hupper | rfl
  · have hlower := Char.not_isLower_of_isUpper hupper
    refine foldChar_eq_self hlower ?_ ?_ <;> rintro rfl <;> cases hupper
  · rfl

theorem foldChar_of_beyondAscii {c : Char} (h : 128 ≤ c.toNat) : foldChar c = c := by
  have hlower : ¬ c.isLower = true := by
    rw [Text.isLower_iff]
    omega
  refine foldChar_eq_self hlower ?_ ?_ <;> rintro rfl <;> revert h <;> decide

theorem ofName_eq_iff_fold {s : String} {o : Operator} :
    ofName s = o ∧ o ≠ unrecognized ↔ (fold s, o) ∈ names := ofFolded_eq_iff

theorem ofName_eq_iff_spells {s : String} {o : Operator} :
    ofName s = o ∧ o ≠ unrecognized ↔ Spells s o := by
  rw [ofName_eq_iff_fold]
  constructor
  · intro h
    refine ⟨Text.trim s, fold s, Text.trim_eq_iff.mp rfl, h, ?_⟩
    rw [toList_fold, List.forall₂_map_right_iff, List.forall₂_same]
    exact fun c _ => standsFor_foldChar c
  · rintro ⟨t, name, hpadded, hname, hstands⟩
    have hfolded : fold s = name := by
      rw [← String.toList_inj, toList_fold, Text.trim_eq_iff.mpr hpadded]
      calc t.toList.map foldChar
          = name.toList.map foldChar := map_foldChar_eq (fun _ _ => StandsFor.foldChar_eq) hstands
        _ = name.toList := by
          rw [List.map_congr_left fun c hc => foldChar_of_mem_names hname hc, List.map_id']
    rwa [hfolded]

/-- After folding, what no name allows is still there. -/
theorem ofName_eq_unrecognized_of_flawed {s t : String} (hpadded : Text.Padded s t)
    (h : Flawed t.toList) : ofName s = unrecognized := by
  by_contra hknown
  have hname := ofName_eq_iff_fold.mp ⟨rfl, hknown⟩
  have hfold := toList_fold s
  rw [Text.trim_eq_iff.mpr hpadded] at hfold
  have hchars := isUpper_or_eq_of_mem_names hname
  rw [hfold, List.forall_mem_map] at hchars
  have hdoubled := not_doubled_of_mem_names hname
  rw [hfold] at hdoubled
  generalize t.toList = cs at h hchars hdoubled
  cases h with
  | doubled before after ha hb =>
    refine hdoubled ⟨before.map foldChar, after.map foldChar, ?_⟩
    simp [foldChar_of_isSeparator ha, foldChar_of_isSeparator hb]
  | tab htab => exact absurd (hchars _ htab) (by decide)
  | beyondAscii hmem hbeyond =>
    have hchar := hchars _ hmem
    rw [foldChar_of_beyondAscii hbeyond, Text.isUpper_iff] at hchar
    rcases hchar with hupper | rfl
    · omega
    · exact absurd hbeyond (by decide)

theorem Respelled.fold_eq {s s' : String} (h : Respelled s s') : fold s' = fold s := by
  cases h with
  | case halike =>
    have hupper : Text.trimChars (s'.toList.map Char.toUpper) =
        Text.trimChars (s.toList.map Char.toUpper) := by
      rw [Text.forall₂_sameButCase_iff.mp halike]
    rw [Text.trimChars_map_toUpper, Text.trimChars_map_toUpper] at hupper
    simp only [fold, Text.toList_upper, Text.toList_trim, hupper]
  | blanks hpadded hpadded' =>
    rw [fold, fold, Text.trim_eq_iff.mpr hpadded, Text.trim_eq_iff.mpr hpadded']
  | separators hbefore hafter hfirst hlast htext htext' halike =>
    have hinner := map_foldChar_eq (fun _ _ => SameButSeparator.foldChar_eq) halike
    rw [← String.toList_inj, toList_fold, toList_fold, Text.toList_trim, Text.toList_trim, htext,
      htext', Text.trimChars_around hbefore hafter hfirst hlast,
      Text.trimChars_around hbefore hafter hfirst hlast]
    simp [hinner]

theorem ofName_eq_of_respelled {s s' : String} (h : Relation.ReflTransGen Respelled s s') :
    ofName s' = ofName s := by
  induction h with
  | refl => rfl
  | tail _ hlast ih => rw [← ih, ofName, ofName, hlast.fold_eq]

theorem ofText_operator_eq {s text : String} (h : Json.Spells (.text s) text) :
    Decode.ofText Decode.operator text = .ok (ofName s) := by
  rw [Decode.ofText_eq h rfl]
  rfl

/-- A text is read as a recognized operator if and only if it spells a name of the operator. What
is read does not change when the text is respelled, and it is no recognized operator if the text has
a flaw. The name that an operator is written under is read back from each of its respellings, in a
document too. -/
theorem ofName_recognizes_spellings (s : String) :
    (∀ o, ofName s = o ∧ o ≠ unrecognized ↔ Spells s o) ∧
    (∀ s', Relation.ReflTransGen Respelled s s' → ofName s' = ofName s) ∧
    (∀ t, Text.Padded s t → Flawed t.toList → ofName s = unrecognized) ∧
    ∀ o, Relation.ReflTransGen Respelled o.name s → ofName s = o ∧
      ∀ text, Json.Spells (.text s) text → Decode.ofText Decode.operator text = .ok o := by
  refine ⟨fun o => ofName_eq_iff_spells, fun s' => ofName_eq_of_respelled,
    fun t => ofName_eq_unrecognized_of_flawed, fun o h => ?_⟩
  have hname : ofName s = o := (ofName_eq_of_respelled h).trans (ofName_name o)
  refine ⟨hname, fun text htext => ?_⟩
  rw [ofText_operator_eq htext, hname]

/-- A name with a hyphen, in mixed case and between blanks; with two spaces it has a flaw. -/
theorem ofName_recognizes_spellings_notLike :
    let s := "\u00a0not-Like\n"
    Spells s notLike ∧ ofName s = notLike ∧
      Relation.ReflTransGen Respelled notLike.name s ∧
      Decode.ofText Decode.operator (Json.text s).compactText = .ok notLike ∧
      ofName "NOT LIKE" = ofName s ∧
      Flawed "not  like".toList ∧ ofName "not  like" = unrecognized := by
  intro s
  have hname : ofName s = notLike := by decide +kernel
  have hplain : Text.Padded "not-Like" "not-Like" := Text.trim_eq_iff.mp (by decide +kernel)
  have hpadded : Text.Padded s "not-Like" := Text.trim_eq_iff.mp (by decide +kernel)
  have hhyphen : Respelled notLike.name "NOT-LIKE" :=
    @Respelled.separators _ _ [] "OT_LIK".toList "OT-LIK".toList [] 'N' 'E' (by decide) (by decide)
      (by decide) (by decide) rfl rfl (by decide +kernel)
  have hspace : Respelled "NOT-LIKE" "NOT LIKE" :=
    @Respelled.separators _ _ [] "OT-LIK".toList "OT LIK".toList [] 'N' 'E' (by decide) (by decide)
      (by decide) (by decide) rfl rfl (by decide +kernel)
  have hcase : Respelled "NOT-LIKE" "not-Like" :=
    .case (Text.forall₂_sameButCase_iff.mpr (by decide +kernel))
  have hcase' : Respelled "not-Like" "NOT-LIKE" :=
    .case (Text.forall₂_sameButCase_iff.mpr (by decide +kernel))
  have hrespelled : Relation.ReflTransGen Respelled notLike.name s :=
    .tail (.tail (.single hhyphen) hcase) (.blanks hplain hpadded)
  have hrespelled' : Relation.ReflTransGen Respelled s "NOT LIKE" :=
    .tail (.tail (.single (.blanks hpadded hplain)) hcase') hspace
  have hflawed : Flawed "not  like".toList :=
    @Flawed.doubled ' ' ' ' "not".toList "like".toList (by decide) (by decide)
  have hdoubled : Text.Padded "not  like" "not  like" := Text.trim_eq_iff.mp (by decide +kernel)
  obtain ⟨hspells, hsame, _, hback⟩ := ofName_recognizes_spellings s
  have hunrecognized := (ofName_recognizes_spellings "not  like").2.2.1 _ hdoubled hflawed
  exact ⟨(hspells notLike).mp ⟨hname, by decide⟩, hname, hrespelled,
    (hback notLike hrespelled).2 _ (Json.printable_text s).spells_compactText,
    hsame _ hrespelled', hflawed, hunrecognized⟩

end FilterQuery.Operator
