import FilterQuery.Json.Printer
import FilterQuery.Proofs.Json.Document

/-!
# Printed documents

Both layouts print a document as its tokens, one after the other; the one on several lines puts
white space between them. Escaped strings and integers in range are texts of what they were.
-/
namespace FilterQuery.Json

open Token

/-- The characters that a token is printed as. -/
def Token.chars : Token → List Char
  | openArray => ['[']
  | closeArray => [']']
  | openObject => ['\x7b']
  | closeObject => ['\x7d']
  | comma => [',']
  | colon => [':']
  | null => ['n', 'u', 'l', 'l']
  | bool true => ['t', 'r', 'u', 'e']
  | bool false => ['f', 'a', 'l', 's', 'e']
  | number n => n.chars
  | string s => quote (s.getD "")
  | unreadable => []

theorem Token.blank_nil : Blank [] := fun _ h => absurd h List.not_mem_nil

theorem Token.Blank.append {cs ds : List Char} (hcs : Blank cs) (hds : Blank ds) :
    Blank (cs ++ ds) := by
  intro c hc
  rcases List.mem_append.mp hc with hc | hc
  · exact hcs c hc
  · exact hds c hc

theorem Token.Spaced.blank_append {blank : List Char} (hblank : Blank blank) {ts : List Token}
    {text : List Char} (h : Spaced ts text) : Spaced ts (blank ++ text) := by
  cases h with
  | nil space => exact .nil (Blank.append hblank space)
  | cons space token tail =>
    rw [← List.append_assoc]
    exact .cons (Blank.append hblank space) token tail

theorem Token.Spaced.token {t : Token} {ts : List Token} {text rest : List Char}
    (ht : t.Written text) (h : Spaced ts rest) : Spaced (t :: ts) (text ++ rest) :=
  .cons blank_nil ht h

theorem Token.Spaced.char {t : Token} {ts : List Token} {c : Char} {rest : List Char}
    (ht : t.Written [c]) (h : Spaced ts rest) : Spaced (t :: ts) (c :: rest) := Spaced.token ht h

theorem Token.Spaced.flatMap_chars {ts : List Token} (h : ∀ t ∈ ts, t.Written t.chars) :
    Spaced ts (ts.flatMap Token.chars) := by
  induction ts with
  | nil => exact .nil blank_nil
  | cons t ts ih =>
    have htail := ih fun u hu => h u (List.mem_cons_of_mem t hu)
    rw [List.flatMap_cons]
    exact Spaced.token (h t List.mem_cons_self) htail

mutual

/-- The compact text has nothing but the tokens. -/
theorem compact_eq_flatMap (v : Json) : v.compact = v.tokens.flatMap Token.chars := by
  cases v with
  | array items => rw [compact, tokens, compactItems_eq_flatMap]; rfl
  | object members closed => rw [compact, tokens, compactMembers_eq_flatMap]; rfl
  | bool b => cases b <;> rfl
  | number n => simp [compact, tokens, Token.chars]
  | string s => simp [compact, tokens, Token.chars]
  | _ => rfl

theorem compactItems_eq_flatMap (vs : List Json) :
    compactItems vs = (itemTokens vs).flatMap Token.chars := by
  cases vs with
  | nil => rfl
  | cons v vs =>
    have hv := compact_eq_flatMap v
    have hvs := compactItems_eq_flatMap vs
    cases vs with
    | nil => simp [compactItems, itemTokens, hv, Token.chars]
    | cons w vs => simp [compactItems, itemTokens, hv, hvs, Token.chars]

theorem compactMembers_eq_flatMap (ms : List (Option String × Json)) :
    compactMembers ms = (memberTokens ms).flatMap Token.chars := by
  cases ms with
  | nil => rfl
  | cons m ms =>
    obtain ⟨key, v⟩ := m
    have hv := compact_eq_flatMap v
    have hms := compactMembers_eq_flatMap ms
    cases ms with
    | nil => simp [compactMembers, memberTokens, keyChars, hv, Token.chars]
    | cons m ms => simp [compactMembers, memberTokens, keyChars, hv, hms, Token.chars]

end

theorem blank_line (indent : Nat) : Blank (line indent) := by
  intro c hc
  rcases List.mem_cons.mp hc with rfl | hc
  · rfl
  · rw [(List.mem_replicate.mp hc).2]
    rfl

theorem blank_space : Blank [' '] := by
  intro c hc
  obtain rfl := List.mem_singleton.mp hc
  rfl

/-- A member on a line of its own, before the tokens of its value. -/
theorem Token.Spaced.member {key : Option String}
    (hkey : (Token.string key).Written (keyChars key)) {ts : List Token} {rest : List Char}
    (indent : Nat) (h : Spaced ts rest) :
    Spaced (.string key :: .colon :: ts) (line indent ++ (keyChars key ++ ':' :: ' ' :: rest)) :=
  Spaced.blank_append (blank_line indent)
    (Spaced.token hkey (Spaced.char .colon (Spaced.blank_append blank_space h)))

mutual

/-- The text on several lines has the tokens with white space between them. -/
theorem spaced_pretty (v : Json) (indent : Nat) (hv : ∀ t ∈ v.tokens, t.Written t.chars)
    {ts : List Token} {rest : List Char} (hrest : Spaced ts rest) :
    Spaced (v.tokens ++ ts) (v.pretty indent ++ rest) := by
  cases v with
  | null => exact Spaced.token .null hrest
  | bool b =>
    cases b with
    | true => exact Spaced.token .yes hrest
    | false => exact Spaced.token .no hrest
  | number n => exact Spaced.token (hv (.number n) List.mem_cons_self) hrest
  | string s => exact Spaced.token (hv (.string s) List.mem_cons_self) hrest
  | broken => exact hrest
  | array vs =>
    cases vs with
    | nil => exact Spaced.char .openArray (Spaced.char .closeArray hrest)
    | cons v vs =>
      have hitems : ∀ t ∈ itemTokens (v :: vs), t.Written t.chars :=
        fun t ht => hv t (List.mem_cons_of_mem _ ht)
      exact Spaced.char .openArray (spaced_prettyItems (v :: vs) indent hitems hrest)
  | object ms closed =>
    cases ms with
    | nil => exact Spaced.char .openObject (Spaced.char .closeObject hrest)
    | cons m ms =>
      have hmembers : ∀ t ∈ memberTokens (m :: ms), t.Written t.chars :=
        fun t ht => hv t (List.mem_cons_of_mem _ ht)
      exact Spaced.char .openObject (spaced_prettyMembers (m :: ms) indent hmembers hrest)

theorem spaced_prettyItems (vs : List Json) (indent : Nat)
    (hvs : ∀ t ∈ itemTokens vs, t.Written t.chars) {ts : List Token} {rest : List Char}
    (hrest : Spaced ts rest) : Spaced (itemTokens vs ++ ts) (prettyItems indent vs ++ rest) := by
  cases vs with
  | nil =>
    rw [prettyItems, List.append_assoc]
    exact Spaced.blank_append (blank_line indent) (Spaced.char .closeArray hrest)
  | cons v vs =>
    cases vs with
    | nil =>
      have hv : ∀ t ∈ v.tokens, t.Written t.chars := fun t ht => hvs t (List.mem_append_left _ ht)
      have hclose := Spaced.blank_append (blank_line indent) (Spaced.char .closeArray hrest)
      have hitem := spaced_pretty v (indent + 1) hv hclose
      simp only [itemTokens, prettyItems, List.append_assoc]
      exact Spaced.blank_append (blank_line (indent + 1)) hitem
    | cons w vs =>
      have hv : ∀ t ∈ v.tokens, t.Written t.chars := fun t ht => hvs t (List.mem_append_left _ ht)
      have htail : ∀ t ∈ itemTokens (w :: vs), t.Written t.chars :=
        fun t ht => hvs t (List.mem_append_right _ (List.mem_cons_of_mem _ ht))
      have hitems := spaced_prettyItems (w :: vs) indent htail hrest
      have hitem := spaced_pretty v (indent + 1) hv (Spaced.char .comma hitems)
      simp only [itemTokens, prettyItems, List.append_assoc, List.cons_append]
      exact Spaced.blank_append (blank_line (indent + 1)) hitem

theorem spaced_prettyMembers (ms : List (Option String × Json)) (indent : Nat)
    (hms : ∀ t ∈ memberTokens ms, t.Written t.chars) {ts : List Token} {rest : List Char}
    (hrest : Spaced ts rest) :
    Spaced (memberTokens ms ++ ts) (prettyMembers indent ms ++ rest) := by
  cases ms with
  | nil =>
    rw [prettyMembers, List.append_assoc]
    exact Spaced.blank_append (blank_line indent) (Spaced.char .closeObject hrest)
  | cons m ms =>
    obtain ⟨key, v⟩ := m
    have hkey := hms (.string key) (by cases ms <;> exact List.mem_cons_self)
    cases ms with
    | nil =>
      have hv : ∀ t ∈ v.tokens, t.Written t.chars := fun t ht => hms t (by simp [memberTokens, ht])
      have hclose := Spaced.blank_append (blank_line indent) (Spaced.char .closeObject hrest)
      have hvalue := spaced_pretty v (indent + 1) hv hclose
      simp only [memberTokens, prettyMembers, List.append_assoc, List.cons_append]
      exact Spaced.member hkey (indent + 1) hvalue
    | cons m ms =>
      have hv : ∀ t ∈ v.tokens, t.Written t.chars := fun t ht => hms t (by simp [memberTokens, ht])
      have htail : ∀ t ∈ memberTokens (m :: ms), t.Written t.chars :=
        fun t ht => hms t (by simp [memberTokens, ht])
      have hmembers := spaced_prettyMembers (m :: ms) indent htail hrest
      have hvalue := spaced_pretty v (indent + 1) hv (Spaced.char .comma hmembers)
      simp only [memberTokens, prettyMembers, List.append_assoc, List.cons_append]
      exact Spaced.member hkey (indent + 1) hvalue

end

theorem hexDigit?_digitChar : ∀ k < 16, hexDigit? (Nat.digitChar k) = some k := by decide

theorem charWritten_escape (c : Char) : CharWritten c (escape c) := by
  unfold escape
  split
  case h_8 d hquote hbackslash _ _ _ _ _ =>
    split
    · rename_i hc
      have hunit : UnitWritten (((0 * 16 + 0) * 16 + c.toNat / 16) * 16 + c.toNat % 16)
          ['0', '0', Nat.digitChar (c.toNat / 16), Nat.digitChar (c.toNat % 16)] :=
        .mk rfl rfl (hexDigit?_digitChar _ (by omega)) (hexDigit?_digitChar _ (by omega))
      have hvalue : ((0 * 16 + 0) * 16 + c.toNat / 16) * 16 + c.toNat % 16 = c.toNat := by omega
      rw [hvalue] at hunit
      have hchar := CharWritten.unit hunit (by omega)
      rwa [Char.ofNat_toNat] at hchar
    · exact .plain (by omega) hquote hbackslash
  all_goals exact .letter rfl

theorem charsWritten_escape (cs : List Char) : CharsWritten cs (cs.flatMap escape) := by
  induction cs with
  | nil => exact .nil
  | cons c cs ih => exact .cons (charWritten_escape c) ih

theorem written_quote (s : String) : Written (.string (some s)) (quote s) :=
  .string (charsWritten_escape s.toList)

/-- The text of a floating-point number is read back as this number. -/
def ReadsBack (x : Float) : Prop :=
  ∃ n : Numeral, Numeral.scan (Layout.json.text x) = some (n, []) ∧ n.value = .float x

theorem ReadsBack.written {x : Float} (h : ReadsBack x) :
    Written (.number (.float x)) (Layout.json.text x) := by
  obtain ⟨n, hscan, hvalue⟩ := h
  obtain ⟨text, hwritten, htext⟩ := Numeral.written_of_scan hscan
  rw [List.append_nil] at htext
  rw [htext]
  exact .number hwritten (Numeral.value_eq_iff.mp hvalue)

/-- A document that is printed as texts of its tokens. -/
structure Printable (v : Json) : Prop where
  whole : v.isWhole = true
  written : ∀ t ∈ v.tokens, t.Written t.chars

theorem printable_null : Printable .null := by
  refine ⟨rfl, fun t ht => ?_⟩
  obtain rfl := List.mem_singleton.mp ht
  exact .null

theorem printable_bool (b : Bool) : Printable (.bool b) := by
  refine ⟨rfl, fun t ht => ?_⟩
  obtain rfl := List.mem_singleton.mp ht
  cases b with
  | true => exact .yes
  | false => exact .no

theorem printable_text (s : String) : Printable (.text s) := by
  refine ⟨rfl, fun t ht => ?_⟩
  obtain rfl := List.mem_singleton.mp ht
  exact written_quote s

theorem printable_integer {i : Int} (h : -0x8000000000000000 ≤ i) (h' : i < 0x10000000000000000) :
    Printable (.integer i) := by
  refine ⟨rfl, fun t ht => ?_⟩
  obtain rfl := List.mem_singleton.mp ht
  obtain ⟨n, hwritten, hmeans⟩ := Numeral.exists_written_integerChars h h'
  exact .number hwritten hmeans

theorem printable_float {x : Float} (h : ReadsBack x) : Printable (.number (.float x)) := by
  refine ⟨rfl, fun t ht => ?_⟩
  obtain rfl := List.mem_singleton.mp ht
  exact h.written

theorem written_itemTokens {vs : List Json} (h : ∀ v ∈ vs, ∀ t ∈ v.tokens, t.Written t.chars) :
    ∀ t ∈ itemTokens vs, t.Written t.chars := by
  induction vs with
  | nil =>
    rw [itemTokens, List.forall_mem_singleton]
    exact .closeArray
  | cons v vs ih =>
    rw [List.forall_mem_cons] at h
    cases vs with
    | nil =>
      rw [itemTokens, List.forall_mem_append, List.forall_mem_singleton]
      exact ⟨h.1, .closeArray⟩
    | cons w vs =>
      rw [itemTokens, List.forall_mem_append, List.forall_mem_cons]
      · exact ⟨h.1, .comma, ih h.2⟩
      · exact List.cons_ne_nil w vs

theorem printable_array {vs : List Json} (h : ∀ v ∈ vs, Printable v) : Printable (.array vs) := by
  refine ⟨itemsWhole_iff.mpr fun v hv => (h v hv).whole, ?_⟩
  rw [tokens, List.forall_mem_cons]
  exact ⟨.openArray, written_itemTokens fun v hv => (h v hv).written⟩

/-- The members of an object whose keys are texts. -/
def named (ms : List (String × Json)) : List (Option String × Json) :=
  ms.map fun (key, v) => (some key, v)

theorem written_memberTokens {ms : List (String × Json)}
    (h : ∀ m ∈ ms, ∀ t ∈ m.2.tokens, t.Written t.chars) :
    ∀ t ∈ memberTokens (named ms), t.Written t.chars := by
  induction ms with
  | nil =>
    show ∀ t ∈ [Token.closeObject], t.Written t.chars
    rw [List.forall_mem_singleton]
    exact .closeObject
  | cons m ms ih =>
    obtain ⟨key, v⟩ := m
    rw [List.forall_mem_cons] at h
    have hkey := written_quote key
    cases ms with
    | nil =>
      show ∀ t ∈ .string (some key) :: .colon :: (v.tokens ++ [.closeObject]), t.Written t.chars
      rw [List.forall_mem_cons, List.forall_mem_cons, List.forall_mem_append,
        List.forall_mem_singleton]
      exact ⟨hkey, .colon, h.1, .closeObject⟩
    | cons m ms =>
      show ∀ t ∈ .string (some key) :: .colon ::
        (v.tokens ++ .comma :: memberTokens (named (m :: ms))), t.Written t.chars
      rw [List.forall_mem_cons, List.forall_mem_cons, List.forall_mem_append, List.forall_mem_cons]
      exact ⟨hkey, .colon, h.1, .comma, ih h.2⟩

theorem printable_ofMembers {ms : List (String × Json)} (h : ∀ m ∈ ms, Printable m.2) :
    Printable (.ofMembers ms) := by
  have hwhole : membersWhole (named ms) = true := by
    refine membersWhole_iff.mpr fun m hm => ?_
    obtain ⟨n, hn, rfl⟩ := List.mem_map.mp hm
    exact (h n hn).whole
  refine ⟨?_, ?_⟩
  · show (membersWhole (named ms) && true) = true
    rw [hwhole, Bool.and_self]
  · show ∀ t ∈ .openObject :: memberTokens (named ms), t.Written t.chars
    rw [List.forall_mem_cons]
    exact ⟨.openObject, written_memberTokens fun m hm => (h m hm).written⟩

theorem Printable.spells_compactText {v : Json} (h : Printable v) : Spells v v.compactText := by
  have hspaced := Spaced.flatMap_chars h.written
  rwa [Spells, compactText, String.toList_ofList, compact_eq_flatMap]

theorem Printable.spells_prettyText {v : Json} (h : Printable v) : Spells v v.prettyText := by
  have hspaced := spaced_pretty v 0 h.written (.nil blank_nil)
  rw [List.append_nil, List.append_nil] at hspaced
  rwa [Spells, prettyText, String.toList_ofList]

/-- A printed document is read back, in either layout. -/
theorem Printable.read {v : Json} (h : Printable v) {text : String}
    (htext : text = v.compactText ∨ text = v.prettyText) : Json.read text = ⟨v, true⟩ := by
  rcases htext with rfl | rfl
  · exact h.spells_compactText.read h.whole
  · exact h.spells_prettyText.read h.whole

end FilterQuery.Json
