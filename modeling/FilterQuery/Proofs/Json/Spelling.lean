import FilterQuery.Json.Token
import FilterQuery.Proofs.Json.Denotation

/-!
# The texts of tokens

How JSON spells its tokens: a string may escape any character, by a letter or by its units, and any
white space may stand between tokens. Every text of tokens is scanned to just these tokens.
-/
namespace FilterQuery.Json.Token

/-- Four hexadecimal digits that name a unit. -/
inductive UnitWritten : Nat → List Char → Prop where
  | mk {a b c d : Char} {i j k l : Nat} (first : hexDigit? a = some i)
      (second : hexDigit? b = some j) (third : hexDigit? c = some k)
      (fourth : hexDigit? d = some l) :
      UnitWritten (((i * 16 + j) * 16 + k) * 16 + l) [a, b, c, d]

/-- How a character may stand in a string. -/
inductive CharWritten : Char → List Char → Prop where
  | plain {c : Char} (visible : 0x20 ≤ c.toNat) (quote : c ≠ '"') (backslash : c ≠ '\\') :
      CharWritten c [c]
  | letter {c l : Char} (escape : escaped? l = some c) : CharWritten c ['\\', l]
  | unit {u : Nat} {cs : List Char} (digits : UnitWritten u cs) (whole : u < 0xD800 ∨ 0xE000 ≤ u) :
      CharWritten (Char.ofNat u) ('\\' :: 'u' :: cs)
  | pair {u v : Nat} {cs ds : List Char} (first : UnitWritten u cs) (second : UnitWritten v ds)
      (lead : 0xD800 ≤ u ∧ u < 0xDC00) (trail : 0xDC00 ≤ v ∧ v < 0xE000) :
      CharWritten (Char.ofNat (0x10000 + (u - 0xD800) * 0x400 + (v - 0xDC00)))
        ('\\' :: 'u' :: (cs ++ '\\' :: 'u' :: ds))

inductive CharsWritten : List Char → List Char → Prop where
  | nil : CharsWritten [] []
  | cons {c : Char} {cs text rest : List Char} (head : CharWritten c text)
      (tail : CharsWritten cs rest) : CharsWritten (c :: cs) (text ++ rest)

/-- A token and a text of it. -/
inductive Written : Token → List Char → Prop where
  | openArray : Written openArray ['[']
  | closeArray : Written closeArray [']']
  | openObject : Written openObject ['\x7b']
  | closeObject : Written closeObject ['\x7d']
  | comma : Written comma [',']
  | colon : Written colon [':']
  | null : Written null ['n', 'u', 'l', 'l']
  | yes : Written (bool true) ['t', 'r', 'u', 'e']
  | no : Written (bool false) ['f', 'a', 'l', 's', 'e']
  | number {n : Numeral} {x : Number} {cs : List Char} (numeral : n.Written cs)
      (means : n.Denotes x) : Written (number x) cs
  | string {s : String} {cs : List Char} (chars : CharsWritten s.toList cs) :
      Written (string (some s)) ('"' :: (cs ++ ['"']))

def Blank (cs : List Char) : Prop := ∀ c ∈ cs, isSpace c = true

/-- Tokens one after the other, with white space before each of them and at the end. -/
inductive Spaced : List Token → List Char → Prop where
  | nil {blank : List Char} (space : Blank blank) : Spaced [] blank
  | cons {t : Token} {ts : List Token} {blank text rest : List Char} (space : Blank blank)
      (token : Written t text) (tail : Spaced ts rest) : Spaced (t :: ts) (blank ++ (text ++ rest))

theorem scanString_unit {u : Nat} {cs : List Char} (h : UnitWritten u cs) (rest : List Char) :
    scanString ('\\' :: 'u' :: (cs ++ rest)) =
      (scanString rest).map fun (pieces, rest) => (Piece.ofUnit u :: pieces, rest) := by
  obtain ⟨ha, hb, hc, hd⟩ := h
  simp only [List.cons_append, List.nil_append, scanString, ha, hb, hc, hd]
  cases scanString rest <;> rfl

/-- The pieces that a character is scanned to, and that join to it. -/
theorem CharWritten.scan {c : Char} {text : List Char} (h : CharWritten c text) :
    ∃ pieces, (∀ rest, scanString (text ++ rest) =
        (scanString rest).map fun (more, rest) => (pieces ++ more, rest)) ∧
      ∀ more, Piece.join (pieces ++ more) = (Piece.join more).map (c :: ·) := by
  cases h with
  | plain visible quote backslash =>
    have hvisible : ¬ c.toNat < 0x20 := by omega
    refine ⟨[.char c], fun rest => ?_, fun more => rfl⟩
    simp [scanString, backslash, hvisible]
  | @letter _ l escape =>
    have hu : l ≠ 'u' := by rintro rfl; cases escape
    refine ⟨[.char c], fun rest => ?_, fun more => rfl⟩
    have hscan : scanString ('\\' :: l :: rest) = (do
        let c ← escaped? l
        let (pieces, rest) ← scanString rest
        pure (Piece.char c :: pieces, rest)) := by
      rw [scanString]
      intro a b c d tail hl
      exact absurd hl hu
    rw [List.cons_append, List.cons_append, List.nil_append, hscan, escape]
    cases scanString rest <;> rfl
  | @unit u cs digits whole =>
    have hpiece : Piece.ofUnit u = .char (Char.ofNat u) := by
      have hhalf : (decide (0xD800 ≤ u) && decide (u < 0xE000)) = false := by
        rw [Bool.and_eq_false_iff, decide_eq_false_iff_not, decide_eq_false_iff_not]
        omega
      simp only [Piece.ofUnit, hhalf]
      rfl
    refine ⟨[Piece.ofUnit u], fun rest => ?_, fun more => ?_⟩
    · exact scanString_unit digits rest
    · rw [hpiece]
      rfl
  | @pair u v cs ds first second lead trail =>
    have hhalf : ∀ w, 0xD800 ≤ w ∧ w < 0xE000 → Piece.ofUnit w = .half w := by
      intro w hw
      simp [Piece.ofUnit, hw.1, hw.2]
    refine ⟨[Piece.ofUnit u, Piece.ofUnit v], fun rest => ?_, fun more => ?_⟩
    · rw [List.cons_append, List.cons_append, List.append_assoc, scanString_unit first,
        List.cons_append, List.cons_append, scanString_unit second]
      cases scanString rest <;> rfl
    · rw [hhalf u (by omega), hhalf v (by omega)]
      simp [Piece.join, lead.2, trail.1]

theorem CharsWritten.scan {cs text : List Char} (h : CharsWritten cs text) (rest : List Char) :
    ∃ pieces, scanString (text ++ '"' :: rest) = some (pieces, rest) ∧
      Piece.join pieces = some cs := by
  induction h with
  | nil => exact ⟨[], rfl, rfl⟩
  | @cons c cs text tail head _ ih =>
    obtain ⟨first, hfirst, hjoin⟩ := head.scan
    obtain ⟨pieces, hpieces, hcs⟩ := ih
    refine ⟨first ++ pieces, ?_, ?_⟩
    · rw [List.append_assoc, hfirst, hpieces]
      rfl
    · rw [hjoin, hcs]
      rfl

/-- Digits and signs have no other token than a numeral. -/
theorem next_numeral {c : Char} (h : c.isDigit = true ∨ c = '-') (rest : List Char) :
    next c rest = (Numeral.scan (c :: rest)).map fun (n, rest) => (number n.value, rest) := by
  unfold next
  split <;> first | rfl | (rcases h with h | h <;> simp at h)

theorem Numeral.Written.head {n : Numeral} {cs : List Char} (h : n.Written cs) :
    ∃ c rest, cs = c :: rest ∧ (c.isDigit = true ∨ c = '-') := by
  obtain ⟨signed, digits, _, _⟩ := h
  cases signed with
  | minus => exact ⟨'-', _, rfl, Or.inr rfl⟩
  | plus =>
    obtain ⟨d, ds, rfl⟩ := List.exists_cons_of_ne_nil digits.ne_nil
    exact ⟨d, _, rfl, Or.inl (digits.isDigit d List.mem_cons_self)⟩

def isNumber : Token → Bool
  | number _ => true
  | _ => false

/-- A token is read from its text, a number only if nothing after it goes on with it. -/
theorem Written.next {t : Token} {text rest : List Char} (h : Written t text)
    (hrest : t.isNumber = true → Numeral.Ends rest) :
    ∃ c body, text = c :: body ∧ isSpace c = false ∧ next c (body ++ rest) = some (t, rest) := by
  cases h with
  | number numeral means =>
    obtain ⟨c, body, rfl, hc⟩ := Numeral.Written.head numeral
    refine ⟨c, body, rfl, ?_, ?_⟩
    · rcases hc with hc | rfl
      · rw [isSpace]
        rcases Decidable.em (isSpace c = true) with hs | hs
        · simp only [isSpace, Bool.or_eq_true, decide_eq_true_eq] at hs
          rcases hs with ((rfl | rfl) | rfl) | rfl <;> cases hc
        · simpa [isSpace] using hs
      · rfl
    · have hscan := numeral.scan_append (hrest rfl)
      rw [next_numeral hc, ← List.cons_append, hscan, ← means.value_eq]
      rfl
  | @string s cs chars =>
    obtain ⟨pieces, hpieces, hjoin⟩ := chars.scan rest
    refine ⟨'"', cs ++ ['"'], rfl, rfl, ?_⟩
    have hscan : scanString ((cs ++ ['"']) ++ rest) = some (pieces, rest) := by
      rw [List.append_assoc]
      exact hpieces
    show (scanString ((cs ++ ['"']) ++ rest)).map _ = _
    rw [hscan]
    simp [hjoin]
  | _ => exact ⟨_, _, rfl, rfl, rfl⟩

/-- No number stands right before another one. -/
def Apart : List Token → Prop
  | number _ :: number _ :: _ => False
  | _ :: rest => Apart rest
  | [] => True

theorem Apart.tail {t : Token} {ts : List Token} (h : Apart (t :: ts)) : Apart ts := by
  cases ts with
  | nil => trivial
  | cons u ts =>
    cases t with
    | number n =>
      cases u with
      | number m => exact h.elim
      | _ => exact h
    | _ => exact h

theorem Apart.head {t : Token} {ts : List Token} (h : Apart (t :: ts)) (ht : t.isNumber = true) :
    ∀ u ∈ ts.head?, u.isNumber = false := by
  intro u hu
  cases ts with
  | nil => cases hu
  | cons v ts =>
    obtain rfl : v = u := by simpa using hu
    cases t with
    | number n =>
      cases v with
      | number m => exact h.elim
      | _ => rfl
    | _ => cases ht

theorem isSpace_ends {c : Char} (h : isSpace c = true) :
    c.isDigit = false ∧ c ≠ '.' ∧ c ≠ 'e' ∧ c ≠ 'E' := by
  simp only [isSpace, Bool.or_eq_true, decide_eq_true_eq] at h
  rcases h with ((rfl | rfl) | rfl) | rfl <;> decide

/-- What is not a number does not go on with one. -/
theorem Spaced.ends {ts : List Token} {text : List Char} (h : Spaced ts text)
    (hfirst : ∀ t ∈ ts.head?, t.isNumber = false) : Numeral.Ends text := by
  intro c hc
  cases h with
  | nil space => exact isSpace_ends (space c (List.mem_of_mem_head? hc))
  | @cons t ts blank text rest space token tail =>
    cases blank with
    | cons b blank =>
      obtain rfl : b = c := by simpa using hc
      exact isSpace_ends (space b List.mem_cons_self)
    | nil =>
      have ht := hfirst t rfl
      cases token with
      | number numeral => cases ht
      | _ =>
        simp only [List.nil_append, List.cons_append, List.head?_cons, Option.mem_some_iff] at hc
        subst hc
        decide

theorem scan_blank {blank : List Char} (h : Blank blank) {fuel : Nat} {cs : List Char}
    (hfuel : (blank ++ cs).length ≤ fuel) :
    ∃ left, cs.length ≤ left ∧ scan fuel (blank ++ cs) = scan left cs := by
  induction blank generalizing fuel with
  | nil => exact ⟨fuel, hfuel, rfl⟩
  | cons b blank ih =>
    obtain ⟨fuel, rfl⟩ : ∃ k, fuel = k + 1 := Nat.exists_eq_add_one.mpr (by simp at hfuel; omega)
    have hb := h b List.mem_cons_self
    obtain ⟨left, hleft, hscan⟩ := ih (fun c hc => h c (List.mem_cons_of_mem _ hc))
      (Nat.le_of_succ_le_succ hfuel)
    refine ⟨left, hleft, ?_⟩
    rw [List.cons_append, scan, if_pos hb, hscan]

/-- A text of tokens is scanned to these tokens. -/
theorem Spaced.scan {ts : List Token} {text : List Char} (h : Spaced ts text) (hapart : Apart ts)
    {fuel : Nat} (hfuel : text.length ≤ fuel) : Token.scan fuel text = ts := by
  induction h generalizing fuel with
  | @nil blank space =>
    have hblank : (blank ++ []).length ≤ fuel := by simpa using hfuel
    obtain ⟨left, _, hscan⟩ := scan_blank space hblank
    rw [List.append_nil] at hscan
    rw [hscan]
    cases left <;> rfl
  | @cons t ts blank text rest space token tail ih =>
    obtain ⟨left, hleft, hscan⟩ := scan_blank space hfuel
    have hends : t.isNumber = true → Numeral.Ends rest := fun ht => tail.ends (hapart.head ht)
    obtain ⟨c, body, rfl, hspace, hnext⟩ := token.next hends
    obtain ⟨left, rfl⟩ : ∃ k, left = k + 1 := Nat.exists_eq_add_one.mpr (by simp at hleft; omega)
    have hrest : rest.length ≤ left := by simp at hleft; omega
    have hstep : Token.scan (left + 1) (c :: (body ++ rest)) = t :: Token.scan left rest := by
      simp [Token.scan, hspace, hnext]
    rw [hscan, List.cons_append, hstep, ih hapart.tail hrest]

end FilterQuery.Json.Token
