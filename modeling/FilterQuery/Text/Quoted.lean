import FilterQuery.Text.Visible

/-!
# Quoting

Two ways of writing a text between quotes: doubling the quote that stands inside, for SQL names and
literals, and escaping by backslash, for the texts that a decoding error shows.
-/
namespace FilterQuery.Text

/-- The text with every `quote` written twice. -/
def double (quote : Char) : List Char → List Char
  | [] => []
  | c :: rest => if c = quote then quote :: quote :: double quote rest else c :: double quote rest

/-- The text between quotes, quotes inside written twice. -/
def enclose (quote : Char) (cs : List Char) : List Char :=
  quote :: (double quote cs ++ [quote])

/-- The closing quote is recognised by what follows it, so the text between the quotes can be read
back. -/
theorem double_append_inj {q : Char} {a b r s : List Char} (hr : r.head? ≠ some q)
    (hs : s.head? ≠ some q) (h : double q a ++ q :: r = double q b ++ q :: s) :
    a = b ∧ r = s := by
  induction a generalizing b with
  | nil =>
    cases b with
    | nil => simpa [double] using h
    | cons d ds =>
      by_cases hd : d = q
      · simp only [double, hd, if_true, List.nil_append, List.cons_append, List.cons.injEq] at h
        rw [h.2] at hr
        simp at hr
      · simp [double, hd, Ne.symm hd] at h
  | cons c cs ih =>
    cases b with
    | nil =>
      by_cases hc : c = q
      · simp only [double, hc, if_true, List.nil_append, List.cons_append, List.cons.injEq] at h
        rw [← h.2] at hs
        simp at hs
      · simp [double, hc] at h
    | cons d ds =>
      by_cases hc : c = q <;> by_cases hd : d = q
      · simp only [double, hc, hd, if_true, List.cons_append, List.cons.injEq, true_and] at h
        obtain ⟨hcs, hrest⟩ := ih h
        exact ⟨by rw [hc, hd, hcs], hrest⟩
      · simp only [double, hc, hd, if_true, if_false, List.cons_append, List.cons.injEq] at h
        exact absurd h.1.symm hd
      · simp only [double, hc, hd, if_true, if_false, List.cons_append, List.cons.injEq] at h
        exact h.1.elim
      · simp only [double, hc, hd, if_false, List.cons_append, List.cons.injEq] at h
        obtain ⟨hcs, hrest⟩ := ih h.2
        exact ⟨by rw [h.1, hcs], hrest⟩

/-- Between double quotes: a backslash stands before quotes and backslashes, NUL, tab and the line
ends have letters, and what does not show on its own is given by its code point. -/
def showQuoted (s : String) : String :=
  "\"" ++ String.join (s.toList.map escape) ++ "\""
where
  /-- How one character is written inside. -/
  escape (c : Char) : String :=
    if c = '"' then "\\\""
    else if c = '\\' then "\\\\"
    else if c = '\x00' then "\\0"
    else if c = '\t' then "\\t"
    else if c = '\n' then "\\n"
    else if c = '\r' then "\\r"
    else if isVisible c then String.singleton c
    else "\\u\x7b" ++ String.ofList (Nat.toDigits 16 c.toNat) ++ "\x7d"

end FilterQuery.Text
