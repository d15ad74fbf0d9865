import FilterQuery.Proofs.Command.Line
import FilterQuery.Proofs.Text.Lines

/-!
# Overlaying an environment with a file

The lines of a file are applied in order, each to what the lines before it left. Main statement: a
file without a refused line gives each key that it assigns the value of the last assignment, and a
refused line ends the reading with its number, as if the file had ended before it.
-/
namespace FilterQuery.Command

namespace EnvLine

/-- A line that is blank, a comment or an assignment. -/
def WellFormed (line : List Char) : Prop :=
  Tells line nothing ∨ ∃ key value, Tells line (.assignment key value)

theorem wellFormed_iff {line : List Char} :
    WellFormed line ↔ ofChars line ≠ noAssignment ∧ ofChars line ≠ emptyKey := by
  simp only [WellFormed, ← ofChars_eq_iff]
  cases ofChars line <;> simp

instance (line : List Char) : Decidable (WellFormed line) := decidable_of_iff' _ wellFormed_iff

/-- None of the lines assigns the key. -/
def Unassigned (lines : List (List Char)) (key : String) : Prop :=
  ∀ line ∈ lines, ∀ value, ¬ Tells line (.assignment key value)

/-- A line assigns the value to the key, and no line after it assigns the key. -/
def LastAssigns (lines : List (List Char)) (key value : String) : Prop :=
  ∃ before line after, lines = before ++ line :: after ∧ Tells line (.assignment key value) ∧
    Unassigned after key

/-- The message on a line that is refused, with the number of the line. -/
inductive Refusal (line : List Char) (number : Nat) : String → Prop where
  | malformed (tells : Tells line noAssignment) : Refusal line number
      ("Invalid env file: malformed line " ++ toString number ++ " (expected KEY=VALUE)")
  | emptyKey (tells : Tells line emptyKey) : Refusal line number
      ("Invalid env file: empty key at line " ++ toString number)

end EnvLine

open EnvLine

namespace Environment

/-- What the lines of a file make of an environment. -/
structure Overlaid (env : Environment) (lines : List (List Char)) (env' : Environment) : Prop where
  assigned : ∀ {key value}, LastAssigns lines key value → env'.value? key = some value
  blank : ∀ {key value}, LastAssigns lines key value → Text.Blank value.toList →
    env'.get? key = none
  others : ∀ {key}, Unassigned lines key → env'.value? key = env.value? key

/-- The environment after what a line says. -/
def after (env : Environment) : EnvLine → Environment
  | .assignment key value => env.set key value
  | .nothing | .noAssignment | .emptyKey => env

def afterLines (env : Environment) (lines : List (List Char)) : Environment :=
  lines.foldl (fun env line => env.after (ofChars line)) env

theorem applyLines_cons (env : Environment) (number : Nat) {line : List Char}
    (h : WellFormed line) (rest : List (List Char)) :
    env.applyLines number (line :: rest) =
      (env.after (ofChars line)).applyLines (number + 1) rest := by
  rcases h with h | ⟨key, value, h⟩
  · simp only [applyLines, h.ofChars_eq, after]
  · simp only [applyLines, h.ofChars_eq, after]

/-- Well-formed lines are all applied, whatever stands after them. -/
theorem applyLines_append (env : Environment) (number : Nat) {before : List (List Char)}
    (h : ∀ line ∈ before, WellFormed line) (rest : List (List Char)) :
    env.applyLines number (before ++ rest) =
      (env.afterLines before).applyLines (number + before.length) rest := by
  induction before generalizing env number with
  | nil => rfl
  | cons line before ih =>
    rw [List.forall_mem_cons] at h
    rw [List.cons_append, applyLines_cons env number h.1, ih _ _ h.2, List.length_cons,
      Nat.add_assoc, Nat.add_comm 1]
    rfl

theorem applyLines_of_wellFormed (env : Environment) (number : Nat) {lines : List (List Char)}
    (h : ∀ line ∈ lines, WellFormed line) :
    env.applyLines number lines = (env.afterLines lines, none) := by
  have hall := applyLines_append env number h []
  rwa [List.append_nil] at hall

/-- A line that is not well formed is refused, and nothing after it counts. -/
theorem applyLines_refused (env : Environment) (number : Nat) {line : List Char}
    (h : ¬ WellFormed line) (rest : List (List Char)) :
    ∃ fault, Refusal line number fault.message ∧
      env.applyLines number (line :: rest) = (env, some fault) := by
  have htells := tells_ofChars line
  cases hline : ofChars line with
  | nothing =>
    rw [hline] at htells
    exact absurd (.inl htells) h
  | assignment key value =>
    rw [hline] at htells
    exact absurd (.inr ⟨key, value, htells⟩) h
  | noAssignment =>
    rw [hline] at htells
    exact ⟨.noAssignment number, .malformed htells, by simp only [applyLines, hline]⟩
  | emptyKey =>
    rw [hline] at htells
    exact ⟨.emptyKey number, .emptyKey htells, by simp only [applyLines, hline]⟩

theorem value?_after_self (env : Environment) {line : List Char} {key value : String}
    (h : Tells line (.assignment key value)) :
    (env.after (ofChars line)).value? key = some value := by
  rw [h.ofChars_eq, after, value?_set_self]

theorem value?_after_of_not (env : Environment) {line : List Char} {key : String}
    (h : ∀ value, ¬ Tells line (.assignment key value)) :
    (env.after (ofChars line)).value? key = env.value? key := by
  cases hline : ofChars line with
  | assignment other value =>
    have hne : key ≠ other := by
      rintro rfl
      exact h value (ofChars_eq_iff.mp hline)
    rw [after, value?_set_of_ne hne]
  | nothing | noAssignment | emptyKey => rfl

theorem value?_afterLines_of_unassigned (env : Environment) {lines : List (List Char)}
    {key : String} (h : Unassigned lines key) :
    (env.afterLines lines).value? key = env.value? key := by
  induction lines generalizing env with
  | nil => rfl
  | cons line lines ih =>
    obtain ⟨hline, hlines⟩ := List.forall_mem_cons.mp h
    have hrest := ih (env.after (ofChars line)) hlines
    rw [value?_after_of_not env hline] at hrest
    exact hrest

theorem value?_afterLines_of_lastAssigns (env : Environment) {lines : List (List Char)}
    {key value : String} (h : LastAssigns lines key value) :
    (env.afterLines lines).value? key = some value := by
  obtain ⟨before, line, rest, rfl, hline, hrest⟩ := h
  rw [afterLines, List.foldl_append, List.foldl_cons]
  exact (value?_afterLines_of_unassigned _ hrest).trans (value?_after_self _ hline)

theorem get?_of_blank {env : Environment} {key value : String}
    (h : env.value? key = some value) (hblank : Text.Blank value.toList) :
    env.get? key = none := by
  rw [get?, h, Option.filter_some, Text.allBlank_iff.mpr hblank]
  rfl

theorem overlaid_afterLines (env : Environment) (lines : List (List Char)) :
    Overlaid env lines (env.afterLines lines) where
  assigned h := value?_afterLines_of_lastAssigns env h
  blank h hblank := get?_of_blank (value?_afterLines_of_lastAssigns env h) hblank
  others h := value?_afterLines_of_unassigned env h

/-- Without the lines from a certain one on, a file is read as its other lines are. -/
theorem overlay_intercalate (env : Environment) {lines : List (List Char)}
    (hlines : ∀ line ∈ lines, '\n' ∉ line) (h : ∀ line ∈ lines, WellFormed line) :
    env.overlay (String.ofList (['\n'].intercalate lines)) = (env.afterLines lines, none) := by
  rw [overlay, String.toList_ofList]
  cases lines with
  | nil => rfl
  | cons line lines =>
    rw [List.splitOn_intercalate '\n' hlines (List.cons_ne_nil _ _),
      applyLines_of_wellFormed env 1 h]

/-- A file is read up to its first line that is not well formed. -/
theorem exists_first_refused {lines : List (List Char)} (h : ¬ ∀ line ∈ lines, WellFormed line) :
    ∃ before line rest, lines = before ++ line :: rest ∧ (∀ l ∈ before, WellFormed l) ∧
      ¬ WellFormed line := by
  induction lines with
  | nil => exact absurd (fun line hline => absurd hline List.not_mem_nil) h
  | cons line lines ih =>
    by_cases hline : WellFormed line
    · have hrest : ¬ ∀ l ∈ lines, WellFormed l :=
        fun hall => h (List.forall_mem_cons.mpr ⟨hline, hall⟩)
      obtain ⟨before, refused, rest, rfl, hbefore, hrefused⟩ := ih hrest
      exact ⟨line :: before, refused, rest, rfl, List.forall_mem_cons.mpr ⟨hline, hbefore⟩,
        hrefused⟩
    · exact ⟨[], line, lines, rfl, fun l hl => absurd hl List.not_mem_nil, hline⟩

/-- A file of well-formed lines is an overlay in which the last assignment of a key counts. Any
other file is refused at its first line that is not well formed, by the number of that line among
all lines, and leaves the environment that the lines before it make. -/
theorem overlay_settled (env : Environment) (content : String) :
    let lines := content.toList.splitOn '\n'
    ((∀ line ∈ lines, WellFormed line) →
      (env.overlay content).2 = none ∧ Overlaid env lines (env.overlay content).1) ∧
    ((¬ ∀ line ∈ lines, WellFormed line) →
      ∃ before line rest message, lines = before ++ line :: rest ∧
        (∀ l ∈ before, WellFormed l) ∧ ¬ WellFormed line ∧
        Refusal line (before.length + 1) message ∧
        (env.overlay content).2.map ConfigFault.message = some message ∧
        (env.overlay content).1 =
          (env.overlay (String.ofList (['\n'].intercalate before))).1) := by
  intro lines
  have hread : env.overlay content = env.applyLines 1 lines := rfl
  constructor
  · intro h
    rw [hread, applyLines_of_wellFormed env 1 h]
    exact ⟨rfl, overlaid_afterLines env lines⟩
  · intro h
    obtain ⟨before, line, rest, hlines, hbefore, hline⟩ := exists_first_refused h
    have hbreak : ∀ l ∈ before, '\n' ∉ l := by
      intro l hl
      have hmem : l ∈ content.toList.splitOn '\n' := by
        show l ∈ lines
        rw [hlines]
        exact List.mem_append_left _ hl
      exact Text.not_mem_of_mem_splitOn hmem
    obtain ⟨fault, hrefusal, hstop⟩ :=
      applyLines_refused (env.afterLines before) (1 + before.length) hline rest
    rw [Nat.add_comm] at hrefusal
    refine ⟨before, line, rest, fault.message, hlines, hbefore, hline, hrefusal, ?_, ?_⟩
    · rw [hread, hlines, applyLines_append env 1 hbefore, hstop]
      rfl
    · rw [hread, hlines, applyLines_append env 1 hbefore, hstop,
        overlay_intercalate env hbreak hbefore]

/-- One file sets a variable twice and another to a blank; the other file has a line without a key
after a blank line. -/
theorem overlay_settled_mixed :
    let env : Environment := ⟨[("B", "x")]⟩
    let settled := "A=1\n# A=3\nexport A = '2'\nB=\"  \"\r\n"
    let refused := "A=1\n\nexport =3\nA=4"
    (∀ line ∈ settled.toList.splitOn '\n', WellFormed line) ∧
      Overlaid env (settled.toList.splitOn '\n') (env.overlay settled).1 ∧
      (env.overlay settled).1.value? "A" = some "2" ∧ (env.overlay settled).1.get? "B" = none ∧
      (¬ ∀ line ∈ refused.toList.splitOn '\n', WellFormed line) ∧
      (∃ message, (env.overlay refused).2.map ConfigFault.message = some message ∧
        message = "Invalid env file: empty key at line 3") ∧
      (env.overlay refused).1.value? "A" = some "1" := by
  intro env settled refused
  have hsettled : ∀ line ∈ settled.toList.splitOn '\n', WellFormed line := by decide +kernel
  have hrefused : ¬ ∀ line ∈ refused.toList.splitOn '\n', WellFormed line := by decide +kernel
  have hoverlaid := ((overlay_settled env settled).1 hsettled).2
  obtain ⟨_, _, _, message, _, _, _, _, hmessage, _⟩ :=
    (overlay_settled env refused).2 hrefused
  refine ⟨hsettled, hoverlaid, by decide +kernel, by decide +kernel, hrefused,
    ⟨message, hmessage, ?_⟩, by decide +kernel⟩
  have heval : (env.overlay refused).2.map ConfigFault.message =
      some "Invalid env file: empty key at line 3" := by decide +kernel
  exact Option.some.inj (hmessage.symm.trans heval)

end Environment

end FilterQuery.Command
