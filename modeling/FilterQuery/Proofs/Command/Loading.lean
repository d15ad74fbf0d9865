import FilterQuery.Command.Run
import FilterQuery.Proofs.Command.Overlay

/-!
# Loading files

A file is a text if its bytes are those of one. The variables of a run are those of the process,
overlaid with the environment file that the flags name, and loading either gives them or says what
is wrong with the file.
-/
namespace FilterQuery.Command

/-- The bytes of the file are those of the text. -/
def Holds (file : Except ReadFailure ByteArray) (content : String) : Prop :=
  file = .ok content.toUTF8

/-- Why a file holds no text. -/
inductive Unreadable (file : Except ReadFailure ByteArray) : ReadFailure → Prop where
  | failed {cause : ReadFailure} (failed : file = .error cause) : Unreadable file cause
  | notText {bytes : ByteArray} (read : file = .ok bytes)
      (foreign : ∀ content : String, bytes ≠ content.toUTF8) : Unreadable file .notText

theorem fromUTF8?_eq_some_iff {bytes : ByteArray} {content : String} :
    String.fromUTF8? bytes = some content ↔ bytes = content.toUTF8 := by
  constructor
  · intro h
    rw [String.fromUTF8?] at h
    split at h
    · cases h
      rfl
    · cases h
  · rintro rfl
    exact dif_pos content.isValidUTF8

theorem fromUTF8?_eq_none_iff {bytes : ByteArray} :
    String.fromUTF8? bytes = none ↔ ∀ content : String, bytes ≠ content.toUTF8 := by
  simp only [Option.eq_none_iff_forall_ne_some, ne_eq, fromUTF8?_eq_some_iff]

theorem textOfBytes_eq_ok_iff {file : Except ReadFailure ByteArray} {content : String} :
    textOfBytes file = .ok content ↔ Holds file content := by
  cases file with
  | error cause => exact iff_of_false (fun h => by cases h) (fun h => by cases h)
  | ok bytes =>
    rw [Holds, Except.ok.injEq, ← fromUTF8?_eq_some_iff]
    simp only [textOfBytes, bind, Except.bind]
    cases String.fromUTF8? bytes <;> simp

theorem textOfBytes_eq_error_iff {file : Except ReadFailure ByteArray} {cause : ReadFailure} :
    textOfBytes file = .error cause ↔ Unreadable file cause := by
  cases file with
  | error cause' =>
    constructor
    · intro h
      cases h
      exact .failed rfl
    · rintro (⟨⟨⟩⟩ | ⟨⟨⟩, _⟩)
      rfl
  | ok bytes =>
    constructor
    · intro h
      cases hbytes : String.fromUTF8? bytes with
      | none =>
        simp only [textOfBytes, bind, Except.bind, hbytes] at h
        cases h
        exact .notText rfl (fromUTF8?_eq_none_iff.mp hbytes)
      | some content =>
        simp only [textOfBytes, bind, Except.bind, hbytes] at h
        cases h
    · rintro (⟨⟨⟩⟩ | ⟨⟨⟩, hforeign⟩)
      simp only [textOfBytes, bind, Except.bind, fromUTF8?_eq_none_iff.mpr hforeign]

/-- Why a line is refused, with its number. -/
inductive LineFault (line : List Char) (number : Nat) : ConfigFault → Prop where
  | noAssignment (tells : EnvLine.Tells line .noAssignment) :
      LineFault line number (.noAssignment number)
  | emptyKey (tells : EnvLine.Tells line .emptyKey) : LineFault line number (.emptyKey number)

/-- A file is refused for its first line that is not well formed, which is counted from one. -/
inductive Refused (lines : List (List Char)) (cause : ConfigFault) : Prop where
  | first {before after : List (List Char)} {line : List Char}
      (place : lines = before ++ line :: after) (wellFormed : ∀ l ∈ before, EnvLine.WellFormed l)
      (fault : LineFault line (before.length + 1) cause)

/-- Why the variables cannot be loaded. -/
inductive LoadingFault (flags : Flags) (files : Files) : ConfigFault → Prop where
  | unreadable {path : String} {cause : ReadFailure} (named : flags.envFile = some path)
      (unreadable : Unreadable (files path) cause) :
      LoadingFault flags files (.unreadable path cause)
  | refused {path content : String} {cause : ConfigFault} (named : flags.envFile = some path)
      (holds : Holds (files path) content) (refused : Refused (Text.lines content) cause) :
      LoadingFault flags files cause

/-- The variables that a run works with: those of the process, overlaid with the file that the flags
name if they name one. -/
inductive Loads (flags : Flags) (env : Environment) (files : Files) : Environment → Prop where
  | unnamed (unnamed : flags.envFile = none) : Loads flags env files env
  | overlaid {path content : String} (named : flags.envFile = some path)
      (holds : Holds (files path) content)
      (wellFormed : ∀ line ∈ Text.lines content, EnvLine.WellFormed line) :
      Loads flags env files (env.afterLines (Text.lines content))

theorem LineFault.applyLines_eq {line : List Char} {number : Nat} {cause : ConfigFault}
    (h : LineFault line number cause) (env : Environment) (rest : List (List Char)) :
    env.applyLines number (line :: rest) = (env, some cause) := by
  cases h with
  | noAssignment htells => simp only [Environment.applyLines, htells.ofChars_eq]
  | emptyKey htells => simp only [Environment.applyLines, htells.ofChars_eq]

theorem Refused.exists_overlay_eq {content : String} {cause : ConfigFault}
    (h : Refused (Text.lines content) cause) (env : Environment) :
    ∃ env', env.overlay content = (env', some cause) := by
  obtain ⟨hplace, hbefore, hfault⟩ := h
  rw [Nat.add_comm] at hfault
  have hread : env.overlay content = env.applyLines 1 (Text.lines content) := rfl
  rw [hread, hplace, Environment.applyLines_append env 1 hbefore, hfault.applyLines_eq]
  exact ⟨_, rfl⟩

theorem overlay_of_wellFormed {content : String}
    (h : ∀ line ∈ Text.lines content, EnvLine.WellFormed line) (env : Environment) :
    env.overlay content = (env.afterLines (Text.lines content), none) :=
  Environment.applyLines_of_wellFormed env 1 h

theorem wellFormed_or_refused (lines : List (List Char)) :
    (∀ line ∈ lines, EnvLine.WellFormed line) ∨ ∃ cause, Refused lines cause := by
  by_cases h : ∀ line ∈ lines, EnvLine.WellFormed line
  · exact .inl h
  · obtain ⟨before, line, after, hplace, hbefore, hline⟩ := Environment.exists_first_refused h
    have htells := EnvLine.tells_ofChars line
    rw [EnvLine.wellFormed_iff] at hline
    cases hread : EnvLine.ofChars line with
    | nothing => simp [hread] at hline
    | assignment key value => simp [hread] at hline
    | noAssignment => exact .inr ⟨_, .first hplace hbefore (.noAssignment (hread ▸ htells))⟩
    | emptyKey => exact .inr ⟨_, .first hplace hbefore (.emptyKey (hread ▸ htells))⟩

theorem Loads.loadEnvironment_eq {flags : Flags} {env env' : Environment} {files : Files}
    (h : Loads flags env files env') : loadEnvironment flags env files = .ok env' := by
  cases h with
  | unnamed hunnamed => rw [loadEnvironment, hunnamed]
  | overlaid hnamed hholds hwellFormed =>
    simp only [loadEnvironment, hnamed, textOfBytes_eq_ok_iff.mpr hholds, Environment.overlayFile,
      overlay_of_wellFormed hwellFormed]

theorem LoadingFault.loadEnvironment_eq {flags : Flags} {files : Files} {cause : ConfigFault}
    (h : LoadingFault flags files cause) (env : Environment) :
    loadEnvironment flags env files = .error (.config cause) := by
  cases h with
  | unreadable hnamed hunreadable =>
    simp only [loadEnvironment, hnamed, textOfBytes_eq_error_iff.mpr hunreadable,
      Environment.overlayFile]
  | refused hnamed hholds hrefused =>
    obtain ⟨env', hoverlay⟩ := hrefused.exists_overlay_eq env
    simp only [loadEnvironment, hnamed, textOfBytes_eq_ok_iff.mpr hholds, Environment.overlayFile,
      hoverlay]

theorem loads_or_loadingFault (flags : Flags) (env : Environment) (files : Files) :
    (∃ env', Loads flags env files env') ∨ ∃ cause, LoadingFault flags files cause := by
  cases hnamed : flags.envFile with
  | none => exact .inl ⟨env, .unnamed hnamed⟩
  | some path =>
    cases hread : textOfBytes (files path) with
    | error cause => exact .inr ⟨_, .unreadable hnamed (textOfBytes_eq_error_iff.mp hread)⟩
    | ok content =>
      have hholds := textOfBytes_eq_ok_iff.mp hread
      rcases wellFormed_or_refused (Text.lines content) with hwellFormed | ⟨cause, hrefused⟩
      · exact .inl ⟨_, .overlaid hnamed hholds hwellFormed⟩
      · exact .inr ⟨cause, .refused hnamed hholds hrefused⟩

end FilterQuery.Command
