import FilterQuery.Command.Failure
import FilterQuery.Proofs.Decode.Answers

/-!
# The fault that is reported

A text is refused for the first fault of the tree that it outlines, in whichever order the members
of its objects stand. Only where containers are nested too deeply is it malformed instead.
-/
namespace FilterQuery

namespace Decode

open Grammar

/-- A text that outlines a tree with faults is refused for the first of them, in whichever order the
members of its objects stand. Where it is nested too deeply, it may be malformed before that. -/
theorem ofText_spec_first_fault {room : Nat} {v : Json} {o : Outline} {text : String}
    (htext : Json.Spells v text) (hv : OutlinedSpec room v (some o)) {f : Condition.Fault}
    (hf : o.faults.head? = some f) :
    (room ≤ nesting → ofText spec text = .error (.mismatch (.fault f))) ∧
      (ofText spec text = .error (.mismatch (.fault f)) ∨ ofText spec text = .error .malformed) ∧
      Command.specTextMessage (.mismatch (.fault f)) =
        "Failed to decode condition spec: " ++ f.message ∧
      ∀ w other, Reordered v w → Json.Spells w other → room ≤ nesting →
        ofText spec other = ofText spec text := by
  have hanswers : ∀ {w other}, OutlinedSpec room w (some o) → Json.Spells w other →
      Answers (room ≤ nesting) o.faults (ofText spec other) := by
    intro w other hw hother
    rw [ofText_eq hother hw.isWhole]
    exact hw.answers
  have hfirst : ∀ {w other}, OutlinedSpec room w (some o) → Json.Spells w other → room ≤ nesting →
      ofText spec other = .error (.mismatch (.fault f)) := by
    intro w other hw hother henough
    exact ((hanswers hw hother).eq_fault_or_malformed hf).resolve_right fun h => h.1 henough
  refine ⟨hfirst hv htext, ?_, rfl, ?_⟩
  · exact ((hanswers hv htext).eq_fault_or_malformed hf).imp_right And.right
  · intro w other hvw hother henough
    rw [hfirst hv htext henough, hfirst (hv.reordered hvw) hother henough]

/-- A node none of whose keys are those of a leaf. -/
theorem nodeKeys_unnamed {room : Nat} {ms : Members} (keyed : (Json.object ms true).Keyed)
    (hoperator : under ["operator"] ms = []) (hfield : under ["field"] ms = [])
    (hvalue : under ["value"] ms = []) (hlogic : under ["logic"] ms = []) :
    NodeKeys room ms none none none :=
  ⟨keyed, .absent hoperator, .absent hfield, .absent hvalue, none, .absent hlogic⟩

/-- A leaf that lacks a value, and after it an empty group. -/
def faultyNodes : Json :=
  .array [.ofMembers [("operator", .text "eq"), ("field", .text "a")],
    .ofMembers [("conditions", .array [])]]

def faulty : Json :=
  .ofMembers [("root", .ofMembers [("children", faultyNodes), ("note", .integer 1)]),
    ("limit", .integer 5)]

/-- The same members backwards. -/
def faultyBackwards : Json :=
  .ofMembers [("limit", .integer 5),
    ("root", .ofMembers [("note", .integer 1), ("children", faultyNodes)])]

def faultyOutline : Outline := .group [.leaf (some .equal) (some "a") none, .group []]

theorem outlined_faulty : OutlinedSpec 5 faulty (some faultyOutline) := by
  have hname : Operator.ofName "eq" = .equal := by decide +kernel
  have hleaf : Outlined 2 (.ofMembers [("operator", .text "eq"), ("field", .text "a")])
      (.leaf (some .equal) (some "a") none) :=
    .leaf ⟨⟨rfl, by decide⟩, .given rfl (hname ▸ .name "eq"), .given rfl (.mk "a"), .absent rfl,
      none, .absent rfl⟩ (.inl rfl)
  have hgroup : Outlined 2 (.ofMembers [("conditions", .array [])]) (.group []) :=
    .group (nodeKeys_unnamed ⟨rfl, by decide⟩ rfl rfl rfl rfl) rfl .nil
  have hroot : Outlined 4 (.ofMembers [("children", faultyNodes), ("note", .integer 1)])
      faultyOutline :=
    .group (nodeKeys_unnamed ⟨rfl, by decide⟩ rfl rfl rfl rfl) rfl
      (.cons hleaf (.cons hgroup .nil))
  exact .mk ⟨rfl, by decide⟩ (.object _) (.given rfl hroot) (.absent rfl) (.absent rfl)
    (.given rfl (.mk 5))

theorem printable_faulty : faulty.Printable ∧ faultyBackwards.Printable := by
  have hone : (Json.integer 1).Printable := Json.printable_integer (by decide) (by decide)
  have hfive : (Json.integer 5).Printable := Json.printable_integer (by decide) (by decide)
  have hnodes : faultyNodes.Printable := by
    refine Json.printable_array ?_
    simp only [List.forall_mem_cons]
    refine ⟨Json.printable_ofMembers ?_, Json.printable_ofMembers ?_, by simp⟩
    · simp [Json.printable_text]
    · simp [Json.printable_array]
  constructor
  · refine Json.printable_ofMembers ?_
    simp only [List.forall_mem_cons]
    exact ⟨Json.printable_ofMembers (by simp [hnodes, hone]), hfive, by simp⟩
  · refine Json.printable_ofMembers ?_
    simp only [List.forall_mem_cons]
    exact ⟨hfive, Json.printable_ofMembers (by simp [hnodes, hone]), by simp⟩

theorem reordered_faulty : Reordered faulty faultyBackwards := by
  have hroot : Reordered (.ofMembers [("children", faultyNodes), ("note", .integer 1)])
      (.ofMembers [("note", .integer 1), ("children", faultyNodes)]) :=
    .object (.cons (.mk _ (.refl _)) (.cons (.mk _ (.refl _)) .nil)) (.swap _ _ _)
  exact .object (.cons (.mk _ hroot) (.cons (.mk _ (.refl _)) .nil)) (.swap _ _ _)

/-- The leaf is the first to have a fault, from whichever end the members are read. -/
theorem ofText_spec_first_fault_faulty :
    OutlinedSpec 5 faulty (some faultyOutline) ∧
      faultyOutline.faults.head? = some (.missingKey "value") ∧
      ofText spec faulty.prettyText = .error (.mismatch (.fault (.missingKey "value"))) ∧
      ofText spec faultyBackwards.compactText =
        .error (.mismatch (.fault (.missingKey "value"))) := by
  have hfirst : faultyOutline.faults.head? = some (.missingKey "value") := rfl
  obtain ⟨hfault, _, _, hsame⟩ := ofText_spec_first_fault printable_faulty.1.spells_prettyText
    outlined_faulty hfirst
  have hread := hfault (by decide)
  refine ⟨outlined_faulty, hfirst, hread, ?_⟩
  rw [hsame _ _ reordered_faulty printable_faulty.2.spells_compactText (by decide), hread]

/-- Groups within one another, the innermost of them empty. -/
def nestedGroups : Nat → Json
  | 0 => .ofMembers [("children", .array [])]
  | n + 1 => .ofMembers [("children", .array [nestedGroups n])]

def nestedOutline : Nat → Outline
  | 0 => .group []
  | n + 1 => .group [nestedOutline n]

theorem faults_nestedOutline (n : Nat) : (nestedOutline n).faults = [.emptyGroup] := by
  induction n with
  | zero => rfl
  | succ n ih => simp [nestedOutline, Outline.faults, Outline.faultsOfAll, ih]

theorem nestedGroups_ne_null (n : Nat) : nestedGroups n ≠ .null := by
  cases n <;> simp [nestedGroups, Json.ofMembers]

theorem printable_nestedGroups (n : Nat) : (nestedGroups n).Printable := by
  induction n with
  | zero =>
    refine Json.printable_ofMembers ?_
    simp [Json.printable_array]
  | succ n ih =>
    have hchildren : (Json.array [nestedGroups n]).Printable :=
      Json.printable_array (by simpa using ih)
    refine Json.printable_ofMembers ?_
    simpa using hchildren

theorem keyed_nestedGroups (n : Nat) : (nestedGroups n).Keyed := by
  have hwhole := (printable_nestedGroups n).whole
  cases n <;> exact Json.keyed_ofMembers hwhole

theorem outlined_nestedGroups (n : Nat) :
    Outlined (2 * n + 2) (nestedGroups n) (nestedOutline n) := by
  have hkeyed := keyed_nestedGroups n
  induction n with
  | zero =>
    exact .group (nodeKeys_unnamed hkeyed rfl rfl rfl rfl) rfl .nil
  | succ n ih =>
    exact .group (nodeKeys_unnamed hkeyed rfl rfl rfl rfl) rfl
      (.cons (ih (keyed_nestedGroups n)) .nil)

theorem nodeOver_children {child : Json → Result Condition} {room : Nat} {v : Json}
    {e : DecodeError} (h : optional (list fun _ => child) room v = .error e) :
    nodeOver child (room + 1) (.ofMembers [("children", v)]) = .error e := by
  simp [nodeOver, Record.take, Json.ofMembers, Record.takeMembers, NodeParts.record, Field.answers,
    h, bind, Except.bind]

theorem spec_root {room : Nat} {v : Json} {e : DecodeError}
    (h : optional condition room v = .error e) :
    spec (room + 1) (.ofMembers [("root", v)]) = .error e := by
  simp [spec, Record.take, Json.ofMembers, Record.takeMembers, SpecParts.record, Field.answers, h,
    bind, Except.bind]

/-- Each group takes two containers, and the last one of them takes two as well. -/
theorem condition_nestedGroups {n room : Nat} (h : room < 2 * n + 2) :
    condition room (nestedGroups n) = .error .malformed := by
  induction n generalizing room with
  | zero =>
    rcases room with _ | _ | room
    · rfl
    · exact nodeOver_children rfl
    · omega
  | succ n ih =>
    rcases room with _ | _ | room
    · rfl
    · exact nodeOver_children rfl
    · have hchild := ih (Nat.lt_of_add_lt_add_right h)
      refine nodeOver_children ?_
      simp [optional, list, hchild, bind, Except.bind, Except.map]

/-- The innermost group is empty, but it is within too many containers to be read. -/
theorem ofText_spec_nestedGroups :
    OutlinedSpec 129 (.ofMembers [("root", nestedGroups 63)]) (some (nestedOutline 63)) ∧
      (nestedOutline 63).faults.head? = some .emptyGroup ∧
      Json.Spells (.ofMembers [("root", nestedGroups 63)])
        (Json.ofMembers [("root", nestedGroups 63)]).compactText ∧
      ofText spec (Json.ofMembers [("root", nestedGroups 63)]).compactText = .error .malformed := by
  have hprint : (Json.ofMembers [("root", nestedGroups 63)]).Printable := by
    refine Json.printable_ofMembers ?_
    simpa using printable_nestedGroups 63
  refine ⟨?_, ?_, hprint.spells_compactText, ?_⟩
  · exact .mk (Json.keyed_ofMembers hprint.whole) (.object _)
      (.given rfl (outlined_nestedGroups 63)) (.absent rfl) (.absent rfl) (.absent rfl)
  · rw [faults_nestedOutline]
    rfl
  · rw [ofText_eq hprint.spells_compactText hprint.whole]
    have hroot : condition 126 (nestedGroups 63) = .error .malformed :=
      condition_nestedGroups (by decide)
    refine spec_root ?_
    rw [optional_eq_map (nestedGroups_ne_null 63), hroot]
    rfl

end Decode

end FilterQuery
