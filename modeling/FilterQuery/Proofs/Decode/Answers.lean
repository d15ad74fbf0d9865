import FilterQuery.Proofs.Decode.Outline
import FilterQuery.Proofs.Decode.Reading

/-!
# Answers to outlines

A document that outlines a tree is answered by the first fault of the tree. The fault of a node is
met where its object ends, when all that stands in it has been read. Only a document that is nested
too deeply may have another answer.
-/
namespace FilterQuery

namespace Decode

open Grammar

/-- The answer to a document with these faults: the first of them. Where there is not room enough,
the document may be malformed instead. -/
inductive Answers {α : Type} (enough : Prop) (faults : List Condition.Fault) : Result α → Prop where
  | ok {a : α} (faultless : faults = []) : Answers enough faults (.ok a)
  | fault {f : Condition.Fault} (first : faults.head? = some f) :
      Answers enough faults (.error (.mismatch (.fault f)))
  | malformed (short : ¬ enough) : Answers enough faults (.error .malformed)

namespace Answers

variable {α β : Type} {enough enough' : Prop} {fs gs : List Condition.Fault}

theorem mono (h : enough' → enough) {x : Result α} (hx : Answers enough fs x) :
    Answers enough' fs x := by
  cases hx with
  | ok faultless => exact .ok faultless
  | fault first => exact .fault first
  | malformed short => exact .malformed fun h' => short (h h')

/-- A document without faults that is refused is nested too deeply. -/
theorem error_of_nil {x : Result α} (h : Answers enough [] x) {e : DecodeError}
    (hx : x = .error e) : Answers enough fs (.error e : Result β) := by
  cases h with
  | ok => cases hx
  | fault first => cases first
  | malformed short =>
    cases hx
    exact .malformed short

/-- The error in a part is the error of the whole, whatever comes after the part. -/
theorem error_append {x : Result α} (h : Answers enough fs x) {e : DecodeError}
    (hx : x = .error e) : Answers enough (fs ++ gs) (.error e : Result β) := by
  cases h with
  | ok => cases hx
  | fault first =>
    cases hx
    exact .fault (by rw [List.head?_append, first]; rfl)
  | malformed short =>
    cases hx
    exact .malformed short

theorem error {x : Result α} (h : Answers enough fs x) {e : DecodeError} (hx : x = .error e) :
    Answers enough fs (.error e : Result β) := List.append_nil fs ▸ h.error_append hx

theorem eq_nil {x : Result α} (h : Answers enough fs x) {a : α} (hx : x = .ok a) : fs = [] := by
  cases h with
  | ok faultless => exact faultless
  | fault => cases hx
  | malformed => cases hx

theorem eq_fault_or_malformed {x : Result α} (h : Answers enough fs x) {f : Condition.Fault}
    (hf : fs.head? = some f) :
    x = .error (.mismatch (.fault f)) ∨ ¬ enough ∧ x = .error .malformed := by
  cases h with
  | ok faultless =>
    rw [faultless] at hf
    cases hf
  | fault first =>
    rw [hf] at first
    cases first
    exact .inl rfl
  | malformed short => exact .inr ⟨short, rfl⟩

/-- The items of a list are gone through until one is refused. -/
theorem mapM_cons {d : Json → Result α} {v : Json} {vs : List Json} (hv : Answers enough fs (d v))
    (hvs : Answers enough gs (vs.mapM d)) : Answers enough (fs ++ gs) ((v :: vs).mapM d) := by
  rw [List.mapM_cons]
  cases hd : d v with
  | error e => exact hv.error_append hd
  | ok a =>
    rw [hv.eq_nil hd, List.nil_append]
    cases hds : vs.mapM d with
    | error e => exact hvs.error hds
    | ok as => exact .ok (hvs.eq_nil hds)

theorem optional {d : Decoder α} {room : Nat} {v : Json} (hv : v ≠ .null)
    (h : Answers enough fs (d room v)) : Answers enough fs (optional d room v) := by
  rw [optional_eq_map hv]
  cases hd : d room v with
  | error e => exact h.error hd
  | ok a => exact .ok (h.eq_nil hd)

end Answers

section Optional

variable {α : Type} {d : Decoder α} {Means : Json → α → Prop} {room : Nat} {names : List String}
  {ms : Members} {a : Option α}

/-- What stands under a nullable key is read. -/
theorem ne_error_of_nullable (hd : ∀ {v a}, d room v = .ok a ↔ Means v a)
    (hnull : ∀ a, ¬ Means .null a) (h : Nullable names Means ms a) {v : Json}
    (hv : v ∈ under names ms) (e : DecodeError) : optional d room v ≠ .error e := by
  obtain ⟨b, hb⟩ := h.exists_means hv
  rw [(optional_eq_ok_iff (fun _ => hd) hnull).mpr hb]
  exact nofun

theorem join_eq_of_nullable (hd : ∀ {v a}, d room v = .ok a ↔ Means v a)
    (hnull : ∀ a, ¬ Means .null a) (h : Nullable names Means ms a) {x : Option (Option α)}
    (hx : Entry names (fun v a => optional d room v = .ok a) ms x) : x.join = a := by
  obtain ⟨y, hy, rfl⟩ := nullable_iff.mp h
  have hy : Entry names (fun v a => optional d room v = .ok a) ms y :=
    hy.imp (optional_eq_ok_iff (fun _ => hd) hnull).mpr
  rw [entry_unique_of_decoder hx hy]

end Optional

theorem answers_operand {room r : Nat} {v : Json} {a : Operand} (h : Within room OfOperand v a) :
    Answers (room ≤ r) [] (Decode.operand r v) := by
  by_cases hfits : v.fits r = true
  · rw [(operand_eq_ok_iff hfits).mpr h.means]
    exact .ok rfl
  · rw [Decode.operand, kept, if_neg hfits]
    exact .malformed fun hle => hfits (Json.fits_mono hle h.fits)

theorem operand_eq_of_entry {room r : Nat} {names : List String} {ms : Members} {a b : Option Operand}
    (h : Entry names (Within room OfOperand) ms a)
    (h' : Entry names (fun v a => Decode.operand r v = .ok a) ms b) : b = a := by
  have ha : Entry names (fun v a => operand? v = some a) ms a :=
    h.imp fun hv => operand?_eq_some_iff.mpr hv.means
  have hb : Entry names (fun v a => operand? v = some a) ms b := by
    refine h'.imp fun {v x} hv => ?_
    by_cases hfits : v.fits r = true
    · exact operand?_eq_some_iff.mpr ((operand_eq_ok_iff hfits).mp hv)
    · rw [Decode.operand, kept, if_neg hfits] at hv
      cases hv
  exact hb.unique (fun hx hy => Option.some.inj (hx.symm.trans hy)) ha

theorem length_eq_of_list {α : Type} {item : Nat → Json → Result α} {r : Nat} {items : List Json}
    {as : List α} (h : list item r (.array items) = .ok as) : items.length = as.length := by
  cases r with
  | zero => cases h
  | succ r => exact (mapM_eq_ok_iff.mp h).length_eq

theorem answers_variant {α : Type} {known : List (String × α)} {room r : Nat} {v : Json} {a : α}
    (h : Within room (OfVariant known) v a) : Answers (room ≤ r) [] (variant known r v) := by
  by_cases hfits : v.fits r = true
  · rw [(variant_eq_ok_iff hfits).mpr h.means]
    exact .ok rfl
  · have hshort : ¬ room ≤ r := fun hle => hfits (Json.fits_mono hle h.fits)
    -- A name has room everywhere, and an object with one of them in every container.
    cases h.means with
    | name => exact absurd (by cases r <;> rfl) hfits
    | object =>
      cases r with
      | zero => exact .malformed hshort
      | succ r => exact absurd (by cases r <;> rfl) hfits

/-- The fault that keeps a node from being made is the first of these. -/
def Blames {α : Type} (faults : List Condition.Fault) : Except Condition.Fault α → Prop
  | .ok _ => faults = []
  | .error f => faults.head? = some f

theorem NodeParts.blames_leaf (p : NodeParts) :
    Blames (Outline.leaf p.operator.join p.field.join p.operand).faults p.leaf := by
  unfold NodeParts.leaf
  cases p.operator.join with
  | none => simp [Blames, Outline.faults, Outline.lacking]
  | some operator =>
    cases p.field.join with
    | none => simp [Blames, Outline.faults, Outline.lacking]
    | some field =>
      cases p.operand with
      | some operand => simp [Blames, Outline.faults, Outline.lacking]
      | none =>
        by_cases hunread : operator.ignoresOperand = true
        · simp [Blames, Outline.faults, Outline.lacking, hunread]
        · simp [Blames, Outline.faults, Outline.lacking, hunread]

theorem blames_group {c : Connective} {cs : List Condition} {children : List Outline}
    (hfaults : Outline.faultsOfAll children = []) (hempty : children = [] ↔ cs = []) :
    Blames (Outline.group children).faults (Condition.group? Condition.group c cs) := by
  cases cs with
  | nil => simp [Blames, Outline.faults, Condition.group?, hempty.mpr rfl, Outline.faultsOfAll]
  | cons d ds =>
    have hne : children ≠ [] := fun h => absurd (hempty.mp h) (List.cons_ne_nil d ds)
    simp [Blames, Outline.faults, Condition.group?, hfaults, hne]

theorem nodeOver_answers {child : Json → Result Condition} {room : Nat} {v : Json} {p : NodeParts}
    (htake : (NodeParts.record child).take {} room v = .ok p) {enough : Prop}
    {fs : List Condition.Fault} (h : Blames fs p.node) :
    Answers enough fs (nodeOver child room v) := by
  cases hnode : p.node with
  | ok c =>
    have hok : nodeOver child room v = .ok c := by
      simp [nodeOver, htake, hnode, bind, Except.bind]
    rw [hnode] at h
    exact hok ▸ .ok h
  | error f =>
    have herror : nodeOver child room v = .error (.mismatch (.fault f)) := by
      simp [nodeOver, htake, hnode, bind, Except.bind, refuse]
    rw [hnode] at h
    exact herror ▸ .fault h

section Node

variable {child : Json → Result Condition} {room r : Nat} {ms : Members}
  {operator : Option Operator} {field : Option String} {operand : Option Operand}

/-- Where a node in the form of an object is not taken, it is nested too deeply, or one of its
children has a fault. Where it is taken, its parts are what its keys say. -/
theorem take_node (keys : NodeKeys room ms operator field operand) {enough : Prop}
    (henough : enough → room ≤ r) {fs : List Condition.Fault}
    (hone : (under childNames ms).length ≤ 1)
    (hchildren : ∀ v ∈ under childNames ms,
      Answers enough fs (optional (list fun _ => child) r v)) :
    (∃ e, (NodeParts.record child).take {} (r + 1) (.object ms true) = .error e ∧
      Answers enough fs (.error e : Result Condition)) ∨
    ∃ p, (NodeParts.record child).take {} (r + 1) (.object ms true) = .ok p ∧
      p.operator.join = operator ∧ p.field.join = field ∧ p.operand = operand ∧
      Entry childNames (fun v a => optional (list fun _ => child) r v = .ok a) ms p.children := by
  obtain ⟨keyed, hasOperator, hasField, hasValue, _, hasLogic⟩ := keys
  have hstart : ∀ t ∈ (NodeParts.slots child).all, t.get {} = none := by simp [NodeParts.slots]
  have hsingle : ∀ t ∈ (NodeParts.slots child).all, (under t.names ms).length ≤ 1 := by
    simp only [NodeParts.slots, List.forall_mem_cons]
    exact ⟨hasOperator.length_le, hasField.length_le, hasValue.length_le, hasLogic.length_le, hone,
      by simp⟩
  have hnull : ∀ a, ¬ OfOperator .null a := by rintro a ⟨⟩
  have hnull' : ∀ a, ¬ OfText .null a := by rintro a ⟨⟩
  cases htake : (NodeParts.record child).take {} (r + 1) (.object ms true) with
  | error e =>
    refine .inl ⟨e, rfl, ?_⟩
    obtain ⟨t, ht, v, hv, hdecode⟩ := (NodeParts.slots child).take_eq_error keyed (.object ms)
      hstart hsingle htake
    simp only [NodeParts.slots, List.mem_cons, List.not_mem_nil, or_false] at ht
    -- Operator and field are read wherever they stand. Only the other parts take room.
    rcases ht with rfl | rfl | rfl | rfl | rfl
    · exact absurd hdecode (ne_error_of_nullable operator_eq_ok_iff hnull hasOperator hv e)
    · exact absurd hdecode (ne_error_of_nullable string_eq_ok_iff hnull' hasField hv e)
    · obtain ⟨a, ha⟩ := hasValue.exists_means hv
      have hanswers : Answers enough [] (Decode.operand r v) := (answers_operand ha).mono henough
      exact hanswers.error_of_nil hdecode
    · obtain ⟨a, ha⟩ := hasLogic.exists_means hv
      have hanswers : Answers enough [] (Decode.connective r v) := (answers_variant ha).mono henough
      exact hanswers.error_of_nil hdecode
    · exact (hchildren v hv).error hdecode
  | ok p =>
    refine .inr ⟨p, rfl, ?_⟩
    have hentries :=
      ((NodeParts.slots child).take_eq_ok_iff_of_fields keyed (.object ms) hstart).mp htake
    simp only [NodeParts.slots, List.forall_mem_cons] at hentries
    obtain ⟨hoperator, hfield, hvalue, -, hchild, -⟩ := hentries
    exact ⟨join_eq_of_nullable operator_eq_ok_iff hnull hasOperator hoperator,
      join_eq_of_nullable string_eq_ok_iff hnull' hasField hfield,
      operand_eq_of_entry hasValue hvalue, hchild⟩

theorem answers_leaf (keys : NodeKeys room ms operator field operand)
    (childless : under childNames ms = [] ∨ under childNames ms = [.null]) :
    Answers (room ≤ r) (Outline.leaf operator field operand).faults
      (nodeOver child (r + 1) (.object ms true)) := by
  have hnull : ∀ v ∈ under childNames ms, v = .null := by
    rcases childless with h | h <;> simp [h]
  have hchildren : ∀ v ∈ under childNames ms,
      Answers (room ≤ r) [] (optional (list fun _ => child) r v) := by
    intro v hv
    rw [hnull v hv]
    exact .ok rfl
  have hone : (under childNames ms).length ≤ 1 := by
    rcases childless with h | h <;> simp [h]
  rcases take_node keys id hone hchildren with
    ⟨e, htake, hanswers⟩ | ⟨p, htake, rfl, rfl, rfl, hchild⟩
  · rw [nodeOver, htake]
    exact hanswers.error_of_nil rfl
  · refine nodeOver_answers htake ?_
    have hleaf : p.children.join = none := by
      generalize p.children = x at hchild
      cases hchild with
      | absent => rfl
      | @given v a one means =>
        rw [hnull v (one ▸ List.mem_cons_self)] at means
        cases means
        rfl
    rw [NodeParts.node, hleaf]
    exact p.blames_leaf

theorem answers_group {items : List Json} {children : List Outline} {enough : Prop}
    (keys : NodeKeys room ms operator field operand)
    (hasChildren : under childNames ms = [.array items]) (hlength : items.length = children.length)
    (henough : enough → room ≤ r)
    (hnodes : Answers enough (Outline.faultsOfAll children)
      (list (fun _ => child) r (.array items))) :
    Answers enough (Outline.group children).faults (nodeOver child (r + 1) (.object ms true)) := by
  have hchildren : ∀ v ∈ under childNames ms, Answers enough (Outline.faultsOfAll children)
      (optional (list fun _ => child) r v) := by
    rw [hasChildren]
    intro v hv
    rw [List.mem_singleton.mp hv]
    exact hnodes.optional nofun
  have hone : (under childNames ms).length ≤ 1 := by simp [hasChildren]
  rcases take_node keys henough hone hchildren with
    ⟨e, htake, hanswers⟩ | ⟨p, htake, -, -, -, hchild⟩
  · rw [nodeOver, htake]
    exact hanswers.error_append rfl
  · refine nodeOver_answers htake ?_
    have hgroup : ∃ cs, p.children.join = some cs ∧
        list (fun _ => child) r (.array items) = .ok cs := by
      generalize p.children = x at hchild
      cases hchild with
      | absent nothing =>
        rw [hasChildren] at nothing
        cases nothing
      | given one means =>
        rw [hasChildren] at one
        cases one
        have hne : Json.array items ≠ .null := nofun
        obtain ⟨cs, hcs, rfl⟩ := (optional_eq_ok_some_iff hne).mp means
        exact ⟨cs, rfl, hcs⟩
    obtain ⟨cs, hjoin, hcs⟩ := hgroup
    have hempty : children = [] ↔ cs = [] := by
      rw [← List.length_eq_zero_iff, ← List.length_eq_zero_iff, ← hlength, length_eq_of_list hcs]
    rw [NodeParts.node, hjoin]
    exact blames_group (hnodes.eq_nil hcs) hempty

end Node

end Decode

namespace Grammar

open Decode

theorem AllOutlined.length_eq {room : Nat} {vs : List Json} {os : List Outline}
    (h : AllOutlined room vs os) : vs.length = os.length := by
  induction vs generalizing os with
  | nil =>
    cases h
    rfl
  | cons v vs ih =>
    cases h with
    | cons _ tail => rw [List.length_cons, List.length_cons, ih tail]

mutual

/-- A node is refused for the first fault of what it outlines, and accepted if there is none. -/
theorem Outlined.answers {room r : Nat} {v : Json} {o : Outline} (h : Outlined room v o) :
    Answers (room ≤ r) o.faults (condition r v) := by
  cases h with
  | leaf keys childless =>
    -- A leaf has no children, so it does not matter what decodes them.
    have hleaf : ∀ {child r}, Answers (_ ≤ r) _ (nodeOver child (r + 1) _) :=
      answers_leaf keys childless
    rcases r with _ | _ | r
    · exact .malformed (Nat.not_succ_le_zero _)
    · exact hleaf.mono Nat.le_of_succ_le_succ
    · exact hleaf.mono Nat.le_of_succ_le_succ
  | group keys hasChildren nodes =>
    rcases r with _ | _ | r
    · exact .malformed (Nat.not_succ_le_zero _)
    · exact answers_group keys hasChildren nodes.length_eq Nat.le_of_succ_le_succ
        (.malformed (by omega))
    · have hnodes := AllOutlined.answers (r := r) nodes
      exact answers_group keys hasChildren nodes.length_eq Nat.le_of_succ_le_succ
        (hnodes.mono (by omega))

theorem AllOutlined.answers {room r : Nat} {vs : List Json} {os : List Outline}
    (h : AllOutlined room vs os) :
    Answers (room ≤ r) (Outline.faultsOfAll os) (vs.mapM (condition r)) := by
  cases h with
  | nil => exact .ok rfl
  | cons head tail => exact (Outlined.answers head).mapM_cons (AllOutlined.answers tail)

end

theorem Fields.take_zero {σ : Type} {r : Record σ} {start : σ} {keys : List String} {least : Nat}
    {v : Json} {ms : Members} (h : Fields keys least v ms) :
    r.take start 0 v = .error .malformed := by
  cases h <;> rfl

theorem SortWithin.answers {room r : Nat} {v : Json} {k : SortKey} (h : SortWithin room v k) :
    Answers (room ≤ r) [] (sortKey r v) := by
  cases h with
  | @mk room _ ms field _ keyed fields hasField hasDirection =>
    cases r with
    | zero =>
      rw [sortKey, fields.take_zero]
      exact .malformed (Nat.not_succ_le_zero _)
    | succ r =>
      have hstart : ∀ t ∈ SortParts.slots.all, t.get {} = none := by simp [SortParts.slots]
      have hsingle : ∀ t ∈ SortParts.slots.all, (under t.names ms).length ≤ 1 := by
        simp only [SortParts.slots, List.forall_mem_cons]
        exact ⟨hasField.length_le, hasDirection.length_le, by simp⟩
      cases htake : SortParts.record.take {} (r + 1) v with
      | error e =>
        rw [sortKey, htake]
        obtain ⟨t, ht, w, hw, hdecode⟩ :=
          SortParts.slots.take_eq_error keyed fields hstart hsingle htake
        simp only [SortParts.slots, List.mem_cons, List.not_mem_nil, or_false] at ht
        rcases ht with rfl | rfl
        · obtain ⟨s, hs⟩ := hasField.exists_means hw
          have hread : Decode.string r w = .ok s := string_eq_ok_iff.mpr hs
          cases hread.symm.trans hdecode
        · obtain ⟨d, hd⟩ := hasDirection.exists_means hw
          have hanswers : Answers (room ≤ r) [] (Decode.direction r w) := answers_variant hd
          exact (hanswers.mono Nat.le_of_succ_le_succ).error hdecode
      | ok p =>
        have hentries := (SortParts.slots.take_eq_ok_iff_of_fields keyed fields hstart).mp htake
        simp only [SortParts.slots, List.forall_mem_cons] at hentries
        have hfield : p.field = some field :=
          entry_unique_of_decoder hentries.1 (hasField.imp string_eq_ok_iff.mpr)
        have hkey : sortKey (r + 1) v = .ok ⟨field, p.direction.getD .ascending⟩ := by
          simp [sortKey, htake, hfield, bind, Except.bind]
        rw [hkey]
        exact .ok rfl

theorem SortsWithin.answers {room r : Nat} {v : Json} {keys : List SortKey}
    (h : SortsWithin room v keys) : Answers (room ≤ r) [] (list sortKey r v) := by
  cases h with
  | mk items =>
    cases r with
    | zero => exact .malformed (Nat.not_succ_le_zero _)
    | succ r =>
      refine Answers.mono Nat.le_of_succ_le_succ ?_
      show Answers _ [] (List.mapM (sortKey r) _)
      induction items with
      | nil => exact .ok rfl
      | cons head _ ih => exact head.answers.mapM_cons ih

theorem answers_root {room r : Nat} {ms : Members} {root : Option Outline}
    (h : Nullable ["root"] (Outlined room) ms root) {v : Json} (hv : v ∈ under ["root"] ms) :
    Answers (room ≤ r) (root.elim [] Outline.faults) (optional condition r v) := by
  cases h with
  | absent nothing =>
    rw [nothing] at hv
    cases hv
  | null one =>
    rw [one, List.mem_singleton] at hv
    exact hv ▸ .ok rfl
  | given one means =>
    rw [one, List.mem_singleton] at hv
    subst hv
    refine means.answers.optional ?_
    rintro rfl
    cases means

/-- A spec is refused for the first fault of the tree that it outlines, and accepted if there is
none. -/
theorem OutlinedSpec.answers {room r : Nat} {v : Json} {root : Option Outline}
    (h : OutlinedSpec room v root) : Answers (room ≤ r) (root.elim [] Outline.faults) (spec r v) := by
  cases h with
  | @mk room _ ms _ _ _ _ keyed fields hasRoot hasSorts hasOffset hasLimit =>
    cases r with
    | zero =>
      rw [spec, fields.take_zero]
      exact .malformed (Nat.not_succ_le_zero _)
    | succ r =>
      refine Answers.mono Nat.le_of_succ_le_succ ?_
      have hstart : ∀ t ∈ SpecParts.slots.all, t.get {} = none := by simp [SpecParts.slots]
      have hsingle : ∀ t ∈ SpecParts.slots.all, (under t.names ms).length ≤ 1 := by
        simp only [SpecParts.slots, List.forall_mem_cons]
        exact ⟨hasRoot.length_le, hasSorts.length_le, hasOffset.length_le, hasLimit.length_le,
          by simp⟩
      have hnull : ∀ a, ¬ OfCount .null a := by rintro a ⟨⟩
      cases htake : SpecParts.record.take {} (r + 1) v with
      | error e =>
        rw [spec, htake]
        obtain ⟨t, ht, w, hw, hdecode⟩ :=
          SpecParts.slots.take_eq_error keyed fields hstart hsingle htake
        simp only [SpecParts.slots, List.mem_cons, List.not_mem_nil, or_false] at ht
        rcases ht with rfl | rfl | rfl | rfl
        · exact (answers_root hasRoot hw).error hdecode
        · obtain ⟨keys, hkeys⟩ := hasSorts.exists_means hw
          exact hkeys.answers.error_of_nil hdecode
        · exact absurd hdecode (ne_error_of_nullable natural_eq_ok_iff hnull hasOffset hw e)
        · exact absurd hdecode (ne_error_of_nullable natural_eq_ok_iff hnull hasLimit hw e)
      | ok p =>
        have hentries := (SpecParts.slots.take_eq_ok_iff_of_fields keyed fields hstart).mp htake
        simp only [SpecParts.slots, List.forall_mem_cons] at hentries
        rw [spec, htake]
        refine .ok ?_
        cases hasRoot with
        | absent => rfl
        | null => rfl
        | @given w _ one means =>
          have hw : w ∈ under ["root"] ms := one ▸ List.mem_cons_self
          obtain ⟨x, hx⟩ := hentries.1.exists_means hw
          exact (answers_root (.given one means) hw).eq_nil hx

end Grammar

end FilterQuery
