import FilterQuery.Proofs.Compile.Account
import FilterQuery.Proofs.Encode.Canonical
import FilterQuery.Proofs.Shared.Clones

/-!
# Decoded specs and what clients make of them

A decoded spec has no empty group. Clients that make nodes by the constructors for them never come
to have one, cycles or not, and no selection of theirs reports one. Main statement: a decoded spec
is in a normal form, of which this is one part; its own text says all of it, and is decoded to it
again.
-/
namespace FilterQuery

/-- The node is no empty group. -/
def Node.Populated : Node → Prop
  | leaf _ => True
  | group _ children => children ≠ []

/-- How clients make nodes. -/
inductive Construction where
  | leaf (p : Predicate)
  /-- A group of any number of children, which is refused if there are none. -/
  | group (c : Connective) (children : List Handle)
  | single (c : Connective) (child : Handle)
  | pair (c : Connective) (first second : Handle)

namespace Construction

def node : Construction → Except Condition.Fault Node
  | leaf p => .ok (.leaf p)
  | group c children => Condition.group? .group c children
  | single c child => .ok (.group c [child])
  | pair c first second => .ok (.group c [first, second])

theorem populated {k : Construction} {n : Node} (h : k.node = .ok n) : n.Populated := by
  cases k with
  | leaf p =>
    cases h
    trivial
  | group c children =>
    cases children with
    | nil => cases h
    | cons child children =>
      cases h
      exact List.cons_ne_nil child children
  | single c child =>
    cases h
    exact List.cons_ne_nil child []
  | pair c first second =>
    cases h
    exact List.cons_ne_nil first [second]

end Construction

namespace Store

/-- No group of the store is empty. -/
def Populated (s : Store) : Prop := ∀ h n, s.get? h = some n → n.Populated

namespace Populated

variable {s : Store}

theorem add (hs : s.Populated) {n : Node} (hn : n.Populated) : (s.add n).2.Populated := by
  intro h m hm
  rcases get?_add_eq_some hm with hold | ⟨_, rfl⟩
  · exact hs h m hold
  · exact hn

theorem put (hs : s.Populated) (h : Handle) {n : Node} (hn : n.Populated) :
    (s.put h n).Populated := by
  intro k m hm
  rcases get?_put_eq_some hm with hold | ⟨_, rfl⟩
  · exact hs k m hold
  · exact hn

theorem push (hs : s.Populated) (h child : Handle) : (s.change (.push h child)).Populated := by
  rcases s.change_push h child with ⟨c, children, _, heq⟩ | ⟨_, heq⟩
  · rw [heq]
    exact hs.put h (List.append_ne_nil_of_right_ne_nil children (List.cons_ne_nil child []))
  · rw [heq]
    exact hs

end Populated

theorem length_buildAll (ts : List Condition) (s : Store) :
    (buildAll ts s).1.length = ts.length := by
  induction ts generalizing s with
  | nil => rfl
  | cons t ts ih => rw [buildAll_cons, List.length_cons, List.length_cons, ih]

mutual

theorem populated_build (t : Condition) {s : Store} (hs : s.Populated) (ht : t.populated = true) :
    (build t s).2.Populated := by
  cases t with
  | leaf p => exact hs.add trivial
  | group c ts =>
    obtain ⟨hne, hts⟩ := Bool.and_eq_true_iff.mp ht
    refine (populated_buildAll ts hs hts).add ?_
    apply List.ne_nil_of_length_pos
    rw [length_buildAll]
    cases ts with
    | nil => cases hne
    | cons t ts => exact Nat.succ_pos _

theorem populated_buildAll (ts : List Condition) {s : Store} (hs : s.Populated)
    (hts : Condition.populatedAll ts = true) : (buildAll ts s).2.Populated := by
  cases ts with
  | nil => exact hs
  | cons t ts =>
    obtain ⟨ht, hrest⟩ := Bool.and_eq_true_iff.mp hts
    exact populated_buildAll ts (populated_build t hs ht) hrest

end

theorem populated_forEach {f : Handle → Store → Option (Handle × Store)}
    (hf : ∀ h s k s', s.Populated → f h s = some (k, s') → s'.Populated) {hs ks : List Handle}
    {s s' : Store} (hpopulated : s.Populated) (h : forEach f hs s = some (ks, s')) :
    s'.Populated ∧ ks.length = hs.length := by
  induction hs generalizing s ks with
  | nil =>
    cases h
    exact ⟨hpopulated, rfl⟩
  | cons j hs ih =>
    obtain ⟨⟨k, s₁⟩, hk, hrest⟩ := Option.bind_eq_some_iff.mp h
    obtain ⟨⟨js, s₂⟩, hjs, heq⟩ := Option.bind_eq_some_iff.mp hrest
    cases heq
    obtain ⟨hafter, hlength⟩ := ih (hf j s k s₁ hpopulated hk) hjs
    exact ⟨hafter, congrArg (· + 1) hlength⟩

/-- A copy of a group has as many children, whether or not the copying comes to an end elsewhere. -/
theorem populated_copyWithin {levels : Nat} {h k : Handle} {s s' : Store} (hs : s.Populated)
    (hcopy : copyWithin levels h s = some (k, s')) : s'.Populated := by
  induction levels generalizing h k s s' with
  | zero => cases hcopy
  | succ levels ih =>
    unfold copyWithin at hcopy
    split at hcopy
    · cases hcopy
      exact hs.add trivial
    · next c children hnode =>
      obtain ⟨⟨copies, s₁⟩, hchildren, heq⟩ := Option.bind_eq_some_iff.mp hcopy
      cases heq
      obtain ⟨hafter, hlength⟩ :=
        populated_forEach (fun j r l r' hr hl => ih hr hl) hs hchildren
      have hne : 0 < children.length := List.length_pos_of_ne_nil (hs h _ hnode)
      exact hafter.add (List.ne_nil_of_length_pos (hlength ▸ hne))
    · cases hcopy

mutual

theorem Stands.populated {s : Store} (hs : s.Populated) {h : Handle} {t : Condition}
    (ht : Stands s h t) : t.populated = true := by
  cases ht with
  | leaf node => rfl
  | @group _ c hs' ts node children =>
    have hne : hs' ≠ [] := hs h _ node
    cases children with
    | nil => exact absurd rfl hne
    | cons head tail =>
      simp only [Condition.populated, List.isEmpty_cons, Bool.not_false, Bool.true_and,
        Condition.populatedAll, Bool.and_eq_true]
      exact ⟨Stands.populated hs head, AllStand.populated hs tail⟩

theorem AllStand.populated {s : Store} (hs : s.Populated) {hs' : List Handle}
    {ts : List Condition} (hts : AllStand s hs' ts) : Condition.populatedAll ts = true := by
  cases hts with
  | nil => rfl
  | cons head tail =>
    rw [Condition.populatedAll, Stands.populated hs head, AllStand.populated hs tail]
    rfl

end

end Store

namespace Condition

mutual

theorem Logged.emptyGroup_not_mem {parent : Connective} {x : Condition} {log : List Step}
    (h : Logged parent x log) (hx : x.populated = true) (c : Connective) :
    .note (.emptyGroup c) ∉ log :=
  match h with
  | .leaf (.tested _) => by simp
  | .leaf (.skipped event) => by cases event <;> simp
  | .emptyGroup _ _ => by cases hx
  | .scope children _ => by
    have hchildren := children.emptyGroup_not_mem hx c
    simp [hchildren]
  | .emptyScope children _ => by
    have hchildren := children.emptyGroup_not_mem hx c
    simp [hchildren]

theorem AllLogged.emptyGroup_not_mem {parent : Connective} {xs : List Condition}
    {log : List Step} (h : AllLogged parent xs log) (hxs : populatedAll xs = true)
    (c : Connective) : .note (.emptyGroup c) ∉ log :=
  match h with
  | .nil _ => List.not_mem_nil
  | .cons head tail => by
    obtain ⟨hx, hrest⟩ := Bool.and_eq_true_iff.mp hxs
    rw [List.mem_append]
    exact fun hmem => hmem.elim (head.emptyGroup_not_mem hx c) (tail.emptyGroup_not_mem hrest c)

end

theorem populated_rooted (x : Condition) : x.rooted.populated = x.populated := by
  cases x <;> rfl

end Condition

/-- A selection reports no empty group if there is none. -/
theorem Selection.emptyGroup_not_mem (dialect : Dialect) (table : String) (columns : List String)
    {s : Spec Condition} (hs : ∀ c, s.root = some c → c.populated = true) (c : Connective) :
    .emptyGroup c ∉ (make dialect table columns (some s)).events := by
  have hlogged := Condition.logged_root ((Draft.ofTable table).withColumns columns) s.root
  have hroot : Condition.populatedAll (s.root.map Condition.rooted).toList = true := by
    cases hx : s.root with
    | none => rfl
    | some x => simp [Condition.populatedAll, Condition.populated_rooted, hs x hx]
  rw [events_make, List.mem_append]
  intro hmem
  rcases hmem with hreported | hlast
  · obtain ⟨step, hstep, hevent⟩ := List.mem_filterMap.mp hreported
    cases step with
    | note e =>
      cases hevent
      exact hlogged.emptyGroup_not_mem hroot c hstep
    | _ => cases hevent
  · cases List.mem_singleton.mp hlast

/-- What clients do who make nodes by the constructors for them, and change groups by pushing. -/
def Act.Public : Act → Prop
  | change (.create n) => ∃ k : Construction, k.node = .ok n
  | change (.push _ _) => True
  | change (.replace _ _) => False
  | edit _ _ | clone _ | deepCopy _ => True

namespace Workspace

/-- The workspace with one spec more, whose tree is put behind handles of its own. -/
def load (w : Workspace) (s : Spec Condition) : Workspace :=
  ⟨(SharedSpec.ofSpec s w.store).2, w.specs ++ [(SharedSpec.ofSpec s w.store).1]⟩

theorem populated_load {w : Workspace} (hw : w.store.Populated) {s : Spec Condition}
    (hs : ∀ c, s.root = some c → c.populated = true) : (w.load s).store.Populated := by
  show (SharedSpec.ofSpec s w.store).2.Populated
  unfold SharedSpec.ofSpec
  cases hroot : s.root with
  | none => exact hw
  | some c => exact Store.populated_build c hw (hs c hroot)

theorem Sound.load {w : Workspace} (hw : w.Sound) (s : Spec Condition) : (w.load s).Sound := by
  unfold Workspace.load SharedSpec.ofSpec
  cases s.root with
  | none => exact hw.append hw.store (.refl _) fun h hh => (nomatch hh)
  | some c =>
    apply hw.append (hw.store.build c) (Store.keeps_build c w.store)
    intro h hh
    cases hh
    exact (Store.stands_build c w.store).mem

/-- No public step makes an empty group. -/
theorem populated_step {w : Workspace} (hw : w.store.Populated) {act : Act} (hact : act.Public) :
    (w.step act).store.Populated := by
  rcases w.step_cases act with heq | ⟨i, e, spec, rfl, _, heq⟩ | ⟨c, rfl, heq⟩ |
    ⟨i, spec, rfl, _, heq⟩ | ⟨i, spec, copied, s, rfl, _, hcopied, heq⟩
  · rw [heq]
    exact hw
  · rw [heq]
    rcases spec.edit_cases w.store e with ⟨hstore, _⟩ | ⟨node, c, _, hstore, _⟩
    · rw [hstore]
      exact hw
    · rw [hstore]
      exact hw.add (List.append_ne_nil_of_right_ne_nil _ (List.cons_ne_nil node []))
  · rw [heq]
    cases c with
    | create n =>
      obtain ⟨k, hk⟩ := hact
      exact hw.add (Construction.populated hk)
    | push h child => exact hw.push h child
    | replace h n => exact hact.elim
  · rw [heq]
    exact hw
  · rw [heq]
    unfold SharedSpec.deepCopy at hcopied
    split at hcopied
    · cases hcopied
      exact hw
    · obtain ⟨⟨k, s'⟩, hcopy, hdone⟩ := Option.map_eq_some_iff.mp hcopied
      cases hdone
      exact Store.populated_copyWithin hw hcopy

theorem populated_run {w : Workspace} (hw : w.store.Populated) {acts : List Act}
    (hacts : ∀ act ∈ acts, act.Public) : (w.run acts).store.Populated := by
  induction acts generalizing w with
  | nil => exact hw
  | cons act acts ih =>
    obtain ⟨hact, hrest⟩ := List.forall_mem_cons.mp hacts
    exact ih (populated_step hw hact) hrest

end Workspace

/-- On a store without empty groups a selection reports none. -/
theorem SharedSpec.emptyGroup_not_mem {s : Store} (hs : s.Populated) {spec : SharedSpec}
    {dialect : Dialect} {table : String} {columns : List String} {selection : Selection}
    (h : spec.select dialect table columns s = some selection) (c : Connective) :
    .emptyGroup c ∉ selection.events := by
  rw [select_eq] at h
  obtain ⟨t, ht, rfl⟩ := Option.map_eq_some_iff.mp h
  apply Selection.emptyGroup_not_mem
  intro x hx
  unfold unfold at ht
  split at ht
  · cases ht
    cases hx
  · obtain ⟨y, hy, heq⟩ := Option.map_eq_some_iff.mp ht
    cases heq
    cases hx
    exact (Store.unfold_eq_some_iff.mp hy).populated hs

/-- Decoding lands in a normal form that its own text is decoded to again, and that compiles as
before. From there on no client who uses the constructors of nodes comes to an empty group, so no
selection reports one. -/
theorem Spec.decoded_normal {text : String} {s : Spec Condition}
    (h : Decode.ofText Decode.spec text = .ok s)
    (hfloats : ∀ x ∈ s.floats, x.isFinite = true → Json.ReadsBack x) :
    s.Portable ∧
    (∃ again, Decode.ofText Decode.spec s.toJson.prettyText = .ok again ∧
      Spec.same Condition.same s again = true ∧ again.toJson.prettyText = s.toJson.prettyText ∧
      ∀ dialect table columns, Selection.make dialect table columns (some again) =
        Selection.make dialect table columns (some s)) ∧
    ∀ w : Workspace, w.store.Populated → ∀ acts : List Act, (∀ act ∈ acts, act.Public) →
      ((w.load s).run acts).store.Populated ∧
      ∀ spec ∈ ((w.load s).run acts).specs, ∀ dialect table columns,
        (∀ selection,
          spec.select dialect table columns ((w.load s).run acts).store = some selection →
            ∀ c, .emptyGroup c ∉ selection.events) ∧
        (w.Sound → (w.load s).Lawful acts →
          (spec.select dialect table columns ((w.load s).run acts).store).isSome = true) := by
  have hportable := portable_of_ofText h
  refine ⟨hportable, ⟨s, hportable.ofText_prettyText hfloats, hportable.same_self, rfl,
    fun _ _ _ => rfl⟩, fun w hw acts hacts => ?_⟩
  have hpopulated :=
    Workspace.populated_run (Workspace.populated_load hw hportable.populated) hacts
  refine ⟨hpopulated, fun spec hspec dialect table columns => ⟨fun selection hselection =>
    SharedSpec.emptyGroup_not_mem hpopulated hselection, fun hsound hlawful => ?_⟩⟩
  obtain ⟨t, ht⟩ := ((hsound.load s).run hlawful).exists_unfold hspec
  rw [SharedSpec.select_eq, ht]
  rfl

namespace Spec

/-- A range by code and without keys, whose upper end is no integer of 64 bits with a sign. -/
def codedLeaf : Json := .array [.integer 6, .text "a",
  .array [.number (.float 1.5), .integer 0x8000000000000000], .text "and", .null]

/-- A group under the other name of its children, with a key that is not known. -/
def codedGroup : Json := .ofMembers [("conditions", .array [codedLeaf]), ("note", .null)]

def coded : Json := .ofMembers [("limit", .integer 5), ("root", codedGroup)]

/-- What is decoded of it. -/
def ofCoded : Spec Condition where
  root := some (.group .and [.leaf ⟨.between, "a", .list [.float 1.5, .float 0x8000000000000000]⟩])
  limit := some 5

theorem readsBack_ofCoded : ∀ x ∈ ofCoded.floats, x.isFinite = true → Json.ReadsBack x := by
  have hfloats : ofCoded.floats = [1.5, 0x8000000000000000] := rfl
  rw [hfloats, List.forall_mem_cons, List.forall_mem_singleton]
  exact ⟨fun _ => ⟨⟨false, ['1'], some ['5'], none⟩, by decide +kernel, by decide +kernel⟩,
    fun _ => ⟨⟨false, ['9'], some "223372036854776".toList, some 18⟩, by decide +kernel,
      by decide +kernel⟩⟩

theorem printable_coded : coded.Printable := by
  have hhalf : Json.ReadsBack 1.5 := readsBack_ofCoded 1.5 List.mem_cons_self (by decide +kernel)
  have hvalues : (Json.array [.number (.float 1.5), .integer 0x8000000000000000]).Printable := by
    refine Json.printable_array ?_
    simp only [List.forall_mem_cons]
    exact ⟨Json.printable_float hhalf, Json.printable_integer (by decide) (by decide), by simp⟩
  have hleaf : codedLeaf.Printable := by
    refine Json.printable_array ?_
    simp only [List.forall_mem_cons]
    exact ⟨Json.printable_integer (by decide) (by decide), Json.printable_text _, hvalues,
      Json.printable_text _, Json.printable_null, by simp⟩
  have hgroup : codedGroup.Printable := by
    refine Json.printable_ofMembers ?_
    simp only [List.forall_mem_cons]
    exact ⟨Json.printable_array (by simpa using hleaf), Json.printable_null, by simp⟩
  refine Json.printable_ofMembers ?_
  simp only [List.forall_mem_cons]
  exact ⟨Json.printable_integer (by decide) (by decide), hgroup, by simp⟩

set_option maxRecDepth 8000 in
theorem ofText_coded : Decode.ofText Decode.spec coded.compactText = .ok ofCoded := by
  rw [Decode.ofText_eq printable_coded.spells_compactText printable_coded.whole]
  rfl

/-- A leaf that the spec is loaded beside. -/
def beside : Workspace := ⟨(({} : Store).add (.leaf (.unary .isNull "b"))).2, []⟩

/-- The group of the spec takes the leaf and itself gets under new groups. -/
def additions : List Act :=
  [.change (.push ⟨2⟩ ⟨0⟩), .clone 0, .edit 1 (.addCondition ⟨0⟩ .or), .deepCopy 1,
    .change (.create (.group .or [⟨0⟩, ⟨2⟩])), .edit 2 (.addCondition ⟨9⟩ .and)]

theorem populated_beside : beside.store.Populated := by
  have hempty : ({} : Store).Populated := fun h n hn => (nomatch hn)
  exact hempty.add trivial

theorem sound_beside : beside.Sound :=
  ⟨Store.sound_of_descends (by decide), fun spec hspec => (nomatch hspec)⟩

theorem public_additions : ∀ act ∈ additions, act.Public := by
  simp only [additions, List.forall_mem_cons, Act.Public]
  exact ⟨trivial, trivial, trivial, trivial, ⟨.pair .or ⟨0⟩ ⟨2⟩, rfl⟩, trivial,
    fun act hact => absurd hact List.not_mem_nil⟩

theorem lawful_additions : (beside.load ofCoded).Lawful additions := by
  refine ⟨⟨by decide, ?_⟩, ⟨by decide, ?_⟩, ⟨by decide, ?_⟩, ⟨by decide, ?_⟩, ⟨by decide, ?_⟩,
    ⟨by decide, ?_⟩, trivial⟩
  all_goals exact (Store.sound_of_descends (by decide)).acyclic

theorem decoded_normal_coded :
    Decode.ofText Decode.spec coded.compactText = .ok ofCoded ∧
      (∀ x ∈ ofCoded.floats, x.isFinite = true → Json.ReadsBack x) ∧ ofCoded.Portable ∧
      (∃ again, Decode.ofText Decode.spec ofCoded.toJson.prettyText = .ok again ∧
        again.toJson.prettyText = ofCoded.toJson.prettyText) ∧
      beside.store.Populated ∧ beside.Sound ∧ (∀ act ∈ additions, act.Public) ∧
      (beside.load ofCoded).Lawful additions ∧
      ((beside.load ofCoded).run additions).store.Populated ∧
      ∃ spec ∈ ((beside.load ofCoded).run additions).specs, spec.root = some ⟨10⟩ ∧
        ∃ selection, spec.select .postgres "t" [] ((beside.load ofCoded).run additions).store =
          some selection ∧ ∀ c, .emptyGroup c ∉ selection.events := by
  obtain ⟨hportable, ⟨again, hagain, _, htext, _⟩, hruns⟩ :=
    decoded_normal ofText_coded readsBack_ofCoded
  obtain ⟨hpopulated, hspecs⟩ := hruns beside populated_beside additions public_additions
  have hspec : ((beside.load ofCoded).run additions).specs[2]? =
      some ⟨some ⟨10⟩, [], none, some 5⟩ := rfl
  have hmem := List.mem_of_getElem? hspec
  obtain ⟨hsilent, hselects⟩ := hspecs _ hmem .postgres "t" []
  obtain ⟨selection, hselection⟩ :=
    Option.isSome_iff_exists.mp (hselects sound_beside lawful_additions)
  exact ⟨ofText_coded, readsBack_ofCoded, hportable, ⟨again, hagain, htext⟩, populated_beside,
    sound_beside, public_additions, lawful_additions, hpopulated, _, hmem, rfl, selection,
    hselection, hsilent selection hselection⟩

end Spec

end FilterQuery
