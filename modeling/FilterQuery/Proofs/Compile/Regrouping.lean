import FilterQuery.Proofs.Compile.Query
import FilterQuery.Proofs.Shared.Composition

/-!
# Groups that make no difference

Expressions are joined from the left, and a group hands on what its children leave as one clause. So
a group in the first place of a group of its own connective can be dissolved, and so can a group of
one child wherever it is: the query stays the same to the letter. A spec that conditions are added
to one by one is read as one flat group.
-/
namespace FilterQuery

/-- The same text and the same parameters. What was reported on the way may differ. -/
structure Selection.SameQuery (a b : Selection) : Prop where
  sql : a.sql = b.sql
  params : a.params = b.params

namespace Clause

theorem joinAll_toList (c : Connective) (e : Option Expr) : joinAll c e.toList = e := by
  cases e <;> rfl

/-- What has been joined can be joined on. -/
theorem joinAll_append (c : Connective) (es fs : List Expr) :
    joinAll c ((joinAll c es).toList ++ fs) = joinAll c (es ++ fs) := by
  cases es with
  | nil => rfl
  | cons e es => simp [joinAll, List.foldl_append]

end Clause

namespace Condition

theorem exprs_append (xs ys : List Condition) : exprs (xs ++ ys) = exprs xs ++ exprs ys := by
  induction xs with
  | nil => rfl
  | cons x xs ih => rw [List.cons_append, exprs, exprs, ih, List.append_assoc]

/-- A group of one child says what the child says, under either connective. -/
theorem expr?_group_singleton (c : Connective) (x : Condition) : (group c [x]).expr? = x.expr? := by
  rw [expr?, exprs, exprs, List.append_nil, Clause.joinAll_toList]

/-- A first child of the same connective can be replaced by its own children. -/
theorem expr?_group_spliced (c : Connective) (xs ys : List Condition) :
    (group c (group c xs :: ys)).expr? = (group c (xs ++ ys)).expr? := by
  rw [expr?, exprs, expr?, Clause.joinAll_append, ← exprs_append, expr?]

namespace Context

mutual

/-- What stands at the open places of a condition matters by its expression only. -/
theorem expr?_fill {x y : Condition} (h : x.expr? = y.expr?) (k : Context) :
    (k.fill x).expr? = (k.fill y).expr? := by
  cases k with
  | hole => exact h
  | leaf p => rfl
  | group c children => rw [fill, fill, expr?, expr?, exprs_fillAll h children]

theorem exprs_fillAll {x y : Condition} (h : x.expr? = y.expr?) (ks : List Context) :
    exprs (fillAll x ks) = exprs (fillAll y ks) := by
  cases ks with
  | nil => rfl
  | cons k ks => rw [fillAll, fillAll, exprs, exprs, expr?_fill h k, exprs_fillAll h ks]

end

end Context

end Condition

namespace Selection

variable (dialect : Dialect) (table : String) (columns : List String)

/-- Roots of the same expression give the same query. -/
theorem sameQuery_of_root {ρ : Type} (s : Spec ρ) {x y : Option Condition}
    (h : x.bind Condition.expr? = y.bind Condition.expr?) :
    SameQuery (make dialect table columns (some (s.withRoot x)))
      (make dialect table columns (some (s.withRoot y))) := by
  obtain ⟨hsql, hparams⟩ := make_eq_render dialect table columns (some (s.withRoot x))
  obtain ⟨hsql', hparams'⟩ := make_eq_render dialect table columns (some (s.withRoot y))
  have hquery : (s.withRoot x).query table columns = (s.withRoot y).query table columns := by
    show Select.mk _ _ (x.bind Condition.expr?) _ _ _ = Select.mk _ _ (y.bind Condition.expr?) _ _ _
    rw [h]
    rfl
  simp only [Option.getD_some, hquery] at hsql hparams hsql' hparams'
  exact ⟨hsql.trans hsql'.symm, hparams.trans hparams'.symm⟩

theorem sameQuery_of_fill {ρ : Type} (s : Spec ρ) {x y : Condition} (h : x.expr? = y.expr?)
    (k : Condition.Context) :
    SameQuery (make dialect table columns (some (s.withRoot (some (k.fill x)))))
      (make dialect table columns (some (s.withRoot (some (k.fill y))))) :=
  sameQuery_of_root dialect table columns s (Condition.Context.expr?_fill h k)

/-- A group of one child is transparent: at the root or below it, whatever the child is and under
either connective, it leaves the query as it would be with the child in its place. -/
theorem wrapped_sameQuery (s : Spec Condition) (k : Condition.Context) (x : Condition)
    (c : Connective) :
    SameQuery (make dialect table columns (some (s.withRoot (some (k.fill x)))))
      (make dialect table columns (some (s.withRoot (some (k.fill (.group c [x])))))) :=
  sameQuery_of_fill dialect table columns s (Condition.expr?_group_singleton c x).symm k

end Selection

namespace Spec

/-- Adding conditions under one connective changes the root only. Its expression is joined from what
was there and from what is added. -/
theorem expr?_addConditions (c : Connective) (s : Spec Condition) (xs : List Condition) :
    ∃ root, xs.foldl (fun s x => s.addCondition x c) s = s.withRoot root ∧
      root.bind Condition.expr? =
        Clause.joinAll c ((s.root.bind Condition.expr?).toList ++ Condition.exprs xs) := by
  induction xs generalizing s with
  | nil =>
    refine ⟨s.root, rfl, ?_⟩
    rw [Condition.exprs, List.append_nil, Clause.joinAll_toList]
  | cons x xs ih =>
    obtain ⟨root, hroot, hexpr⟩ := ih (s.addCondition x c)
    have hfirst : (Condition.group c (joined s.root x)).expr? =
        Clause.joinAll c ((s.root.bind Condition.expr?).toList ++ x.expr?.toList) := by
      cases s.root with
      | none => rw [joined, Condition.expr?]; simp [Condition.exprs]
      | some y => rw [joined, Condition.expr?]; simp [Condition.exprs]
    refine ⟨root, hroot, ?_⟩
    rw [hexpr]
    show Clause.joinAll c ((Condition.group c (joined s.root x)).expr?.toList ++ _) = _
    rw [hfirst, Clause.joinAll_append, List.append_assoc, Condition.exprs]

end Spec

theorem Selection.addConditions_sameQuery (dialect : Dialect) (table : String)
    (columns : List String) (c : Connective) {s : Spec Condition} (hs : s.root = none)
    (xs : List Condition) :
    SameQuery (make dialect table columns (some (xs.foldl (fun s x => s.addCondition x c) s)))
      (make dialect table columns (some (s.withRoot (some (.group c xs))))) := by
  obtain ⟨root, hroot, hexpr⟩ := s.expr?_addConditions c xs
  rw [hs] at hexpr
  rw [hroot]
  exact sameQuery_of_root dialect table columns s hexpr

namespace SharedSpec

/-- The tree of a spec to which conditions are added one by one has them added one by one. -/
theorem stands_compose {state : SharedSpec × Store} (h : Rooted state) {t : Option Condition}
    (ht : Option.Rel (Store.Stands state.2) state.1.root t) {steps : List Joining}
    (hsteps : Composable state steps) {c : Connective} {nodes : List Handle}
    (hnodes : steps.filterMap Joining.joined? = nodes.map fun node => (node, c)) :
    ∃ xs, Store.AllStand (compose state steps).2 nodes xs ∧
      (compose state steps).1.unfold (compose state steps).2 =
        some (xs.foldl (fun s x => s.addCondition x c) (state.1.withRoot t)) := by
  induction steps generalizing state t nodes with
  | nil =>
    obtain rfl : nodes = [] := List.map_eq_nil_iff.mp hnodes.symm
    exact ⟨[], .nil, unfold_eq ht⟩
  | cons step steps ih =>
    have hrooted := h.step hsteps.1
    cases step with
    | make n => exact ih hrooted ((state.2.keeps_add n).rel_stands ht) hsteps.2 hnodes
    | join node d =>
      obtain ⟨first, nodes, rfl, hfirst, hrest⟩ := List.map_eq_cons_iff.mp hnodes.symm
      obtain ⟨rfl, rfl⟩ := Prod.mk.inj hfirst
      obtain ⟨x, hx⟩ := h.store.exists_stands (hsteps.1 first (List.mem_singleton.mpr rfl))
      have hroot := Store.stands_joined ht hx c
      obtain ⟨xs, hxs, hunfold⟩ := ih hrooted (.some hroot) hsteps.2 hrest.symm
      have hkept := keeps_compose state (.join first c :: steps)
      exact ⟨x :: xs, .cons (hkept.stands hx) hxs, hunfold⟩

/-- A chain and a flat group give the same query. Conditions added one by one under one connective,
nodes made on the way or shared, are read as the one group of them all; and in any tree the children
of a first child can stand in its place if it has the connective of the group around it. -/
theorem chain_sameQuery_flat {state : SharedSpec × Store} (h : Rooted state)
    (hempty : state.1.root = none) {steps : List Joining} (hsteps : Composable state steps)
    (c : Connective) {nodes : List Handle} (hne : nodes ≠ [])
    (hnodes : steps.filterMap Joining.joined? = nodes.map fun node => (node, c))
    (dialect : Dialect) (table : String) (columns : List String) :
    (∃ group, Condition.group? Node.group c nodes = .ok group ∧
      let chain := compose state steps
      let flat := chain.2.add group
      ∃ a b, chain.1.select dialect table columns chain.2 = some a ∧
        SharedSpec.select dialect table columns (state.1.withRoot (some flat.1)) flat.2 = some b ∧
        a.SameQuery b) ∧
    ∀ (s : Spec Condition) (k : Condition.Context) (d : Connective) (xs ys : List Condition),
      Selection.SameQuery
        (.make dialect table columns
          (some (s.withRoot (some (k.fill (.group d (.group d xs :: ys)))))))
        (.make dialect table columns (some (s.withRoot (some (k.fill (.group d (xs ++ ys))))))) := by
  constructor
  · have hgroup : Condition.group? Node.group c nodes = .ok (.group c nodes) := by
      simp [Condition.group?, hne]
    have ht : Option.Rel (Store.Stands state.2) state.1.root none := hempty ▸ .none
    obtain ⟨xs, hxs, hchain⟩ := stands_compose h ht hsteps hnodes
    have hkept := (compose state steps).2.keeps_add (.group c nodes)
    have hroot := Store.Stands.group ((compose state steps).2.get?_add_self (.group c nodes))
      (hkept.allStand hxs)
    let flat := (compose state steps).2.add (.group c nodes)
    have hflat : SharedSpec.unfold (state.1.withRoot (some flat.1)) flat.2 = _ :=
      unfold_eq (.some hroot)
    refine ⟨_, hgroup, _, _, select_of_unfold hchain dialect table columns,
      select_of_unfold hflat dialect table columns, ?_⟩
    exact Selection.addConditions_sameQuery dialect table columns c rfl xs
  · intro s k d xs ys
    exact Selection.sameQuery_of_fill dialect table columns s
      (Condition.expr?_group_spliced d xs ys) k

/-- An empty spec beside a leaf and one that is skipped. -/
def fresh : SharedSpec × Store :=
  ({ limit := some 2 }, ⟨#[.leaf (.unary .isNull "a"), .leaf (.unary .unrecognized "b")]⟩)

/-- The skipped leaf comes first, and one leaf is made on the way. -/
def additions : List Joining :=
  [.join ⟨1⟩ .or, .make (.leaf (.unary .isNull "c")), .join ⟨3⟩ .or, .join ⟨0⟩ .or]

theorem chain_sameQuery_flat_fresh :
    Rooted fresh ∧ Composable fresh additions ∧
      additions.filterMap Joining.joined? =
        [⟨1⟩, ⟨3⟩, ⟨0⟩].map (fun node => (node, Connective.or)) ∧
      ∃ group, Condition.group? Node.group .or [⟨1⟩, ⟨3⟩, ⟨0⟩] = .ok group ∧
        let chain := compose fresh additions
        let flat := chain.2.add group
        ∃ a b, chain.1.select .postgres "t" [] chain.2 = some a ∧
          SharedSpec.select .postgres "t" [] (fresh.1.withRoot (some flat.1)) flat.2 = some b ∧
          a.SameQuery b ∧
          a.sql = "SELECT * FROM \"t\" WHERE ((\"c\" IS NULL) OR (\"a\" IS NULL)) LIMIT $1" := by
  have hrooted : Rooted fresh := by
    refine ⟨Store.sound_of_descends (by decide), fun h hh => ?_⟩
    cases hh
  have hcomposable : Composable fresh additions :=
    ⟨by decide, by decide, by decide, by decide, trivial⟩
  have hsql : (SharedSpec.select .postgres "t" [] (compose fresh additions).1
      (compose fresh additions).2).map Selection.sql =
        some "SELECT * FROM \"t\" WHERE ((\"c\" IS NULL) OR (\"a\" IS NULL)) LIMIT $1" := by
    decide +kernel
  have hne : ([⟨1⟩, ⟨3⟩, ⟨0⟩] : List Handle) ≠ [] := List.cons_ne_nil _ _
  obtain ⟨⟨group, hgroup, a, b, ha, hb, hsame⟩, _⟩ :=
    chain_sameQuery_flat hrooted rfl hcomposable .or hne rfl .postgres "t" []
  refine ⟨hrooted, hcomposable, rfl, group, hgroup, a, b, ha, hb, hsame, ?_⟩
  rw [ha] at hsql
  exact Option.some.inj hsql

end SharedSpec

end FilterQuery
