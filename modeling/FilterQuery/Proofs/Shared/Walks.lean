import FilterQuery.Proofs.Shared.Standing

/-!
# Walks see the tree and nothing else

What a walk gathers from shared nodes is what the tree gives that they stand for. So depth, document
and query of a handle or of a spec do not depend on how nodes are shared.
-/
namespace FilterQuery

namespace Condition

variable {α : Type}

mutual

/-- What is gathered from a condition, from its leaves up. -/
def fold (leaf : Predicate → α) (group : Connective → List α → α) : Condition → α
  | .leaf p => leaf p
  | .group c children => group c (folds leaf group children)

def folds (leaf : Predicate → α) (group : Connective → List α → α) : List Condition → List α
  | [] => []
  | x :: xs => x.fold leaf group :: folds leaf group xs

end

mutual

theorem fold_depth (x : Condition) :
    x.fold (fun _ => 1) (fun _ depths => 1 + depths.foldr max 0) = x.depth := by
  cases x with
  | leaf p => rfl
  | group c children => rw [fold, foldr_max_folds children, depth]

theorem foldr_max_folds (xs : List Condition) :
    (folds (fun _ => 1) (fun _ depths => 1 + depths.foldr max 0) xs).foldr max 0 = depths xs := by
  cases xs with
  | nil => rfl
  | cons x xs => rw [folds, List.foldr_cons, fold_depth x, foldr_max_folds xs, depths]

end

mutual

theorem fold_toJson (x : Condition) :
    x.fold Predicate.toJson
      (fun c children => .ofMembers [("logic", c.toJson), ("children", .array children)]) =
        x.toJson := by
  cases x with
  | leaf p => rfl
  | group c children => rw [fold, folds_toJson children, toJson]

theorem folds_toJson (xs : List Condition) :
    folds Predicate.toJson
      (fun c children => .ofMembers [("logic", c.toJson), ("children", .array children)]) xs =
        toJsons xs := by
  cases xs with
  | nil => rfl
  | cons x xs => rw [folds, fold_toJson x, folds_toJson xs, toJsons]

end

mutual

/-- The connective of the group around it matters to the call of a predicate only. -/
theorem fold_call (x : Condition) (parent : Connective) :
    x.fold Predicate.call Store.groupCall parent = x.call parent := by
  cases x with
  | leaf p => rfl
  | group c children =>
    have hcalls := map_folds_call children c
    cases children with
    | nil => rfl
    | cons child children =>
      rw [fold, call, ← hcalls]
      rfl

theorem map_folds_call (xs : List Condition) (c : Connective) :
    (folds Predicate.call Store.groupCall xs).map (· c) = calls c xs := by
  cases xs with
  | nil => rfl
  | cons x xs => rw [folds, List.map_cons, fold_call x, map_folds_call xs, calls]

end

theorem folds_eq_map (leaf : Predicate → α) (group : Connective → List α → α)
    (xs : List Condition) : folds leaf group xs = xs.map (fold leaf group) := by
  induction xs with
  | nil => rfl
  | cons x xs ih => rw [folds, ih, List.map_cons]

end Condition

namespace Store

variable {α : Type}

theorem mapM_map {β : Type} (f : Handle → Option α) (g : α → β) (hs : List Handle) :
    hs.mapM (fun h => (f h).map g) = (hs.mapM f).map (List.map g) := by
  induction hs with
  | nil => rfl
  | cons h hs ih =>
    simp only [List.mapM_cons, ih]
    cases f h with
    | none => rfl
    | some a => cases hs.mapM f <;> rfl

theorem walkWithin_eq (s : Store) (leaf : Predicate → α) (group : Connective → List α → α)
    (levels : Nat) (h : Handle) :
    s.walkWithin leaf group levels h =
      (s.unfoldWithin levels h).map (Condition.fold leaf group) := by
  induction levels generalizing h with
  | zero => rfl
  | succ levels ih =>
    unfold walkWithin unfoldWithin
    cases s.get? h with
    | none => rfl
    | some n =>
      cases n with
      | leaf p => rfl
      | group c children =>
        simp only [funext ih, mapM_map, Option.map_map]
        congr 1
        funext ts
        show group c (ts.map (Condition.fold leaf group)) = Condition.fold leaf group (.group c ts)
        rw [Condition.fold, Condition.folds_eq_map]

/-- A walk gathers what the tree gives that the handle stands for. -/
theorem walk_eq (s : Store) (leaf : Predicate → α) (group : Connective → List α → α) (h : Handle) :
    s.walk leaf group h = (s.unfold h).map (Condition.fold leaf group) :=
  s.walkWithin_eq leaf group s.size h

theorem depth_eq (s : Store) (h : Handle) : s.depth h = (s.unfold h).map Condition.depth := by
  rw [depth, walk_eq, funext Condition.fold_depth]

theorem toJson_eq (s : Store) (h : Handle) : s.toJson h = (s.unfold h).map Condition.toJson := by
  rw [toJson, walk_eq, funext Condition.fold_toJson]

theorem rootCall_eq (s : Store) (h : Handle) :
    s.rootCall h = (s.unfold h).map Condition.rootCall := by
  unfold rootCall
  split
  · next p node =>
    rw [(Stands.leaf node).unfold_eq]
    rfl
  · next hleaf =>
    rw [walk_eq, Option.map_map]
    cases ht : s.unfold h with
    | none => rfl
    | some t =>
      cases unfold_eq_some_iff.mp ht with
      | leaf node => exact absurd node (hleaf _)
      | @group _ c hs ts node children =>
        show some (Condition.fold Predicate.call groupCall (.group c ts) .and) = _
        rw [Condition.fold_call]
        rfl

end Store

namespace SharedSpec

theorem unfold_eq {spec : SharedSpec} {s : Store} {t : Option Condition}
    (ht : Option.Rel (Store.Stands s) spec.root t) : spec.unfold s = some (spec.withRoot t) := by
  unfold unfold
  generalize spec.root = root at ht
  cases ht with
  | none => rfl
  | some hstands => simp only [hstands.unfold_eq, Option.map_some]

/-- A spec on shared nodes is compiled as the tree is that its root stands for. -/
theorem calls_eq (spec : SharedSpec) (s : Store) :
    spec.calls s = (spec.unfold s).map Spec.calls := by
  unfold calls unfold
  cases spec.root with
  | none => rfl
  | some h =>
    simp only [Store.rootCall_eq, Option.map_map]
    rfl

theorem select_eq (dialect : Dialect) (table : String) (columns : List String) (spec : SharedSpec)
    (s : Store) :
    spec.select dialect table columns s =
      (spec.unfold s).map fun t => Selection.make dialect table columns (some t) := by
  rw [select, calls_eq, Option.map_map]
  rfl

theorem select_of_unfold {spec : SharedSpec} {s : Store} {t : Spec Condition}
    (h : spec.unfold s = some t) (dialect : Dialect) (table : String) (columns : List String) :
    spec.select dialect table columns s =
      some (Selection.make dialect table columns (some t)) := by
  rw [select_eq, h, Option.map_some]

end SharedSpec

/-- What there is to see of a handle is what there is to see of the tree: when it is unfolded, in
its depth and document, and when it is the root of a spec that is compiled. -/
structure Store.ReadsAs (s : Store) (h : Handle) (t : Condition) : Prop where
  unfold_eq : s.unfold h = some t
  depth_eq : s.depth h = some t.depth
  toJson_eq : s.toJson h = some t.toJson
  select_eq (dialect : Dialect) (table : String) (columns : List String) (spec : SharedSpec)
    (root : spec.root = some h) : spec.select dialect table columns s =
      some (Selection.make dialect table columns (some (spec.withRoot (some t))))

theorem Store.Stands.readsAs {s : Store} {h : Handle} {t : Condition} (ht : Stands s h t) :
    s.ReadsAs h t := by
  have hunfold := ht.unfold_eq
  refine ⟨hunfold, ?_, ?_, ?_⟩
  · rw [depth_eq, hunfold, Option.map_some]
  · rw [toJson_eq, hunfold, Option.map_some]
  · intro dialect table columns spec hroot
    exact SharedSpec.select_of_unfold (SharedSpec.unfold_eq (hroot ▸ .some ht)) dialect table columns

end FilterQuery
