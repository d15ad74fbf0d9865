import FilterQuery.Proofs.Compile.Parameters

/-!
# What a document keeps of a spec

JSON has no number for infinities and for what is no number: a document has `null` in their place.
A spec without such numbers is kept as it is.
-/
namespace FilterQuery

/-- A finite number equals itself. -/
theorem beq_self_of_isFinite {x : Float} (h : x.isFinite = true) : (x == x) = true := by
  have hcompare : ∀ u : Float.Model.UnpackedFloat, u.isFinite = true → u.compare u = some .eq := by
    intro u hu
    cases u with
    | notANumber => cases hu
    | infinity sign => cases hu
    | zero sign => cases sign <;> rfl
    | finite sign mantissa exponent positive =>
      have hself : (compare exponent exponent).then (compare mantissa mantissa) = .eq := by simp
      cases sign with
      | positive => exact congrArg some hself
      | negative => exact congrArg (fun o => some o.swap) hself
  have hbeq := hcompare x.toModel.unpack h
  show (x.toModel.unpack.compare x.toModel.unpack == some .eq) = true
  rw [hbeq]
  rfl

namespace Scalar

def float? : Scalar → Option Float
  | float x => some x
  | _ => none

/-- What a document keeps of the scalar. -/
def kept : Scalar → Scalar
  | float x => if x.isFinite then float x else null
  | a => a

/-- Every number in the scalar is finite. -/
def Finite (a : Scalar) : Prop := ∀ x, a.float? = some x → x.isFinite = true

theorem kept_eq_self_iff {a : Scalar} : a.kept = a ↔ a.Finite := by
  cases a with
  | float x =>
    by_cases hx : x.isFinite = true
    · simp [kept, Finite, float?, hx]
    · simp [kept, Finite, float?, hx]
  | _ => simp [kept, Finite, float?]

theorem same_kept_iff {a : Scalar} : a.same a.kept = true ↔ a.Finite := by
  cases a with
  | float x =>
    by_cases hx : x.isFinite = true
    · simp [kept, Finite, float?, hx, same, beq_self_of_isFinite hx]
    · simp [kept, Finite, float?, hx, same]
  | _ => simp [kept, Finite, float?, same]

end Scalar

namespace Operand

def scalars : Operand → List Scalar
  | scalar value => [value]
  | list values => values

def kept : Operand → Operand
  | scalar value => scalar value.kept
  | list values => list (values.map Scalar.kept)

theorem kept_eq_self_iff {o : Operand} : o.kept = o ↔ ∀ a ∈ o.scalars, a.Finite := by
  cases o with
  | scalar value => simp [kept, scalars, Scalar.kept_eq_self_iff]
  | list values =>
    rw [kept, list.injEq, scalars]
    induction values with
    | nil => simp
    | cons a values ih => simp [Scalar.kept_eq_self_iff, ih]

theorem same_kept_iff {o : Operand} : o.same o.kept = true ↔ ∀ a ∈ o.scalars, a.Finite := by
  cases o with
  | scalar value => simp [kept, scalars, same, Scalar.same_kept_iff]
  | list values =>
    rw [kept, scalars]
    induction values with
    | nil => simp [same]
    | cons a values ih =>
      have hcons : (list (a :: values)).same (list ((a :: values).map Scalar.kept)) =
          (a.same a.kept && (list values).same (list (values.map Scalar.kept))) := by
        simp [same]
      rw [hcons, Bool.and_eq_true, ih, Scalar.same_kept_iff, List.forall_mem_cons]

end Operand

namespace Predicate

def kept (p : Predicate) : Predicate := { p with operand := p.operand.kept }

/-- The floating-point numbers of the operand. -/
def floats (p : Predicate) : List Float := p.operand.scalars.filterMap Scalar.float?

theorem finite_iff {p : Predicate} :
    (∀ a ∈ p.operand.scalars, a.Finite) ↔ ∀ x ∈ p.floats, x.isFinite = true := by
  simp only [floats, List.mem_filterMap, Scalar.Finite]
  constructor
  · rintro h x ⟨a, ha, hx⟩
    exact h a ha x hx
  · intro h a ha x hx
    exact h x ⟨a, ha, hx⟩

theorem kept_eq_self_iff {p : Predicate} : p.kept = p ↔ ∀ x ∈ p.floats, x.isFinite = true := by
  rw [← finite_iff, ← Operand.kept_eq_self_iff]
  obtain ⟨operator, field, operand⟩ := p
  simp [kept]

theorem same_kept_iff {p : Predicate} :
    p.same p.kept = true ↔ ∀ x ∈ p.floats, x.isFinite = true := by
  rw [← finite_iff, ← Operand.same_kept_iff]
  simp [kept, same]

end Predicate

namespace Condition

mutual

/-- What a document keeps of the condition. -/
def kept : Condition → Condition
  | leaf p => leaf p.kept
  | group c children => group c (keptAll children)

def keptAll : List Condition → List Condition
  | [] => []
  | x :: xs => x.kept :: keptAll xs

end

mutual

/-- No group has no children. -/
def populated : Condition → Bool
  | leaf _ => true
  | group _ children => !children.isEmpty && populatedAll children

def populatedAll : List Condition → Bool
  | [] => true
  | x :: xs => x.populated && populatedAll xs

end

mutual

theorem kept_eq_self_iff (x : Condition) :
    x.kept = x ↔ ∀ p ∈ x.leaves, ∀ a ∈ p.floats, a.isFinite = true := by
  cases x with
  | leaf p => simp [kept, leaves, Predicate.kept_eq_self_iff]
  | group c children => simp [kept, leaves, keptAll_eq_self_iff children]

theorem keptAll_eq_self_iff (xs : List Condition) :
    keptAll xs = xs ↔ ∀ p ∈ leavesOfAll xs, ∀ a ∈ p.floats, a.isFinite = true := by
  cases xs with
  | nil => simp [keptAll, leavesOfAll]
  | cons x xs =>
    rw [keptAll, leavesOfAll, List.cons.injEq, kept_eq_self_iff x, keptAll_eq_self_iff xs,
      List.forall_mem_append]

end

mutual

theorem same_kept_iff (x : Condition) :
    x.same x.kept = true ↔ ∀ p ∈ x.leaves, ∀ a ∈ p.floats, a.isFinite = true := by
  cases x with
  | leaf p => simp [kept, leaves, same, Predicate.same_kept_iff]
  | group c children => simp [kept, leaves, same, sames_keptAll_iff children]

theorem sames_keptAll_iff (xs : List Condition) :
    sames xs (keptAll xs) = true ↔
      ∀ p ∈ leavesOfAll xs, ∀ a ∈ p.floats, a.isFinite = true := by
  cases xs with
  | nil => simp [keptAll, leavesOfAll, sames]
  | cons x xs =>
    rw [keptAll, leavesOfAll, sames, Bool.and_eq_true, same_kept_iff x, sames_keptAll_iff xs,
      List.forall_mem_append]

end

end Condition

namespace Spec

/-- The floating-point numbers of the predicates. -/
def floats (s : Spec Condition) : List Float := s.leaves.flatMap Predicate.floats

/-- What a document keeps of the spec. -/
def kept (s : Spec Condition) : Spec Condition := s.withRoot (s.root.map Condition.kept)

theorem forall_floats_iff {s : Spec Condition} {P : Float → Prop} :
    (∀ x ∈ s.floats, P x) ↔ ∀ p ∈ s.leaves, ∀ x ∈ p.floats, P x := List.forall_mem_flatMap

theorem kept_eq_self_iff {s : Spec Condition} : s.kept = s ↔ ∀ x ∈ s.floats, x.isFinite = true := by
  rw [forall_floats_iff]
  obtain ⟨root, sorts, offset, limit⟩ := s
  cases root with
  | none => simp [kept, withRoot, leaves]
  | some c => simp [kept, withRoot, leaves, c.kept_eq_self_iff]

/-- What is kept equals the spec where its numbers are finite. -/
theorem same_kept_iff {s : Spec Condition} :
    Spec.same Condition.same s s.kept = true ↔ ∀ x ∈ s.floats, x.isFinite = true := by
  rw [forall_floats_iff]
  obtain ⟨root, sorts, offset, limit⟩ := s
  cases root with
  | none => simp [kept, withRoot, same, leaves]
  | some c => simp [kept, withRoot, same, leaves, c.same_kept_iff]

end Spec

end FilterQuery
