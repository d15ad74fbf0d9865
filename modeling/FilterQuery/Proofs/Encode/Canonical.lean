import FilterQuery.Proofs.Decode.Normal
import FilterQuery.Proofs.Encode.RoundTrip

/-!
# The canonical text of a decoded spec

Whatever is decoded is portable: its document says all of it. So its text in the indented layout is
decoded to the same spec again, and is the canonical one among all texts of the spec.
-/
namespace FilterQuery.Spec

open Json (ReadsBack)

/-- What a text is decoded to is portable. -/
theorem portable_of_ofText {text : String} {s : Spec Condition}
    (h : Decode.ofText Decode.spec text = .ok s) : s.Portable := by
  obtain ⟨t, ht, hends⟩ := Decode.bind_eq_ok_iff.mp h
  have hdecoded : Decode.spec Decode.nesting (Json.read text).json = .ok s := by
    split at hends
    · rw [ht, Except.ok.inj hends]
    · cases hends
  have hnormal := fun c (hc : s.root = some c) =>
    Decode.normalWithin_of_spec (Json.finite_read text) hdecoded hc
  refine ⟨fun c hc => (hnormal c hc).populated, fun c hc => ?_, ?_⟩
  · have hdepth := (hnormal c hc).depth
    omega
  · rw [forall_floats_iff, leaves]
    cases hroot : s.root with
    | none => exact fun p hp => absurd hp List.not_mem_nil
    | some c => exact (hnormal c hroot).finite

theorem Portable.ofText_prettyText {s : Spec Condition} (hs : s.Portable)
    (hfloats : ∀ x ∈ s.floats, x.isFinite = true → ReadsBack x) :
    Decode.ofText Decode.spec s.toJson.prettyText = .ok s := by
  rw [ofText_toJson_eq_ok_iff hfloats (.inr rfl)]
  exact ⟨fun c hc => ⟨hs.populated c hc, hs.depth c hc⟩, (kept_eq_self_iff.mpr hs.finite).symm⟩

/-- A portable spec equals itself. -/
theorem Portable.same_self {s : Spec Condition} (hs : s.Portable) :
    Spec.same Condition.same s s = true := by
  have hsame := same_kept_iff.mpr hs.finite
  rwa [kept_eq_self_iff.mpr hs.finite] at hsame

end FilterQuery.Spec
