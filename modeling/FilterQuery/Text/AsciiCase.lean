/-!
# Case of ASCII letters

Names of operators and dialects are compared after folding the case of ASCII letters; every other
character stays as it is.
-/
namespace FilterQuery.Text

/-- Capital ASCII letters for small ones. -/
def upper (s : String) : String := String.ofList (s.toList.map Char.toUpper)

/-- Small ASCII letters for capital ones. -/
def lower (s : String) : String := String.ofList (s.toList.map Char.toLower)

@[simp] theorem toList_upper (s : String) : (upper s).toList = s.toList.map Char.toUpper := by
  simp [upper]

@[simp] theorem toList_lower (s : String) : (lower s).toList = s.toList.map Char.toLower := by
  simp [lower]

end FilterQuery.Text
