/-!
# The order of names

Names are ordered by their characters' code points, which is also the order of their bytes.
-/

namespace DesignDeps.Text

theorem lt_of_not_lt_of_ne {a b : String} (h : ¬a < b) (hn : a ≠ b) : b < a := by
  have hle : b ≤ a := String.not_lt.1 h
  exact Decidable.byContradiction fun hb =>
    hn (String.le_antisymm (String.not_lt.1 hb) hle)

end DesignDeps.Text
