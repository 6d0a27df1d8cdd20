import AnimatedChart.Proofs.Animation.Base

/-!
# Static charts

A chart without an animated mark is lowered, and its marks go through the reordering by name all the same: a mark takes
the place of an earlier one of its name (`restoreOrder_names`).
-/

open List

namespace AnimatedChart.Animation

open Json Spec

variable {base : BaseCompiler} {c : Chart} {docs : List String} {marks named : List Mark} {m : Mark}

/-! ## Marks in their own order -/

end AnimatedChart.Animation
