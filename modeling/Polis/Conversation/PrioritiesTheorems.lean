import Polis.Conversation.Recompute
import Polis.Clustering.RealNumerics

/-!
# Comment priorities are routing weights

With pass votes those seen that neither agree nor disagree, the importance of a comment is a product
of positive factors over the square of the smoothed number of votes.

Reference: `polismath/conversation/conversation.py`.
-/

namespace Polis

open Clustering

variable [RealNumerics]

/-! ## The statement -/

section Metric

variable {A D S E : ℝ}

end Metric

/-! ## The stored priorities -/

end Polis
