import Polis.Clustering.Numerics
import Mathlib.Analysis.SpecialFunctions.Pow.Real

/-!
# The engine over the reals

Exact real arithmetic: the engine's square roots and powers of two are those of the reals. The
silhouette score and the uniform draws stay whatever they are.
-/

namespace Polis.Clustering

/-- The numeric operations over the reals, with exact square roots and powers of two. -/
class RealNumerics extends Numerics ℝ where
  sqrt_eq : ∀ x, sqrt x = √x
  exp2_eq : ∀ x, exp2 x = 2 ^ x

/-- Exact real arithmetic with the given silhouette score and draws. -/
noncomputable def RealNumerics.of (silhouetteScore : List (List ℝ) → List ℕ → ℝ) (uniform : ℕ → ℝ) :
    RealNumerics where
  sqrt := Real.sqrt
  exp2 x := 2 ^ x
  silhouetteScore
  uniform
  sqrt_eq _ := rfl
  exp2_eq _ := rfl

variable [RealNumerics]

end Polis.Clustering
