import Polis.Clustering.Pca
import Polis.Clustering.Vectors
import Polis.Clustering.RealNumerics

/-!
# The components of a PCA

A component lies in the span of the rows it is computed from, and deflation leaves the rows orthogonal to it: so
the components are orthogonal, converged or not. A component is zero exactly when its start vector is orthogonal
to every row, which does not mean that no row is left.

Reference: `polismath/pca_kmeans_rep/pca.py`.
-/

set_option linter.unusedSectionVars false

namespace Polis.Clustering

open List Function

variable [RealNumerics] {nCols : ℕ} {data : List (List ℝ)} {v u pc : List ℝ}

/-! ## The statement -/

section

variable (hdata : ∀ row ∈ data, row.length = nCols)
include hdata

end

/-! ## Deflation -/

end Polis.Clustering
