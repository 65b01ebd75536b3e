import Mathlib.Algebra.Field.Basic
import Mathlib.Algebra.Order.Group.Unbundled.Basic

/-!
# Exact arithmetic of the engine

The engine computes in IEEE doubles. Here its formulas are read over an exact ordered field `K`,
with what the field does not give (square roots, powers of two, the silhouette score of scikit-learn
and the seeded uniform draws of numpy) as operations of a class. At `K = ℝ` with the real square
root this is exact real arithmetic.
-/

set_option linter.unusedSectionVars false

namespace Polis.Clustering

/-- The numeric operations the engine takes from its libraries. -/
class Numerics (K : Type*) where
  /-- `np.sqrt` -/
  sqrt : K → K
  /-- `2 ** x` -/
  exp2 : K → K
  /-- `sklearn.metrics.silhouette_score(data, labels)` -/
  silhouetteScore : List (List K) → List ℕ → K
  /-- The uniform draws of `np.random.default_rng(42)`, in order. -/
  uniform : ℕ → K

/-- The numeral 2 of a field, as the same term everywhere. -/
instance atLeastTwo_two : Nat.AtLeastTwo 2 := ⟨le_rfl⟩

variable {K : Type*} [Field K] [LinearOrder K] [Numerics K]

/-- `np.dot` of two vectors. -/
def dot (a b : List K) : K := (List.zipWith (· * ·) a b).sum

/-- `np.linalg.norm` of a vector. -/
def norm (a : List K) : K := Numerics.sqrt (dot a a)

/-- `values * c` on a vector. -/
def scale (c : K) (a : List K) : List K := a.map (c * ·)

/-- Column sums of a matrix with `n` columns. -/
def columnSums (n : ℕ) (rows : List (List K)) : List K :=
  rows.foldl (List.zipWith (· + ·)) (List.replicate n 0)

@[simp] theorem length_columnSums {n : ℕ} {rows : List (List K)} (h : ∀ r ∈ rows, r.length = n) :
    (columnSums n rows).length = n := by
  suffices ∀ acc : List K, acc.length = n →
      (rows.foldl (List.zipWith (· + ·)) acc).length = n from this _ (by simp)
  induction rows with
  | nil => exact fun acc hacc => hacc
  | cons r rows ih =>
    intro acc hacc
    refine ih (fun r hr => h r (List.mem_cons_of_mem _ hr)) _ ?_
    rw [List.length_zipWith, hacc, h r List.mem_cons_self, min_self]

end Polis.Clustering
