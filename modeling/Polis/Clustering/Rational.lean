import Polis.Clustering.Numerics
import Mathlib.Data.Rat.Sqrt
import Mathlib.Data.Rat.Floor

/-!
# The engine over the rationals

An instance on which the engine can be run. Square roots are exact on squares, powers of two on
integers; the uniform draws are the first two of the seeded generator, repeated.
-/

namespace Polis.Clustering

/-- The distance of two rows. -/
private def rowDistance (a b : List ℚ) : ℚ :=
  Rat.sqrt ((List.zipWith (fun x y => (x - y) * (x - y)) a b).sum)

private def mean (l : List ℚ) : ℚ := l.sum / (l.length : ℚ)

/-- The silhouette coefficient of the row at position `i`: how much nearer its own cluster is than
the nearest other one; 0 in a singleton. -/
private def silhouetteSample (data : List (List ℚ)) (labels : List ℕ) (i : ℕ) : ℚ :=
  let row := data.getD i []
  let label := labels.getD i 0
  let distancesTo := fun l => ((data.zip labels).zipIdx.filter fun e => e.1.2 = l ∧ e.2 ≠ i).map
    fun e => rowDistance row e.1.1
  let others := (labels.dedup.filter (· ≠ label)).map fun l => mean (distancesTo l)
  if (distancesTo label).isEmpty then 0
  else
    let a := mean (distancesTo label)
    let b := (others.min?).getD 0
    (b - a) / max a b

instance : Numerics ℚ where
  sqrt := Rat.sqrt
  exp2 x := 2 ^ ⌊x⌋
  silhouetteScore data labels :=
    mean ((List.range data.length).map (silhouetteSample data labels))
  uniform i := if i % 2 = 0 then 7739560485559633 / 10 ^ 16 else 4388784397520523 / 10 ^ 16

end Polis.Clustering
