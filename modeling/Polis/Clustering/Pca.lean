import Polis.Clustering.Numerics
import Mathlib.Data.List.Basic

/-!
# Power-iteration PCA

The warm-started power iteration with deflation, the sparsity-aware projection of participants and
the projection of comments, over exact arithmetic. Votes are numbers, a missing vote is `none`.

Reference: `polismath/pca_kmeans_rep/pca.py`.
-/

set_option linter.unusedSectionVars false

namespace Polis.Clustering

open List

variable {K : Type*} [Field K] [LinearOrder K] [Numerics K]
variable {nCols : ℕ}
variable {data : List (List K)}

/-- A PCA result: column means and unit components as rows. -/
structure Pca (K : Type*) where
  center : List K
  comps : List (List K)

/-- `_ordered_center`: the row sum times the reciprocal count. -/
def orderedCenter (nCols : ℕ) (data : List (List K)) : List K :=
  scale (1 / (data.length : K)) (columnSums nCols data)

/-- The start vector brought to `n` columns: padded with ones when shorter, truncated when
longer. -/
def fitStart (n : ℕ) (v : List K) : List K :=
  if v.length < n then v ++ List.replicate (n - v.length) 1 else v.take n

/-- `Xᵀ (X v)` -/
def powerProduct (nCols : ℕ) (data : List (List K)) (v : List K) : List K :=
  columnSums nCols (data.map fun row => scale (dot row v) row)

/-- The loop of `_power_iteration` with `remaining` products left after this one. -/
def powerIterationLoop (nCols : ℕ) (data : List (List K)) : ℕ → List K → K → List K
  | remaining, vec, lastEigval =>
    let product := powerProduct nCols data vec
    let eigval := norm product
    if eigval = 0 then product
    else
      let normed := scale (1 / eigval) product
      match remaining with
      | 0 => normed
      | remaining + 1 =>
        if eigval = lastEigval then normed
        else powerIterationLoop nCols data remaining normed eigval

/-- `_power_iteration` -/
def powerIteration (nCols : ℕ) (data : List (List K)) (iters : ℕ) (start : List K) : List K :=
  powerIterationLoop nCols data iters (fitStart nCols start) 0

/-- `_factor_matrix`: remove the direction `xs` from every row. -/
def factorMatrix (data : List (List K)) (xs : List K) : List (List K) :=
  let denom := dot xs xs
  if denom = 0 then data
  else data.map fun row => List.zipWith (· - ·) row (scale (dot row xs * (1 / denom)) xs)

/-- The component loop of `powerit_pca`: `starts` seeds component by component, an absent or
all-zero entry falling back to the next `nCols` uniform draws. -/
def poweritComps (nCols iters : ℕ) :
    (todo : ℕ) → (drawn : ℕ) → (starts : List (List K)) → List (List K) → List (List K)
  | 0, _, _, _ => []
  | todo + 1, drawn, starts, deflated =>
    let provided := starts.head?.filter fun v => v.any (· ≠ 0)
    let start := provided.getD ((List.range nCols).map fun j => Numerics.uniform (drawn + j))
    let drawn := if provided.isSome then drawn else drawn + nCols
    let pc := powerIteration nCols deflated iters start
    pc :: poweritComps nCols iters todo drawn starts.tail (factorMatrix deflated pc)

/-- `powerit_pca` -/
def poweritPca (nCols : ℕ) (data : List (List K)) (nComps iters : ℕ) (starts : List (List K)) :
    Pca K :=
  let center := orderedCenter nCols data
  let centered := data.map fun row => List.zipWith (· - ·) row center
  let nCompsEff := max 1 (min nComps (min data.length nCols))
  { center, comps := poweritComps nCols iters nCompsEff 0 starts centered }

/-- `_sparse_projections`: accumulate the observed coordinates, then multiply by the sparsity
scale. -/
def sparseProjections (data : List (List (Option K))) (center : List K) (comps : List (List K))
    (nComps : ℕ) : List (List K) :=
  if comps.length < nComps then data.map fun _ => List.replicate nComps 0
  else data.map fun row =>
    let centered := List.zipWith (fun x c => (x.map (· - c)).getD 0) row center
    let seen := (row.filter Option.isSome).length
    let factor := Numerics.sqrt ((row.length : K) / ((max seen 1 : ℕ) : K))
    comps.map fun pc => factor * dot centered pc

/-- Mean of the votes cast in one column, 0 when there is none. -/
def columnMean (column : List (Option K)) : K :=
  let votes := column.filterMap id
  if votes.isEmpty then 0 else votes.sum / (votes.length : K)

/-- `pca_project_dataframe` on the power-iteration path (`require_powerit=True`). -/
def pcaProjectDataframe (nCols : ℕ) (data : List (List (Option K))) (nComps : ℕ)
    (starts : List (List K)) : Pca K × List (List K) :=
  let colMeans := (List.range nCols).map fun j => columnMean (data.map fun row => row.getD j none)
  let imputed := data.map fun row => List.zipWith (fun x m => x.getD m) row colMeans
  let pca := poweritPca nCols imputed nComps 100 starts
  (pca, sparseProjections data pca.center pca.comps nComps)

/-- `pca_project_cmnts`: each comment as one lone agree vote (`AGREE = 1`). -/
def pcaProjectCmnts (center : List K) (comps : List (List K)) : List (List K) :=
  match comps with
  | [] => center.map fun _ => [0, 0]
  | [_] => center.map fun _ => [0, 0]
  | comps =>
    let factor := Numerics.sqrt (center.length : K)
    center.zipIdx.map fun (c, j) => comps.map fun pc => factor * (1 - c) * pc.getD j 0

/-- `compute_comment_extremity`: the norm of each projection row. -/
def computeCommentExtremity (cmntProj : List (List K)) : List K := cmntProj.map norm

section

variable (hdata : ∀ row ∈ data, row.length = nCols)
include hdata

theorem length_powerIterationLoop
    (remaining : ℕ) (vec : List K) (eig : K) :
    (powerIterationLoop nCols data remaining vec eig).length = nCols := by
  have hprod : ∀ v : List K, (powerProduct nCols data v).length = nCols := fun v =>
    length_columnSums fun r hr => by
      obtain ⟨row, hrow, rfl⟩ := mem_map.1 hr
      rw [scale, length_map, hdata row hrow]
  induction remaining generalizing vec eig with
  | zero =>
    unfold powerIterationLoop
    simp only
    split <;> simp [scale, hprod]
  | succ remaining ih =>
    unfold powerIterationLoop
    simp only
    split
    · exact hprod vec
    · split
      · simp [scale, hprod]
      · exact ih _ _

theorem length_powerIteration
    (iters : ℕ) (start : List K) :
    (powerIteration nCols data iters start).length = nCols :=
  length_powerIterationLoop hdata iters _ 0

/-- Deflation keeps the columns. -/
theorem length_of_mem_factorMatrix {xs : List K}
    (hxs : xs.length = nCols) :
    ∀ row ∈ factorMatrix data xs, row.length = nCols := by
  unfold factorMatrix
  dsimp only
  split
  · exact hdata
  · intro row' hrow'
    obtain ⟨row, hrow, rfl⟩ := mem_map.1 hrow'
    simp [scale, hdata row hrow, hxs]

end

/-- The component loop answers with as many components as asked for, each over all columns. -/
theorem poweritComps_shape (iters todo drawn : ℕ) (starts : List (List K))
    {deflated : List (List K)} (h : ∀ row ∈ deflated, row.length = nCols) :
    (poweritComps nCols iters todo drawn starts deflated).length = todo ∧
    ∀ pc ∈ poweritComps nCols iters todo drawn starts deflated, pc.length = nCols := by
  induction todo generalizing drawn starts deflated with
  | zero => simp [poweritComps]
  | succ todo ih =>
    simp only [poweritComps]
    have hpc := length_powerIteration h iters ((starts.head?.filter fun v => v.any (· ≠ 0)).getD
      ((List.range nCols).map fun j => Numerics.uniform (drawn + j)))
    obtain ⟨hlen, hall⟩ := ih _ starts.tail (length_of_mem_factorMatrix h hpc)
    refine ⟨by rw [length_cons, hlen], fun pc hmem => ?_⟩
    rcases mem_cons.1 hmem with rfl | hmem
    · exact hpc
    · exact hall pc hmem

/-- At most `nComps` components, when one was asked for; center and components over all columns. -/
theorem poweritPca_shape {nCols nComps : ℕ} (iters : ℕ)
    (starts : List (List K)) (hdata : ∀ row ∈ data, row.length = nCols) (hn : 0 < nComps) :
    (poweritPca nCols data nComps iters starts).center.length = nCols ∧
    (poweritPca nCols data nComps iters starts).comps.length ≤ nComps ∧
    ∀ pc ∈ (poweritPca nCols data nComps iters starts).comps, pc.length = nCols := by
  have hcenter : (orderedCenter nCols data).length = nCols := by
    rw [orderedCenter, scale, length_map, length_columnSums hdata]
  have hcentered : ∀ row ∈ data.map fun row =>
      List.zipWith (· - ·) row (orderedCenter nCols data), row.length = nCols := by
    intro row' hrow'
    obtain ⟨row, hrow, rfl⟩ := mem_map.1 hrow'
    rw [length_zipWith, hdata row hrow, hcenter, min_self]
  obtain ⟨hlen, hall⟩ := poweritComps_shape iters
    (max 1 (min nComps (min data.length nCols))) 0 starts hcentered
  refine ⟨hcenter, ?_, hall⟩
  simp only [poweritPca]
  omega

@[simp] theorem length_sparseProjections (data : List (List (Option K))) (center : List K)
    (comps : List (List K)) (nComps : ℕ) :
    (sparseProjections data center comps nComps).length = data.length := by
  unfold sparseProjections
  split <;> simp

/-- Every row is projected. -/
@[simp] theorem length_pcaProjectDataframe (nCols : ℕ) (data : List (List (Option K))) (nComps : ℕ)
    (starts : List (List K)) : (pcaProjectDataframe nCols data nComps starts).2.length =
      data.length :=
  length_sparseProjections _ _ _ _

/-- The PCA of a data frame covers its columns, and a participant projects to `nComps`
coordinates. -/
theorem pcaProjectDataframe_shape {nCols nComps : ℕ} {data : List (List (Option K))}
    (starts : List (List K)) (hdata : ∀ row ∈ data, row.length = nCols) (hn : 0 < nComps) :
    (pcaProjectDataframe nCols data nComps starts).1.center.length = nCols ∧
    (∀ pc ∈ (pcaProjectDataframe nCols data nComps starts).1.comps, pc.length = nCols) ∧
    ∀ row ∈ (pcaProjectDataframe nCols data nComps starts).2, row.length = nComps := by
  simp only [pcaProjectDataframe]
  generalize himputed : (data.map fun row => List.zipWith (fun x m => x.getD m) row
    ((List.range nCols).map fun j => columnMean (data.map fun row => row.getD j none))) = imputed
  have hrows : ∀ row ∈ imputed, row.length = nCols := by
    intro row' hrow'
    rw [← himputed] at hrow'
    obtain ⟨row, hrow, rfl⟩ := mem_map.1 hrow'
    simp [hdata row hrow]
  obtain ⟨hcenter, hlen, hall⟩ := poweritPca_shape 100 starts hrows hn
  refine ⟨hcenter, hall, fun row hrow => ?_⟩
  unfold sparseProjections at hrow
  split at hrow
  · -- a rank-capped PCA projects everyone to the origin
    obtain ⟨-, -, rfl⟩ := mem_map.1 hrow
    simp
  · next hfull =>
      obtain ⟨-, -, rfl⟩ := mem_map.1 hrow
      rw [length_map]
      omega

end Polis.Clustering
