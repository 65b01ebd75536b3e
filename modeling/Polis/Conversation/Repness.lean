import Polis.Common.Ranking
import Mathlib.Algebra.Group.Defs

/-!
# Representative comments of a group

One pass over the comments of a group gathers those that pass the tests, the best one while none does, and the
one that the group agrees on best. The entries are these, at most five of them, agreements before disagreements.

The numbers of a row are finite doubles: here any linear order with a product, the thresholds of the tests and
the rounding to single precision.

Reference: `delphi/polismath/pca_kmeans_rep/repness.py`.
-/

namespace Polis.Repness

/-- What the selection takes from the arithmetic of its numbers. -/
class StatNumber (R : Type*) extends LinearOrder R, Mul R, One R where
  Z_90 : R
  /-- `0.5` -/
  half : R
  /-- `np.float32` -/
  float32 : R → R

/-- The counts and statistics of a comment in a group. -/
structure Stats (R : Type*) where
  na : ℕ
  nd : ℕ
  ns : ℕ
  pa : R
  pd : R
  pat : R
  pdt : R
  ra : R
  rd : R
  rat : R
  rdt : R
  agree_metric : R
  disagree_metric : R
deriving DecidableEq

structure Row (R : Type*) extends Stats R where
  comment : ℤ
  group_id : ℤ
deriving DecidableEq

inductive Side
  | agree
  | disagree
deriving DecidableEq, Repr

/-- A row as it is published; only the best agreement has the last two. -/
structure Entry (R : Type*) extends Stats R where
  comment_id : ℤ
  group_id : ℤ
  repful : Side
  best_agree : Bool
  n_agree : Option ℕ
deriving DecidableEq

variable {R : Type*} [StatNumber R]

open StatNumber (Z_90 half float32)

/-! ## The tests -/

def z_score_sig_90 (z : R) : Bool := Z_90 < z

def passes_by_test (s : Row R) : Bool :=
  z_score_sig_90 s.rat && z_score_sig_90 s.pat || z_score_sig_90 s.rdt && z_score_sig_90 s.pdt

def beats_best_by_test (s : Row R) (current_best_z : Option R) : Bool :=
  match current_best_z with
  | none => true
  | some z => z < max s.rat s.rdt

def beats_best_agr (s : Row R) (current_best : Option (Row R)) : Bool :=
  if s.na = 0 ∧ s.nd = 0 then false
  else match current_best with
    | some best =>
      if 1 < best.ra then best.ra * best.rat * best.pa * best.pat < s.ra * s.rat * s.pa * s.pat
      else best.pa * best.pat < s.pa * s.pat
    | none => z_score_sig_90 s.pat || (1 < s.ra && half < s.pa)

/-- `_finalize_row_for_output` -/
def finalize_row_for_output (row : Row R) (is_best_agree : Bool) : Entry R where
  toStats := row.toStats
  comment_id := row.comment
  group_id := row.group_id
  repful := if row.rdt < row.rat then .agree else .disagree
  best_agree := is_best_agree
  n_agree := if is_best_agree then some row.na else none

/-! ## The pass -/

structure Selection (R : Type*) where
  sufficient : List (Entry R)
  best : Option (Entry R)
  best_max_rt : Option R
  best_agree : Option (Row R)

def addSufficient (s : Selection R) (row : Row R) : Selection R :=
  if passes_by_test row then { s with sufficient := s.sufficient ++ [finalize_row_for_output row false] } else s

/-- The best one is replaced only while none is sufficient. -/
def updateBest (s : Selection R) (row : Row R) : Selection R :=
  if s.sufficient = [] ∧ beats_best_by_test row s.best_max_rt then
    { s with
      best := some (finalize_row_for_output row false)
      best_max_rt := some (float32 (if row.rdt < row.rat then row.rat else row.rdt)) }
  else s

/-- The best agreement is kept as a raw row. -/
def updateBestAgree (s : Selection R) (row : Row R) : Selection R :=
  if beats_best_agr row s.best_agree then { s with best_agree := some row } else s

/-- The row of one comment. -/
def select (s : Selection R) (row : Row R) : Selection R :=
  updateBestAgree (updateBest (addSufficient s row) row) row

/-- The rows in the order of the pass. -/
def iter_df (stats_df : List (Row R)) (preserve_order : Bool) : List (Row R) :=
  if preserve_order then stats_df else stats_df.insertionSort fun a b => a.comment ≤ b.comment

/-- The rows that are not moderated out, in the order of the pass. -/
def eligible (stats_df : List (Row R)) (mod_out : List ℤ) (preserve_order : Bool) : List (Row R) :=
  (iter_df stats_df preserve_order).filter fun row => row.comment ∉ mod_out

def pass (rows : List (Row R)) : Selection R := rows.foldl select ⟨[], none, none, none⟩

/-- `_sort_key`: the metric of the winning side. -/
def sort_key (s : Entry R) : R :=
  match s.repful with
  | .agree => s.agree_metric
  | .disagree => s.disagree_metric

/-- Agreements before disagreements. -/
def agreesFirst (entries : List (Entry R)) : List (Entry R) :=
  entries.filter (·.repful = .agree) ++ entries.filter (·.repful = .disagree)

def select_rep_comments_df (stats_df : List (Row R)) (mod_out : List ℤ) (preserve_order : Bool) :
    List (Entry R) × Option (Entry R) :=
  let s := pass (eligible stats_df mod_out preserve_order)
  let best_agree_dict := s.best_agree.map fun row => finalize_row_for_output row true
  if s.sufficient = [] then
    match best_agree_dict with
    | some entry => ([], some entry)
    | none => (s.best.toList, none)
  else
    let deduped := s.sufficient.filter fun entry => some entry.comment_id ≠ s.best_agree.map (·.comment)
    let cap := 5 - (if best_agree_dict.isSome then 1 else 0)
    (agreesFirst (ranked sort_key cap deduped), best_agree_dict)

/-- `_assemble_rep_comments` -/
def assemble_rep_comments (stats_df : List (Row R)) (mod_out : List ℤ) (preserve_order : Bool) : List (Entry R) :=
  let (rep_df, best_agree_dict) := select_rep_comments_df stats_df mod_out preserve_order
  agreesFirst (best_agree_dict.toList ++ rep_df)

end Polis.Repness
