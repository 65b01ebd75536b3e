import Polis.Clustering.Numerics
import Mathlib.Algebra.BigOperators.Group.List.Basic
import Mathlib.Tactic.Linarith
import Mathlib.Tactic.Ring

/-!
# The dot product of lists

Bilinearity and positivity. Whatever is linear in a vector is read off its dot products.
-/

namespace Polis.Clustering

open List

variable {K : Type*} [Field K] {a b : List K}

@[simp] theorem dot_nil_left (b : List K) : dot [] b = 0 := by simp [dot]

@[simp] theorem dot_nil_right (a : List K) : dot a [] = 0 := by simp [dot]

@[simp] theorem dot_cons (x y : K) (a b : List K) : dot (x :: a) (y :: b) = x * y + dot a b := by simp [dot]

@[simp] theorem dot_scale (c : K) (a b : List K) : dot (scale c a) b = c * dot a b := by
  induction a generalizing b with
  | nil => simp [scale]
  | cons x a ih =>
    cases b with
    | nil => simp
    | cons y b =>
      have hab : dot (a.map (c * ·)) b = c * dot a b := ih b
      rw [scale, map_cons, dot_cons, dot_cons, hab]
      ring

theorem dot_add (h : a.length = b.length) (u : List K) :
    dot (List.zipWith (· + ·) a b) u = dot a u + dot b u := by
  induction a generalizing b u with
  | nil => simp [length_eq_zero_iff.1 h.symm]
  | cons x a ih =>
    cases b with
    | nil => simp at h
    | cons y b =>
      cases u with
      | nil => simp
      | cons z u =>
        rw [zipWith_cons_cons, dot_cons, dot_cons, dot_cons, ih (by simpa using h)]
        ring

theorem dot_of_zero {a : List K} (h : ∀ x ∈ a, x = 0) (u : List K) : dot a u = 0 := by
  induction a generalizing u with
  | nil => simp
  | cons x a ih =>
    rw [forall_mem_cons] at h
    cases u with
    | nil => simp
    | cons z u => rw [dot_cons, h.1, ih h.2, zero_mul, zero_add]

theorem dot_columnSums {n : ℕ} {rows : List (List K)} (h : ∀ r ∈ rows, r.length = n) (u : List K) :
    dot (columnSums n rows) u = (rows.map (dot · u)).sum := by
  suffices ∀ acc : List K, acc.length = n → dot (rows.foldl (List.zipWith (· + ·)) acc) u =
      dot acc u + (rows.map (dot · u)).sum by
    rw [columnSums, this _ (length_replicate ..), dot_of_zero (fun _ => eq_of_mem_replicate), zero_add]
  induction rows with
  | nil => simp
  | cons r rows ih =>
    intro acc hacc
    have hr := h r mem_cons_self
    rw [foldl_cons, ih (fun r hr => h r (mem_cons_of_mem _ hr)) _ (by simp [hacc, hr]),
      dot_add (hacc.trans hr.symm), map_cons, sum_cons, add_assoc]

section Ordered

variable [LinearOrder K] [IsStrictOrderedRing K]

theorem dot_self_nonneg (a : List K) : 0 ≤ dot a a := by
  induction a with
  | nil => simp
  | cons x a ih =>
    rw [dot_cons]
    exact add_nonneg (mul_self_nonneg x) ih

/-- The squared distance in its dot form is one. -/
theorem sqDist_nonneg (a b : List K) : 0 ≤ dot a a + dot b b - 2 * dot a b := by
  induction a generalizing b with
  | nil => simpa using dot_self_nonneg b
  | cons x a ih =>
    cases b with
    | nil => simpa using dot_self_nonneg (x :: a)
    | cons y b =>
      simp only [dot_cons]
      nlinarith [ih b, mul_self_nonneg (x - y)]

/-- Only equal vectors are at distance zero. -/
theorem eq_of_sqDist (h : a.length = b.length) (hd : dot a a + dot b b - 2 * dot a b ≤ 0) : a = b := by
  induction a generalizing b with
  | nil => exact (length_eq_zero_iff.1 h.symm).symm
  | cons x a ih =>
    cases b with
    | nil => simp at h
    | cons y b =>
      simp only [dot_cons] at hd
      have hxy : (x - y) * (x - y) = 0 := by nlinarith [sqDist_nonneg a b, mul_self_nonneg (x - y)]
      rw [ih (by simpa using h) (by nlinarith [mul_self_nonneg (x - y)]), sub_eq_zero.1 (mul_self_eq_zero.1 hxy)]

end Ordered

/-- The sum of the squared differences is the squared distance in its dot form. -/
theorem sum_sub_mul_self (h : a.length = b.length) :
    (List.zipWith (fun x y => (x - y) * (x - y)) a b).sum = dot a a + dot b b - 2 * dot a b := by
  induction a generalizing b with
  | nil => simp [length_eq_zero_iff.1 h.symm]
  | cons x a ih =>
    cases b with
    | nil => simp at h
    | cons y b =>
      rw [zipWith_cons_cons, sum_cons, ih (by simpa using h)]
      simp only [dot_cons]
      ring

end Polis.Clustering
