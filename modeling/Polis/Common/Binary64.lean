import Polis.Common.Decimal
import Mathlib.Data.Int.Log
import Mathlib.Data.Nat.Factorization.Basic
import Mathlib.Data.Rat.Floor
import Mathlib.Algebra.Order.Field.Power
import Mathlib.Tactic.Positivity

/-!
# Binary64 numbers

Finite doubles as the rational numbers they denote, so that zero has one sign. `nearest` rounds to the
nearest double, and of two to the one with the even mantissa; `shortest` gives the fewest decimal digits
that round to a double, and of these the closest to it.
-/

namespace Polis.Binary64

open Nat

variable {a b q t x y : ℚ} {k : ℕ}

/-! ## Rounding -/

/-- The nearest whole number, and of two the even one. -/
def roundEven (t : ℚ) : ℤ :=
  if Int.fract t < 1 / 2 then ⌊t⌋
  else if 1 / 2 < Int.fract t then ⌊t⌋ + 1
  else if ⌊t⌋ % 2 = 0 then ⌊t⌋ else ⌊t⌋ + 1

theorem roundEven_cases (t : ℚ) :
    roundEven t = ⌊t⌋ ∧ Int.fract t ≤ 1 / 2 ∨ roundEven t = ⌊t⌋ + 1 ∧ 1 / 2 ≤ Int.fract t := by
  unfold roundEven
  split_ifs with h1 h2 h3
  · exact .inl ⟨rfl, h1.le⟩
  · exact .inr ⟨rfl, h2.le⟩
  · exact .inl ⟨rfl, not_lt.1 h2⟩
  · exact .inr ⟨rfl, not_lt.1 h1⟩

theorem abs_sub_roundEven (t : ℚ) : |t - roundEven t| ≤ 1 / 2 := by
  have hfloor := Int.floor_add_fract t
  have hlt := Int.fract_lt_one t
  have hnonneg := Int.fract_nonneg t
  rw [abs_le]
  rcases roundEven_cases t with ⟨h, hf⟩ | ⟨h, hf⟩
  · rw [h]
    constructor <;> linarith
  · rw [h]
    push_cast
    constructor <;> linarith

@[simp] theorem roundEven_intCast (n : ℤ) : roundEven n = n := by
  simp [roundEven]

theorem roundEven_mono (h : t ≤ q) : roundEven t ≤ roundEven q := by
  rcases (Int.floor_mono h).lt_or_eq with hlt | heq
  · have ht : roundEven t ≤ ⌊t⌋ + 1 := by rcases roundEven_cases t with ⟨h, -⟩ | ⟨h, -⟩ <;> omega
    have hq : ⌊q⌋ ≤ roundEven q := by rcases roundEven_cases q with ⟨h, -⟩ | ⟨h, -⟩ <;> omega
    omega
  · have hfract : Int.fract t ≤ Int.fract q := by
      rw [Int.fract, Int.fract, heq]
      linarith
    unfold roundEven
    rw [heq]
    split_ifs <;> first | omega | (exfalso; linarith)

/-- The exponent of the last place of the doubles about a positive number. -/
def lastPlace (a : ℚ) : ℤ := max (Int.log 2 a - 52) (-1074)

/-- Rounding without a bound on the exponent. -/
def magnitude (a : ℚ) : ℚ := roundEven (a / 2 ^ lastPlace a) * 2 ^ lastPlace a

/-- The nearest double; a number that overflows has none. -/
def nearest (q : ℚ) : Option ℚ :=
  if magnitude |q| < 2 ^ 1024 then some (if q < 0 then -magnitude |q| else magnitude |q|) else none

/-- A finite double. -/
def IsDouble (x : ℚ) : Prop :=
  ∃ m e : ℤ, |m| < 2 ^ 53 ∧ -1074 ≤ e ∧ x = m * 2 ^ e ∧ |x| < 2 ^ 1024

theorem two_zpow_pos (e : ℤ) : (0 : ℚ) < 2 ^ e := zpow_pos (by norm_num) e

theorem two_zpow_add (e f : ℤ) : (2 : ℚ) ^ (e + f) = 2 ^ e * 2 ^ f := zpow_add₀ (by norm_num) e f

theorem lt_lastPlace (a : ℚ) : a < 2 ^ (lastPlace a + 53) := by
  refine (Int.lt_zpow_succ_log_self (b := 2) (by norm_num) a).trans_le ?_
  have hle : Int.log 2 a + 1 ≤ lastPlace a + 53 := by
    have := le_max_left (Int.log 2 a - 52) (-1074)
    unfold lastPlace
    omega
  exact_mod_cast zpow_le_zpow_right₀ (by norm_num : (1 : ℚ) ≤ 2) hle

theorem lastPlace_le {e : ℤ} (ha : 0 < a) (he : -1074 ≤ e) (h : a < 2 ^ (e + 53)) : lastPlace a ≤ e := by
  refine max_le ?_ he
  have hlog : Int.log 2 a < e + 53 :=
    (Int.lt_zpow_iff_log_lt (b := 2) (by norm_num) ha).1 (by exact_mod_cast h)
  omega

theorem lastPlace_mono (ha : 0 < a) (h : a ≤ b) : lastPlace a ≤ lastPlace b :=
  max_le_max (by have := Int.log_mono_right (b := 2) ha h; omega) le_rfl

theorem mantissa_nonneg (ha : 0 ≤ a) : 0 ≤ roundEven (a / 2 ^ lastPlace a) := by
  rw [← roundEven_intCast 0]
  exact roundEven_mono (by rw [Int.cast_zero]; exact div_nonneg ha (two_zpow_pos _).le)

/-- The mantissa may be rounded up to the next power of two. -/
theorem mantissa_le (a : ℚ) : roundEven (a / 2 ^ lastPlace a) ≤ 2 ^ 53 := by
  have hdiv : a / 2 ^ lastPlace a ≤ ((2 ^ 53 : ℤ) : ℚ) := by
    rw [div_le_iff₀ (two_zpow_pos _)]
    have hlt := (lt_lastPlace a).le
    rw [add_comm, two_zpow_add] at hlt
    exact_mod_cast hlt
  exact (roundEven_mono hdiv).trans_eq (roundEven_intCast _)

theorem magnitude_nonneg (ha : 0 ≤ a) : 0 ≤ magnitude a :=
  mul_nonneg (by exact_mod_cast mantissa_nonneg ha) (two_zpow_pos _).le

/-- A multiple of the last place is not changed. -/
theorem magnitude_of_multiple {n : ℤ} (h : a = n * 2 ^ lastPlace a) : magnitude a = a := by
  have hdiv : a / 2 ^ lastPlace a = n := by
    rw [div_eq_iff (two_zpow_pos _).ne']
    exact h
  rw [magnitude, hdiv, roundEven_intCast, ← h]

@[simp] theorem magnitude_zero : magnitude 0 = 0 := magnitude_of_multiple (n := 0) (by simp)

/-- A double is its own rounding. -/
theorem magnitude_of_isDouble (hx : IsDouble x) (hpos : 0 ≤ x) : magnitude x = x := by
  obtain ⟨m, e, hm, he, rfl, -⟩ := hx
  rcases hpos.eq_or_lt with hzero | hpos
  · rw [← hzero, magnitude_zero]
  have hlt : (m : ℚ) * 2 ^ e < 2 ^ (e + 53) := by
    rw [add_comm, two_zpow_add]
    refine mul_lt_mul_of_pos_right ?_ (two_zpow_pos e)
    exact_mod_cast (abs_lt.1 hm).2
  obtain ⟨d, hd⟩ := Int.eq_ofNat_of_zero_le (sub_nonneg.2 (lastPlace_le hpos he hlt))
  refine magnitude_of_multiple (n := m * 2 ^ d) ?_
  have hsplit : e = d + lastPlace (m * 2 ^ e) := by omega
  have hpow : (2 : ℚ) ^ e = 2 ^ d * 2 ^ lastPlace (m * 2 ^ e) := by
    conv_lhs => rw [hsplit, two_zpow_add, zpow_natCast]
  push_cast
  rw [mul_assoc, ← hpow]

theorem magnitude_mono (ha : 0 < a) (h : a ≤ b) : magnitude a ≤ magnitude b := by
  rcases (lastPlace_mono ha h).lt_or_eq with hlt | heq
  · -- a power of two lies between them
    have hlog : lastPlace b = Int.log 2 b - 52 := by
      have := le_max_right (Int.log 2 a - 52) (-1074)
      unfold lastPlace at hlt ⊢
      omega
    have hbelow : magnitude a ≤ 2 ^ (lastPlace a + 53) := by
      rw [magnitude, add_comm, two_zpow_add]
      exact mul_le_mul_of_nonneg_right (by exact_mod_cast mantissa_le a) (two_zpow_pos _).le
    have habove : 2 ^ (lastPlace b + 52) ≤ magnitude b := by
      have hself := Int.zpow_log_le_self (b := 2) (by norm_num) (ha.trans_le h)
      have hdiv : ((2 ^ 52 : ℤ) : ℚ) ≤ b / 2 ^ lastPlace b := by
        rw [le_div_iff₀ (two_zpow_pos _)]
        have hexp : Int.log 2 b = 52 + lastPlace b := by omega
        rw [hexp] at hself
        push_cast at hself ⊢
        rw [two_zpow_add] at hself
        exact_mod_cast hself
      have hround := roundEven_mono hdiv
      rw [roundEven_intCast] at hround
      rw [magnitude, add_comm, two_zpow_add]
      exact mul_le_mul_of_nonneg_right (by exact_mod_cast hround) (two_zpow_pos _).le
    refine hbelow.trans (le_trans ?_ habove)
    exact zpow_le_zpow_right₀ (by norm_num) (by omega)
  · unfold magnitude
    rw [heq]
    have hdiv := div_le_div_of_nonneg_right h (two_zpow_pos (lastPlace b)).le
    exact mul_le_mul_of_nonneg_right (by exact_mod_cast roundEven_mono hdiv) (two_zpow_pos _).le

theorem abs_sub_magnitude (a : ℚ) : |a - magnitude a| ≤ 2 ^ lastPlace a / 2 := by
  have h := abs_sub_roundEven (a / 2 ^ lastPlace a)
  have hpos := two_zpow_pos (lastPlace a)
  have hscale : a - magnitude a = (a / 2 ^ lastPlace a - roundEven (a / 2 ^ lastPlace a)) *
      2 ^ lastPlace a := by
    rw [sub_mul, div_mul_cancel₀ _ hpos.ne', magnitude]
  rw [hscale, abs_mul, abs_of_pos hpos]
  calc _ ≤ 1 / 2 * 2 ^ lastPlace a := mul_le_mul_of_nonneg_right h hpos.le
    _ = _ := by ring

theorem magnitude_isDouble (ha : 0 ≤ a) (hlt : magnitude a < 2 ^ 1024) : IsDouble (magnitude a) := by
  have habs : |magnitude a| < 2 ^ 1024 := by rwa [abs_of_nonneg (magnitude_nonneg ha)]
  have hplace : -1074 ≤ lastPlace a := le_max_right _ _
  rcases (mantissa_le a).lt_or_eq with hm | hm
  · exact ⟨_, lastPlace a, by rwa [abs_of_nonneg (mantissa_nonneg ha)], hplace, rfl, habs⟩
  · refine ⟨2 ^ 52, lastPlace a + 1, by norm_num, by omega, ?_, habs⟩
    rw [magnitude, hm, two_zpow_add]
    push_cast
    ring

theorem IsDouble.neg (hx : IsDouble x) : IsDouble (-x) := by
  obtain ⟨m, e, hm, he, rfl, hlt⟩ := hx
  exact ⟨-m, e, by rwa [abs_neg], he, by push_cast; ring, by rwa [abs_neg]⟩

theorem IsDouble.abs (hx : IsDouble x) : IsDouble |x| := by
  rcases abs_choice x with h | h
  · rwa [h]
  · rw [h]
    exact hx.neg

theorem IsDouble.nearest (hx : IsDouble x) : nearest x = some x := by
  obtain ⟨-, -, -, -, -, hlt⟩ := id hx
  rw [Binary64.nearest, magnitude_of_isDouble hx.abs (abs_nonneg x), if_pos hlt]
  split
  · next h => rw [abs_of_neg h, neg_neg]
  · next h => rw [abs_of_nonneg (not_lt.1 h)]

theorem isDouble_of_nearest (h : nearest q = some x) : IsDouble x := by
  unfold nearest at h
  split at h
  · next hlt =>
    have hdouble := magnitude_isDouble (abs_nonneg q) hlt
    cases h
    split
    · exact hdouble.neg
    · exact hdouble
  · cases h

theorem nearest_neg (q : ℚ) : nearest (-q) = (nearest q).map Neg.neg := by
  unfold nearest
  rw [abs_neg]
  split
  · rcases lt_trichotomy q 0 with h | h | h
    · simp [h, not_lt.2 h.le]
    · simp [h]
    · simp [h, not_lt.2 h.le]
  · rfl

theorem nearest_eq_some (hx : 0 < x) : nearest q = some x ↔ 0 < q ∧ magnitude q = x ∧ x < 2 ^ 1024 := by
  have hneg : ∀ r, 0 ≤ r → -r ≠ x := fun r hr h => by linarith
  unfold nearest
  rcases lt_trichotomy q 0 with h | rfl | h
  · have hmag := magnitude_nonneg (abs_nonneg q)
    simp [h, not_lt.2 h.le, hneg _ hmag]
  · simp [hx.ne]
  · rw [abs_of_pos h, if_neg (not_lt.2 h.le)]
    constructor
    · intro heq
      split at heq
      · next hlt =>
        cases heq
        exact ⟨h, rfl, hlt⟩
      · cases heq
    · rintro ⟨-, rfl, hlt⟩
      rw [if_pos hlt]

/-- What lies between a number and the double it rounds to rounds to that double. -/
theorem nearest_between (hx : IsDouble x) (hpos : 0 < x) (h : nearest q = some x) (ht : 0 < t)
    (hbetween : q ≤ t ∧ t ≤ x ∨ x ≤ t ∧ t ≤ q) : nearest t = some x := by
  obtain ⟨hq, hmag, hlt⟩ := (nearest_eq_some hpos).1 h
  have hself := magnitude_of_isDouble hx hpos.le
  refine (nearest_eq_some hpos).2 ⟨ht, ?_, hlt⟩
  rcases hbetween with ⟨h1, h2⟩ | ⟨h1, h2⟩
  · exact le_antisymm (hself ▸ magnitude_mono ht h2) (hmag ▸ magnitude_mono hq h1)
  · exact le_antisymm (hmag ▸ magnitude_mono ht h2) (hself ▸ magnitude_mono hpos h1)

/-- Only numbers of the range of the doubles round to one other than zero. -/
theorem bounds_of_nearest (hx : 0 < x) (h : nearest q = some x) : 2 ^ (-1076 : ℤ) < q ∧ q < 2 ^ 1024 := by
  obtain ⟨hq, hmag, hlt⟩ := (nearest_eq_some hx).1 h
  constructor
  · by_contra hle
    rw [not_lt] at hle
    have hplace : lastPlace q = -1074 := by
      refine le_antisymm (lastPlace_le hq le_rfl (hle.trans_lt ?_)) (le_max_right _ _)
      exact zpow_lt_zpow_right₀ (by norm_num) (by norm_num)
    have hquarter : q / 2 ^ lastPlace q ≤ 1 / 4 := by
      rw [hplace, div_le_iff₀ (two_zpow_pos _)]
      refine hle.trans_eq ?_
      rw [show (-1076 : ℤ) = -2 + -1074 from rfl, two_zpow_add]
      norm_num
    have hzero : roundEven (q / 2 ^ lastPlace q) ≤ 0 := by
      have hround : roundEven (1 / 4) = 0 := by norm_num [roundEven]
      rw [← hround]
      exact roundEven_mono hquarter
    have : magnitude q ≤ 0 :=
      mul_nonpos_of_nonpos_of_nonneg (by exact_mod_cast hzero) (two_zpow_pos _).le
    linarith
  · by_contra hle
    rw [not_lt] at hle
    have hplace : lastPlace ((2 : ℚ) ^ 1024) = 972 := by
      have hlog := Int.log_zpow (R := ℚ) (b := 2) (by norm_num) ((1024 : ℕ) : ℤ)
      rw [zpow_natCast, cast_ofNat] at hlog
      rw [lastPlace, hlog]
      rfl
    have hself : magnitude ((2 : ℚ) ^ 1024) = 2 ^ 1024 := by
      refine magnitude_of_multiple (n := 2 ^ 52) ?_
      rw [hplace, Int.cast_pow, Int.cast_ofNat, ← zpow_natCast, ← zpow_natCast, ← two_zpow_add]
      rfl
    have hmono := magnitude_mono (by positivity) hle
    rw [hself, hmag] at hmono
    exact absurd hlt (not_lt.2 hmono)

/-! ## The fewest digits -/

/-- A decimal rounds to a double. -/
def RoundsTo (x : ℚ) (s : ℕ) (j : ℤ) : Prop := nearest (s * 10 ^ j) = some x

instance (x : ℚ) (s : ℕ) (j : ℤ) : Decidable (RoundsTo x s j) :=
  inferInstanceAs (Decidable (nearest (s * 10 ^ j) = some x))

/-- The exponent of the last of `k` decimal digits. -/
def unit (x : ℚ) (k : ℕ) : ℤ := Int.log 10 x - k + 1

/-- The greatest decimal of `k` digits that is at most `x`. -/
def below (x : ℚ) (k : ℕ) : ℕ := ⌊x / 10 ^ unit x k⌋₊

/-- How far a decimal is from `x`. -/
def gap (x : ℚ) (s : ℕ) (j : ℤ) : ℚ := |s * 10 ^ j - x|

/-- The closest decimal of `k` digits, if it rounds to `x`. -/
def candidate (x : ℚ) (k : ℕ) : Option ℕ :=
  let s := below x k
  let j := unit x k
  if RoundsTo x s j ∧ (RoundsTo x (s + 1) j → gap x s j ≤ gap x (s + 1) j) then some s
  else if RoundsTo x (s + 1) j then some (s + 1)
  else none

/-- The significant digits of `x` as a number, and the exponent of the last of them. -/
def shortest (x : ℚ) (h : ∃ k, (candidate x (k + 1)).isSome) : ℕ × ℤ :=
  let k := Nat.find h + 1
  let s := (candidate x k).getD 0
  if s = 10 ^ k then (1, unit x k + k) else (s, unit x k)

/-- The fewest digits that round to a double, and of these the closest to it. -/
structure Shortest (x : ℚ) (s : ℕ) (j : ℤ) : Prop where
  pos : 0 < s
  rounds : RoundsTo x s j
  fewest : ∀ s' j', RoundsTo x s' j' → (Nat.toDigits 10 s).length ≤ (Nat.toDigits 10 s').length
  closest : ∀ s' j', RoundsTo x s' j' → (Nat.toDigits 10 s').length = (Nat.toDigits 10 s).length →
    gap x s j ≤ gap x s' j'

theorem ten_zpow_pos (e : ℤ) : (0 : ℚ) < 10 ^ e := zpow_pos (by norm_num) e

theorem ten_zpow_add (e f : ℤ) : (10 : ℚ) ^ (e + f) = 10 ^ e * 10 ^ f := zpow_add₀ (by norm_num) e f

theorem lt_above (x : ℚ) (k : ℕ) : x < (below x k + 1 : ℕ) * 10 ^ unit x k := by
  rw [← div_lt_iff₀ (ten_zpow_pos _)]
  push_cast
  exact lt_floor_add_one _

section Grid

variable {s : ℕ} {j : ℤ} (hx : 0 < x) (hk : 0 < k)
include hx

theorem below_lt : below x k < 10 ^ k := by
  refine (floor_lt (div_nonneg hx.le (ten_zpow_pos _).le)).2 ?_
  rw [div_lt_iff₀ (ten_zpow_pos _)]
  have hself := Int.lt_zpow_succ_log_self (b := 10) (by norm_num) x
  have hexp : Int.log 10 x + 1 = k + unit x k := by
    unfold unit
    omega
  rw [hexp] at hself
  push_cast at hself ⊢
  rw [ten_zpow_add, zpow_natCast] at hself
  exact hself

theorem below_le : (below x k : ℚ) * 10 ^ unit x k ≤ x := by
  rw [← le_div_iff₀ (ten_zpow_pos _)]
  exact floor_le (div_nonneg hx.le (ten_zpow_pos _).le)

include hk

theorem ten_pow_le_below : 10 ^ (k - 1) ≤ below x k := by
  refine le_floor ?_
  rw [le_div_iff₀ (ten_zpow_pos _)]
  have hself := Int.zpow_log_le_self (b := 10) (by norm_num) hx
  have hexp : Int.log 10 x = (k - 1 : ℕ) + unit x k := by
    unfold unit
    omega
  rw [hexp] at hself
  push_cast at hself ⊢
  rw [ten_zpow_add, zpow_natCast] at hself
  exact hself

/-- A decimal of `k` digits is under those about `x`, or a multiple of their last place. -/
theorem grid_cases (hs : s < 10 ^ k) (j : ℤ) :
    (s : ℚ) * 10 ^ j < below x k * 10 ^ unit x k ∨ ∃ n : ℕ, (s : ℚ) * 10 ^ j = n * 10 ^ unit x k := by
  rcases lt_or_ge j (unit x k) with hj | hj
  · left
    have hle : (10 : ℚ) ^ (k + j) ≤ 10 ^ ((k - 1 : ℕ) + unit x k) :=
      zpow_le_zpow_right₀ (by norm_num) (by omega)
    have hbelow : ((10 ^ (k - 1) : ℕ) : ℚ) ≤ below x k := by exact_mod_cast ten_pow_le_below hx hk
    calc (s : ℚ) * 10 ^ j < 10 ^ (k : ℤ) * 10 ^ j :=
          mul_lt_mul_of_pos_right (by exact_mod_cast hs) (ten_zpow_pos j)
      _ = 10 ^ (k + j) := (ten_zpow_add _ _).symm
      _ ≤ 10 ^ ((k - 1 : ℕ) + unit x k) := hle
      _ = (10 ^ (k - 1) : ℕ) * 10 ^ unit x k := by rw [ten_zpow_add, zpow_natCast]; push_cast; rfl
      _ ≤ _ := mul_le_mul_of_nonneg_right hbelow (ten_zpow_pos _).le
  · right
    obtain ⟨d, hd⟩ := Int.eq_ofNat_of_zero_le (sub_nonneg.2 hj)
    refine ⟨s * 10 ^ d, ?_⟩
    have hsplit : j = d + unit x k := by omega
    rw [hsplit, ten_zpow_add, zpow_natCast]
    push_cast
    ring

/-- No decimal of `k` digits is closer to `x` on either side than the two about it. -/
theorem below_or_above (hs : s < 10 ^ k) (j : ℤ) :
    (s : ℚ) * 10 ^ j ≤ below x k * 10 ^ unit x k ∨
      (below x k + 1 : ℕ) * 10 ^ unit x k ≤ (s : ℚ) * 10 ^ j := by
  rcases grid_cases hx hk hs j with h | ⟨n, hn⟩
  · exact .inl h.le
  · rw [hn]
    rcases lt_or_ge (below x k) n with h | h
    · exact .inr (mul_le_mul_of_nonneg_right (by exact_mod_cast h) (ten_zpow_pos _).le)
    · exact .inl (mul_le_mul_of_nonneg_right (by exact_mod_cast h) (ten_zpow_pos _).le)

/-- If any decimal of `k` digits rounds to `x`, the candidate does, and is as close. -/
theorem candidate_of_roundsTo (hdouble : IsDouble x) (hs : s < 10 ^ k) (h : RoundsTo x s j) :
    ∃ c, candidate x k = some c ∧ RoundsTo x c (unit x k) ∧ gap x c (unit x k) ≤ gap x s j := by
  have hle := below_le hx (k := k)
  have hlt := lt_above x k
  have hbelow : 0 < (below x k : ℚ) * 10 ^ unit x k := by
    have hpow : 0 < 10 ^ (k - 1) := Nat.pow_pos (by norm_num)
    exact mul_pos (by exact_mod_cast hpow.trans_le (ten_pow_le_below hx hk)) (ten_zpow_pos _)
  -- one of the two about `x` lies between `x` and the given decimal
  have hnear : RoundsTo x (below x k) (unit x k) ∧ gap x (below x k) (unit x k) ≤ gap x s j ∨
      RoundsTo x (below x k + 1) (unit x k) ∧ gap x (below x k + 1) (unit x k) ≤ gap x s j := by
    rcases below_or_above hx hk hs j with hside | hside
    · refine .inl ⟨nearest_between hdouble hx h hbelow (.inl ⟨hside, hle⟩), ?_⟩
      rw [gap, gap, abs_of_nonpos (by linarith), abs_of_nonpos (by linarith)]
      linarith
    · refine .inr ⟨nearest_between hdouble hx h (hx.trans hlt) (.inr ⟨hlt.le, hside⟩), ?_⟩
      rw [gap, gap, abs_of_nonneg (by linarith), abs_of_nonneg (by linarith)]
      linarith
  unfold candidate
  dsimp only
  split_ifs with h1 h2
  · refine ⟨_, rfl, h1.1, ?_⟩
    rcases hnear with hnear | hnear
    · exact hnear.2
    · exact (h1.2 hnear.1).trans hnear.2
  · refine ⟨_, rfl, h2, ?_⟩
    rcases hnear with hnear | hnear
    · refine le_trans ?_ hnear.2
      have hgap : ¬gap x (below x k) (unit x k) ≤ gap x (below x k + 1) (unit x k) :=
        fun hgap => h1 ⟨hnear.1, fun _ => hgap⟩
      exact (not_le.1 hgap).le
    · exact hnear.2
  · rcases hnear with hnear | hnear
    · exact absurd ⟨hnear.1, fun habove => absurd habove h2⟩ h1
    · exact absurd hnear.1 h2

end Grid

theorem candidate_roundsTo {c : ℕ} (h : candidate x k = some c) : RoundsTo x c (unit x k) := by
  unfold candidate at h
  dsimp only at h
  split_ifs at h with h1 h2
  · cases h
    exact h1.1
  · cases h
    exact h2

theorem candidate_cases {c : ℕ} (h : candidate x k = some c) : c = below x k ∨ c = below x k + 1 := by
  unfold candidate at h
  dsimp only at h
  split_ifs at h with h1 h2
  · exact .inl (Option.some.inj h).symm
  · exact .inr (Option.some.inj h).symm

/-- A double has a finite decimal expansion. -/
theorem exists_candidate (hdouble : IsDouble x) (hx : 0 < x) : ∃ k, (candidate x (k + 1)).isSome := by
  obtain ⟨m, e, -, he, hval, -⟩ := id hdouble
  -- all digits down to the 1074th after the point
  obtain ⟨n, hn⟩ : ∃ n : ℕ, n = 1074 := ⟨_, rfl⟩
  let k : ℕ := (Int.log 10 x + n).toNat
  have hunit : unit x (k + 1) ≤ -n := by
    have := Int.self_le_toNat (Int.log 10 x + n)
    simp only [unit, k]
    push_cast
    omega
  obtain ⟨d, hd⟩ := Int.eq_ofNat_of_zero_le (sub_nonneg.2 hunit)
  obtain ⟨f, hf⟩ := Int.eq_ofNat_of_zero_le (by omega : 0 ≤ e + n)
  have hsplit : -unit x (k + 1) = n + d := by omega
  have hwhole : x / 10 ^ unit x (k + 1) = ((m * 2 ^ f * 5 ^ n * 10 ^ d : ℤ) : ℚ) := by
    have he' : e = f + -n := by omega
    rw [div_eq_mul_inv, ← zpow_neg, hsplit, ten_zpow_add, hval, he', two_zpow_add, zpow_natCast,
      zpow_natCast]
    have hten : (2 : ℚ) ^ (-n : ℤ) * 10 ^ (n : ℤ) = 5 ^ n := by
      rw [zpow_neg, inv_mul_eq_div, ← div_zpow]
      norm_num
    push_cast
    calc (m : ℚ) * (2 ^ f * 2 ^ (-n : ℤ)) * (10 ^ (n : ℤ) * 10 ^ d)
        = m * 2 ^ f * (2 ^ (-n : ℤ) * 10 ^ (n : ℤ)) * 10 ^ d := by ring
      _ = _ := by rw [hten]
  have hexact : (below x (k + 1) : ℚ) * 10 ^ unit x (k + 1) = x := by
    have hnonneg : (0 : ℚ) ≤ ((m * 2 ^ f * 5 ^ n * 10 ^ d : ℤ) : ℚ) :=
      hwhole ▸ div_nonneg hx.le (ten_zpow_pos _).le
    have hfloor : (below x (k + 1) : ℚ) = x / 10 ^ unit x (k + 1) := by
      have hint : ((below x (k + 1) : ℕ) : ℤ) = m * 2 ^ f * 5 ^ n * 10 ^ d := by
        rw [below, hwhole, Int.natCast_floor_eq_floor hnonneg, Int.floor_intCast]
      rw [hwhole, ← hint]
      norm_cast
    rw [hfloor, div_mul_cancel₀ _ (ten_zpow_pos _).ne']
  have hrounds : RoundsTo x (below x (k + 1)) (unit x (k + 1)) := by
    rw [RoundsTo, hexact]
    exact hdouble.nearest
  obtain ⟨c, hc, -⟩ := candidate_of_roundsTo hx k.succ_pos hdouble (below_lt hx) hrounds
  exact ⟨k, by rw [hc]; rfl⟩

theorem shortest_spec (hdouble : IsDouble x) (hx : 0 < x) (h : ∃ k, (candidate x (k + 1)).isSome) :
    Shortest x (shortest x h).1 (shortest x h).2 := by
  obtain ⟨c, hc⟩ := Option.isSome_iff_exists.1 (Nat.find_spec h)
  have hrounds := candidate_roundsTo hc
  generalize hk : Nat.find h + 1 = k at hc hrounds
  have hkpos : 0 < k := by omega
  have hlow := ten_pow_le_below hx hkpos
  have hpow : 0 < 10 ^ (k - 1) := Nat.pow_pos (by norm_num)
  have hle : c ≤ 10 ^ k := by
    have := below_lt hx (k := k)
    rcases candidate_cases hc with h | h <;> omega
  have hcpos : 0 < c := by rcases candidate_cases hc with h | h <;> omega
  -- the least number of digits is `k`
  have hleast : ∀ s j, RoundsTo x s j → k ≤ (Nat.toDigits 10 s).length := by
    intro s j hs
    have hlen : 0 < (Nat.toDigits 10 s).length := length_toDigits_pos
    obtain ⟨c', hc', -⟩ := candidate_of_roundsTo hx hlen hdouble
      ((length_toDigits_le_iff (by norm_num) hlen).1 le_rfl) hs
    have := Nat.find_min' h (m := (Nat.toDigits 10 s).length - 1)
      (by rw [Nat.sub_add_cancel hlen, hc']; rfl)
    omega
  have hvalue : ((shortest x h).1 : ℚ) * 10 ^ (shortest x h).2 = c * 10 ^ unit x k := by
    unfold shortest
    simp only [hk, hc, Option.getD_some]
    split
    · next heq =>
      rw [heq, add_comm, ten_zpow_add, zpow_natCast]
      push_cast
      ring
    · rfl
  have hlength : (Nat.toDigits 10 (shortest x h).1).length ≤ k := by
    rw [length_toDigits_le_iff (by norm_num) hkpos]
    unfold shortest
    simp only [hk, hc, Option.getD_some]
    split
    · exact one_lt_pow (by omega) (by norm_num)
    · next hne => exact lt_of_le_of_ne hle hne
  have hpos : 0 < (shortest x h).1 := by
    unfold shortest
    simp only [hk, hc, Option.getD_some]
    split
    · exact one_pos
    · exact hcpos
  refine ⟨hpos, by rwa [RoundsTo, hvalue], fun s j hs => hlength.trans (hleast s j hs), ?_⟩
  intro s j hs hlen
  have hs' : s < 10 ^ k :=
    (length_toDigits_le_iff (by norm_num) hkpos).1 (hlen.le.trans hlength)
  obtain ⟨c', hc', -, hgap⟩ := candidate_of_roundsTo hx hkpos hdouble hs' hs
  obtain rfl : c' = c := Option.some.inj (hc'.symm.trans hc)
  rwa [gap, hvalue]

/-! ## Whole numbers -/

theorem isDouble_natCast {n : ℕ} (hle : n ≤ 2 ^ 53) : IsDouble n := by
  have hlt : |(n : ℚ)| < 2 ^ 1024 := by
    rw [abs_of_nonneg (cast_nonneg n)]
    have h : (n : ℚ) ≤ 2 ^ 53 := by exact_mod_cast hle
    exact h.trans_lt (pow_lt_pow_right₀ (by norm_num) (by norm_num))
  rcases hle.lt_or_eq with h | h
  · refine ⟨n, 0, ?_, by norm_num, by simp, hlt⟩
    rw [abs_of_nonneg (Int.natCast_nonneg n)]
    exact_mod_cast h
  · refine ⟨2 ^ 52, 1, by norm_num, by norm_num, ?_, hlt⟩
    rw [h]
    norm_num

/-- A whole number is rounded to a whole number. -/
theorem magnitude_natCast (n : ℕ) : ∃ m : ℤ, magnitude n = m := by
  rcases lt_or_ge (lastPlace n) 0 with h | h
  · -- the last place is a fraction, and the number a multiple of it
    refine ⟨n, magnitude_of_multiple (n := n * 2 ^ (-lastPlace n).toNat) ?_⟩
    have hcast : ((2 : ℚ) ^ (-lastPlace (n : ℚ)).toNat) = 2 ^ (-lastPlace (n : ℚ)) := by
      rw [← zpow_natCast, Int.toNat_of_nonneg (by omega)]
    push_cast
    rw [hcast, mul_assoc, ← two_zpow_add, neg_add_cancel, zpow_zero, mul_one]
  · refine ⟨roundEven (n / 2 ^ lastPlace n) * 2 ^ (lastPlace n).toNat, ?_⟩
    have hcast : ((2 : ℚ) ^ (lastPlace (n : ℚ)).toNat) = 2 ^ lastPlace (n : ℚ) := by
      rw [← zpow_natCast, Int.toNat_of_nonneg h]
    push_cast
    rw [hcast, magnitude]

theorem nearest_intCast {n : ℤ} {x : ℚ} (h : nearest n = some x) : ∃ m : ℤ, x = m := by
  obtain ⟨m, hm⟩ := magnitude_natCast n.natAbs
  have habs : |(n : ℚ)| = (n.natAbs : ℚ) := by rw [cast_natAbs, Int.cast_abs]
  unfold nearest at h
  rw [habs, hm] at h
  split at h
  · obtain rfl := Option.some.inj h
    split
    · exact ⟨-m, by push_cast; rfl⟩
    · exact ⟨m, rfl⟩
  · cases h

/-- Below 2^53 a number that rounds to a whole one is within a half of it, and at 2^53 within one. -/
theorem abs_sub_le_of_nearest {n : ℕ} (hn : 0 < n) (hle : n ≤ 2 ^ 53) (h : nearest q = some (n : ℚ)) :
    |q - n| ≤ 1 / 2 ∨ n = 2 ^ 53 ∧ |q - n| ≤ 1 := by
  obtain ⟨hq, hmag, -⟩ := (nearest_eq_some (by exact_mod_cast hn)).1 h
  have habs := abs_sub_magnitude q
  rw [hmag] at habs
  have hplace : ∀ e : ℕ, q < 2 ^ (e + 53) → |q - n| ≤ 2 ^ e / 2 := by
    intro e hlt
    refine habs.trans (div_le_div_of_nonneg_right ?_ (by norm_num))
    rw [← zpow_natCast]
    exact zpow_le_zpow_right₀ (by norm_num) (lastPlace_le hq (by omega) (by exact_mod_cast hlt))
  rcases lt_or_ge q (2 ^ 53) with hlt | hge
  · left
    simpa using hplace 0 (by simpa using hlt)
  · right
    have hself := magnitude_of_isDouble (isDouble_natCast (n := 2 ^ 53) le_rfl) (by positivity)
    have hmono := magnitude_mono (a := ((2 ^ 53 : ℕ) : ℚ)) (b := q) (by positivity) (by exact_mod_cast hge)
    rw [hself, hmag] at hmono
    have hn' : n = 2 ^ 53 := le_antisymm hle (by exact_mod_cast hmono)
    refine ⟨hn', ?_⟩
    have hlt : q < 2 ^ (1 + 53) := by
      by_contra hge'
      have hdouble : IsDouble ((2 ^ 54 : ℕ) : ℚ) := by
        refine ⟨1, 54, by norm_num, by norm_num, by norm_num, ?_⟩
        rw [abs_of_nonneg (by positivity)]
        exact_mod_cast pow_lt_pow_right₀ (a := (2 : ℚ)) one_lt_two (by norm_num : 54 < 1024)
      have hmono' := magnitude_mono (a := ((2 ^ 54 : ℕ) : ℚ)) (b := q) (by positivity)
        (by push_cast; exact not_lt.1 hge')
      rw [magnitude_of_isDouble hdouble (by positivity), hmag, hn'] at hmono'
      norm_num at hmono'
    simpa using hplace 1 hlt

/-- A whole number without zeros at the end is the least that differs from another by a power of ten. -/
theorem le_of_mul_pow_eq {s m d z : ℕ} (hm : ¬10 ∣ m) (h : s * 10 ^ d = 10 ^ z * m) : m ≤ s := by
  have hdz : d ≤ z := by
    by_contra hzd
    obtain ⟨f, hf⟩ := Nat.exists_eq_add_of_lt (not_le.1 hzd)
    refine hm ⟨s * 10 ^ f, Nat.eq_of_mul_eq_mul_left (Nat.pow_pos (by norm_num) : 0 < 10 ^ z) ?_⟩
    rw [← h, hf]
    ring
  obtain ⟨f, hf⟩ := Nat.exists_eq_add_of_le hdz
  have hsm : s = m * 10 ^ f := by
    refine Nat.eq_of_mul_eq_mul_left (Nat.pow_pos (by norm_num) : 0 < 10 ^ d) ?_
    rw [mul_comm, h, hf]
    ring
  rw [hsm]
  exact Nat.le_mul_of_pos_right _ (Nat.pow_pos (by norm_num))

/-- No decimal of fewer digits rounds to a whole number up to 2^53 than the whole number has. -/
theorem length_le_of_roundsTo {n m s z : ℕ} {j : ℤ} (hle : n ≤ 2 ^ 53) (hz : n = 10 ^ z * m)
    (hm : ¬10 ∣ m) (hs : 0 < s) (h : RoundsTo n s j) :
    (Nat.toDigits 10 m).length ≤ (Nat.toDigits 10 s).length := by
  by_contra hlen
  have hpos : 0 < (Nat.toDigits 10 s).length := length_toDigits_pos
  have hsk : s < 10 ^ (Nat.toDigits 10 s).length :=
    (length_toDigits_le_iff (by norm_num) hpos).1 le_rfl
  have hmk : 10 ^ (Nat.toDigits 10 s).length ≤ m := by
    by_contra hlt
    exact hlen ((length_toDigits_le_iff (by norm_num) hpos).2 (not_le.1 hlt))
  have hmn : m ≤ n := by
    rw [hz]
    exact Nat.le_mul_of_pos_left _ (Nat.pow_pos (by norm_num))
  have hnear := abs_sub_le_of_nearest (hs.trans_le (by omega)) hle h
  rcases lt_or_ge j 0 with hj | hj
  · -- the decimal is a tenth of `n` at most
    have hv : (s : ℚ) * 10 ^ j ≤ s * 10⁻¹ := by
      refine mul_le_mul_of_nonneg_left ?_ (cast_nonneg s)
      rw [← zpow_neg_one]
      exact zpow_le_zpow_right₀ (by norm_num) (by omega)
    have hsn : (s : ℚ) + 1 ≤ n := by exact_mod_cast hsk.trans_le (hmk.trans hmn)
    have hs1 : (1 : ℚ) ≤ s := by exact_mod_cast hs
    have habs : |(s : ℚ) * 10 ^ j - n| ≤ 1 := by
      rcases hnear with hnear | ⟨-, hnear⟩ <;> linarith
    have := (abs_le.1 habs).1
    linarith
  · obtain ⟨d, rfl⟩ := Int.eq_ofNat_of_zero_le hj
    have hne : s * 10 ^ d ≠ n := fun heq =>
      absurd (le_of_mul_pow_eq hm (heq.trans hz)) (not_le.2 (hsk.trans_le hmk))
    have hv : (s : ℚ) * 10 ^ (d : ℤ) - n = (((s * 10 ^ d : ℕ) : ℤ) - n : ℤ) := by
      rw [zpow_natCast]
      push_cast
      rfl
    rw [hv, ← Int.cast_abs] at hnear
    rcases hnear with hnear | ⟨h53, hnear⟩
    · have hlt : |((s * 10 ^ d : ℕ) : ℤ) - n| < 1 := by
        exact_mod_cast hnear.trans_lt (by norm_num : (1 / 2 : ℚ) < 1)
      rw [abs_lt] at hlt
      omega
    · -- of the neighbours of 2^53 none ends with a zero, and fewer digits are too small
      have hone : |((s * 10 ^ d : ℕ) : ℤ) - n| ≤ 1 := by exact_mod_cast hnear
      rw [abs_le] at hone
      subst h53
      have hlen16 : (Nat.toDigits 10 m).length ≤ 16 :=
        (length_toDigits_le_iff (by norm_num) (by norm_num)).2 (by omega)
      have hs15 : s < 10 ^ 15 := hsk.trans_le (Nat.pow_le_pow_right (by norm_num) (by omega))
      cases d with
      | zero => omega
      | succ d =>
        rw [pow_succ, ← mul_assoc] at hone hne
        omega

/-- The fewest digits of a whole number up to 2^53 are its own. -/
theorem Shortest.eq_of_natCast {n s : ℕ} {j : ℤ} (hn : 0 < n) (hle : n ≤ 2 ^ 53)
    (h : Shortest n s j) : (s : ℚ) * 10 ^ j = n := by
  obtain ⟨z, m, hm, hz⟩ := exists_eq_pow_mul_and_not_dvd hn.ne' 10 (by norm_num)
  have hval : (m : ℚ) * 10 ^ (z : ℤ) = n := by
    rw [hz, zpow_natCast]
    push_cast
    ring
  have hself : RoundsTo n m z := by
    rw [RoundsTo, hval]
    exact (isDouble_natCast hle).nearest
  have hgap := h.closest m z hself
    (le_antisymm (length_le_of_roundsTo hle hz hm h.pos h.rounds) (h.fewest m z hself))
  rw [gap, gap, hval, sub_self, abs_zero] at hgap
  exact sub_eq_zero.1 (abs_eq_zero.1 (le_antisymm hgap (abs_nonneg _)))

/-- They are the whole number but for the zeros at its end. -/
theorem Shortest.exists_natCast {n s : ℕ} {j : ℤ} (hn : 0 < n) (hle : n ≤ 2 ^ 53)
    (h : Shortest n s j) : ∃ d : ℕ, j = d ∧ n = s * 10 ^ d := by
  have heq := h.eq_of_natCast hn hle
  rcases lt_or_ge j 0 with hj | hj
  · -- a point among the digits would be one digit more
    exfalso
    obtain ⟨d, hd⟩ := Int.eq_ofNat_of_zero_le (by omega : 0 ≤ -j - 1)
    have hs : s = n * 10 ^ d * 10 := by
      have hinv : (10 : ℚ) ^ j * 10 ^ (-j) = 1 := by
        rw [← ten_zpow_add, add_neg_cancel, zpow_zero]
      have hexp : -j = d + 1 := by omega
      have hq : (s : ℚ) = n * 10 ^ d * 10 := by
        calc (s : ℚ) = s * (10 ^ j * 10 ^ (-j)) := by rw [hinv, mul_one]
          _ = n * 10 ^ (-j) := by rw [← mul_assoc, heq]
          _ = n * 10 ^ d * 10 := by rw [hexp, ten_zpow_add, zpow_natCast, zpow_one, mul_assoc]
      exact_mod_cast hq
    have hself : RoundsTo n n 0 := by
      rw [RoundsTo, zpow_zero, mul_one]
      exact (isDouble_natCast hle).nearest
    have hlen := h.fewest n 0 hself
    have hpos : 0 < (Nat.toDigits 10 n).length := length_toDigits_pos
    have hslt := (length_toDigits_le_iff (by norm_num) hpos).1 hlen
    have hnle : n ≤ n * 10 ^ d := Nat.le_mul_of_pos_right _ (Nat.pow_pos (by norm_num))
    obtain ⟨l, hl⟩ := Nat.exists_eq_add_of_lt hpos
    rw [zero_add] at hl
    have hnl : 10 ^ l ≤ n := by
      by_contra hlt
      rcases l.eq_zero_or_pos with rfl | hlpos
      · omega
      · have := (length_toDigits_le_iff (by norm_num) hlpos).2 (not_le.1 hlt)
        omega
    rw [hl, pow_succ] at hslt
    omega
  · obtain ⟨d, rfl⟩ := Int.eq_ofNat_of_zero_le hj
    refine ⟨d, rfl, ?_⟩
    rw [zpow_natCast] at heq
    exact_mod_cast heq.symm

/-! ## Doubles -/

/-- A finite double; the two zeros are equal. -/
structure Double where
  value : ℚ
  isDouble : IsDouble value
deriving DecidableEq

namespace Double

/-- The nearest double; a number that overflows has none. -/
def round (q : ℚ) : Option Double :=
  match h : nearest q with
  | some x => some ⟨x, isDouble_of_nearest h⟩
  | none => none

/-- The shortest digits of the magnitude. -/
def digits (x : Double) : ℕ × ℤ :=
  if h : 0 < |x.value| then shortest |x.value| (exists_candidate x.isDouble.abs h) else (0, 0)

/-- The decimal that is printed. -/
def decimal (x : Double) : Decimal :=
  Decimal.trimScale ⟨(if x.value < 0 then -1 else 1) * (x.digits.1 * 10 ^ x.digits.2.toNat),
    (-x.digits.2).toNat⟩

theorem value_of_round {q : ℚ} {x : Double} (h : round q = some x) : nearest q = some x.value := by
  unfold round at h
  split at h
  · next y hy =>
    cases h
    exact hy
  · cases h

theorem round_of_isDouble {q : ℚ} (h : IsDouble q) : round q = some ⟨q, h⟩ := by
  unfold round
  split
  · next x hx =>
    obtain rfl : q = x := Option.some.inj (h.nearest.symm.trans hx)
    rfl
  · next hnone =>
    rw [h.nearest] at hnone
    cases hnone

end Double

end Polis.Binary64
