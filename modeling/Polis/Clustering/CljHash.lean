import Mathlib.Data.List.Lex
import Mathlib.Data.List.Sort
import Mathlib.Data.Nat.Bitwise
import Mathlib.Data.Int.ModEq
import Mathlib.Data.Int.SuccPred
import Mathlib.Data.Int.ConditionallyCompleteOrder

/-!
# Clojure hash-map iteration order

`hasheq` of a Long is murmur3-32 over its two 32-bit halves, and a `PersistentHashMap` iterates its
entries by the successive 5-bit chunks of the hash, low chunk first. Keys are native integers.

Reference: `polismath/utils/clj_hash.py`.
-/

namespace Polis.Clustering

private def mask32 : ℕ := 0xFFFFFFFF

private def rotl32 (x r : ℕ) : ℕ := ((x <<< r) ||| (x >>> (32 - r))) &&& mask32

private def mixK1 (k1 : ℕ) : ℕ :=
  (rotl32 ((k1 * 0xCC9E2D51) &&& mask32) 15 * 0x1B873593) &&& mask32

private def mixH1 (h1 k1 : ℕ) : ℕ :=
  (rotl32 (h1 ^^^ k1) 13 * 5 + 0xE6546B64) &&& mask32

private def fmix (h1 length : ℕ) : ℕ :=
  let h1 := h1 ^^^ length
  let h1 := h1 ^^^ (h1 >>> 16)
  let h1 := (h1 * 0x85EBCA6B) &&& mask32
  let h1 := h1 ^^^ (h1 >>> 13)
  let h1 := (h1 * 0xC2B2AE35) &&& mask32
  h1 ^^^ (h1 >>> 16)

/-- Clojure `hasheq` for a Long: `Murmur3.hashLong`. -/
def clojureLongHash (value : ℤ) : ℕ :=
  if value = 0 then 0
  else
    -- two's-complement view of the long
    let v := (value % 2 ^ 64).toNat
    let low := v &&& mask32
    let high := (v >>> 32) &&& mask32
    fmix (mixH1 (mixH1 0 (mixK1 low)) (mixK1 high)) 8

/-- The seven 5-bit chunks of a hash, low chunk first. -/
def hamtPath (h : ℕ) : List ℕ :=
  (List.range 7).map fun i => (h >>> (5 * i)) &&& 0x1F

/-- Lexicographic order on paths (Python's tuple order). -/
def pathLe : List ℕ → List ℕ → Bool
  | [], _ => true
  | _ :: _, [] => false
  | a :: as, b :: bs => a < b || (a == b && pathLe as bs)

/-- `keys` in `PersistentHashMap` iteration order; the sort is stable. -/
def clojureHashMapKeyOrder (keys : List ℤ) : List ℤ :=
  keys.insertionSort fun a b =>
    pathLe (hamtPath (clojureLongHash a)) (hamtPath (clojureLongHash b)) = true

theorem clojureHashMapKeyOrder_perm (keys : List ℤ) : (clojureHashMapKeyOrder keys).Perm keys :=
  List.perm_insertionSort _ keys

/-! ## Injectivity -/

/-- Distinct keys the hash tells apart are listed in one order, whatever order they come in. -/
structure OrderIndependent (keys : List ℤ) : Prop where
  /-- The result is a permutation of the keys. -/
  perm : (clojureHashMapKeyOrder keys).Perm keys
  /-- Every permutation of the keys gives the same result. -/
  same : ∀ keys', keys'.Perm keys → clojureHashMapKeyOrder keys' = clojureHashMapKeyOrder keys

private theorem and_mask32 (x : ℕ) : x &&& mask32 = x % 2 ^ 32 := Nat.and_two_pow_sub_one_eq_mod x 32

/-- An xor-shift loses nothing: the difference of two preimages equals its own shift. -/
theorem xorShift_inj {s x y : ℕ} (hs : 0 < s) (h : x ^^^ (x >>> s) = y ^^^ (y >>> s)) : x = y := by
  have hself : x ^^^ y = (x ^^^ y) >>> s := by
    rw [Nat.shiftRight_xor_distrib]
    apply Nat.eq_of_testBit_eq
    intro i
    have hbit := congrArg (Nat.testBit · i) h
    simp only [Nat.testBit_xor] at hbit ⊢
    revert hbit
    cases x.testBit i <;> cases y.testBit i <;> cases (x >>> s).testBit i <;>
      cases (y >>> s).testBit i <;> simp
  have hzero : x ^^^ y = 0 := by
    by_contra hne
    have hlt : (x ^^^ y) / 2 ^ s < x ^^^ y :=
      Nat.div_lt_self (Nat.pos_of_ne_zero hne) (Nat.one_lt_two_pow hs.ne')
    rw [Nat.shiftRight_eq_div_pow] at hself
    omega
  exact Nat.xor_eq_zero_iff.1 hzero

/-- Odd multiplication modulo a power of two is invertible. -/
private theorem mul_mask32_inj {c x y : ℕ} (hc : c.Coprime (2 ^ 32)) (hx : x < 2 ^ 32) (hy : y < 2 ^ 32)
    (h : (x * c) &&& mask32 = (y * c) &&& mask32) : x = y := by
  rw [and_mask32, and_mask32] at h
  have hmod : x ≡ y [MOD 2 ^ 32] := Nat.ModEq.cancel_right_of_coprime hc.symm h
  exact hmod.eq_of_lt_of_lt hx hy

/-- A rotation only moves the bits. -/
private theorem testBit_rotl32 {r x i : ℕ} (hr : r < 32) (hx : x < 2 ^ 32) (hi : i < 32) :
    (rotl32 x r).testBit ((i + r) % 32) = x.testBit i := by
  rw [rotl32, and_mask32, Nat.testBit_mod_two_pow]
  have hlt : (i + r) % 32 < 32 := Nat.mod_lt _ (by decide)
  simp only [hlt, decide_true, Bool.true_and, Nat.testBit_or, Nat.testBit_shiftLeft, Nat.testBit_shiftRight]
  rcases Nat.lt_or_ge (i + r) 32 with hlow | hhigh
  · have hmod : (i + r) % 32 = i + r := Nat.mod_eq_of_lt hlow
    have hout : x.testBit (32 - r + (i + r)) = false :=
      Nat.testBit_lt_two_pow (lt_of_lt_of_le hx (Nat.pow_le_pow_right (by decide) (by omega)))
    simp [hmod, hout]
  · have hmod : (i + r) % 32 = i + r - 32 := by omega
    have hback : 32 - r + (i + r - 32) = i := by omega
    have hlow : ¬ r ≤ i + r - 32 := by omega
    simp [hmod, hback, hlow]

private theorem rotl32_inj {r x y : ℕ} (hr : r < 32) (hx : x < 2 ^ 32) (hy : y < 2 ^ 32)
    (h : rotl32 x r = rotl32 y r) : x = y := by
  apply Nat.eq_of_testBit_eq
  intro i
  rcases Nat.lt_or_ge i 32 with hi | hi
  · rw [← testBit_rotl32 hr hx hi, h, testBit_rotl32 hr hy hi]
  · have hpow : 2 ^ 32 ≤ 2 ^ i := Nat.pow_le_pow_right (by decide) hi
    rw [Nat.testBit_lt_two_pow (hx.trans_le hpow), Nat.testBit_lt_two_pow (hy.trans_le hpow)]

private theorem mask32_lt (x : ℕ) : x &&& mask32 < 2 ^ 32 := by
  rw [and_mask32]
  exact Nat.mod_lt _ (by decide)

private theorem mixK1_lt (k : ℕ) : mixK1 k < 2 ^ 32 := mask32_lt _

private theorem mixH1_lt (h1 k : ℕ) : mixH1 h1 k < 2 ^ 32 := mask32_lt _

private theorem mixK1_inj {x y : ℕ} (hx : x < 2 ^ 32) (hy : y < 2 ^ 32) (h : mixK1 x = mixK1 y) :
    x = y := by
  have hrot := mul_mask32_inj (by decide) (mask32_lt _) (mask32_lt _) h
  exact mul_mask32_inj (by decide) hx hy (rotl32_inj (by decide) (mask32_lt _) (mask32_lt _) hrot)

private theorem mixH1_inj {h1 h1' k k' : ℕ} (hx : h1 ^^^ k < 2 ^ 32) (hy : h1' ^^^ k' < 2 ^ 32)
    (h : mixH1 h1 k = mixH1 h1' k') : h1 ^^^ k = h1' ^^^ k' := by
  unfold mixH1 at h
  rw [and_mask32, and_mask32] at h
  have hmul := Nat.ModEq.cancel_right_of_coprime (m := 2 ^ 32) (c := 5) (by decide)
    (Nat.ModEq.add_right_cancel' 0xE6546B64 h)
  exact rotl32_inj (by decide) hx hy (hmul.eq_of_lt_of_lt (mask32_lt _) (mask32_lt _))

private theorem xorShift_lt {s x : ℕ} (hx : x < 2 ^ 32) : x ^^^ (x >>> s) < 2 ^ 32 :=
  Nat.xor_lt_two_pow hx ((Nat.shiftRight_le x s).trans_lt hx)

private theorem fmix_inj {x y n : ℕ} (hn : n < 2 ^ 32) (hx : x < 2 ^ 32) (hy : y < 2 ^ 32)
    (h : fmix x n = fmix y n) : x = y := by
  have hmul := mul_mask32_inj (by decide) (xorShift_lt (mask32_lt _)) (xorShift_lt (mask32_lt _))
    (xorShift_inj (by decide) h)
  have hxor := xorShift_inj (by decide) (mul_mask32_inj (by decide)
    (xorShift_lt (Nat.xor_lt_two_pow hx hn)) (xorShift_lt (Nat.xor_lt_two_pow hy hn))
    (xorShift_inj (by decide) hmul))
  exact Nat.xor_left_inj.1 hxor

private theorem fmix_lt {x n : ℕ} : fmix x n < 2 ^ 32 := xorShift_lt (mask32_lt _)

/-- The hash of a key with an empty high half: the second mixing round only rotates and adds. -/
private theorem clojureLongHash_eq {value : ℤ} (hpos : 0 < value) (hlt : value < 2 ^ 32) :
    clojureLongHash value = fmix (mixH1 (mixH1 0 (mixK1 value.toNat)) 0) 8 := by
  have hv : (value % 2 ^ 64).toNat = value.toNat := by omega
  have hlow : value.toNat &&& mask32 = value.toNat := by
    rw [and_mask32]
    omega
  have hhigh : value.toNat >>> 32 = 0 := by
    rw [Nat.shiftRight_eq_div_pow]
    omega
  simp only [clojureLongHash, if_neg hpos.ne', hv, hlow, hhigh, Nat.zero_and]
  rfl

theorem clojureLongHash_lt (value : ℤ) : clojureLongHash value < 2 ^ 32 := by
  unfold clojureLongHash
  split
  · decide
  · exact fmix_lt

/-- Every step of the hash is invertible modulo 2 ^ 32. -/
theorem clojureLongHash_inj {a b : ℤ} (ha : 0 < a ∧ a < 2 ^ 32) (hb : 0 < b ∧ b < 2 ^ 32)
    (h : clojureLongHash a = clojureLongHash b) : a = b := by
  rw [clojureLongHash_eq ha.1 ha.2, clojureLongHash_eq hb.1 hb.2] at h
  have hround : ∀ h1 k : ℕ, h1 < 2 ^ 32 → k < 2 ^ 32 → h1 ^^^ k < 2 ^ 32 := fun _ _ =>
    Nat.xor_lt_two_pow
  have hfmix := fmix_inj (by decide) (mixH1_lt _ _) (mixH1_lt _ _) h
  have hhigh := Nat.xor_left_inj.1 (mixH1_inj (hround _ _ (mixH1_lt _ _) (by decide))
    (hround _ _ (mixH1_lt _ _) (by decide)) hfmix)
  have hlow := Nat.xor_right_inj.1 (mixH1_inj (hround _ _ (by decide) (mixK1_lt _))
    (hround _ _ (by decide) (mixK1_lt _)) hhigh)
  have hkey : a.toNat = b.toNat := mixK1_inj (by omega) (by omega) hlow
  omega

/-! ## The path -/

/-- Seven chunks of five bits hold all of a 32-bit hash. -/
theorem hamtPath_inj {h h' : ℕ} (hlt : h < 2 ^ 32) (hlt' : h' < 2 ^ 32)
    (heq : hamtPath h = hamtPath h') : h = h' := by
  have hchunk : ∀ x i : ℕ, (x >>> (5 * i)) &&& 0x1F = x / 2 ^ (5 * i) % 2 ^ 5 := fun x i => by
    rw [Nat.shiftRight_eq_div_pow]
    exact Nat.and_two_pow_sub_one_eq_mod _ 5
  simp only [hamtPath, hchunk, List.map_inj_left, List.mem_range] at heq
  have h0 := heq 0 (by decide)
  have h1 := heq 1 (by decide)
  have h2 := heq 2 (by decide)
  have h3 := heq 3 (by decide)
  have h4 := heq 4 (by decide)
  have h5 := heq 5 (by decide)
  have h6 := heq 6 (by decide)
  omega

/-- The order of paths is the lexicographic order of lists. -/
theorem pathLe_iff (p q : List ℕ) : pathLe p q = true ↔ p ≤ q := by
  induction p generalizing q with
  | nil => exact iff_of_true rfl (not_lt.1 (List.not_lt_nil q))
  | cons a p ih =>
    cases q with
    | nil => exact iff_of_false nofun (not_le.2 (List.nil_lt_cons a p))
    | cons b q =>
      rw [← not_lt, List.cons_lt_cons_iff]
      rcases lt_trichotomy a b with h | rfl | h
      · simp [pathLe, h, h.not_gt, h.ne']
      · simp [pathLe, ih]
      · simp [pathLe, h, h.not_gt, h.ne']

private def keyLe (a b : ℤ) : Prop :=
  pathLe (hamtPath (clojureLongHash a)) (hamtPath (clojureLongHash b)) = true

/-- The keys come out sorted by path. -/
private theorem clojureHashMapKeyOrder_pairwise (keys : List ℤ) :
    (clojureHashMapKeyOrder keys).Pairwise keyLe := by
  have : Std.Total keyLe := ⟨fun _ _ => by simpa only [keyLe, pathLe_iff] using le_total _ _⟩
  have : IsTrans ℤ keyLe := ⟨fun _ _ _ => by simpa only [keyLe, pathLe_iff] using le_trans⟩
  letI : DecidableRel keyLe := fun _ _ => instDecidableEqBool _ _
  exact List.pairwise_insertionSort keyLe keys

/-- On the integers from 1 to 2 ^ 32 - 1 the hash is injective, and the order of a hash map's keys
does not depend on the order they are given in. -/
theorem clojureHashMapKeyOrder_spec :
    Set.InjOn clojureLongHash (Set.Icc 1 (2 ^ 32 - 1)) ∧
    ∀ keys : List ℤ, (∀ k ∈ keys, k ∈ Set.Icc 1 (2 ^ 32 - 1)) → OrderIndependent keys := by
  have hinj : Set.InjOn clojureLongHash (Set.Icc 1 (2 ^ 32 - 1)) := fun a ha b hb =>
    clojureLongHash_inj ⟨ha.1, Int.lt_of_le_sub_one ha.2⟩ ⟨hb.1, Int.lt_of_le_sub_one hb.2⟩
  refine ⟨hinj, fun keys hrange => ⟨clojureHashMapKeyOrder_perm keys, fun keys' hperm => ?_⟩⟩
  have hperm' : (clojureHashMapKeyOrder keys').Perm (clojureHashMapKeyOrder keys) :=
    (clojureHashMapKeyOrder_perm keys').trans (hperm.trans (clojureHashMapKeyOrder_perm keys).symm)
  refine List.Perm.eq_of_pairwise (fun a b ha hb hab hba => ?_)
    (clojureHashMapKeyOrder_pairwise keys') (clojureHashMapKeyOrder_pairwise keys) hperm'
  have hmem : ∀ {k}, k ∈ clojureHashMapKeyOrder keys → k ∈ Set.Icc 1 (2 ^ 32 - 1) := fun h =>
    hrange _ ((clojureHashMapKeyOrder_perm keys).mem_iff.1 h)
  exact hinj (hmem (hperm'.mem_iff.1 ha)) (hmem hb)
    (hamtPath_inj (clojureLongHash_lt a) (clojureLongHash_lt b)
      (le_antisymm ((pathLe_iff _ _).1 hab) ((pathLe_iff _ _).1 hba)))

theorem clojureHashMapKeyOrder_three : OrderIndependent [3, 1, 4294967295] :=
  clojureHashMapKeyOrder_spec.2 [3, 1, 4294967295] (by simp [Set.mem_Icc])

end Polis.Clustering
