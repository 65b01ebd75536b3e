import Mathlib.Algebra.Order.BigOperators.Group.List
import Mathlib.Algebra.GroupWithZero.Nat

/-!
# Texts cut at byte offsets

The UTF-8 encoding of a text has boundaries between the characters, and an offset between two of them is
lowered to the boundary below it. No character has more than four bytes, so that an offset of four or more is
lowered to one above 0, and a text is cut into pieces within any such bound.
-/

namespace Polis.Utf8

open List

variable {t : List Char} {n k : ℕ}

/-- The length of the encoding. -/
def bytes (t : List Char) : ℕ := (t.map Char.utf8Size).sum

@[simp] theorem bytes_nil : bytes [] = 0 := rfl

@[simp] theorem bytes_cons (c : Char) (t : List Char) : bytes (c :: t) = c.utf8Size + bytes t := by
  rw [bytes, map_cons, sum_cons, bytes]

@[simp] theorem bytes_append (t u : List Char) : bytes (t ++ u) = bytes t + bytes u := by
  rw [bytes, map_append, sum_append, bytes, bytes]

/-- The characters of a literal, which is by definition the text of a list: its bytes need not be decoded. -/
theorem toList_of_eq {s : String} (h : s = .ofList t) : s.toList = t := by
  rw [h, String.toList_ofList]

/-- `is_char_boundary` -/
def isCharBoundary : List Char → ℕ → Bool
  | _, 0 => true
  | [], _ + 1 => false
  | c :: t, n + 1 => c.utf8Size ≤ n + 1 && isCharBoundary t (n + 1 - c.utf8Size)

/-- The offset is lowered while it is not a boundary. -/
def floorBoundary (t : List Char) : ℕ → ℕ
  | 0 => 0
  | n + 1 => if isCharBoundary t (n + 1) then n + 1 else floorBoundary t n

/-- What is before the offset and what is from there on. -/
def splitAt : List Char → ℕ → List Char × List Char
  | t, 0 => ([], t)
  | [], _ + 1 => ([], [])
  | c :: t, n + 1 => (c :: (splitAt t (n + 1 - c.utf8Size)).1, (splitAt t (n + 1 - c.utf8Size)).2)

theorem isCharBoundary_cons (c : Char) (t : List Char) (hn : 0 < n) :
    isCharBoundary (c :: t) n = (decide (c.utf8Size ≤ n) && isCharBoundary t (n - c.utf8Size)) := by
  cases n with
  | zero => omega
  | succ n => rfl

theorem isCharBoundary_utf8Size (c : Char) (t : List Char) : isCharBoundary (c :: t) c.utf8Size = true := by
  rw [isCharBoundary_cons c t c.utf8Size_pos, Nat.sub_self]
  cases t <;> simp [isCharBoundary]

/-- The two parts make up the text. -/
theorem splitAt_append (t : List Char) (n : ℕ) : (splitAt t n).1 ++ (splitAt t n).2 = t := by
  induction t generalizing n with
  | nil => cases n <;> rfl
  | cons c t ih =>
    cases n with
    | zero => rfl
    | succ n => rw [splitAt, cons_append, ih]

/-- A boundary has its own number of bytes before it. -/
theorem bytes_splitAt (h : isCharBoundary t n = true) : bytes (splitAt t n).1 = n := by
  induction t generalizing n with
  | nil =>
    cases n with
    | zero => rfl
    | succ n => cases h
  | cons c t ih =>
    cases n with
    | zero => rfl
    | succ n =>
      obtain ⟨hle, htail⟩ := Bool.and_eq_true_iff.1 h
      rw [decide_eq_true_eq] at hle
      rw [splitAt, bytes_cons, ih htail]
      omega

theorem floorBoundary_isCharBoundary (t : List Char) (n : ℕ) : isCharBoundary t (floorBoundary t n) = true := by
  induction n with
  | zero => cases t <;> rfl
  | succ n ih =>
    rw [floorBoundary]
    split
    · assumption
    · exact ih

theorem floorBoundary_le (t : List Char) (n : ℕ) : floorBoundary t n ≤ n := by
  induction n with
  | zero => exact le_rfl
  | succ n ih =>
    rw [floorBoundary]
    split
    · exact le_rfl
    · omega

/-- No boundary is passed over. -/
theorem le_floorBoundary (hk : isCharBoundary t k = true) (hle : k ≤ n) : k ≤ floorBoundary t n := by
  induction n with
  | zero => exact hle
  | succ n ih =>
    rw [floorBoundary]
    split
    · exact hle
    · next hno =>
        refine ih (Nat.le_of_lt_succ (lt_of_le_of_ne hle fun heq => ?_))
        rw [heq] at hk
        exact hno hk

/-- A cut within the text, or at least four bytes long, takes a character. -/
theorem floorBoundary_pos (hne : t ≠ []) (hn : 4 ≤ n ∨ bytes t ≤ n) : 0 < floorBoundary t n := by
  cases t with
  | nil => exact absurd rfl hne
  | cons c t =>
    have hpos := c.utf8Size_pos
    have hfour := c.utf8Size_le_four
    have hle : c.utf8Size ≤ n := by
      rw [bytes_cons] at hn
      omega
    have hfloor := le_floorBoundary (isCharBoundary_utf8Size c t) hle
    omega

/-- What is left after a cut that takes a character. -/
theorem length_splitAt_lt (hne : t ≠ []) (hn : 4 ≤ n ∨ bytes t ≤ n) :
    (splitAt t (floorBoundary t n)).2.length < t.length := by
  have happend := congrArg List.length (splitAt_append t (floorBoundary t n))
  have hbytes := bytes_splitAt (floorBoundary_isCharBoundary t n)
  have hpos := floorBoundary_pos hne hn
  have htaken : (splitAt t (floorBoundary t n)).1 ≠ [] := by
    intro hnil
    rw [hnil, bytes_nil] at hbytes
    omega
  have hlength := length_pos_of_ne_nil htaken
  rw [length_append] at happend
  omega

/-- The text in pieces of at most `limit` bytes, each as long as the boundaries allow. -/
def pieces (limit : ℕ) (hlimit : 4 ≤ limit) (t : List Char) : List (List Char) :=
  if t = [] then []
  else
    let cut := floorBoundary t (min (bytes t) limit)
    (splitAt t cut).1 :: pieces limit hlimit (splitAt t cut).2
termination_by t.length
decreasing_by exact length_splitAt_lt (by assumption) (by omega)

variable {limit : ℕ} {hlimit : 4 ≤ limit}

/-- The pieces make up the text. -/
theorem flatten_pieces (t : List Char) : (pieces limit hlimit t).flatten = t := by
  induction t using pieces.induct limit hlimit with
  | case1 => rw [pieces]; rfl
  | case2 t ht cut ih =>
    rw [pieces, if_neg ht]
    exact (congrArg _ ih).trans (splitAt_append t cut)

theorem bytes_le_of_mem_pieces {p : List Char} (hp : p ∈ pieces limit hlimit t) : bytes p ≤ limit := by
  induction t using pieces.induct limit hlimit with
  | case1 =>
    rw [pieces] at hp
    cases hp
  | case2 t ht cut ih =>
    rw [pieces, if_neg ht] at hp
    rcases mem_cons.1 hp with rfl | hp
    · have hcut : cut ≤ min (bytes t) limit := floorBoundary_le _ _
      rw [bytes_splitAt (floorBoundary_isCharBoundary _ _)]
      exact hcut.trans (min_le_right _ _)
    · exact ih hp

end Polis.Utf8
