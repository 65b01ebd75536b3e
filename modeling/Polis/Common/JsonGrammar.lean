import Polis.Common.JsonEncode
import Mathlib.Data.List.Infix

/-!
# The grammar of JSON texts

A relation between texts and values, one level of nesting upon another: the value of a text that is nested in
no more than a number of arrays and objects. What four characters after `\u` mean, what a number is, and
which object the members of a text make are parameters. An escaped surrogate without its partner has no
value.
-/

namespace Polis.JsonGrammar

open JsonText List

def Blank (w : List Char) : Prop := ∀ c ∈ w, isBlank c = true

/-- Parts with commas between them. -/
inductive Separated {α : Type*} (part : List Char → α → Prop) : List Char → List α → Prop
  | one {t : List Char} {x : α} : part t x → Separated part t [x]
  | cons {t r : List Char} {x : α} {xs : List α} :
      part t x → Separated part r xs → Separated part (t ++ ',' :: r) (x :: xs)

/-- A part with blanks around it. -/
def Spaced {α : Type*} (part : List Char → α → Prop) (t : List Char) (x : α) : Prop :=
  ∃ w t' w', Blank w ∧ part t' x ∧ Blank w' ∧ t = w ++ t' ++ w'

/-- The number that hexadecimal digits are. -/
def hexNumber (q : List Char) : Option ℕ := q.foldlM (fun n c => (hexDigit c).map (16 * n + ·)) 0

/-- Four hexadecimal digits. -/
def Quad (q : List Char) (n : ℕ) : Prop := q.length = 4 ∧ hexNumber q = some n

section Strings

variable (quad : List Char → ℕ → Prop)

/-- A character of a string, or an escape. -/
inductive PieceText : List Char → Piece → Prop
  | char {c : Char} : c ≠ '"' → c ≠ '\\' → 32 ≤ c.toNat → PieceText [c] (.char c)
  | escape {c d : Char} : unescape c = some d → PieceText ['\\', c] (.char d)
  | unit {q : List Char} {n : ℕ} : quad q n → PieceText ('\\' :: 'u' :: q) (.unit n)

inductive PieceTexts : List Char → Str → Prop
  | nil : PieceTexts [] []
  | cons {t r : List Char} {p : Piece} {s : Str} :
      PieceText quad t p → PieceTexts r s → PieceTexts (t ++ r) (p :: s)

/-- The characters of pieces whose surrogates are in pairs. -/
def chars (s : Str) : Except Unit (List Char) := decode () (.ok (Char.ofNat 0)) s

def StringText (t : List Char) (s : String) : Prop :=
  ∃ body pieces, t = '"' :: body ++ ['"'] ∧ PieceTexts quad body pieces ∧ chars pieces = .ok s.toList

end Strings

section Values

variable {ν : Type*} (quad : List Char → ℕ → Prop) (num : Number → ν)
  (object : List (String × Json ν) → List (String × Json ν) → Prop)

/-- A member of an object. -/
def MemberText (part : List Char → Json ν → Prop) (t : List Char) (m : String × Json ν) : Prop :=
  ∃ k w w' t', StringText quad k m.1 ∧ Blank w ∧ Blank w' ∧ part t' m.2 ∧ t = k ++ w ++ ':' :: (w' ++ t')

/-- The texts of values, over those of the values inside them. -/
inductive Layer (part : List Char → Json ν → Prop) : List Char → Json ν → Prop
  | null : Layer part ['n', 'u', 'l', 'l'] .null
  | true : Layer part ['t', 'r', 'u', 'e'] (.bool .true)
  | false : Layer part ['f', 'a', 'l', 's', 'e'] (.bool .false)
  | number {t : List Char} {n : Number} : readNumber t = some n → Layer part t (.number (num n))
  | string {t : List Char} {s : String} : StringText quad t s → Layer part t (.string s)
  | emptyArray {w : List Char} : Blank w → Layer part ('[' :: w ++ [']']) (.array [])
  | array {t : List Char} {a : List (Json ν)} :
      Separated (Spaced part) t a → Layer part ('[' :: t ++ [']']) (.array a)
  | emptyObject {w : List Char} {o : List (String × Json ν)} :
      Blank w → object [] o → Layer part ('\x7b' :: w ++ ['\x7d']) (.object o)
  | object {t : List Char} {m o : List (String × Json ν)} :
      Separated (Spaced (MemberText quad part)) t m → object m o →
      Layer part ('\x7b' :: t ++ ['\x7d']) (.object o)

/-- The texts of values that are nested in no more than so many arrays and objects. -/
def Value : ℕ → List Char → Json ν → Prop
  | 0 => Layer quad num object fun _ _ => False
  | d + 1 => Layer quad num object (Value d)

def Document (d : ℕ) (t : List Char) (v : Json ν) : Prop := Spaced (Value quad num object d) t v

end Values

/-! ## Lemmas -/

section Separated

variable {α β : Type*} {part part' : List Char → α → Prop} {t : List Char} {x : α} {xs : List α}

theorem Separated.mono (h : Separated part t xs) (hpart : ∀ t' x, t' <:+: t → part t' x → part' t' x) :
    Separated part' t xs := by
  induction h with
  | one hx => exact .one (hpart _ _ (infix_refl _) hx)
  | @cons t r x xs hx _ ih =>
    refine .cons (hpart _ _ (prefix_append ..).isInfix hx) (ih fun t' x ht => hpart t' x ?_)
    exact ht.trans ((suffix_cons ..).trans (suffix_append ..)).isInfix

theorem Spaced.mono (h : Spaced part t x) (hpart : ∀ t' x, t' <:+: t → part t' x → part' t' x) :
    Spaced part' t x := by
  obtain ⟨w, t', w', hw, hx, hw', rfl⟩ := h
  exact ⟨w, t', w', hw, hpart _ _ (infix_append ..) hx, hw', rfl⟩

theorem Separated.length_le (h : Separated part t xs) : xs.length ≤ t.length + 1 := by
  induction h with
  | one _ => exact Nat.le_add_left ..
  | cons _ _ ih =>
    rw [length_append, length_cons, length_cons]
    omega

end Separated

section Mono

variable {ν : Type*} {quad quad' : List Char → ℕ → Prop} {num : Number → ν}
  {object : List (String × Json ν) → List (String × Json ν) → Prop} {t : List Char}

theorem PieceTexts.mono {s : Str} (h : PieceTexts quad t s)
    (hquad : ∀ q n, '\\' :: 'u' :: q <:+: t → quad q n → quad' q n) : PieceTexts quad' t s := by
  induction h with
  | nil => exact .nil
  | @cons t r p s hp _ ih =>
    refine .cons ?_ (ih fun q n hq => hquad q n (hq.trans (suffix_append ..).isInfix))
    cases hp with
    | char h1 h2 h3 => exact .char h1 h2 h3
    | escape h => exact .escape h
    | unit h => exact .unit (hquad _ _ (prefix_append ..).isInfix h)

theorem StringText.mono {s : String} (h : StringText quad t s)
    (hquad : ∀ q n, '\\' :: 'u' :: q <:+: t → quad q n → quad' q n) : StringText quad' t s := by
  obtain ⟨body, pieces, rfl, hpieces, hchars⟩ := h
  refine ⟨body, pieces, rfl, hpieces.mono fun q n hq => hquad q n (hq.trans ?_), hchars⟩
  exact ((suffix_cons ..).isInfix).trans (prefix_append ..).isInfix

theorem Layer.mono {part part' : List Char → Json ν → Prop} {v : Json ν} (h : Layer quad num object part t v)
    (hpart : ∀ t' x, t' <:+: t → part t' x → part' t' x)
    (hquad : ∀ q n, '\\' :: 'u' :: q <:+: t → quad q n → quad' q n) : Layer quad' num object part' t v := by
  have inner : ∀ {a b : Char} {r s : List Char}, s <:+: r → s <:+: a :: r ++ [b] := fun {a b r s} hs =>
    hs.trans (((suffix_cons a r).isInfix).trans (prefix_append ..).isInfix)
  cases h with
  | null => exact .null
  | true => exact .true
  | false => exact .false
  | number h => exact .number h
  | string h => exact .string (h.mono hquad)
  | emptyArray h => exact .emptyArray h
  | array h =>
    exact .array (h.mono fun t' x ht hx => hx.mono fun t'' y hy => hpart t'' y (inner (hy.trans ht)))
  | emptyObject h h' => exact .emptyObject h h'
  | object h h' =>
    refine .object (h.mono fun t' m ht hm => hm.mono fun t'' m' hm' hmember => ?_) h'
    obtain ⟨k, w, w', v, hk, hw, hw', hv, rfl⟩ := hmember
    have hinner := hm'.trans ht
    refine ⟨k, w, w', v, hk.mono fun q n hq => hquad q n (inner ?_), hw, hw', hpart v _ (inner ?_) hv, rfl⟩
    · exact hq.trans (((prefix_append ..).trans (prefix_append ..)).isInfix.trans hinner)
    · refine List.IsInfix.trans (List.IsSuffix.isInfix ?_) hinner
      exact (suffix_append w' v).trans ((suffix_cons ..).trans (suffix_append ..))

theorem Value.mono {d : ℕ} {v : Json ν} (h : Value quad num object d t v)
    (hquad : ∀ q n, '\\' :: 'u' :: q <:+: t → quad q n → quad' q n) : Value quad' num object d t v := by
  induction d generalizing t v with
  | zero => exact Layer.mono h (fun _ _ _ hx => hx) hquad
  | succ d ih =>
    exact Layer.mono h (fun t' x ht hx => ih hx fun q n hq => hquad q n (hq.trans ht)) hquad

/-- Texts in which the escapes mean the same have the same values. -/
theorem Document.mono {d : ℕ} {v : Json ν} (h : Document quad num object d t v)
    (hquad : ∀ q n, '\\' :: 'u' :: q <:+: t → quad q n → quad' q n) : Document quad' num object d t v :=
  Spaced.mono h fun _ _ ht hx => Value.mono hx fun q n hq => hquad q n (hq.trans ht)

end Mono

/-! ## Texts that are written -/

theorem blank_nil : Blank [] := nofun

theorem Spaced.of {α : Type*} {part : List Char → α → Prop} {t : List Char} {x : α} (h : part t x) :
    Spaced part t x :=
  ⟨[], t, [], blank_nil, h, blank_nil, by rw [nil_append, append_nil]⟩

theorem separated_joinComma {α : Type*} {part : List Char → α → Prop} {f : α → List Char} {xs : List α}
    (hne : xs ≠ []) (h : ∀ x ∈ xs, part (f x) x) : Separated part (Json.joinComma (xs.map f)) xs := by
  induction xs with
  | nil => exact absurd rfl hne
  | cons x xs ih =>
    have hx := h x mem_cons_self
    cases xs with
    | nil =>
      rw [map_cons, map_nil, Json.joinComma, flatMap_nil, append_nil]
      exact .one hx
    | cons y ys => exact .cons hx (ih (cons_ne_nil y ys) fun z hz => h z (mem_cons_of_mem x hz))

private theorem hexDigit_digitChar : ∀ n < 16, hexDigit n.digitChar = some n := by decide

/-- A character is escaped as a piece of a string. -/
theorem pieceText_escape (c : Char) : PieceText Quad (Json.escape c) (piece c) := by
  unfold Json.escape
  split_ifs with h1 h2 h3 h4 h5 h6 h7 h8
  · subst h1
    exact .escape rfl
  · subst h2
    exact .escape rfl
  · subst h3
    exact .escape rfl
  · subst h4
    exact .escape rfl
  · subst h5
    exact .escape rfl
  · subst h6
    exact .escape rfl
  · subst h7
    exact .escape rfl
  · have hpiece : piece c = .unit c.toNat := by simp [piece, h3, h4, h5, h6, h7, h8]
    have hhigh := hexDigit_digitChar (c.toNat / 16) (by omega)
    have hlow := hexDigit_digitChar (c.toNat % 16) (by omega)
    have hzero : hexDigit '0' = some 0 := rfl
    have hvalue : 16 * (c.toNat / 16) + c.toNat % 16 = c.toNat := by omega
    rw [hpiece]
    refine .unit ⟨rfl, ?_⟩
    simp [hexNumber, hzero, hhigh, hlow, hvalue]
  · have hpiece : piece c = .char c := by simp [piece, h3, h4, h5, h6, h7, h8]
    rw [hpiece]
    exact .char h1 h2 (not_lt.1 h8)

theorem stringText_quote (s : String) : StringText Quad (Json.quote s) s := by
  have hpieces : ∀ l : List Char, PieceTexts Quad (l.flatMap Json.escape) (l.map piece) := by
    intro l
    induction l with
    | nil => exact .nil
    | cons c l ih => exact .cons (pieceText_escape c) ih
  exact ⟨_, pieces s, rfl, hpieces s.toList, decode_pieces () s⟩

end Polis.JsonGrammar
