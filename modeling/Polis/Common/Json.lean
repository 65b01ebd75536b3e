import Polis.Common.Decimal
import Mathlib.Data.List.Sort
import Mathlib.Data.List.Lex

/-!
# JSON trees and their text

A tree over any type of numbers, its members in the order of the keys' bytes, and the text without
spaces. A tree can be read back from its text, and two trees with the members in order are one tree
exactly when they are the same tree up to the order of members.
-/

namespace Polis

open List

/-- A JSON value; an object is a list of members. -/
inductive Json (ν : Type*) where
  | null
  | bool (b : Bool)
  | number (n : ν)
  | string (s : String)
  | array (items : List (Json ν))
  | object (members : List (String × Json ν))

namespace Json

variable {ν μ : Type*}

/-- Induction with the items and the members as lists. -/
@[elab_as_elim]
theorem induct {P : Json ν → Prop} (null : P .null) (bool : ∀ b, P (.bool b))
    (number : ∀ n, P (.number n)) (string : ∀ s, P (.string s))
    (array : ∀ a, (∀ v ∈ a, P v) → P (.array a))
    (object : ∀ m, (∀ p ∈ m, P p.2) → P (.object m)) (v : Json ν) : P v :=
  @Json.rec ν P (fun a => ∀ v ∈ a, P v) (fun m => ∀ p ∈ m, P p.2) (fun p => P p.2) null bool number
    string array object (fun _ h => nomatch h)
    (fun _ _ hv ha => forall_mem_cons.2 ⟨hv, ha⟩) (fun _ h => nomatch h)
    (fun _ _ hp hm => forall_mem_cons.2 ⟨hp, hm⟩) (fun _ _ hv => hv) v

/-! ## Text -/

/-- The characters of a string, with quotes, backslashes and control characters escaped. -/
def escape (c : Char) : List Char :=
  if c = '"' then ['\\', '"']
  else if c = '\\' then ['\\', '\\']
  else if c = Char.ofNat 8 then ['\\', 'b']
  else if c = Char.ofNat 9 then ['\\', 't']
  else if c = Char.ofNat 10 then ['\\', 'n']
  else if c = Char.ofNat 12 then ['\\', 'f']
  else if c = Char.ofNat 13 then ['\\', 'r']
  else if c.toNat < 32 then
    ['\\', 'u', '0', '0', (c.toNat / 16).digitChar, (c.toNat % 16).digitChar]
  else [c]

/-- A string as JSON writes it. -/
def quote (s : String) : List Char := '"' :: s.toList.flatMap escape ++ ['"']

/-- The parts with commas between them. -/
def joinComma : List (List Char) → List Char
  | [] => []
  | t :: ts => t ++ ts.flatMap (',' :: ·)

variable (num : ν → List Char)

mutual

/-- The text of a value, without spaces and with the members as they stand. -/
def text : Json ν → List Char
  | .null => ['n', 'u', 'l', 'l']
  | .bool true => ['t', 'r', 'u', 'e']
  | .bool false => ['f', 'a', 'l', 's', 'e']
  | .number n => num n
  | .string s => quote s
  | .array a => '[' :: joinComma (textItems a) ++ [']']
  | .object m => '{' :: joinComma (textMembers m) ++ ['}']

def textItems : List (Json ν) → List (List Char)
  | [] => []
  | v :: a => text v :: textItems a

def textMembers : List (String × Json ν) → List (List Char)
  | [] => []
  | (k, v) :: m => (quote k ++ ':' :: text v) :: textMembers m

end

@[simp] theorem textItems_eq (a : List (Json ν)) : textItems num a = a.map (text num) := by
  induction a with
  | nil => rfl
  | cons v a ih => rw [textItems, ih, map_cons]

@[simp] theorem textMembers_eq (m : List (String × Json ν)) :
    textMembers num m = m.map fun p => quote p.1 ++ ':' :: text num p.2 := by
  induction m with
  | nil => rfl
  | cons p m ih => rw [textMembers, ih, map_cons]

/-! ## Reading the text back -/

private def hexValue (c : Char) : ℕ := if c.toNat < 58 then c.toNat - 48 else c.toNat - 87

private theorem hexValue_digitChar : ∀ n < 16, hexValue n.digitChar = n := by decide

/-- The first character that an escaped text writes, and what follows. -/
private def unescape : List Char → Option (Char × List Char)
  | '\\' :: 'u' :: '0' :: '0' :: a :: b :: l => some (Char.ofNat (16 * hexValue a + hexValue b), l)
  | '\\' :: c :: l =>
    some (if c = 'b' then Char.ofNat 8 else if c = 't' then Char.ofNat 9
      else if c = 'n' then Char.ofNat 10 else if c = 'f' then Char.ofNat 12
      else if c = 'r' then Char.ofNat 13 else c, l)
  | c :: l => some (c, l)
  | [] => none

private theorem unescape_escape (c : Char) (l : List Char) : unescape (escape c ++ l) = some (c, l) := by
  unfold escape
  split_ifs with h1 h2 h3 h4 h5 h6 h7 h8
  · rw [h1]; rfl
  · rw [h2]; rfl
  · rw [h3]; rfl
  · rw [h4]; rfl
  · rw [h5]; rfl
  · rw [h6]; rfl
  · rw [h7]; rfl
  · have hhigh := hexValue_digitChar (c.toNat / 16) (by omega)
    have hlow := hexValue_digitChar (c.toNat % 16) (by omega)
    simp only [cons_append, nil_append, unescape, hhigh, hlow, Nat.div_add_mod,
      Char.ofNat_toNat]
  · simp only [cons_append, nil_append]
    unfold unescape
    split <;> simp_all

private theorem escape_head (c : Char) : ∃ d l, escape c = d :: l ∧ d ≠ '"' := by
  unfold escape
  split_ifs <;> simp_all

private theorem escaped_inj {a b : List Char} {r s : List Char}
    (h : a.flatMap escape ++ '"' :: r = b.flatMap escape ++ '"' :: s) : a = b ∧ r = s := by
  induction a generalizing b with
  | nil =>
    cases b with
    | nil => exact ⟨rfl, (List.cons.inj h).2⟩
    | cons c b =>
      obtain ⟨d, l, hd, hne⟩ := escape_head c
      rw [flatMap_nil, flatMap_cons, hd] at h
      exact absurd (List.cons.inj h).1.symm hne
  | cons c a ih =>
    cases b with
    | nil =>
      obtain ⟨d, l, hd, hne⟩ := escape_head c
      rw [flatMap_nil, flatMap_cons, hd] at h
      exact absurd (List.cons.inj h).1 hne
    | cons c' b =>
      have hread := congrArg unescape h
      rw [flatMap_cons, flatMap_cons, append_assoc, append_assoc,
        unescape_escape, unescape_escape, Option.some.injEq, Prod.mk.injEq] at hread
      obtain ⟨hab, hrs⟩ := ih hread.2
      exact ⟨by rw [hread.1, hab], hrs⟩

/-- A string ends at its closing quote. -/
theorem quote_inj {a b : String} {r s : List Char} (h : quote a ++ r = quote b ++ s) :
    a = b ∧ r = s := by
  simp only [quote, cons_append, append_assoc, nil_append] at h
  obtain ⟨hab, hrs⟩ := escaped_inj (List.cons.inj h).2
  exact ⟨String.toList_injective hab, hrs⟩

/-- The characters of a number. -/
def isNumberChar (c : Char) : Bool := c.isDigit || c == '-' || c == '.'

/-- A text before which a number has ended. -/
def Ends (r : List Char) : Prop := ∀ c ∈ r.head?, isNumberChar c = false

private def kindOf (c : Char) : ℕ :=
  if isNumberChar c then 0
  else if c = 'n' then 1 else if c = 't' then 2 else if c = 'f' then 3 else if c = '"' then 4
  else if c = '[' then 5 else if c = '{' then 6 else 7

private def kind : Json ν → ℕ
  | .number _ => 0
  | .null => 1
  | .bool true => 2
  | .bool false => 3
  | .string _ => 4
  | .array _ => 5
  | .object _ => 6

private theorem kind_lt (v : Json ν) : kind v < 7 := by
  unfold kind
  split <;> omega

/-- Numbers are written in the characters of numbers, and each can be read back. -/
structure Numerals (num : ν → List Char) : Prop where
  injective : Function.Injective num
  ne_nil : ∀ n, num n ≠ []
  chars : ∀ n, ∀ c ∈ num n, isNumberChar c = true

variable {num} (hnum : Numerals num)
include hnum

/-- What kind a value is shows in its first character. -/
private theorem text_head (v : Json ν) : ∃ c l, text num v = c :: l ∧ kindOf c = kind v := by
  cases v with
  | number n =>
    cases hn : num n with
    | nil => exact absurd hn (hnum.ne_nil n)
    | cons c l =>
      refine ⟨c, l, hn, ?_⟩
      rw [kindOf, if_pos (hnum.chars n c (hn ▸ mem_cons_self)), kind]
  | bool b => cases b <;> exact ⟨_, _, rfl, rfl⟩
  | _ => exact ⟨_, _, rfl, rfl⟩

private theorem text_ne (v : Json ν) {c : Char} (hc : kindOf c = 7) (r l : List Char) :
    text num v ++ r ≠ c :: l := by
  intro h
  obtain ⟨d, t, ht, hd⟩ := text_head hnum v
  rw [ht] at h
  have := kind_lt v
  rw [(List.cons.inj h).1, hc] at hd
  omega

private theorem kind_eq {v w : Json ν} {r s : List Char} (h : text num v ++ r = text num w ++ s) :
    kind v = kind w := by
  obtain ⟨c, l, hv, hc⟩ := text_head hnum v
  obtain ⟨d, m, hw, hd⟩ := text_head hnum w
  rw [hv, hw] at h
  rw [← hc, ← hd, (List.cons.inj h).1]

omit hnum

section Join

variable {α : Type*} {p : α → List Char} {close : Char} {a b : List α} {r s : List Char}

private theorem ends_tail (hclose : isNumberChar close = false) (a : List α) (r : List Char) :
    Ends ((a.map p).flatMap (',' :: ·) ++ close :: r) := by
  intro c hc
  cases a with
  | nil =>
    cases hc
    exact hclose
  | cons x a =>
    cases hc
    rfl

private theorem tail_inj (hclose : isNumberChar close = false) (hne : close ≠ ',')
    (ha : ∀ x ∈ a, ∀ y r s, Ends r → Ends s → p x ++ r = p y ++ s → x = y ∧ r = s)
    (h : (a.map p).flatMap (',' :: ·) ++ close :: r = (b.map p).flatMap (',' :: ·) ++ close :: s) :
    a = b ∧ r = s := by
  induction a generalizing b with
  | nil =>
    cases b with
    | nil => exact ⟨rfl, (List.cons.inj h).2⟩
    | cons y b => exact absurd (List.cons.inj h).1 hne
  | cons x a ih =>
    cases b with
    | nil => exact absurd (List.cons.inj h).1.symm hne
    | cons y b =>
      simp only [map_cons, flatMap_cons, cons_append, append_assoc] at h
      obtain ⟨hxy, htail⟩ := ha x mem_cons_self y _ _ (ends_tail hclose a r)
        (ends_tail hclose b s) (List.cons.inj h).2
      obtain ⟨hab, hrs⟩ := ih (fun x hx => ha x (mem_cons_of_mem _ hx)) htail
      exact ⟨by rw [hxy, hab], hrs⟩

/-- Parts that end by themselves are found again between the commas. -/
private theorem join_inj (hclose : isNumberChar close = false) (hne : close ≠ ',')
    (hhead : ∀ y r l, p y ++ r ≠ close :: l)
    (ha : ∀ x ∈ a, ∀ y r s, Ends r → Ends s → p x ++ r = p y ++ s → x = y ∧ r = s)
    (h : joinComma (a.map p) ++ close :: r = joinComma (b.map p) ++ close :: s) :
    a = b ∧ r = s := by
  cases a with
  | nil =>
    cases b with
    | nil => exact ⟨rfl, (List.cons.inj h).2⟩
    | cons y b =>
      rw [map_cons, joinComma, append_assoc] at h
      exact absurd h.symm (hhead y _ _)
  | cons x a =>
    cases b with
    | nil =>
      rw [map_cons, joinComma, append_assoc] at h
      exact absurd h (hhead x _ _)
    | cons y b =>
      simp only [map_cons, joinComma, append_assoc] at h
      obtain ⟨hxy, htail⟩ := ha x mem_cons_self y _ _ (ends_tail hclose a r)
        (ends_tail hclose b s) h
      obtain ⟨hab, hrs⟩ :=
        tail_inj hclose hne (fun x hx => ha x (mem_cons_of_mem _ hx)) htail
      exact ⟨by rw [hxy, hab], hrs⟩

end Join

/-- A value and what follows it can be told apart. -/
private theorem text_append_inj (hnum : Numerals num) (v : Json ν) : ∀ (w : Json ν) (r s : List Char),
    Ends r → Ends s → text num v ++ r = text num w ++ s → v = w ∧ r = s := by
  induction v using induct with
  | null =>
    intro w r s hr hs h
    have hkind := kind_eq hnum h
    cases w with
    | null => exact ⟨rfl, append_cancel_left h⟩
    | bool b => cases b <;> cases hkind
    | _ => cases hkind
  | bool b =>
    intro w r s hr hs h
    have hkind := kind_eq hnum h
    cases w with
    | bool b' =>
      cases b <;> cases b'
      · exact ⟨rfl, append_cancel_left h⟩
      · cases hkind
      · cases hkind
      · exact ⟨rfl, append_cancel_left h⟩
    | _ => cases b <;> cases hkind
  | number n =>
    intro w r s hr hs h
    have hkind := kind_eq hnum h
    cases w with
    | number n' =>
      obtain ⟨hn, hrs⟩ := span_inj (hnum.chars n) (hnum.chars n') hr hs h
      exact ⟨by rw [hnum.injective hn], hrs⟩
    | bool b => cases b <;> cases hkind
    | _ => cases hkind
  | string t =>
    intro w r s hr hs h
    have hkind := kind_eq hnum h
    cases w with
    | string t' =>
      obtain ⟨ht, hrs⟩ := quote_inj h
      exact ⟨by rw [ht], hrs⟩
    | bool b => cases b <;> cases hkind
    | _ => cases hkind
  | array a ih =>
    intro w r s hr hs h
    have hkind := kind_eq hnum h
    cases w with
    | array a' =>
      simp only [text, textItems_eq, cons_append, append_assoc, nil_append] at h
      obtain ⟨ha, hrs⟩ := join_inj rfl (by decide) (fun y r l => text_ne hnum y rfl r l) ih
        (List.cons.inj h).2
      exact ⟨by rw [ha], hrs⟩
    | bool b => cases b <;> cases hkind
    | _ => cases hkind
  | object m ih =>
    intro w r s hr hs h
    have hkind := kind_eq hnum h
    cases w with
    | object m' =>
      simp only [text, textMembers_eq, cons_append, append_assoc,
        nil_append] at h
      obtain ⟨hm, hrs⟩ := join_inj rfl (by decide) (fun y r l hy => by cases hy)
        (fun p hp q r s hr hs hpq => by
          simp only [append_assoc, cons_append] at hpq
          obtain ⟨hkey, hrest⟩ := quote_inj hpq
          obtain ⟨hval, hrs⟩ := ih p hp q.2 r s hr hs (List.cons.inj hrest).2
          exact ⟨Prod.ext hkey hval, hrs⟩)
        (List.cons.inj h).2
      exact ⟨by rw [hm], hrs⟩
    | bool b => cases b <;> cases hkind
    | _ => cases hkind

/-- A tree can be read back from its text. -/
theorem text_injective (hnum : Numerals num) : Function.Injective (text num) := fun v w h =>
  (text_append_inj hnum v w [] [] (fun _ h => nomatch h) (fun _ h => nomatch h) (by
    rw [append_nil, append_nil, h])).1

/-! ## Members in order -/

section Members

variable {α β κ : Type*} [LinearOrder κ] (key : String → κ)

/-- The members in the order of their keys. -/
def sortMembers (m : List (String × α)) : List (String × α) :=
  m.insertionSort fun p q => key p.1 ≤ key q.1

theorem sortMembers_perm (m : List (String × α)) : (sortMembers key m).Perm m :=
  perm_insertionSort _ m

theorem sortMembers_map (f : α → β) (m : List (String × α)) :
    sortMembers key (m.map fun p => (p.1, f p.2)) = (sortMembers key m).map fun p => (p.1, f p.2) :=
  (map_insertionSort (fun p q : String × α => key p.1 ≤ key q.1)
    (fun p q : String × β => key p.1 ≤ key q.1) _ _ fun _ _ _ _ => Iff.rfl).symm

variable {key}

private theorem eq_of_key {m : List (String × α)} (hm : (m.map Prod.fst).Nodup) {p q : String × α}
    (hp : p ∈ m) (hq : q ∈ m) (h : p.1 = q.1) : p = q :=
  inj_on_of_nodup_map hm hp hq h

/-- With distinct keys the order of the members is settled by the keys. -/
theorem sortMembers_eq_iff (hkey : Function.Injective key) {m m' : List (String × α)}
    (hm : (m.map Prod.fst).Nodup) : sortMembers key m = sortMembers key m' ↔ m.Perm m' := by
  constructor
  · intro h
    exact (sortMembers_perm key m).symm.trans (h ▸ sortMembers_perm key m')
  · intro h
    refine List.Perm.eq_of_pairwise
      (fun p q hp hq (hpq : key p.1 ≤ key q.1) (hqp : key q.1 ≤ key p.1) => ?_)
      (pairwise_insertionSort _ _) (pairwise_insertionSort _ _)
      ((sortMembers_perm key m).trans (h.trans (sortMembers_perm key m').symm))
    exact eq_of_key hm ((sortMembers_perm key m).mem_iff.1 hp)
      (h.mem_iff.2 ((sortMembers_perm key m').mem_iff.1 hq)) (hkey (le_antisymm hpq hqp))

end Members

mutual

/-- Every number and every string of the tree passes, the keys among the strings. -/
def all (p : ν → Bool) (q : String → Bool) : Json ν → Bool
  | .number n => p n
  | .string s => q s
  | .array a => allItems p q a
  | .object m => allMembers p q m
  | _ => true

def allItems (p : ν → Bool) (q : String → Bool) : List (Json ν) → Bool
  | [] => true
  | v :: a => all p q v && allItems p q a

def allMembers (p : ν → Bool) (q : String → Bool) : List (String × Json ν) → Bool
  | [] => true
  | (k, v) :: m => q k && all p q v && allMembers p q m

end

@[simp] theorem allItems_eq (p : ν → Bool) (q : String → Bool) (a : List (Json ν)) :
    allItems p q a = a.all (all p q) := by
  induction a with
  | nil => rfl
  | cons v a ih => rw [allItems, ih, all_cons]

@[simp] theorem allMembers_eq (p : ν → Bool) (q : String → Bool) (m : List (String × Json ν)) :
    allMembers p q m = m.all fun x => q x.1 && all p q x.2 := by
  induction m with
  | nil => rfl
  | cons x m ih => rw [allMembers, ih, all_cons]

theorem all_mono {p p' : ν → Bool} {q q' : String → Bool} (hp : ∀ n, p n = true → p' n = true)
    (hq : ∀ s, q s = true → q' s = true) (v : Json ν) (h : all p q v = true) :
    all p' q' v = true := by
  induction v using induct with
  | null | bool b => rfl
  | number n => exact hp n h
  | string s => exact hq s h
  | array a ih =>
    simp only [all, allItems_eq, all_eq_true] at h ⊢
    exact fun v hv => ih v hv (h v hv)
  | object m ih =>
    simp only [all, allMembers_eq, all_eq_true, Bool.and_eq_true] at h ⊢
    exact fun x hx => ⟨hq _ (h x hx).1, ih x hx (h x hx).2⟩

section Arrange

variable {κ : Type*} [LinearOrder κ] (key : String → κ) (f : ν → μ)

mutual

/-- No object has one key twice. -/
def distinct : Json ν → Bool
  | .array a => distinctItems a
  | .object m => (m.map Prod.fst).Nodup && distinctMembers m
  | _ => true

def distinctItems : List (Json ν) → Bool
  | [] => true
  | v :: a => distinct v && distinctItems a

def distinctMembers : List (String × Json ν) → Bool
  | [] => true
  | (_, v) :: m => distinct v && distinctMembers m

end

mutual

/-- The numbers replaced, and the members of every object in the order of their keys. -/
def arrange : Json ν → Json μ
  | .null => .null
  | .bool b => .bool b
  | .number n => .number (f n)
  | .string s => .string s
  | .array a => .array (arrangeItems a)
  | .object m => .object (sortMembers key (arrangeMembers m))

def arrangeItems : List (Json ν) → List (Json μ)
  | [] => []
  | v :: a => arrange v :: arrangeItems a

def arrangeMembers : List (String × Json ν) → List (String × Json μ)
  | [] => []
  | (k, v) :: m => (k, arrange v) :: arrangeMembers m

end

@[simp] theorem distinctItems_eq (a : List (Json ν)) : distinctItems a = a.all distinct := by
  induction a with
  | nil => rfl
  | cons v a ih => rw [distinctItems, ih, all_cons]

@[simp] theorem distinctMembers_eq (m : List (String × Json ν)) :
    distinctMembers m = m.all fun p => distinct p.2 := by
  induction m with
  | nil => rfl
  | cons p m ih => rw [distinctMembers, ih, all_cons]

@[simp] theorem arrangeItems_eq (a : List (Json ν)) :
    arrangeItems key f a = a.map (arrange key f) := by
  induction a with
  | nil => rfl
  | cons v a ih => rw [arrangeItems, ih, map_cons]

@[simp] theorem arrangeMembers_eq (m : List (String × Json ν)) :
    arrangeMembers key f m = m.map fun p => (p.1, arrange key f p.2) := by
  induction m with
  | nil => rfl
  | cons p m ih => rw [arrangeMembers, ih, map_cons]

theorem distinct_array {a : List (Json ν)} (h : distinct (.array a) = true) :
    ∀ v ∈ a, distinct v = true := by
  simpa [distinct] using h

theorem distinct_object {m : List (String × Json ν)} (h : distinct (.object m) = true) :
    (m.map Prod.fst).Nodup ∧ ∀ p ∈ m, distinct p.2 = true := by
  simpa [distinct] using h

variable {key f}

/-- An order that the members had before does not matter. -/
theorem arrange_arrange {ξ : Type*} {κ' : Type*} [LinearOrder κ'] {key' : String → κ'} {g : μ → ξ}
    (hkey : Function.Injective key) {v : Json ν} (h : distinct v = true) :
    arrange key g (arrange key' f v) = arrange key (g ∘ f) v := by
  induction v using induct with
  | null | bool b | number n | string s => rfl
  | array a ih =>
    have ha := distinct_array h
    simp only [arrange, arrangeItems_eq, map_map]
    exact congrArg _ (map_congr_left fun v hv => ih v hv (ha v hv))
  | object m ih =>
    obtain ⟨hnodup, hm⟩ := distinct_object h
    simp only [arrange, arrangeMembers_eq]
    rw [← sortMembers_map, map_map]
    have hmap : m.map ((fun p => (p.1, arrange key g p.2)) ∘ fun p => (p.1, arrange key' f p.2))
        = m.map fun p => (p.1, arrange key (g ∘ f) p.2) :=
      map_congr_left fun p hp => Prod.ext rfl (ih p hp (hm p hp))
    rw [hmap, (sortMembers_eq_iff hkey ?_).2 (sortMembers_perm key' _)]
    rw [((sortMembers_perm key' _).map Prod.fst).nodup_iff, map_map]
    exact hnodup

end Arrange

/-! ## The same tree up to the order of members -/

/-- The numbers are related, and the members of an object are those of the other in some order. -/
inductive Same (R : ν → ν → Prop) : Json ν → Json ν → Prop
  | null : Same R .null .null
  | bool (b : Bool) : Same R (.bool b) (.bool b)
  | number {n n' : ν} : R n n' → Same R (.number n) (.number n')
  | string (s : String) : Same R (.string s) (.string s)
  | array {a a' : List (Json ν)} : List.Forall₂ (Same R) a a' → Same R (.array a) (.array a')
  | object {m m' m'' : List (String × Json ν)} : List.Perm m'' m' →
      m.map Prod.fst = m''.map Prod.fst →
      List.Forall₂ (Same R) (m.map Prod.snd) (m''.map Prod.snd) → Same R (.object m) (.object m')

private theorem map_eq_map_iff {α β : Type*} {g : α → β} {R : α → α → Prop} {a a' : List α}
    (h : ∀ x ∈ a, ∀ y ∈ a', g x = g y ↔ R x y) : a.map g = a'.map g ↔ List.Forall₂ R a a' := by
  induction a generalizing a' with
  | nil => simp
  | cons x a ih =>
    cases a' with
    | nil => simp
    | cons y a' =>
      rw [map_cons, map_cons, List.cons.injEq, List.forall₂_cons,
        h x mem_cons_self y mem_cons_self,
        ih fun x hx y hy => h x (mem_cons_of_mem _ hx) y (mem_cons_of_mem _ hy)]

private theorem perm_map_iff {α β : Type*} {f : α → β} {l : List β} {m : List α} :
    l.Perm (m.map f) ↔ ∃ m' : List α, m'.Perm m ∧ l = m'.map f := by
  constructor
  · intro h
    have hcomp : Relation.Comp List.Perm (List.Forall₂ fun b a => b = f a) l m :=
      ⟨_, h, List.forall₂_map_left_iff.2 (List.forall₂_same.2 fun _ _ => rfl)⟩
    rw [← List.forall₂_comp_perm_eq_perm_comp_forall₂] at hcomp
    obtain ⟨m', hl, hm⟩ := hcomp
    rw [← List.forall₂_map_right_iff, List.forall₂_eq_eq_eq] at hl
    exact ⟨m', hm, hl⟩
  · rintro ⟨m', hm, rfl⟩
    exact hm.map f

private theorem map_snd_eq_iff {α β : Type*} {g : α → β} {m m' : List (String × α)} :
    (m.map fun p => (p.1, g p.2)) = (m'.map fun p => (p.1, g p.2)) ↔
      m.map Prod.fst = m'.map Prod.fst ∧ (m.map Prod.snd).map g = (m'.map Prod.snd).map g := by
  induction m generalizing m' with
  | nil => cases m' <;> simp
  | cons p m ih =>
    cases m' with
    | nil => simp
    | cons q m' =>
      simp only [map_cons, List.cons.injEq, Prod.mk.injEq, ih]
      tauto

/-- Arranged alike, two trees are one tree exactly when they are the same up to the order of members. -/
theorem arrange_eq_iff {κ : Type*} [LinearOrder κ] {key : String → κ} {f : ν → μ}
    (hkey : Function.Injective key) {R : ν → ν → Prop} (hR : ∀ n n', f n = f n' ↔ R n n')
    {v w : Json ν} (hv : distinct v = true) (hw : distinct w = true) :
    arrange key f v = arrange key f w ↔ Same R v w := by
  induction v using induct generalizing w with
  | null | bool | string => cases w <;> constructor <;> intro h <;> cases h <;> constructor
  | number n =>
    cases w with
    | number n' =>
      constructor
      · intro h
        exact .number ((hR n n').1 (number.inj h))
      · intro h
        cases h with
        | number h => exact congrArg number ((hR n n').2 h)
    | _ => constructor <;> intro h <;> cases h
  | array a ih =>
    cases w with
    | array a' =>
      have hmap : a.map (arrange key f) = a'.map (arrange key f) ↔
          List.Forall₂ (Same R) a a' :=
        map_eq_map_iff fun x hx y hy =>
          ih x hx (distinct_array hv x hx) (distinct_array hw y hy)
      simp only [arrange, arrangeItems_eq, array.injEq, hmap]
      constructor
      · exact .array
      · intro h
        cases h
        assumption
    | _ => constructor <;> intro h <;> cases h
  | object m ih =>
    cases w with
    | object m' =>
      obtain ⟨hnodup, hm⟩ := distinct_object hv
      obtain ⟨hnodup', hm'⟩ := distinct_object hw
      have hkeys : ((m.map fun p => (p.1, arrange key f p.2)).map Prod.fst).Nodup := by
        rw [map_map]
        exact hnodup
      have hvals : ∀ m'' : List (String × Json ν), m''.Perm m' →
          ((m.map Prod.snd).map (arrange key f) = (m''.map Prod.snd).map (arrange key f) ↔
            List.Forall₂ (Same R) (m.map Prod.snd) (m''.map Prod.snd)) := by
        intro m'' hperm
        refine map_eq_map_iff fun x hx y hy => ?_
        obtain ⟨p, hp, rfl⟩ := mem_map.1 hx
        obtain ⟨q, hq, rfl⟩ := mem_map.1 hy
        exact ih p hp (hm p hp) (hm' q (hperm.mem_iff.1 hq))
      simp only [arrange, arrangeMembers_eq, object.injEq, sortMembers_eq_iff hkey hkeys,
        perm_map_iff, map_snd_eq_iff]
      constructor
      · rintro ⟨m'', hperm, hfst, hsnd⟩
        exact .object hperm hfst ((hvals m'' hperm).1 hsnd)
      · intro h
        cases h with
        | @object _ _ m'' hperm hfst hsnd =>
          exact ⟨m'', hperm, hfst, (hvals m'' hperm).2 hsnd⟩
    | _ => constructor <;> intro h <;> cases h

end Json

end Polis
