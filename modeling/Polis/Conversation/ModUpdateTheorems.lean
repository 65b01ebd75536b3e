import Polis.Conversation.Votes

/-!
# The last moderation row wins

A row writes its comment in all three sets, so a fold of rows leaves each set with what the last row
of a comment says, and the comments no row names as they were.

Reference: `polismath/conversation/conversation.py`.
-/

namespace Polis

open List Option

variable {K : Type*} {c : Conversation K} {mods : List ModRow}

/-! ## The statement -/

/-- The last row of a comment. -/
def lastRow (mods : List ModRow) (tid : ℤ) : Option ModRow :=
  mods.reverse.find? fun r => r.tid = tid

/-- `mod_update` is the reduction in which the last row of a comment decides. -/
structure LastRowWins (c : Conversation K) (mods : List ModRow) : Prop where
  /-- The last row of a named comment, and nothing else, decides its memberships. -/
  named : ∀ tid ∈ mods.map ModRow.tid, ∃ row, lastRow mods tid = some row ∧
    (tid ∈ (c.modUpdate mods).modOutTids ↔ row.isMeta = true ∨ row.mod = some (-1)) ∧
    (tid ∈ (c.modUpdate mods).modInTids ↔ row.isMeta = true ∨ row.mod = some 1) ∧
    (tid ∈ (c.modUpdate mods).metaTids ↔ row.isMeta = true)
  /-- A comment no row names keeps its memberships. -/
  unnamed : ∀ tid, tid ∉ mods.map ModRow.tid →
    (tid ∈ (c.modUpdate mods).modOutTids ↔ tid ∈ c.modOutTids) ∧
    (tid ∈ (c.modUpdate mods).modInTids ↔ tid ∈ c.modInTids) ∧
    (tid ∈ (c.modUpdate mods).metaTids ↔ tid ∈ c.metaTids)
  /-- Consecutive calls over the parts of the list are one call over the whole of it. -/
  split : ∀ parts : List (List ModRow), parts ≠ [] → parts.flatten = mods →
    parts.foldl Conversation.modUpdate c = c.modUpdate mods
  /-- The meta comments stay those moderated out and in at once. -/
  metaBoth : c.metaTids = c.modOutTids ∩ c.modInTids →
    (c.modUpdate mods).metaTids = (c.modUpdate mods).modOutTids ∩ (c.modUpdate mods).modInTids

/-! ## One set -/

theorem mem_addOrDiscard {keep : Bool} {tid t : ℤ} {s : Finset ℤ} :
    t ∈ addOrDiscard keep tid s ↔ if t = tid then keep = true else t ∈ s := by
  unfold addOrDiscard
  by_cases h : t = tid <;> cases keep <;> simp [h]

theorem lastRow_append (mods : List ModRow) (row : ModRow) (tid : ℤ) :
    lastRow (mods ++ [row]) tid = if row.tid = tid then some row else lastRow mods tid := by
  by_cases h : row.tid = tid <;> simp [lastRow, h]

theorem lastRow_eq_none_iff {tid : ℤ} : lastRow mods tid = none ↔ tid ∉ mods.map ModRow.tid := by
  simp [lastRow]

/-- By induction from the end of the list: its last row, if it is the comment's, has the last word. -/
theorem mem_foldl_addOrDiscard (keep : ModRow → Bool) (mods : List ModRow) (s : Finset ℤ) (tid : ℤ) :
    tid ∈ mods.foldl (fun s r => addOrDiscard (keep r) r.tid s) s ↔
      ((lastRow mods tid).map keep).getD (tid ∈ s) = true := by
  induction mods using List.reverseRecOn with
  | nil => simp [lastRow]
  | append_singleton mods row ih =>
    rw [foldl_append, foldl_cons, foldl_nil, mem_addOrDiscard, lastRow_append]
    by_cases h : tid = row.tid
    · simp [h]
    · rw [if_neg h, if_neg (Ne.symm h), ih]

/-! ## Consecutive calls -/

theorem modUpdate_append (c : Conversation K) (mods mods' : List ModRow) :
    (c.modUpdate mods).modUpdate mods' = c.modUpdate (mods ++ mods') := by
  simp [Conversation.modUpdate, foldl_append]

theorem foldl_modUpdate (c : Conversation K) (mods : List ModRow) (parts : List (List ModRow)) :
    parts.foldl Conversation.modUpdate (c.modUpdate mods) = c.modUpdate (mods ++ parts.flatten) := by
  induction parts generalizing mods with
  | nil => simp
  | cons part parts ih =>
    rw [foldl_cons, modUpdate_append, ih, flatten_cons, append_assoc]

/-! ## Assembly -/

/-- `mod_update` is the last-row-wins reduction of its rows. -/
theorem modUpdate_lastRowWins (c : Conversation K) (mods : List ModRow) : LastRowWins c mods where
  named tid htid := by
    obtain ⟨row, hrow⟩ : ∃ row, lastRow mods tid = some row := by
      rw [← isSome_iff_exists, isSome_iff_ne_none, ne_eq, lastRow_eq_none_iff]
      exact not_not_intro htid
    refine ⟨row, hrow, ?_, ?_, ?_⟩ <;>
      simp [Conversation.modUpdate, mem_foldl_addOrDiscard, hrow]
  unnamed tid htid := by
    have hnone := lastRow_eq_none_iff.2 htid
    refine ⟨?_, ?_, ?_⟩ <;> simp [Conversation.modUpdate, mem_foldl_addOrDiscard, hnone]
  split parts hne hflat := by
    cases parts with
    | nil => exact absurd rfl hne
    | cons part parts =>
      rw [foldl_cons, foldl_modUpdate, ← hflat, flatten_cons]
  metaBoth hboth := by
    ext tid
    simp only [Conversation.modUpdate, Finset.mem_inter, mem_foldl_addOrDiscard]
    cases hrow : lastRow mods tid with
    | none => simp [hboth]
    | some row =>
      -- a row that is not meta cannot say both -1 and 1
      simp only [map_some, getD_some, Bool.or_eq_true, decide_eq_true_eq]
      constructor
      · exact fun h => ⟨.inl h, .inl h⟩
      · rintro ⟨h | h, h' | h'⟩
        · exact h
        · exact h
        · exact h'
        · simp [h] at h'

end Polis
