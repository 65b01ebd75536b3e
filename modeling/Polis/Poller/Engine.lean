import Polis.Poller.Incremental
import Polis.Poller.WorkerPool
import Polis.Conversation.Blob

/-!
# The engine calls of the poller

What a worker computes for a zid: an update of the cached conversation from a batch, or a load from
the full history. What the queries returned is an argument.

Reference: `polismath/poller/service.py`, `polismath/database/postgres.py`.
-/

namespace Polis.Poller

open Clustering

variable {K : Type*} [Field K] [LinearOrder K] [Numerics K]

/-! ## Moderation tables -/

/-- A `mod` value as the database returned it. -/
inductive ModValue
  | int (value : ℤ)
  | str (value : String)
  | null
deriving DecidableEq, Repr

/-- `mod_value == 1 or mod_value == "1"` -/
def ModValue.isIn (mod : ModValue) : Bool := mod = .int 1 || mod = .str "1"

/-- `mod_value == -1 or mod_value == "-1"` -/
def ModValue.isOut (mod : ModValue) : Bool := mod = .int (-1) || mod = .str "-1"

/-- A row of the `comments` table. -/
structure CommentRow where
  zid : ℤ
  tid : ℤ
  modified : ℤ
  mod : ModValue
  isMeta : Bool
deriving DecidableEq, Repr

/-- A row of the `participants` table. -/
structure ParticipantRow where
  zid : ℤ
  pid : ℤ
  mod : ℤ
deriving DecidableEq, Repr

/-- `poll_moderation`: a `since` of `None` or 0 asks for every comment. -/
def pollModeration (comments : List CommentRow) (participants : List ParticipantRow) (zid : ℤ)
    (since : Option ℤ) : Moderation :=
  let mods := comments.filter fun m =>
    m.zid = zid && (since.getD 0 = 0 || since.getD 0 < m.modified)
  { modOutTids := (mods.filter fun m => !m.mod.isIn && m.mod.isOut).map CommentRow.tid
    modInTids := (mods.filter fun m => m.mod.isIn).map CommentRow.tid
    metaTids := (mods.filter fun m => m.isMeta).map CommentRow.tid
    modOutPtpts :=
      (participants.filter fun p => p.zid = zid && p.mod = -1).map ParticipantRow.pid
    lastModTimestamp := none }

/-! ## Updating the cached conversation -/

/-- The work of one cycle of a zid. -/
abbrev Batch : Type := CoalescedBatch VoteRow CommentRow

/-- `_compute_and_publish` on a cached conversation, up to the write. -/
def computeUpdate (c : Conversation K) (batch : Batch) (mods : Moderation) : Conversation K :=
  let c := applyVotes c batch.votes
  let c := if batch.moderation.isEmpty then c else c.updateModeration mods false
  c.recompute

/-! ## Loading from the full history -/

/-- The persisted bundle of a zid, as `load_math_main` returns it. -/
structure MathRow (K : Type*) where
  data : MathBlob K
  lastVoteTimestamp : Option ℤ
  snapshotComplete : Bool
  bundleValid : Bool

/-- Whether warm state is restored from the row: the snapshot is complete and the row is
`_restorable`. -/
def MathRow.restorable (zid : ℤ) (row : MathRow K) : Bool :=
  row.snapshotComplete && row.bundleValid && row.data.zid = zid

/-- The conversation `_load_or_init` starts from. -/
def initialConversation (zid : ℤ) (row : Option (MathRow K)) : Conversation K :=
  match row.filter (MathRow.restorable zid) with
  | some row =>
    { row.data.fromDict geometryAxisAgreeValue with
      lastUpdated := row.lastVoteTimestamp.getD 0 }
  | none => { Conversation.new zid 1 0 with lastUpdated := 0 }

/-- `_load_or_init`: `row` is `None` in a cold start or when the row could not be read or
restored. -/
def loadOrInit (zid : ℤ) (row : Option (MathRow K)) (votes : List VoteRow) (mods : Moderation)
    (coordinatorRebuild : Bool) : Conversation K :=
  let c := applyVotes (initialConversation zid row) votes
  let c :=
    if coordinatorRebuild then
      { c with modOutTids := ∅, modInTids := ∅, metaTids := ∅, modOutPtpts := ∅ }
    else c
  (c.updateModeration mods false).recompute

/-! ## Live moderation -/

/-- The four moderation sets of a conversation. -/
def moderationSets (c : Conversation K) : Finset ℤ × Finset ℤ × Finset ℤ × Finset ℤ :=
  (c.modOutTids, c.modInTids, c.metaTids, c.modOutPtpts)

/-- The four moderation sets a payload lists. -/
def listedSets (m : Moderation) : Finset ℤ × Finset ℤ × Finset ℤ × Finset ℤ :=
  (m.modOutTids.toFinset, m.modInTids.toFinset, m.metaTids.toFinset, m.modOutPtpts.toFinset)

theorem applyVotes_moderationSets (c : Conversation K) (votes : List VoteRow) :
    moderationSets (applyVotes c votes) = moderationSets c := by
  obtain ⟨last, hlast⟩ := applyVotes_eq c votes
  rw [hlast]
  unfold Conversation.ingestVotes
  split <;> rfl

theorem recompute_moderationSets (c : Conversation K) :
    moderationSets c.recompute = moderationSets c := by
  have h := recompute_sameInputs c
  simp only [moderationSets, h.modOutTids, h.modInTids, h.metaTids, h.modOutPtpts]

/-- An update replaces the sets it lists a member for. -/
theorem updateModeration_moderationSets (c : Conversation K) (m : Moderation) :
    moderationSets (c.updateModeration m false) =
      (updateSet c.modOutTids m.modOutTids, updateSet c.modInTids m.modInTids,
        updateSet c.metaTids m.metaTids, updateSet c.modOutPtpts m.modOutPtpts) :=
  rfl

/-- The live sets after a moderation batch. -/
theorem computeUpdate_moderationSets (c : Conversation K) {batch : Batch}
    (hbatch : batch.moderation ≠ []) (mods : Moderation) :
    moderationSets (computeUpdate c batch mods) =
      (updateSet c.modOutTids mods.modOutTids, updateSet c.modInTids mods.modInTids,
        updateSet c.metaTids mods.metaTids, updateSet c.modOutPtpts mods.modOutPtpts) := by
  have hsets := applyVotes_moderationSets c batch.votes
  simp only [moderationSets, Prod.mk.injEq] at hsets
  obtain ⟨hout, hin, hmeta, hptpts⟩ := hsets
  simp only [computeUpdate]
  rw [recompute_moderationSets, if_neg (by simpa using hbatch), updateModeration_moderationSets,
    hout, hin, hmeta, hptpts]

/-- The sets of a cold load are those the tables list. -/
theorem loadOrInit_cold_moderationSets (zid : ℤ) (votes : List VoteRow) (mods : Moderation)
    (coordinatorRebuild : Bool) :
    moderationSets (loadOrInit zid none votes mods coordinatorRebuild : Conversation K) =
      listedSets mods := by
  have hsets := applyVotes_moderationSets (initialConversation zid none : Conversation K) votes
  simp only [moderationSets, Prod.mk.injEq] at hsets
  have hempty : ∀ ids : List ℤ, updateSet ∅ ids = ids.toFinset := by
    intro ids
    cases ids <;> rfl
  simp only [loadOrInit]
  rw [recompute_moderationSets, updateModeration_moderationSets]
  cases coordinatorRebuild
  · rw [if_neg (by decide), hsets.1, hsets.2.1, hsets.2.2.1, hsets.2.2.2]
    simp only [initialConversation, Option.filter_none, Conversation.new, hempty, listedSets]
  · rw [if_pos rfl]
    simp only [hempty, listedSets]

/-- A set follows the table unless the table lists nobody and the set is not empty. -/
theorem updateSet_eq_iff (current : Finset ℤ) (ids : List ℤ) :
    updateSet current ids = ids.toFinset ↔ ids ≠ [] ∨ current = ∅ := by
  cases ids <;> simp [updateSet]

/-- After a moderation batch the live sets are those the tables list, and so those of a cold load,
exactly when each of the four sets has a member in the tables or was empty in the cache. -/
theorem live_moderation_iff (comments : List CommentRow) (participants : List ParticipantRow)
    (zid : ℤ) (c : Conversation K) (batch : Batch) (hbatch : batch.moderation ≠ [])
    (votes : List VoteRow) (coordinatorRebuild : Bool) :
    let mods := pollModeration comments participants zid none
    let live := computeUpdate c batch mods
    let cold : Conversation K := loadOrInit zid none votes mods coordinatorRebuild
    (moderationSets live = listedSets mods ∧ moderationSets live = moderationSets cold) ↔
      ((∃ m ∈ comments, m.zid = zid ∧ m.mod.isIn = false ∧ m.mod.isOut = true) ∨
        c.modOutTids = ∅) ∧
      ((∃ m ∈ comments, m.zid = zid ∧ m.mod.isIn = true) ∨ c.modInTids = ∅) ∧
      ((∃ m ∈ comments, m.zid = zid ∧ m.isMeta = true) ∨ c.metaTids = ∅) ∧
      ((∃ p ∈ participants, p.zid = zid ∧ p.mod = -1) ∨ c.modOutPtpts = ∅) := by
  intro mods live cold
  have hlive : moderationSets live = _ := computeUpdate_moderationSets c hbatch mods
  have hcold : moderationSets cold = listedSets mods :=
    loadOrInit_cold_moderationSets zid votes mods coordinatorRebuild
  rw [hcold, and_self, hlive, listedSets, Prod.mk.injEq, Prod.mk.injEq, Prod.mk.injEq,
    updateSet_eq_iff, updateSet_eq_iff, updateSet_eq_iff, updateSet_eq_iff]
  have hlisted : ∀ {α : Type} {l : List α} {q : α → Bool} {f : α → ℤ},
      (l.filter q).map f ≠ [] ↔ ∃ a ∈ l, q a = true := fun {_ l q f} => by
    simp [List.filter_eq_nil_iff]
  simp only [mods, pollModeration, hlisted, List.mem_filter, Bool.and_eq_true, Bool.not_eq_true',
    decide_eq_true_eq, Option.getD_none, decide_true, Bool.true_or, and_true, and_assoc]

/-- A comment is moderated out of a conversation without moderation. -/
theorem live_moderation_first :
    let batch : Batch := { moderation := [⟨1, 5, 10, .int (-1), false⟩] }
    let mods := pollModeration batch.moderation [] 1 none
    let live : Conversation ℚ := computeUpdate (Conversation.new 1 1 1) batch mods
    moderationSets live = listedSets mods ∧
      moderationSets live = moderationSets (loadOrInit 1 none [] mods false : Conversation ℚ) :=
  (live_moderation_iff [⟨1, 5, 10, .int (-1), false⟩] [] 1 (Conversation.new 1 1 1)
    { moderation := [⟨1, 5, 10, .int (-1), false⟩] } (by simp) [] false).2
    ⟨.inl ⟨_, List.mem_singleton_self _, rfl, rfl, rfl⟩, .inr rfl, .inr rfl, .inr rfl⟩

/-- Comment 5 was moderated out and is no longer: the tables list nobody, the live set keeps it, and
a cold load does not. -/
theorem live_moderation_keeps_unmoderated :
    let cached : Conversation ℚ :=
      (Conversation.new 1 1 1).updateModeration ⟨[5], [], [], [], none⟩ false
    let comments : List CommentRow := [⟨1, 5, 20, .int 0, false⟩]
    let mods := pollModeration comments [] 1 none
    let live := computeUpdate cached { moderation := comments } mods
    let cold : Conversation ℚ := loadOrInit 1 none [] mods false
    live.modOutTids = {5} ∧ mods.modOutTids = [] ∧ cold.modOutTids = ∅ := by
  refine ⟨?_, by decide, ?_⟩
  · have hbatch : ({ moderation := [⟨1, 5, 20, .int 0, false⟩] } : Batch).moderation ≠ [] := by simp
    have h := computeUpdate_moderationSets
      ((Conversation.new 1 1 1 : Conversation ℚ).updateModeration ⟨[5], [], [], [], none⟩ false)
      hbatch (pollModeration [⟨1, 5, 20, .int 0, false⟩] [] 1 none)
    exact congrArg Prod.fst h
  · have h := loadOrInit_cold_moderationSets (K := ℚ) 1 []
      (pollModeration [⟨1, 5, 20, .int 0, false⟩] [] 1 none) false
    exact congrArg Prod.fst h

end Polis.Poller
