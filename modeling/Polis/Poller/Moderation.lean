import Polis.Poller.Service
import Polis.Common.Table

/-!
# The moderation poll

Comments are updated in place: the table holds one row for each (zid, tid), and a poll reads the
version that stands. The poll divides what it read with the window of the vote poll; its rows are
keyed by every column it reads, and nothing is superseded.

Reference: `polismath/poller/service.py`, `polismath/database/postgres.py`.
-/

namespace Polis.Poller

/-! ## The comments table -/

/-- The columns that name a comment. -/
def CommentRow.comment (row : CommentRow) : ℤ × ℤ := (row.zid, row.tid)

instance : Row CommentRow (ℤ × ℤ) Unit where
  key := CommentRow.comment
  unique _ := none
  check _ := True
  decidableCheck _ := inferInstanceAs (Decidable True)

/-- An update in place: the row takes the moderation columns of another. -/
def CommentRow.overwrite (row new : CommentRow) : CommentRow :=
  { row with modified := new.modified, mod := new.mod, isMeta := new.isMeta }

/-! ## The window -/

/-- `_moderation_key`: (zid, tid, modified, mod, is_meta). -/
abbrev ModerationKey : Type := ℤ × ℤ × ℤ × ModValue × Bool

/-- `ModerationWindow`: keyed by every column, with no cells. -/
def moderationKind : WindowKind CommentRow ModerationKey Empty where
  stamp row := row.modified
  key row := (row.zid, row.tid, row.modified, row.mod, row.isMeta)
  cell _ := none

/-- `DEFAULT_MODERATION_OVERLAP_MS` -/
def defaultModerationOverlapMs : ℤ := 60000

/-! ## The poll loop -/

/-- A poll of the comments table. -/
abbrev ModerationCycle : Type := Cycle CommentRow ModerationKey Empty

/-- The comments table, with `_mod_wm` and `_mod_window`. -/
structure ModerationState where
  comments : Table CommentRow
  watermark : ℤ
  window : Option (PollWindow ModerationKey Empty)

/-- What happens to the table and the service: a comment is inserted or overwritten, or a poll runs. -/
inductive ModerationEvent
  | change (row : CommentRow)
  | poll (cycle : ModerationCycle)

namespace ModerationState

/-- The service at its starting watermark, over the table as it stands. -/
def init (comments : Table CommentRow) (watermark : ℤ) : ModerationState :=
  ⟨comments, watermark, none⟩

/-- The poll over the rows that stand. -/
def polling (s : ModerationState) : PollState CommentRow ModerationKey Empty :=
  ⟨s.comments.rows, s.watermark, s.window⟩

/-- One event. A change commits with the stamp its transaction took; a poll is
`_poll_moderation_once`. -/
def Step (overlapMs : ℤ) (s : ModerationState) : ModerationEvent → ModerationState → Prop
  | .change row, s' =>
    ∃ comments, s.comments.upsert row (·.overwrite row) = .ok comments ∧ s' = { s with comments }
  | .poll cycle, s' =>
    ∃ polling, s.polling.Step moderationKind overlapMs (.poll cycle) polling ∧
      s' = { s with watermark := polling.watermark, window := polling.window }

end ModerationState

/-! ## What is delivered -/

/-- The rows a poll hands to the worker pool, zid by zid. -/
def ModerationCycle.delivered (config : ServiceConfig) (cycle : ModerationCycle) : List CommentRow :=
  (submissions config CommentRow.zid .moderation cycle.fresh).flatMap fun item =>
    item.2.moderationRows

/-- The rows the polls of a history delivered, in order. -/
def deliveries (config : ServiceConfig) (es : List ModerationEvent) : List CommentRow :=
  es.flatMap fun
    | .change _ => []
    | .poll cycle => ModerationCycle.delivered config cycle

/-- The rows of one comment. -/
def ofComment (comment : ℤ × ℤ) (rows : List CommentRow) : List CommentRow :=
  rows.filter fun row => row.comment = comment

/-- The last row delivered for a comment. -/
def lastDelivered (config : ServiceConfig) (comment : ℤ × ℤ) (es : List ModerationEvent) :
    Option CommentRow :=
  (ofComment comment (deliveries config es)).getLast?

end Polis.Poller
