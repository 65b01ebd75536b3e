import Mathlib.Data.List.Perm.Basic
import Mathlib.Order.Lattice

/-!
# The poll window

A poll reads the rows stamped above a lower bound that trails its watermark, and the window drops
the rows that earlier polls handled. A window kind says how its rows are stamped, keyed and grouped
into cells.

Reference: `polismath/poller/service.py`.
-/

namespace Polis.Poller

/-- How a poll reads its rows: `stamp`, `key` and `cell` of a `PollWindow` subclass. -/
structure WindowKind (ρ κ γ : Type*) where
  stamp : ρ → ℤ
  key : ρ → κ
  cell : ρ → Option γ

/-- `PollWindow` -/
structure PollWindow (κ γ : Type*) where
  watermark : ℤ
  lower : ℤ
  handled : κ → ℕ
  newest : γ → Option ℤ

variable {ρ κ γ : Type*}

/-- `advance_watermark` -/
def advanceWatermark (current : ℤ) (timestamps : List (Option ℤ)) : ℤ :=
  timestamps.foldl (fun result ts =>
    match ts with
    | none => result
    | some ts => if result < ts then ts else result) current

/-- `DEFAULT_VOTE_OVERLAP_MS` -/
def defaultVoteOverlapMs : ℤ := 60000

namespace PollWindow

/-- `start`: nothing handled, reads `stamp > watermark`. -/
def start (watermark : ℤ) : PollWindow κ γ := ⟨watermark, watermark, fun _ => 0, fun _ => none⟩

variable [DecidableEq κ] [DecidableEq γ] (kind : WindowKind ρ κ γ)

/-- Whether a newer row of the same cell has been handled. -/
def supersedes (win : PollWindow κ γ) (row : ρ) : Bool :=
  match (kind.cell row).bind win.newest with
  | some newest => kind.stamp row < newest
  | none => false

/-- The loop of `split`, over the copies that `remaining` still covers. -/
def splitLoop (win : PollWindow κ γ) : (remaining : κ → ℕ) → List ρ → List ρ × List ρ
  | _, [] => ([], [])
  | remaining, row :: rows =>
    let copies := remaining (kind.key row)
    if copies ≠ 0 then
      splitLoop win (fun k => if k = kind.key row then copies - 1 else remaining k) rows
    else
      let (fresh, superseded) := splitLoop win remaining rows
      if win.supersedes kind row then (fresh, row :: superseded) else (row :: fresh, superseded)

/-- `split`: divide one poll into (fresh, superseded). -/
def split (win : PollWindow κ γ) (rows : List ρ) : List ρ × List ρ :=
  win.splitLoop kind win.handled rows

/-- `advanced`: the window after a poll of `rows`, keeping those above the next lower bound. -/
def advanced (win : PollWindow κ γ) (rows : List ρ) (watermark overlapMs : ℤ) : PollWindow κ γ :=
  let lower := max win.lower (watermark - overlapMs)
  let kept := rows.filter fun row => lower < kind.stamp row
  { watermark
    lower
    handled := fun k => (kept.map kind.key).count k
    newest := fun cell =>
      ((kept.filter fun row => kind.cell row = some cell).map kind.stamp).max? }

end PollWindow

/-! ## The poll loop -/

/-- The table and the poll state of the service. -/
structure PollState (ρ κ γ : Type*) where
  committed : List ρ
  watermark : ℤ
  window : Option (PollWindow κ γ)

/-- The service at its starting watermark, before any commit. -/
def PollState.init (watermark : ℤ) : PollState ρ κ γ := ⟨[], watermark, none⟩

/-- The window a poll works with: the stored one, if it was built for the watermark. -/
def PollState.currentWindow (s : PollState ρ κ γ) : PollWindow κ γ :=
  match s.window with
  | some win => if win.watermark = s.watermark then win else .start s.watermark
  | none => .start s.watermark

/-- One poll: its window, the rows read, their division, and the window it leaves. -/
structure Cycle (ρ κ γ : Type*) where
  window : PollWindow κ γ
  rows : List ρ
  fresh : List ρ
  superseded : List ρ
  next : PollWindow κ γ

/-- The rows a poll handles for the first time. -/
def Cycle.outcome (cycle : Cycle ρ κ γ) : List ρ := cycle.fresh ++ cycle.superseded

/-- What happens to the table and the service: a row commits, or a poll runs. -/
inductive PollEvent (ρ κ γ : Type*)
  | commit (row : ρ)
  | poll (cycle : Cycle ρ κ γ)

variable [DecidableEq κ] [DecidableEq γ]

/-- `_poll_votes_once` on the rows the database returned. -/
def PollState.cycle (kind : WindowKind ρ κ γ) (overlapMs : ℤ) (s : PollState ρ κ γ)
    (rows : List ρ) : Cycle ρ κ γ :=
  let window := s.currentWindow
  let (fresh, superseded) := window.split kind rows
  let watermark := advanceWatermark s.watermark (rows.map fun row => some (kind.stamp row))
  ⟨window, rows, fresh, superseded, window.advanced kind rows watermark overlapMs⟩

/-- One event. The poll reads the committed rows above its lower bound, in an order that is left
open. -/
def PollState.Step (kind : WindowKind ρ κ γ) (overlapMs : ℤ) (s : PollState ρ κ γ) :
    PollEvent ρ κ γ → PollState ρ κ γ → Prop
  | .commit row, s' => s' = { s with committed := s.committed ++ [row] }
  | .poll cycle, s' =>
    ∃ rows : List ρ,
      rows.Perm (s.committed.filter fun row => s.currentWindow.lower < kind.stamp row) ∧
      cycle = s.cycle kind overlapMs rows ∧
      s' = { s with watermark := cycle.next.watermark, window := some cycle.next }

/-! ## Histories -/

/-- The rows committed in a history. -/
def commits (es : List (PollEvent ρ κ γ)) : List ρ :=
  es.filterMap fun
    | .commit row => some row
    | .poll _ => none

/-- The rows the polls of a history handled, each poll's fresh ones before its superseded ones. -/
def outcomes (es : List (PollEvent ρ κ γ)) : List ρ :=
  es.flatMap fun
    | .commit _ => []
    | .poll cycle => cycle.outcome

/-! ## Votes -/

/-- A row of the `votes` table. -/
structure VoteRow where
  zid : ℤ
  pid : ℤ
  tid : ℤ
  vote : ℤ
  created : ℤ
deriving DecidableEq, Repr

/-- `_vote_key`: (zid, pid, tid, created, vote). -/
abbrev VoteKey : Type := ℤ × ℤ × ℤ × ℤ × ℤ

/-- `_vote_cell`: (zid, pid, tid). -/
abbrev VoteCell : Type := ℤ × ℤ × ℤ

/-- `VoteWindow`: keyed by every column, a cell for each (zid, pid, tid). -/
def voteKind : WindowKind VoteRow VoteKey VoteCell where
  stamp row := row.created
  key row := (row.zid, row.pid, row.tid, row.created, row.vote)
  cell row := some (row.zid, row.pid, row.tid)

end Polis.Poller
