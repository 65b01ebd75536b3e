import Polis.Common.Run
import Mathlib.Data.List.Sort

/-!
# The source sweep

A pass reads one page of the conversations after its cursor, processes those of its shard, and writes the
cursor together with the scope, the start of the sweep and whether all went well so far; a page that is not
full ends the sweep. A pass may end at any place and the next one go on from the cursor, with other settings.
What `process` does is one of its outcomes, and the times are those of the database's clock.

Reference: `coordinator-rs/src/coordinator.rs` (`PgStore::cycle_pass`), `coordinator-rs/src/health.rs`,
`coordinator-rs/src/config.rs`.
-/

namespace Polis.Coordinator.Sweep

open Function

/-! ## Settings -/

/-- The settings of a process, as `validate` requires them. -/
structure Config where
  shard_index : ℤ
  shard_count : ℤ
  allowlist : List ℤ
  page_size : ℕ
  valid : 0 < shard_count ∧ 0 ≤ shard_index ∧ shard_index < shard_count ∧ 1 ≤ page_size ∧ page_size ≤ 1000

namespace Config

variable (c : Config)

/-- `accepts` -/
def accepts (zid : ℤ) : Bool :=
  zid.tmod c.shard_count = c.shard_index && (c.allowlist.isEmpty || c.allowlist.contains zid)

/-- The shard, which names the cursor and the health row. -/
def shard : ℤ × ℤ := (c.shard_index, c.shard_count)

/-- `poll_scope`, by the digest of the shard count and the sorted allowlist -/
def poll_scope (digest : ℤ → List ℤ → String) : String :=
  digest c.shard_count (c.allowlist.insertionSort (· ≤ ·)).dedup

end Config

/-! ## Rows -/

/-- The member `d06` of a position. -/
structure Health where
  started : ℤ
  healthy : Bool
  scope : String
deriving DecidableEq, Repr

/-- A row of `polis_coordinator_cursors`; cursors from before the health check have no `d06`. -/
structure Position where
  zid : ℤ
  d06 : Option Health
deriving DecidableEq, Repr

/-- `poll_completed` -/
structure Report where
  started : ℤ
  healthy : Bool
deriving DecidableEq, Repr

/-! ## The pass -/

/-- What became of an accepted conversation. -/
inductive Outcome
  /-- `process` returned `Ok`. -/
  | ok
  /-- It failed, and a retry is scheduled. -/
  | deferred
  /-- An earlier failure has set a time that is still to come. -/
  | backoff
deriving DecidableEq, Repr

structure Visit where
  zid : ℤ
  outcome : Outcome
deriving DecidableEq, Repr

/-- A page with the settings that it was read under, and its accepted conversations in order. -/
structure Page where
  config : Config
  visits : List Visit

/-- Where a pass stands. -/
inductive Pass
  | idle
  /-- It has read the cursor, and the clock if a sweep starts. -/
  | begun (c : Config) (cursor sweepStart : ℤ) (pollOk : Bool)
  /-- It is at the conversation `cursor` of a page, with the rest of the page `left`. -/
  | scanning (c : Config) (cursor sweepStart : ℤ) (pollOk : Bool) (short : Bool) (left : List ℤ)
      (visits : List Visit)
  /-- The page ended the sweep, and the report is written. -/
  | completed (c : Config) (sweepStart : ℤ) (pollOk : Bool)

/-- The sweep that a cursor belongs to, seen from outside: its start, the conversations that exist since then,
and the pages whose cursors were written. -/
structure History where
  started : ℤ
  standing : List ℤ
  pages : List Page

structure State where
  clock : ℤ
  conversations : List ℤ
  cursors : ℤ × ℤ → Option Position
  reports : ℤ × ℤ → Option Report
  passes : ℤ × ℤ → Pass
  histories : ℤ × ℤ → History

inductive Event
  | tick (now : ℤ)
  | insert (zid : ℤ)
  | remove (zid : ℤ)
  /-- A process with these settings starts a pass. -/
  | start (c : Config)
  /-- The query for the page. -/
  | read (i : ℤ × ℤ)
  /-- The next conversation of the page; the outcome is that of an accepted one. -/
  | visit (i : ℤ × ℤ) (outcome : Outcome)
  /-- `poll_completed` after a page that is not full. -/
  | complete (i : ℤ × ℤ)
  /-- The cursor is written. -/
  | persist (i : ℤ × ℤ)
  /-- The pass ends with an error or with its process; an error may still be reported. -/
  | abort (i : ℤ × ℤ) (reported : Bool)

namespace State

variable (s : State)

def setPass (i : ℤ × ℤ) (p : Pass) : State := { s with passes := update s.passes i p }

/-- `SELECT zid FROM conversations WHERE zid>$1 ORDER BY zid LIMIT $2` -/
def page (cursor : ℤ) (limit : ℕ) : List ℤ :=
  ((s.conversations.filter (cursor < ·)).insertionSort (· ≤ ·)).take limit

/-- The cursor and, at the start of a sweep, the clock. -/
def begin (digest : ℤ → List ℤ → String) (c : Config) : State :=
  let position := (s.cursors c.shard).getD ⟨0, none⟩
  if position.zid = 0 then
    { s with histories := update s.histories c.shard ⟨s.clock, s.conversations, []⟩ }.setPass c.shard
      (.begun c 0 s.clock true)
  else
    let sweepStart := (position.d06.map (·.started)).getD 0
    let pollOk := position.d06.any fun d => d.scope = c.poll_scope digest && d.healthy && 0 < sweepStart
    s.setPass c.shard (.begun c position.zid sweepStart pollOk)

/-- The cursor row that a pass writes at its end. -/
def write (i : ℤ × ℤ) (zid started : ℤ) (healthy : Bool) (scope : String) : State :=
  { s with cursors := update s.cursors i (some ⟨zid, some ⟨started, healthy, scope⟩⟩) }

end State

/-- The state after the event, if it can happen. -/
def next (digest : ℤ → List ℤ → String) (s : State) : Event → Option State
  | .tick now => if s.clock ≤ now then some { s with clock := now } else none
  | .insert zid =>
    -- `zid` is a serial number.
    if 0 < zid ∧ zid ∉ s.conversations then some { s with conversations := zid :: s.conversations } else none
  | .remove zid => some { s with
      conversations := s.conversations.filter (· ≠ zid)
      histories := fun i => { s.histories i with standing := (s.histories i).standing.filter (· ≠ zid) } }
  | .start c =>
    match s.passes c.shard with
    | .idle => some (s.begin digest c)
    | _ => none
  | .read i =>
    match s.passes i with
    | .begun c cursor sweepStart pollOk =>
      let rows := s.page cursor c.page_size
      some (s.setPass i (.scanning c cursor sweepStart pollOk (rows.length < c.page_size) rows []))
    | _ => none
  | .visit i outcome =>
    match s.passes i with
    | .scanning c _ sweepStart pollOk short (zid :: left) visits =>
      if c.accepts zid then
        some (s.setPass i (.scanning c zid sweepStart (pollOk && outcome = .ok) short left
          (visits ++ [⟨zid, outcome⟩])))
      else some (s.setPass i (.scanning c zid sweepStart pollOk short left visits))
    | _ => none
  | .complete i =>
    match s.passes i with
    | .scanning c _ sweepStart pollOk true [] _ =>
      some ({ s with reports := update s.reports i (some ⟨sweepStart, pollOk⟩) }.setPass i
        (.completed c sweepStart pollOk))
    | _ => none
  | .persist i =>
    match s.passes i with
    | .scanning c cursor sweepStart pollOk false [] visits =>
      let h := s.histories i
      some (({ s with
        histories := update s.histories i { h with pages := h.pages ++ [Page.mk c visits] } }.write i
          cursor sweepStart pollOk (c.poll_scope digest)).setPass i .idle)
    | .completed c sweepStart pollOk =>
      some ((s.write i 0 sweepStart pollOk (c.poll_scope digest)).setPass i .idle)
    | _ => none
  | .abort i reported =>
    let s' := s.setPass i .idle
    some (if reported then { s' with reports := update s.reports i (some ⟨0, false⟩) } else s')

def Step (digest : ℤ → List ℤ → String) (s : State) (e : Event) (s' : State) : Prop := next digest s e = some s'

/-- Nothing runs, and no cursor has been written with a health mark. -/
structure Start (s : State) : Prop where
  positive : ∀ z ∈ s.conversations, 0 < z
  distinct : s.conversations.Nodup
  idle : ∀ i, s.passes i = .idle
  unmarked : ∀ i p, s.cursors i = some p → p.d06 = none
  empty : ∀ i, s.histories i = ⟨0, [], []⟩

end Polis.Coordinator.Sweep
