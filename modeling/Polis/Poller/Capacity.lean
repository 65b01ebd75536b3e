import Polis.Common.Hex
import Mathlib.Data.Int.Order.Basic

/-!
# The records of the capacity router

A conversation whose rebuild is too large for this poller has a record: its class, the mark of the newest
input that it was told of, and since when that input is unresolved. Here are the operations of the router on
the record of one conversation; each says whether it writes the state file.

Reference: `delphi/polismath/poller/capacity.py` (`Disposition`, `CapacityRouter`).
-/

namespace Polis.Poller.Capacity

/-- `DISPOSITIONS` -/
inductive Class
  | small
  | large
  | exceedsLargest
deriving DecidableEq, Repr

/-- `ROUTED` -/
def Class.routed : Class → Bool
  | .small => false
  | .large | .exceedsLargest => true

/-- `Disposition`; the sizes are vote rows, voters and comments. -/
structure Disposition where
  disposition : Class
  needBytes : ℤ
  sizes : Option (ℤ × ℤ × ℤ) := none
  binding : String := ""
  sizedMs : ℤ := 0
  inputThroughMs : Option ℤ := none
  firstUnresolvedMs : Option ℤ := none
  refusals : ℤ := 0
  jobId : Option String := none
  poisonedCommit : Option String := none
deriving DecidableEq, Repr

/-- What the router computes from the memory model and the settings: the bytes that a rebuild needs, its class,
by whether the conversation is routed already, and the binding. -/
structure Sizing where
  needBytes : ℤ × ℤ × ℤ → ℤ
  classify : ℤ → Bool → Class
  binding : String

/-- What the router keeps of the conversation. -/
structure Router where
  record : Option Disposition
  waiting : Bool
  restageApplied : Option String
deriving DecidableEq, Repr

/-- `_advance_locked` -/
def Disposition.advance (d : Disposition) (input : Option ℤ) (now : ℤ) : Disposition :=
  { d with
    inputThroughMs := match input with
      | none => d.inputThroughMs
      | some m => if d.inputThroughMs.all (· < m) then some m else d.inputThroughMs
    firstUnresolvedMs := d.firstUnresolvedMs.or (some now) }

namespace Router

variable (r : Router)

/-- `disposition` -/
def disposition : Option Class := r.record.map (·.disposition)

/-- `observe`, which has the class beside the router and raises `ValueError` without a size; `now` is the
router's clock. -/
def observe (z : Sizing) (sizes : Option (ℤ × ℤ × ℤ)) (need : Option ℤ) (input : Option ℤ)
    (refused advance : Bool) (now : ℤ) : Option (Router × Bool × Class) :=
  ((sizes.map z.needBytes).or need).map fun need =>
    let disposition := z.classify need (r.record.any (·.disposition.routed))
    if disposition = .small ∧ refused = false then
      (⟨none, r.waiting && r.record.isNone, r.restageApplied⟩, r.record.isSome, .small)
    else
      let d := r.record.getD { disposition, needBytes := need }
      let d := { d with
        disposition
        needBytes := need
        sizes := sizes.or d.sizes
        binding := z.binding
        sizedMs := now
        refusals := if refused then d.refusals + 1 else d.refusals }
      let d := if advance || r.record.isNone then d.advance input now else d
      ({ r with record := some d }, true, disposition)

/-- `advance` -/
def advance (input : Option ℤ) (now : ℤ) : Router × Bool :=
  match r.record with
  | none => (r, false)
  | some d => ({ r with record := some (d.advance input now) }, d.advance input now ≠ d)

/-- `resolved` -/
def resolved : Router × Bool := (⟨none, false, r.restageApplied⟩, r.record.isSome)

/-- `_trim_locked` takes the record; what trimmed it is saved. -/
def trim : Router × Bool := (⟨none, false, r.restageApplied⟩, true)

/-- `apply_restage` on this record. -/
def apply_restage (nonce : String) (mark now : ℤ) : Router × Bool :=
  if r.restageApplied = some nonce then (r, false)
  else
    match r.record with
    | some d =>
      if d.disposition = .large then
        (⟨some { d with
            inputThroughMs := some (max (d.inputThroughMs.getD 0) mark)
            firstUnresolvedMs := d.firstUnresolvedMs.or (some now)
            poisonedCommit := none }, false, some nonce⟩, true)
      else ({ r with restageApplied := some nonce }, true)
    | none => ({ r with restageApplied := some nonce }, true)

/-- `settle`; `through` is `none` for `"unchecked"`. -/
def settle (waiting resolved : Bool) (through : Option (Option ℤ)) : Router × Bool :=
  match r.record with
  | none => (r, false)
  | some d =>
    if through.any (· ≠ d.inputThroughMs) then (r, false)
    else
      let r := { r with waiting := waiting && d.disposition = .large }
      if resolved && d.firstUnresolvedMs.isSome then
        ({ r with record := some { d with firstUnresolvedMs := none } }, true)
      else (r, false)

/-- `set_job` -/
def set_job (jobId : Option String) : Router × Bool :=
  match r.record with
  | none => (r, false)
  | some d =>
    if d.jobId ≠ jobId ∨ d.poisonedCommit.isSome then
      ({ r with record := some { d with jobId, poisonedCommit := none } }, true)
    else (r, false)

/-- `source_commit or "unknown"` -/
def commitName (sourceCommit : Option String) : String :=
  match sourceCommit with
  | none => "unknown"
  | some c => if c = "" then "unknown" else c

/-- `park_poisoned` -/
def park_poisoned (jobId sourceCommit : Option String) : Router × Bool :=
  match r.record with
  | none => (r, false)
  | some d =>
    ({ r with record := some { d with jobId, poisonedCommit := some (commitName sourceCommit) } }, true)

/-- `poisoned` -/
def poisoned (sourceCommit : Option String) : Bool :=
  r.record.any fun d => d.poisonedCommit = some (commitName sourceCommit)

end Router

/-! ## The state file -/

/-- What the state file says of the conversation. -/
structure StateFile where
  record : Option Disposition
  restageApplied : Option String
deriving DecidableEq, Repr

/-- `_save_locked` -/
def Router.save (r : Router) : StateFile := ⟨r.record, r.restageApplied⟩

/-- `from_dict` takes the record: its counts are not negative. -/
def Disposition.isCounted (d : Disposition) : Bool :=
  0 ≤ d.needBytes && 0 ≤ d.sizedMs && 0 ≤ d.refusals &&
    d.sizes.all (fun n => 0 ≤ n.1 && 0 ≤ n.2.1 && 0 ≤ n.2.2) &&
    d.inputThroughMs.all (0 ≤ ·) && d.firstUnresolvedMs.all (0 ≤ ·)

/-- `_NONCE` -/
def isNonce (s : String) : Bool :=
  16 ≤ s.length && s.length ≤ 64 && s.toList.all fun c => ('0' ≤ c && c ≤ '9') || ('a' ≤ c && c ≤ 'f')

/-- `_load` -/
def StateFile.load (f : StateFile) : Router where
  record := f.record.filter Disposition.isCounted
  waiting := false
  restageApplied := f.restageApplied.filter isNonce

end Polis.Poller.Capacity
