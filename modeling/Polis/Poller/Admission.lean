import Polis.Poller.Cache

/-!
# Memory admission

`reserve` queues its caller by ticket and loops: test and grant, evict outside the lock, then refuse
or wait. Between any two of its critical sections every other call may run. The statistics counters
are left out.

Reference: `polismath/poller/admission.py`.
-/

namespace Polis.Poller

/-- The arguments of a `reserve` call; `nbytes` is already `max(0, int(nbytes))`. -/
structure Request where
  zid : ℤ
  nbytes : ℕ
  exclusive : Bool
  wait : Bool
deriving DecidableEq, Repr

/-- `Reservation` -/
structure Reservation where
  token : ℕ
  zid : ℤ
  nbytes : ℕ
  exclusive : Bool
deriving DecidableEq, Repr

/-- How a `reserve` call ends: a reservation, `None`, `OverBudget` or `AdmissionStopped`. -/
inductive ReserveResult
  | granted
  | deferred
  | overBudget
  | stopped
deriving DecidableEq, Repr

/-- Where a `reserve` call stands: about to take the lock at the top of its loop, in the evictor,
about to take the lock to refuse or wait, in `wait`, about to leave the queue, or gone. `head` is
what the first section of the iteration saw. -/
inductive ReservePhase
  | testing
  | evicting (head : Bool) (protect : Finset ℤ)
  | deciding (head : Bool) (protect : Finset ℤ)
  | waiting
  | leaving (result : ReserveResult)
  | returned (result : ReserveResult)
deriving DecidableEq

/-- The loop of `reserve` has not been left. -/
def ReservePhase.InLoop : ReservePhase → Prop
  | .leaving _ => False
  | .returned _ => False
  | _ => True

/-- `MemoryAdmission`, and the calls of `reserve` that took a ticket. -/
structure AdmissionState where
  baseBytes : ℕ
  accounts : Accounts
  granted : List Reservation
  waiters : List ℕ
  tokens : ℕ
  calls : ℕ → Option (Request × ReservePhase)

/-- The settings that do not change: the budget, the base of the memory model, and whether an
evictor is set. -/
structure AdmissionConfig where
  budgetBytes : Option ℕ
  modelBaseBytes : ℕ
  evictor : Bool

namespace AdmissionState

/-- An accountant with a base and nothing else. -/
def init (baseBytes : ℕ) : AdmissionState := ⟨baseBytes, .empty, [], [], 0, fun _ => none⟩

/-- The bytes of all granted reservations. -/
def grantedBytes (s : AdmissionState) : ℕ := (s.granted.map Reservation.nbytes).sum

/-- `_used_locked`, on one RSS sample. -/
def used (s : AdmissionState) (rss : Option ℕ) : ℕ :=
  max (s.baseBytes + s.accounts.retainedTotal) (rss.getD 0) + s.grantedBytes

/-- `_fits_locked` -/
def fits (config : AdmissionConfig) (s : AdmissionState) (rss : Option ℕ) (nbytes : ℕ) : Bool :=
  match config.budgetBytes with
  | none => true
  | some budget => s.used rss + nbytes ≤ budget

/-- `_shortfall_locked` -/
def shortfall (config : AdmissionConfig) (s : AdmissionState) (rss : Option ℕ) (nbytes : ℕ) : ℤ :=
  match config.budgetBytes with
  | none => 0
  | some budget => (s.used rss : ℤ) + nbytes - budget

/-- Whether granted reservations keep the request out: an exclusive one, or any when it is
exclusive. -/
def blockedByExclusive (s : AdmissionState) (req : Request) : Bool :=
  s.granted.any Reservation.exclusive || (req.exclusive && !s.granted.isEmpty)

/-- `_grantable_locked` -/
def grantable (config : AdmissionConfig) (s : AdmissionState) (ticket : ℕ) (req : Request)
    (rss : Option ℕ) : Bool :=
  s.waiters.head?.all (· = ticket) && !s.blockedByExclusive req && s.fits config rss req.nbytes

/-- `_impossible_locked` -/
def impossible (config : AdmissionConfig) (s : AdmissionState) (req : Request) : Bool :=
  match config.budgetBytes with
  | none => false
  | some budget =>
    budget < s.baseBytes + (s.accounts.retained.lookup req.zid).getD 0 + req.nbytes

/-- The zids whose cached conversations must stay. -/
def protect (s : AdmissionState) (req : Request) : Finset ℤ :=
  (s.granted.map Reservation.zid).toFinset ∪ {req.zid} ∪ s.accounts.holds.toFinset

/-- The retained bytes outside the protected zids. -/
def evictable (s : AdmissionState) (protect : Finset ℤ) : ℕ :=
  ((s.accounts.retained.entries.filter fun e => e.1 ∉ protect).map Sigma.snd).sum

/-- The call goes on to a phase. -/
def goto (s : AdmissionState) (ticket : ℕ) (req : Request) (phase : ReservePhase) :
    AdmissionState :=
  { s with calls := Function.update s.calls ticket (some (req, phase)) }

/-- The first section of an iteration: grant, or find out what to evict. -/
def tryGrant (config : AdmissionConfig) (s : AdmissionState) (ticket : ℕ) (req : Request)
    (rss rss' : Option ℕ) : AdmissionState :=
  if s.grantable config ticket req rss then
    let res : Reservation := ⟨ticket, req.zid, req.nbytes, req.exclusive⟩
    { s with granted := s.granted ++ [res] }.goto ticket req (.leaving .granted)
  else
    let head := s.waiters.head? = some ticket
    let protect := s.protect req
    if head ∧ s.blockedByExclusive req = false ∧ 0 < s.shortfall config rss' req.nbytes ∧
        0 < s.evictable protect ∧ config.evictor = true then
      s.goto ticket req (.evicting head protect)
    else s.goto ticket req (.deciding head protect)

/-- The second section of an iteration: try again, defer, refuse, stop or wait. -/
def refuseOrWait (config : AdmissionConfig) (s : AdmissionState) (ticket : ℕ) (req : Request)
    (head : Bool) (protect : Finset ℤ) (rss rss' : Option ℕ) (stopped : Bool) : AdmissionState :=
  if s.grantable config ticket req rss then s.goto ticket req .testing
  else if req.wait = false then s.goto ticket req (.leaving .deferred)
  else if s.granted = [] ∧ head = true ∧ 0 < s.shortfall config rss' req.nbytes ∧
      ∀ z ∈ s.accounts.retained.keys, z ∈ protect ∪ s.accounts.holds.toFinset then
    s.goto ticket req (.leaving .overBudget)
  else if stopped then s.goto ticket req (.leaving .stopped)
  else s.goto ticket req .waiting

/-- The `finally` of `reserve`. -/
def leave (s : AdmissionState) (ticket : ℕ) (req : Request) (result : ReserveResult) :
    AdmissionState :=
  { s with waiters := s.waiters.erase ticket }.goto ticket req (.returned result)

/-- `release` -/
def release (s : AdmissionState) (token : ℕ) : AdmissionState :=
  { s with granted := s.granted.filter fun r => r.token ≠ token }

/-- `refresh_baseline`, on an RSS sample. -/
def refreshBaseline (config : AdmissionConfig) (s : AdmissionState) (rss : ℕ) : AdmissionState :=
  if config.budgetBytes = none ∨ s.granted ≠ [] ∨ s.accounts.holds ≠ 0 then s
  else { s with baseBytes := max config.modelBaseBytes (rss - s.accounts.retainedTotal) }

end AdmissionState

/-! ## Steps -/

/-- One critical section, of `reserve` or of another method. Every RSS reading is an arbitrary
sample, `none` when it fails; `evicted` is the return of the evictor, whose own sections are the
`drop`s. -/
inductive AdmissionEvent
  | enter (req : Request)
  | test (ticket : ℕ) (rss rss' : Option ℕ)
  | evicted (ticket : ℕ) (freed : ℕ)
  | decide (ticket : ℕ) (rss rss' : Option ℕ) (stopped : Bool)
  | wake (ticket : ℕ)
  | leave (ticket : ℕ)
  | release (token : ℕ)
  | setRetained (zid : ℤ) (nbytes : ℕ)
  | drop (zid : ℤ)
  | hold (zid : ℤ)
  | unhold (zid : ℤ)
  | refreshBaseline (rss : ℕ)

/-- One event. A call that can never fit is refused at the door and takes no ticket. -/
def AdmissionState.Step (config : AdmissionConfig) (s : AdmissionState) :
    AdmissionEvent → AdmissionState → Prop
  | .enter req, s' =>
    s' = if s.impossible config req then s
      else { s with waiters := s.waiters ++ [s.tokens], tokens := s.tokens + 1 }.goto s.tokens req
        .testing
  | .test ticket rss rss', s' =>
    ∃ req, s.calls ticket = some (req, .testing) ∧ s' = s.tryGrant config ticket req rss rss'
  | .evicted ticket freed, s' =>
    ∃ req head protect, s.calls ticket = some (req, .evicting head protect) ∧
      s' = s.goto ticket req (if 0 < freed then .testing else .deciding head protect)
  | .decide ticket rss rss' stopped, s' =>
    ∃ req head protect, s.calls ticket = some (req, .deciding head protect) ∧
      s' = s.refuseOrWait config ticket req head protect rss rss' stopped
  | .wake ticket, s' =>
    ∃ req, s.calls ticket = some (req, .waiting) ∧ s' = s.goto ticket req .testing
  | .leave ticket, s' =>
    ∃ req result, s.calls ticket = some (req, .leaving result) ∧ s' = s.leave ticket req result
  | .release token, s' => s' = s.release token
  | .setRetained zid nbytes, s' =>
    s' = { s with accounts := s.accounts.setRetained zid nbytes }
  | .drop zid, s' => s' = { s with accounts := (s.accounts.dropRetained zid).1 }
  | .hold zid, s' => s' = { s with accounts := s.accounts.hold zid }
  | .unhold zid, s' => s' = { s with accounts := s.accounts.unhold zid }
  | .refreshBaseline rss, s' => s' = s.refreshBaseline config rss

end Polis.Poller
