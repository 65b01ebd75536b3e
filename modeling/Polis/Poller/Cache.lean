import Mathlib.Data.Finset.Basic
import Mathlib.Data.List.AList
import Mathlib.Algebra.GroupWithZero.Nat

/-!
# The conversation cache and its accounts

The cache is an ordered map of zids, coldest first. The accountant charges every cached zid, and
every zid that a worker still holds after it left the cache. The cache operations run under the
cache lock, one at a time; every access to the accounts is a critical section of the accountant's
own lock, so a release of a hold can fall between any two of them.

Reference: `polismath/poller/service.py`, `polismath/poller/admission.py`.
-/

namespace Polis.Poller

/-! ## Accounts -/

/-- The retained charges of `MemoryAdmission`: bytes charged for a zid, zids that left the cache
while held, and one entry for each hold. -/
structure Accounts where
  retained : AList fun _ : ℤ => ℕ
  detached : Finset ℤ
  holds : Multiset ℤ

namespace Accounts

/-- No charge and no hold. -/
def empty : Accounts := ⟨∅, ∅, 0⟩

/-- `set_retained` -/
def setRetained (a : Accounts) (zid : ℤ) (nbytes : ℕ) : Accounts :=
  { a with retained := a.retained.insert zid nbytes, detached := a.detached.erase zid }

/-- `drop_retained`, with the bytes freed: none while a worker still holds the object. -/
def dropRetained (a : Accounts) (zid : ℤ) : Accounts × ℕ :=
  if zid ∈ a.holds then
    (if zid ∈ a.retained then { a with detached := insert zid a.detached } else a, 0)
  else ({ a with retained := a.retained.erase zid }, (a.retained.lookup zid).getD 0)

/-- `hold` -/
def hold (a : Accounts) (zid : ℤ) : Accounts := { a with holds := zid ::ₘ a.holds }

/-- `unhold`: the last hold of a detached zid takes its charge along. -/
def unhold (a : Accounts) (zid : ℤ) : Accounts :=
  let holds := a.holds.erase zid
  if zid ∈ holds then { a with holds }
  else if zid ∈ a.detached then
    { retained := a.retained.erase zid, detached := a.detached.erase zid, holds }
  else { a with holds }

/-- `retained_total` -/
def retainedTotal (a : Accounts) : ℕ := (a.retained.entries.map Sigma.snd).sum

end Accounts

/-! ## The cache -/

/-- What the thread in the cache lock does next. -/
inductive CacheOp
  | retaining (zid : ℤ) (nbytes : ℕ)
  | trimming
  | trimDropping (zid : ℤ)
  | dropping (zid : ℤ)
  | evicting (todo : List ℤ) (shortfall : ℤ) (freed : ℕ) (protect : Finset ℤ)
  | evictDropping (zid : ℤ) (todo : List ℤ) (shortfall : ℤ) (freed : ℕ) (protect : Finset ℤ)
  | holding (zid : ℤ)

/-- The cache with its accounts; `op` is the operation in the cache lock, if any. -/
structure CacheState where
  convs : List ℤ
  accounts : Accounts
  op : Option CacheOp

/-- The empty cache. -/
def CacheState.init : CacheState := ⟨[], .empty, none⟩

/-- `convs[zid] = conv` and `move_to_end(zid)` -/
def moveToEnd (convs : List ℤ) (zid : ℤ) : List ℤ := convs.erase zid ++ [zid]

/-- The bounds of `_remember`: the cap on entries (0 is none) and the cache budget in bytes. -/
structure CacheBounds where
  convCacheCap : ℕ
  cacheBudgetBytes : Option ℕ

/-- `over_cache_budget` -/
def CacheBounds.overBudget (bounds : CacheBounds) (a : Accounts) : Bool :=
  match bounds.cacheBudgetBytes with
  | none => false
  | some budget => budget < a.retainedTotal

/-- The loop test of `_remember`. -/
def CacheBounds.overfull (bounds : CacheBounds) (s : CacheState) : Bool :=
  1 < s.convs.length &&
    ((bounds.convCacheCap ≠ 0 && bounds.convCacheCap < s.convs.length) ||
      bounds.overBudget s.accounts)

/-- One critical section. `remember`, `drop`, `evict` and `lookup` take the cache lock, `go` is the
next section of the operation that has it, and `unhold` needs no cache lock. -/
inductive CacheEvent
  | remember (zid : ℤ) (nbytes : ℕ)
  | drop (zid : ℤ)
  | evict (shortfall : ℤ) (protect : Finset ℤ)
  | lookup (zid : ℤ)
  | go
  | unhold (zid : ℤ)
deriving DecidableEq

/-- The next section of `_remember`, `_cache_drop`, `_evict_for_admission` or the lookup of
`_run_engine`. -/
def CacheState.go (bounds : CacheBounds) (s : CacheState) : CacheOp → CacheState
  | .retaining zid nbytes =>
    { s with accounts := s.accounts.setRetained zid nbytes, op := some .trimming }
  | .trimming =>
    match s.convs with
    | [] => { s with op := none }
    | coldest :: convs =>
      if bounds.overfull s then { s with convs, op := some (.trimDropping coldest) }
      else { s with op := none }
  | .trimDropping zid =>
    { s with accounts := (s.accounts.dropRetained zid).1, op := some .trimming }
  | .dropping zid => { s with accounts := (s.accounts.dropRetained zid).1, op := none }
  | .evicting todo shortfall freed protect =>
    match todo with
    | [] => { s with op := none }
    | zid :: todo =>
      if shortfall ≤ freed then { s with op := none }
      else if zid ∈ protect ∨ zid ∈ s.accounts.holds then
        { s with op := some (.evicting todo shortfall freed protect) }
      else
        { s with
          convs := s.convs.erase zid
          op := some (.evictDropping zid todo shortfall freed protect) }
  | .evictDropping zid todo shortfall freed protect =>
    let (accounts, got) := s.accounts.dropRetained zid
    { s with accounts, op := some (.evicting todo shortfall (freed + got) protect) }
  | .holding zid => { s with accounts := s.accounts.hold zid, op := none }

/-- One event; an operation starts when the cache lock is free. -/
def CacheState.Step (bounds : CacheBounds) (s : CacheState) : CacheEvent → CacheState → Prop
  | .remember zid nbytes, s' =>
    s.op = none ∧
      s' = { s with convs := moveToEnd s.convs zid, op := some (.retaining zid nbytes) }
  | .drop zid, s' =>
    s.op = none ∧ s' = { s with convs := s.convs.erase zid, op := some (.dropping zid) }
  | .evict shortfall protect, s' =>
    s.op = none ∧ s' = { s with op := some (.evicting s.convs shortfall 0 protect) }
  | .lookup zid, s' =>
    s.op = none ∧
      s' = if zid ∈ s.convs then
          { s with convs := moveToEnd s.convs zid, op := some (.holding zid) }
        else s
  | .go, s' => ∃ op, s.op = some op ∧ s' = s.go bounds op
  | .unhold zid, s' => s' = { s with accounts := s.accounts.unhold zid }

/-- The zid whose charge the operation in the lock is moving: stored or popped, and not yet charged
or dropped. -/
def CacheOp.moving : CacheOp → Option ℤ
  | .retaining zid _ => some zid
  | .trimDropping zid => some zid
  | .dropping zid => some zid
  | .evictDropping zid _ _ _ _ => some zid
  | _ => none

/-- The zid being moved in a state. -/
def CacheState.moving (s : CacheState) : Option ℤ := s.op.bind CacheOp.moving

end Polis.Poller
