import Polis.Common.Partition
import Mathlib.Data.List.Sort
import Mathlib.Data.List.Flatten

/-!
# Group membership in a math bundle

A bundle numbers its base clusters twice, by id and by position, and its groups as well. `pidsForGid` and
`bidsForPids` cross between the numberings. The Rust service answers the same two questions.

Reference: `server/src/utils/mathBundle.ts`, `queue-rs/polis-api/src/math_bundle.rs`.
-/

namespace Polis

/-! ## The bundle -/

/-- An entry of `group-clusters`; its members are ids of base clusters. -/
structure GroupCluster where
  id : ℤ
  members : List ℤ
deriving DecidableEq, Repr

/-- What the accessors read of a bundle. -/
structure MathBundle where
  /-- `main["base-clusters"].id` -/
  baseIds : Option (List ℤ)
  /-- `main["group-clusters"]` -/
  groupClusters : Option (List GroupCluster)
  /-- `bidToPid.bidToPid`, by the position of the base cluster. -/
  bidToPid : Option (List (List ℤ))
deriving DecidableEq, Repr

/-- `array[i]` -/
def at? {α : Type*} (l : List α) (i : ℤ) : Option α := if 0 ≤ i then l[i.toNat]? else none

namespace MathBundle

variable (b : MathBundle)

def ids : List ℤ := b.baseIds.getD []

def groups : List GroupCluster := b.groupClusters.getD []

def rows : List (List ℤ) := b.bidToPid.getD []

/-! ## The accessors of the server -/

/-- `bidToIndex`: a later assignment replaces an earlier one. -/
def bidToIndex : ℤ → Option ℕ :=
  b.ids.zipIdx.foldl (fun index e => Function.update index e.1 (some e.2)) fun _ => none

/-- The pids of a base cluster. -/
def pidsOfBid (bid : ℤ) : List ℤ := ((b.bidToIndex bid).bind (b.rows[·]?)).getD []

def pidsForGid (gid : ℤ) : List ℤ :=
  match at? b.groups gid with
  | none => []
  | some cluster => (cluster.members.flatMap b.pidsOfBid).insertionSort (· ≤ ·)

/-- The base cluster that `bidsForPids` places a pid in; one without an id is -1. -/
def bidForPid (pid : ℤ) : Option ℤ :=
  (b.rows.findIdx? (pid ∈ ·)).map fun bidi => b.ids[bidi]?.getD (-1)

def bidsForPids (pids : List ℤ) : List (ℤ × Option ℤ) := pids.map fun pid => (pid, b.bidForPid pid)

/-! ## The accessors of the service -/

/-- `iter().rposition(|x| x == bid)` -/
def rposition (l : List ℤ) (bid : ℤ) : Option ℕ := (l.zipIdx.reverse.find? (·.1 = bid)).map (·.2)

/-- `Bundle::bid` -/
def bid (pid : ℤ) : Option ℤ :=
  b.bidToPid.bind fun rows => (rows.findIdx? (pid ∈ ·)).map fun position =>
    ((b.baseIds.bind (·[position]?))).getD (-1)

def maxPids : ℕ := 16384

/-- The loop of `Bundle::pids`. -/
def collectPids : List ℤ → List ℤ → Option (List ℤ)
  | [], pids => some pids
  | bid :: bids, pids =>
    match (b.baseIds.bind (rposition · bid)).bind fun i => b.bidToPid.bind (·[i]?) with
    | none => collectPids bids pids
    | some more => if maxPids < pids.length + more.length then none else collectPids bids (pids ++ more)

/-- `Bundle::pids`; without an answer the request goes to the server. -/
def pids (gid : ℤ) : Option (List ℤ) :=
  match b.groupClusters.bind (at? · gid) with
  | none => some []
  | some group => (b.collectPids group.members []).map (·.insertionSort (· ≤ ·))

/-- The rows as the text of a `jsonb` value. -/
def mappingText : List Char :=
  let list := fun (items : List (List Char)) => '[' :: [',', ' '].intercalate items ++ [']']
  list (b.rows.map fun row => list (row.map fun pid => (toString pid).toList))

/-- `octet_length(b.data::text)<=65536` -/
def maxText : ℕ := 65536

end MathBundle

end Polis
