import Polis.Common.Recency

/-!
# The cache of the math bodies

One entry for each conversation: the body as it was read, and with it the body that is presented when one
was built from it. A body is shared by reference, and what it retains was counted when it was built. The
counters stop at the largest value of a word and do not wrap; a subtraction below zero has no outcome.

Reference: `queue-rs/polis-api/src/pca_cache.rs`.
-/

namespace Polis.PcaCache

open Recency

/-- `usize::MAX`, which is also `u64::MAX` -/
def usizeMax : ℕ := 2 ^ 64 - 1

def saturating_add (a b : ℕ) : ℕ := min (a + b) usizeMax

/-- Bodies are references, equal when they point to the same one; the cache only keeps the expiration. -/
structure Presentation (ι τ : Type*) where
  source : ι
  presented : ι
  expiration : τ

structure Entry (ι τ : Type*) where
  item : ι
  presentation : Option (Presentation ι τ)

structure Cache (ι τ : Type*) where
  max_entries : ℕ
  max_bytes : ℕ
  entries : AList fun _ : ℤ => Entry ι τ
  /-- The least recently used one first. -/
  order : List ℤ
  bytes : ℕ
  evictions_entries : ℕ
  evictions_bytes : ℕ
  oversized : ℕ

variable {ι τ : Type*} [DecidableEq ι] (retained_bytes : ι → ℕ)

/-- `Entry::bytes`: a body that is presented as it was read is charged once. -/
def Entry.bytes (e : Entry ι τ) : ℕ :=
  let bytes := saturating_add 256 (retained_bytes e.item)
  match e.presentation with
  | some p => if e.item ≠ p.presented then saturating_add bytes (retained_bytes p.presented) else bytes
  | none => bytes

namespace Cache

def new (max_entries max_bytes : ℕ) : Cache ι τ :=
  { max_entries, max_bytes, entries := ∅, order := [], bytes := 0, evictions_entries := 0
    evictions_bytes := 0, oversized := 0 }

def touch (c : Cache ι τ) (zid : ℤ) : Cache ι τ := { c with order := Recency.touch c.order zid }

def get (c : Cache ι τ) (zid : ℤ) : Option ι × Cache ι τ :=
  match c.entries.lookup zid with
  | none => (none, c)
  | some e => (some e.item, c.touch zid)

def presentation (c : Cache ι τ) (zid : ℤ) : Option (Presentation ι τ) × Cache ι τ :=
  match (c.entries.lookup zid).bind Entry.presentation with
  | none => (none, c)
  | some p => (some p, c.touch zid)

def remove (c : Cache ι τ) (zid : ℤ) : Option (Cache ι τ) :=
  match c.entries.lookup zid with
  | none => some { c with order := c.order.filter (· ≠ zid) }
  | some old =>
    if old.bytes retained_bytes ≤ c.bytes then
      some { c with
        entries := c.entries.erase zid
        bytes := c.bytes - old.bytes retained_bytes
        order := c.order.filter (· ≠ zid) }
    else none

/-- The condition of the loop that evicts. -/
def Over (c : Cache ι τ) : Prop := c.max_entries < c.entries.keys.length ∨ c.max_bytes < c.bytes

instance (c : Cache ι τ) : Decidable c.Over := inferInstanceAs (Decidable (_ ∨ _))

/-- An eviction is counted for the bound of the entries before that of the bytes. -/
def counted (c : Cache ι τ) : Cache ι τ :=
  if c.max_entries < c.entries.keys.length then
    { c with evictions_entries := saturating_add c.evictions_entries 1 }
  else { c with evictions_bytes := saturating_add c.evictions_bytes 1 }

section

omit [DecidableEq ι]

@[simp] theorem counted_order (c : Cache ι τ) : c.counted.order = c.order := by
  unfold counted
  split <;> rfl

@[simp] theorem counted_entries (c : Cache ι τ) : c.counted.entries = c.entries := by
  unfold counted
  split <;> rfl

@[simp] theorem counted_max_entries (c : Cache ι τ) : c.counted.max_entries = c.max_entries := by
  unfold counted
  split <;> rfl

@[simp] theorem counted_max_bytes (c : Cache ι τ) : c.counted.max_bytes = c.max_bytes := by
  unfold counted
  split <;> rfl

end

theorem order_of_remove {c d : Cache ι τ} {zid : ℤ} (h : c.remove retained_bytes zid = some d) :
    d.order = c.order.filter (· ≠ zid) := by
  unfold remove at h
  split at h
  · cases h
    rfl
  · split at h
    · cases h
      rfl
    · cases h

/-- The loop that evicts; it ends because each round takes a key from the order. -/
def evict (c : Cache ι τ) : Option (Cache ι τ) :=
  if c.Over then
    match horder : c.order with
    | [] => some c
    | old :: _ => match hremove : c.counted.remove retained_bytes old with
        | none => none
        | some d => evict d
  else some c
termination_by c.order.length
decreasing_by
  rw [order_of_remove _ hremove, counted_order]
  exact List.length_filter_lt_length_iff_exists.2 ⟨old, horder ▸ List.mem_cons_self .., by simp⟩

def insert (c : Cache ι τ) (zid : ℤ) (entry : Entry ι τ) : Option (Cache ι τ) := do
  let c ← c.remove retained_bytes zid
  let bytes := entry.bytes retained_bytes
  if c.max_bytes < bytes then
    return { c with oversized := saturating_add c.oversized 1 }
  let c := { c with bytes := saturating_add c.bytes bytes, entries := c.entries.insert zid entry }
  (c.touch zid).evict retained_bytes

def set (c : Cache ι τ) (zid : ℤ) (item : ι) : Option (Cache ι τ) :=
  if (c.entries.lookup zid).any (·.item = item) then some (c.touch zid)
  else c.insert retained_bytes zid ⟨item, none⟩

/-- A body that is no longer the current one is not retained again through its presentation. -/
def set_presentation (c : Cache ι τ) (zid : ℤ) (p : Presentation ι τ) : Option (Cache ι τ) :=
  if ¬(c.entries.lookup zid).any (·.item = p.source) then some c
  else c.insert retained_bytes zid ⟨p.source, some p⟩

end Cache

/-! ## Sequences of calls -/

inductive Call (ι τ : Type*)
  | get (zid : ℤ)
  | presentation (zid : ℤ)
  | set (zid : ℤ) (item : ι)
  | set_presentation (zid : ℤ) (p : Presentation ι τ)

namespace Cache

/-- The cache after a call. -/
def step (c : Cache ι τ) : Call ι τ → Option (Cache ι τ)
  | .get zid => some (c.get zid).2
  | .presentation zid => some (c.presentation zid).2
  | .set zid item => c.set retained_bytes zid item
  | .set_presentation zid p => c.set_presentation retained_bytes zid p

/-- The key that a call uses: it gives what the cache has for the key, or puts something there. -/
def used (c : Cache ι τ) : Call ι τ → List ℤ
  | .get zid => if zid ∈ c.entries then [zid] else []
  | .presentation zid => if ((c.entries.lookup zid).bind Entry.presentation).isSome then [zid] else []
  | .set zid _ => [zid]
  | .set_presentation zid p => if (c.entries.lookup zid).any (·.item = p.source) then [zid] else []

/-- The entry that a call builds, with its key. -/
def stored (c : Cache ι τ) : Call ι τ → Option (ℤ × Entry ι τ)
  | .get _ | .presentation _ => none
  | .set zid item =>
    if (c.entries.lookup zid).any (·.item = item) then none else some (zid, ⟨item, none⟩)
  | .set_presentation zid p =>
    if (c.entries.lookup zid).any (·.item = p.source) then some (zid, ⟨p.source, some p⟩) else none

end Cache

/-- The caches that calls lead to when each of them meets a condition, with the log of the keys used. -/
inductive Reached (max_entries max_bytes : ℕ) (allowed : Cache ι τ → Call ι τ → Prop) :
    List ℤ → Cache ι τ → Prop
  | new : Reached max_entries max_bytes allowed [] (Cache.new max_entries max_bytes)
  | call {log : List ℤ} {c d : Cache ι τ} (call : Call ι τ) :
      Reached max_entries max_bytes allowed log c → allowed c call →
      c.step retained_bytes call = some d → Reached max_entries max_bytes allowed (log ++ c.used call) d

end Polis.PcaCache
