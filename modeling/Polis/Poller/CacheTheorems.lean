import Polis.Poller.Cache
import Polis.Common.Run

/-!
# What the accounts charge

Whenever the cache lock is free, the charged zids are the cached and the detached ones, and a
detached zid is held and not cached. A held zid is charged at every moment.

Reference: `polismath/poller/service.py`, `polismath/poller/admission.py`.
-/

namespace Polis.Poller

open List Option Accounts CacheState

variable {z zid : ℤ}
variable {s : CacheState}

/-! ## Accounts -/

namespace Accounts

variable (a : Accounts)

@[simp] theorem mem_retained_setRetained (nbytes : ℕ) :
    z ∈ (a.setRetained zid nbytes).retained ↔ z = zid ∨ z ∈ a.retained := by
  simp [setRetained]

@[simp] theorem mem_detached_setRetained (nbytes : ℕ) :
    z ∈ (a.setRetained zid nbytes).detached ↔ z ≠ zid ∧ z ∈ a.detached := by
  simp [setRetained]

/-- Only the charge of a zid that nobody holds goes. -/
@[simp] theorem mem_retained_dropRetained :
    z ∈ (a.dropRetained zid).1.retained ↔ z ∈ a.retained ∧ (z = zid → zid ∈ a.holds) := by
  unfold dropRetained
  by_cases hheld : zid ∈ a.holds
  · by_cases hret : zid ∈ a.retained <;> simp [hheld, hret]
  · simp [hheld, and_comm]

/-- A held, charged zid is detached. -/
@[simp] theorem mem_detached_dropRetained :
    z ∈ (a.dropRetained zid).1.detached ↔
      z ∈ a.detached ∨ z = zid ∧ zid ∈ a.holds ∧ zid ∈ a.retained := by
  unfold dropRetained
  by_cases hheld : zid ∈ a.holds
  · by_cases hret : zid ∈ a.retained
    · simp [hheld, hret, or_comm]
    · simp [hheld, hret]
  · simp [hheld]

@[simp] theorem holds_dropRetained : (a.dropRetained zid).1.holds = a.holds := by
  unfold dropRetained
  split
  · dsimp only
    split <;> rfl
  · rfl

@[simp] theorem holds_unhold : (a.unhold zid).holds = a.holds.erase zid := by
  unfold unhold
  dsimp only
  split
  · rfl
  · split <;> rfl

/-- The last hold of a detached zid takes its charge along. -/
@[simp] theorem mem_retained_unhold :
    z ∈ (a.unhold zid).retained ↔
      z ∈ a.retained ∧ (z = zid → zid ∈ a.detached → zid ∈ a.holds.erase zid) := by
  unfold unhold
  by_cases hheld : zid ∈ a.holds.erase zid
  · simp [hheld]
  · by_cases hdet : zid ∈ a.detached
    · simp [hheld, hdet, and_comm]
    · simp [hheld, hdet]

@[simp] theorem mem_detached_unhold :
    z ∈ (a.unhold zid).detached ↔
      z ∈ a.detached ∧ (z = zid → zid ∈ a.holds.erase zid) := by
  unfold unhold
  by_cases hheld : zid ∈ a.holds.erase zid
  · simp [hheld]
  · by_cases hdet : zid ∈ a.detached
    · simp [hheld, hdet, and_comm]
    · simp only [hheld, hdet, if_false, imp_false]
      constructor
      · exact fun hz => ⟨hz, fun heq => hdet (heq ▸ hz)⟩
      · exact And.left

end Accounts

/-! ## Balanced caches -/

/-- What an operation under way knows about its zid. -/
def CacheOp.Fits (convs : List ℤ) : CacheOp → Prop
  | .retaining zid _ => zid ∈ convs
  | .holding zid => zid ∈ convs
  | .trimDropping zid => zid ∉ convs
  | .dropping zid => zid ∉ convs
  | .evictDropping zid _ _ _ _ => zid ∉ convs
  | _ => True

/-- The accounts and the cache agree, but for the zid being moved. -/
structure Balanced (s : CacheState) : Prop where
  nodup : s.convs.Nodup
  fits : ∀ op ∈ s.op, op.Fits s.convs
  charged : ∀ z, s.moving ≠ some z →
    (z ∈ s.accounts.retained ↔ z ∈ s.convs ∨ z ∈ s.accounts.detached)
  detached_held : ∀ z ∈ s.accounts.detached, z ∈ s.accounts.holds
  detached_uncached : ∀ z ∈ s.accounts.detached, s.moving ≠ some z → z ∉ s.convs
  held_charged : ∀ z ∈ s.accounts.holds, z ∈ s.accounts.retained

theorem Balanced.init : Balanced .init where
  nodup := .nil
  fits := fun _ h => by simp [CacheState.init] at h
  charged := fun z _ => by simp [CacheState.init, empty]
  detached_held := fun z h => by simp [CacheState.init, empty] at h
  detached_uncached := fun z h => by simp [CacheState.init, empty] at h
  held_charged := fun z h => by simp [CacheState.init, empty] at h

theorem mem_moveToEnd {convs : List ℤ} (h : convs.Nodup) :
    z ∈ moveToEnd convs zid ↔ z = zid ∨ z ∈ convs := by
  simp only [moveToEnd, mem_append, h.mem_erase_iff, mem_singleton]
  grind

theorem nodup_moveToEnd {convs : List ℤ} (h : convs.Nodup) : (moveToEnd convs zid).Nodup := by
  refine nodup_append.2 ⟨h.erase zid, by simp, fun z hz z' hz' heq => ?_⟩
  rw [mem_singleton.1 hz'] at heq
  exact (h.mem_erase_iff.1 hz).1 heq

/-- Once the charge of the moved zid is set, the zid is cached, charged and not detached. -/
theorem Balanced.setRetained (h : Balanced s) {nbytes : ℕ} {op : CacheOp}
    (hmoving : s.moving = some zid) (hcached : zid ∈ s.convs) (hfits : op.Fits s.convs) :
    Balanced { s with accounts := s.accounts.setRetained zid nbytes, op := some op } where
  nodup := h.nodup
  fits := fun op' hop' => by simpa using mem_some_iff.1 hop' ▸ hfits
  charged := fun z _ => by
    have hc := h.charged z
    rw [hmoving] at hc
    simp only [mem_retained_setRetained, mem_detached_setRetained]
    grind
  detached_held := fun z hz => by
    rw [mem_detached_setRetained] at hz
    exact h.detached_held z hz.2
  detached_uncached := fun z hz _ => by
    rw [mem_detached_setRetained] at hz
    refine h.detached_uncached z hz.2 ?_
    rw [hmoving]
    exact fun heq => hz.1 (Option.some.inj heq).symm
  held_charged := fun z hz =>
    (mem_retained_setRetained _ _).2 (.inr (h.held_charged z hz))

/-- Once the moved zid is dropped, it is uncached, and charged only while it is held. -/
theorem Balanced.dropRetained (h : Balanced s) {op : Option CacheOp}
    (hmoving : s.moving = some zid) (huncached : zid ∉ s.convs)
    (hfits : ∀ op' ∈ op, op'.Fits s.convs) :
    Balanced { s with accounts := (s.accounts.dropRetained zid).1, op } where
  nodup := h.nodup
  fits := hfits
  charged := fun z _ => by
    have hc := h.charged z
    have hd := h.detached_held z
    have hheld := h.held_charged z
    rw [hmoving] at hc
    simp only [mem_retained_dropRetained, mem_detached_dropRetained]
    grind
  detached_held := fun z hz => by
    rw [mem_detached_dropRetained] at hz
    rw [holds_dropRetained]
    rcases hz with hz | ⟨rfl, hheld, -⟩
    · exact h.detached_held z hz
    · exact hheld
  detached_uncached := fun z hz _ => by
    rw [mem_detached_dropRetained] at hz
    have hu := h.detached_uncached z
    rw [hmoving] at hu
    grind
  held_charged := fun z hz => by
    rw [holds_dropRetained] at hz
    exact (mem_retained_dropRetained _).2 ⟨h.held_charged z hz, fun heq => heq ▸ hz⟩

/-- Releasing a hold keeps the balance, whatever operation is under way. -/
theorem Balanced.unhold (h : Balanced s) :
    Balanced { s with accounts := s.accounts.unhold zid } where
  nodup := h.nodup
  fits := h.fits
  charged := fun z hz => by
    have hc := h.charged z hz
    have hu := fun hdet => h.detached_uncached z hdet hz
    simp only [mem_retained_unhold, mem_detached_unhold]
    grind
  detached_held := fun z hz => by
    obtain ⟨hdet, hlast⟩ := (mem_detached_unhold _).1 hz
    rw [holds_unhold]
    by_cases heq : z = zid
    · exact heq ▸ hlast heq
    · exact (Multiset.mem_erase_of_ne heq).2 (h.detached_held z hdet)
  detached_uncached := fun z hz => h.detached_uncached z ((mem_detached_unhold _).1 hz).1
  held_charged := fun z hz => by
    rw [holds_unhold] at hz
    exact (mem_retained_unhold _).2
      ⟨h.held_charged z (Multiset.mem_of_mem_erase hz), fun heq _ => heq ▸ hz⟩

/-- A change of the cache that only touches the zid being moved, or nothing. -/
theorem Balanced.set_convs (h : Balanced s) {convs : List ℤ} {op : Option CacheOp}
    (hidle : s.moving = none) (hnodup : convs.Nodup) (hfits : ∀ op' ∈ op, op'.Fits convs)
    (hmem : ∀ z, op.bind CacheOp.moving ≠ some z → (z ∈ convs ↔ z ∈ s.convs)) :
    Balanced { s with convs, op } where
  nodup := hnodup
  fits := hfits
  charged := fun z hz => by
    rw [hmem z hz]
    exact h.charged z (by rw [hidle]; simp)
  detached_held := h.detached_held
  detached_uncached := fun z hdet hz => by
    rw [hmem z hz]
    exact h.detached_uncached z hdet (by rw [hidle]; simp)
  held_charged := h.held_charged

/-- Popping a zid from the cache starts moving it. -/
theorem Balanced.pop (h : Balanced s) {op : CacheOp} (hidle : s.moving = none)
    (hmoving : op.moving = some zid)
    (hfits : zid ∉ s.convs.erase zid → op.Fits (s.convs.erase zid)) :
    Balanced { s with convs := s.convs.erase zid, op := some op } := by
  refine h.set_convs hidle (h.nodup.erase zid) (fun op' hop' => ?_) fun z hz => ?_
  · obtain rfl := mem_some_iff.1 hop'
    exact hfits fun hmem => (h.nodup.mem_erase_iff.1 hmem).1 rfl
  · rw [bind_some, hmoving] at hz
    rw [h.nodup.mem_erase_iff, and_iff_right fun heq => hz (by rw [heq])]

/-- The next section of any operation keeps the balance. -/
theorem Balanced.go (h : Balanced s) (bounds : CacheBounds) {op : CacheOp}
    (hop : s.op = some op) : Balanced (s.go bounds op) := by
  have hfits := h.fits op hop
  have hdone : s.moving = none → Balanced { s with op := none } := fun hidle =>
    h.set_convs hidle h.nodup (by simp) (fun _ _ => Iff.rfl)
  cases op with
  | retaining zid nbytes =>
    exact h.setRetained (by rw [moving, hop]; rfl) hfits trivial
  | trimming =>
    have hidle : s.moving = none := by rw [moving, hop]; rfl
    simp only [CacheState.go]
    split
    · exact hdone hidle
    · next coldest convs hconvs =>
        split
        · have herase : convs = s.convs.erase coldest := by rw [hconvs, erase_cons_head]
          rw [herase]
          exact h.pop hidle rfl id
        · exact hdone hidle
  | trimDropping | evictDropping =>
    exact h.dropRetained (by rw [moving, hop]; rfl) hfits
      fun op' hop' => mem_some_iff.1 hop' ▸ trivial
  | dropping zid =>
    exact h.dropRetained (by rw [moving, hop]; rfl) hfits (by simp)
  | evicting todo shortfall freed protect =>
    have hidle : s.moving = none := by rw [moving, hop]; rfl
    simp only [CacheState.go]
    split
    · exact hdone hidle
    · split
      · exact hdone hidle
      · split
        · exact h.set_convs hidle h.nodup
            (fun op' hop' => mem_some_iff.1 hop' ▸ trivial) (fun _ _ => Iff.rfl)
        · exact h.pop hidle rfl id
  | holding zid =>
    have hidle : s.moving = none := by rw [moving, hop]; rfl
    have hb := hdone hidle
    exact {
      nodup := hb.nodup
      fits := hb.fits
      charged := hb.charged
      detached_held := fun z hz => Multiset.mem_cons_of_mem (hb.detached_held z hz)
      detached_uncached := hb.detached_uncached
      held_charged := fun z hz => by
        rcases Multiset.mem_cons.1 hz with rfl | hz
        · exact (hb.charged _ (by simp [moving])).2 (.inl hfits)
        · exact hb.held_charged z hz }

/-- Every event keeps the balance. -/
theorem Balanced.step {s s' : CacheState} (h : Balanced s) {bounds : CacheBounds} {e : CacheEvent}
    (hs : s.Step bounds e s') : Balanced s' := by
  have hidle : s.op = none → s.moving = none := fun hop => by rw [moving, hop]; rfl
  cases e with
  | remember zid nbytes =>
    obtain ⟨hop, rfl⟩ := hs
    refine h.set_convs (hidle hop) (nodup_moveToEnd h.nodup)
      (fun op' hop' => mem_some_iff.1 hop' ▸ (mem_moveToEnd h.nodup).2 (.inl rfl))
      fun z hz => ?_
    rw [mem_moveToEnd h.nodup, or_iff_right fun heq => hz (by rw [heq]; rfl)]
  | drop zid =>
    obtain ⟨hop, rfl⟩ := hs
    exact h.pop (hidle hop) rfl id
  | evict shortfall protect =>
    obtain ⟨hop, rfl⟩ := hs
    exact h.set_convs (hidle hop) h.nodup
      (fun op' hop' => mem_some_iff.1 hop' ▸ trivial) (fun _ _ => Iff.rfl)
  | lookup zid =>
    obtain ⟨hop, rfl⟩ := hs
    split
    · next hcached =>
        refine h.set_convs (hidle hop) (nodup_moveToEnd h.nodup)
          (fun op' hop' => mem_some_iff.1 hop' ▸ (mem_moveToEnd h.nodup).2 (.inl rfl))
          fun z _ => ?_
        rw [mem_moveToEnd h.nodup, or_iff_right_of_imp fun heq => heq ▸ hcached]
    · exact h
  | go =>
    obtain ⟨op, hop, rfl⟩ := hs
    exact h.go bounds hop
  | unhold zid =>
    obtain rfl := hs
    exact h.unhold

theorem run_balanced {bounds : CacheBounds} {es : List CacheEvent}
    (h : Run (CacheState.Step bounds) .init es s) : Balanced s :=
  h.keeps Balanced .init fun _ _ _ hb hs => hb.step hs

/-- In every state of every run: while no operation is under way, the charged zids are the cached
ones together with the detached ones, every detached zid is held and not cached, and once no hold is
left the charged zids are exactly the cached ones. While one is, the same is true of every zid but
the one it is moving. A held zid is charged at every moment. -/
theorem retained_accounts {bounds : CacheBounds} {es : List CacheEvent} {s : CacheState}
    (hrun : Run (CacheState.Step bounds) .init es s) :
    (s.op = none →
      (∀ z, z ∈ s.accounts.retained ↔ z ∈ s.convs ∨ z ∈ s.accounts.detached) ∧
      (∀ z ∈ s.accounts.detached, z ∈ s.accounts.holds ∧ z ∉ s.convs) ∧
      (s.accounts.holds = 0 → ∀ z, z ∈ s.accounts.retained ↔ z ∈ s.convs)) ∧
    (∀ z, s.moving ≠ some z →
      (z ∈ s.accounts.retained ↔ z ∈ s.convs ∨ z ∈ s.accounts.detached) ∧
      (z ∈ s.accounts.detached → z ∈ s.accounts.holds ∧ z ∉ s.convs)) ∧
    ∀ z ∈ s.accounts.holds, z ∈ s.accounts.retained := by
  have h := run_balanced hrun
  have hfree : s.op = none → ∀ z, s.moving ≠ some z := fun hop z => by
    rw [moving, hop]
    simp
  refine ⟨fun hop => ⟨fun z => h.charged z (hfree hop z), fun z hz =>
    ⟨h.detached_held z hz, h.detached_uncached z hz (hfree hop z)⟩, fun hnone z => ?_⟩,
    fun z hz => ⟨h.charged z hz, fun hdet =>
      ⟨h.detached_held z hdet, h.detached_uncached z hdet hz⟩⟩, h.held_charged⟩
  rw [h.charged z (hfree hop z), or_iff_left]
  intro hdet
  simpa [hnone] using h.detached_held z hdet

private def unbounded : CacheBounds := ⟨0, none⟩

private def stored : CacheState := ⟨[1], .setRetained .empty 1 50, none⟩

private def heldCache : CacheState := ⟨[1], (setRetained .empty 1 50).hold 1, none⟩

private def droppedCache : CacheState :=
  ⟨[], (((setRetained .empty 1 50).hold 1).dropRetained 1).1, none⟩

/-- A conversation is stored, held and dropped from the cache: it stays charged. -/
theorem retained_accounts_detached :
    (∀ z, z ∈ droppedCache.accounts.retained ↔
      z ∈ droppedCache.convs ∨ z ∈ droppedCache.accounts.detached) ∧
    (1 : ℤ) ∈ droppedCache.accounts.retained ∧ droppedCache.convs = [] := by
  have h₁ : Run (CacheState.Step unbounded) .init [.remember 1 50, .go, .go] stored :=
    .snoc (.snoc (.snoc .nil ⟨rfl, rfl⟩) ⟨_, rfl, rfl⟩) ⟨_, rfl, rfl⟩
  have hlookup : stored.Step unbounded (.lookup 1) { stored with op := some (.holding 1) } :=
    ⟨rfl, rfl⟩
  have hhold : CacheState.Step unbounded { stored with op := some (.holding 1) } .go heldCache :=
    ⟨_, rfl, rfl⟩
  have hdrop : heldCache.Step unbounded (.drop 1)
      { heldCache with convs := [], op := some (.dropping 1) } := ⟨rfl, rfl⟩
  have hdropped : CacheState.Step unbounded
      { heldCache with convs := [], op := some (.dropping 1) } .go droppedCache := ⟨_, rfl, rfl⟩
  obtain ⟨hfree, -, hheld⟩ :=
    retained_accounts ((((h₁.snoc hlookup).snoc hhold).snoc hdrop).snoc hdropped)
  exact ⟨(hfree rfl).1, hheld 1 (by decide), rfl⟩

end Polis.Poller
