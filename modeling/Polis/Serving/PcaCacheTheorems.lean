import Polis.Serving.PcaCache

/-!
# The accounts of the cache of the math bodies

The counter of the bytes is the sum of the charges of the entries as long as no addition to it stops at the
largest word. Then a removal always has its outcome, and the loop that evicts drops the shortest part of
the least recently used keys that is enough.
-/

namespace Polis.PcaCache

open Recency AList Option

variable {ι τ : Type*} [DecidableEq ι] {retained_bytes : ι → ℕ} {c d : Cache ι τ} {zid : ℤ} {e : Entry ι τ}
  {call : Call ι τ} {log : List ℤ} {max_entries max_bytes : ℕ}

variable (retained_bytes) in
/-- What the fields say of each other. -/
structure Accounted (c : Cache ι τ) : Prop where
  bytes : c.bytes = weight (Entry.bytes retained_bytes) c.entries
  order : c.order.Perm c.entries.keys
  presentation : ∀ zid e p, c.entries.lookup zid = some e → e.presentation = some p → p.source = e.item

structure Bounded (max_entries max_bytes : ℕ) (c : Cache ι τ) : Prop where
  entries : c.entries.keys.length ≤ max_entries
  bytes : c.bytes ≤ max_bytes

/-! ## One entry is removed -/

variable (retained_bytes) in
def Cache.without (c : Cache ι τ) (zid : ℤ) : Cache ι τ :=
  { c with
    entries := c.entries.erase zid
    bytes := weight (Entry.bytes retained_bytes) (c.entries.erase zid)
    order := c.order.filter (· ≠ zid) }

section

variable (h : Accounted retained_bytes c)
include h

theorem Accounted.nodup : c.order.Nodup :=
  h.order.nodup_iff.2 c.entries.keys_nodup

theorem Accounted.mem_order : zid ∈ c.order ↔ zid ∈ c.entries :=
  h.order.mem_iff

theorem Accounted.without (zid : ℤ) :
    Accounted retained_bytes (c.without retained_bytes zid) where
  bytes := rfl
  order := by
    change (c.order.filter (· ≠ zid)).Perm (c.entries.erase zid).keys
    rw [keys_erase, c.entries.keys_nodup.erase_eq_filter]
    exact (h.order.filter _).trans (.of_eq (List.filter_congr fun a _ => by simp [bne, beq_eq_decide]))
  presentation := fun k e p hk hp => by
    rcases eq_or_ne k zid with rfl | hne
    · rw [Cache.without, lookup_erase] at hk
      cases hk
    · exact h.presentation k e p (by rwa [Cache.without, lookup_erase_ne hne] at hk) hp

theorem Accounted.remove (zid : ℤ) :
    c.remove retained_bytes zid = some (c.without retained_bytes zid) := by
  have hweight := weight_erase (f := Entry.bytes retained_bytes) c.entries zid
  rw [weightAt] at hweight
  unfold Cache.remove Cache.without
  split
  · next hnone =>
    have herase : c.entries.erase zid = c.entries :=
      ext (List.kerase_of_notMem_keys (lookup_eq_none.1 hnone))
    rw [herase, ← h.bytes]
  · next old hsome =>
    rw [hsome, elim_some] at hweight
    have hbytes : c.bytes - old.bytes retained_bytes =
        weight (Entry.bytes retained_bytes) (c.entries.erase zid) := by
      rw [h.bytes]
      omega
    rw [if_pos (by rw [h.bytes]; omega), hbytes]

end

/-! ## The loop that evicts -/

variable (retained_bytes) in
/-- A cache with the keys left of another one that are enough to drop from it. -/
structure Evicted (c d : Cache ι τ) : Prop where
  order : d.order = shed (weightAt (Entry.bytes retained_bytes) c.entries) c.max_entries c.max_bytes c.order
  entries : ∀ k, d.entries.lookup k = if k ∈ d.order then c.entries.lookup k else none
  max_entries : d.max_entries = c.max_entries
  max_bytes : d.max_bytes = c.max_bytes

section

variable (h : Accounted retained_bytes c)
include h

theorem Accounted.sum_order :
    (c.order.map (weightAt (Entry.bytes retained_bytes) c.entries)).sum = c.bytes := by
  rw [h.bytes, weight_keys]
  exact (h.order.map _).sum_eq

theorem Accounted.fits_iff :
    Fits (weightAt (Entry.bytes retained_bytes) c.entries) c.max_entries c.max_bytes c.order ↔ ¬c.Over := by
  rw [Fits, h.sum_order, h.order.length_eq, Cache.Over]
  omega

theorem Accounted.counted : Accounted retained_bytes c.counted := by
  unfold Cache.counted
  split
  · exact ⟨h.bytes, h.order, h.presentation⟩
  · exact ⟨h.bytes, h.order, h.presentation⟩

/-- One round of the loop, with what the rounds after it do. -/
theorem Evicted.round {old : ℤ} {rest : List ℤ} (horder : c.order = old :: rest)
    (hover : c.Over) (hd : Evicted retained_bytes (c.counted.without retained_bytes old) d) :
    Evicted retained_bytes c d := by
  have hnodup := h.nodup
  rw [horder, List.nodup_cons] at hnodup
  have hrest : (c.counted.without retained_bytes old).order = rest := by
    change c.counted.order.filter (· ≠ old) = rest
    rw [Cache.counted_order, horder, List.filter_cons_of_neg (by simp), List.filter_eq_self]
    intro a ha
    exact decide_eq_true fun heq => hnodup.1 (heq ▸ ha)
  have hlookup : ∀ k, k ≠ old →
      (c.counted.without retained_bytes old).entries.lookup k = c.entries.lookup k := fun k hk => by
    change lookup k (c.counted.entries.erase old) = _
    rw [Cache.counted_entries, lookup_erase_ne hk]
  have hshed : d.order = shed (weightAt (Entry.bytes retained_bytes) c.entries) c.max_entries c.max_bytes rest := by
    rw [hd.order, hrest]
    change shed _ c.counted.max_entries c.counted.max_bytes rest = _
    rw [Cache.counted_max_entries, Cache.counted_max_bytes]
    refine shed_congr fun k hk => ?_
    rw [weightAt, weightAt, hlookup k fun heq => hnodup.1 (heq ▸ hk)]
  refine ⟨?_, fun k => ?_, ?_, ?_⟩
  · rw [hshed, horder, shed, if_neg]
    rw [← horder, h.fits_iff, not_not]
    exact hover
  · rw [hd.entries]
    by_cases hk : k ∈ d.order
    · obtain ⟨n, -, hdrop, -⟩ := shed_shortest (weightAt (Entry.bytes retained_bytes) c.entries) c.max_entries
        c.max_bytes rest
      have hmem : k ∈ rest := List.mem_of_mem_drop (hdrop ▸ hshed ▸ hk)
      rw [if_pos hk, if_pos hk, hlookup k fun heq => hnodup.1 (heq ▸ hmem)]
    · rw [if_neg hk, if_neg hk]
  · rw [hd.max_entries]
    exact c.counted_max_entries
  · rw [hd.max_bytes]
    exact c.counted_max_bytes

theorem Evicted.refl (hover : ¬c.Over) : Evicted retained_bytes c c where
  order := (shed_of_fits (h.fits_iff.2 hover)).symm
  entries := fun k => by
    by_cases hk : k ∈ c.order
    · rw [if_pos hk]
    · rw [if_neg hk, lookup_eq_none]
      exact fun hmem => hk (h.mem_order.2 hmem)
  max_entries := rfl
  max_bytes := rfl

end

theorem evict_of_not_over (h : ¬c.Over) : c.evict retained_bytes = some c := by
  rw [Cache.evict, if_neg h]

/-- The induction is on the order, which each round shortens. -/
theorem Accounted.evict (h : Accounted retained_bytes c) :
    ∃ d, c.evict retained_bytes = some d ∧ Accounted retained_bytes d ∧ Evicted retained_bytes c d := by
  induction hn : c.order.length using Nat.strong_induction_on generalizing c with | _ n ih
  by_cases hover : c.Over
  · cases horder : c.order with
    | nil =>
      have hfits : Fits (weightAt (Entry.bytes retained_bytes) c.entries) c.max_entries c.max_bytes c.order := by
        rw [horder]
        exact ⟨Nat.zero_le _, Nat.zero_le _⟩
      exact absurd hover (h.fits_iff.1 hfits)
    | cons old rest =>
      have hlt : (c.counted.without retained_bytes old).order.length < c.order.length := by
        change (c.counted.order.filter (· ≠ old)).length < _
        rw [Cache.counted_order]
        exact List.length_filter_lt_length_iff_exists.2 ⟨old, horder ▸ List.mem_cons_self .., by simp⟩
      obtain ⟨d, hevict, hd, hevicted⟩ := ih _ (hn ▸ hlt) (h.counted.without old) rfl
      refine ⟨d, ?_, hd, hevicted.round h horder hover⟩
      rw [Cache.evict, if_pos hover]
      split
      · next hnil => rw [horder] at hnil; cases hnil
      · next old' rest' hcons =>
        rw [horder] at hcons
        cases hcons
        split
        · next hnone => rw [h.counted.remove] at hnone; cases hnone
        · next d' hsome =>
          rw [h.counted.remove] at hsome
          cases hsome
          exact hevict
  · exact ⟨c, evict_of_not_over hover, h, .refl h hover⟩

theorem Evicted.bounded (h : Evicted retained_bytes c d) (hd : Accounted retained_bytes d) :
    Bounded c.max_entries c.max_bytes d := by
  have hfits : Fits (weightAt (Entry.bytes retained_bytes) d.entries) d.max_entries d.max_bytes d.order := by
    have hsum : d.order.map (weightAt (Entry.bytes retained_bytes) d.entries) =
        d.order.map (weightAt (Entry.bytes retained_bytes) c.entries) :=
      List.map_congr_left fun k hk => by rw [weightAt, weightAt, h.entries, if_pos hk]
    rw [Fits, hsum, h.max_entries, h.max_bytes, h.order]
    exact fits_shed
  have hover := hd.fits_iff.1 hfits
  rw [Cache.Over, h.max_entries, h.max_bytes] at hover
  exact ⟨by omega, by omega⟩

/-! ## An entry is inserted -/

variable (retained_bytes) in
/-- No addition to the counter stops at the largest word: what is held without the entry of a key, and the
charge of the entry that is put there, fit into a word. -/
def Exact (c : Cache ι τ) (call : Call ι τ) : Prop :=
  ∀ zid e, c.stored call = some (zid, e) → e.bytes retained_bytes ≤ c.max_bytes →
    weight (Entry.bytes retained_bytes) (c.entries.erase zid) + e.bytes retained_bytes ≤ usizeMax

/-- The cache with an entry put into it, before anything is evicted. -/
def Cache.put (c : Cache ι τ) (zid : ℤ) (e : Entry ι τ) (bytes : ℕ) : Cache ι τ :=
  { c with entries := c.entries.insert zid e, bytes, order := Recency.touch c.order zid }

omit [DecidableEq ι] in
theorem erase_insert (s : AList fun _ : ℤ => Entry ι τ) : (s.erase zid).insert zid e = s.insert zid e := by
  have herase : zid ∉ s.erase zid := fun h => (mem_erase.1 h).1 rfl
  refine ext ?_
  rw [entries_insert_of_notMem herase, entries_insert]
  rfl

theorem Accounted.put (h : Accounted retained_bytes c)
    (hpresentation : ∀ p, e.presentation = some p → p.source = e.item) :
    Accounted retained_bytes (c.put zid e
      (weight (Entry.bytes retained_bytes) (c.entries.erase zid) + e.bytes retained_bytes)) where
  bytes := by
    change _ = weight _ (c.entries.insert zid e)
    rw [← erase_insert, weight_insert fun hmem => (mem_erase.1 hmem).1 rfl, Nat.add_comm]
    rfl
  order := by
    change (touch c.order zid).Perm (c.entries.insert zid e).keys
    rw [keys_insert, touch]
    refine (List.perm_append_comm).trans (.cons zid ?_)
    exact (h.without zid).order.trans (.of_eq (keys_erase ..))
  presentation := fun k e' p hk hp => by
    rcases eq_or_ne k zid with rfl | hne
    · rw [Cache.put, lookup_insert] at hk
      cases hk
      exact hpresentation p hp
    · exact h.presentation k e' p (by rwa [Cache.put, lookup_insert_ne hne] at hk) hp

/-- The condition is that the addition to the counter is exact. -/
theorem Accounted.insert (h : Accounted retained_bytes c)
    (hpresentation : ∀ p, e.presentation = some p → p.source = e.item)
    (hexact : e.bytes retained_bytes ≤ c.max_bytes →
      weight (Entry.bytes retained_bytes) (c.entries.erase zid) + e.bytes retained_bytes ≤ usizeMax) :
    ∃ d, c.insert retained_bytes zid e = some d ∧ Accounted retained_bytes d ∧
      if c.max_bytes < e.bytes retained_bytes then
        d = { c.without retained_bytes zid with oversized := saturating_add c.oversized 1 }
      else ∃ bytes, Evicted retained_bytes (c.put zid e bytes) d := by
  unfold Cache.insert
  rw [h.remove, bind_eq_bind, bind_some]
  change ∃ d, (if c.max_bytes < e.bytes retained_bytes then _ else _) = some d ∧ _
  split
  · next hover =>
    have hw := h.without zid
    exact ⟨_, rfl, ⟨hw.bytes, hw.order, hw.presentation⟩, rfl⟩
  · next hover =>
    have hle := hexact (not_lt.1 hover)
    have hput : Accounted retained_bytes (c.put zid e _) := h.put hpresentation
    obtain ⟨d, hevict, hd, hevicted⟩ := hput.evict
    refine ⟨d, ?_, hd, _, hevicted⟩
    rw [← hevict]
    unfold Cache.put Cache.touch Cache.without
    rw [erase_insert, saturating_add, min_eq_left hle]
    simp [touch, List.filter_filter]

/-! ## What a call does -/

variable (retained_bytes) in
/-- An entry that is too large removes its key and no other. Any other entry is put at the end, and what is
evicted is the shortest part at the front of the order without which both bounds hold. -/
def Placed (c d : Cache ι τ) (zid : ℤ) (e : Entry ι τ) : Prop :=
  if c.max_bytes < e.bytes retained_bytes then
    d.entries = c.entries.erase zid ∧ d.order = c.order.filter (· ≠ zid)
  else ∃ n,
    d.order = (touch c.order zid).drop n ∧
    (∀ k, d.entries.lookup k = if k ∈ d.order then (c.entries.insert zid e).lookup k else none) ∧
    ∀ m, Fits (weightAt (Entry.bytes retained_bytes) (c.entries.insert zid e)) c.max_entries c.max_bytes
      ((touch c.order zid).drop m) ↔ n ≤ m

variable (retained_bytes) in
def Effect (c d : Cache ι τ) (call : Call ι τ) : Prop :=
  match c.stored call with
  | none => d.entries = c.entries
  | some (zid, e) => Placed retained_bytes c d zid e

theorem effect_of_stored (h : c.stored call = some (zid, e)) :
    Effect retained_bytes c d call = Placed retained_bytes c d zid e := by
  rw [Effect, h]

variable (retained_bytes) in
structure Inv (max_entries max_bytes : ℕ) (log : List ℤ) (c : Cache ι τ) : Prop where
  accounted : Accounted retained_bytes c
  bounded : Bounded max_entries max_bytes c
  recent : Recent log (· ∈ c.entries) c.order
  max_entries : c.max_entries = max_entries
  max_bytes : c.max_bytes = max_bytes

theorem Inv.touch (h : Inv retained_bytes max_entries max_bytes log c) (hzid : zid ∈ c.entries) :
    Inv retained_bytes max_entries max_bytes (log ++ [zid]) (c.touch zid) where
  accounted := by
    refine ⟨h.accounted.bytes, ?_, h.accounted.presentation⟩
    refine ((List.perm_ext_iff_of_nodup (nodup_touch h.accounted.nodup) h.accounted.nodup).2 fun a => ?_).trans
      h.accounted.order
    rw [mem_touch]
    exact or_iff_left_of_imp fun heq => heq ▸ h.accounted.mem_order.2 hzid
  bounded := ⟨h.bounded.entries, h.bounded.bytes⟩
  recent := h.recent.touch fun a => (or_iff_left_of_imp fun heq => heq ▸ hzid).symm
  max_entries := h.max_entries
  max_bytes := h.max_bytes

theorem Evicted.placed {bytes : ℕ} (h : Evicted retained_bytes (c.put zid e bytes) d)
    (hle : ¬c.max_bytes < e.bytes retained_bytes) : Placed retained_bytes c d zid e := by
  obtain ⟨n, -, hdrop, hleast⟩ := shed_shortest
    (weightAt (Entry.bytes retained_bytes) (c.entries.insert zid e)) c.max_entries c.max_bytes (Recency.touch c.order zid)
  rw [Placed, if_neg hle]
  exact ⟨n, h.order.trans hdrop, h.entries, hleast⟩

theorem Evicted.recent {bytes : ℕ} (h : Evicted retained_bytes (c.put zid e bytes) d)
    (hrecent : Recent log (· ∈ c.entries) c.order) : Recent (log ++ [zid]) (· ∈ d.entries) d.order := by
  have hput : Recent (log ++ [zid]) (· ∈ c.entries.insert zid e) (Recency.touch c.order zid) :=
    hrecent.touch fun a => by rw [mem_insert, or_comm]
  obtain ⟨n, -, hdrop, -⟩ := shed_shortest
    (weightAt (Entry.bytes retained_bytes) (c.entries.insert zid e)) c.max_entries c.max_bytes (Recency.touch c.order zid)
  have horder : d.order = (Recency.touch c.order zid).filter (· ∈ d.order) := by
    have heq : d.order = (Recency.touch c.order zid).drop n := h.order.trans hdrop
    rw [heq]
    exact drop_eq_filter hput.nodup n
  rw [horder]
  refine hput.sub fun a => ?_
  rw [← lookup_isSome, h.entries, ← lookup_isSome]
  by_cases ha : a ∈ d.order <;> simp [ha, Cache.put]

theorem Inv.insert (h : Inv retained_bytes max_entries max_bytes log c)
    (hpresentation : ∀ p, e.presentation = some p → p.source = e.item)
    (hexact : e.bytes retained_bytes ≤ c.max_bytes →
      weight (Entry.bytes retained_bytes) (c.entries.erase zid) + e.bytes retained_bytes ≤ usizeMax) :
    ∃ d, c.insert retained_bytes zid e = some d ∧
      Inv retained_bytes max_entries max_bytes (log ++ [zid]) d ∧ Placed retained_bytes c d zid e := by
  obtain ⟨d, hinsert, hd, hcases⟩ := h.accounted.insert hpresentation hexact
  refine ⟨d, hinsert, ?_⟩
  split at hcases
  · next hover =>
    have hweight := weight_erase (f := Entry.bytes retained_bytes) c.entries zid
    have hbytes := h.bounded.bytes
    rw [h.accounted.bytes] at hbytes
    have hput : Recent (log ++ [zid]) (· ∈ c.entries.insert zid e) (Recency.touch c.order zid) :=
      h.recent.touch fun a => by rw [mem_insert, or_comm]
    subst hcases
    refine ⟨⟨hd, ⟨?_, ?_⟩, ?_, h.max_entries, h.max_bytes⟩, ?_⟩
    · change (c.entries.erase zid).keys.length ≤ max_entries
      rw [keys_erase]
      exact (List.length_erase_le ..).trans h.bounded.entries
    · change weight _ (c.entries.erase zid) ≤ max_bytes
      omega
    · change Recent (log ++ [zid]) (· ∈ c.entries.erase zid) (c.order.filter (· ≠ zid))
      have hfilter : c.order.filter (· ≠ zid) = (Recency.touch c.order zid).filter (· ≠ zid) := by
        simp [Recency.touch, List.filter_filter]
      rw [hfilter]
      refine hput.sub fun a => ?_
      rw [mem_erase, mem_insert]
      tauto
    · rw [Placed, if_pos hover]
      exact ⟨rfl, rfl⟩
  · next hover =>
    obtain ⟨bytes, hevicted⟩ := hcases
    have hbounded := hevicted.bounded hd
    refine ⟨⟨hd, ?_, hevicted.recent h.recent, ?_, ?_⟩, hevicted.placed hover⟩
    · rw [← h.max_entries, ← h.max_bytes]
      exact hbounded
    · exact hevicted.max_entries.trans h.max_entries
    · exact hevicted.max_bytes.trans h.max_bytes

theorem item_of_any {item : ι} (h : (c.entries.lookup zid).any (·.item = item)) :
    ∃ e, c.entries.lookup zid = some e ∧ e.item = item := by
  cases he : c.entries.lookup zid with
  | none => rw [he] at h; cases h
  | some e => rw [he] at h; exact ⟨e, rfl, by simpa using h⟩

/-- The step lemma, one case for each call. -/
theorem Inv.step (h : Inv retained_bytes max_entries max_bytes log c) (hexact : Exact retained_bytes c call) :
    ∃ d, c.step retained_bytes call = some d ∧
      Inv retained_bytes max_entries max_bytes (log ++ c.used call) d ∧ Effect retained_bytes c d call := by
  cases call with
  | get zid =>
    refine ⟨_, rfl, ?_, ?_⟩
    · rw [Cache.used, Cache.get]
      split
      · next hzid =>
        obtain ⟨e, he⟩ := isSome_iff_exists.1 (lookup_isSome.2 hzid)
        rw [he]
        exact h.touch hzid
      · next hzid =>
        rw [lookup_eq_none.2 hzid, List.append_nil]
        exact h
    · change (c.get zid).2.entries = c.entries
      rw [Cache.get]
      split <;> rfl
  | presentation zid =>
    refine ⟨_, rfl, ?_, ?_⟩
    · rw [Cache.used, Cache.presentation]
      cases hp : (c.entries.lookup zid).bind Entry.presentation with
      | none =>
        rw [isSome_none, if_neg Bool.false_ne_true, List.append_nil]
        exact h
      | some p =>
        obtain ⟨e, he, -⟩ := bind_eq_some_iff.1 hp
        exact h.touch (lookup_isSome.1 (by rw [he]; rfl))
    · change (c.presentation zid).2.entries = c.entries
      rw [Cache.presentation]
      split <;> rfl
  | set zid item =>
    change ∃ d, c.set retained_bytes zid item = some d ∧ Inv _ _ _ (log ++ [zid]) d ∧ _
    rw [Cache.set]
    by_cases hsame : (c.entries.lookup zid).any (·.item = item)
    · obtain ⟨e, he, -⟩ := item_of_any hsame
      refine ⟨_, if_pos hsame, h.touch (lookup_isSome.1 (by rw [he]; rfl)), ?_⟩
      rw [Effect, Cache.stored, if_pos hsame]
      rfl
    · have hstored : c.stored (.set zid item) = some (zid, ⟨item, none⟩) := if_neg hsame
      simp only [if_neg hsame, effect_of_stored hstored]
      exact h.insert nofun (hexact _ _ hstored)
  | set_presentation zid p =>
    change ∃ d, c.set_presentation retained_bytes zid p = some d ∧ _
    rw [Cache.set_presentation, Cache.used]
    by_cases hcurrent : (c.entries.lookup zid).any (·.item = p.source)
    · have hstored : c.stored (.set_presentation zid p) = some (zid, ⟨p.source, some p⟩) := if_pos hcurrent
      simp only [if_neg (not_not.2 hcurrent), if_pos hcurrent, effect_of_stored hstored]
      exact h.insert (fun q hq => by cases hq; rfl) (hexact _ _ hstored)
    · refine ⟨c, if_pos hcurrent, ?_, ?_⟩
      · rw [if_neg hcurrent, List.append_nil]
        exact h
      · rw [Effect, Cache.stored, if_neg hcurrent]

/-- An addition to the counter is exact when two bounds fit into a word. -/
theorem Inv.exact (h : Inv retained_bytes max_entries max_bytes log c) (hmax : 2 * max_bytes ≤ usizeMax) :
    Exact retained_bytes c call := by
  intro zid e _ hle
  have hweight := weight_erase (f := Entry.bytes retained_bytes) c.entries zid
  have hbytes := h.bounded.bytes
  rw [h.accounted.bytes] at hbytes
  rw [h.max_bytes] at hle
  omega

theorem Reached.inv (h : Reached retained_bytes max_entries max_bytes (Exact retained_bytes) log c) :
    Inv retained_bytes max_entries max_bytes log c := by
  induction h with
  | new => exact ⟨⟨rfl, .refl _, nofun⟩, ⟨Nat.zero_le _, Nat.zero_le _⟩, rfl, rfl, rfl⟩
  | call _ _ hexact hstep ih =>
    obtain ⟨d, hd, hinv, -⟩ := ih.step hexact
    cases hd.symm.trans hstep
    exact hinv

/-! ## Every sequence of calls -/

/-- After calls none of whose additions to the counter stopped at the largest word: the bytes are the sum of
the charges and within their bound, as the entries are; the order is that of the last uses of the keys that
are kept; a presentation belongs to the current body of its entry. The next call has its outcome, so that
no subtraction goes below zero, and its effect; with two bounds in a word it stops at no addition. -/
theorem math_body_cache
    (h : Reached retained_bytes max_entries max_bytes (Exact retained_bytes) log c) :
    c.bytes = weight (Entry.bytes retained_bytes) c.entries ∧
    c.bytes ≤ max_bytes ∧
    c.entries.keys.length ≤ max_entries ∧
    c.order.Perm c.entries.keys ∧
    c.order = log.dedup.filter (· ∈ c.entries) ∧
    (∀ zid e p, c.entries.lookup zid = some e → e.presentation = some p → p.source = e.item) ∧
    ∀ call,
      (Exact retained_bytes c call → ∃ d, c.step retained_bytes call = some d ∧ Effect retained_bytes c d call) ∧
      (2 * max_bytes ≤ usizeMax → Exact retained_bytes c call) := by
  have hinv := h.inv
  refine ⟨hinv.accounted.bytes, hinv.bounded.bytes, hinv.bounded.entries, hinv.accounted.order, hinv.recent,
    hinv.accounted.presentation, fun call => ⟨fun hexact => ?_, hinv.exact⟩⟩
  obtain ⟨d, hd, -, heffect⟩ := hinv.step hexact
  exact ⟨d, hd, heffect⟩

/-- A key that the cache does not have is set, and nothing is evicted. -/
theorem step_set_fresh {item : ι} (hzid : zid ∉ c.entries)
    (hmax : ¬c.max_bytes < (⟨item, none⟩ : Entry ι τ).bytes retained_bytes)
    (hover : ¬(c.put zid ⟨item, none⟩ (saturating_add c.bytes
      ((⟨item, none⟩ : Entry ι τ).bytes retained_bytes))).Over) :
    c.step retained_bytes (.set zid item) =
      some (c.put zid ⟨item, none⟩ (saturating_add c.bytes ((⟨item, none⟩ : Entry ι τ).bytes retained_bytes))) := by
  have hnone := lookup_eq_none.2 hzid
  rw [Cache.step, Cache.set, hnone, any_none, if_neg Bool.false_ne_true, Cache.insert, Cache.remove, hnone]
  change (if c.max_bytes < _ then _ else _) = _
  rw [if_neg hmax, ← evict_of_not_over hover]
  congr 1
  simp [Cache.put, Cache.touch, Recency.touch, List.filter_filter]

/-- A cache with the body of one more key; every body retains as much. -/
private def withBody (retained : ℕ) (c : Cache Unit Unit) (zid : ℤ) : Cache Unit Unit :=
  c.put zid ⟨(), none⟩ (saturating_add c.bytes ((⟨(), none⟩ : Entry Unit Unit).bytes fun _ => retained))

/-- A cache of the default size with one body of a thousand bytes. -/
theorem math_body_cache_one :
    (withBody 1000 (.new 300 201326592) 1).bytes ≤ 201326592 ∧
    (withBody 1000 (.new 300 201326592) 1).order =
      [1].dedup.filter (· ∈ (withBody 1000 (.new 300 201326592) 1).entries) := by
  have hreached : Reached (fun _ => 1000) 300 201326592 (Exact fun _ => 1000) [1]
      (withBody 1000 (.new 300 201326592) 1) := by
    refine .call (.set 1 ()) .new (fun zid e he _ => ?_) ?_
    · cases he
      decide
    · exact step_set_fresh (by decide) (by decide) (by decide)
  obtain ⟨-, hbytes, -, -, horder, -⟩ := math_body_cache hreached
  exact ⟨hbytes, horder⟩

/-- Two bodies each charged with half of the words: the counter stops one below the sum. -/
theorem counter_stops : ¬∀ (log : List ℤ) (c : Cache Unit Unit),
    Reached (fun _ => 2 ^ 63 - 256) 2 usizeMax (fun _ _ => True) log c →
    c.bytes = weight (Entry.bytes fun _ => 2 ^ 63 - 256) c.entries := by
  intro h
  have hone : Reached (fun _ => 2 ^ 63 - 256) 2 usizeMax (fun _ _ => True) [1]
      (withBody (2 ^ 63 - 256) (.new 2 usizeMax) 1) :=
    .call (.set 1 ()) .new trivial (step_set_fresh (by decide) (by decide) (by decide))
  have htwo : Reached (fun _ => 2 ^ 63 - 256) 2 usizeMax (fun _ _ => True) [1, 2]
      (withBody (2 ^ 63 - 256) (withBody (2 ^ 63 - 256) (.new 2 usizeMax) 1) 2) :=
    .call (.set 2 ()) hone trivial (step_set_fresh (by decide) (by decide) (by decide))
  exact absurd (h _ _ htwo) (by decide)

end Polis.PcaCache
