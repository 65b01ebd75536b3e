import Polis.Treevite.Waves
import Polis.Common.Partition
import Mathlib.Data.List.Dedup

/-!
# What waves may come to

The reservation of a wave is that of its parent times the codes for each member, and the owner's codes. In
legal tables no wave has more codes than that: its members have come by codes of the parent, and each of
them has at most what is promised to it. The quota of a creation is at least the reservations, as long as
it is below the largest number of its type.

Reference: `queue-rs/polis-api/src/post_treevite_waves.rs`.
-/

namespace Polis.Treevite

open List Function Tables Nat

variable {w : Wave}

/-! ## Reservations -/

/-- The reservation of a wave among the waves of its conversation. -/
def capacity (ws : List Wave) (n : ℕ) : ℕ :=
  if n = 0 then 1 else match ws.find? (·.wave = n) with
    | none => 0
    | some w => (if w.parent_wave < n then capacity ws w.parent_wave else 0) * w.invites_per_user + w.owner_invites
termination_by n

namespace Tables

variable (db : Tables)

/-- The reservation of a wave. -/
def reserved (w : Wave) : ℕ := capacity (db.wavesOf w.zid) w.wave

/-- The reservations of a conversation. -/
def reservedIn (zid : ℤ) : ℕ := ((db.wavesOf zid).map db.reserved).sum

/-- The reservations of an owner. -/
def reservedBy (owner : ℤ) : ℕ := ((db.ownedBy owner).map db.reserved).sum

/-- The member came by a code of the parent of the wave. -/
def Promised (w : Wave) (pid : ℤ) : Prop :=
  ∃ parent ∈ db.wavesOf w.zid, parent.wave = w.parent_wave ∧
    ∃ i ∈ db.codes parent.id, i.invite_used_by_pid = some pid

end Tables

/-- The codes of a wave that are for nobody. -/
def Wave.free (w : Wave) : ℕ := w.owner_invites + if w.parent_wave = 0 then w.invites_per_user else 0

/-- Tables in which codes are issued as promised. -/
structure Legal (db : Tables) : Prop where
  numbers : ∀ zid, (db.wavesOf zid).map (·.wave) = List.range' 1 (db.wavesOf zid).length
  parent : ∀ w ∈ db.waves, w.parent_wave < w.wave
  ids : (db.waves.map (·.id)).Nodup
  wave : ∀ i ∈ db.invites, ∃ w ∈ db.waves, w.id = i.wave_id ∧ w.zid = i.zid
  unused : ∀ i ∈ db.invites, i.status = 0 → i.invite_used_by_pid = none
  member : ∀ w ∈ db.waves, ∀ i ∈ db.codes w.id, ∀ pid, i.invite_owner_pid = some pid → db.Promised w pid
  allowance : ∀ w ∈ db.waves, ∀ pid, (db.held w.id pid).length ≤ w.invites_per_user
  free : ∀ w ∈ db.waves, ((db.codes w.id).filter (·.invite_owner_pid = none)).length ≤ w.free

/-- The reservations are within the caps. -/
structure Capped (caps : Caps) (db : Tables) : Prop where
  conversation : ∀ zid, db.reservedIn zid ≤ caps.conversation
  owner : ∀ owner, db.reservedBy owner ≤ caps.owner

variable {db : Tables} {caps : Caps} {zid owner : ℤ}

theorem mem_wavesOf : w ∈ db.wavesOf zid ↔ w ∈ db.waves ∧ w.zid = zid := by
  simp [wavesOf]

theorem mem_ownedBy : w ∈ db.ownedBy owner ↔ w ∈ db.waves ∧ db.owner w.zid = some owner := by
  simp [ownedBy]

theorem mem_codes {i : Invite} {wave : ℕ} : i ∈ db.codes wave ↔ i ∈ db.invites ∧ i.wave_id = wave := by
  simp [codes]

/-- A wave is the one of its number. -/
theorem find?_wave {ws : List Wave} {n : ℕ} (h : ws.map (·.wave) = List.range' 1 n) (hw : w ∈ ws) :
    w.wave ≠ 0 ∧ ws.find? (·.wave = w.wave) = some w := by
  have hnodup : (ws.map (·.wave)).Nodup := h ▸ nodup_range' ..
  have hmem : w.wave ∈ List.range' 1 n := h ▸ mem_map_of_mem hw
  refine ⟨?_, ?_⟩
  · have := mem_range'_1.1 hmem
    omega
  · cases hf : ws.find? (·.wave = w.wave) with
    | none => simpa using find?_eq_none.1 hf w hw
    | some v =>
      have hv : v.wave = w.wave := by simpa using find?_some hf
      rw [inj_on_of_nodup_map hnodup (mem_of_find?_eq_some hf) hw hv]

/-- The reservation of a wave, by that of its parent. -/
theorem Legal.reserved_eq (h : Legal db) (hw : w ∈ db.waves) :
    db.reserved w = capacity (db.wavesOf w.zid) w.parent_wave * w.invites_per_user + w.owner_invites := by
  obtain ⟨hne, hfind⟩ := find?_wave (h.numbers w.zid) (mem_wavesOf.2 ⟨hw, rfl⟩)
  rw [reserved, capacity, if_neg hne, hfind]
  simp only [h.parent w hw, if_true]

/-! ## Codes are within the reservations -/

theorem Legal.codes_le (h : Legal db) (hw : w ∈ db.waves) : (db.codes w.id).length ≤ db.reserved w := by
  induction hn : w.wave using Nat.strong_induction_on generalizing w with
  | _ n ih =>
    subst hn
    have hfree := h.free w hw
    have hsplit : (db.codes w.id).length = ((db.codes w.id).filter (·.invite_owner_pid = none)).length +
        ((db.codes w.id).filter (·.invite_owner_pid ≠ none)).length := by
      rw [length_eq_length_filter_add (·.invite_owner_pid = none)]
      simp
    rw [h.reserved_eq hw, hsplit]
    by_cases hroot : w.parent_wave = 0
    · -- nobody came by a code of no wave
      have hnone : (db.codes w.id).filter (·.invite_owner_pid ≠ none) = [] := by
        refine filter_eq_nil_iff.2 fun i hi hne => ?_
        obtain ⟨pid, hpid⟩ := Option.ne_none_iff_exists'.1 (by simpa using hne)
        obtain ⟨parent, hparent, hnumber, -⟩ := h.member w hw i hi pid hpid
        exact (find?_wave (h.numbers _) hparent).1 (hnumber.trans hroot)
      rw [hnone, hroot, capacity]
      simp only [Wave.free, hroot, if_true] at hfree ⊢
      simp only [length_nil]
      omega
    · have howned : ((db.codes w.id).filter (·.invite_owner_pid ≠ none)).length ≤
          capacity (db.wavesOf w.zid) w.parent_wave * w.invites_per_user := by
        by_cases hex : ∃ parent ∈ db.wavesOf w.zid, parent.wave = w.parent_wave
        · obtain ⟨parent, hparent, hnumber⟩ := hex
          obtain ⟨hmem, hzid⟩ := mem_wavesOf.1 hparent
          have hle := ih parent.wave (hnumber ▸ h.parent w hw) hmem rfl
          -- the members that came by codes of the parent
          let pids := ((db.codes parent.id).filterMap (·.invite_used_by_pid)).dedup
          have hkeys : (pids.map some).Nodup := (nodup_dedup _).map (Option.some_injective _)
          have hlen : pids.length ≤ (db.codes parent.id).length :=
            (dedup_sublist _).length_le.trans (length_filterMap_le ..)
          have hcover : ∀ i ∈ (db.codes w.id).filter (·.invite_owner_pid ≠ none),
              i.invite_owner_pid ∈ pids.map some := by
            intro i hi
            obtain ⟨hi, hne⟩ := mem_filter.1 hi
            obtain ⟨pid, hpid⟩ := Option.ne_none_iff_exists'.1 (by simpa using hne)
            obtain ⟨parent', hparent', hnumber', j, hj, hused⟩ := h.member w hw i hi pid hpid
            obtain rfl : parent' = parent :=
              inj_on_of_nodup_map ((h.numbers w.zid) ▸ nodup_range' ..) hparent' hparent
                (hnumber'.trans hnumber.symm)
            rw [hpid]
            exact mem_map_of_mem (mem_dedup.2 (mem_filterMap.2 ⟨j, hj, hused⟩))
          have hbound := length_le_of_fibers Invite.invite_owner_pid hkeys hcover (fun _ => w.invites_per_user)
            fun k hk => by
              obtain ⟨pid, -, rfl⟩ := mem_map.1 hk
              refine le_trans (List.Sublist.length_le ?_) (h.allowance w hw pid)
              rw [codes, filter_filter, filter_filter]
              exact monotone_filter_right _ fun i hi => by simp_all
          calc ((db.codes w.id).filter (·.invite_owner_pid ≠ none)).length
              ≤ pids.length * w.invites_per_user := by
                simpa [comp_def, map_const', sum_replicate_nat] using hbound
            _ ≤ db.reserved parent * w.invites_per_user := mul_le_mul_right _ (hlen.trans hle)
            _ = capacity (db.wavesOf w.zid) w.parent_wave * w.invites_per_user := by
              rw [reserved, hzid, hnumber]
        · -- without the parent nobody did
          refine le_trans (le_of_eq (length_eq_zero_iff.2 ?_)) (zero_le _)
          refine filter_eq_nil_iff.2 fun i hi hne => ?_
          obtain ⟨pid, hpid⟩ := Option.ne_none_iff_exists'.1 (by simpa using hne)
          obtain ⟨parent, hparent, hnumber, -⟩ := h.member w hw i hi pid hpid
          exact hex ⟨parent, hparent, hnumber⟩
      have hwfree : w.free = w.owner_invites := by rw [Wave.free, if_neg hroot, Nat.add_zero]
      omega

private theorem sum_map_le {α : Type*} {l : List α} {f g : α → ℕ} (h : ∀ a ∈ l, f a ≤ g a) :
    (l.map f).sum ≤ (l.map g).sum := by
  induction l with
  | nil => exact le_refl _
  | cons a l ih =>
    rw [map_cons, map_cons, sum_cons, sum_cons]
    exact Nat.add_le_add (h a mem_cons_self) (ih fun a ha => h a (mem_cons_of_mem _ ha))

/-- The codes of some conversations are within the reservations of their waves. -/
theorem Legal.codes_of_le (h : Legal db) (p : ℤ → Bool) :
    (db.invites.filter fun i => p i.zid).length ≤ ((db.waves.filter fun w => p w.zid).map db.reserved).sum := by
  have hkeys : ((db.waves.filter fun w => p w.zid).map (·.id)).Nodup := h.ids.sublist (filter_sublist.map _)
  have hcover : ∀ i ∈ db.invites.filter (fun i => p i.zid),
      i.wave_id ∈ (db.waves.filter fun w => p w.zid).map (·.id) := by
    intro i hi
    obtain ⟨hmem, hp⟩ := mem_filter.1 hi
    obtain ⟨w, hw, hid, hzid⟩ := h.wave i hmem
    rw [← hid]
    exact mem_map_of_mem (mem_filter.2 ⟨hw, hzid ▸ hp⟩)
  have hle := length_le_of_fibers Invite.wave_id hkeys hcover (fun k => (db.codes k).length) fun k _ => by
    refine List.Sublist.length_le ?_
    rw [codes, filter_filter]
    exact monotone_filter_right _ fun i hi => by simp_all
  rw [map_map] at hle
  exact hle.trans (sum_map_le fun w hw => h.codes_le (mem_filter.1 hw).1)

/-! ## The quota is at least the reservations -/

theorem u128_add_le {a b c d : ℕ} (h : u128 a ≤ c) (h' : u128 b ≤ d) : u128 (a + b) ≤ u128 (c + d) := by
  simp only [u128] at h h' ⊢
  omega

theorem u128_le_reservation {a c : ℕ} (per owner : ℕ) (h : u128 a ≤ c) :
    u128 (a * per + owner) ≤ reservation c per owner := by
  rcases Nat.eq_zero_or_pos per with rfl | hper
  · simp only [u128, reservation, Nat.mul_zero]
    omega
  · rcases lt_or_ge c (2 ^ 128 - 1) with hc | hc
    · have hac : a ≤ c := by
        simp only [u128] at h
        omega
      have hmul := mul_le_mul_right per hac
      simp only [u128, reservation]
      omega
    · -- the product is the largest number
      have hmul : c ≤ c * per := Nat.le_mul_of_pos_right c hper
      simp only [u128, reservation]
      omega

/-- What the rows so far come to. -/
structure Quota.Covers (db : Tables) (zid : ℤ) (l : List Wave) (q : Quota) : Prop where
  potential : ∀ z n c, q.potential z n = some c → u128 (capacity (db.wavesOf z) n) ≤ c
  conversation : u128 ((l.filter (·.zid = zid)).map db.reserved).sum ≤ q.conversation
  owned : u128 (l.map db.reserved).sum ≤ q.owned

theorem Quota.Covers.parentCapacity {l : List Wave} {q : Quota} (hq : q.Covers db zid l) {z : ℤ} {n c : ℕ}
    (hc : q.parentCapacity z n = some c) : u128 (capacity (db.wavesOf z) n) ≤ c := by
  unfold Quota.parentCapacity at hc
  split at hc
  · next h0 =>
    cases hc
    rw [h0, capacity, if_pos rfl]
    decide
  · exact hq.potential _ _ _ hc

theorem Quota.Covers.add (h : Legal db) {l : List Wave} {q q' : Quota} (hq : q.Covers db zid l)
    (hw : w ∈ db.waves) (hadd : q.add db zid w = some q') : q'.Covers db zid (l ++ [w]) := by
  obtain ⟨parent, hparent, rfl⟩ := Option.map_eq_some_iff.1 hadd
  have hcap := hq.parentCapacity hparent
  have hnew : u128 (db.reserved w) ≤
      max (reservation parent w.invites_per_user w.owner_invites) (db.codes w.id).length := by
    rw [h.reserved_eq hw]
    exact (u128_le_reservation _ _ hcap).trans (le_max_left ..)
  refine ⟨fun z n c hc => ?_, ?_, ?_⟩
  · dsimp only at hc
    rcases eq_or_ne z w.zid with rfl | hz
    · rw [update_self] at hc
      rcases eq_or_ne n w.wave with rfl | hn
      · rw [update_self] at hc
        cases hc
        exact hnew
      · rw [update_of_ne hn] at hc
        exact hq.potential _ _ _ hc
    · rw [update_of_ne hz] at hc
      exact hq.potential _ _ _ hc
  · rw [filter_append, map_append, List.sum_append]
    by_cases hz : w.zid = zid
    · simp only [hz, if_true, filter_cons, decide_true, filter_nil, map_cons, map_nil,
        sum_cons, sum_nil, Nat.add_zero]
      exact u128_add_le hq.conversation hnew
    · simp only [hz, if_false, filter_cons, decide_false, filter_nil]
      exact hq.conversation
  · rw [map_append, List.sum_append]
    exact u128_add_le hq.owned (by simpa using hnew)

/-- The quota of an owner is at least the reservations. -/
theorem quota_covers (h : Legal db) {q : Quota} (hq : quota db zid owner = some q) :
    (∀ z n c, q.parentCapacity z n = some c → u128 (capacity (db.wavesOf z) n) ≤ c) ∧
      (db.owner zid = some owner → u128 (db.reservedIn zid) ≤ q.conversation) ∧
      u128 (db.reservedBy owner) ≤ q.owned := by
  have hfold : ∀ {l done : List Wave} {q₀ : Quota}, (∀ w ∈ l, w ∈ db.waves) → q₀.Covers db zid done →
      l.foldlM (Quota.add db zid) q₀ = some q → q.Covers db zid (done ++ l) := by
    intro l
    induction l with
    | nil =>
      intro done q₀ _ hq₀ heq
      cases heq
      rwa [append_nil]
    | cons w l ih =>
      intro done q₀ hmem hq₀ heq
      obtain ⟨q₁, hadd, heq⟩ := Option.bind_eq_some_iff.1 heq
      have hq₁ := hq₀.add h (hmem w mem_cons_self) hadd
      have := ih (fun w hw => hmem w (mem_cons_of_mem _ hw)) hq₁ heq
      rwa [append_assoc] at this
  have hperm := perm_insertionSort before (db.ownedBy owner)
  have hempty : Quota.Covers db zid [] ⟨fun _ _ => none, 0, 0⟩ :=
    ⟨fun _ _ _ => nofun, zero_le _, zero_le _⟩
  have hcovers := hfold (fun w hw => (mem_ownedBy.1 (hperm.mem_iff.1 hw)).1) hempty hq
  rw [nil_append] at hcovers
  refine ⟨fun z n c => hcovers.parentCapacity, fun hown => ?_, ?_⟩
  · have hsame : (db.ownedBy owner).filter (·.zid = zid) = db.wavesOf zid := by
      rw [ownedBy, wavesOf, filter_filter]
      refine filter_congr fun w _ => ?_
      by_cases hz : w.zid = zid
      · simp [hz, hown]
      · simp [hz]
    have hsum := ((hperm.filter (·.zid = zid)).map db.reserved).sum_nat
    rw [reservedIn, ← hsame, ← hsum]
    exact hcovers.conversation
  · rw [reservedBy, ← (hperm.map db.reserved).sum_nat]
    exact hcovers.owned

/-- The number of a new wave. -/
theorem number_spec (h : Legal db) {f : Fields} {wave : ℕ} {parent : ℤ} (hn : number db zid f = .ok (wave, parent)) :
    wave = (db.wavesOf zid).length + 1 := by
  have hmax : ((db.wavesOf zid).map (·.wave)).max?.getD 0 = (db.wavesOf zid).length := by
    rw [h.numbers zid]
    cases (db.wavesOf zid).length with
    | zero => rfl
    | succ n =>
      have hmax : (List.range' 1 (n + 1)).max? = some (n + 1) :=
        max?_eq_some_iff.2 ⟨by simp, fun b hb => by simp at hb; omega⟩
      rw [hmax]
      rfl
  simp only [number, hmax] at hn
  split at hn
  · cases hn
  · split at hn
    · cases hn
    · cases hn
      rfl

/-- The parent is a wave of the conversation, and the members came by its codes. -/
theorem parentOf_spec {f : Fields} {parent : ℤ} {size : ℕ} {members : List (ℕ × ℤ)}
    (hp : parentOf db zid parent f = .ok (size, members)) :
    (0 < parent → ∃ w ∈ db.wavesOf zid, (w.wave : ℤ) = parent) ∧
      ∀ m ∈ members, ∃ w ∈ db.wavesOf zid, (w.wave : ℤ) = parent ∧
        ∃ i ∈ db.codes w.id, i.invite_used_by_pid = some m.2 := by
  unfold parentOf at hp
  split at hp
  · next hle =>
    cases hp
    exact ⟨fun hlt => absurd hle (Int.not_le.2 hlt), nofun⟩
  · split at hp
    · cases hp
    · next w hw =>
      obtain ⟨hzid, hwave⟩ : w.zid = zid ∧ (w.wave : ℤ) = parent := by simpa using find?_some hw
      have hmem : w ∈ db.wavesOf zid := mem_wavesOf.2 ⟨mem_of_find?_eq_some hw, hzid⟩
      cases hp
      refine ⟨fun _ => ⟨w, hmem, hwave⟩, fun m hm => ⟨w, hmem, hwave, ?_⟩⟩
      split at hm
      · cases hm
      · obtain ⟨i, hi, hused⟩ := mem_filterMap.1 hm
        obtain ⟨pid, hpid, rfl⟩ := Option.map_eq_some_iff.1 hused
        exact ⟨i, hi, hpid⟩

/-- With the new wave the reservations are within the caps. -/
theorem plan_spec (h : Legal db) (howner : db.owner zid = some owner) {f : Fields} {parent : ℤ} {size : ℕ} {p : Plan}
    (hp : plan caps db zid owner parent size f = .ok p) :
    0 ≤ parent ∧ p.parent_wave = parent.toNat ∧ p.size = size * p.invites_per_user + p.owner_invites ∧
      p.size ≤ 2147483647 ∧
      db.reservedIn zid + (capacity (db.wavesOf zid) p.parent_wave * p.invites_per_user + p.owner_invites) ≤
        caps.conversation ∧
      db.reservedBy owner + (capacity (db.wavesOf zid) p.parent_wave * p.invites_per_user + p.owner_invites) ≤
        caps.owner := by
  unfold plan at hp
  split at hp
  · next per ownerInvites _ _ =>
    split at hp
    · cases hp
    · next hneg =>
      dsimp only at hp
      split at hp
      · cases hp
      · next q hq =>
        obtain ⟨hpotential, hconversation, howned⟩ := quota_covers h hq
        split at hp
        · cases hp
        · next c hc =>
          have hcap := u128_le_reservation per.toNat ownerInvites.toNat (hpotential _ _ _ hc)
          split at hp
          · cases hp
          · next hconv =>
            split at hp
            · cases hp
            · next hown =>
              split at hp
              · cases hp
              · next hsize =>
                cases hp
                have hlt := caps.conversation_lt
                have hlt' := caps.owner_lt
                have hconv' := u128_add_le (hconversation howner) hcap
                have hown' := u128_add_le howned hcap
                refine ⟨by omega, rfl, rfl, Nat.le_of_not_lt hsize, ?_, ?_⟩
                · simp only [u128] at hconv hconv' ⊢
                  omega
                · simp only [u128] at hown hown' ⊢
                  omega
  · cases hp

/-! ## Rows that are added -/

/-- The codes among some that a member has of a wave. -/
def heldIn (l : List Invite) (wave : ℕ) (pid : ℤ) : List Invite :=
  l.filter fun i => i.wave_id = wave ∧ i.invite_owner_pid = some pid

/-- The codes among some that are for nobody, of a wave. -/
def freeIn (l : List Invite) (wave : ℕ) : List Invite :=
  l.filter fun i => i.wave_id = wave ∧ i.invite_owner_pid = none

theorem Legal.freeIn_le (h : Legal db) (hw : w ∈ db.waves) : (freeIn db.invites w.id).length ≤ w.free := by
  have hle := h.free w hw
  rw [codes, filter_filter] at hle
  simpa [freeIn, Bool.and_comm] using hle

theorem Legal.addInvites (h : Legal db) {l : List Invite}
    (hwave : ∀ i ∈ l, ∃ w ∈ db.waves, w.id = i.wave_id ∧ w.zid = i.zid)
    (hunused : ∀ i ∈ l, i.invite_used_by_pid = none)
    (hmember : ∀ i ∈ l, ∀ pid, i.invite_owner_pid = some pid → ∃ w ∈ db.waves, w.id = i.wave_id ∧ db.Promised w pid)
    (hallowance : ∀ w ∈ db.waves, ∀ pid,
      (db.held w.id pid).length + (heldIn l w.id pid).length ≤ w.invites_per_user)
    (hfree : ∀ w ∈ db.waves, (freeIn db.invites w.id).length + (freeIn l w.id).length ≤ w.free) :
    Legal { db with invites := db.invites ++ l } := by
  have hpromised : ∀ {w pid}, db.Promised w pid → ({ db with invites := db.invites ++ l } : Tables).Promised w pid := by
    rintro w pid ⟨parent, hparent, hnumber, i, hi, hused⟩
    obtain ⟨hmem, hid⟩ := mem_codes.1 hi
    exact ⟨parent, hparent, hnumber, i, mem_codes.2 ⟨mem_append_left _ hmem, hid⟩, hused⟩
  refine ⟨h.numbers, h.parent, h.ids, fun i hi => ?_, fun i hi hstatus => ?_, fun w hw i hi pid hpid => ?_,
    fun w hw pid => ?_, fun w hw => ?_⟩
  · exact (mem_append.1 hi).elim (h.wave i) (hwave i)
  · exact (mem_append.1 hi).elim (fun hi => h.unused i hi hstatus) (hunused i)
  · obtain ⟨hmem, hid⟩ := mem_codes.1 hi
    rcases mem_append.1 hmem with hmem | hmem
    · exact hpromised (h.member w hw i (mem_codes.2 ⟨hmem, hid⟩) pid hpid)
    · obtain ⟨v, hv, hvid, hprom⟩ := hmember i hmem pid hpid
      obtain rfl : v = w := inj_on_of_nodup_map h.ids hv hw (hvid.trans hid)
      exact hpromised hprom
  · have hle := hallowance w hw pid
    rw [← length_append] at hle
    simpa [held, heldIn] using hle
  · have hle := hfree w hw
    rw [← length_append] at hle
    simpa [codes, freeIn, filter_filter, Bool.and_comm] using hle

/-- A wave with the next number leaves the reservations of the others. -/
theorem capacity_append {ws : List Wave} {m : ℕ} (hm : m < w.wave) :
    capacity (ws ++ [w]) m = capacity ws m := by
  induction m using Nat.strong_induction_on with
  | _ m ih =>
    rw [capacity, capacity]
    rcases Nat.eq_zero_or_pos m with rfl | hpos
    · rfl
    · have hfind : (ws ++ [w]).find? (·.wave = m) = ws.find? (·.wave = m) := by
        have hne : ¬w.wave = m := (Nat.ne_of_lt hm).symm
        simp [find?_append, hne]
      rw [hfind]
      cases hv : ws.find? (·.wave = m) with
      | none => rfl
      | some v =>
        simp only
        by_cases hlt : v.parent_wave < m
        · rw [ih v.parent_wave hlt (hlt.trans hm)]
        · rw [if_neg hlt, if_neg hlt]

/-- The tables with one more wave. -/
def Tables.addWave (db : Tables) (w : Wave) : Tables := { db with waves := db.waves ++ [w] }

section AddWave

variable {w : Wave}

theorem wavesOf_addWave : (db.addWave w).wavesOf zid = db.wavesOf zid ++ if w.zid = zid then [w] else [] := by
  by_cases hz : w.zid = zid
  · simp [Tables.addWave, wavesOf, hz]
  · simp [Tables.addWave, wavesOf, hz]

theorem Legal.codes_fresh (h : Legal db) (hid : ∀ v ∈ db.waves, v.id ≠ w.id) : ∀ i ∈ db.invites, i.wave_id ≠ w.id := by
  intro i hi heq
  obtain ⟨v, hv, hvid, -⟩ := h.wave i hi
  exact hid v hv (hvid.trans heq)

theorem Legal.addWave (h : Legal db) (hnumber : w.wave = (db.wavesOf w.zid).length + 1) (hparent : w.parent_wave < w.wave)
    (hid : ∀ v ∈ db.waves, v.id ≠ w.id) : Legal (db.addWave w) := by
  have hfresh := h.codes_fresh hid
  have hpromised : ∀ {v pid}, db.Promised v pid → (db.addWave w).Promised v pid := by
    rintro v pid ⟨parent, hp, hrest⟩
    exact ⟨parent, wavesOf_addWave ▸ mem_append_left _ hp, hrest⟩
  -- nothing is issued yet
  have hnone : ∀ i ∈ db.codes w.id, False := fun i hi => hfresh i (mem_codes.1 hi).1 (mem_codes.1 hi).2
  have hheld : ∀ pid, (db.held w.id pid).length = 0 := by
    intro pid
    refine length_eq_zero_iff.2 (filter_eq_nil_iff.2 fun i hi heq => hfresh i hi ?_)
    exact (of_decide_eq_true heq).1
  have hcases : ∀ v ∈ (db.addWave w).waves, v ∈ db.waves ∨ v = w := fun v hv => by
    simpa [Tables.addWave] using hv
  refine ⟨fun zid => ?_, fun v hv => ?_, ?_, fun i hi => ?_, h.unused, fun v hv i hi pid hpid => ?_,
    fun v hv pid => ?_, fun v hv => ?_⟩
  · rw [wavesOf_addWave]
    by_cases hz : w.zid = zid
    · subst hz
      rw [if_pos rfl, map_append, h.numbers, length_append, length_singleton, range'_concat,
        map_singleton, hnumber, Nat.one_mul, Nat.add_comm]
    · rw [if_neg hz, append_nil]
      exact h.numbers zid
  · rcases hcases v hv with hv | rfl
    · exact h.parent v hv
    · exact hparent
  · rw [Tables.addWave, map_append, nodup_append]
    refine ⟨h.ids, nodup_singleton _, fun a ha b hb => ?_⟩
    obtain ⟨v, hv, rfl⟩ := mem_map.1 ha
    rw [map_singleton, mem_singleton] at hb
    subst hb
    exact hid v hv
  · obtain ⟨v, hv, hrest⟩ := h.wave i hi
    exact ⟨v, mem_append_left _ hv, hrest⟩
  · rcases hcases v hv with hv | rfl
    · exact hpromised (h.member v hv i hi pid hpid)
    · exact (hnone i hi).elim
  · rcases hcases v hv with hv | rfl
    · exact h.allowance v hv pid
    · exact (hheld pid).symm ▸ zero_le _
  · rcases hcases v hv with hv | rfl
    · exact h.free v hv
    · have hempty : (db.codes v.id).filter (·.invite_owner_pid = none) = [] :=
        filter_eq_nil_iff.2 fun i hi _ => hnone i hi
      exact (congrArg List.length hempty).symm ▸ zero_le _

/-- The reservation of the new wave. -/
def Tables.newCapacity (db : Tables) (w : Wave) : ℕ :=
  capacity (db.wavesOf w.zid) w.parent_wave * w.invites_per_user + w.owner_invites

theorem Legal.reserved_addWave (h : Legal db) (hnumber : w.wave = (db.wavesOf w.zid).length + 1)
    (hparent : w.parent_wave < w.wave) (hid : ∀ v ∈ db.waves, v.id ≠ w.id) :
    (∀ v ∈ db.waves, (db.addWave w).reserved v = db.reserved v) ∧ (db.addWave w).reserved w = db.newCapacity w := by
  refine ⟨fun v hv => ?_, ?_⟩
  · rw [reserved, reserved, wavesOf_addWave]
    by_cases hz : w.zid = v.zid
    · rw [if_pos hz]
      refine capacity_append ?_
      have hmem : v.wave ∈ (db.wavesOf v.zid).map (·.wave) := mem_map_of_mem (mem_wavesOf.2 ⟨hv, rfl⟩)
      rw [h.numbers, mem_range'_1] at hmem
      rw [hnumber, hz]
      omega
    · rw [if_neg hz, append_nil]
  · rw [(h.addWave hnumber hparent hid).reserved_eq (mem_append_right _ (mem_singleton_self w)),
      wavesOf_addWave, if_pos rfl, capacity_append hparent, newCapacity]

/-- A wave whose reservation fits keeps the caps. -/
theorem Capped.addWave (hc : Capped caps db) (h : Legal db) (hnumber : w.wave = (db.wavesOf w.zid).length + 1)
    (hparent : w.parent_wave < w.wave) (hid : ∀ v ∈ db.waves, v.id ≠ w.id)
    (hconversation : db.reservedIn w.zid + db.newCapacity w ≤ caps.conversation)
    (howner : ∀ o, db.owner w.zid = some o → db.reservedBy o + db.newCapacity w ≤ caps.owner) :
    Capped caps (db.addWave w) := by
  obtain ⟨hold, hnew⟩ := h.reserved_addWave hnumber hparent hid
  have hsame : ∀ {l : List Wave}, (∀ v ∈ l, v ∈ db.waves) → l.map (db.addWave w).reserved = l.map db.reserved :=
    fun hl => map_congr_left fun v hv => hold v (hl v hv)
  refine ⟨fun zid => ?_, fun o => ?_⟩
  · rw [reservedIn, wavesOf_addWave, map_append, sum_append_nat, hsame fun v hv => (mem_wavesOf.1 hv).1]
    by_cases hz : w.zid = zid
    · subst hz
      rw [if_pos rfl, map_singleton, hnew, sum_singleton]
      exact hconversation
    · rw [if_neg hz]
      exact hc.conversation zid
  · have hsplit : (db.addWave w).ownedBy o = db.ownedBy o ++ if db.owner w.zid = some o then [w] else [] := by
      change (db.waves ++ [w]).filter (fun v => decide (db.owner v.zid = some o)) = _
      rw [filter_append]
      refine congrArg (db.ownedBy o ++ ·) ?_
      by_cases ho : db.owner w.zid = some o
      · simp [ho]
      · simp [ho]
    rw [reservedBy, hsplit, map_append, sum_append_nat, hsame fun v hv => (mem_ownedBy.1 hv).1]
    by_cases ho : db.owner w.zid = some o
    · rw [if_pos ho, map_singleton, hnew, sum_singleton]
      exact howner o ho
    · rw [if_neg ho]
      exact hc.owner o

end AddWave

end Polis.Treevite
