import Polis.Treevite.Issuance
import Polis.Treevite.WavesTheorems

/-!
# No run issues more than was reserved

The invariant of the threads. A creation that has the locks of its owner and its conversation has checked
the caps against waves that no other thread can add to; what a transaction issues to a member, it issues
under the lock of that member and wave, up to what is promised.

Reference: `queue-rs/polis-api/src/post_treevite_waves.rs`, `queue-rs/polis-api/src/treevite_write.rs`.
-/

namespace Polis.Treevite

open List Function Tables Nat

variable {caps : Caps} {s s' : State} {t u : ℕ} {zid : ℤ}
variable {doing : Doing} {purpose : Purpose} {rest : List Job} {rows : Rows} {i : Invite}

/-! ## What holds of a thread -/

/-- The job gives a member of a wave what is promised. -/
def JobOk (db seen : Tables) (zid : ℤ) (j : Job) : Prop :=
  ∃ w ∈ seen.waves, w.id = j.wave ∧ w.zid = zid ∧ w.invites_per_user = j.amount ∧ db.Promised w j.pid

namespace Doing

/-- The job whose codes are issued next. -/
def jobs : Doing → List Job
  | lock j | count j | fill j _ => [j]
  | _ => []

/-- The member whose lock the transaction has for them. -/
def serves : Doing → Option (ℕ × ℤ)
  | count j | fill j _ => some (j.wave, j.pid)
  | _ => none

/-- The codes that are still to be inserted for a member. -/
def left (wave : ℕ) (pid : ℤ) : Doing → ℕ
  | fill j n => if j.wave = wave ∧ j.pid = pid then n else 0
  | _ => 0

/-- The codes that are still to be inserted for nobody. -/
def mints : Doing → ℕ
  | mint n => n
  | _ => 0

end Doing

/-- A transaction that writes. -/
structure Tx (db : Tables) (holder : Lock → Option ℕ) (t : ℕ) (zid : ℤ) (rows : Rows) (doing : Doing) (rest : List Job) : Prop where
  invites : ∀ i ∈ rows.invites, i.zid = zid ∧ i.invite_used_by_pid = none ∧
    ∃ w ∈ (db.withRows rows).waves, w.id = i.wave_id ∧ w.zid = zid
  member : ∀ i ∈ rows.invites, ∀ pid, i.invite_owner_pid = some pid →
    holder (.perUserCodes i.wave_id pid) = some t ∧
      ∃ w ∈ (db.withRows rows).waves, w.id = i.wave_id ∧ db.Promised w pid
  jobs : ∀ j ∈ doing.jobs ++ rest, JobOk db (db.withRows rows) zid j
  serves : ∀ wave pid, doing.serves = some (wave, pid) → holder (.perUserCodes wave pid) = some t
  /-- What is issued under a lock is within the promise. -/
  allowance : ∀ wave pid, holder (.perUserCodes wave pid) = some t →
    ∃ w ∈ (db.withRows rows).waves, w.id = wave ∧
      (db.held wave pid).length + (heldIn rows.invites wave pid).length + doing.left wave pid ≤ w.invites_per_user

/-- A creation that writes. -/
structure Created (caps : Caps) (db : Tables) (holder : Lock → Option ℕ) (nextId t : ℕ) (zid owner : ℤ) (w : Wave)
    (rows : Rows) (doing : Doing) : Prop where
  waves : rows.waves = [w]
  home : w.zid = zid
  belongs : db.owner zid = some owner
  ownerLock : holder (.ownerCodes owner) = some t
  wavesLock : holder (.waves zid) = some t
  number : w.wave = (db.wavesOf zid).length + 1
  parent : w.parent_wave < w.wave
  below : w.id < nextId
  fresh : ∀ v ∈ db.waves, v.id ≠ w.id
  free : ∀ i ∈ rows.invites, i.invite_owner_pid = none → i.wave_id = w.id
  minted : (freeIn rows.invites w.id).length + doing.mints ≤ w.free
  conversation : db.reservedIn zid + db.newCapacity w ≤ caps.conversation
  owned : db.reservedBy owner + db.newCapacity w ≤ caps.owner

/-- What is to be topped up was promised. -/
structure TopUpOk (db : Tables) (work : TopUp) : Prop where
  jobs : ∀ j ∈ work.jobs, JobOk db db work.zid j
  parents : ∀ p ∈ work.parents, ∃ i ∈ db.invites, i.wave_id = p.2 ∧ i.zid = work.zid ∧
    i.invite_used_by_pid = some work.pid

def PurposeOk (caps : Caps) (s : State) (t : ℕ) (zid : ℤ) (rows : Rows) (doing : Doing) : Purpose → Prop
  | .create owner w _ => Created caps s.db s.holder s.nextWave t zid owner w rows doing
  | .fill then' => rows.waves = [] ∧ (∀ i ∈ rows.invites, i.invite_owner_pid ≠ none) ∧ TopUpOk s.db then'

/-- What a creation knows before it writes. -/
def StageOk (s : State) (t : ℕ) (zid : ℤ) : Stage → Prop
  | .authorized => True
  | .owned owner => s.db.owner zid = some owner
  | .ownerLocked owner => s.db.owner zid = some owner ∧ s.holder (.ownerCodes owner) = some t
  | .locked owner => s.db.owner zid = some owner ∧ s.holder (.ownerCodes owner) = some t ∧
      s.holder (.waves zid) = some t
  | .numbered owner wave _ => s.db.owner zid = some owner ∧ s.holder (.ownerCodes owner) = some t ∧
      s.holder (.waves zid) = some t ∧ wave = (s.db.wavesOf zid).length + 1
  | .parented owner wave parent _ members => s.db.owner zid = some owner ∧ s.holder (.ownerCodes owner) = some t ∧
      s.holder (.waves zid) = some t ∧ wave = (s.db.wavesOf zid).length + 1 ∧
      (0 < parent → ∃ w ∈ s.db.wavesOf zid, (w.wave : ℤ) = parent) ∧
      ∀ m ∈ members, ∃ w ∈ s.db.wavesOf zid, (w.wave : ℤ) = parent ∧
        ∃ i ∈ s.db.codes w.id, i.invite_used_by_pid = some m.2

def ThreadOk (caps : Caps) (s : State) (t : ℕ) : Thread → Prop
  | .creating zid _ stage => StageOk s t zid stage
  | .writing zid purpose rows doing rest =>
    Tx s.db s.holder t zid rows doing rest ∧ PurposeOk caps s t zid rows doing purpose
  | .toppingUp work => TopUpOk s.db work
  | _ => True

namespace Thread

/-- The wave that the thread has inserted and not committed. -/
def newWaves : Thread → List Wave
  | writing _ _ rows _ _ => rows.waves
  | _ => []

def Writes : Thread → Prop
  | writing _ _ _ _ _ => True
  | _ => False

end Thread

structure Inv (caps : Caps) (s : State) : Prop where
  legal : Legal s.db
  capped : Capped caps s.db
  threads : ∀ t, ThreadOk caps s t (s.threads t)
  /-- Locks of members are held by transactions. -/
  locks : ∀ t wave pid, s.holder (.perUserCodes wave pid) = some t → (s.threads t).Writes
  distinct : ∀ t u w v, w ∈ (s.threads t).newWaves → v ∈ (s.threads u).newWaves → w.id = v.id → t = u
  below : ∀ w ∈ s.db.waves, w.id < s.nextWave

/-! ## What other threads leave alone -/

/-- Waves stay, and a code that was used stays used by its member. -/
structure Grows (db db' : Tables) : Prop where
  waves : ∀ w ∈ db.waves, w ∈ db'.waves
  used : ∀ i ∈ db.invites, ∀ pid, i.invite_used_by_pid = some pid →
    ∃ j ∈ db'.invites, j.wave_id = i.wave_id ∧ j.zid = i.zid ∧ j.invite_used_by_pid = some pid

namespace Grows

variable {db db' : Tables} (h : Grows db db')
include h

theorem used_code {wave : ℕ} {pid : ℤ} (hc : ∃ i ∈ db.codes wave, i.invite_used_by_pid = some pid) :
    ∃ i ∈ db'.codes wave, i.invite_used_by_pid = some pid := by
  obtain ⟨i, hi, hused⟩ := hc
  obtain ⟨hmem, hid⟩ := mem_codes.1 hi
  obtain ⟨j, hj, hjw, -, hjused⟩ := h.used i hmem pid hused
  exact ⟨j, mem_codes.2 ⟨hj, hjw.trans hid⟩, hjused⟩

theorem promised {w : Wave} {pid : ℤ} (hp : db.Promised w pid) : db'.Promised w pid := by
  obtain ⟨parent, hparent, hnumber, hcode⟩ := hp
  obtain ⟨hmem, hz⟩ := mem_wavesOf.1 hparent
  exact ⟨parent, mem_wavesOf.2 ⟨h.waves _ hmem, hz⟩, hnumber, h.used_code hcode⟩

theorem topUpOk {work : TopUp} (hw : TopUpOk db work) : TopUpOk db' work := by
  refine ⟨fun j hj => ?_, fun p hp => ?_⟩
  · obtain ⟨w, hw, hid, hz, hamount, hprom⟩ := hw.jobs j hj
    exact ⟨w, h.waves w hw, hid, hz, hamount, h.promised hprom⟩
  · obtain ⟨i, hi, hwave, hz, hused⟩ := hw.parents p hp
    obtain ⟨j, hj, hjw, hjz, hjused⟩ := h.used i hi _ hused
    exact ⟨j, hj, hjw.trans hwave, hjz.trans hz, hjused⟩

end Grows

/-- What a step of another thread does not change for a thread. -/
structure Frame (u : ℕ) (s s' : State) : Prop where
  owner : s'.db.owner = s.db.owner
  nextWave : s.nextWave ≤ s'.nextWave
  holder : ∀ l, s'.holder l = some u ↔ s.holder l = some u
  grows : Grows s.db s'.db
  held : ∀ wave pid, s.holder (.perUserCodes wave pid) = some u →
    (s'.db.held wave pid).length = (s.db.held wave pid).length
  owned : ∀ o, s.holder (.ownerCodes o) = some u → s'.db.ownedBy o = s.db.ownedBy o
  wavesOf : ∀ z, s.holder (.waves z) = some u → s'.db.wavesOf z = s.db.wavesOf z
  fresh : ∀ v ∈ s'.db.waves, v ∈ s.db.waves ∨ ∀ w ∈ (s.threads u).newWaves, v.id ≠ w.id

namespace Frame

variable (h : Frame u s s')
include h

theorem seen {w : Wave} (hw : w ∈ (s.db.withRows rows).waves) : w ∈ (s'.db.withRows rows).waves :=
  mem_append.2 ((mem_append.1 hw).imp_left (h.grows.waves w))

theorem jobOk {j : Job} (hj : JobOk s.db (s.db.withRows rows) zid j) :
    JobOk s'.db (s'.db.withRows rows) zid j := by
  obtain ⟨w, hw, hid, hz, hamount, hp⟩ := hj
  exact ⟨w, h.seen hw, hid, hz, hamount, h.grows.promised hp⟩

theorem tx (hx : Tx s.db s.holder u zid rows doing rest) :
    Tx s'.db s'.holder u zid rows doing rest := by
  refine ⟨fun i hi => ?_, fun i hi pid hpid => ?_, fun j hj => h.jobOk (hx.jobs j hj),
    fun wave pid hs => (h.holder _).2 (hx.serves wave pid hs), fun wave pid hl => ?_⟩
  · obtain ⟨hz, hused, w, hw, hrest⟩ := hx.invites i hi
    exact ⟨hz, hused, w, h.seen hw, hrest⟩
  · obtain ⟨hl, w, hw, hid, hp⟩ := hx.member i hi pid hpid
    exact ⟨(h.holder _).2 hl, w, h.seen hw, hid, h.grows.promised hp⟩
  · have hl' := (h.holder _).1 hl
    obtain ⟨w, hw, hid, hle⟩ := hx.allowance wave pid hl'
    exact ⟨w, h.seen hw, hid, by rwa [h.held wave pid hl']⟩

/-- The reservations of an owner whose lock the thread has. -/
theorem reservedBy {o : ℤ} (hl : s.holder (.ownerCodes o) = some u) : s'.db.reservedBy o = s.db.reservedBy o := by
  have hown := h.owned o hl
  rw [Tables.reservedBy, Tables.reservedBy, hown]
  refine congrArg List.sum (map_congr_left fun w hw => ?_)
  have hz := (mem_ownedBy.1 hw).2
  -- the waves of the conversation are among those of its owner
  have hsub : ∀ db : Tables, db.owner = s.db.owner → db.wavesOf w.zid = (db.ownedBy o).filter (·.zid = w.zid) := by
    intro db hdb
    rw [Tables.wavesOf, ownedBy, filter_filter]
    refine filter_congr fun v _ => ?_
    by_cases hv : v.zid = w.zid
    · simp [hv, hdb, hz]
    · simp [hv]
  rw [reserved, reserved, hsub s'.db h.owner, hsub s.db rfl, hown]

theorem created {owner : ℤ} {w : Wave} (hnew : (s.threads u).newWaves = rows.waves)
    (hc : Created caps s.db s.holder s.nextWave u zid owner w rows doing) :
    Created caps s'.db s'.holder s'.nextWave u zid owner w rows doing := by
  have hz := h.wavesOf zid hc.wavesLock
  refine ⟨hc.waves, hc.home, (congrFun h.owner zid).trans hc.belongs, (h.holder _).2 hc.ownerLock, (h.holder _).2 hc.wavesLock,
    hz ▸ hc.number, hc.parent, lt_of_lt_of_le hc.below h.nextWave, fun v hv => ?_, hc.free, hc.minted, ?_, ?_⟩
  · rcases h.fresh v hv with hv | hne
    · exact hc.fresh v hv
    · exact hne w (hnew ▸ hc.waves ▸ mem_singleton_self w)
  · have hin : s'.db.reservedIn zid = s.db.reservedIn zid := by
      rw [reservedIn, reservedIn, hz]
      refine congrArg List.sum (map_congr_left fun v hv => ?_)
      rw [reserved, reserved, (mem_wavesOf.1 hv).2, hz]
    have hcap : s'.db.newCapacity w = s.db.newCapacity w := by
      rw [newCapacity, newCapacity, hc.home, hz]
    rw [hin, hcap]
    exact hc.conversation
  · have hcap : s'.db.newCapacity w = s.db.newCapacity w := by
      rw [newCapacity, newCapacity, hc.home, hz]
    rw [h.reservedBy hc.ownerLock, hcap]
    exact hc.owned

theorem stageOk {stage : Stage} (hs : StageOk s u zid stage) : StageOk s' u zid stage := by
  match stage, hs with
  | .authorized, _ => trivial
  | .owned owner, ho => exact (congrFun h.owner zid).trans ho
  | .ownerLocked owner, ⟨ho, hl⟩ => exact ⟨(congrFun h.owner zid).trans ho, (h.holder _).2 hl⟩
  | .locked owner, ⟨ho, hl, hl'⟩ => exact ⟨(congrFun h.owner zid).trans ho, (h.holder _).2 hl, (h.holder _).2 hl'⟩
  | .numbered owner wave _, ⟨ho, hl, hl', hn⟩ =>
    exact ⟨(congrFun h.owner zid).trans ho, (h.holder _).2 hl, (h.holder _).2 hl', h.wavesOf zid hl' ▸ hn⟩
  | .parented owner wave parent _ members, ⟨ho, hl, hl', hn, hp, hm⟩ =>
    have hz := h.wavesOf zid hl'
    refine ⟨(congrFun h.owner zid).trans ho, (h.holder _).2 hl, (h.holder _).2 hl', hz ▸ hn, hz ▸ hp, fun m hmem => ?_⟩
    obtain ⟨w, hw, hwave, hcode⟩ := hm m hmem
    exact ⟨w, hz ▸ hw, hwave, h.grows.used_code hcode⟩

theorem threadOk (ht : ThreadOk caps s u (s.threads u)) : ThreadOk caps s' u (s.threads u) := by
  cases hth : s.threads u with
  | creating zid f stage =>
    rw [hth] at ht
    exact h.stageOk ht
  | writing zid purpose rows doing rest =>
    rw [hth] at ht
    refine ⟨h.tx ht.1, ?_⟩
    cases purpose with
    | create owner w reconciled => exact h.created (by rw [hth]; rfl) ht.2
    | fill then' => exact ⟨ht.2.1, ht.2.2.1, h.grows.topUpOk ht.2.2.2⟩
  | toppingUp work =>
    rw [hth] at ht
    exact h.grows.topUpOk ht
  | _ => trivial

end Frame

/-- One thread goes on, and the others keep what they have. -/
theorem Inv.change (h : Inv caps s) (hlegal : Legal s'.db) (hcapped : Capped caps s'.db)
    (hothers : ∀ u, u ≠ t → s'.threads u = s.threads u ∧ Frame u s s') (hnew : ThreadOk caps s' t (s'.threads t))
    (hlocks : ∀ wave pid, s'.holder (.perUserCodes wave pid) = some t → (s'.threads t).Writes)
    (hwaves : ∀ w ∈ (s'.threads t).newWaves, w ∈ (s.threads t).newWaves ∨ w.id = s.nextWave)
    (hbelow : ∀ w ∈ s'.db.waves, w.id < s'.nextWave) : Inv caps s' := by
  -- a pending wave of another thread has a smaller number than the next one
  have hpending : ∀ {u w}, w ∈ (s.threads u).newWaves → w.id < s.nextWave := by
    intro u w hw
    have hu := h.threads u
    cases hth : s.threads u with
    | writing zid purpose rows doing rest =>
      rw [hth] at hw hu
      cases purpose with
      | create owner v reconciled =>
        have hc : Created caps s.db s.holder s.nextWave u zid owner v rows doing := hu.2
        rw [show w = v by simpa [Thread.newWaves, hc.waves] using hw]
        exact hc.below
      | fill then' =>
        rw [Thread.newWaves, hu.2.1] at hw
        cases hw
    | _ =>
      rw [hth] at hw
      cases hw
  have hone : ∀ {u w v}, u ≠ t → w ∈ (s'.threads t).newWaves → v ∈ (s.threads u).newWaves → w.id ≠ v.id := by
    intro u w v hne hw hv heq
    rcases hwaves w hw with hw | hw
    · exact hne (h.distinct t u w v hw hv heq).symm
    · exact lt_irrefl _ (hw ▸ heq ▸ hpending hv)
  refine ⟨hlegal, hcapped, fun u => ?_, fun u wave pid hl => ?_, fun u u' w v hw hv heq => ?_, hbelow⟩
  · rcases eq_or_ne u t with rfl | hne
    · exact hnew
    · obtain ⟨hsame, hframe⟩ := hothers u hne
      rw [hsame]
      exact hframe.threadOk (h.threads u)
  · rcases eq_or_ne u t with rfl | hne
    · exact hlocks wave pid hl
    · obtain ⟨hsame, hframe⟩ := hothers u hne
      rw [hsame]
      exact h.locks u wave pid ((hframe.holder _).1 hl)
  · by_cases hne : u = t <;> by_cases hne' : u' = t
    · rw [hne, hne']
    · rw [(hothers u' hne').1] at hv
      rw [hne] at hw
      exact absurd heq (hone hne' hw hv)
    · rw [(hothers u hne).1] at hw
      rw [hne'] at hv
      exact absurd heq.symm (hone hne hv hw)
    · rw [(hothers u hne).1] at hw
      rw [(hothers u' hne').1] at hv
      exact h.distinct u u' w v hw hv heq

/-! ## Steps that leave the tables -/

/-- A thread goes on without a change of the tables or of the locks of others. -/
theorem Inv.go (h : Inv caps s) (hdb : s'.db = s.db) (hnext : s.nextWave ≤ s'.nextWave)
    (hthreads : ∀ u, u ≠ t → s'.threads u = s.threads u)
    (hholder : ∀ u, u ≠ t → ∀ l, s'.holder l = some u ↔ s.holder l = some u)
    (hnew : ThreadOk caps s' t (s'.threads t))
    (hlocks : ∀ wave pid, s'.holder (.perUserCodes wave pid) = some t → (s'.threads t).Writes)
    (hwaves : ∀ w ∈ (s'.threads t).newWaves, w ∈ (s.threads t).newWaves ∨ w.id = s.nextWave) : Inv caps s' := by
  refine h.change (hdb ▸ h.legal) (hdb ▸ h.capped) (fun u hu => ⟨hthreads u hu, ?_⟩) hnew hlocks hwaves fun w hw => ?_
  · refine ⟨by rw [hdb], hnext, hholder u hu, ⟨fun w hw => hdb ▸ hw, fun i hi pid hused => ?_⟩,
      fun _ _ _ => by rw [hdb], fun _ _ => by rw [hdb], fun _ _ => by rw [hdb], fun v hv => .inl (hdb ▸ hv)⟩
    exact ⟨i, hdb ▸ hi, rfl, rfl, hused⟩
  · exact lt_of_lt_of_le (h.below w (hdb ▸ hw)) hnext

section Moves

variable {thread : Thread}

theorem setThread_self : (s.setThread t thread).threads t = thread := update_self ..

theorem setThread_of_ne (hu : u ≠ t) : (s.setThread t thread).threads u = s.threads u := update_of_ne hu ..

/-- A thread goes on with the locks that it has. -/
theorem Inv.move (h : Inv caps s) (hnew : ThreadOk caps (s.setThread t thread) t thread)
    (hlocks : thread.Writes ∨ ¬(s.threads t).Writes) (hwaves : ∀ w ∈ thread.newWaves, w ∈ (s.threads t).newWaves) :
    Inv caps (s.setThread t thread) := by
  refine h.go rfl (le_refl _) (fun u hu => setThread_of_ne hu) (fun _ _ _ => Iff.rfl) ?_ (fun wave pid hl => ?_)
    fun w hw => .inl (hwaves w ?_)
  · rw [setThread_self]
    exact hnew
  · rw [setThread_self]
    exact hlocks.resolve_right fun hn => hn (h.locks t wave pid hl)
  · rwa [setThread_self] at hw

theorem release_holder {l : Lock} (hu : u ≠ t) : (s.release t).holder l = some u ↔ s.holder l = some u := by
  unfold State.release
  dsimp only
  split
  · next ht =>
    rw [ht]
    exact ⟨nofun, fun heq => absurd (Option.some.inj heq).symm hu⟩
  · exact Iff.rfl

theorem release_self {l : Lock} : (s.release t).holder l ≠ some t := by
  unfold State.release
  dsimp only
  split
  · nofun
  · next ht => exact ht

/-- A thread ends a transaction that is not applied, and goes on outside. -/
theorem Inv.abandon (h : Inv caps s) {s₁ : State} (hdb : s₁.db = s.db) (hnext : s₁.nextWave = s.nextWave)
    (hholder : s₁.holder = (s.release t).holder) (hthreads : s₁.threads = s.threads)
    (hnew : ThreadOk caps (s₁.setThread t thread) t thread) (hwaves : thread.newWaves = []) :
    Inv caps (s₁.setThread t thread) := by
  refine h.go (t := t) hdb (le_of_eq hnext.symm) (fun u hu => ?_) (fun u hu l => ?_) ?_ (fun wave pid hl => ?_)
    fun w hw => ?_
  · rw [setThread_of_ne hu, hthreads]
  · rw [show (s₁.setThread t thread).holder = _ from hholder]
    exact release_holder hu
  · rw [setThread_self]
    exact hnew
  · rw [show (s₁.setThread t thread).holder = _ from hholder] at hl
    exact absurd hl release_self
  · rw [setThread_self, hwaves] at hw
    cases hw

theorem Inv.refuse (h : Inv caps s) (e : ErrorCode) : Inv caps (s.refuse t e) :=
  h.abandon rfl rfl rfl rfl trivial rfl

theorem Inv.ends (h : Inv caps s) : Inv caps ((s.release t).setThread t .ended) := h.abandon rfl rfl rfl rfl trivial rfl

/-- A lock is taken when nobody else has it. -/
theorem take_spec {l : Lock} {s₁ : State} (hs : s.take t l = some s₁) :
    s₁.db = s.db ∧ s₁.nextWave = s.nextWave ∧ s₁.threads = s.threads ∧ s₁.holder l = some t ∧
      (∀ l', s.holder l' = some t → s₁.holder l' = some t) ∧ (∀ l', l' ≠ l → s₁.holder l' = s.holder l') ∧
      ∀ u, u ≠ t → ∀ l', s₁.holder l' = some u ↔ s.holder l' = some u := by
  unfold State.take at hs
  split at hs
  · next hfree =>
    cases hs
    refine ⟨rfl, rfl, rfl, update_self .., fun l' hl' => ?_, fun l' hne => update_of_ne hne ..,
      fun u hu l' => ?_⟩
    · rcases eq_or_ne l' l with rfl | hne
      · exact update_self ..
      · exact (update_of_ne hne ..).trans hl'
    · rcases eq_or_ne l' l with rfl | hne
      · dsimp only
        rw [update_self]
        refine ⟨fun heq => absurd (Option.some.inj heq).symm hu, fun heq => ?_⟩
        rcases hfree with hnone | hself
        · rw [hnone] at heq
          cases heq
        · exact absurd (Option.some.inj (heq.symm.trans hself)) hu
      · dsimp only
        rw [update_of_ne hne]
  · cases hs

end Moves

/-! ## Statements that write -/

section Statements

variable {db : Tables} {holder holder' : Lock → Option ℕ} {doing doing' : Doing} {rest rest' : List Job}
  {job : Job} {owner : ℤ} {w : Wave} {nextId : ℕ}

/-- A transaction turns to other jobs. -/
theorem Tx.turn (h : Tx db holder t zid rows doing rest)
    (hjobs : ∀ j ∈ doing'.jobs ++ rest', JobOk db (db.withRows rows) zid j)
    (hserves : ∀ wave pid, doing'.serves = some (wave, pid) → holder (.perUserCodes wave pid) = some t)
    (hleft : ∀ wave pid, doing'.left wave pid ≤ doing.left wave pid) : Tx db holder t zid rows doing' rest' := by
  refine ⟨h.invites, h.member, hjobs, hserves, fun wave pid hl => ?_⟩
  obtain ⟨w, hw, hid, hle⟩ := h.allowance wave pid hl
  exact ⟨w, hw, hid, (Nat.add_le_add_left (hleft wave pid) _).trans hle⟩

theorem Created.turn (h : Created caps db holder nextId t zid owner w rows doing) (hmints : doing'.mints ≤ doing.mints) :
    Created caps db holder nextId t zid owner w rows doing' :=
  { h with minted := (Nat.add_le_add_left hmints _).trans h.minted }

theorem Purpose.next_spec (purpose : Purpose) (rest : List Job) :
    (purpose.next rest).1.jobs ++ (purpose.next rest).2 = rest ∧ (purpose.next rest).1.serves = none ∧
      (∀ wave pid, (purpose.next rest).1.left wave pid = 0) ∧ (purpose.next rest).1.mints = 0 := by
  cases rest with
  | cons job rest => cases purpose <;> exact ⟨rfl, rfl, fun _ _ => rfl, rfl⟩
  | nil =>
    cases purpose with
    | create owner w reconciled => cases reconciled <;> exact ⟨rfl, rfl, fun _ _ => rfl, rfl⟩
    | fill then' => exact ⟨rfl, rfl, fun _ _ => rfl, rfl⟩

/-- A transaction goes on to the next job. -/
theorem Tx.next (h : Tx db holder t zid rows doing rest) (purpose : Purpose) :
    Tx db holder t zid rows (purpose.next rest).1 (purpose.next rest).2 := by
  obtain ⟨hjobs, hserves, hleft, -⟩ := purpose.next_spec rest
  refine h.turn (fun j hj => ?_) (fun wave pid hs => ?_) fun wave pid => ?_
  · rw [hjobs] at hj
    exact h.jobs j (mem_append_right _ hj)
  · rw [hserves] at hs
    cases hs
  · rw [hleft]
    exact zero_le _

/-- The waves that a transaction sees have different ids. -/
def SeenOnce (db : Tables) (rows : Rows) : Prop :=
  ((db.withRows rows).waves.map (·.id)).Nodup ∧ ∀ w ∈ rows.waves, ∀ v ∈ db.waves, v.id ≠ w.id

theorem Legal.held_le (h : Legal db) (hseen : SeenOnce db rows) (hw : w ∈ (db.withRows rows).waves) (pid : ℤ) :
    (db.held w.id pid).length ≤ w.invites_per_user := by
  rcases mem_append.1 hw with hw | hw
  · exact h.allowance w hw pid
  · -- no code of a new wave is committed
    refine le_trans (le_of_eq (length_eq_zero_iff.2 ?_)) (zero_le _)
    refine filter_eq_nil_iff.2 fun i hi heq => h.codes_fresh (hseen.2 w hw) i hi ?_
    exact (of_decide_eq_true heq).1

/-- The lock of a member is taken for a job. -/
theorem Tx.lock (h : Tx db holder t zid rows (.lock job) rest) (hlegal : Legal db) (hseen : SeenOnce db rows)
    (hnew : holder' (.perUserCodes job.wave job.pid) = some t)
    (hkeep : ∀ l, holder l = some t → holder' l = some t)
    (hsame : ∀ l, l ≠ .perUserCodes job.wave job.pid → holder' l = holder l) :
    Tx db holder' t zid rows (.count job) rest := by
  refine ⟨h.invites, fun i hi pid hpid => (h.member i hi pid hpid).imp_left (hkeep _), h.jobs,
    fun wave pid hs => ?_, fun wave pid hl => ?_⟩
  · cases hs
    exact hnew
  · by_cases hheld : holder (.perUserCodes wave pid) = some t
    · exact h.allowance wave pid hheld
    · -- nothing was written for the member without the lock
      have hkey : Lock.perUserCodes wave pid = .perUserCodes job.wave job.pid := by
        by_contra hne
        exact hheld ((hsame _ hne).symm.trans hl)
      obtain ⟨rfl, rfl⟩ := Lock.perUserCodes.inj hkey
      obtain ⟨w, hw, hid, -⟩ := h.jobs job mem_cons_self
      have hnone : heldIn rows.invites job.wave job.pid = [] := by
        refine filter_eq_nil_iff.2 fun i hi heq => ?_
        obtain ⟨hwave, hpid⟩ := of_decide_eq_true heq
        exact hheld (hwave ▸ (h.member i hi _ hpid).1)
      refine ⟨w, hw, hid, ?_⟩
      rw [hnone, ← hid]
      exact hlegal.held_le hseen hw job.pid

/-- The codes of the member are counted, and what is missing will be issued. -/
theorem Tx.count (h : Tx db holder t zid rows (.count job) rest) (hseen : SeenOnce db rows) :
    Tx db holder t zid rows (.fill job (job.amount - ((db.withRows rows).held job.wave job.pid).length)) rest := by
  refine ⟨h.invites, h.member, h.jobs, h.serves, fun wave pid hl => ?_⟩
  obtain ⟨w, hw, hid, hle⟩ := h.allowance wave pid hl
  refine ⟨w, hw, hid, ?_⟩
  by_cases hkey : job.wave = wave ∧ job.pid = pid
  · obtain ⟨rfl, rfl⟩ := hkey
    obtain ⟨v, hv, hvid, -, hamount, -⟩ := h.jobs job mem_cons_self
    obtain rfl : v = w := inj_on_of_nodup_map hseen.1 hv hw (hvid.trans hid.symm)
    have hlen : ((db.withRows rows).held job.wave job.pid).length =
        (db.held job.wave job.pid).length + (heldIn rows.invites job.wave job.pid).length := by
      rw [held, withRows, filter_append, length_append]
      rfl
    simp only [Doing.left, and_self, if_true, Nat.add_zero] at hle ⊢
    omega
  · simp only [Doing.left, if_neg hkey] at hle ⊢
    exact hle

/-- One more row of a transaction. -/
def Rows.add (rows : Rows) (i : Invite) : Rows := ⟨rows.waves, rows.invites ++ [i]⟩

/-- A code of the member is inserted. -/
theorem Tx.fill {left : ℕ} (h : Tx db holder t zid rows (.fill job (left + 1)) rest) (hz : i.zid = zid)
    (hunused : i.invite_used_by_pid = none) (hwave : i.wave_id = job.wave) (hpid : i.invite_owner_pid = some job.pid) :
    Tx db holder t zid (rows.add i) (.fill job left) rest := by
  obtain ⟨w, hw, hid, hwz, hamount, hprom⟩ := h.jobs job mem_cons_self
  refine ⟨fun j hj => ?_, fun j hj pid hp => ?_, h.jobs, h.serves, fun wave pid hl => ?_⟩
  · rcases mem_append.1 hj with hj | hj
    · exact h.invites j hj
    · obtain rfl := mem_singleton.1 hj
      exact ⟨hz, hunused, w, hw, hid.trans hwave.symm, hwz⟩
  · rcases mem_append.1 hj with hj | hj
    · exact h.member j hj pid hp
    · obtain rfl := mem_singleton.1 hj
      obtain rfl : job.pid = pid := Option.some.inj (hpid.symm.trans hp)
      exact ⟨hwave ▸ h.serves _ _ rfl, w, hw, hid.trans hwave.symm, hprom⟩
  · obtain ⟨v, hv, hvid, hle⟩ := h.allowance wave pid hl
    refine ⟨v, hv, hvid, ?_⟩
    rw [Rows.add, heldIn, filter_append, length_append]
    by_cases hkey : job.wave = wave ∧ job.pid = pid
    · have hone : [i].filter (fun i => i.wave_id = wave ∧ i.invite_owner_pid = some pid) = [i] := by
        simp [hwave, hpid, hkey]
      rw [hone, length_singleton]
      simp only [Doing.left, hkey, and_self, if_true, heldIn] at hle ⊢
      omega
    · have hnone : [i].filter (fun i => i.wave_id = wave ∧ i.invite_owner_pid = some pid) = [] := by
        simpa [hwave, hpid] using hkey
      rw [hnone, length_nil]
      simpa only [Doing.left, if_neg hkey, heldIn, Nat.add_zero] using hle

/-- A code for nobody is inserted. -/
theorem Tx.mint {left : ℕ} (h : Tx db holder t zid rows (.mint (left + 1)) rest) (hz : i.zid = zid)
    (hunused : i.invite_used_by_pid = none) (hpid : i.invite_owner_pid = none)
    (hw : ∃ w ∈ (db.withRows rows).waves, w.id = i.wave_id ∧ w.zid = zid) :
    Tx db holder t zid (rows.add i) (.mint left) rest := by
  refine ⟨fun j hj => ?_, fun j hj pid hp => ?_, h.jobs, nofun, fun wave pid hl => ?_⟩
  · rcases mem_append.1 hj with hj | hj
    · exact h.invites j hj
    · obtain rfl := mem_singleton.1 hj
      exact ⟨hz, hunused, hw⟩
  · rcases mem_append.1 hj with hj | hj
    · exact h.member j hj pid hp
    · obtain rfl := mem_singleton.1 hj
      cases hpid.symm.trans hp
  · obtain ⟨v, hv, hvid, hle⟩ := h.allowance wave pid hl
    have hsame : heldIn (rows.add i).invites wave pid = heldIn rows.invites wave pid := by
      simp [Rows.add, heldIn, hpid]
    exact ⟨v, hv, hvid, by rwa [hsame]⟩

theorem freeIn_add {wave : ℕ} : (freeIn (rows.add i).invites wave).length =
    (freeIn rows.invites wave).length + if i.wave_id = wave ∧ i.invite_owner_pid = none then 1 else 0 := by
  rw [Rows.add, freeIn, filter_append, length_append, freeIn]
  by_cases hi : i.wave_id = wave ∧ i.invite_owner_pid = none
  · simp [hi]
  · simp [hi]

theorem Created.fill {left : ℕ} (h : Created caps db holder nextId t zid owner w rows (.fill job (left + 1)))
    (hpid : i.invite_owner_pid = some job.pid) :
    Created caps db holder nextId t zid owner w (rows.add i) (.fill job left) := by
  refine { h with free := fun j hj hnone => ?_, minted := ?_ }
  · rcases mem_append.1 hj with hj | hj
    · exact h.free j hj hnone
    · obtain rfl := mem_singleton.1 hj
      cases hpid.symm.trans hnone
  · rw [freeIn_add, if_neg fun hi => by cases hpid.symm.trans hi.2]
    exact h.minted

theorem Created.mint {left : ℕ} (h : Created caps db holder nextId t zid owner w rows (.mint (left + 1)))
    (hwave : i.wave_id = w.id) (hpid : i.invite_owner_pid = none) :
    Created caps db holder nextId t zid owner w (rows.add i) (.mint left) := by
  refine { h with free := fun j hj hnone => ?_, minted := ?_ }
  · rcases mem_append.1 hj with hj | hj
    · exact h.free j hj hnone
    · obtain rfl := mem_singleton.1 hj
      exact hwave
  · have hle := h.minted
    rw [freeIn_add, if_pos ⟨hwave, hpid⟩]
    simp only [Doing.mints] at hle ⊢
    omega

theorem distinctOn_subset {α κ : Type*} [DecidableEq κ] {key : α → κ} {l : List α} {a : α} (ha : a ∈ distinctOn key l) :
    a ∈ l := by
  induction l with
  | nil => cases ha
  | cons b l ih =>
    rcases mem_cons.1 ha with rfl | ha
    · exact mem_cons_self
    · exact mem_cons_of_mem _ (ih (mem_filter.1 ha).1)

/-- A gap is a promise. -/
theorem gaps_jobOk {seen : Tables} (hused : ∀ i ∈ seen.invites, ∀ pid, i.invite_used_by_pid = some pid → i ∈ db.invites)
    (hwaves : ∀ w ∈ seen.waves, ∀ i ∈ db.codes w.id, w ∈ db.waves) {g : Gap} (hg : g ∈ gaps seen zid) :
    JobOk db seen zid g.job := by
  obtain ⟨parent, hparent, hg⟩ := mem_flatMap.1 hg
  obtain ⟨child, hchild, hg⟩ := mem_flatMap.1 hg
  obtain ⟨i, hi, hg⟩ := mem_filterMap.1 hg
  obtain ⟨hmem, hz, hnumber, -⟩ : child ∈ seen.waves ∧ child.zid = parent.zid ∧ child.parent_wave = parent.wave ∧
      0 < child.invites_per_user := by simpa [childrenOf] using hchild
  obtain ⟨hpmem, hpz⟩ := mem_wavesOf.1 hparent
  split at hg
  · next pid hpid =>
    split at hg
    · cases hg
      obtain ⟨himem, hid⟩ := mem_codes.1 hi
      have hi' : i ∈ db.codes parent.id := mem_codes.2 ⟨hused i himem pid hpid, hid⟩
      have hpdb := hwaves parent hpmem i hi'
      exact ⟨child, hmem, rfl, hz.trans hpz, rfl, parent, mem_wavesOf.2 ⟨hpdb, hz.symm⟩, hnumber.symm, i, hi', hpid⟩
    · cases hg
  · cases hg

theorem reconcile_jobOk (h : Tx db holder t zid rows doing rest) (hlegal : Legal db) (hseen : SeenOnce db rows)
    {newWave : ℕ} {j : Job} (hj : j ∈ reconcile (db.withRows rows) zid newWave) :
    JobOk db (db.withRows rows) zid j := by
  obtain ⟨g, hg, rfl⟩ := mem_map.1 hj
  have hg := (mem_filter.1 ((perm_insertionSort ..).mem_iff.1 (mem_of_mem_take hg))).1
  refine gaps_jobOk (fun i hi pid hused => ?_) (fun w hw i hi => ?_) hg
  · -- the transaction's own codes are not used
    rcases mem_append.1 hi with hi | hi
    · exact hi
    · cases (h.invites i hi).2.1.symm.trans hused
  · rcases mem_append.1 hw with hw | hw
    · exact hw
    · exact absurd (mem_codes.1 hi).2 (hlegal.codes_fresh (hseen.2 w hw) i (mem_codes.1 hi).1)

theorem reconcileChildren_jobOk {consumed : String} {member : Option ℤ} {j : Job}
    (hj : j ∈ reconcileChildren db zid consumed member) : JobOk db db zid j := by
  obtain ⟨g, hg, rfl⟩ := mem_map.1 hj
  have hg := distinctOn_subset (mem_of_mem_take hg)
  have hg := (mem_filter.1 ((perm_insertionSort ..).mem_iff.1 hg)).1
  exact gaps_jobOk (fun i hi _ _ => hi) (fun w hw _ _ => hw) hg

theorem issueChildren_jobOk {pid : ℤ} {invite wave : ℕ} {jobs : List Job}
    (hjobs : issueChildren db zid pid invite wave = some jobs)
    (hused : ∃ i ∈ db.invites, i.wave_id = wave ∧ i.zid = zid ∧ i.invite_used_by_pid = some pid) :
    ∀ j ∈ jobs, JobOk db db zid j := by
  unfold issueChildren at hjobs
  split at hjobs
  · cases hjobs
    rintro _ ⟨⟩
  · next parent hparent =>
    obtain ⟨hid, hpz⟩ : parent.id = wave ∧ parent.zid = zid := by simpa using find?_some hparent
    have hpmem := mem_of_find?_eq_some hparent
    dsimp only at hjobs
    split at hjobs
    · cases hjobs
      intro j hj
      obtain ⟨child, hchild, rfl⟩ := mem_map.1 hj
      have hchild := (perm_insertionSort ..).mem_iff.1 (mem_of_mem_take hchild)
      obtain ⟨hmem, hz, hnumber, -⟩ : child ∈ db.waves ∧ child.zid = parent.zid ∧ child.parent_wave = parent.wave ∧
          0 < child.invites_per_user := by simpa [childrenOf] using hchild
      obtain ⟨i, hi, hiwave, -, hipid⟩ := hused
      exact ⟨child, hmem, rfl, hz.trans hpz, rfl, parent, mem_wavesOf.2 ⟨hpmem, hz.symm⟩, hnumber.symm, i,
        mem_codes.2 ⟨hi, hiwave.trans hid.symm⟩, hipid⟩
    · cases hjobs

/-- What a transaction has issued to a member is within the promise. -/
theorem Tx.allowed (h : Tx db holder t zid rows doing rest) (hlegal : Legal db) (hseen : SeenOnce db rows)
    (hw : w ∈ (db.withRows rows).waves) (pid : ℤ) :
    (db.held w.id pid).length + (heldIn rows.invites w.id pid).length ≤ w.invites_per_user := by
  cases hheld : heldIn rows.invites w.id pid with
  | nil => exact hlegal.held_le hseen hw pid
  | cons i l =>
    have hi : i ∈ heldIn rows.invites w.id pid := hheld ▸ mem_cons_self
    obtain ⟨himem, heq⟩ := mem_filter.1 hi
    obtain ⟨hwave, hpid⟩ := of_decide_eq_true heq
    obtain ⟨v, hv, hvid, hle⟩ := h.allowance w.id pid (hwave ▸ (h.member i himem pid hpid).1)
    obtain rfl : v = w := inj_on_of_nodup_map hseen.1 hv hw hvid
    rw [← hheld]
    omega

end Statements

/-! ## Commits -/

theorem Inv.seenOnce (h : Inv caps s)
    (hth : s.threads t = .writing zid purpose rows doing rest) : SeenOnce s.db rows := by
  have ht := h.threads t
  rw [hth] at ht
  cases purpose with
  | create owner w reconciled =>
    have hc : Created caps s.db s.holder s.nextWave t zid owner w rows doing := ht.2
    have hfresh : ∀ v ∈ rows.waves, ∀ x ∈ s.db.waves, x.id ≠ v.id := by
      intro v hv
      rw [hc.waves, mem_singleton] at hv
      exact hv ▸ hc.fresh
    refine ⟨?_, hfresh⟩
    have hlegal := h.legal.addWave (hc.home ▸ hc.number) hc.parent hc.fresh
    have hids := hlegal.ids
    rwa [addWave, ← hc.waves] at hids
  | fill then' =>
    have hnone : rows.waves = [] := ht.2.1
    refine ⟨?_, fun w hw => by rw [hnone] at hw; cases hw⟩
    rw [withRows, hnone, append_nil]
    exact h.legal.ids

/-- The tables with the rows of a transaction are legal and within the caps. -/
theorem Inv.withRows (h : Inv caps s)
    (hth : s.threads t = .writing zid purpose rows doing rest) :
    Legal (s.db.withRows rows) ∧ Capped caps (s.db.withRows rows) := by
  have hseen := h.seenOnce hth
  have ht := h.threads t
  rw [hth] at ht
  obtain ⟨hx, hpurpose⟩ := ht
  have hallowed := fun w hw pid => hx.allowed (w := w) h.legal hseen hw pid
  cases purpose with
  | create owner w reconciled =>
    have hc : Created caps s.db s.holder s.nextWave t zid owner w rows doing := hpurpose
    have hnumber : w.wave = (s.db.wavesOf w.zid).length + 1 := hc.home ▸ hc.number
    have hwaves : (s.db.withRows rows).waves = (s.db.addWave w).waves := by rw [withRows, hc.waves]; rfl
    have heq : s.db.withRows rows = { s.db.addWave w with invites := s.db.invites ++ rows.invites } := by
      rw [withRows, hc.waves]; rfl
    have hlegal := h.legal.addWave hnumber hc.parent hc.fresh
    have hgrows : Grows s.db (s.db.addWave w) := ⟨fun v hv => mem_append_left _ hv, fun i hi pid hused =>
      ⟨i, hi, rfl, rfl, hused⟩⟩
    rw [hwaves] at hallowed
    have hadded := hlegal.addInvites (l := rows.invites) (fun i hi => ?_) (fun i hi => (hx.invites i hi).2.1)
      (fun i hi pid hpid => ?_) hallowed fun v hv => ?_
    · have hcapped := h.capped.addWave h.legal hnumber hc.parent hc.fresh (by rw [hc.home]; exact hc.conversation)
        fun o ho => by
          rw [hc.home, hc.belongs] at ho
          cases ho
          exact hc.owned
      rw [heq]
      exact ⟨hadded, hcapped.conversation, hcapped.owner⟩
    · obtain ⟨hz, -, v, hv, hid, hvz⟩ := hx.invites i hi
      exact ⟨v, hwaves ▸ hv, hid, hvz.trans hz.symm⟩
    · obtain ⟨-, v, hv, hid, hprom⟩ := hx.member i hi pid hpid
      exact ⟨v, hwaves ▸ hv, hid, hgrows.promised hprom⟩
    · rcases mem_append.1 hv with hv | hv
      · -- codes for nobody are of the new wave
        have hnone : freeIn rows.invites v.id = [] := by
          refine filter_eq_nil_iff.2 fun i hi heq => ?_
          obtain ⟨hwave, hpid⟩ := of_decide_eq_true heq
          exact hc.fresh v hv (hwave.symm.trans (hc.free i hi hpid))
        rw [hnone]
        exact h.legal.freeIn_le hv
      · obtain rfl := mem_singleton.1 hv
        have hnone : freeIn (s.db.addWave v).invites v.id = [] :=
          filter_eq_nil_iff.2 fun i hi heq =>
            h.legal.codes_fresh hc.fresh i hi (of_decide_eq_true heq).1
        have hle := hc.minted
        rw [hnone, length_nil]
        omega
  | fill then' =>
    obtain ⟨hnone, hsome, -⟩ := hpurpose
    have hwaves : (s.db.withRows rows).waves = s.db.waves := by rw [withRows, hnone]; exact append_nil _
    have heq : s.db.withRows rows = { s.db with invites := s.db.invites ++ rows.invites } := by
      rw [withRows, hnone, append_nil]
    rw [hwaves] at hallowed
    have hadded := h.legal.addInvites (l := rows.invites) (fun i hi => ?_) (fun i hi => (hx.invites i hi).2.1)
      (fun i hi pid hpid => ?_) hallowed fun v hv => ?_
    · rw [heq]
      exact ⟨hadded, h.capped.conversation, h.capped.owner⟩
    · obtain ⟨hz, -, v, hv, hid, hvz⟩ := hx.invites i hi
      exact ⟨v, hwaves ▸ hv, hid, hvz.trans hz.symm⟩
    · obtain ⟨-, v, hv, hid, hprom⟩ := hx.member i hi pid hpid
      exact ⟨v, hwaves ▸ hv, hid, hprom⟩
    · have hfree : freeIn rows.invites v.id = [] :=
        filter_eq_nil_iff.2 fun i hi heq => hsome i hi (of_decide_eq_true heq).2
      rw [hfree]
      exact h.legal.freeIn_le hv

/-- A transaction is committed, and its thread goes on without locks. -/
theorem Inv.applies (h : Inv caps s)
    (hth : s.threads t = .writing zid purpose rows doing rest) {s₁ : State} (hdb : s₁.db = s.db.withRows rows)
    (hnext : s₁.nextWave = s.nextWave) (hholder : s₁.holder = (s.release t).holder) (hthreads : s₁.threads = s.threads)
    {thread : Thread} (hnew : ThreadOk caps (s₁.setThread t thread) t thread) (hwaves : thread.newWaves = []) :
    Inv caps (s₁.setThread t thread) := by
  obtain ⟨hlegal, hcapped⟩ := h.withRows hth
  have ht := h.threads t
  rw [hth] at ht
  obtain ⟨hx, hpurpose⟩ := ht
  -- the wave that is new, if one is, is the creation's own
  have hcreated : ∀ w ∈ rows.waves, ∃ owner, Created caps s.db s.holder s.nextWave t zid owner w rows doing := by
    intro w hw
    cases purpose with
    | create owner v reconciled =>
      have hc : Created caps s.db s.holder s.nextWave t zid owner v rows doing := hpurpose
      rw [hc.waves, mem_singleton] at hw
      exact ⟨owner, hw ▸ hc⟩
    | fill then' =>
      rw [hpurpose.1] at hw
      cases hw
  refine h.change (t := t) (hdb ▸ hlegal) (hdb ▸ hcapped) (fun u hu => ⟨?_, ?_⟩) ?_ (fun wave pid hl => ?_)
    (fun w hw => ?_) fun w hw => ?_
  · rw [setThread_of_ne hu, hthreads]
  · have howner : s₁.db.owner = s.db.owner := by rw [hdb]; rfl
    refine ⟨howner, le_of_eq hnext.symm, fun l => ?_, ⟨fun w hw => ?_, fun i hi pid hused => ?_⟩,
      fun wave pid hl => ?_, fun o hl => ?_, fun z hl => ?_, fun v hv => ?_⟩
    · rw [show (s₁.setThread t thread).holder = _ from hholder]
      exact release_holder hu
    · exact hdb ▸ mem_append_left _ hw
    · exact ⟨i, hdb ▸ mem_append_left _ hi, rfl, rfl, hused⟩
    · -- the codes of the transaction are of members that it locked
      have hnone : heldIn rows.invites wave pid = [] := by
        refine filter_eq_nil_iff.2 fun i hi heq => ?_
        obtain ⟨hwave, hpid⟩ := of_decide_eq_true heq
        have hlock := (hx.member i hi pid hpid).1
        rw [hwave, hl] at hlock
        exact hu (Option.some.inj hlock)
      have hheld : (s.db.withRows rows).held wave pid = s.db.held wave pid ++ heldIn rows.invites wave pid :=
        filter_append ..
      rw [show (s₁.setThread t thread).db = _ from hdb, hheld, hnone, append_nil]
    · have hnone : rows.waves.filter (fun w => decide (s.db.owner w.zid = some o)) = [] := by
        refine filter_eq_nil_iff.2 fun w hw heq => ?_
        obtain ⟨owner, hc⟩ := hcreated w hw
        rw [decide_eq_true_eq, hc.home, hc.belongs] at heq
        cases heq
        exact hu (Option.some.inj (hl.symm.trans hc.ownerLock))
      have happ : (s.db.withRows rows).ownedBy o =
          s.db.ownedBy o ++ rows.waves.filter (fun w => decide (s.db.owner w.zid = some o)) := filter_append ..
      rw [show (s₁.setThread t thread).db = _ from hdb, happ, hnone, append_nil]
    · have hnone : rows.waves.filter (fun w => decide (w.zid = z)) = [] := by
        refine filter_eq_nil_iff.2 fun w hw heq => ?_
        obtain ⟨owner, hc⟩ := hcreated w hw
        rw [decide_eq_true_eq, hc.home] at heq
        subst heq
        exact hu (Option.some.inj (hl.symm.trans hc.wavesLock))
      have happ : (s.db.withRows rows).wavesOf z =
          s.db.wavesOf z ++ rows.waves.filter (fun w => decide (w.zid = z)) := filter_append ..
      rw [show (s₁.setThread t thread).db = _ from hdb, happ, hnone, append_nil]
    · rw [show (s₁.setThread t thread).db = _ from hdb] at hv
      refine (mem_append.1 hv).imp_right fun hv w hw heq => hu ?_
      exact h.distinct u t w v hw (by rw [hth]; exact hv) heq.symm
  · rw [setThread_self]
    exact hnew
  · rw [show (s₁.setThread t thread).holder = _ from hholder] at hl
    exact absurd hl release_self
  · rw [setThread_self, hwaves] at hw
    cases hw
  · rw [show (s₁.setThread t thread).db = _ from hdb] at hw
    rw [show (s₁.setThread t thread).nextWave = _ from hnext]
    rcases mem_append.1 hw with hw | hw
    · exact h.below w hw
    · obtain ⟨owner, hc⟩ := hcreated w hw
      exact hc.below

/-! ## Codes that are used -/

section Accept

variable {db : Tables} {invite : ℕ} {pid : Option ℤ}

/-- The code after it was used, if it is the one. -/
def Invite.accepted (i : Invite) (invite : ℕ) (pid : Option ℤ) : Invite :=
  if i.id = invite ∧ i.status = 0 then { i with status := 1, invite_used_by_pid := pid } else i

theorem accepted_same : (i.accepted invite pid).wave_id = i.wave_id ∧ (i.accepted invite pid).zid = i.zid ∧
    (i.accepted invite pid).invite_owner_pid = i.invite_owner_pid := by
  unfold Invite.accepted
  split <;> exact ⟨rfl, rfl, rfl⟩

theorem mem_accept : i ∈ (db.accept invite pid).invites ↔ ∃ j ∈ db.invites, j.accepted invite pid = i :=
  mem_map

/-- A filter that only looks at what stays keeps as many codes. -/
theorem length_filter_accept {p : Invite → Bool} (hp : ∀ i, p (i.accepted invite pid) = p i) :
    ((db.accept invite pid).invites.filter p).length = (db.invites.filter p).length := by
  change ((db.invites.map fun i => i.accepted invite pid).filter p).length = _
  rw [filter_map, length_map]
  exact congrArg List.length (filter_congr fun i _ => hp i)

theorem Legal.grows_accept (h : Legal db) : Grows db (db.accept invite pid) := by
  refine ⟨fun w hw => hw, fun i hi p hused => ⟨i.accepted invite pid, mem_accept.2 ⟨i, hi, rfl⟩, accepted_same.1,
    accepted_same.2.1, ?_⟩⟩
  have hne : ¬(i.id = invite ∧ i.status = 0) := fun hc => by cases (h.unused i hi hc.2).symm.trans hused
  rwa [Invite.accepted, if_neg hne]

theorem Legal.accept (h : Legal db) : Legal (db.accept invite pid) := by
  refine ⟨h.numbers, h.parent, h.ids, fun i hi => ?_, fun i hi hstatus => ?_, fun w hw i hi p hp => ?_,
    fun w hw p => ?_, fun w hw => ?_⟩
  · obtain ⟨j, hj, rfl⟩ := mem_accept.1 hi
    obtain ⟨w, hw, hid, hz⟩ := h.wave j hj
    exact ⟨w, hw, hid.trans accepted_same.1.symm, hz.trans accepted_same.2.1.symm⟩
  · obtain ⟨j, hj, rfl⟩ := mem_accept.1 hi
    unfold Invite.accepted at hstatus ⊢
    split at hstatus
    · cases hstatus
    · next hne =>
      rw [if_neg hne]
      exact h.unused j hj hstatus
  · obtain ⟨hmem, hid⟩ := mem_codes.1 hi
    obtain ⟨j, hj, rfl⟩ := mem_accept.1 hmem
    exact h.grows_accept.promised (h.member w hw j (mem_codes.2 ⟨hj, accepted_same.1.symm.trans hid⟩) p
      (accepted_same.2.2.symm.trans hp))
  · have hlen : ((db.accept invite pid).held w.id p).length = (db.held w.id p).length :=
      length_filter_accept fun i => by rw [accepted_same.1, accepted_same.2.2]
    rw [hlen]
    exact h.allowance w hw p
  · have hlen : (freeIn (db.accept invite pid).invites w.id).length = (freeIn db.invites w.id).length :=
      length_filter_accept fun i => by rw [accepted_same.1, accepted_same.2.2]
    have hle := h.freeIn_le hw
    rw [← hlen] at hle
    simpa [freeIn, codes, filter_filter, Bool.and_comm] using hle

end Accept

theorem Inv.accepts (h : Inv caps s) {invite : ℕ} {pid : Option ℤ} {thread : Thread} (hold : ¬(s.threads t).Writes)
    (hnew : ThreadOk caps (({ s with db := s.db.accept invite pid } : State).setThread t thread) t thread)
    (hwaves : thread.newWaves = []) :
    Inv caps (({ s with db := s.db.accept invite pid } : State).setThread t thread) := by
  refine h.change (t := t) h.legal.accept ⟨h.capped.conversation, h.capped.owner⟩
    (fun u hu => ⟨setThread_of_ne hu, rfl, le_refl _, fun _ => Iff.rfl, h.legal.grows_accept, fun wave p _ => ?_,
      fun _ _ => rfl, fun _ _ => rfl, fun _ hv => .inl hv⟩) ?_ (fun wave p hl => absurd (h.locks t wave p hl) hold)
    (fun w hw => ?_) h.below
  · exact length_filter_accept fun i => by rw [accepted_same.1, accepted_same.2.2]
  · rw [setThread_self]
    exact hnew
  · rw [setThread_self, hwaves] at hw
    cases hw

/-! ## Runs -/

/-- The statements of a creation before it writes. -/
theorem Inv.advance (h : Inv caps s) {f : Fields} {stage : Stage} (hth : s.threads t = .creating zid f stage)
    (hs : advance caps s t zid f stage = some s') : Inv caps s' := by
  have hold : ¬(s.threads t).Writes := by rw [hth]; exact id
  have hstage := h.threads t
  rw [hth] at hstage
  -- a lock of the creation is taken
  have htake : ∀ {l : Lock} {stage' : Stage}, (∀ wave pid, l ≠ .perUserCodes wave pid) →
      (∀ s₁, s.take t l = some s₁ →
        ThreadOk caps (s₁.setThread t (.creating zid f stage')) t (.creating zid f stage')) →
      (s.take t l).map (·.setThread t (.creating zid f stage')) = some s' → Inv caps s' := by
    intro l stage' hl hok hs
    obtain ⟨s₁, hs₁, rfl⟩ := Option.map_eq_some_iff.1 hs
    obtain ⟨hdb, hnext, hthreads, hnew, hkeep, hsame, hothers⟩ := take_spec hs₁
    refine h.go (t := t) hdb (le_of_eq hnext.symm) (fun u hu => ?_) hothers ?_ (fun wave pid hw => ?_) fun w hw => ?_
    · rw [setThread_of_ne hu, hthreads]
    · rw [setThread_self]
      exact hok s₁ hs₁
    · rw [show (s₁.setThread t _).holder (.perUserCodes wave pid) = _ from hsame _ (hl wave pid).symm] at hw
      exact absurd (h.locks t wave pid hw) hold
    · rw [setThread_self] at hw
      cases hw
  -- the creation goes on with what it has read
  have hmove : ∀ {stage' : Stage},
      ThreadOk caps (s.setThread t (.creating zid f stage')) t (.creating zid f stage') →
      Inv caps (s.setThread t (.creating zid f stage')) := fun hok => h.move hok (.inr hold) nofun
  cases stage with
  | authorized =>
    simp only [Treevite.advance] at hs
    split at hs
    · cases hs
      exact h.refuse _
    · next owner howner =>
      cases hs
      exact hmove howner
  | owned owner =>
    have howner : s.db.owner zid = some owner := hstage
    refine htake (fun _ _ => by nofun) (fun s₁ hs₁ => ?_) hs
    obtain ⟨hdb, -, -, hnew, -⟩ := take_spec hs₁
    exact ⟨(congrArg (fun db => db.owner zid) hdb).trans howner, hnew⟩
  | ownerLocked owner =>
    obtain ⟨howner, hlock⟩ : s.db.owner zid = some owner ∧ s.holder (.ownerCodes owner) = some t := hstage
    refine htake (fun _ _ => by nofun) (fun s₁ hs₁ => ?_) hs
    obtain ⟨hdb, -, -, hnew, hkeep, -⟩ := take_spec hs₁
    exact ⟨(congrArg (fun db => db.owner zid) hdb).trans howner, hkeep _ hlock, hnew⟩
  | locked owner =>
    obtain ⟨howner, hlock, hlock'⟩ : s.db.owner zid = some owner ∧ s.holder (.ownerCodes owner) = some t ∧
      s.holder (.waves zid) = some t := hstage
    simp only [Treevite.advance] at hs
    split at hs
    · cases hs
      exact h.refuse _
    · next wave parent hnumber =>
      cases hs
      exact hmove ⟨howner, hlock, hlock', number_spec h.legal hnumber⟩
  | numbered owner wave parent =>
    obtain ⟨howner, hlock, hlock', hwave⟩ : s.db.owner zid = some owner ∧ s.holder (.ownerCodes owner) = some t ∧
      s.holder (.waves zid) = some t ∧ wave = (s.db.wavesOf zid).length + 1 := hstage
    simp only [Treevite.advance] at hs
    split at hs
    · cases hs
      exact h.refuse _
    · next size members hparent =>
      cases hs
      obtain ⟨hex, hmembers⟩ := parentOf_spec hparent
      exact hmove ⟨howner, hlock, hlock', hwave, hex, hmembers⟩
  | parented owner wave parent size members =>
    obtain ⟨howner, hlock, hlock', hwave, hex, hmembers⟩ := hstage
    simp only [Treevite.advance] at hs
    split at hs
    · cases hs
      exact h.refuse _
    · next p hp =>
      cases hs
      obtain ⟨hnonneg, hpw, -, -, hconversation, howned⟩ := plan_spec h.legal howner hp
      let w : Wave := ⟨s.nextWave, zid, wave, p.parent_wave, p.invites_per_user, p.owner_invites, some p.size⟩
      have hparent : w.parent_wave < w.wave := by
        change p.parent_wave < wave
        rcases Int.lt_or_eq_of_le hnonneg with hpos | rfl
        · obtain ⟨v, hv, hvw⟩ := hex hpos
          have hmem : v.wave ∈ (s.db.wavesOf zid).map (·.wave) := mem_map_of_mem hv
          rw [h.legal.numbers, mem_range'_1] at hmem
          omega
        · rw [hpw, hwave]
          exact succ_pos _
      have hfresh : ∀ v ∈ s.db.waves, v.id ≠ w.id := fun v hv => Nat.ne_of_lt (h.below v hv)
      refine h.go (t := t) rfl (le_succ _) (fun u hu => setThread_of_ne hu) (fun _ _ _ => Iff.rfl) ?_
        (fun wave pid hl => absurd (h.locks t wave pid hl) hold) fun v hv => ?_
      · rw [setThread_self]
        refine ⟨⟨nofun, nofun, fun j hj => ?_, nofun, fun wave pid hl => absurd (h.locks t wave pid hl) hold⟩,
          rfl, rfl, howner, hlock, hlock', hwave, hparent, lt_succ_self _, hfresh, nofun, le_of_eq ?_,
          hconversation, howned⟩
        · -- the members came by codes of the parent
          obtain ⟨m, hm, rfl⟩ := mem_map.1 hj
          obtain ⟨v, hv, hvw, hcode⟩ := hmembers m hm
          have hnumber : v.wave = w.parent_wave := by
            change v.wave = p.parent_wave
            omega
          exact ⟨w, mem_append_right _ (mem_singleton_self w), rfl, rfl, rfl, v, hv, hnumber, hcode⟩
        · exact Nat.zero_add _
      · rw [setThread_self, Thread.newWaves, mem_singleton] at hv
        exact .inr (congrArg Wave.id hv)

/-- The purpose keeps what it knows when as much is to be minted. -/
theorem PurposeOk.turn {doing doing' : Doing}
    (h : PurposeOk caps s t zid rows doing purpose) (hmints : doing'.mints ≤ doing.mints) :
    PurposeOk caps s t zid rows doing' purpose := by
  cases purpose with
  | create owner w reconciled => exact Created.turn h hmints
  | fill then' => exact h

/-- The statements of a transaction that writes. -/
theorem Inv.write (h : Inv caps s) {code : String}
    (hth : s.threads t = .writing zid purpose rows doing rest)
    (hs : write s t code zid purpose rows rest doing = some s') : Inv caps s' := by
  have hseen := h.seenOnce hth
  have ht := h.threads t
  rw [hth] at ht
  obtain ⟨hx, hpurpose⟩ := ht
  -- the transaction goes on with the rows that it has
  have hmove : ∀ {purpose' : Purpose} {doing' : Doing} {rest' : List Job},
      Tx s.db s.holder t zid rows doing' rest' → PurposeOk caps s t zid rows doing' purpose' →
      Inv caps (s.setThread t (.writing zid purpose' rows doing' rest')) := by
    intro purpose' doing' rest' hx' hp'
    refine h.move ?_ (.inl trivial) fun w hw => by rw [hth]; exact hw
    cases purpose' <;> exact ⟨hx', hp'⟩
  have hnext : ∀ {purpose' : Purpose}, PurposeOk caps s t zid rows doing purpose' →
      Inv caps (s.setThread t (.writing zid purpose' rows (purpose'.next rest).1 (purpose'.next rest).2)) :=
    fun {purpose'} hp' => hmove (hx.next purpose') (hp'.turn ((purpose'.next_spec rest).2.2.2 ▸ zero_le _))
  -- the transaction inserts a code
  have hinsert : ∀ {wave : ℕ} {parent : Option ℕ} {pid : Option ℤ} {doing' : Doing},
      insert s t zid purpose rows wave parent pid code doing' rest = some s' →
      (∀ i : Invite, i.zid = zid → i.wave_id = wave → i.invite_owner_pid = pid → i.invite_used_by_pid = none →
        Tx s.db s.holder t zid (rows.add i) doing' rest ∧ PurposeOk caps s t zid (rows.add i) doing' purpose) →
      Inv caps s' := by
    intro wave parent pid doing' hs hok
    simp only [insert] at hs
    split at hs
    · cases hs
      obtain ⟨hx', hp'⟩ := hok ⟨s.nextInvite, zid, wave, parent, code, pid, 0, none⟩ rfl rfl rfl rfl
      refine h.go (t := t) rfl (le_refl _) (fun u hu => setThread_of_ne hu) (fun _ _ _ => Iff.rfl) ?_
        (fun _ _ _ => ?_) fun w hw => .inl ?_
      · rw [setThread_self]
        cases purpose <;> exact ⟨hx', hp'⟩
      · rw [setThread_self]
        trivial
      · rw [setThread_self] at hw
        rw [hth]
        exact hw
    · cases hs
  cases doing with
  | mint left => cases left with
    | zero =>
      cases hs
      exact hnext hpurpose
    | succ left => cases purpose with
      | create owner w reconciled =>
        have hc : Created caps s.db s.holder s.nextWave t zid owner w rows (.mint (left + 1)) := hpurpose
        refine hinsert hs fun i hz hwave hpid hunused => ⟨hx.mint hz hunused hpid ?_, hc.mint hwave hpid⟩
        refine ⟨w, mem_append_right _ ?_, hwave.symm, hc.home⟩
        rw [hc.waves]
        exact mem_singleton_self w
      | fill then' => cases hs
  | lock job =>
    obtain ⟨s₁, hs₁, rfl⟩ := Option.map_eq_some_iff.1 hs
    obtain ⟨hdb, hnextWave, hthreads, hnew, hkeep, hsame, hothers⟩ := take_spec hs₁
    refine h.go (t := t) hdb (le_of_eq hnextWave.symm) (fun u hu => ?_) hothers ?_ (fun _ _ _ => ?_) fun w hw => .inl ?_
    · rw [setThread_of_ne hu, hthreads]
    · have hx' := hx.lock h.legal hseen hnew hkeep hsame
      rw [setThread_self]
      have hdb' : (s₁.setThread t (.writing zid purpose rows (.count job) rest)).db = s.db := hdb
      cases purpose with
      | create owner w reconciled =>
        have hc : Created caps s.db s.holder s.nextWave t zid owner w rows (.lock job) := hpurpose
        refine ⟨hdb'.symm ▸ hx', ?_⟩
        change Created caps s₁.db s₁.holder s₁.nextWave t zid owner w rows (.count job)
        rw [hdb, hnextWave]
        exact { hc with ownerLock := hkeep _ hc.ownerLock, wavesLock := hkeep _ hc.wavesLock }
      | fill then' => exact ⟨hdb'.symm ▸ hx', hpurpose.1, hpurpose.2.1, hdb'.symm ▸ hpurpose.2.2⟩
    · rw [setThread_self]
      trivial
    · rw [setThread_self] at hw
      rw [hth]
      exact hw
  | count job =>
    cases hs
    exact hmove (hx.count hseen) (hpurpose.turn (le_refl _))
  | fill job left => cases left with
    | zero =>
      cases hs
      exact hnext hpurpose
    | succ left =>
      refine hinsert hs fun i hz hwave hpid hunused => ⟨hx.fill hz hunused hwave hpid, ?_⟩
      cases purpose with
      | create owner w reconciled => exact Created.fill hpurpose hpid
      | fill then' =>
        refine ⟨hpurpose.1, fun j hj hnone => ?_, hpurpose.2.2⟩
        rcases mem_append.1 hj with hj | hj
        · exact hpurpose.2.1 j hj hnone
        · obtain rfl := mem_singleton.1 hj
          cases hpid.symm.trans hnone
  | reconcile => cases purpose with
    | create owner w reconciled =>
      cases hs
      have hx' : Tx s.db s.holder t zid rows .reconcile (reconcile (s.db.withRows rows) zid w.id) :=
        hx.turn (fun j hj => reconcile_jobOk hx h.legal hseen hj) nofun fun _ _ => le_refl _
      exact hmove (hx'.next (.create owner w true)) (Created.turn hpurpose
        ((Purpose.next_spec (.create owner w true) _).2.2.2 ▸ zero_le _))
    | fill then' => cases hs
  | commit => cases hs

theorem Inv.step (h : Inv caps s) {e : Event} (hs : step caps s e = some s') : Inv caps s' := by
  have hok : ∀ {t thread}, s.threads t = thread → ThreadOk caps s t thread := fun {t _} ht => ht ▸ h.threads t
  -- threads that do not write take no locks of members
  have hold : ∀ {t thread}, s.threads t = thread → ¬thread.Writes → ¬(s.threads t).Writes := fun ht hn => ht ▸ hn
  cases e with
  | begin t zid admin moderator f =>
    simp only [Treevite.step] at hs
    split at hs
    · next hth =>
      split at hs
      · cases hs
        exact h.refuse _
      · cases hs
        exact h.move trivial (.inr (hold hth id)) nofun
    · cases hs
  | advance t =>
    simp only [Treevite.step] at hs
    split at hs
    · next hth => exact h.advance hth hs
    · cases hs
  | write t code =>
    simp only [Treevite.step] at hs
    split at hs
    · next hth => exact h.write hth hs
    · cases hs
  | commit t =>
    simp only [Treevite.step] at hs
    split at hs
    · next purpose rows rest hth =>
      split at hs
      · cases hs
        cases purpose with
        | create owner w reconciled =>
          change Inv caps (State.setThread _ t .ended)
          exact h.applies hth (by rfl) (by rfl) (by rfl) (by rfl) (by trivial) (by rfl)
        | fill then' =>
          change Inv caps (State.setThread _ t (.toppingUp then'))
          refine h.applies hth (by rfl) (by rfl) (by rfl) (by rfl) ?_ (by rfl)
          have hgrows : Grows s.db (s.db.withRows rows) := ⟨fun w hw => mem_append_left _ hw,
            fun i hi pid hused => ⟨i, mem_append_left _ hi, rfl, rfl, hused⟩⟩
          exact hgrows.topUpOk (hok hth).2.2.2
      · cases hs
    · cases hs
  | lose t applied =>
    simp only [Treevite.step] at hs
    split at hs
    · next hth =>
      split at hs
      · split at hs
        · cases hs
          change Inv caps (State.setThread _ t .ended)
          exact h.applies hth (by rfl) (by rfl) (by rfl) (by rfl) (by trivial) (by rfl)
        · cases hs
      · cases hs
        exact h.refuse _
    · next hth =>
      split at hs
      · split at hs
        · cases hs
          change Inv caps (State.setThread _ t .ended)
          exact h.applies hth (by rfl) (by rfl) (by rfl) (by rfl) (by trivial) (by rfl)
        · cases hs
      · cases hs
        exact h.ends
    · cases hs
  | fail t =>
    simp only [Treevite.step] at hs
    split at hs
    · cases hs
      exact h.refuse _
    · cases hs
      exact h.refuse _
    · cases hs
      exact h.ends
    · cases hs
      exact h.ends
    · cases hs
  | expire t =>
    simp only [Treevite.step] at hs
    split at hs
    · cases hs
      exact { h with }
    · cases hs
      exact { h with }
    · cases hs
  | accept t zid invite pid =>
    simp only [Treevite.step] at hs
    split at hs
    · next hth =>
      split at hs
      · cases hs
      · next i hi =>
        cases hs
        have hold' := hold hth id
        cases pid with
        | none => exact h.accepts hold' trivial rfl
        | some pid =>
          refine h.accepts hold' ⟨nofun, fun p hp => ?_⟩ rfl
          obtain rfl := mem_singleton.1 hp
          obtain ⟨hid, hz, hstatus⟩ : i.id = invite ∧ i.zid = zid ∧ i.status = 0 := by simpa using find?_some hi
          refine ⟨i.accepted invite (some pid), mem_accept.2 ⟨i, mem_of_find?_eq_some hi, rfl⟩,
            accepted_same.1, accepted_same.2.1.trans hz, ?_⟩
          rw [Invite.accepted, if_pos ⟨hid, hstatus⟩]
    · cases hs
  | login t zid pid =>
    simp only [Treevite.step] at hs
    split at hs
    · next hth =>
      cases hs
      split
      · refine h.move ⟨nofun, fun p hp => ?_⟩ (.inr (hold hth id)) nofun
        obtain ⟨i, hi, rfl⟩ := mem_map.1 hp
        have hi := (perm_insertionSort ..).mem_iff.1 (mem_of_mem_take hi)
        obtain ⟨hmem, hz, hused, -⟩ : i ∈ s.db.invites ∧ i.zid = zid ∧ i.invite_used_by_pid = some pid ∧ i.status = 1 :=
          by simpa using hi
        exact ⟨i, hmem, rfl, hz, hused⟩
      · exact h.move trivial (.inr (hold hth id)) nofun
    · cases hs
  | reconcileChildren t zid consumed member =>
    simp only [Treevite.step] at hs
    split at hs
    · next hth =>
      cases hs
      exact h.move ⟨fun j hj => reconcileChildren_jobOk hj, nofun⟩ (.inr (hold hth id)) nofun
    · cases hs
  | resume t =>
    simp only [Treevite.step] at hs
    split at hs
    · next zid pid job jobs parents hth =>
      cases hs
      have hold' := hold hth id
      have htop : TopUpOk s.db ⟨zid, pid, job :: jobs, parents⟩ := hok hth
      split
      · refine h.move ⟨⟨nofun, nofun, fun j hj => ?_, nofun, fun wave pid hl => absurd (h.locks t wave pid hl) hold'⟩,
          rfl, nofun, fun j hj => htop.jobs j (mem_cons_of_mem _ hj), htop.parents⟩ (.inr hold') nofun
        obtain rfl := mem_singleton.1 hj
        obtain ⟨w, hw, hrest⟩ := htop.jobs j mem_cons_self
        exact ⟨w, mem_append_left _ hw, hrest⟩
      · exact h.move trivial (.inr hold') nofun
    · next zid pid invite wave parents hth =>
      cases hs
      have hold' := hold hth id
      have htop : TopUpOk s.db ⟨zid, pid, [], (invite, wave) :: parents⟩ := hok hth
      split
      · next jobs hjobs =>
        exact h.move ⟨issueChildren_jobOk hjobs (htop.parents _ mem_cons_self),
          fun p hp => htop.parents p (mem_cons_of_mem _ hp)⟩ (.inr hold') nofun
      · exact h.move trivial (.inr hold') nofun
    · next hth =>
      cases hs
      exact h.move trivial (.inr (hold hth id)) nofun
    · cases hs
  | join zid pid uid =>
    simp only [Treevite.step] at hs
    split at hs
    · cases hs
    · cases hs
      let uids := update s.db.uid zid (update (s.db.uid zid) pid (some uid))
      have hgrows : Grows s.db { s.db with uid := uids } :=
        ⟨fun w hw => hw, fun i hi p hused => ⟨i, hi, rfl, rfl, hused⟩⟩
      have hmember : ∀ w ∈ s.db.waves, ∀ i ∈ s.db.codes w.id, ∀ p, i.invite_owner_pid = some p → _ :=
        fun w hw i hi p hp => hgrows.promised (h.legal.member w hw i hi p hp)
      refine ⟨⟨h.legal.numbers, h.legal.parent, h.legal.ids, h.legal.wave, h.legal.unused, hmember,
        h.legal.allowance, h.legal.free⟩, ⟨h.capped.conversation, h.capped.owner⟩, fun u => ?_, h.locks, h.distinct,
        h.below⟩
      have hframe : Frame u s { s with db := { s.db with uid := uids } } :=
        ⟨rfl, le_refl _, fun _ => Iff.rfl, hgrows, fun _ _ _ => rfl, fun _ _ => rfl, fun _ _ => rfl,
          fun _ hv => .inl hv⟩
      exact hframe.threadOk (h.threads u)

end Polis.Treevite
