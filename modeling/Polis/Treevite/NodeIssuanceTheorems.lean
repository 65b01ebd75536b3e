import Polis.Common.Run
import Polis.Treevite.NodeIssuance
import Polis.Treevite.IssuanceTheorems

/-!
# Every member is issued exactly what was promised

Who writes a wave looks for its members afterwards, and who marks a code looks for child waves afterwards, so
that of a member and a wave at least one request knows both. Such a request owes the codes until they are
there, and issues no more than are missing, since it counts under the lock.

Reference: `server/src/invites/treevites.ts`.
-/

namespace Polis.Treevite.Node

open List Function Nat

variable {zid : ℤ} {s s' : State} {t u : ℕ} {db db' : Tables} {w c v : Wave} {pid : ℤ} {thread : Thread}
variable {rest : List Job} {invite : Invite} {after : After} {parent : ℤ} {kind : Mint}
  {left attempt : ℕ} {f : Fields} {job : Job}

/-! ## What a request still does -/

namespace Thread

/-- The codes for nobody that the request goes on to insert, and their wave. -/
def mints : Thread → Option (Wave × ℕ)
  | minting w .owners left _ => some (w, left + 1 + if w.parent_wave = 0 then w.invites_per_user else 0)
  | minting w .roots left _ => some (w, left + 1)
  | _ => none

/-- The members whose codes the request has still to bring up to the number. -/
def jobs : Thread → List Job
  | locking _ job rest | counting _ job rest | filling _ job rest _ _ _ | committing _ job rest _ => job :: rest
  | _ => []

/-- The request is going to look for the member and the wave. -/
def Intends (db : Tables) (c : Wave) (pid : ℤ) : Thread → Prop
  | minting w _ _ _ | finding w | members w _ => w.id = c.id
  | login invite p | locating invite p =>
    p = pid ∧ ∃ v ∈ db.waves, v.id = invite.wave_id ∧ v.zid = c.zid ∧ v.wave = c.parent_wave
  | children _ p currentWave => p = pid ∧ currentWave = c.parent_wave
  | _ => False

/-- The request owes the member codes of the wave. -/
def Owes (db : Tables) (c : Wave) (pid : ℤ) (thread : Thread) : Prop :=
  (∃ j ∈ thread.jobs, j.wave = c.id ∧ j.pid = pid) ∨ thread.Intends db c pid

end Thread

open Polis.Treevite.Node.Thread

theorem issue_jobs (after : After) (jobs : List Job) : (issue after jobs).jobs = jobs := by
  cases jobs with
  | nil => cases after <;> rfl
  | cons job rest => rfl

theorem issue_mints (after : After) (jobs : List Job) : (issue after jobs).mints = none := by
  cases jobs with
  | nil => cases after <;> rfl
  | cons job rest => rfl

theorem nextFill_jobs (after : After) (job : Job) (rest : List Job) (rows : List Invite) (left : ℕ) :
    (nextFill after job rest rows left).jobs = job :: rest ∧ (nextFill after job rest rows left).mints = none := by
  cases left <;> exact ⟨rfl, rfl⟩

/-- What follows the codes of the owner. -/
theorem perUser_cases (w : Wave) : (perUser w = .totalling w ∧ w.invites_per_user = 0) ∨
    (∃ n, perUser w = .minting w .roots n 0 ∧ w.parent_wave = 0 ∧ w.invites_per_user = n + 1) ∨
      (perUser w = .finding w ∧ w.parent_wave ≠ 0) := by
  unfold perUser
  by_cases hzero : w.invites_per_user = 0
  · rw [if_pos hzero]
    exact .inl ⟨rfl, hzero⟩
  · rw [if_neg hzero]
    by_cases hroot : w.parent_wave = 0
    · rw [if_pos hroot]
      obtain ⟨n, hn⟩ := exists_eq_succ_of_ne_zero hzero
      exact .inr (.inl ⟨n, by simp [startRoots, hn], hroot, hn⟩)
    · rw [if_neg hroot]
      exact .inr (.inr ⟨rfl, hroot⟩)

theorem Thread.Owes.mono (hwaves : ∀ w ∈ db.waves, w ∈ db'.waves) (h : thread.Owes db c pid) :
    thread.Owes db' c pid := by
  refine h.imp_right fun hintends => ?_
  cases thread with
  | login | locating =>
    obtain ⟨hp, v, hv, hrest⟩ := hintends
    exact ⟨hp, v, hwaves v hv, hrest⟩
  | _ => exact hintends

theorem Thread.not_owes (hjobs : thread.jobs = []) (hintends : ¬thread.Intends db c pid) : ¬thread.Owes db c pid := by
  rintro (⟨j, hj, -⟩ | h)
  · rw [hjobs] at hj
    cases hj
  · exact hintends h

/-! ## The invariant -/

/-- The rows that a transaction has written for a member. -/
structure RowsOk (zid : ℤ) (job : Job) (rows : List Invite) : Prop where
  row : ∀ i ∈ rows, i.zid = zid ∧ i.wave_id = job.wave ∧ i.invite_owner_pid = some job.pid ∧
    i.invite_used_by_pid = none
  ids : (rows.map (·.id)).Nodup

/-- What holds of a request. -/
def ThreadOk (zid : ℤ) (db : Tables) (holder : ℕ × ℤ → Option ℕ) (t : ℕ) : Thread → Prop
  | .sizing _ wave _ => 1 ≤ wave ∧ wave ≤ (db.wavesOf zid).length + 1
  | .inserting _ wave parent parentSize => (1 ≤ wave ∧ wave ≤ (db.wavesOf zid).length + 1) ∧
      (parent ≤ 0 → 1 ≤ parentSize) ∧
      (0 < parent → ∃ v ∈ db.wavesOf zid, (v.wave : ℤ) = parent ∧ v.size.getD 0 ≤ parentSize)
  | .minting w kind left attempt => w ∈ db.wavesOf zid ∧ (kind = .roots → w.parent_wave = 0) ∧
      ∀ n ∈ (minting w kind left attempt).mints, (freeIn db.invites w.id).length + n.2 = w.free
  | .finding w => w ∈ db.wavesOf zid ∧ w.parent_wave ≠ 0
  | .members w parentWaveId => w ∈ db.wavesOf zid ∧ ∃ v ∈ db.wavesOf zid, v.wave = w.parent_wave ∧ v.id = parentWaveId
  | .locking _ job rest => ∀ j ∈ job :: rest, JobOk db db zid j
  | .counting _ job rest => (∀ j ∈ job :: rest, JobOk db db zid j) ∧ holder (job.wave, job.pid) = some t
  | .filling _ job rest left _ rows => (∀ j ∈ job :: rest, JobOk db db zid j) ∧ holder (job.wave, job.pid) = some t ∧
      RowsOk zid job rows ∧ (db.held job.wave job.pid).length + rows.length + (left + 1) = job.amount
  | .committing _ job rest rows => (∀ j ∈ job :: rest, JobOk db db zid j) ∧ holder (job.wave, job.pid) = some t ∧
      RowsOk zid job rows ∧ (db.held job.wave job.pid).length + rows.length = job.amount
  | .joining invite | .marking invite _ =>
    ∃ i ∈ db.invites, i.id = invite.id ∧ i.zid = zid ∧ i.wave_id = invite.wave_id
  | .login invite pid | .locating invite pid =>
    ∃ i ∈ db.invites, i.wave_id = invite.wave_id ∧ i.zid = zid ∧ i.invite_used_by_pid = some pid
  | .children _ pid currentWave => ∃ v ∈ db.wavesOf zid, v.wave = currentWave ∧
      ∃ i ∈ db.codes v.id, i.invite_used_by_pid = some pid
  | _ => True

structure Inv (zid : ℤ) (s : State) : Prop where
  legal : Legal s.db
  home : ∀ w ∈ s.db.waves, w.zid = zid
  ids : (s.db.invites.map (·.id)).Nodup
  sizes : ∀ w ∈ s.db.waves, ∃ size, w.size = some size ∧ s.db.reserved w ≤ size
  below : ∀ w ∈ s.db.waves, w.id < s.nextWave
  threads : ∀ t, ThreadOk zid s.db s.holder t (s.threads t)
  makers : ∀ t u w v, w ∈ (s.threads t).mints → v ∈ (s.threads u).mints → w.1.id = v.1.id → t = u
  /-- The codes for nobody are there, unless a request is at it. -/
  free : ∀ w ∈ s.db.waves, (freeIn s.db.invites w.id).length = w.free ∨
    ∃ t, s.threads t = .failed ∨ ∃ v ∈ (s.threads t).mints, v.1.id = w.id
  /-- The codes of a member are there, unless a request owes them. -/
  debts : ∀ c ∈ s.db.waves, ∀ pid, s.db.Promised c pid → (s.db.held c.id pid).length = c.invites_per_user ∨
    ∃ t, s.threads t = .failed ∨ (s.threads t).Owes s.db c pid

/-! ## A step of one request -/

/-- What a step leaves to another request. -/
structure Frame (zid : ℤ) (u : ℕ) (s s' : State) : Prop where
  grows : Grows s.db s'.db
  rows : ∀ i ∈ s.db.invites, ∃ j ∈ s'.db.invites, j.id = i.id ∧ j.zid = i.zid ∧ j.wave_id = i.wave_id
  holder : ∀ l, s'.holder l = some u ↔ s.holder l = some u
  held : ∀ wave pid, s.holder (wave, pid) = some u → (s'.db.held wave pid).length = (s.db.held wave pid).length
  free : ∀ w ∈ (s.threads u).mints, (freeIn s'.db.invites w.1.id).length = (freeIn s.db.invites w.1.id).length
  count : (s.db.wavesOf zid).length ≤ (s'.db.wavesOf zid).length

theorem Frame.threadOk (h : Frame zid u s s') (hok : ThreadOk zid s.db s.holder u (s.threads u)) :
    ThreadOk zid s'.db s'.holder u (s.threads u) := by
  have hwave : ∀ {v}, v ∈ s.db.wavesOf zid → v ∈ s'.db.wavesOf zid := fun hv =>
    mem_wavesOf.2 ⟨h.grows.waves _ (mem_wavesOf.1 hv).1, (mem_wavesOf.1 hv).2⟩
  have hjobs : ∀ {jobs : List Job}, (∀ j ∈ jobs, JobOk s.db s.db zid j) → ∀ j ∈ jobs, JobOk s'.db s'.db zid j := by
    intro jobs hj j hmem
    obtain ⟨w, hw, hid, hz, hamount, hp⟩ := hj j hmem
    exact ⟨w, h.grows.waves w hw, hid, hz, hamount, h.grows.promised hp⟩
  have hfree := h.free
  cases hth : s.threads u with
  | sizing f wave parent =>
    rw [hth] at hok
    exact ⟨hok.1, hok.2.trans (Nat.add_le_add_right h.count 1)⟩
  | inserting f wave parent parentSize =>
    rw [hth] at hok
    obtain ⟨⟨hone, hle⟩, hroot, hparent⟩ := hok
    refine ⟨⟨hone, hle.trans (Nat.add_le_add_right h.count 1)⟩, hroot, fun hpos => ?_⟩
    obtain ⟨v, hv, hrest⟩ := hparent hpos
    exact ⟨v, hwave hv, hrest⟩
  | minting w kind left attempt =>
    rw [hth] at hok hfree
    obtain ⟨hw, hkind, hn⟩ := hok
    refine ⟨hwave hw, hkind, fun n hmem => ?_⟩
    have hid : n.1 = w := by cases kind <;> (cases hmem; rfl)
    have heq := hfree n hmem
    rw [hid] at heq
    rw [heq]
    exact hn n hmem
  | finding w =>
    rw [hth] at hok
    exact ⟨hwave hok.1, hok.2⟩
  | members w parentWaveId =>
    rw [hth] at hok
    obtain ⟨hw, v, hv, hrest⟩ := hok
    exact ⟨hwave hw, v, hwave hv, hrest⟩
  | locking after job rest =>
    rw [hth] at hok
    exact hjobs hok
  | counting after job rest =>
    rw [hth] at hok
    exact ⟨hjobs hok.1, (h.holder _).2 hok.2⟩
  | filling | committing =>
    rw [hth] at hok
    obtain ⟨hj, hl, hrows, hsum⟩ := hok
    refine ⟨hjobs hj, (h.holder _).2 hl, hrows, ?_⟩
    rw [h.held _ _ hl]
    exact hsum
  | joining | marking =>
    rw [hth] at hok
    obtain ⟨i, hi, hid, hz, hwid⟩ := hok
    obtain ⟨j, hj, hjid, hjz, hjw⟩ := h.rows i hi
    exact ⟨j, hj, hjid.trans hid, hjz.trans hz, hjw.trans hwid⟩
  | login _ pid | locating _ pid =>
    rw [hth] at hok
    obtain ⟨i, hi, hwid, hz, hused⟩ := hok
    obtain ⟨j, hj, hjw, hjz, hjused⟩ := h.grows.used i hi pid hused
    exact ⟨j, hj, hjw.trans hwid, hjz.trans hz, hjused⟩
  | children invite pid currentWave =>
    rw [hth] at hok
    obtain ⟨v, hv, hnumber, hcode⟩ := hok
    exact ⟨v, hwave hv, hnumber, h.grows.used_code hcode⟩
  | _ => trivial

/-- A step of one request, by what it does to the tables and to the request. -/
theorem Inv.change (h : Inv zid s) (hlegal : Legal s'.db) (hhome : ∀ w ∈ s'.db.waves, w.zid = zid)
    (hids : (s'.db.invites.map (·.id)).Nodup)
    (hsizes : ∀ w ∈ s'.db.waves, ∃ size, w.size = some size ∧ s'.db.reserved w ≤ size)
    (hbelow : ∀ w ∈ s'.db.waves, w.id < s'.nextWave) (hothers : ∀ u, u ≠ t → s'.threads u = s.threads u)
    (hframe : ∀ u, u ≠ t → Frame zid u s s') (hok : ThreadOk zid s'.db s'.holder t (s'.threads t))
    (hmakers : ∀ w ∈ (s'.threads t).mints,
      (∃ v ∈ (s.threads t).mints, v.1.id = w.1.id) ∨ ∀ v ∈ s.db.waves, v.id ≠ w.1.id)
    (hfree : ∀ w ∈ s'.db.waves, (freeIn s'.db.invites w.id).length = w.free ∨ s'.threads t = .failed ∨
      (∃ v ∈ (s'.threads t).mints, v.1.id = w.id) ∨ (w ∈ s.db.waves ∧
        (freeIn s'.db.invites w.id).length = (freeIn s.db.invites w.id).length ∧
          s.threads t ≠ .failed ∧ ∀ v ∈ (s.threads t).mints, v.1.id ≠ w.id))
    (hdebts : ∀ c ∈ s'.db.waves, ∀ pid, s'.db.Promised c pid →
      (s'.db.held c.id pid).length = c.invites_per_user ∨ s'.threads t = .failed ∨
        (s'.threads t).Owes s'.db c pid ∨ (c ∈ s.db.waves ∧ s.db.Promised c pid ∧
          (s.db.held c.id pid).length ≤ (s'.db.held c.id pid).length ∧ s.threads t ≠ .failed ∧
            ¬(s.threads t).Owes s.db c pid)) : Inv zid s' := by
  -- a request that makes a wave makes one of the tables
  have hmade : ∀ u, ∀ w ∈ (s.threads u).mints, w.1 ∈ s.db.waves := by
    intro u w hw
    have hok := h.threads u
    cases hth : s.threads u with
    | minting w' kind left attempt =>
      rw [hth] at hok hw
      have hid : w.1 = w' := by cases kind <;> (cases hw; rfl)
      rw [hid]
      exact (mem_wavesOf.1 hok.1).1
    | _ =>
      rw [hth] at hw
      cases hw
  have hone : ∀ u, u ≠ t → ∀ w v, w ∈ (s'.threads t).mints → v ∈ (s.threads u).mints → w.1.id ≠ v.1.id := by
    intro u hu w v hw hv heq
    rcases hmakers w hw with ⟨v', hv', hid⟩ | hnew
    · exact hu (h.makers u t v v' hv hv' (heq.symm.trans hid.symm))
    · exact hnew v.1 (hmade u v hv) heq.symm
  refine ⟨hlegal, hhome, hids, hsizes, hbelow, fun u => ?_, fun a b w v hw hv heq => ?_, fun w hw => ?_,
    fun c hc pid hp => ?_⟩
  · by_cases hu : u = t
    · rw [hu]
      exact hok
    · rw [hothers u hu]
      exact (hframe u hu).threadOk (h.threads u)
  · by_cases ha : a = t <;> by_cases hb : b = t
    · exact ha.trans hb.symm
    · rw [ha] at hw
      rw [hothers b hb] at hv
      exact absurd heq (hone b hb w v hw hv)
    · rw [hb] at hv
      rw [hothers a ha] at hw
      exact absurd heq.symm (hone a ha v w hv hw)
    · rw [hothers a ha] at hw
      rw [hothers b hb] at hv
      exact h.makers a b w v hw hv heq
  · rcases hfree w hw with hdone | hfailed | hmine | ⟨hold, heq, hlive, hnot⟩
    · exact .inl hdone
    · exact .inr ⟨t, .inl hfailed⟩
    · exact .inr ⟨t, .inr hmine⟩
    · rcases h.free w hold with hdone | ⟨u, hu⟩
      · exact .inl (heq.trans hdone)
      · have hne : u ≠ t := by
          rintro rfl
          rcases hu with hu | ⟨v, hv, hid⟩
          · exact hlive hu
          · exact hnot v hv hid
        rw [← hothers u hne] at hu
        exact .inr ⟨u, hu⟩
  · rcases hdebts c hc pid hp with hdone | hfailed | hmine | ⟨hold, hpold, hle, hlive, hnot⟩
    · exact .inl hdone
    · exact .inr ⟨t, .inl hfailed⟩
    · exact .inr ⟨t, .inr hmine⟩
    · rcases h.debts c hold pid hpold with hdone | ⟨u, hu⟩
      · exact .inl (le_antisymm (hlegal.allowance c hc pid) (hdone ▸ hle))
      · have hne : u ≠ t := by
          rintro rfl
          exact hu.elim hlive hnot
        rw [← hothers u hne] at hu
        exact .inr ⟨u, hu.imp_right fun howes => howes.mono (hframe u hne).grows.waves⟩

/-- A step that leaves the tables. -/
theorem Inv.move (h : Inv zid s) (hdb : s'.db = s.db) (hnext : s'.nextWave = s.nextWave)
    (hthreads : s'.threads = update s.threads t thread)
    (hholder : ∀ u, u ≠ t → ∀ l, s'.holder l = some u ↔ s.holder l = some u)
    (hok : ThreadOk zid s.db s'.holder t thread)
    (hgo : thread = .failed ∨ (s.threads t ≠ .failed ∧ thread.mints.map (·.1) = (s.threads t).mints.map (·.1) ∧
      ∀ c ∈ s.db.waves, ∀ pid, s.db.Promised c pid → (s.threads t).Owes s.db c pid →
        (s.db.held c.id pid).length = c.invites_per_user ∨ thread.Owes s.db c pid)) :
    Inv zid s' := by
  have hself : s'.threads t = thread := by rw [hthreads, update_self]
  have hgrows : Grows s.db s'.db := by
    rw [hdb]
    exact ⟨fun w hw => hw, fun i hi pid hp => ⟨i, hi, rfl, rfl, hp⟩⟩
  refine h.change (t := t) (hdb ▸ h.legal) (hdb ▸ h.home) (hdb ▸ h.ids) (hdb ▸ h.sizes) (hdb ▸ hnext ▸ h.below)
    (fun u hu => by rw [hthreads, update_of_ne hu]) (fun u hu => ⟨hgrows, ?_, hholder u hu, ?_, ?_, ?_⟩) ?_
    (fun w hw => ?_) (fun w hw => ?_) (fun c hc pid hp => ?_)
  · rw [hdb]
    exact fun i hi => ⟨i, hi, rfl, rfl, rfl⟩
  · rw [hdb]
    exact fun _ _ _ => rfl
  · rw [hdb]
    exact fun _ _ => rfl
  · rw [hdb]
  · rw [hself, hdb]
    exact hok
  · rw [hself] at hw
    rcases hgo with rfl | ⟨-, hmints, -⟩
    · cases hw
    · obtain ⟨v, hv, hvw⟩ := Option.map_eq_some_iff.1 (hmints.symm.trans (congrArg (Option.map (·.1)) hw))
      exact .inl ⟨v, hv, congrArg Wave.id hvw⟩
  · rw [hself, hdb]
    rw [hdb] at hw
    rcases hgo with hfailed | ⟨hlive, hmints, -⟩
    · exact .inr (.inl hfailed)
    · by_cases hmine : ∃ v ∈ (s.threads t).mints, v.1.id = w.id
      · obtain ⟨v, hv, hid⟩ := hmine
        obtain ⟨v', hv', hvw⟩ := Option.map_eq_some_iff.1 (hmints.trans (congrArg (Option.map (·.1)) hv))
        exact .inr (.inr (.inl ⟨v', hv', (congrArg Wave.id hvw).trans hid⟩))
      · exact .inr (.inr (.inr ⟨hw, rfl, hlive, fun v hv hid => hmine ⟨v, hv, hid⟩⟩))
  · rw [hself, hdb]
    rw [hdb] at hc hp
    rcases hgo with hfailed | ⟨hlive, -, hdebts⟩
    · exact .inr (.inl hfailed)
    · by_cases howes : (s.threads t).Owes s.db c pid
      · exact (hdebts c hc pid hp howes).imp_right fun howes => .inr (.inl howes)
      · exact .inr (.inr (.inr ⟨hc, hp, le_refl _, hlive, howes⟩))

theorem release_holder (hu : u ≠ t) (l : ℕ × ℤ) : (s.release t).holder l = some u ↔ s.holder l = some u := by
  simp only [State.release]
  split
  · next ht =>
      rw [ht]
      exact ⟨nofun, fun heq => absurd (Option.some.inj heq).symm hu⟩
  · exact Iff.rfl

theorem Inv.fail (h : Inv zid s) : Inv zid (s.fail t) :=
  h.move rfl rfl rfl (fun _ hu l => release_holder hu l) trivial (.inl rfl)

/-- A request goes on after a read. -/
theorem Inv.turn (h : Inv zid s) {old : Thread} (hold : s.threads t = old) (hlive : old ≠ .failed)
    (hok : ThreadOk zid s.db s.holder t thread) (hmints : thread.mints.map (·.1) = old.mints.map (·.1))
    (hdebts : ∀ c ∈ s.db.waves, ∀ pid, s.db.Promised c pid → old.Owes s.db c pid →
      (s.db.held c.id pid).length = c.invites_per_user ∨ thread.Owes s.db c pid) :
    Inv zid (s.setThread t thread) := by
  subst hold
  exact h.move rfl rfl rfl (fun _ _ _ => Iff.rfl) hok (.inr ⟨hlive, hmints, hdebts⟩)

/-! ## A wave is created -/

/-- Nobody came by a code of the wave zero. -/
theorem not_promised_root (h : Legal db) (hroot : w.parent_wave = 0) : ¬db.Promised w pid := by
  rintro ⟨parent, hparent, hnumber, -⟩
  exact (find?_wave (h.numbers _) hparent).1 (hnumber.trans hroot)

/-- How the creation of a wave goes on, with the codes for nobody that are there. -/
structure Goes (zid : ℤ) (db : Tables) (w : Wave) (thread : Thread) : Prop where
  ok : ∀ holder t, ThreadOk zid db holder t thread
  made : ∀ n ∈ thread.mints, n.1 = w
  done : thread.mints = none → (freeIn db.invites w.id).length = w.free
  owes : ∀ pid, db.Promised w pid → w.invites_per_user = 0 ∨ thread.Owes db w pid

theorem Goes.minting {left : ℕ} (hw : w ∈ db.wavesOf zid) (hkind : kind = .roots → w.parent_wave = 0)
    (hn : ∀ n ∈ (Thread.minting w kind left 0).mints, (freeIn db.invites w.id).length + n.2 = w.free) :
    Goes zid db w (.minting w kind left 0) := by
  refine ⟨fun _ _ => ⟨hw, hkind, hn⟩, fun n hmem => ?_, fun hnone => ?_, fun _ _ => .inr (.inr rfl)⟩
  · cases kind <;> (cases hmem; rfl)
  · cases kind <;> cases hnone

theorem Goes.perUser (hw : w ∈ db.wavesOf zid)
    (hfree : (freeIn db.invites w.id).length = w.owner_invites) : Goes zid db w (perUser w) := by
  rcases perUser_cases w with ⟨heq, hzero⟩ | ⟨n, heq, hroot, hn⟩ | ⟨heq, hroot⟩
  · rw [heq]
    refine ⟨fun _ _ => trivial, by rintro _ ⟨⟩, fun _ => ?_, fun _ _ => .inl hzero⟩
    rw [hfree, Wave.free, hzero, ite_self, Nat.add_zero]
  · rw [heq]
    refine Goes.minting hw (fun _ => hroot) fun m hm => ?_
    cases hm
    rw [hfree, Wave.free, if_pos hroot, hn]
  · rw [heq]
    refine ⟨fun _ _ => ⟨hw, hroot⟩, by rintro _ ⟨⟩, fun _ => ?_, fun _ _ => .inr (.inr rfl)⟩
    rw [hfree, Wave.free, if_neg hroot, Nat.add_zero]

theorem Goes.startOwners (hw : w ∈ db.wavesOf zid)
    (hfree : (freeIn db.invites w.id).length = 0) : Goes zid db w (startOwners w) := by
  unfold Node.startOwners
  split
  · next howner => exact Goes.perUser hw (hfree.trans howner.symm)
  · next n howner =>
      refine Goes.minting hw (fun hkind => (nomatch hkind)) fun m hm => ?_
      cases hm
      rw [hfree, Wave.free, howner, Nat.zero_add]

/-- What follows an insert of a code for nobody. -/
theorem Goes.nextMint (attempt : ℕ) (hlegal : Legal db) {left : ℕ} (hw : w ∈ db.wavesOf zid)
    (hkind : kind = .roots → w.parent_wave = 0)
    (hn : ∀ n ∈ (Thread.minting w kind left attempt).mints, (freeIn db.invites w.id).length + n.2 = w.free + 1) :
    Goes zid db w (nextMint w kind left) := by
  cases left with
  | succ left =>
    refine Goes.minting hw hkind fun n hmem => ?_
    cases kind with
    | owners | roots =>
      have heq := hn _ rfl
      cases hmem
      dsimp only at heq ⊢
      omega
  | zero =>
    have heq := hn
    cases kind with
    | owners =>
      refine Goes.perUser hw ?_
      have heq := hn _ rfl
      dsimp only [Wave.free] at heq
      omega
    | roots =>
      refine ⟨fun _ _ => trivial, fun n hn => (nomatch hn), fun _ => ?_, fun pid hp => ?_⟩
      · have heq := hn _ rfl
        dsimp only at heq
        omega
      · exact absurd hp (not_promised_root hlegal (hkind rfl))

/-- The insert of a wave has the next number. -/
theorem acceptsWave_spec (h : Legal s.db) {wave size : ℕ} (hone : 1 ≤ wave)
    (hle : wave ≤ (s.db.wavesOf zid).length + 1) (haccepts : acceptsWave s.db zid f wave parent size = true) :
    0 ≤ parent ∧ wave = (s.db.wavesOf zid).length + 1 := by
  simp only [acceptsWave, Bool.and_eq_true, decide_eq_true_eq, all_eq_true] at haccepts
  obtain ⟨⟨⟨⟨⟨⟨⟨hparent, -⟩, -⟩, -⟩, -⟩, -⟩, -⟩, hfresh⟩ := haccepts
  refine ⟨hparent, ?_⟩
  by_contra hne
  have hmem : wave ∈ (s.db.wavesOf zid).map (·.wave) := by
    rw [h.numbers, mem_range'_1]
    omega
  obtain ⟨v, hv, rfl⟩ := mem_map.1 hmem
  exact hfresh v hv rfl

/-- A wave that has just come promises nothing by its own codes. -/
theorem promised_addWave (h : Legal db) (hid : ∀ v ∈ db.waves, v.id ≠ w.id) (hp : (db.addWave w).Promised c pid) :
    db.Promised c pid := by
  obtain ⟨parent, hparent, hnumber, i, hi, hused⟩ := hp
  rw [wavesOf_addWave] at hparent
  rcases mem_append.1 hparent with hparent | hparent
  · exact ⟨parent, hparent, hnumber, i, hi, hused⟩
  · have hpw : parent = w := by
      split at hparent
      · exact mem_singleton.1 hparent
      · cases hparent
    rw [hpw] at hi
    exact absurd (mem_codes.1 hi).2 (h.codes_fresh hid i (mem_codes.1 hi).1)

theorem Inv.addWave (h : Inv zid s) (hzid : w.zid = zid) (hid : w.id = s.nextWave)
    (hnumber : w.wave = (s.db.wavesOf zid).length + 1) (hparent : w.parent_wave < w.wave)
    (hsize : ∃ size, w.size = some size ∧ s.db.newCapacity w ≤ size) (hold : (s.threads t).mints = none)
    (howes : ∀ c pid, ¬(s.threads t).Owes s.db c pid) (hlive : s.threads t ≠ .failed) :
    Inv zid ((s.addWave w).setThread t (startOwners w)) := by
  have hfresh : ∀ v ∈ s.db.waves, v.id ≠ w.id := fun v hv => hid ▸ Nat.ne_of_lt (h.below v hv)
  have hnumber' : w.wave = (s.db.wavesOf w.zid).length + 1 := hzid ▸ hnumber
  have hlegal : Legal (s.db.addWave w) := h.legal.addWave hnumber' hparent hfresh
  obtain ⟨hreserved, hnew⟩ := h.legal.reserved_addWave hnumber' hparent hfresh
  have hcases : ∀ v ∈ (s.db.addWave w).waves, v ∈ s.db.waves ∨ v = w := fun v hv => by
    simpa [Tables.addWave] using hv
  have hmem : w ∈ (s.db.addWave w).wavesOf zid :=
    mem_wavesOf.2 ⟨mem_append_right _ (mem_singleton_self w), hzid⟩
  have hnone : (freeIn (s.db.addWave w).invites w.id).length = 0 := by
    refine length_eq_zero_iff.2 (filter_eq_nil_iff.2 fun i hi heq => ?_)
    exact h.legal.codes_fresh hfresh i hi (of_decide_eq_true heq).1
  have hgoes := Goes.startOwners hmem hnone
  have hself : ((s.addWave w).setThread t (startOwners w)).threads t = startOwners w := update_self ..
  refine h.change (t := t) hlegal (fun v hv => ?_) h.ids
    (fun v hv => ?_) (fun v hv => ?_) (fun u hu => update_of_ne hu ..) (fun u hu => ?_) ?_ (fun n hn => ?_)
    (fun v hv => ?_) (fun c hc pid hp => ?_)
  · rcases hcases v hv with hv | rfl
    · exact h.home v hv
    · exact hzid
  · rcases hcases v hv with hv | rfl
    · obtain ⟨size, hsize, hle⟩ := h.sizes v hv
      exact ⟨size, hsize, (hreserved v hv).trans_le hle⟩
    · obtain ⟨size, hsize, hle⟩ := hsize
      exact ⟨size, hsize, hnew.trans_le hle⟩
  · rcases hcases v hv with hv | rfl
    · exact lt_succ_of_lt (h.below v hv)
    · exact hid ▸ lt_succ_self _
  · refine ⟨⟨fun v hv => mem_append_left _ hv, fun i hi pid hp => ⟨i, hi, rfl, rfl, hp⟩⟩,
      fun i hi => ⟨i, hi, rfl, rfl, rfl⟩, fun _ => Iff.rfl, fun _ _ _ => rfl, fun _ _ => rfl, ?_⟩
    change _ ≤ ((s.db.addWave w).wavesOf zid).length
    rw [wavesOf_addWave, length_append]
    exact le_add_right _ _
  · rw [hself]
    exact hgoes.ok _ _
  · rw [hself] at hn
    rw [hgoes.made n hn]
    exact .inr hfresh
  · rw [hself]
    rcases hcases v hv with hv | rfl
    · refine .inr (.inr (.inr ⟨hv, rfl, hlive, fun n hn => ?_⟩))
      rw [hold] at hn
      cases hn
    · cases hmints : (startOwners v).mints with
      | none => exact .inl (hgoes.done hmints)
      | some n => exact .inr (.inr (.inl ⟨n, rfl, congrArg Wave.id (hgoes.made n hmints)⟩))
  · rw [hself]
    rcases hcases c hc with hc' | rfl
    · exact .inr (.inr (.inr ⟨hc', promised_addWave h.legal hfresh hp, le_refl _, hlive, howes c pid⟩))
    · rcases hgoes.owes pid hp with hzero | howes
      · exact .inl (le_antisymm (hlegal.allowance c hc pid) (hzero ▸ zero_le _))
      · exact .inr (.inr (.inl howes))

/-! ## Codes are inserted -/

section AddInvites

variable {rows : List Invite}

theorem grows_addInvites : Grows s.db (s.addInvites rows).db :=
  ⟨fun _ hw => hw, fun i hi _ hp => ⟨i, mem_append_left _ hi, rfl, rfl, hp⟩⟩

theorem held_addInvites (wave : ℕ) (pid : ℤ) : ((s.addInvites rows).db.held wave pid).length =
    (s.db.held wave pid).length + (heldIn rows wave pid).length := by
  rw [← length_append]
  exact congrArg List.length (filter_append ..)

theorem free_addInvites (wave : ℕ) : (freeIn (s.addInvites rows).db.invites wave).length =
    (freeIn s.db.invites wave).length + (freeIn rows wave).length := by
  rw [← length_append]
  exact congrArg List.length (filter_append ..)

/-- Codes that nobody has used promise nothing. -/
theorem promised_addInvites (hunused : ∀ i ∈ rows, i.invite_used_by_pid = none)
    (hp : (s.addInvites rows).db.Promised c pid) : s.db.Promised c pid := by
  obtain ⟨parent, hparent, hnumber, i, hi, hused⟩ := hp
  obtain ⟨hmem, hid⟩ := mem_codes.1 hi
  rcases mem_append.1 hmem with hmem | hmem
  · exact ⟨parent, hparent, hnumber, i, mem_codes.2 ⟨hmem, hid⟩, hused⟩
  · cases (hunused i hmem).symm.trans hused

theorem accepts_ids {i j : Invite} (h : accepts db i = true) (hj : j ∈ db.invites) : j.id ≠ i.id := by
  have hj := all_eq_true.1 h j hj
  simp only [Bool.and_eq_true, decide_eq_true_eq] at hj
  exact hj.1

theorem ids_addInvites (hids : (s.db.invites.map (·.id)).Nodup) (hrows : (rows.map (·.id)).Nodup)
    (haccepts : ∀ i ∈ rows, accepts s.db i = true) : ((s.addInvites rows).db.invites.map (·.id)).Nodup := by
  rw [State.addInvites, map_append, nodup_append]
  refine ⟨hids, hrows, fun a ha b hb => ?_⟩
  obtain ⟨j, hj, rfl⟩ := mem_map.1 ha
  obtain ⟨i, hi, rfl⟩ := mem_map.1 hb
  exact accepts_ids (haccepts i hi) hj

end AddInvites

theorem Inv.mint (h : Inv zid s) (hth : s.threads t = .minting w kind left attempt)
    {i : Invite} (hi : i.zid = zid ∧ i.wave_id = w.id ∧ i.invite_owner_pid = none ∧ i.invite_used_by_pid = none)
    (haccepts : accepts s.db i = true) : Inv zid ((s.addInvites [i]).setThread t (nextMint w kind left)) := by
  obtain ⟨hiz, hiw, hiowner, hiused⟩ := hi
  have hok := h.threads t
  rw [hth] at hok
  obtain ⟨hw, hkind, hn⟩ := hok
  have hmem := (mem_wavesOf.1 hw).1
  have heq : ∀ v ∈ s.db.waves, v.id = w.id → v = w := fun v hv hid =>
    inj_on_of_nodup_map h.legal.ids hv hmem hid
  have hheld : ∀ wave pid, (heldIn [i] wave pid).length = 0 := by
    intro wave pid
    simp [heldIn, hiowner]
  have hone : (freeIn [i] w.id).length = 1 := by simp [freeIn, hiowner, hiw]
  have hzero : ∀ wave, wave ≠ w.id → (freeIn [i] wave).length = 0 := by
    intro wave hne
    simp [freeIn, hiw, hne.symm]
  have hleft : ∀ n ∈ (Thread.minting w kind left attempt).mints, 1 ≤ n.2 ∧ n.1 = w := by
    intro n hn
    cases kind <;> (cases hn; exact ⟨by omega, rfl⟩)
  obtain ⟨n, hn'⟩ : ∃ n, n ∈ (Thread.minting w kind left attempt).mints := by
    cases kind <;> exact ⟨_, rfl⟩
  have hlegal : Legal (s.addInvites [i]).db := by
    refine h.legal.addInvites (fun j hj => ?_) (fun j hj => ?_) (fun j hj pid hp => ?_) (fun v hv pid => ?_)
      (fun v hv => ?_)
    · rw [mem_singleton.1 hj]
      exact ⟨w, hmem, hiw.symm, (mem_wavesOf.1 hw).2.trans hiz.symm⟩
    · rw [mem_singleton.1 hj]
      exact hiused
    · rw [mem_singleton.1 hj, hiowner] at hp
      cases hp
    · rw [hheld, Nat.add_zero]
      exact h.legal.allowance v hv pid
    · by_cases hid : v.id = w.id
      · rw [hid, hone, heq v hv hid]
        have hsum := hn n hn'
        have hpos := (hleft n hn').1
        omega
      · rw [hzero _ hid, Nat.add_zero]
        exact h.legal.freeIn_le hv
  have hgoes : Goes zid (s.addInvites [i]).db w (nextMint w kind left) := by
    refine Goes.nextMint attempt hlegal hw hkind fun m hm => ?_
    rw [free_addInvites, hone, ← hn m hm]
    omega
  have hself : ((s.addInvites [i]).setThread t (nextMint w kind left)).threads t = nextMint w kind left :=
    update_self ..
  have howes : ∀ pid, (s.db.held w.id pid).length = ((s.addInvites [i]).db.held w.id pid).length := fun pid => by
    rw [held_addInvites, hheld, Nat.add_zero]
  refine h.change (t := t) hlegal h.home
    (ids_addInvites h.ids (nodup_singleton _) fun j hj => mem_singleton.1 hj ▸ haccepts) h.sizes h.below
    (fun u hu => update_of_ne hu ..) (fun u hu => ?_) ?_ (fun n hn => ?_) (fun v hv => ?_)
    (fun c hc pid hp => ?_)
  · refine ⟨grows_addInvites, fun j hj => ⟨j, mem_append_left _ hj, rfl, rfl, rfl⟩, fun _ => Iff.rfl,
      fun wave pid _ => ?_, fun v hv => ?_, le_refl _⟩
    · exact (held_addInvites wave pid).trans (by rw [hheld, Nat.add_zero])
    · -- no other request makes the wave
      have hne : v.1.id ≠ w.id := fun hid => hu (h.makers u t v n hv (hth ▸ hn') (hid.trans (by rw [(hleft n hn').2])))
      exact (free_addInvites _).trans (by rw [hzero _ hne, Nat.add_zero])
  · rw [hself]
    exact hgoes.ok _ _
  · rw [hself] at hn
    refine .inl ⟨_, hth ▸ hn', ?_⟩
    rw [hgoes.made _ hn, (hleft _ hn').2]
  · rw [hself]
    by_cases hid : v.id = w.id
    · rw [heq v hv hid]
      cases hmints : (nextMint w kind left).mints with
      | none => exact .inl (hgoes.done hmints)
      | some m => exact .inr (.inr (.inl ⟨m, rfl, congrArg Wave.id (hgoes.made m hmints)⟩))
    · refine .inr (.inr (.inr ⟨hv, ?_, by rw [hth]; rintro ⟨⟩, fun m hm hmid => hid ?_⟩))
      · exact (free_addInvites _).trans (by rw [hzero _ hid, Nat.add_zero])
      · rw [hth] at hm
        rw [← hmid, (hleft m hm).2]
  · rw [hself]
    have hpold : s.db.Promised c pid :=
      promised_addInvites (fun j hj => mem_singleton.1 hj ▸ hiused) hp
    by_cases hid : c.id = w.id
    · rw [heq c hc hid] at hp ⊢
      rcases hgoes.owes pid hp with hzero' | howes
      · exact .inl (le_antisymm (hlegal.allowance w hmem pid) (hzero' ▸ zero_le _))
      · exact .inr (.inr (.inl howes))
    · refine .inr (.inr (.inr ⟨hc, hpold, ?_, by rw [hth]; rintro ⟨⟩, ?_⟩))
      · exact le_trans (le_add_right _ _) (held_addInvites _ _).ge
      · rw [hth]
        rintro (⟨j, hj, -⟩ | hintends)
        · cases hj
        · exact hid hintends.symm

/-- The commit brings the member up to the number. -/
theorem Inv.commit (h : Inv zid s) {rows : List Invite}
    (hth : s.threads t = .committing after job rest rows) (haccepts : rows.all (accepts s.db) = true) :
    Inv zid (((s.addInvites rows).release t).setThread t (issue after rest)) := by
  have hok := h.threads t
  rw [hth] at hok
  obtain ⟨hjobs, hholder, hrows, hsum⟩ := hok
  obtain ⟨w, hw, hwid, hwz, hamount, hpromised⟩ := hjobs job mem_cons_self
  have heq : ∀ v ∈ s.db.waves, v.id = job.wave → v = w := fun v hv hid =>
    inj_on_of_nodup_map h.legal.ids hv hw (hid.trans hwid.symm)
  have hmine : heldIn rows job.wave job.pid = rows := by
    refine filter_eq_self.2 fun i hi => ?_
    obtain ⟨-, hiw, hiowner, -⟩ := hrows.row i hi
    simp [hiw, hiowner]
  have hheld : ∀ wave pid, ¬(wave = job.wave ∧ pid = job.pid) → (heldIn rows wave pid).length = 0 := by
    intro wave pid hne
    refine length_eq_zero_iff.2 (filter_eq_nil_iff.2 fun i hi hmem => hne ?_)
    obtain ⟨-, hiw, hiowner, -⟩ := hrows.row i hi
    obtain ⟨hwave, hpid⟩ := of_decide_eq_true hmem
    exact ⟨hwave.symm.trans hiw, Option.some.inj (hpid.symm.trans hiowner)⟩
  have hfree : ∀ wave, (freeIn rows wave).length = 0 := by
    intro wave
    refine length_eq_zero_iff.2 (filter_eq_nil_iff.2 fun i hi hmem => ?_)
    obtain ⟨-, -, hiowner, -⟩ := hrows.row i hi
    cases (of_decide_eq_true hmem).2.symm.trans hiowner
  have hlegal : Legal (s.addInvites rows).db := by
    refine h.legal.addInvites (fun i hi => ?_) (fun i hi => (hrows.row i hi).2.2.2) (fun i hi pid hp => ?_)
      (fun v hv pid => ?_) (fun v hv => ?_)
    · obtain ⟨hiz, hiw, -, -⟩ := hrows.row i hi
      exact ⟨w, hw, hwid.trans hiw.symm, hwz.trans hiz.symm⟩
    · obtain ⟨-, hiw, hiowner, -⟩ := hrows.row i hi
      cases hiowner.symm.trans hp
      exact ⟨w, hw, hwid.trans hiw.symm, hpromised⟩
    · by_cases hjob : v.id = job.wave ∧ pid = job.pid
      · rw [hjob.1, hjob.2, hmine, hsum, heq v hv hjob.1, hamount]
      · rw [hheld _ _ hjob, Nat.add_zero]
        exact h.legal.allowance v hv pid
    · rw [hfree, Nat.add_zero]
      exact h.legal.freeIn_le hv
  have hself : (((s.addInvites rows).release t).setThread t (issue after rest)).threads t = issue after rest :=
    update_self ..
  refine h.change (t := t) hlegal h.home
    (ids_addInvites h.ids hrows.ids fun i hi => all_eq_true.1 haccepts i hi) h.sizes h.below
    (fun u hu => update_of_ne hu ..) (fun u hu => ?_) ?_ (fun n hn => ?_) (fun v hv => ?_)
    (fun c hc pid hp => ?_)
  · refine ⟨grows_addInvites, fun i hi => ⟨i, mem_append_left _ hi, rfl, rfl, rfl⟩,
      fun l => release_holder (s := s) hu l, fun wave pid hl => ?_, fun v _ => ?_, le_refl _⟩
    · -- the lock of the member is not another request's
      have hne : ¬(wave = job.wave ∧ pid = job.pid) := by
        rintro ⟨rfl, rfl⟩
        exact hu (Option.some.inj (hl.symm.trans hholder))
      exact (held_addInvites wave pid).trans (by rw [hheld _ _ hne, Nat.add_zero])
    · exact (free_addInvites _).trans (by rw [hfree, Nat.add_zero])
  · rw [hself]
    cases rest with
    | nil => cases after <;> trivial
    | cons next rest =>
      intro j hj
      obtain ⟨v, hv, hid, hz, ham, hp⟩ := hjobs j (mem_cons_of_mem _ hj)
      exact ⟨v, hv, hid, hz, ham, grows_addInvites.promised hp⟩
  · rw [hself, issue_mints] at hn
    cases hn
  · refine .inr (.inr (.inr ⟨hv, ?_, by rw [hth]; exact nofun, fun n hn => ?_⟩))
    · exact (free_addInvites _).trans (by rw [hfree, Nat.add_zero])
    · rw [hth] at hn
      cases hn
  · rw [hself]
    by_cases hjob : c.id = job.wave ∧ pid = job.pid
    · refine .inl ((held_addInvites _ _).trans ?_)
      rw [hjob.1, hjob.2, hmine, hsum, heq c hc hjob.1, hamount]
    · by_cases hrest : ∃ j ∈ rest, j.wave = c.id ∧ j.pid = pid
      · refine .inr (.inr (.inl (.inl ?_)))
        rw [issue_jobs]
        exact hrest
      · refine .inr (.inr (.inr ⟨hc, promised_addInvites (fun i hi => (hrows.row i hi).2.2.2) hp, ?_,
          by rw [hth]; exact nofun, ?_⟩))
        · exact le_trans (le_add_right _ _) (held_addInvites _ _).ge
        · rw [hth]
          rintro (⟨j, hj, hwave, hpid⟩ | hintends)
          · rcases mem_cons.1 hj with rfl | hj
            · exact hjob ⟨hwave.symm, hpid.symm⟩
            · exact hrest ⟨j, hj, hwave, hpid⟩
          · exact hintends

/-! ## A code is marked -/

/-- What an acceptance makes of a promise: it was one before, or the code that is marked is of the parent. -/
theorem promised_accept {invite : ℕ} {p : ℤ} (hp : (db.accept invite (some p)).Promised c pid) :
    db.Promised c pid ∨ (p = pid ∧ ∃ v ∈ db.wavesOf c.zid, v.wave = c.parent_wave ∧
      ∃ i ∈ db.invites, i.id = invite ∧ i.wave_id = v.id) := by
  obtain ⟨parent, hparent, hnumber, i, hi, hused⟩ := hp
  obtain ⟨hmem, hid⟩ := mem_codes.1 hi
  obtain ⟨j, hj, rfl⟩ := mem_accept.1 hmem
  have hwave := accepted_same.1.symm.trans hid
  by_cases hmarked : j.id = invite ∧ j.status = 0
  · rw [Invite.accepted, if_pos hmarked] at hused
    exact .inr ⟨Option.some.inj hused, parent, hparent, hnumber, j, hj, hmarked.1, hwave⟩
  · rw [Invite.accepted, if_neg hmarked] at hused
    exact .inl ⟨parent, hparent, hnumber, j, mem_codes.2 ⟨hj, hwave⟩, hused⟩

theorem Inv.mark (h : Inv zid s) (hth : s.threads t = .marking invite pid)
    (hfound : (s.db.invites.any fun i => i.id = invite.id ∧ i.status = 0) = true) :
    Inv zid (({ s with db := s.db.accept invite.id (some pid) } : State).setThread t (.login invite pid)) := by
  have hok := h.threads t
  rw [hth] at hok
  obtain ⟨i, hi, hid, hiz, hiw⟩ := hok
  obtain ⟨i', hi', hfound⟩ := any_eq_true.1 hfound
  obtain ⟨hid', hstatus⟩ := of_decide_eq_true hfound
  obtain rfl : i' = i := inj_on_of_nodup_map h.ids hi' hi (hid'.trans hid.symm)
  have hlegal : Legal (s.db.accept invite.id (some pid)) := h.legal.accept
  have hheld : ∀ wave p, ((s.db.accept invite.id (some pid)).held wave p).length = (s.db.held wave p).length :=
    fun wave p => length_filter_accept fun i => by rw [accepted_same.1, accepted_same.2.2]
  have hfree : ∀ wave, (freeIn (s.db.accept invite.id (some pid)).invites wave).length =
      (freeIn s.db.invites wave).length :=
    fun wave => length_filter_accept fun i => by rw [accepted_same.1, accepted_same.2.2]
  have hkeys : ∀ j : Invite, (j.accepted invite.id (some pid)).id = j.id := by
    intro j
    unfold Invite.accepted
    split <;> rfl
  have hself : (({ s with db := s.db.accept invite.id (some pid) } : State).setThread t (.login invite pid)).threads t =
      .login invite pid := update_self ..
  refine h.change (t := t) hlegal h.home ?_ h.sizes h.below (fun u hu => update_of_ne hu ..) (fun u hu => ?_) ?_
    (fun n hn => ?_) (fun v hv => ?_) (fun c hc p hp => ?_)
  · change ((s.db.invites.map fun j => j.accepted invite.id (some pid)).map (·.id)).Nodup
    rw [map_map]
    exact (map_congr_left fun j _ => hkeys j) ▸ h.ids
  · refine ⟨h.legal.grows_accept, fun j hj => ?_, fun _ => Iff.rfl, fun wave p _ => hheld wave p,
      fun v _ => hfree v.1.id, le_refl _⟩
    exact ⟨_, mem_accept.2 ⟨j, hj, rfl⟩, hkeys j, accepted_same.2.1, accepted_same.1⟩
  · rw [hself]
    refine ⟨_, mem_accept.2 ⟨i', hi', rfl⟩, accepted_same.1.trans hiw, accepted_same.2.1.trans hiz, ?_⟩
    rw [Invite.accepted, if_pos ⟨hid', hstatus⟩]
  · rw [hself] at hn
    cases hn
  · refine .inr (.inr (.inr ⟨hv, hfree v.id, by rw [hth]; rintro ⟨⟩, fun n hn => ?_⟩))
    rw [hth] at hn
    cases hn
  · rw [hself]
    rcases promised_accept hp with hp | ⟨rfl, v, hv, hnumber, j, hj, hjid, hjw⟩
    · refine .inr (.inr (.inr ⟨hc, hp, (hheld _ _).ge, by rw [hth]; rintro ⟨⟩, ?_⟩))
      rw [hth]
      rintro (⟨j, hj, -⟩ | hintends)
      · cases hj
      · exact hintends
    · obtain rfl : j = i' := inj_on_of_nodup_map h.ids hj hi' (hjid.trans hid'.symm)
      obtain ⟨hvmem, hvz⟩ := mem_wavesOf.1 hv
      exact .inr (.inr (.inl (.inr ⟨rfl, v, hvmem, hjw.symm.trans hiw, hvz, hnumber⟩)))

/-! ## Every statement keeps the invariant -/

/-- The sequence of the codes is of no account. -/
theorem Inv.nextInvite (h : Inv zid s) (n : ℕ) : Inv zid { s with nextInvite := n } :=
  { h with }

/-- The parent of a wave is there. -/
theorem exists_parent (h : Inv zid s) (hw : w ∈ s.db.wavesOf zid) (hroot : w.parent_wave ≠ 0) :
    ∃ v ∈ s.db.wavesOf zid, v.wave = w.parent_wave := by
  have hmem : w.wave ∈ (s.db.wavesOf zid).map (·.wave) := mem_map_of_mem hw
  rw [h.legal.numbers, mem_range'_1] at hmem
  have hlt := h.legal.parent w (mem_wavesOf.1 hw).1
  have hparent : w.parent_wave ∈ (s.db.wavesOf zid).map (·.wave) := by
    rw [h.legal.numbers, mem_range'_1]
    omega
  obtain ⟨v, hv, hnumber⟩ := mem_map.1 hparent
  exact ⟨v, hv, hnumber⟩

theorem max_wave_le (h : Legal db) : ((db.wavesOf zid).map (·.wave)).max?.getD 0 ≤ (db.wavesOf zid).length := by
  cases hmax : ((db.wavesOf zid).map (·.wave)).max? with
  | none => exact zero_le _
  | some n =>
    have hmem := max?_mem hmax
    rw [h.numbers, mem_range'_1] at hmem
    rw [Option.getD_some]
    omega

/-- The capacity of the parent is within the size that was read of it. -/
theorem capacity_le (h : Inv zid s) {parentSize : ℕ} (hnonneg : 0 ≤ parent)
    (hroot : parent ≤ 0 → 1 ≤ parentSize)
    (hparent : 0 < parent → ∃ v ∈ s.db.wavesOf zid, (v.wave : ℤ) = parent ∧ v.size.getD 0 ≤ parentSize) :
    capacity (s.db.wavesOf zid) parent.toNat ≤ parentSize := by
  rcases Int.lt_or_eq_of_le hnonneg with hpos | rfl
  · obtain ⟨v, hv, rfl, hle⟩ := hparent hpos
    obtain ⟨hmem, hz⟩ := mem_wavesOf.1 hv
    obtain ⟨size, hsize, hreserved⟩ := h.sizes v hmem
    rw [hsize, Option.getD_some] at hle
    rw [Tables.reserved, hz] at hreserved
    exact hreserved.trans hle
  · rw [Int.toNat_zero, capacity, if_pos rfl]
    exact hroot (Int.le_refl _)

variable {code : String} {participant : ℤ}

section

variable (h : Inv zid s)
include h

/-- A request that owes nothing goes on after a read. -/
theorem Inv.turn_free {old : Thread} (hold : s.threads t = old) (hlive : old ≠ .failed)
    (hno : ∀ c pid, ¬old.Owes s.db c pid) (hok : ThreadOk zid s.db s.holder t thread)
    (hmints : thread.mints = old.mints) : Inv zid (s.setThread t thread) :=
  h.turn hold hlive hok (congrArg (Option.map (·.1)) hmints) fun c _ pid _ howes => absurd howes (hno c pid)

theorem Inv.numbering (hth : s.threads t = .numbering f)
    (hrun : run zid s t code participant (.numbering f) = some s') : Inv zid s' := by
  cases hrun
  have hle : ((s.db.wavesOf zid).map (·.wave)).max?.getD 0 ≤ (s.db.wavesOf zid).length := max_wave_le h.legal
  have hno : ∀ c pid, ¬(Thread.numbering f).Owes s.db c pid := fun _ _ => not_owes rfl id
  refine h.turn_free hth nofun hno ?_ ?_
  · split
    · exact ⟨succ_pos _, succ_le_succ hle⟩
    · next hroot =>
        exact ⟨⟨succ_pos _, succ_le_succ hle⟩, fun _ => le_refl _, fun hpos => absurd hpos hroot⟩
  · split <;> rfl

theorem Inv.sizing {wave : ℕ} (hth : s.threads t = .sizing f wave parent)
    (hrun : run zid s t code participant (.sizing f wave parent) = some s') : Inv zid s' := by
  have hok := h.threads t
  rw [hth] at hok
  have hno : ∀ c pid, ¬(Thread.sizing f wave parent).Owes s.db c pid := fun _ _ => not_owes rfl id
  simp only [run] at hrun
  split at hrun
  · cases hrun
    exact h.turn_free hth (by rintro ⟨⟩) hno trivial rfl
  · next v hfind =>
      cases hrun
      have hmem := mem_of_find?_eq_some hfind
      have hnumber : (v.wave : ℤ) = parent := by simpa using find?_some hfind
      exact h.turn_free hth (by rintro ⟨⟩) hno ⟨hok, fun _ => le_max_right _ _,
        fun _ => ⟨v, hmem, hnumber, le_max_left _ _⟩⟩ rfl

theorem Inv.inserting {wave parentSize : ℕ}
    (hth : s.threads t = .inserting f wave parent parentSize)
    (hrun : run zid s t code participant (.inserting f wave parent parentSize) = some s') : Inv zid s' := by
  have hok := h.threads t
  rw [hth] at hok
  obtain ⟨⟨hone, hle⟩, hroot, hparent⟩ := hok
  simp only [run] at hrun
  split at hrun
  · next haccepts =>
      cases hrun
      obtain ⟨hnonneg, hnumber⟩ := acceptsWave_spec h.legal hone hle haccepts
      refine h.addWave rfl rfl hnumber ?_ ⟨_, rfl, ?_⟩ (by rw [hth]; rfl)
        (fun c pid => hth ▸ not_owes rfl id) (by rw [hth]; exact nofun)
      · dsimp only
        rcases Int.lt_or_eq_of_le hnonneg with hpos | rfl
        · obtain ⟨v, hv, rfl, -⟩ := hparent hpos
          have hmem : v.wave ∈ (s.db.wavesOf zid).map (·.wave) := mem_map_of_mem hv
          rw [h.legal.numbers, mem_range'_1] at hmem
          rw [Int.toNat_natCast]
          omega
        · exact hone
      · exact Nat.add_le_add_right (Nat.mul_le_mul_right _ (capacity_le h hnonneg hroot hparent)) _
  · cases hrun
    exact h.fail

theorem Inv.minting (hth : s.threads t = .minting w kind left attempt)
    (hrun : run zid s t code participant (.minting w kind left attempt) = some s') : Inv zid s' := by
  have h' := h.nextInvite (s.nextInvite + 1)
  have hok := h.threads t
  rw [hth] at hok
  simp only [run] at hrun
  split at hrun
  · next haccepts =>
      cases hrun
      exact h'.mint hth ⟨rfl, rfl, rfl, rfl⟩ haccepts
  · split at hrun
    · cases hrun
      refine h'.turn hth nofun ⟨hok.1, hok.2.1, fun n hn => ?_⟩ ?_ fun c _ pid _ howes => .inr howes
      · refine hok.2.2 n ?_
        cases kind <;> exact hn
      · cases kind <;> rfl
    · cases hrun
      exact h'.fail

theorem Inv.finding (hth : s.threads t = .finding w)
    (hrun : run zid s t code participant (.finding w) = some s') : Inv zid s' := by
  have hok := h.threads t
  rw [hth] at hok
  obtain ⟨v, hv, hnumber⟩ := exists_parent h hok.1 hok.2
  simp only [run] at hrun
  split at hrun
  · next hnone => exact absurd hnumber (by simpa using find?_eq_none.1 hnone v hv)
  · next parent hfind =>
      cases hrun
      have hparent : parent.wave = w.parent_wave := by simpa using find?_some hfind
      exact h.turn hth (by rintro ⟨⟩) ⟨hok.1, parent, mem_of_find?_eq_some hfind, hparent, rfl⟩ rfl
        fun c _ pid _ howes => .inr (.inr (howes.resolve_left (by rintro ⟨_, ⟨⟩, _⟩)))

end

/-- The jobs of a request, which it goes on with. -/
theorem issue_ok {holder : ℕ × ℤ → Option ℕ} (after : After) {jobs : List Job} (h : ∀ j ∈ jobs, JobOk db db zid j) :
    ThreadOk zid db holder t (issue after jobs) := by
  cases jobs with
  | nil => cases after <;> trivial
  | cons job rest => exact h

theorem issue_owes (after : After) {jobs : List Job} (h : ∃ j ∈ jobs, j.wave = c.id ∧ j.pid = pid) :
    (issue after jobs).Owes db c pid := by
  refine .inl ?_
  rw [issue_jobs]
  exact h

section

variable (h : Inv zid s)
include h

theorem Inv.members {parentWaveId : ℕ} (hth : s.threads t = .members w parentWaveId)
    (hrun : run zid s t code participant (.members w parentWaveId) = some s') : Inv zid s' := by
  have hok := h.threads t
  rw [hth] at hok
  obtain ⟨hw, v, hv, hnumber, rfl⟩ := hok
  obtain ⟨hmem, hz⟩ := mem_wavesOf.1 hw
  cases hrun
  refine h.turn hth nofun (issue_ok _ fun j hj => ?_) ?_ fun c hc pid hp howes => .inr (issue_owes _ ?_)
  · obtain ⟨i, hi, hj⟩ := mem_filterMap.1 hj
    obtain ⟨p, hused, rfl⟩ := Option.map_eq_some_iff.1 hj
    exact ⟨w, hmem, rfl, hz, rfl, v, hz ▸ hv, hnumber, i, hi, hused⟩
  · rw [issue_mints]
    rfl
  · -- the member used a code of the parent
    have hid : w.id = c.id := howes.resolve_left fun ⟨_, hj, _⟩ => (nomatch hj)
    obtain rfl : w = c := inj_on_of_nodup_map h.legal.ids hmem hc hid
    obtain ⟨v', hv', hnumber', i, hi, hused⟩ := hp
    rw [hz] at hv'
    obtain rfl : v' = v := inj_on_of_nodup_map ((h.legal.numbers zid) ▸ nodup_range' ..) hv' hv
      (hnumber'.trans hnumber.symm)
    exact ⟨_, mem_filterMap.2 ⟨i, hi, by rw [hused]; rfl⟩, rfl, rfl⟩

theorem Inv.locking (hth : s.threads t = .locking after job rest)
    (hrun : run zid s t code participant (.locking after job rest) = some s') : Inv zid s' := by
  have hok := h.threads t
  rw [hth] at hok
  simp only [run] at hrun
  split at hrun
  · next hfree =>
      cases hrun
      refine h.move rfl rfl rfl (fun u hu l => ?_) ⟨hok, update_self ..⟩
        (.inr ⟨by rw [hth]; exact nofun, by rw [hth]; rfl, fun c _ pid _ howes => .inr (by rw [hth] at howes; exact howes)⟩)
      change update s.holder (job.wave, job.pid) (some t) l = some u ↔ _
      by_cases hl : l = (job.wave, job.pid)
      · rw [hl, update_self, hfree]
        exact ⟨fun heq => absurd (Option.some.inj heq).symm hu, nofun⟩
      · rw [update_of_ne hl]
  · cases hrun

theorem Inv.counting (hth : s.threads t = .counting after job rest)
    (hrun : run zid s t code participant (.counting after job rest) = some s') : Inv zid s' := by
  have hok := h.threads t
  rw [hth] at hok
  obtain ⟨hjobs, hholder⟩ := hok
  obtain ⟨w, hw, hid, -, hamount, -⟩ := hjobs job mem_cons_self
  have hle := h.legal.allowance w hw job.pid
  rw [hid, hamount] at hle
  cases hrun
  refine h.turn hth nofun ?_ ?_ fun c _ pid _ howes => .inr ?_
  · cases hmissing : job.amount - (s.db.held job.wave job.pid).length with
    | zero | succ =>
      exact ⟨hjobs, hholder, ⟨fun i hi => (nomatch hi), nodup_nil⟩, by rw [length_nil]; omega⟩
  · rw [(nextFill_jobs ..).2]
    rfl
  · refine .inl ?_
    rw [(nextFill_jobs ..).1]
    exact howes.resolve_right id

theorem Inv.filling
    {rows : List Invite} (hth : s.threads t = .filling after job rest left attempt rows)
    (hrun : run zid s t code participant (.filling after job rest left attempt rows) = some s') : Inv zid s' := by
  have h' := h.nextInvite (s.nextInvite + 1)
  have hok := h.threads t
  rw [hth] at hok
  obtain ⟨hjobs, hholder, hrows, hsum⟩ := hok
  simp only [run] at hrun
  split at hrun
  · next haccepts =>
      cases hrun
      refine h'.turn hth nofun ?_ ?_ fun c _ pid _ howes => .inr ?_
      · have hrows' : RowsOk zid job
            (rows ++ [⟨s.nextInvite, zid, job.wave, some job.parent_invite, code, some job.pid, 0, none⟩]) := by
          refine ⟨fun i hi => ?_, ?_⟩
          · rcases mem_append.1 hi with hi | hi
            · exact hrows.row i hi
            · rw [mem_singleton.1 hi]
              exact ⟨rfl, rfl, rfl, rfl⟩
          · rw [map_append, nodup_append]
            refine ⟨hrows.ids, nodup_singleton _, fun a ha b hb => ?_⟩
            obtain ⟨j, hj, rfl⟩ := mem_map.1 ha
            rw [map_singleton, mem_singleton] at hb
            rw [hb]
            exact accepts_ids haccepts (mem_append_right _ hj)
        cases left with
        | zero => exact ⟨hjobs, hholder, hrows', by rw [length_append, length_singleton]; exact hsum⟩
        | succ left =>
          refine ⟨hjobs, hholder, hrows', ?_⟩
          rw [length_append, length_singleton, ← hsum]
          dsimp only
          omega
      · rw [(nextFill_jobs ..).2]
        rfl
      · refine .inl ?_
        rw [(nextFill_jobs ..).1]
        exact howes.resolve_right id
  · split at hrun
    · cases hrun
      exact h'.turn hth nofun ⟨hjobs, hholder, hrows, hsum⟩ rfl fun c _ pid _ howes => .inr howes
    · cases hrun
      exact h'.fail

theorem Inv.looking {invite_code : String} (hth : s.threads t = .looking invite_code)
    (hrun : run zid s t code participant (.looking invite_code) = some s') : Inv zid s' := by
  have hno : ∀ c pid, ¬(Thread.looking invite_code).Owes s.db c pid := fun _ _ => not_owes rfl id
  simp only [run] at hrun
  split at hrun
  · cases hrun
    exact h.turn_free hth nofun hno trivial rfl
  · next invite hfind =>
      cases hrun
      have hz : invite.zid = zid ∧ invite.invite_code = invite_code ∧ invite.status = 0 := by
        simpa using find?_some hfind
      exact h.turn_free hth nofun hno ⟨invite, mem_of_find?_eq_some hfind, rfl, hz.1, rfl⟩ rfl

theorem Inv.marking (hth : s.threads t = .marking invite pid)
    (hrun : run zid s t code participant (.marking invite pid) = some s') : Inv zid s' := by
  simp only [run] at hrun
  split at hrun
  · next hfound =>
      cases hrun
      exact h.mark hth hfound
  · cases hrun
    exact h.turn_free hth nofun (fun _ _ => not_owes rfl id) trivial rfl

theorem Inv.locating (hth : s.threads t = .locating invite pid)
    (hrun : run zid s t code participant (.locating invite pid) = some s') : Inv zid s' := by
  have hok := h.threads t
  rw [hth] at hok
  obtain ⟨i, hi, hiw, hiz, hused⟩ := hok
  obtain ⟨v, hv, hvid, hvz⟩ := h.legal.wave i hi
  simp only [run] at hrun
  split at hrun
  · next hnone => exact absurd (hvid.trans hiw) (by simpa using find?_eq_none.1 hnone v hv)
  · next w hfind =>
      cases hrun
      have hw := mem_of_find?_eq_some hfind
      have hid : w.id = invite.wave_id := by simpa using find?_some hfind
      refine h.turn hth (by rintro ⟨⟩) ⟨w, mem_wavesOf.2 ⟨hw, h.home w hw⟩, rfl, i, mem_codes.2 ⟨hi, hiw.trans hid.symm⟩,
        hused⟩ rfl fun c _ p _ howes => .inr (.inr ?_)
      obtain ⟨hp, v', hv', hvid', -, hnumber⟩ := howes.resolve_left (by rintro ⟨_, ⟨⟩, _⟩)
      obtain rfl : v' = w := inj_on_of_nodup_map h.legal.ids hv' hw (hvid'.trans hid.symm)
      exact ⟨hp, hnumber⟩

theorem Inv.children {currentWave : ℕ}
    (hth : s.threads t = .children invite pid currentWave)
    (hrun : run zid s t code participant (.children invite pid currentWave) = some s') : Inv zid s' := by
  have hok := h.threads t
  rw [hth] at hok
  obtain ⟨v, hv, hnumber, hused⟩ := hok
  cases hrun
  refine h.turn hth nofun (issue_ok _ fun j hj => ?_) ?_ fun c hc p hp howes => ?_
  · obtain ⟨w, hw, rfl⟩ := mem_map.1 hj
    obtain ⟨hw, hchild⟩ := mem_filter.1 hw
    obtain ⟨hw, hz⟩ := mem_wavesOf.1 hw
    exact ⟨w, hw, rfl, hz, rfl, v, hz ▸ hv, hnumber.trans (of_decide_eq_true hchild).1.symm, hused⟩
  · rw [issue_mints]
    rfl
  · obtain ⟨rfl, hwave⟩ := howes.resolve_left fun ⟨_, hj, _⟩ => (nomatch hj)
    rcases Nat.eq_zero_or_pos c.invites_per_user with hzero | hpos
    · exact .inl (le_antisymm (h.legal.allowance c hc pid) (hzero ▸ zero_le _))
    · refine .inr (issue_owes _ ⟨_, mem_map_of_mem (mem_filter.2 ⟨?_, ?_⟩), rfl, rfl⟩)
      · exact mem_wavesOf.2 ⟨hc, h.home c hc⟩
      · exact decide_eq_true ⟨hwave.symm, hpos⟩

theorem Inv.run (hrun : run zid s t code participant (s.threads t) = some s') : Inv zid s' := by
  generalize hth : s.threads t = thread at hrun
  have hok := h.threads t
  rw [hth] at hok
  cases thread with
  | numbering f => exact h.numbering hth hrun
  | sizing f wave parent => exact h.sizing hth hrun
  | inserting f wave parent parentSize => exact h.inserting hth hrun
  | minting w kind left attempt => exact h.minting hth hrun
  | finding w => exact h.finding hth hrun
  | members w parentWaveId => exact h.members hth hrun
  | locking after job rest => exact h.locking hth hrun
  | counting after job rest => exact h.counting hth hrun
  | filling after job rest left attempt rows => exact h.filling hth hrun
  | committing after job rest rows =>
    simp only [Node.run] at hrun
    split at hrun
    · next haccepts =>
        cases hrun
        exact h.commit hth haccepts
    · cases hrun
  | totalling | answering =>
    cases hrun
    exact h.turn_free hth nofun (fun _ _ => not_owes rfl id) trivial rfl
  | looking invite_code => exact h.looking hth hrun
  | joining invite =>
    cases hrun
    exact h.turn_free hth nofun (fun _ _ => not_owes rfl id) hok rfl
  | marking invite pid => exact h.marking hth hrun
  | login invite pid =>
    cases hrun
    refine h.turn hth nofun hok rfl fun c _ p _ howes => .inr (.inr ?_)
    exact howes.resolve_left fun ⟨_, hj, _⟩ => (nomatch hj)
  | locating invite pid => exact h.locating hth hrun
  | children invite pid currentWave => exact h.children hth hrun
  | idle | created | accepted | refused | failed => cases hrun

theorem Inv.next {e : Event} (hstep : Step zid s e s') : Inv zid s' := by
  cases e with
  | create t moderator f =>
    simp only [Step, Node.next] at hstep
    split at hstep
    · next hidle =>
        have hno : ∀ c pid, ¬Thread.idle.Owes s.db c pid := fun _ _ => not_owes rfl id
        cases moderator with
        | none =>
          cases hstep
          exact h.turn_free hidle nofun hno trivial rfl
        | some allowed =>
          cases allowed with
          | false =>
            cases hstep
            exact h.turn_free hidle nofun hno trivial rfl
          | true =>
            cases hstep
            dsimp only
            split <;> exact h.turn_free hidle nofun hno trivial rfl
    · cases hstep
  | accept t invite_code =>
    simp only [Step, Node.next] at hstep
    split at hstep
    · next hidle =>
        cases hstep
        exact h.turn_free hidle nofun (fun _ _ => not_owes rfl id) trivial rfl
    · cases hstep
  | run t code participant => exact h.run hstep
  | error t code participant applied =>
    simp only [Step, Node.next] at hstep
    split at hstep
    · cases hstep
    · split at hstep
      · obtain ⟨s₁, hrun, rfl⟩ := Option.map_eq_some_iff.1 hstep
        exact (h.run hrun).fail
      · cases hstep
        exact h.fail

end

theorem Inv.start (owner : ℤ → Option ℤ) (uid : ℤ → ℤ → Option ℤ) : Inv zid (start owner uid) := by
  refine ⟨⟨fun _ => rfl, fun _ hw => (nomatch hw), nodup_nil, fun _ hi => (nomatch hi), fun _ hi => (nomatch hi),
    fun _ hw => (nomatch hw), fun _ hw => (nomatch hw), fun _ hw => (nomatch hw)⟩, fun _ hw => (nomatch hw),
    nodup_nil, fun _ hw => (nomatch hw), fun _ hw => (nomatch hw), fun _ => trivial,
    fun _ _ _ _ hw => (nomatch hw), fun _ hw => (nomatch hw), fun _ hc => (nomatch hc)⟩

/-! ## Issuance -/

/-- The request is over, and not by an error. -/
def Thread.isFinished : Thread → Bool
  | .idle | .created _ | .accepted _ | .refused _ => true
  | _ => false

theorem Thread.isFinished_owes (h : thread.isFinished = true) :
    thread ≠ .failed ∧ thread.mints = none ∧ ∀ db c pid, ¬thread.Owes db c pid := by
  cases thread with
  | idle | created r | accepted invite | refused e => exact ⟨nofun, rfl, fun _ _ _ => not_owes rfl id⟩
  | _ => cases h

/-- The codes of members and waves are bounded in every state, and exact when all requests have finished. -/
theorem node_issuance (owner : ℤ → Option ℤ) (uid : ℤ → ℤ → Option ℤ) {es : List Event}
    (hrun : Run (Step zid) (start owner uid) es s) :
    (∀ w ∈ s.db.wavesOf zid, (∀ pid, (s.db.held w.id pid).length ≤ w.invites_per_user) ∧
      ∃ size, w.size = some size ∧ (s.db.codes w.id).length ≤ size) ∧
    ((∀ t, (s.threads t).isFinished = true) →
      (∀ w ∈ s.db.wavesOf zid, ∀ i ∈ s.db.codes w.id, ∀ pid, i.invite_used_by_pid = some pid →
        ∀ c ∈ s.db.wavesOf zid, c.parent_wave = w.wave → (s.db.held c.id pid).length = c.invites_per_user) ∧
      ∀ w ∈ s.db.wavesOf zid, w.parent_wave = 0 →
        (s.db.codes w.id).length = w.invites_per_user + w.owner_invites) := by
  have h : Inv zid s := hrun.keeps (Inv zid) (Inv.start owner uid) fun _ _ _ h hstep => h.next hstep
  refine ⟨fun w hw => ⟨h.legal.allowance w (mem_wavesOf.1 hw).1, ?_⟩, fun hfinished =>
    ⟨fun w hw i hi pid hused c hc hparent => ?_, fun w hw hroot => ?_⟩⟩
  · obtain ⟨size, hsize, hle⟩ := h.sizes w (mem_wavesOf.1 hw).1
    exact ⟨size, hsize, (h.legal.codes_le (mem_wavesOf.1 hw).1).trans hle⟩
  · obtain ⟨hmem, hz⟩ := mem_wavesOf.1 hc
    rcases h.debts c hmem pid ⟨w, hz ▸ hw, hparent.symm, i, hi, hused⟩ with hdone | ⟨t, hfailed | howes⟩
    · exact hdone
    · exact absurd hfailed (Thread.isFinished_owes (hfinished t)).1
    · exact absurd howes ((Thread.isFinished_owes (hfinished t)).2.2 _ _ _)
  · have hmem := (mem_wavesOf.1 hw).1
    have hfree : (freeIn s.db.invites w.id).length = w.free := by
      rcases h.free w hmem with hdone | ⟨t, hfailed | ⟨v, hv, -⟩⟩
      · exact hdone
      · exact absurd hfailed (Thread.isFinished_owes (hfinished t)).1
      · rw [(Thread.isFinished_owes (hfinished t)).2.1] at hv
        cases hv
    -- a root wave has no codes of members
    have hall : s.db.codes w.id = freeIn s.db.invites w.id := by
      refine filter_congr fun i hi => ?_
      by_cases hiw : i.wave_id = w.id
      · have hnone : i.invite_owner_pid = none := by
          by_contra hne
          obtain ⟨pid, hpid⟩ := Option.ne_none_iff_exists'.1 hne
          exact not_promised_root h.legal hroot (h.legal.member w hmem i (mem_codes.2 ⟨hi, hiw⟩) pid hpid)
        simp [hiw, hnone]
      · simp [hiw]
    rw [hall, hfree, Wave.free, if_pos hroot, Nat.add_comm]

/-- A wave for one invitee is created, its code is used while the next wave is created. -/
private def twoWaves : List Event :=
  [.create 0 (some true) ⟨0, 1, none⟩, .run 0 "" 0, .run 0 "" 0, .run 0 "a" 0, .run 0 "" 0,
    .accept 1 "a", .run 1 "" 0, .run 1 "" 5, .run 1 "" 0,
    .create 2 (some true) ⟨2, 0, none⟩, .run 2 "" 0, .run 2 "" 0, .run 2 "" 0,
    .run 1 "" 0, .run 1 "" 0, .run 1 "" 0, .run 2 "" 0, .run 2 "" 0, .run 1 "" 0, .run 1 "" 0, .run 1 "b" 0,
    .run 1 "b" 0, .run 1 "c" 0, .run 1 "" 0, .run 2 "" 0, .run 2 "" 0, .run 2 "" 0, .run 2 "" 0, .run 1 "" 0]

theorem node_issuance_run : ∃ s : State, Run (Step 7) (start (fun _ => none) fun _ _ => none) twoWaves s ∧
    (∀ t, (s.threads t).isFinished = true) ∧
    ∀ w ∈ s.db.wavesOf 7, w.parent_wave = 0 → (s.db.codes w.id).length = w.invites_per_user + w.owner_invites := by
  have hsome : (twoWaves.foldlM (Node.next 7) (start (fun _ => none) fun _ _ => none)).isSome = true := by
    decide +kernel
  have hfinished : ∀ t, ((twoWaves.foldlM (Node.next 7) (start (fun _ => none) fun _ _ => none)).all fun s =>
      (s.threads t).isFinished) = true := by
    intro t
    match t with
    | 0 => decide +kernel
    | 1 => decide +kernel
    | 2 => decide +kernel
    | t + 3 => exact rfl
  obtain ⟨s, hs⟩ := Option.isSome_iff_exists.1 hsome
  have hrun := run_of_foldlM hs
  have hall : ∀ t, (s.threads t).isFinished = true := fun t => by simpa [hs] using hfinished t
  exact ⟨s, hrun, hall, ((node_issuance _ _ hrun).2 hall).2⟩

end Polis.Treevite.Node
