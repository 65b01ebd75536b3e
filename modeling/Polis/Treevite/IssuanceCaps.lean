import Polis.Treevite.IssuanceTheorems

/-!
# What creations promise

From a start within the caps no run leaves them, and a creation that was refused, or failed before its
commit, has written nothing. Of a commit that was lost nothing is known.

Reference: `queue-rs/polis-api/src/post_treevite_waves.rs`.
-/

namespace Polis.Treevite

open List Function

variable {caps : Caps} {start s s' : State} {t u : ℕ}

/-! ## What was written, and by whom -/

/-- The thread has not written anything that stays. -/
def Thread.Clean : Thread → Prop
  | .idle | .creating _ _ _ | .writing _ (.create _ _ _) _ _ _ => True
  | _ => False

/-- The tables are those of the start and of the log, and refused creations are not in the log. -/
structure Told (start s : State) : Prop where
  waves : s.db.waves = start.db.waves ++ s.log.reverse.flatMap (·.2.waves)
  invites : s.db.invites.map (·.id) = start.db.invites.map (·.id) ++
    s.log.reverse.flatMap (·.2.invites.map (·.id))
  clean : ∀ t, (s.threads t).Clean → ∀ p ∈ s.log, p.1 ≠ t
  refused : ∀ t e, s.answers t = some (.error e) → e ≠ .outcomeUnknown →
    s.threads t = .ended ∧ ∀ p ∈ s.log, p.1 ≠ t

/-- A thread goes on, and nothing is committed. -/
theorem Told.move (h : Told start s) (hwaves : s'.db.waves = s.db.waves)
    (hinvites : s'.db.invites.map (·.id) = s.db.invites.map (·.id)) (hlog : s'.log = s.log)
    (hothers : ∀ u, u ≠ t → s'.threads u = s.threads u ∧ s'.answers u = s.answers u)
    (hclean : (s'.threads t).Clean → (s.threads t).Clean)
    (hanswer : s'.answers t = s.answers t ∧ s.threads t ≠ .ended ∨ (s.threads t).Clean ∧ s'.threads t = .ended ∨
      s'.answers t = some (.error .outcomeUnknown)) : Told start s' := by
  refine ⟨by rw [hwaves, hlog, h.waves], by rw [hinvites, hlog, h.invites], fun u hu => ?_, fun u e hu he => ?_⟩
  · rw [hlog]
    rcases eq_or_ne u t with rfl | hne
    · exact h.clean u (hclean hu)
    · exact h.clean u ((hothers u hne).1 ▸ hu)
  · rw [hlog]
    rcases eq_or_ne u t with rfl | hne
    · rcases hanswer with ⟨hsame, hne⟩ | ⟨hold, hended⟩ | hunknown
      · exact absurd (h.refused u e (hsame ▸ hu) he).1 hne
      · exact ⟨hended, h.clean u hold⟩
      · rw [hunknown] at hu
        cases hu
        exact absurd rfl he
    · obtain ⟨hthread, hans⟩ := hothers u hne
      obtain ⟨hended, hlog'⟩ := h.refused u e (hans ▸ hu) he
      exact ⟨hthread.trans hended, hlog'⟩

/-- A transaction is committed. -/
theorem Told.apply (h : Told start s) {rows : Rows} (hended : s.threads t ≠ .ended)
    (hwaves : s'.db.waves = s.db.waves ++ rows.waves) (hinvites : s'.db.invites = s.db.invites ++ rows.invites)
    (hlog : s'.log = (t, rows) :: s.log)
    (hothers : ∀ u, u ≠ t → s'.threads u = s.threads u ∧ s'.answers u = s.answers u) (hclean : ¬(s'.threads t).Clean)
    (hanswer : ∀ e, s'.answers t = some (.error e) → e ≠ .outcomeUnknown → s.answers t = some (.error e)) :
    Told start s' := by
  refine ⟨?_, ?_, fun u hu p hp => ?_, fun u e hu he => ?_⟩
  · rw [hwaves, hlog, h.waves, reverse_cons, flatMap_append, append_assoc]
    simp
  · rw [hinvites, hlog, map_append, h.invites, reverse_cons, flatMap_append, append_assoc]
    simp
  · have hne : u ≠ t := by
      rintro rfl
      exact hclean hu
    rw [hlog] at hp
    rcases mem_cons.1 hp with rfl | hp
    · exact hne.symm
    · exact h.clean u ((hothers u hne).1 ▸ hu) p hp
  · rcases eq_or_ne u t with rfl | hne
    · exact absurd (h.refused u e (hanswer e hu he) he).1 hended
    · obtain ⟨hthread, hans⟩ := hothers u hne
      obtain ⟨hend, hlog'⟩ := h.refused u e (hans ▸ hu) he
      refine ⟨hthread.trans hend, fun p hp => ?_⟩
      rw [hlog] at hp
      rcases mem_cons.1 hp with rfl | hp
      · exact hne.symm
      · exact hlog' p hp

section Replies

variable {answer : Except ErrorCode Response} {thread : Thread}

theorem reply_of_ne (hu : u ≠ t) : (s.reply t answer).answers u = s.answers u := update_of_ne hu ..

theorem reply_self : (s.reply t answer).answers t = (s.answers t).or (some answer) := update_self ..

/-- A thread goes on without an answer. -/
theorem Told.go (h : Told start s) {s₁ : State} (hdb : s₁.db = s.db) (hlog : s₁.log = s.log)
    (hanswers : s₁.answers = s.answers) (hthreads : s₁.threads = s.threads) (hended : s.threads t ≠ .ended)
    (hclean : thread.Clean → (s.threads t).Clean) : Told start (s₁.setThread t thread) := by
  refine h.move (t := t) (congrArg Tables.waves hdb) (congrArg (fun db => db.invites.map (·.id)) hdb) hlog
    (fun u hu => ⟨?_, congrFun hanswers u⟩) (fun hc => hclean ?_) (.inl ⟨congrFun hanswers t, hended⟩)
  · rw [setThread_of_ne hu, hthreads]
  · rwa [setThread_self] at hc

theorem Told.ends (h : Told start s) (hended : s.threads t ≠ .ended) : Told start ((s.release t).setThread t .ended) :=
  h.move (t := t) rfl rfl rfl (fun _ hu => ⟨setThread_of_ne hu, rfl⟩)
    (fun hc => by rw [setThread_self] at hc; exact hc.elim) (.inl ⟨rfl, hended⟩)

theorem Told.expires (h : Told start s) (hended : s.threads t ≠ .ended) : Told start (s.reply t (.error .outcomeUnknown)) := by
  refine h.move (t := t) rfl rfl rfl (fun _ hu => ⟨rfl, reply_of_ne hu⟩) id ?_
  cases hold : s.answers t with
  | none => exact .inr (.inr (by rw [reply_self, hold]; rfl))
  | some a => exact .inl ⟨by rw [reply_self, hold]; rfl, hended⟩

theorem Told.refuse (h : Told start s) (hold : (s.threads t).Clean) (e : ErrorCode) : Told start (s.refuse t e) :=
  h.move (t := t) rfl rfl rfl (fun _ hu => ⟨setThread_of_ne hu, reply_of_ne hu⟩) (fun _ => hold)
    (.inr (.inl ⟨hold, setThread_self⟩))

end Replies

/-- A state with other locks and counters. -/
structure Beside (s s₁ : State) : Prop where
  db : s₁.db = s.db
  log : s₁.log = s.log
  answers : s₁.answers = s.answers
  threads : s₁.threads = s.threads

theorem Beside.refl (s : State) : Beside s s := ⟨rfl, rfl, rfl, rfl⟩

theorem take_beside {l : Lock} {s₁ : State} (hs : s.take t l = some s₁) : Beside s s₁ := by
  unfold State.take at hs
  split at hs
  · cases hs
    exact ⟨rfl, rfl, rfl, rfl⟩
  · cases hs

/-- A creation goes on, or is refused. -/
theorem advance_spec {zid : ℤ} {f : Fields} {stage : Stage} (hs : advance caps s t zid f stage = some s') :
    (∃ e, s' = s.refuse t e) ∨ ∃ s₁ thread, s' = s₁.setThread t thread ∧ Beside s s₁ ∧ thread.Clean := by
  have htake : ∀ {l : Lock} {stage' : Stage}, (s.take t l).map (·.setThread t (.creating zid f stage')) = some s' →
      ∃ s₁ thread, s' = s₁.setThread t thread ∧ Beside s s₁ ∧ thread.Clean := by
    intro l stage' hs
    obtain ⟨s₁, hs₁, rfl⟩ := Option.map_eq_some_iff.1 hs
    exact ⟨s₁, _, rfl, take_beside hs₁, trivial⟩
  cases stage with
  | authorized | locked | numbered =>
    simp only [Treevite.advance] at hs
    split at hs <;> cases hs
    · exact .inl ⟨_, rfl⟩
    · exact .inr ⟨s, _, rfl, .refl s, trivial⟩
  | owned | ownerLocked => exact .inr (htake hs)
  | parented owner wave parent size members =>
    simp only [Treevite.advance] at hs
    split at hs <;> cases hs
    · exact .inl ⟨_, rfl⟩
    · exact .inr ⟨{ s with nextWave := s.nextWave + 1 }, _, rfl, ⟨rfl, rfl, rfl, rfl⟩, trivial⟩

/-- The purpose of a transaction is that of a creation. -/
def Purpose.Creates : Purpose → Prop
  | .create _ _ _ => True
  | .fill _ => False

theorem insert_spec {zid : ℤ} {purpose : Purpose} {rows : Rows} {wave : ℕ} {parent : Option ℕ} {pid : Option ℤ}
    {code : String} {doing : Doing} {rest : List Job}
    (hs : insert s t zid purpose rows wave parent pid code doing rest = some s') :
    ∃ s₁ rows', Beside s s₁ ∧ s' = s₁.setThread t (.writing zid purpose rows' doing rest) := by
  simp only [insert] at hs
  split at hs
  · cases hs
    exact ⟨{ s with nextInvite := s.nextInvite + 1 }, _, ⟨rfl, rfl, rfl, rfl⟩, rfl⟩
  · cases hs

/-- A transaction goes on for the same purpose. -/
theorem write_spec {code : String} {zid : ℤ} {purpose : Purpose} {rows : Rows} {rest : List Job} {doing : Doing}
    (hs : write s t code zid purpose rows rest doing = some s') :
    ∃ s₁ purpose' rows' doing' rest', s' = s₁.setThread t (.writing zid purpose' rows' doing' rest') ∧
      Beside s s₁ ∧ (purpose'.Creates → purpose.Creates) := by
  cases doing with
  | mint left => cases left with
    | zero =>
      cases hs
      exact ⟨s, _, _, _, _, rfl, .refl s, id⟩
    | succ left => cases purpose with
      | create owner w reconciled =>
        obtain ⟨s₁, rows', hb, rfl⟩ := insert_spec hs
        exact ⟨s₁, _, _, _, _, rfl, hb, id⟩
      | fill then' => cases hs
  | lock job =>
    obtain ⟨s₁, hs₁, rfl⟩ := Option.map_eq_some_iff.1 hs
    exact ⟨s₁, _, _, _, _, rfl, take_beside hs₁, id⟩
  | count job =>
    cases hs
    exact ⟨s, _, _, _, _, rfl, .refl s, id⟩
  | fill job left => cases left with
    | zero =>
      cases hs
      exact ⟨s, _, _, _, _, rfl, .refl s, id⟩
    | succ left =>
      obtain ⟨s₁, rows', hb, rfl⟩ := insert_spec hs
      exact ⟨s₁, _, _, _, _, rfl, hb, id⟩
  | reconcile => cases purpose with
    | create owner w reconciled =>
      cases hs
      exact ⟨s, _, _, _, _, rfl, .refl s, id⟩
    | fill then' => cases hs
  | commit => cases hs

theorem Told.step (h : Told start s) {e : Event} (hs : step caps s e = some s') : Told start s' := by
  have hnot : ∀ {t thread}, s.threads t = thread → thread ≠ .ended → s.threads t ≠ .ended := fun ht hn => ht ▸ hn
  have hclean : ∀ {t thread}, s.threads t = thread → thread.Clean → (s.threads t).Clean := fun ht hc => ht ▸ hc
  cases e with
  | begin t zid admin moderator f =>
    simp only [Treevite.step] at hs
    split at hs
    · next hth =>
      split at hs <;> cases hs
      · exact h.refuse (hclean hth trivial) _
      · exact h.go rfl rfl rfl rfl (hnot hth (by rintro ⟨⟩)) fun _ => hclean hth trivial
    · cases hs
  | advance t =>
    simp only [Treevite.step] at hs
    split at hs
    · next hth =>
      rcases advance_spec hs with ⟨e, rfl⟩ | ⟨s₁, thread, rfl, hb, hc⟩
      · exact h.refuse (hclean hth trivial) e
      · exact h.go hb.db hb.log hb.answers hb.threads (hnot hth (by rintro ⟨⟩)) fun _ => hclean hth trivial
    · cases hs
  | write t code =>
    simp only [Treevite.step] at hs
    split at hs
    · next purpose rows doing rest hth =>
      obtain ⟨s₁, purpose', rows', doing', rest', rfl, hb, hcreates⟩ := write_spec hs
      refine h.go hb.db hb.log hb.answers hb.threads (hnot hth (by rintro ⟨⟩)) fun hc => hclean hth ?_
      cases purpose with
      | create owner w reconciled => trivial
      | fill then' => cases purpose' with
        | create owner w reconciled => exact (hcreates trivial).elim
        | fill then'' => exact hc
    · cases hs
  | commit t =>
    simp only [Treevite.step] at hs
    split at hs
    · next purpose rows rest hth =>
      split at hs
      · cases hs
        cases purpose with
        | create owner w reconciled =>
          refine h.apply (hnot hth (by rintro ⟨⟩)) (by rfl) (by rfl) (by rfl)
            (fun u hu => ⟨setThread_of_ne hu, reply_of_ne hu⟩) (fun hc => ?_) fun e he _ => ?_
          · rw [resumed, setThread_self] at hc
            exact hc
          · have hans : update s.answers t ((s.answers t).or (some (.ok (response (s.db.withRows rows) w)))) t =
              some (.error e) := he
            rw [update_self] at hans
            cases hold : s.answers t with
            | none => rw [hold] at hans; cases hans
            | some a => rw [hold] at hans; exact hans
        | fill then' =>
          refine h.apply (hnot hth (by rintro ⟨⟩)) (by rfl) (by rfl) (by rfl)
            (fun u hu => ⟨setThread_of_ne hu, rfl⟩) (fun hc => ?_) fun e he _ => he
          rw [resumed, setThread_self] at hc
          exact hc
      · cases hs
    · cases hs
  | lose t applied =>
    simp only [Treevite.step] at hs
    split at hs
    · next rows rest hth =>
      split at hs
      · split at hs
        · cases hs
          refine h.apply (hnot hth (by rintro ⟨⟩)) (by rfl) (by rfl) (by rfl)
            (fun u hu => ⟨setThread_of_ne hu, reply_of_ne hu⟩) (fun hc => ?_) fun e he hne => ?_
          · rw [State.refuse, setThread_self] at hc
            exact hc
          · have hans : update s.answers t ((s.answers t).or (some (.error .outcomeUnknown))) t =
              some (.error e) := he
            rw [update_self] at hans
            cases hold : s.answers t with
            | none => rw [hold] at hans; cases hans; exact absurd rfl hne
            | some a => rw [hold] at hans; exact hans
        · cases hs
      · cases hs
        exact h.refuse (hclean hth trivial) _
    · next rows rest hth =>
      split at hs
      · split at hs
        · cases hs
          refine h.apply (hnot hth (by rintro ⟨⟩)) (by rfl) (by rfl) (by rfl)
            (fun u hu => ⟨setThread_of_ne hu, rfl⟩) (fun hc => ?_) fun e he _ => he
          rw [setThread_self] at hc
          exact hc
        · cases hs
      · cases hs
        exact h.ends (hnot hth (by rintro ⟨⟩))
    · cases hs
  | fail t =>
    simp only [Treevite.step] at hs
    split at hs
    · next hth =>
      cases hs
      exact h.refuse (hclean hth trivial) _
    · next hth =>
      cases hs
      exact h.refuse (hclean hth trivial) _
    · next hth =>
      cases hs
      exact h.ends (hnot hth (by rintro ⟨⟩))
    · next hth =>
      cases hs
      exact h.ends (hnot hth (by rintro ⟨⟩))
    · cases hs
  | expire t =>
    simp only [Treevite.step] at hs
    split at hs
    · next hth =>
      cases hs
      exact h.expires (hnot hth (by rintro ⟨⟩))
    · next hth =>
      cases hs
      exact h.expires (hnot hth (by rintro ⟨⟩))
    · cases hs
  | accept t zid invite pid =>
    simp only [Treevite.step] at hs
    split at hs
    · next hth =>
      split at hs
      · cases hs
      · cases hs
        refine h.move (t := t) rfl ?_ rfl (fun u hu => ⟨setThread_of_ne hu, rfl⟩) (fun _ => hclean hth trivial)
          (.inl ⟨rfl, hnot hth (by rintro ⟨⟩)⟩)
        -- a code keeps its number
        change (s.db.invites.map fun i => i.accepted invite pid).map (·.id) = _
        rw [map_map]
        refine map_congr_left fun i _ => ?_
        simp only [comp_apply, Invite.accepted]
        split <;> rfl
    · cases hs
  | login | reconcileChildren =>
    simp only [Treevite.step] at hs
    split at hs
    · next hth =>
      cases hs
      exact h.go rfl rfl rfl rfl (hnot hth (by rintro ⟨⟩)) fun _ => hclean hth trivial
    · cases hs
  | resume t =>
    simp only [Treevite.step] at hs
    split at hs
    · next hth =>
      cases hs
      refine h.go rfl rfl rfl rfl (hnot hth (by rintro ⟨⟩)) fun hc => ?_
      split at hc <;> exact hc.elim
    · next hth =>
      cases hs
      refine h.go rfl rfl rfl rfl (hnot hth (by rintro ⟨⟩)) fun hc => ?_
      split at hc <;> exact hc.elim
    · next hth =>
      cases hs
      exact h.go rfl rfl rfl rfl (hnot hth (by rintro ⟨⟩)) (by rintro ⟨⟩)
    · cases hs
  | join zid pid uid =>
    simp only [Treevite.step] at hs
    split at hs
    · cases hs
    · cases hs
      exact ⟨h.waves, h.invites, h.clean, h.refused⟩

/-! ## Every run -/

/-- Before the first thread: legal tables, whose reservations are within the caps. -/
structure Start (caps : Caps) (s : State) : Prop where
  legal : Legal s.db
  capped : Capped caps s.db
  below : ∀ w ∈ s.db.waves, w.id < s.nextWave
  idle : ∀ t, s.threads t = .idle
  free : ∀ l, s.holder l = none
  answers : ∀ t, s.answers t = none
  log : s.log = []

theorem Start.inv (h : Start caps s) : Inv caps s := by
  refine ⟨h.legal, h.capped, fun t => ?_, fun t wave pid hl => ?_, fun t u w v hw => ?_, h.below⟩
  · rw [h.idle]
    trivial
  · rw [h.free] at hl
    cases hl
  · rw [h.idle] at hw
    cases hw

theorem Start.told (h : Start caps s) : Told s s := by
  refine ⟨by simp [h.log], by simp [h.log], fun t _ p hp => ?_, fun t e he => ?_⟩
  · rw [h.log] at hp
    cases hp
  · rw [h.answers] at he
    cases he

/-- Without waves everything is within the caps. -/
theorem Start.empty (caps : Caps) (owner : ℤ → Option ℤ) (uid : ℤ → ℤ → Option ℤ) :
    Start caps ⟨⟨owner, uid, [], []⟩, fun _ => none, fun _ => .idle, 0, 0, fun _ => none, []⟩ :=
  ⟨⟨fun _ => rfl, nofun, nodup_nil, nofun, nofun, nofun, nofun, nofun⟩,
    ⟨fun _ => Nat.zero_le _, fun _ => Nat.zero_le _⟩, nofun, fun _ => rfl, fun _ => rfl, fun _ => rfl, rfl⟩

/-- The promises of a state. -/
structure Issued (caps : Caps) (start s : State) : Prop where
  /-- A member has at most what the wave promises to each. -/
  allowance : ∀ w ∈ s.db.waves, ∀ pid, (s.db.held w.id pid).length ≤ w.invites_per_user
  /-- The reservation of a wave is that of its parent, or one, times the promise, and the owner's codes. -/
  reserved : ∀ w ∈ s.db.waves, ∃ parent,
    (w.parent_wave = 0 ∧ parent = 1 ∨
      ∃ v ∈ s.db.wavesOf w.zid, v.wave = w.parent_wave ∧ parent = s.db.reserved v) ∧
    s.db.reserved w = parent * w.invites_per_user + w.owner_invites
  codes : ∀ w ∈ s.db.waves, (s.db.codes w.id).length ≤ s.db.reserved w
  conversation : ∀ zid, (s.db.invites.filter (·.zid = zid)).length ≤ s.db.reservedIn zid ∧
    s.db.reservedIn zid ≤ caps.conversation
  owner : ∀ owner, (s.db.invites.filter (s.db.owner ·.zid = some owner)).length ≤ s.db.reservedBy owner ∧
    s.db.reservedBy owner ≤ caps.owner
  /-- The waves of a conversation are numbered in the order of their creation. -/
  numbers : ∀ zid, (s.db.wavesOf zid).map (·.wave) = List.range' 1 (s.db.wavesOf zid).length
  /-- What there is was there at the start, or is in the log of a transaction. -/
  written : s.db.waves = start.db.waves ++ s.log.reverse.flatMap (·.2.waves) ∧
    s.db.invites.map (·.id) = start.db.invites.map (·.id) ++ s.log.reverse.flatMap (·.2.invites.map (·.id))
  /-- A creation that is refused, or fails before its commit, is not in the log. -/
  refused : ∀ t e, s.answers t = some (.error e) → e ≠ .outcomeUnknown → ∀ p ∈ s.log, p.1 ≠ t

theorem Legal.reserved_parent {db : Tables} (h : Legal db) {w : Wave} (hw : w ∈ db.waves) : ∃ parent,
    (w.parent_wave = 0 ∧ parent = 1 ∨ ∃ v ∈ db.wavesOf w.zid, v.wave = w.parent_wave ∧ parent = db.reserved v) ∧
    db.reserved w = parent * w.invites_per_user + w.owner_invites := by
  refine ⟨_, ?_, h.reserved_eq hw⟩
  rcases Nat.eq_zero_or_pos w.parent_wave with hroot | hpos
  · exact .inl ⟨hroot, by rw [hroot, capacity, if_pos rfl]⟩
  · -- the numbers below that of the wave are those of waves
    have hmem : w.wave ∈ (db.wavesOf w.zid).map (·.wave) := mem_map_of_mem (mem_wavesOf.2 ⟨hw, rfl⟩)
    rw [h.numbers, mem_range'_1] at hmem
    have hlt := h.parent w hw
    have hparent : w.parent_wave ∈ (db.wavesOf w.zid).map (·.wave) := by
      rw [h.numbers, mem_range'_1]
      omega
    obtain ⟨v, hv, hnumber⟩ := mem_map.1 hparent
    exact .inr ⟨v, hv, hnumber, by rw [Tables.reserved, (mem_wavesOf.1 hv).2, hnumber]⟩

/-- In every run from a start within the caps, codes stay within what was reserved, and reservations within the
caps. -/
theorem issued (hstart : Start caps start) (h : Reachable caps start s) : Issued caps start s := by
  have hboth : Inv caps s ∧ Told start s := by
    induction h with
    | start => exact ⟨hstart.inv, hstart.told⟩
    | step _ hs ih => exact ⟨ih.1.step hs, ih.2.step hs⟩
  obtain ⟨hinv, htold⟩ := hboth
  refine ⟨hinv.legal.allowance, fun w hw => hinv.legal.reserved_parent hw, fun w hw => hinv.legal.codes_le hw,
    fun zid => ⟨hinv.legal.codes_of_le fun z => decide (z = zid), hinv.capped.conversation zid⟩,
    fun owner => ⟨hinv.legal.codes_of_le fun z => decide (s.db.owner z = some owner), hinv.capped.owner owner⟩,
    hinv.legal.numbers, ⟨htold.waves, htold.invites⟩, fun t e he hne => (htold.refused t e he hne).2⟩

theorem Reachable.run (h : Reachable caps start s) (es : List Event) (hs : es.foldlM (Treevite.step caps) s = some s') :
    Reachable caps start s' := by
  induction es generalizing s with
  | nil => exact Option.some.inj hs ▸ h
  | cons e es ih =>
    obtain ⟨s₁, hs₁, hs⟩ := Option.bind_eq_some_iff.1 hs
    exact ih (h.step hs₁) hs

/-- `DEFAULT_CONVERSATION_CAP` and `DEFAULT_OWNER_CAP` -/
private def defaults : Caps := ⟨250000, 1000000, by decide, by decide⟩

/-- One conversation. -/
private def bare : State :=
  ⟨⟨fun zid => if zid = 1 then some 7 else none, fun _ _ => none, [], []⟩, fun _ => none, fun _ => .idle, 0, 0,
    fun _ => none, []⟩

/-- A wave of one code is created, and its commit is lost when it has been applied. -/
private def lost : List Event :=
  [.begin 0 1 true none ⟨1, 0, none⟩, .advance 0, .advance 0, .advance 0, .advance 0, .advance 0, .advance 0,
    .write 0 "code", .write 0 "", .write 0 "", .lose 0 true]

private theorem lost_run : ∃ s, Reachable defaults bare s ∧ s.answers 0 = some (.error .outcomeUnknown) ∧
    s.db.invites = [⟨0, 1, 0, none, "code", none, 0, none⟩] := by
  obtain ⟨s, hs, hend⟩ := Option.map_eq_some_iff.1
    (show (lost.foldlM (Treevite.step defaults) bare).map (fun s => (s.answers 0, s.db.invites)) =
      some (some (.error .outcomeUnknown), [⟨0, 1, 0, none, "code", none, 0, none⟩]) from rfl)
  obtain ⟨hanswer, hinvites⟩ := Prod.mk.inj hend
  exact ⟨s, Reachable.start.run lost hs, hanswer, hinvites⟩

theorem issued_lost : ∃ s, s.db.invites.length = 1 ∧ Issued defaults bare s := by
  obtain ⟨s, hs, -, hinvites⟩ := lost_run
  exact ⟨s, by rw [hinvites]; rfl, issued (Start.empty defaults _ _) hs⟩

/-- A creation that answers that its outcome is unknown has issued a code. -/
theorem failed_issues : ¬∀ s, Reachable defaults bare s → ∀ t e, s.answers t = some (.error e) → s.db.invites = [] := by
  intro hnone
  obtain ⟨s, hs, hanswer, hinvites⟩ := lost_run
  have hempty := hnone s hs 0 _ hanswer
  rw [hinvites] at hempty
  cases hempty

end Polis.Treevite
