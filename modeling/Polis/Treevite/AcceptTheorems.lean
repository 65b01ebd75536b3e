import Polis.Common.Run
import Polis.Treevite.Accept

/-!
# One invite admits one member, while acceptances run to their end

The mark is what makes an invite single. A participant that was made for a caller stays behind, though, when
the mark finds the invite used or a later statement fails, and then the gate lets the caller in. Where no
acceptance is cut off there, everyone whom the gate lets in is the owner, was a member, or has an acceptance
that was answered or goes on.

Reference: `server/src/invites/treevites.ts` (`handle_POST_treevite_acceptInvite`).
-/

namespace Polis.Treevite.Accept

open List Function Option

variable {owner : ℤ} {s s' : State} {t u : ℕ} {code : String} {r : Request} {p : Participant}

/-! ## What an acceptance brings -/

/-- The acceptance made the participant and goes on, or was answered. -/
def Request.Brings (p : Participant) : Request → Prop
  | .marking _ uid pid true | .coding _ uid pid true | .issuing _ uid pid true _ _ => p = ⟨uid, pid⟩
  | .accepted a => p = ⟨a.uid, a.pid⟩
  | _ => False

/-- The acceptance that took the place of a login code goes on, or was answered. -/
def Request.Holds : Request → Prop
  | .issuing _ _ _ _ replaced _ => replaced = true
  | .accepted _ => True
  | _ => False

/-- An acceptance that has made the participant of a known caller finds its invite unused, and its login code
is no other participant's. -/
def GoesOn (s : State) (code : String) : Request → Prop
  | .marking invite uid _ true => uid ∈ s.identities → s.unused invite.id = true
  | .coding _ uid pid true => uid ∈ s.identities → ∀ l ∈ s.logins, l.pid ≠ pid → l.code ≠ code
  | _ => True

/-- A request that fails has not made the participant of a known caller, and has not taken the place of a login
code. -/
def FailsClean (s : State) (applied : Bool) : Request → Prop
  | .enrolling _ uid _ => applied = true → uid ∉ s.identities
  | .marking _ uid _ enrolled => enrolled = true → uid ∉ s.identities
  | .coding _ uid pid enrolled => (enrolled = true → uid ∉ s.identities) ∧ (applied = true → s.hasLogin pid = false)
  | .issuing _ uid _ enrolled replaced _ => (enrolled = true → uid ∉ s.identities) ∧ replaced = false
  | _ => True

/-- The step cuts no acceptance off after it has made a participant or replaced a login code. -/
def Whole (s : State) : Event → Prop
  | .run t code => GoesOn s code (s.requests t)
  | .error t _ applied => FailsClean s applied (s.requests t)
  | _ => True

instance (s : State) (code : String) (r : Request) : Decidable (GoesOn s code r) := by
  unfold GoesOn
  split <;> infer_instance

instance (s : State) (applied : Bool) (r : Request) : Decidable (FailsClean s applied r) := by
  unfold FailsClean
  split <;> infer_instance

instance (s : State) (e : Event) : Decidable (Whole s e) := by
  unfold Whole
  split <;> infer_instance

/-! ## What holds in every run -/

/-- The request has marked the invite for the participant. -/
structure Marked (s : State) (t invite : ℕ) (pid : ℤ) : Prop where
  log : (invite, t) ∈ s.marks
  row : ∃ i ∈ s.invites, i.id = invite ∧ i.status = 1 ∧ i.invite_used_by_pid = some pid

/-- The login code that the request wrote is there, unless another one took its place. -/
def Written (s : State) (t : ℕ) (pid : ℤ) (code : String) : Prop :=
  ∃ l ∈ s.logins, l.pid = pid ∧ (l.writer = some t → l.code = code)

def RequestOk (owner : ℤ) (s : State) (t : ℕ) : Request → Prop
  | .marking _ uid pid _ => ⟨uid, pid⟩ ∈ s.participants
  | .coding invite uid pid _ => ⟨uid, pid⟩ ∈ s.participants ∧ Marked s t invite.id pid
  | .issuing invite uid pid _ _ code => ⟨uid, pid⟩ ∈ s.participants ∧ Marked s t invite.id pid ∧ Written s t pid code
  | .accepted a => ⟨a.uid, a.pid⟩ ∈ s.participants ∧ Marked s t a.invite_id a.pid ∧ Written s t a.pid a.login_code
  | .joining uid => uid = owner
  | _ => True

structure Inv (owner : ℤ) (s : State) : Prop where
  uids : (s.participants.map (·.uid)).Nodup
  requests : ∀ t, RequestOk owner s t (s.requests t)
  once : (s.marks.map (·.1)).Nodup
  used : ∀ m ∈ s.marks, (∃ i ∈ s.invites, i.id = m.1) ∧ ∀ i ∈ s.invites, i.id = m.1 → i.status ≠ 0

/-- What a step leaves to another request. -/
structure Grows (u : ℕ) (s s' : State) : Prop where
  participants : ∀ p ∈ s.participants, p ∈ s'.participants
  marks : ∀ m ∈ s.marks, m ∈ s'.marks
  invites : ∀ i ∈ s.invites, i.status = 1 → i ∈ s'.invites
  logins : ∀ l ∈ s.logins, ∃ l' ∈ s'.logins, l'.pid = l.pid ∧ (l'.writer = some u → l' = l)

namespace Grows

variable (h : Grows u s s')
include h

theorem marked {invite : ℕ} {pid : ℤ} (hm : Marked s u invite pid) : Marked s' u invite pid := by
  obtain ⟨hlog, i, hi, hid, hstatus, hused⟩ := hm
  exact ⟨h.marks _ hlog, i, h.invites i hi hstatus, hid, hstatus, hused⟩

theorem written {pid : ℤ} {code : String} (hw : Written s u pid code) : Written s' u pid code := by
  obtain ⟨l, hl, hpid, hcode⟩ := hw
  obtain ⟨l', hl', hpid', hsame⟩ := h.logins l hl
  refine ⟨l', hl', hpid'.trans hpid, fun hwriter => ?_⟩
  have hll := hsame hwriter
  rw [hll] at hwriter ⊢
  exact hcode hwriter

theorem requestOk (hr : RequestOk owner s u r) : RequestOk owner s' u r := by
  cases r with
  | marking invite uid pid enrolled => exact h.participants _ hr
  | coding invite uid pid enrolled => exact ⟨h.participants _ hr.1, h.marked hr.2⟩
  | issuing | accepted => exact ⟨h.participants _ hr.1, h.marked hr.2.1, h.written hr.2.2⟩
  | joining uid => exact hr
  | _ => trivial

end Grows

theorem Grows.refl (hp : s'.participants = s.participants) (hm : s'.marks = s.marks) (hi : s'.invites = s.invites)
    (hl : s'.logins = s.logins) : Grows u s s' :=
  ⟨fun _ h => hp ▸ h, fun _ h => hm ▸ h, fun _ h _ => hi ▸ h, fun l h => ⟨l, hl ▸ h, rfl, fun _ => rfl⟩⟩

theorem RequestOk.same (hr : RequestOk owner s t r) (hp : s'.participants = s.participants)
    (hm : s'.marks = s.marks) (hi : s'.invites = s.invites) (hl : s'.logins = s.logins) : RequestOk owner s' t r :=
  (Grows.refl hp hm hi hl).requestOk hr

/-- The step of one request, by what it leaves to the others. -/
theorem Inv.change (h : Inv owner s) (hothers : ∀ u, u ≠ t → s'.requests u = s.requests u)
    (hgrows : ∀ u, u ≠ t → Grows u s s') (huids : (s'.participants.map (·.uid)).Nodup)
    (hok : RequestOk owner s' t (s'.requests t)) (honce : (s'.marks.map (·.1)).Nodup)
    (hused : ∀ m ∈ s'.marks, (∃ i ∈ s'.invites, i.id = m.1) ∧ ∀ i ∈ s'.invites, i.id = m.1 → i.status ≠ 0) :
    Inv owner s' := by
  refine ⟨huids, fun u => ?_, honce, hused⟩
  by_cases hu : u = t
  · rw [hu]
    exact hok
  · rw [hothers u hu]
    exact (hgrows u hu).requestOk (h.requests u)

theorem requests_setRequest : (s.setRequest t r).requests t = r := update_self ..

theorem requests_setRequest_of_ne (hu : u ≠ t) : (s.setRequest t r).requests u = s.requests u :=
  update_of_ne hu ..

/-- A step that leaves the tables. -/
theorem Inv.turn (h : Inv owner s) (hok : RequestOk owner s t r) : Inv owner (s.setRequest t r) := by
  refine h.change (t := t) (fun u hu => requests_setRequest_of_ne hu)
    (fun u _ => .refl rfl rfl rfl rfl) h.uids ?_ h.once h.used
  rw [requests_setRequest]
  exact hok.same rfl rfl rfl rfl

theorem pidOf_eq_none {uid : ℤ} (h : s.pidOf uid = none) : ∀ p ∈ s.participants, p.uid ≠ uid := by
  rw [State.pidOf, map_eq_none_iff, find?_eq_none] at h
  exact fun p hp heq => h p hp (decide_eq_true heq)

theorem pidOf_mem {uid pid : ℤ} (h : s.pidOf uid = some pid) : ⟨uid, pid⟩ ∈ s.participants := by
  obtain ⟨p, hp, rfl⟩ := map_eq_some_iff.1 h
  have huid : p.uid = uid := by simpa using find?_some hp
  rw [← huid]
  exact mem_of_find?_eq_some hp

theorem Inv.enroll (h : Inv owner s) {uid : ℤ} (hnone : s.pidOf uid = none)
    (hok : RequestOk owner (s.enroll uid) t r) : Inv owner ((s.enroll uid).setRequest t r) := by
  refine h.change (t := t) (fun u hu => requests_setRequest_of_ne hu)
    (fun u _ => ⟨fun _ hp => mem_append_left _ hp, fun _ hm => hm, fun _ hi _ => hi,
      fun l hl => ⟨l, hl, rfl, fun _ => rfl⟩⟩) ?_ ?_ h.once h.used
  · change ((s.participants ++ [(⟨uid, s.nextPid⟩ : Participant)]).map fun p => p.uid).Nodup
    rw [map_append, nodup_append]
    refine ⟨h.uids, nodup_singleton _, fun a ha b hb => ?_⟩
    obtain ⟨p, hp, rfl⟩ := mem_map.1 ha
    rw [map_singleton, mem_singleton] at hb
    rw [hb]
    exact pidOf_eq_none hnone p hp
  · rw [requests_setRequest]
    exact hok.same rfl rfl rfl rfl

theorem Inv.mark (h : Inv owner s) {invite : Invite} {uid pid : ℤ} {enrolled : Bool}
    (hth : s.requests t = .marking invite uid pid enrolled) (hunused : s.unused invite.id = true) :
    Inv owner ((s.mark t invite.id pid).setRequest t (.coding invite uid pid enrolled)) := by
  have hok := h.requests t
  rw [hth] at hok
  obtain ⟨i, hi, hfound⟩ := any_eq_true.1 hunused
  obtain ⟨hid, hstatus⟩ := of_decide_eq_true hfound
  have hfresh : ∀ m ∈ s.marks, m.1 ≠ invite.id := fun m hm heq =>
    (h.used m hm).2 i hi (hid.trans heq.symm) hstatus
  have hrow : ∀ i' ∈ (s.mark t invite.id pid).invites, ∃ i ∈ s.invites, i.id = i'.id ∧
      (i' = i ∨ (i.id = invite.id ∧ i.status = 0 ∧ i'.status = 1)) ∧ (i'.id = invite.id → i'.status ≠ 0) := by
    intro i' hi'
    obtain ⟨i, hi, rfl⟩ := mem_map.1 hi'
    refine ⟨i, hi, ?_⟩
    by_cases hmark : i.id = invite.id ∧ i.status = 0
    · rw [if_pos hmark]
      exact ⟨rfl, .inr ⟨hmark.1, hmark.2, rfl⟩, fun _ => Nat.one_ne_zero⟩
    · rw [if_neg hmark]
      exact ⟨rfl, .inl rfl, fun heq hzero => hmark ⟨heq, hzero⟩⟩
  refine h.change (t := t) (fun u hu => requests_setRequest_of_ne hu) (fun u _ => ⟨fun _ hp => hp,
    fun _ hm => mem_cons_of_mem _ hm, fun j hj hone => ?_, fun l hl => ⟨l, hl, rfl, fun _ => rfl⟩⟩) h.uids ?_ ?_
    (fun m hm => ?_)
  · refine mem_map.2 ⟨j, hj, if_neg ?_⟩
    rw [hone]
    exact fun hmark => absurd hmark.2 Nat.one_ne_zero
  · rw [requests_setRequest]
    refine ⟨hok, mem_cons_self, _, mem_map_of_mem hi, ?_⟩
    rw [if_pos ⟨hid, hstatus⟩]
    exact ⟨hid, rfl, rfl⟩
  · refine nodup_cons.2 ⟨fun hmem => ?_, h.once⟩
    obtain ⟨m, hm, heq⟩ := mem_map.1 hmem
    exact hfresh m hm heq
  · rcases mem_cons.1 hm with rfl | hm
    · refine ⟨⟨_, mem_map_of_mem hi, ?_⟩, fun i' hi' heq => ?_⟩
      · rw [if_pos ⟨hid, hstatus⟩]
        exact hid
      · obtain ⟨_, _, _, _, hne⟩ := hrow i' hi'
        exact hne heq
    · obtain ⟨⟨j, hj, hjid⟩, hall⟩ := h.used m hm
      refine ⟨⟨j, mem_map.2 ⟨j, hj, if_neg ?_⟩, hjid⟩, fun i' hi' heq => ?_⟩
      · exact fun hmark => hfresh m hm (hjid.symm.trans hmark.1)
      · obtain ⟨i₀, hi₀, hid₀, hsame | ⟨hmark, -, -⟩, -⟩ := hrow i' hi'
        · rw [hsame]
          exact hall i₀ hi₀ (hid₀.trans heq)
        · exact absurd (heq.symm.trans (hid₀.symm.trans hmark)) (hfresh m hm)

/-- The login code of one participant is another one, and those of the others stay. -/
theorem mem_upsertLogin {pid : ℤ} {l : LoginCode} : l ∈ (s.upsertLogin t pid code).logins ↔
    (l ∈ s.logins ∧ l.pid ≠ pid) ∨ l = ⟨pid, code, some t, s.hasLogin pid⟩ := by
  simp [State.upsertLogin]

theorem Inv.upsertLogin (h : Inv owner s) {invite : Invite} {uid pid : ℤ} {enrolled replaced : Bool}
    (hth : s.requests t = .coding invite uid pid enrolled) :
    Inv owner ((s.upsertLogin t pid code).setRequest t (.issuing invite uid pid enrolled replaced code)) := by
  have hok := h.requests t
  rw [hth] at hok
  refine h.change (t := t) (fun u hu => requests_setRequest_of_ne hu) (fun u hu => ⟨fun _ hp => hp, fun _ hm => hm,
    fun _ hi _ => hi, fun l hl => ?_⟩) h.uids ?_ h.once h.used
  · by_cases hpid : l.pid = pid
    · refine ⟨_, mem_upsertLogin.2 (.inr rfl), hpid.symm, fun hwriter => ?_⟩
      exact absurd (Option.some.inj hwriter).symm hu
    · exact ⟨l, mem_upsertLogin.2 (.inl ⟨hl, hpid⟩), rfl, fun _ => rfl⟩
  · rw [requests_setRequest]
    exact ⟨hok.1, ⟨hok.2.log, hok.2.row⟩, _, mem_upsertLogin.2 (.inr rfl), rfl, fun _ => rfl⟩

/-- Who may present a token and who comes next are of no account. -/
theorem Inv.users (h : Inv owner s) (n : ℤ) (ids : List ℤ) : Inv owner { s with nextUid := n, identities := ids } :=
  ⟨h.uids, fun t => (h.requests t).same rfl rfl rfl rfl, h.once, h.used⟩

theorem Inv.run (h : Inv owner s) (hrun : run owner s t code (s.requests t) = some s') : Inv owner s' := by
  generalize hth : s.requests t = r at hrun
  have hok := h.requests t
  rw [hth] at hok
  cases r with
  | looking caller invite_code =>
    simp only [Accept.run] at hrun
    split at hrun
    · cases hrun
      exact h.turn trivial
    · split at hrun
      · cases hrun
        refine h.turn ?_
        split <;> trivial
      · cases hrun
        exact h.turn trivial
  | finding invite uid =>
    simp only [Accept.run] at hrun
    split at hrun
    · next pid hpid =>
        cases hrun
        exact h.turn (pidOf_mem hpid)
    · cases hrun
      exact h.turn trivial
  | adding invite =>
    cases hrun
    exact (h.users _ _).turn trivial
  | enrolling invite uid retried =>
    simp only [Accept.run] at hrun
    split at hrun
    · next hnone =>
        cases hrun
        exact h.enroll hnone (mem_append_right _ (mem_singleton_self _))
    · cases hrun
      refine h.turn ?_
      split <;> trivial
  | marking invite uid pid enrolled =>
    simp only [Accept.run] at hrun
    split at hrun
    · next hunused =>
        cases hrun
        exact h.mark hth hunused
    · cases hrun
      exact h.turn trivial
  | coding invite uid pid enrolled =>
    simp only [Accept.run] at hrun
    split at hrun
    · cases hrun
      exact h.turn trivial
    · cases hrun
      exact h.upsertLogin hth
  | issuing invite uid pid enrolled replaced code =>
    cases hrun
    exact (h.users _ _).turn (hok.same rfl rfl rfl rfl)
  | gating uid =>
    cases uid with
    | none =>
      cases hrun
      exact (h.users _ _).turn trivial
    | some uid =>
      simp only [Accept.run] at hrun
      split at hrun
      · cases hrun
        exact h.turn trivial
      · cases hrun
        refine h.turn ?_
        split
        · next howner => exact howner
        · trivial
  | joining uid =>
    simp only [Accept.run] at hrun
    split at hrun
    · cases hrun
      exact h.turn trivial
    · next hnone =>
        cases hrun
        exact h.enroll hnone trivial
  | idle | accepted | ensured | refused | failed => cases hrun

theorem Inv.next (h : Inv owner s) {e : Event} (hstep : Step owner s e s') : Inv owner s' := by
  cases e with
  | accept | ensure =>
    simp only [Step, Accept.next] at hstep
    split at hstep
    · cases hstep
      exact h.turn trivial
    · cases hstep
  | run t code => exact h.run hstep
  | error t code applied =>
    simp only [Step, Accept.next] at hstep
    split at hstep
    · cases hstep
    · split at hstep
      · obtain ⟨s₁, hrun, rfl⟩ := map_eq_some_iff.1 hstep
        exact ((h.run hrun).users _ _).turn trivial
      · cases hstep
        exact h.turn trivial
  | invite i =>
    simp only [Step, Accept.next] at hstep
    split at hstep
    · next hnew =>
        cases hstep
        obtain ⟨-, -, hfresh⟩ := hnew
        refine ⟨h.uids, fun t => ?_, h.once, fun m hm => ?_⟩
        · have hgrows : Grows t s { s with invites := s.invites ++ [i] } :=
            ⟨fun _ hp => hp, fun _ hm => hm, fun _ hj _ => mem_append_left _ hj,
              fun l hl => ⟨l, hl, rfl, fun _ => rfl⟩⟩
          exact hgrows.requestOk (h.requests t)
        · obtain ⟨⟨j, hj, hid⟩, hall⟩ := h.used m hm
          refine ⟨⟨j, mem_append_left _ hj, hid⟩, fun k hk hkid => ?_⟩
          rcases mem_append.1 hk with hk | hk
          · exact hall k hk hkid
          · rw [mem_singleton.1 hk] at hkid
            exact absurd (hid.trans hkid.symm) (hfresh j hj)
    · cases hstep

/-! ## What holds where no acceptance is cut off -/

/-- Everyone whom the gate lets in is the owner, was a member, or has an acceptance; a login code that was
replaced is known to its participant, or will be. -/
structure Safe (owner : ℤ) (founders : List Participant) (s : State) : Prop where
  gate : ∀ p ∈ s.participants, p.uid ∈ s.identities → p.uid = owner ∨ p ∈ founders ∨ ∃ t, (s.requests t).Brings p
  logins : ∀ l ∈ s.logins, ∀ t, l.writer = some t → l.replaced = true → (s.requests t).Holds

variable {founders : List Participant}

/-- The step of one request: what it brings and holds it goes on to, and what is new it accounts for. -/
theorem Safe.change (h : Safe owner founders s) (hothers : ∀ u, u ≠ t → s'.requests u = s.requests u)
    (hbrings : ∀ p, p.uid ∈ s'.identities → (s.requests t).Brings p → (s'.requests t).Brings p)
    (hholds : (s.requests t).Holds → (s'.requests t).Holds)
    (hgate : ∀ p ∈ s'.participants, p.uid ∈ s'.identities →
      p.uid = owner ∨ (s'.requests t).Brings p ∨ (p ∈ s.participants ∧ p.uid ∈ s.identities))
    (hlogins : ∀ l ∈ s'.logins, l ∈ s.logins ∨ (l.writer = some t ∧ (l.replaced = true → (s'.requests t).Holds))) :
    Safe owner founders s' := by
  refine ⟨fun p hp hid => ?_, fun l hl u hwriter hreplaced => ?_⟩
  · rcases hgate p hp hid with howner | hmine | ⟨hold, hidold⟩
    · exact .inl howner
    · exact .inr (.inr ⟨t, hmine⟩)
    · rcases h.gate p hold hidold with howner | hfounder | ⟨u, hu⟩
      · exact .inl howner
      · exact .inr (.inl hfounder)
      · by_cases hut : u = t
        · exact .inr (.inr ⟨t, hbrings p hid (hut ▸ hu)⟩)
        · exact .inr (.inr ⟨u, by rw [hothers u hut]; exact hu⟩)
  · rcases hlogins l hl with hold | ⟨hmine, hheld⟩
    · have hu := h.logins l hold u hwriter hreplaced
      by_cases hut : u = t
      · rw [hut] at hu ⊢
        exact hholds hu
      · rw [hothers u hut]
        exact hu
    · obtain rfl := Option.some.inj (hmine.symm.trans hwriter)
      exact hheld hreplaced

/-- A request that has neither a participant nor a login code to bring goes on without making one. -/
theorem Safe.turn (h : Safe owner founders s) {old : Request} (hth : s.requests t = old)
    (hbrings : ∀ p, p.uid ∈ s.identities → old.Brings p → r.Brings p) (hholds : old.Holds → r.Holds) :
    Safe owner founders (s.setRequest t r) := by
  subst hth
  refine h.change (t := t) (fun u hu => requests_setRequest_of_ne hu) (fun p hid hp => ?_) (fun hp => ?_)
    (fun p hp hid => .inr (.inr ⟨hp, hid⟩)) fun l hl => .inl hl
  · rw [requests_setRequest]
    exact hbrings p hid hp
  · rw [requests_setRequest]
    exact hholds hp

/-- What a statement writes: the participant of an acceptance or of the owner, and a login code. -/
structure Wrote (owner : ℤ) (t : ℕ) (code : String) (s s' : State) : Prop where
  others : ∀ u, u ≠ t → s'.requests u = s.requests u
  participants : ∀ p ∈ s'.participants, p ∈ s.participants ∨ p.uid = owner ∨
    ∃ invite retried, s.requests t = .enrolling invite p.uid retried ∧ (s'.requests t).Brings p
  logins : ∀ l ∈ s'.logins, l ∈ s.logins ∨ ∃ invite uid pid enrolled, s.requests t = .coding invite uid pid enrolled ∧
    s'.requests t = .issuing invite uid pid enrolled (s.hasLogin pid) code ∧ l = ⟨pid, code, some t, s.hasLogin pid⟩

theorem run_spec (hinv : Inv owner s) (hrun : run owner s t code (s.requests t) = some s') :
    Wrote owner t code s s' := by
  have hok := hinv.requests t
  generalize hth : s.requests t = r at hrun hok
  have hsame : ∀ {s₁ : State} {r : Request}, s₁.requests = s.requests → s₁.participants = s.participants →
      s₁.logins = s.logins → Wrote owner t code s (s₁.setRequest t r) := by
    intro s₁ r hr hp hl
    refine ⟨fun u hu => (requests_setRequest_of_ne hu).trans (congrFun hr u), fun p hmem => .inl ?_,
      fun l hmem => .inl ?_⟩
    · exact hp ▸ hmem
    · exact hl ▸ hmem
  have henroll : ∀ {uid : ℤ} {r : Request}, (uid = owner ∨ ∃ invite retried,
      s.requests t = .enrolling invite uid retried ∧ r.Brings ⟨uid, s.nextPid⟩) →
      Wrote owner t code s ((s.enroll uid).setRequest t r) := by
    intro uid r hwhy
    refine ⟨fun u hu => requests_setRequest_of_ne hu, fun p hp => ?_, fun l hl => .inl hl⟩
    rcases mem_append.1 hp with hp | hp
    · exact .inl hp
    · obtain rfl := mem_singleton.1 hp
      rw [requests_setRequest]
      exact .inr hwhy
  cases r with
  | enrolling invite uid retried =>
    simp only [Accept.run] at hrun
    split at hrun
    · cases hrun
      exact henroll (r := .marking invite uid s.nextPid true) (.inr ⟨invite, retried, hth, rfl⟩)
    · cases hrun
      exact hsame rfl rfl rfl
  | joining uid =>
    simp only [Accept.run] at hrun
    split at hrun
    · cases hrun
      exact hsame rfl rfl rfl
    · cases hrun
      exact henroll (.inl hok)
  | coding invite uid pid enrolled =>
    simp only [Accept.run] at hrun
    split at hrun
    · cases hrun
      exact hsame rfl rfl rfl
    · cases hrun
      refine ⟨fun u hu => requests_setRequest_of_ne hu, fun p hp => .inl hp, fun l hl => ?_⟩
      rcases mem_upsertLogin.1 hl with ⟨hl, -⟩ | rfl
      · exact .inl hl
      · exact .inr ⟨invite, uid, pid, enrolled, hth, requests_setRequest, rfl⟩
  | looking caller invite_code =>
    simp only [Accept.run] at hrun
    split at hrun
    · cases hrun
      exact hsame rfl rfl rfl
    · split at hrun <;> (cases hrun; exact hsame rfl rfl rfl)
  | finding | marking =>
    simp only [Accept.run] at hrun
    split at hrun <;> (cases hrun; exact hsame rfl rfl rfl)
  | gating uid =>
    cases uid with
    | none =>
      cases hrun
      exact hsame rfl rfl rfl
    | some uid =>
      simp only [Accept.run] at hrun
      split at hrun <;> (cases hrun; exact hsame rfl rfl rfl)
  | adding | issuing =>
    cases hrun
    exact hsame rfl rfl rfl
  | idle | accepted | ensured | refused | failed => cases hrun

/-- What an acceptance brings and holds it goes on to, unless it is cut off. -/
theorem run_brings (hw : GoesOn s code (s.requests t)) (hrun : run owner s t code (s.requests t) = some s') :
    (∀ p, p.uid ∈ s.identities → (s.requests t).Brings p → (s'.requests t).Brings p) ∧
      ((s.requests t).Holds → (s'.requests t).Holds) ∧
        ∀ uid ∈ s'.identities, uid ∈ s.identities ∨ ∃ invite pid enrolled replaced c,
          s.requests t = .issuing invite uid pid enrolled replaced c ∧ (s'.requests t).Brings ⟨uid, pid⟩ := by
  generalize hth : s.requests t = r at hrun hw
  cases r with
  | marking invite uid pid enrolled =>
    simp only [Accept.run] at hrun
    split at hrun
    · cases hrun
      refine ⟨fun p _ hp => ?_, False.elim, fun uid huid => .inl huid⟩
      rw [requests_setRequest]
      cases enrolled with
      | false => exact hp
      | true => exact hp
    · next hused =>
        cases hrun
        refine ⟨fun p hid hp => ?_, False.elim, fun uid huid => .inl huid⟩
        cases enrolled with
        | false => exact hp.elim
        | true =>
          cases hp
          exact absurd (hw hid) hused
  | coding invite uid pid enrolled =>
    simp only [Accept.run] at hrun
    split at hrun
    · next hcollides =>
        cases hrun
        refine ⟨fun p hid hp => ?_, False.elim, fun uid huid => .inl huid⟩
        cases enrolled with
        | false => exact hp.elim
        | true =>
          cases hp
          obtain ⟨l, hl, hcode⟩ := any_eq_true.1 hcollides
          obtain ⟨hpid, hcode⟩ := of_decide_eq_true hcode
          exact absurd hcode (hw hid l hl hpid)
    · cases hrun
      refine ⟨fun p _ hp => ?_, False.elim, fun uid huid => .inl huid⟩
      rw [requests_setRequest]
      cases enrolled with
      | false => exact hp
      | true => exact hp
  | issuing invite uid pid enrolled replaced c =>
    cases hrun
    refine ⟨fun p _ hp => ?_, fun _ => ?_, fun u hu => ?_⟩
    · rw [requests_setRequest]
      cases enrolled with
      | false => exact hp.elim
      | true => exact hp
    · rw [requests_setRequest]
      trivial
    · rcases mem_cons.1 hu with rfl | hu
      · refine .inr ⟨invite, pid, enrolled, replaced, c, rfl, ?_⟩
        rw [requests_setRequest]
        rfl
      · exact .inl hu
  | looking caller invite_code =>
    simp only [Accept.run] at hrun
    split at hrun
    · cases hrun
      exact ⟨fun _ _ => False.elim, False.elim, fun _ hu => .inl hu⟩
    · split at hrun <;> (cases hrun; exact ⟨fun _ _ => False.elim, False.elim, fun _ hu => .inl hu⟩)
  | finding | enrolling | joining =>
    simp only [Accept.run] at hrun
    split at hrun <;> (cases hrun; exact ⟨fun _ _ => False.elim, False.elim, fun _ hu => .inl hu⟩)
  | gating uid =>
    cases uid with
    | none =>
      cases hrun
      exact ⟨fun _ _ => False.elim, False.elim, fun _ hu => .inl hu⟩
    | some uid =>
      simp only [Accept.run] at hrun
      split at hrun <;> (cases hrun; exact ⟨fun _ _ => False.elim, False.elim, fun _ hu => .inl hu⟩)
  | adding invite =>
    cases hrun
    exact ⟨fun _ _ => False.elim, False.elim, fun _ hu => .inl hu⟩
  | idle | accepted | ensured | refused | failed => cases hrun

/-- A user has one participant. -/
theorem Inv.unique (h : Inv owner s) {q : Participant} (hp : p ∈ s.participants) (hq : q ∈ s.participants)
    (huid : p.uid = q.uid) : p = q := inj_on_of_nodup_map h.uids hp hq huid

theorem Safe.run (h : Safe owner founders s) (hinv : Inv owner s) (hw : GoesOn s code (s.requests t))
    (hrun : run owner s t code (s.requests t) = some s') : Safe owner founders s' := by
  obtain ⟨hothers, hparticipants, hlogins⟩ := run_spec hinv hrun
  obtain ⟨hbrings, hholds, hidentities⟩ := run_brings hw hrun
  have hinv' := hinv.run hrun
  have hok := hinv.requests t
  -- whoever is known only now has the participant of the acceptance
  have hnew : ∀ p ∈ s'.participants, p.uid ∈ s'.identities → p.uid ∈ s.identities ∨ (s'.requests t).Brings p := by
    intro p hp hid
    rcases hidentities p.uid hid with hid | ⟨invite, pid, enrolled, replaced, c, hth, hmine⟩
    · exact .inl hid
    · rw [hth] at hok
      have hmem : (⟨p.uid, pid⟩ : Participant) ∈ s'.participants := by
        rw [hth] at hrun
        cases hrun
        exact hok.1
      rw [hinv'.unique hp hmem rfl]
      exact .inr hmine
  refine h.change hothers (fun p hid hp => ?_) hholds (fun p hp hid => ?_) fun l hl => ?_
  · rcases hidentities p.uid hid with hid | ⟨invite, pid, enrolled, replaced, c, hth, hmine⟩
    · exact hbrings p hid hp
    · rw [hth] at hp
      cases enrolled with
      | false => exact hp.elim
      | true =>
        rw [show p = ⟨p.uid, pid⟩ from hp]
        exact hmine
  · rcases hparticipants p hp with hold | howner | ⟨invite, retried, -, hmine⟩
    · rcases hnew p hp hid with hid | hmine
      · exact .inr (.inr ⟨hold, hid⟩)
      · exact .inr (.inl hmine)
    · exact .inl howner
    · exact .inr (.inl hmine)
  · rcases hlogins l hl with hold | ⟨invite, uid, pid, enrolled, -, hth', rfl⟩
    · exact .inl hold
    · refine .inr ⟨rfl, fun hreplaced => ?_⟩
      rw [hth']
      exact hreplaced

/-- A failure that cuts nothing off. -/
theorem Safe.error (h : Safe owner founders s) (hinv : Inv owner s) {applied : Bool}
    (hw : FailsClean s applied (s.requests t)) (hstep : Step owner s (.error t code applied) s') :
    Safe owner founders s' := by
  have hbrings : ∀ p, p.uid ∈ s.identities → ¬(s.requests t).Brings p := by
    intro p hid hp
    cases hth : s.requests t with
    | marking invite uid pid enrolled =>
      rw [hth] at hp hw
      cases enrolled with
      | false => exact hp
      | true =>
        cases hp
        exact hw rfl hid
    | coding _ _ _ enrolled | issuing _ _ _ enrolled =>
      rw [hth] at hp hw
      cases enrolled with
      | false => exact hp
      | true =>
        cases hp
        exact hw.1 rfl hid
    | accepted a => simp [Step, Accept.next, hth, Request.isEnded] at hstep
    | _ =>
      rw [hth] at hp
      exact hp
  have hholds : ¬(s.requests t).Holds := by
    intro hheld
    cases hth : s.requests t with
    | issuing invite uid pid enrolled replaced c =>
      rw [hth] at hheld hw
      exact absurd (hw.2.symm.trans hheld) nofun
    | accepted a => simp [Step, Accept.next, hth, Request.isEnded] at hstep
    | _ =>
      rw [hth] at hheld
      exact hheld
  simp only [Step, Accept.next] at hstep
  split at hstep
  · cases hstep
  · split at hstep
    · next happlied =>
        obtain ⟨s₁, hrun, rfl⟩ := map_eq_some_iff.1 hstep
        obtain ⟨hothers, hparticipants, hlogins⟩ := run_spec hinv hrun
        refine h.change (t := t) (fun u hu => (requests_setRequest_of_ne hu).trans (hothers u hu))
          (fun p hid hp => absurd hp (hbrings p hid)) (fun hheld => absurd hheld hholds) (fun p hp hid => ?_)
          fun l hl => ?_
        · rcases hparticipants p hp with hold | howner | ⟨invite, retried, hth, -⟩
          · exact .inr (.inr ⟨hold, hid⟩)
          · exact .inl howner
          · rw [hth] at hw
            exact absurd hid (hw happlied)
        · rcases hlogins l hl with hold | ⟨invite, uid, pid, enrolled, hth, -, rfl⟩
          · exact .inl hold
          · rw [hth] at hw
            exact .inr ⟨rfl, fun hreplaced => absurd (hreplaced.symm.trans (hw.2 happlied)) nofun⟩
    · cases hstep
      exact h.turn rfl (fun p hid hp => absurd hp (hbrings p hid)) fun hheld => absurd hheld hholds

theorem Safe.next (h : Safe owner founders s) (hinv : Inv owner s) {e : Event} (hw : Whole s e)
    (hstep : Step owner s e s') : Safe owner founders s' := by
  cases e with
  | accept | ensure =>
    simp only [Step, Accept.next] at hstep
    split at hstep
    · next hidle =>
        cases hstep
        exact h.turn hidle.1 (fun _ _ => False.elim) False.elim
    · cases hstep
  | run t code => exact h.run hinv hw hstep
  | error t code applied => exact h.error hinv hw hstep
  | invite i =>
    simp only [Step, Accept.next] at hstep
    split at hstep
    · cases hstep
      exact ⟨h.gate, h.logins⟩
    · cases hstep

/-! ## One invite, one member -/

theorem Start.inv (h : Start s) : Inv owner s := by
  refine ⟨h.uids, fun t => ?_, ?_, fun m hm => ?_⟩
  · rw [h.requests]
    trivial
  · rw [h.marks]
    exact nodup_nil
  · rw [h.marks] at hm
    cases hm

theorem Start.safe (h : Start s) : Safe owner s.participants s :=
  ⟨fun _ hp _ => .inr (.inl hp), fun l hl t hwriter _ => nomatch (h.logins l hl).symm.trans hwriter⟩

end Polis.Treevite.Accept
