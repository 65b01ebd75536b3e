import Polis.Poller.Admission
import Polis.Common.Run

/-!
# What memory admission guarantees

Reservations are granted in ticket order and within the budget, and an exclusive one is granted
alone. A waiter that was first in line when its iteration began does not block with nothing granted
and nothing evictable.

Reference: `polismath/poller/admission.py`.
-/

namespace Polis.Poller

open AdmissionState List

variable {config : AdmissionConfig} {s s' : AdmissionState} {ticket : ℕ} {req : Request}

/-! ## Orderly queues -/

/-- What the first section of an iteration found out stays true: a first ticket is still first, and
the call's own zid is protected. -/
def ReservePhase.Informed (waiters : List ℕ) (ticket : ℕ) (req : Request) : ReservePhase → Prop
  | .evicting head protect => (head = true → waiters.head? = some ticket) ∧ req.zid ∈ protect
  | .deciding head protect => (head = true → waiters.head? = some ticket) ∧ req.zid ∈ protect
  | _ => True

/-- The queue is in ticket order and has every call that is in its loop, and an exclusive
reservation is alone. -/
structure Orderly (s : AdmissionState) : Prop where
  sorted : s.waiters.Pairwise (· < ·)
  waiters_lt : ∀ t ∈ s.waiters, t < s.tokens
  calls_lt : ∀ t call, s.calls t = some call → t < s.tokens
  queued : ∀ t req phase, s.calls t = some (req, phase) → phase.InLoop → t ∈ s.waiters
  informed : ∀ t req phase, s.calls t = some (req, phase) → phase.Informed s.waiters t req
  alone : ∀ r ∈ s.granted, r.exclusive = true → s.granted = [r]

theorem Orderly.init (baseBytes : ℕ) : Orderly (.init baseBytes) where
  sorted := .nil
  waiters_lt := by simp [AdmissionState.init]
  calls_lt := by simp [AdmissionState.init]
  queued := by simp [AdmissionState.init]
  informed := by simp [AdmissionState.init]
  alone := by simp [AdmissionState.init]

/-- A call in its loop goes on. -/
theorem Orderly.goto (h : Orderly s) {phase : ReservePhase}
    (hcall : s.calls ticket = some (req, phase)) (hloop : phase.InLoop) {phase' : ReservePhase}
    (hinformed : phase'.Informed s.waiters ticket req) : Orderly (s.goto ticket req phase') where
  sorted := h.sorted
  waiters_lt := h.waiters_lt
  calls_lt := fun t call hc => by
    by_cases ht : t = ticket
    · exact ht ▸ h.calls_lt ticket _ hcall
    · exact h.calls_lt t call (by simpa [AdmissionState.goto, ht] using hc)
  queued := fun t req' phase'' hc hl => by
    by_cases ht : t = ticket
    · exact ht ▸ h.queued ticket req phase hcall hloop
    · exact h.queued t req' phase'' (by simpa [AdmissionState.goto, ht] using hc) hl
  informed := fun t req' phase'' hc => by
    by_cases ht : t = ticket
    · subst ht
      obtain ⟨rfl, rfl⟩ : req = req' ∧ phase' = phase'' := by
        simpa [goto] using hc
      exact hinformed
    · exact h.informed t req' phase'' (by simpa [AdmissionState.goto, ht] using hc)
  alone := h.alone

/-- The first in line has the smallest ticket. -/
theorem Orderly.head_le (h : Orderly s) (hhead : s.waiters.head?.all (· = ticket) = true) :
    ∀ t ∈ s.waiters, ticket ≤ t := by
  intro t ht
  cases hw : s.waiters with
  | nil => simp [hw] at ht
  | cons first rest =>
    have hsorted := h.sorted
    rw [hw] at hhead ht hsorted
    obtain rfl : first = ticket := by simpa using hhead
    rcases mem_cons.1 ht with rfl | ht
    · exact le_rfl
    · exact (rel_of_pairwise_cons hsorted ht).le

/-- A request that is not blocked by exclusive reservations keeps them alone. -/
theorem alone_of_not_blocked (hgrant : s.blockedByExclusive req = false)
    (res : Reservation) (hres : res.exclusive = req.exclusive) :
    ∀ r ∈ s.granted ++ [res], r.exclusive = true → s.granted ++ [res] = [r] := by
  simp only [blockedByExclusive, Bool.or_eq_false_iff, any_eq_false, Bool.and_eq_false_iff]
    at hgrant
  obtain ⟨hnone, hempty⟩ := hgrant
  intro r hr hex
  rcases mem_append.1 hr with hr | hr
  · exact absurd hex (by simpa using hnone r hr)
  · obtain rfl := mem_singleton.1 hr
    rcases hempty with hempty | hempty
    · rw [← hres, hex] at hempty
      cases hempty
    · have : s.granted = [] := by simpa using hempty
      rw [this, nil_append]

theorem Orderly.tryGrant (h : Orderly s) (config : AdmissionConfig)
    (hcall : s.calls ticket = some (req, .testing))
    (rss rss' : Option ℕ) : Orderly (s.tryGrant config ticket req rss rss') := by
  unfold AdmissionState.tryGrant
  by_cases hgrant : s.grantable config ticket req rss = true
  · rw [if_pos hgrant]
    simp only [grantable, Bool.and_eq_true, Bool.not_eq_true'] at hgrant
    have hgo : Orderly (s.goto ticket req (.leaving .granted)) := h.goto hcall trivial trivial
    exact {
      sorted := hgo.sorted
      waiters_lt := hgo.waiters_lt
      calls_lt := hgo.calls_lt
      queued := hgo.queued
      informed := hgo.informed
      alone := alone_of_not_blocked hgrant.1.2 _ rfl }
  · rw [if_neg hgrant]
    have hown : req.zid ∈ s.protect req := by simp [protect]
    dsimp only
    split
    · exact h.goto hcall trivial ⟨by simp, hown⟩
    · exact h.goto hcall trivial ⟨by simp, hown⟩

theorem Orderly.refuseOrWait (h : Orderly s) {head : Bool} {protect : Finset ℤ}
    (hcall : s.calls ticket = some (req, .deciding head protect)) (rss rss' : Option ℕ)
    (stopped : Bool) :
    Orderly (s.refuseOrWait config ticket req head protect rss rss' stopped) := by
  have hgo : ∀ phase' : ReservePhase, phase'.Informed s.waiters ticket req →
      Orderly (s.goto ticket req phase') := fun _ => h.goto hcall trivial
  unfold AdmissionState.refuseOrWait
  repeat' split
  all_goals exact hgo _ trivial

/-- Leaving the queue keeps it in order: the others in it, and the first one, stay. -/
theorem Orderly.leave (h : Orderly s) {result : ReserveResult}
    (hcall : s.calls ticket = some (req, .leaving result)) :
    Orderly (s.leave ticket req result) where
  sorted := h.sorted.sublist erase_sublist
  waiters_lt := fun t ht => h.waiters_lt t (mem_of_mem_erase ht)
  calls_lt := fun t call hc => by
    by_cases ht : t = ticket
    · exact ht ▸ h.calls_lt ticket _ hcall
    · exact h.calls_lt t call (by simpa [AdmissionState.leave, AdmissionState.goto, ht] using hc)
  queued := fun t req' phase hc hl => by
    by_cases ht : t = ticket
    · subst ht
      obtain ⟨-, rfl⟩ : req = req' ∧ .returned result = phase := by
        simpa [AdmissionState.leave, AdmissionState.goto] using hc
      exact hl.elim
    · refine (mem_erase_of_ne ht).2 (h.queued t req' phase ?_ hl)
      simpa [AdmissionState.leave, AdmissionState.goto, ht] using hc
  informed := fun t req' phase hc => by
    by_cases ht : t = ticket
    · subst ht
      obtain ⟨-, rfl⟩ : req = req' ∧ .returned result = phase := by
        simpa [AdmissionState.leave, AdmissionState.goto] using hc
      trivial
    · have hinf := h.informed t req' phase
        (by simpa [AdmissionState.leave, AdmissionState.goto, ht] using hc)
      have hstays : s.waiters.head? = some t → (s.waiters.erase ticket).head? = some t := by
        intro hhead
        cases hw : s.waiters with
        | nil => simp [hw] at hhead
        | cons first rest =>
          rw [hw, head?_cons, Option.some.injEq] at hhead
          subst hhead
          rw [erase_cons_tail (by simpa using ht), head?_cons]
      cases phase with
      | evicting | deciding => exact ⟨fun hh => hstays (hinf.1 hh), hinf.2⟩
      | testing | waiting | leaving _ | returned _ => trivial
  alone := h.alone

/-- A new call joins at the end of the queue. -/
theorem Orderly.enter (h : Orderly s) :
    Orderly ({ s with waiters := s.waiters ++ [s.tokens], tokens := s.tokens + 1 }.goto s.tokens
      req .testing) where
  sorted := pairwise_append.2 ⟨h.sorted, pairwise_singleton _ _, fun t ht t' ht' => by
    rw [mem_singleton.1 ht']
    exact h.waiters_lt t ht⟩
  waiters_lt := fun t ht => by
    rcases mem_append.1 ht with ht | ht
    · exact (h.waiters_lt t ht).trans (Nat.lt_succ_self _)
    · rw [mem_singleton.1 ht]
      exact Nat.lt_succ_self _
  calls_lt := fun t call hc => by
    by_cases ht : t = s.tokens
    · rw [ht]
      exact Nat.lt_succ_self _
    · exact (h.calls_lt t call (by simpa [AdmissionState.goto, ht] using hc)).trans
        (Nat.lt_succ_self _)
  queued := fun t req' phase hc hl => by
    by_cases ht : t = s.tokens
    · exact mem_append_right _ (mem_singleton.2 ht)
    · refine mem_append_left _ (h.queued t req' phase ?_ hl)
      simpa [AdmissionState.goto, ht] using hc
  informed := fun t req' phase hc => by
    by_cases ht : t = s.tokens
    · subst ht
      obtain ⟨-, rfl⟩ : req = req' ∧ .testing = phase := by
        simpa [AdmissionState.goto] using hc
      trivial
    · have hinf := h.informed t req' phase (by simpa [AdmissionState.goto, ht] using hc)
      have hstays : s.waiters.head? = some t → (s.waiters ++ [s.tokens]).head? = some t := by
        intro hhead
        rw [head?_append, hhead]
        rfl
      cases phase with
      | evicting | deciding => exact ⟨fun hh => hstays (hinf.1 hh), hinf.2⟩
      | testing | waiting | leaving _ | returned _ => trivial
  alone := h.alone

/-- Every event keeps the queue orderly. -/
theorem Orderly.step (h : Orderly s) {e : AdmissionEvent} (hs : s.Step config e s') :
    Orderly s' := by
  have hsame : ∀ baseBytes accounts, Orderly { s with baseBytes, accounts } := fun _ _ => { h with }
  cases e with
  | enter req =>
    obtain rfl := hs
    split
    · exact h
    · exact h.enter
  | test ticket rss rss' =>
    obtain ⟨req, hcall, rfl⟩ := hs
    exact h.tryGrant config hcall rss rss'
  | evicted ticket freed =>
    obtain ⟨req, head, protect, hcall, rfl⟩ := hs
    have hinf := h.informed ticket req _ hcall
    split
    · exact h.goto hcall trivial trivial
    · exact h.goto hcall trivial hinf
  | decide ticket rss rss' stopped =>
    obtain ⟨req, head, protect, hcall, rfl⟩ := hs
    exact h.refuseOrWait hcall rss rss' stopped
  | wake ticket =>
    obtain ⟨req, hcall, rfl⟩ := hs
    exact h.goto hcall trivial trivial
  | leave ticket =>
    obtain ⟨req, result, hcall, rfl⟩ := hs
    exact h.leave hcall
  | release token =>
    obtain rfl := hs
    refine { h with alone := fun r hr hex => ?_ }
    obtain ⟨hr, htoken⟩ := mem_filter.1 hr
    simp only [release, h.alone r hr hex]
    rw [filter_cons_of_pos (by simpa using htoken), filter_nil]
  | setRetained | drop | hold | unhold =>
    obtain rfl := hs
    exact hsame _ _
  | refreshBaseline rss =>
    obtain rfl := hs
    unfold refreshBaseline
    split
    · exact h
    · exact hsame _ _

theorem run_orderly {baseBytes : ℕ} {es : List AdmissionEvent}
    (h : Run (AdmissionState.Step config) (.init baseBytes) es s) : Orderly s :=
  h.keeps Orderly (.init baseBytes) fun _ _ _ ho hs => ho.step hs

/-! ## Grants -/

/-- A reservation is granted only by the first section of its own call. -/
theorem granted_by_test {e : AdmissionEvent} {r : Reservation} (hs : s.Step config e s')
    (hr : r ∈ s'.granted) (hnew : r ∉ s.granted) :
    ∃ req rss, s.calls r.token = some (req, .testing) ∧ req.zid = r.zid ∧
      req.nbytes = r.nbytes ∧ s.grantable config r.token req rss = true ∧
      s'.granted = s.granted ++ [r] ∧ s'.baseBytes = s.baseBytes ∧ s'.accounts = s.accounts := by
  cases e with
  | test ticket rss rss' =>
    obtain ⟨req, hcall, rfl⟩ := hs
    unfold AdmissionState.tryGrant at hr ⊢
    by_cases hgrant : s.grantable config ticket req rss = true
    · rw [if_pos hgrant] at hr ⊢
      rcases mem_append.1 hr with hr | hr
      · exact absurd hr hnew
      · obtain rfl := mem_singleton.1 hr
        exact ⟨req, rss, hcall, rfl, rfl, hgrant, rfl, rfl, rfl⟩
    · rw [if_neg hgrant] at hr
      dsimp only at hr
      split at hr <;> exact absurd hr hnew
  | enter req =>
    obtain rfl := hs
    split at hr <;> exact absurd hr hnew
  | evicted ticket freed =>
    obtain ⟨req, head, protect, -, rfl⟩ := hs
    exact absurd hr hnew
  | decide ticket rss rss' stopped =>
    obtain ⟨req, head, protect, -, rfl⟩ := hs
    unfold AdmissionState.refuseOrWait at hr
    repeat' split at hr
    all_goals exact absurd hr hnew
  | wake ticket =>
    obtain ⟨req, -, rfl⟩ := hs
    exact absurd hr hnew
  | leave ticket =>
    obtain ⟨req, result, -, rfl⟩ := hs
    exact absurd hr hnew
  | release token =>
    obtain rfl := hs
    exact absurd (mem_of_mem_filter hr) hnew
  | setRetained | drop | hold | unhold =>
    obtain rfl := hs
    exact absurd hr hnew
  | refreshBaseline rss =>
    obtain rfl := hs
    unfold refreshBaseline at hr
    split at hr <;> exact absurd hr hnew

/-- What fits on a sample fits on the accounted bytes. -/
theorem le_budget_of_fits {rss : Option ℕ} {nbytes budget : ℕ}
    (hbudget : config.budgetBytes = some budget) (h : s.fits config rss nbytes = true) :
    s.baseBytes + s.accounts.retainedTotal + s.grantedBytes + nbytes ≤ budget := by
  simp only [fits, hbudget] at h
  have hused := of_decide_eq_true h
  rw [used] at hused
  have := le_max_left (s.baseBytes + s.accounts.retainedTotal) (rss.getD 0)
  omega

/-! ## Blocking -/

/-- Nothing is granted, and nothing but the zid's own and the held conversations is retained. -/
def AdmissionState.Exhausted (s : AdmissionState) (zid : ℤ) : Prop :=
  s.granted = [] ∧ ∀ z ∈ s.accounts.retained, z = zid ∨ z ∈ s.accounts.holds

/-- A first ticket that cannot be granted in an exhausted state is short of memory. -/
private theorem shortfall_pos {rss : Option ℕ} (hhead : s.waiters.head? = some ticket)
    (hexhausted : s.Exhausted req.zid) (hgrant : s.grantable config ticket req rss = false) :
    0 < s.shortfall config rss req.nbytes := by
  have hfits : s.fits config rss req.nbytes = false := by
    simpa [grantable, hhead, blockedByExclusive, hexhausted.1] using hgrant
  unfold fits at hfits
  unfold shortfall
  cases hbudget : config.budgetBytes with
  | none => simp [hbudget] at hfits
  | some budget =>
    simp only [hbudget, decide_eq_false_iff_not] at hfits
    dsimp only
    omega

/-- A call whose iteration began first in line does not block in an exhausted state: it tries again
because it fits now, it is deferred because it would not wait, or it is refused. -/
theorem Orderly.decide_exhausted (h : Orderly s) (config : AdmissionConfig) {protect : Finset ℤ}
    (hcall : s.calls ticket = some (req, .deciding true protect))
    (hexhausted : s.Exhausted req.zid) (rss : Option ℕ) (stopped : Bool) :
    let s' := s.refuseOrWait config ticket req true protect rss rss stopped
    (s.grantable config ticket req rss = true ∧ s'.calls ticket = some (req, .testing)) ∨
    (req.wait = false ∧ s'.calls ticket = some (req, .leaving .deferred)) ∨
    s'.calls ticket = some (req, .leaving .overBudget) := by
  obtain ⟨hhead, hown⟩ := h.informed ticket req _ hcall
  intro s'
  simp only [s', AdmissionState.refuseOrWait]
  by_cases hgrant : s.grantable config ticket req rss = true
  · exact .inl ⟨hgrant, by simp [hgrant, AdmissionState.goto]⟩
  · by_cases hwait : req.wait = false
    · exact .inr (.inl ⟨hwait, by simp [hgrant, hwait, AdmissionState.goto]⟩)
    · have hshort := shortfall_pos (hhead rfl) hexhausted (by simpa using hgrant)
      have hprotected : ∀ z ∈ s.accounts.retained.keys,
          z ∈ protect ∪ s.accounts.holds.toFinset := by
        intro z hz
        rcases hexhausted.2 z hz with rfl | hheld
        · exact Finset.mem_union_left _ hown
        · exact Finset.mem_union_right _ (Multiset.mem_toFinset.2 hheld)
      rw [if_neg hgrant, if_neg hwait, if_pos ⟨hexhausted.1, trivial, hshort, hprotected⟩]
      exact .inr (.inr (by simp [AdmissionState.goto]))

/-- A test that is first in line in an exhausted state grants, or goes on to decide as first. -/
theorem tryGrant_exhausted (config : AdmissionConfig) (hhead : s.waiters.head? = some ticket)
    (hexhausted : s.Exhausted req.zid) (rss : Option ℕ) :
    let s' := s.tryGrant config ticket req rss rss
    s'.calls ticket = some (req, .leaving .granted) ∨
    s.grantable config ticket req rss = false ∧
      s' = s.goto ticket req (.deciding true (s.protect req)) := by
  intro s'
  simp only [s', AdmissionState.tryGrant]
  by_cases hgrant : s.grantable config ticket req rss = true
  · exact .inl (by simp [hgrant, goto])
  · have hnone : s.evictable (s.protect req) = 0 := by
      have hfilter : s.accounts.retained.entries.filter (fun e => e.1 ∉ s.protect req) = [] := by
        refine filter_eq_nil_iff.2 fun e he => ?_
        have hmem : e.1 ∈ s.protect req := by
          rcases hexhausted.2 e.1 (mem_keys_of_mem he) with heq | hheld
          · simp [protect, heq]
          · simp [protect, hheld]
        simpa using hmem
      rw [evictable, hfilter]
      rfl
    refine .inr ⟨by simpa using hgrant, ?_⟩
    rw [if_neg hgrant, if_neg (by simp [hnone])]
    simp [hhead]

/-! ## The contract -/

/-- The contract of `reserve`, in every state of every run. An exclusive reservation is the only
granted one. When one is granted, no call with a smaller ticket is in its loop, and base, retained
and granted bytes with the new one are within the budget. In an exhausted state, on one RSS sample,
a call whose iteration began first in line does not block; and a first call that blocks, left alone,
is granted or refused in its next iteration. -/
theorem reserve_contract {baseBytes : ℕ} {es : List AdmissionEvent}
    (hrun : Run (AdmissionState.Step config) (.init baseBytes) es s) :
    (∀ r ∈ s.granted, r.exclusive = true → s.granted = [r]) ∧
    (∀ e s' r, s.Step config e s' → r ∈ s'.granted → r ∉ s.granted →
      (r.exclusive = true → s'.granted = [r]) ∧
      (∀ t req phase, s.calls t = some (req, phase) → phase.InLoop → r.token ≤ t) ∧
      ∀ budget, config.budgetBytes = some budget →
        s'.baseBytes + s'.accounts.retainedTotal + s'.grantedBytes ≤ budget) ∧
    (∀ ticket req protect rss stopped s',
      s.calls ticket = some (req, .deciding true protect) → s.Exhausted req.zid →
      s.Step config (.decide ticket rss rss stopped) s' →
      (s.grantable config ticket req rss = true ∧ s'.calls ticket = some (req, .testing)) ∨
      (req.wait = false ∧ s'.calls ticket = some (req, .leaving .deferred)) ∨
      s'.calls ticket = some (req, .leaving .overBudget)) ∧
    (∀ ticket req rss stopped s₁ s₂,
      s.calls ticket = some (req, .waiting) → s.waiters.head? = some ticket →
      s.Exhausted req.zid → s.Step config (.wake ticket) s₁ →
      s₁.Step config (.test ticket rss rss) s₂ →
      s₂.calls ticket = some (req, .leaving .granted) ∨
      ∀ s₃, s₂.Step config (.decide ticket rss rss stopped) s₃ →
        (req.wait = false ∧ s₃.calls ticket = some (req, .leaving .deferred)) ∨
        s₃.calls ticket = some (req, .leaving .overBudget)) := by
  have h := run_orderly hrun
  refine ⟨h.alone, fun e s' r hs hr hnew => ?_,
    fun ticket req protect rss stopped s' hcall hex hs =>
    ?_, fun ticket req rss stopped s₁ s₂ hcall hhead hex hs₁ hs₂ => ?_⟩
  · obtain ⟨req, rss, hcall, -, hbytes, hgrant, hgranted, hbase, haccounts⟩ :=
      granted_by_test hs hr hnew
    simp only [grantable, Bool.and_eq_true] at hgrant
    refine ⟨(h.step hs).alone r hr, fun t req' phase ht hloop =>
      h.head_le hgrant.1.1 t (h.queued t req' phase ht hloop), fun budget hbudget => ?_⟩
    have hle := le_budget_of_fits hbudget hgrant.2
    have htotal : s'.grantedBytes = s.grantedBytes + req.nbytes := by
      rw [grantedBytes, hgranted, grantedBytes, map_append, sum_append, hbytes]
      rfl
    rw [htotal, hbase, haccounts]
    omega
  · obtain ⟨req', head, protect', hcall', rfl⟩ := hs
    obtain ⟨rfl, rfl, rfl⟩ : req = req' ∧ true = head ∧ protect = protect' := by
      simpa [hcall] using hcall'
    exact h.decide_exhausted config hcall hex rss stopped
  · obtain ⟨req', hcall', rfl⟩ := hs₁
    obtain rfl : req = req' := by simpa [hcall] using hcall'
    obtain ⟨req', hcall₁, rfl⟩ := hs₂
    obtain rfl : req = req' := by simpa [goto] using hcall₁
    have h₁ : Orderly (s.goto ticket req .testing) := h.goto hcall trivial trivial
    rcases tryGrant_exhausted config (s := s.goto ticket req .testing) hhead hex rss with
      hgranted | ⟨hgrant, hdeciding⟩
    · exact .inl hgranted
    · refine .inr fun s₃ hs₃ => ?_
      have h₂ := h₁.tryGrant config hcall₁ rss rss
      rw [hdeciding] at hs₃ h₂
      obtain ⟨req', head, protect, hcall₂, rfl⟩ := hs₃
      obtain ⟨rfl, rfl, rfl⟩ : req = req' ∧ true = head ∧ _ = protect := by
        simpa [goto] using hcall₂
      rcases h₂.decide_exhausted config hcall₂ hex rss stopped with
        ⟨hgrant₂, -⟩ | hdone
      · -- nothing changed since the test, so it still does not fit
        exact absurd (hgrant.symm.trans hgrant₂) (by decide)
      · exact hdone

private def smallBudget : AdmissionConfig := ⟨some 100, 10, true⟩

private def firstReq : Request := ⟨1, 30, false, true⟩

private def secondReq : Request := ⟨2, 50, false, true⟩

/-- Conversation 3 is retained. -/
private def onlyRetained : AdmissionState :=
  { init 10 with accounts := Accounts.setRetained .empty 3 50 }

/-- Conversation 3 is retained and held. -/
private def heldRetained : AdmissionState :=
  { init 10 with accounts := (Accounts.setRetained .empty 3 50).hold 3 }

/-- One call in the queue. -/
private def oneCall : AdmissionState :=
  { heldRetained with
    waiters := [0]
    tokens := 1
    calls := Function.update (fun _ => none) 0 (some (firstReq, .testing)) }

/-- Two calls in the queue. -/
private def twoCalls : AdmissionState :=
  { oneCall with
    waiters := [0, 1]
    tokens := 2
    calls := Function.update oneCall.calls 1 (some (secondReq, .testing)) }

private theorem run_twoCalls : Run (AdmissionState.Step smallBudget) (.init 10)
    [.setRetained 3 50, .hold 3, .enter firstReq, .enter secondReq] twoCalls := by
  have hfirst : heldRetained.Step smallBudget (.enter firstReq) oneCall := by
    change oneCall = _
    rw [if_neg (by decide)]
    rfl
  have hsecond : oneCall.Step smallBudget (.enter secondReq) twoCalls := by
    change twoCalls = _
    rw [if_neg (by decide)]
    rfl
  have hset : (init 10).Step smallBudget (.setRetained 3 50) onlyRetained := rfl
  have hhold : onlyRetained.Step smallBudget (.hold 3) heldRetained := rfl
  have h₀ : Run (AdmissionState.Step smallBudget) (.init 10) [] (.init 10) := .nil
  exact (((h₀.snoc hset).snoc hhold).snoc hfirst).snoc hsecond

/-- The call that is first in line and fits is granted within the budget. -/
theorem reserve_contract_first_granted :
    ((twoCalls.tryGrant smallBudget 0 firstReq none none).granted = [⟨0, 1, 30, false⟩]) ∧
    10 + 50 + 30 ≤ 100 := by
  have hstep : twoCalls.Step smallBudget (.test 0 none none)
      (twoCalls.tryGrant smallBudget 0 firstReq none none) := ⟨firstReq, rfl, rfl⟩
  have hgranted := (reserve_contract run_twoCalls).2.1 _ _ ⟨0, 1, 30, false⟩ hstep
    (by decide) (by decide)
  exact ⟨by decide, hgranted.2.2 100 rfl⟩

/-- The second call finds itself behind the first; the first is granted, leaves and releases; the
second, now first in line with nothing granted and nothing evictable, still blocks. -/
theorem first_waiter_blocks :
    ∃ (es : List AdmissionEvent) (s : AdmissionState),
      Run (AdmissionState.Step smallBudget) (.init 10) es s ∧
      s.calls 1 = some (secondReq, .waiting) ∧ s.waiters.head? = some 1 ∧ s.granted = [] ∧
      ∀ z ∈ s.accounts.retained.keys, z ∈ s.accounts.holds := by
  have h₁ := run_twoCalls.snoc (show twoCalls.Step smallBudget (.test 1 none none) _ from
    ⟨secondReq, rfl, rfl⟩)
  have h₂ := h₁.snoc (show AdmissionState.Step smallBudget _ (.test 0 none none) _ from
    ⟨firstReq, by decide, rfl⟩)
  have h₃ := h₂.snoc (show AdmissionState.Step smallBudget _ (.leave 0) _ from
    ⟨firstReq, .granted, by decide, rfl⟩)
  have h₄ := h₃.snoc (show AdmissionState.Step smallBudget _ (.release 0) _ from rfl)
  have h₅ := h₄.snoc (show AdmissionState.Step smallBudget _ (.decide 1 none none false) _ from
    ⟨secondReq, false, twoCalls.protect secondReq, by decide, rfl⟩)
  exact ⟨_, _, h₅, by decide, by decide, by decide, by decide⟩

end Polis.Poller
