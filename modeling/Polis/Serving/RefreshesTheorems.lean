import Polis.Serving.Refreshes
import Polis.Common.Table

/-!
# What refreshes promise

The invariant of the machine, for any service: at most one call has the lock of a flight, and a flight that
is alive and has not failed is the one that its conversation's next call joins. So one read of a
conversation is in progress at most, and what a joiner finds was left by a holder of its own flight.

Reference: `queue-rs/polis-api/src/pca.rs`.
-/

namespace Polis.Refreshes

open List Function Nat

variable {ρ τ χ σ κ ω : Type*}

/-! ## What values are made of -/

/-- Values, and entries of the cache, that come from what was stored for a conversation. -/
structure Sound (svc : Service ρ τ χ σ κ ω) (blank : σ) where
  good : List (ℤ × σ) → ℤ → τ → Prop
  kept : List (ℤ × σ) → ℤ → χ → Prop
  goodMono : ∀ {h h' zid v}, (∀ p ∈ h, p ∈ h') → good h zid v → good h' zid v
  keptMono : ∀ {h h' zid x}, (∀ p ∈ h, p ∈ h') → kept h zid x → kept h' zid x
  build : ∀ {h zid r hint rows now n v}, (∀ x, hint = some x → kept h zid x) →
    (∀ q, rows = some q → ∃ hint row, (row = blank ∨ (zid, row) ∈ h) ∧ (∀ x, hint = some x → kept h zid x) ∧
      q = svc.query hint row) → svc.build r hint rows now n = .ok v → good h zid v
  finish : ∀ {h zid r v now n p}, good h zid v → svc.finish r v now n = .ok p →
    (∀ v', p.value = some v' → good h zid v') ∧ ∀ x, p.keep = some x → kept h zid x

variable {svc : Service ρ τ χ σ κ ω} {blank : σ} (snd : Sound svc blank) {patience : ℕ}

/-! ## The invariant -/

/-- The flight whose lock is held by a call that may still leave something there. -/
def Call.working : Call ρ τ χ κ ω → Option ℕ
  | .dispatching _ _ f _ | .reading _ _ f _ _ _ | .back _ _ f _ _ | .settled _ _ f _ _ => some f
  | _ => none

/-- A read of the conversation is in progress. -/
def Call.Reads (zid : ℤ) : Call ρ τ χ κ ω → Prop
  | .reading z _ _ _ _ _ => z = zid
  | _ => False

/-- Rows that a query gave. -/
def Queried (s : State ρ τ χ σ κ ω) (zid : ℤ) (rows : Option κ) : Prop :=
  ∀ q, rows = some q → ∃ hint row, (row = blank ∨ (zid, row) ∈ s.history) ∧
    (∀ x, hint = some x → snd.kept s.history zid x) ∧ q = svc.query hint row

/-- The flight is one of the conversation. -/
def Of (s : State ρ τ χ σ κ ω) (zid : ℤ) (f : ℕ) : Prop := f < s.fresh ∧ (s.flight f).zid = zid

variable (svc) in
/-- How a value came to a call: it was left in the call's flight, and can be used. -/
def Came (s : State ρ τ χ σ κ ω) (r : ρ) (f : ℕ) (v : τ) : Role τ → Prop
  | .shared g w seen => g = f ∧ w = v ∧ (f, .ok v) ∈ s.log ∧ svc.shares r v seen = true
  | .led g w ended => g = f ∧ w = v ∧ (f, .ok v) ∈ s.log ∧ ∃ hint rows n, svc.build r hint rows ended n = .ok v
  | _ => False

/-- What a call is answered. -/
def Answered (s : State ρ τ χ σ κ ω) (zid : ℤ) (r : ρ) (time : ℤ) (answer : Except RefreshError ω) :
    Role τ → Prop
  | .cached => ∃ cached a, (∀ x, cached = some x → snd.kept s.history zid x) ∧ answer = .ok a ∧
      svc.hit r cached time = some a
  | .refused f => Of s zid f ∧ ∃ e, answer = .error e ∧ (f, .error e) ∈ s.log
  | .failed f => Of s zid f ∧ ∃ e, answer = .error e
  | .timedOut => answer = .error ⟨"pca refresh wait timed out", true⟩
  | .shared f v seen => Of s zid f ∧ snd.good s.history zid v ∧ Came svc s r f v (.shared f v seen) ∧
      ∃ n p, svc.finish r v time n = .ok p ∧ answer = .ok p.answer
  | .led f v ended => Of s zid f ∧ snd.good s.history zid v ∧ Came svc s r f v (.led f v ended) ∧
      ∃ n p, svc.finish r v time n = .ok p ∧ answer = .ok p.answer

/-- What holds of a call where it stands. -/
def CallInv (s : State ρ τ χ σ κ ω) : Call ρ τ χ κ ω → Prop
  | .dispatching zid _ _ hint => ∀ x, hint = some x → snd.kept s.history zid x
  | .reading zid _ _ hint rows _ => (∀ x, hint = some x → snd.kept s.history zid x) ∧ Queried snd s zid rows
  | .back zid _ _ hint rows => (∀ x, hint = some x → snd.kept s.history zid x) ∧ Queried snd s zid rows
  | .settled zid r f role v => snd.good s.history zid v ∧ Came svc s r f v role
  | .done zid r role time answer => Answered snd s zid r time answer role
  | _ => True

structure Inv (s : State ρ τ χ σ κ ω) : Prop where
  began : ∀ c, s.calls c ≠ .idle → c ∈ s.began
  entries : ∀ zid f, s.entries zid = some f → Of s zid f
  /-- A flight that a call has is that of its conversation, unless it has failed. -/
  live : ∀ c zid f, (s.calls c).arc = some (zid, f) →
    Of s zid f ∧ ((s.flight f).failed = false → s.entries zid = some f)
  mutex : ∀ c c' f, (s.calls c).holds = some f → (s.calls c').holds = some f → c = c'
  working : ∀ c f, (s.calls c).working = some f → (s.flight f).failed = false
  failed : ∀ f, (s.flight f).failed = true ↔ ∃ e, (s.flight f).value = some (.error e)
  values : ∀ f o, (s.flight f).value = some o → (f, o) ∈ s.log
  log : ∀ f v, (f, .ok v) ∈ s.log → f < s.fresh ∧ snd.good s.history (s.flight f).zid v
  logged : ∀ p ∈ s.log, p.1 < s.fresh
  cache : ∀ zid x, s.cache zid = some x → snd.kept s.history zid x
  stored : ∀ zid, s.stored zid = blank ∨ (zid, s.stored zid) ∈ s.history
  calls : ∀ c, CallInv snd s (s.calls c)

/-- Flights stay those of their conversations, and what happened has happened. -/
structure Grows (s s' : State ρ τ χ σ κ ω) : Prop where
  fresh : s.fresh ≤ s'.fresh
  zid : ∀ f < s.fresh, (s'.flight f).zid = (s.flight f).zid
  history : ∀ p ∈ s.history, p ∈ s'.history
  log : ∀ p ∈ s.log, p ∈ s'.log

variable {snd} {s s' : State ρ τ χ σ κ ω} {zid : ℤ} {r : ρ} {f : ℕ} {v : τ}

section

variable (h : Grows s s')
include h

theorem Grows.of (hf : Of s zid f) : Of s' zid f :=
  ⟨lt_of_lt_of_le hf.1 h.fresh, (h.zid f hf.1).trans hf.2⟩

theorem Grows.kept {x? : Option χ} (hx : ∀ x, x? = some x → snd.kept s.history zid x) :
    ∀ x, x? = some x → snd.kept s'.history zid x := fun x he => snd.keptMono h.history (hx x he)

theorem Grows.queried {rows : Option κ} (hq : Queried snd s zid rows) : Queried snd s' zid rows := by
  intro q he
  obtain ⟨hint, row, hrow, hkept, heq⟩ := hq q he
  exact ⟨hint, row, hrow.imp_right (h.history _), h.kept hkept, heq⟩

theorem Grows.came {role : Role τ} (hc : Came svc s r f v role) :
    Came svc s' r f v role := by
  match role, hc with
  | .shared g w seen, ⟨hg, hw, hlog, hshares⟩ => exact ⟨hg, hw, h.log _ hlog, hshares⟩
  | .led g w ended, ⟨hg, hw, hlog, hbuild⟩ => exact ⟨hg, hw, h.log _ hlog, hbuild⟩

theorem Grows.answered {time : ℤ} {answer : Except RefreshError ω} {role : Role τ}
    (ha : Answered snd s zid r time answer role) : Answered snd s' zid r time answer role := by
  match role, ha with
  | .cached, ⟨cached, a, hkept, hans, hhit⟩ => exact ⟨cached, a, h.kept hkept, hans, hhit⟩
  | .refused f, ⟨hof, e, hans, hlog⟩ => exact ⟨h.of hof, e, hans, h.log _ hlog⟩
  | .failed f, ⟨hof, hans⟩ => exact ⟨h.of hof, hans⟩
  | .timedOut, hans => exact hans
  | .shared f v seen, ⟨hof, hgood, hcame, hfin⟩ =>
    exact ⟨h.of hof, snd.goodMono h.history hgood, h.came hcame, hfin⟩
  | .led f v ended, ⟨hof, hgood, hcame, hfin⟩ =>
    exact ⟨h.of hof, snd.goodMono h.history hgood, h.came hcame, hfin⟩

theorem Grows.callInv {call : Call ρ τ χ κ ω} (hc : CallInv snd s call) : CallInv snd s' call := by
  match call, hc with
  | .idle, _ => trivial
  | .missed _ _, _ => trivial
  | .waiting _ _ _ _, _ => trivial
  | .holding _ _ _, _ => trivial
  | .gone, _ => trivial
  | .dispatching _ _ _ _, hkept => exact h.kept hkept
  | .reading _ _ _ _ _ _, ⟨hkept, hq⟩ => exact ⟨h.kept hkept, h.queried hq⟩
  | .back _ _ _ _ _, ⟨hkept, hq⟩ => exact ⟨h.kept hkept, h.queried hq⟩
  | .settled _ _ _ _ _, ⟨hgood, hcame⟩ => exact ⟨snd.goodMono h.history hgood, h.came hcame⟩
  | .done _ _ _ _ _, ha => exact h.answered ha

end

/-! ## Steps keep the invariant -/

section Steps

variable {c c' : ℕ} {call : Call ρ τ χ κ ω}

theorem setCall_self : (s.setCall c call).calls c = call := update_self ..

theorem setCall_of_ne (h : c' ≠ c) : (s.setCall c call).calls c' = s.calls c' := update_of_ne h ..

theorem Grows.same (hfresh : s'.fresh = s.fresh) (hflight : s'.flight = s.flight) (hhistory : s'.history = s.history)
    (hlog : s'.log = s.log) : Grows s s' :=
  ⟨hfresh ▸ le_refl _, fun _ _ => by rw [hflight], fun _ => hhistory ▸ id, fun _ => hlog ▸ id⟩

theorem Grows.setCall : Grows s (s.setCall c call) := .same rfl rfl rfl rfl

theorem Grows.trans {s'' : State ρ τ χ σ κ ω} (h : Grows s s') (h' : Grows s' s'') : Grows s s'' :=
  ⟨le_trans h.fresh h'.fresh, fun f hf => (h'.zid f (lt_of_lt_of_le hf h.fresh)).trans (h.zid f hf),
    fun p hp => h'.history p (h.history p hp), fun p hp => h'.log p (h.log p hp)⟩

theorem Call.arc_of_holds (h : call.holds = some f) : ∃ zid, call.arc = some (zid, f) := by
  cases call with
  | holding | dispatching | reading | back | settled => cases h; exact ⟨_, rfl⟩
  | _ => cases h

theorem Call.holds_of_working (h : call.working = some f) : call.holds = some f := by
  cases call with
  | dispatching | reading | back | settled => exact h
  | _ => cases h

/-- A call goes on with what it has, or takes a lock that is free. -/
theorem Inv.setCall (h : Inv snd s) (hbegan : c ∈ s.began)
    (harc : ∀ zid f, call.arc = some (zid, f) →
      Of s zid f ∧ ((s.flight f).failed = false → s.entries zid = some f))
    (hholds : ∀ f, call.holds = some f → (s.calls c).holds = some f ∨ s.locked f = false)
    (hworking : ∀ f, call.working = some f → (s.flight f).failed = false) (hcall : CallInv snd s call) :
    Inv snd (s.setCall c call) := by
  -- the holder of a lock is known to the flight
  have hfree : ∀ {f c'}, s.locked f = false → (s.calls c').holds ≠ some f := by
    intro f c' hfree hc'
    have hmem : c' ∈ s.began := h.began c' fun hidle => by rw [hidle] at hc'; cases hc'
    rw [State.locked, any_eq_false] at hfree
    exact hfree c' hmem (decide_eq_true hc')
  have hother : ∀ {f c'}, c' ≠ c → call.holds = some f → (s.calls c').holds ≠ some f := by
    intro f c' hne hnew hc'
    rcases hholds f hnew with hold | hlock
    · exact hne (h.mutex c' c f hc' hold)
    · exact hfree hlock hc'
  refine ⟨fun c' hc' => ?_, h.entries, fun c' zid f hc' => ?_, fun c₁ c₂ f h₁ h₂ => ?_, fun c' f hc' => ?_, h.failed,
    h.values, h.log, h.logged, h.cache, h.stored, fun c' => ?_⟩
  · rcases eq_or_ne c' c with rfl | hne
    · exact hbegan
    · rw [setCall_of_ne hne] at hc'
      exact h.began c' hc'
  · rcases eq_or_ne c' c with rfl | hne
    · rw [setCall_self] at hc'
      exact harc zid f hc'
    · rw [setCall_of_ne hne] at hc'
      exact h.live c' zid f hc'
  · rcases eq_or_ne c₁ c with rfl | hne₁ <;> rcases eq_or_ne c₂ c₁ with rfl | hne₂
    · rfl
    · rw [setCall_self] at h₁
      rw [setCall_of_ne hne₂] at h₂
      exact absurd h₂ (hother hne₂ h₁)
    · rfl
    · rw [setCall_of_ne hne₁] at h₁
      rcases eq_or_ne c₂ c with rfl | hne
      · rw [setCall_self] at h₂
        exact absurd h₁ (hother hne₁ h₂)
      · rw [setCall_of_ne hne] at h₂
        exact h.mutex c₁ c₂ f h₁ h₂
  · rcases eq_or_ne c' c with rfl | hne
    · rw [setCall_self] at hc'
      exact hworking f hc'
    · rw [setCall_of_ne hne] at hc'
      exact h.working c' f hc'
  · rcases eq_or_ne c' c with rfl | hne
    · rw [setCall_self]
      exact Grows.setCall.callInv hcall
    · rw [setCall_of_ne hne]
      exact Grows.setCall.callInv (h.calls c')

/-- A call without a flight has no lock, and goes nowhere. -/
theorem Call.none_of_arc (h : call.arc = none) : call.holds = none ∧ call.working = none := by
  cases call with
  | waiting | holding | dispatching | reading | back | settled => cases h
  | _ => exact ⟨rfl, rfl⟩

/-- A call ends. -/
theorem Inv.ends (h : Inv snd s) (hbegan : c ∈ s.began) (harc : call.arc = none) (hcall : CallInv snd s call) :
    Inv snd (s.setCall c call) := by
  obtain ⟨hholds, hworking⟩ := Call.none_of_arc harc
  refine h.setCall hbegan (fun zid f hf => ?_) (fun f hf => ?_) (fun f hf => ?_) hcall
  · rw [harc] at hf; cases hf
  · rw [hholds] at hf; cases hf
  · rw [hworking] at hf; cases hf

/-- The holder of a lock goes on. -/
theorem Inv.goes (h : Inv snd s) {old : Call ρ τ χ κ ω} (hc : s.calls c = old) (hold : old ≠ .idle)
    (harc : call.arc = old.arc) (hholds : call.holds = old.holds) (hworking : call.working = old.working)
    (hcall : CallInv snd s call) : Inv snd (s.setCall c call) := by
  subst hc
  exact h.setCall (h.began c hold) (fun zid f hf => h.live c zid f (harc ▸ hf)) (fun f hf => .inl (hholds ▸ hf))
    (fun f hf => h.working c f (hworking ▸ hf)) hcall

/-- A flight that is not the conversation's own, or has failed, is joined by nobody. -/
theorem Inv.joinable_spec (h : Inv snd s) (hf : s.joinable zid = some f) :
    Of s zid f ∧ (s.flight f).failed = false ∧ s.entries zid = some f := by
  obtain ⟨hentry, hlive⟩ := Option.filter_eq_some_iff.1 hf
  rw [Bool.and_eq_true, Bool.not_eq_true'] at hlive
  exact ⟨h.entries zid f hentry, hlive.2, hentry⟩

/-- A flight that a call has, and that has not failed, can be joined. -/
theorem Inv.joinable_of_arc (h : Inv snd s) (hc : (s.calls c).arc = some (zid, f)) (hok : (s.flight f).failed = false) :
    s.joinable zid = some f := by
  have hmem : c ∈ s.began := h.began c fun hidle => by rw [hidle] at hc; cases hc
  have halive : s.alive f = true := any_eq_true.2 ⟨c, hmem, decide_eq_true (by rw [hc]; rfl)⟩
  rw [State.joinable, (h.live c zid f hc).2 hok]
  simp [halive, hok]

theorem Grows.open : Grows s (s.open zid) :=
  ⟨le_succ _, fun _ hf => congrArg Flight.zid (update_of_ne (Nat.ne_of_lt hf) ..), fun _ => id,
    fun _ => id⟩

theorem open_flight : (s.open zid).flight s.fresh = ⟨zid, none, false⟩ := update_self ..

/-- A conversation without a flight that can be joined gets a new one. -/
theorem Inv.open (h : Inv snd s) (hnone : s.joinable zid = none) : Inv snd (s.open zid) := by
  have hflight : ∀ {f}, f ≠ s.fresh → (s.open zid).flight f = s.flight f := fun hne => update_of_ne hne ..
  have hentries : ∀ {z}, z ≠ zid → (s.open zid).entries z = s.entries z := fun hne => update_of_ne hne ..
  have hentry : (s.open zid).entries zid = some s.fresh := update_self ..
  refine ⟨h.began, fun z f hf => ?_, fun c z f hc => ?_, h.mutex, fun c f hc => ?_, fun f => ?_, fun f o ho => ?_,
    fun f v hv => ?_, fun p hp => lt_succ_of_lt (h.logged p hp), h.cache, h.stored,
    fun c => Grows.open.callInv (h.calls c)⟩
  · rcases eq_or_ne z zid with rfl | hne
    · rw [hentry] at hf
      cases hf
      exact ⟨lt_succ_self _, by rw [open_flight]⟩
    · rw [hentries hne] at hf
      exact Grows.open.of (h.entries z f hf)
  · obtain ⟨hof, hlive⟩ := h.live c z f hc
    refine ⟨Grows.open.of hof, fun hok => ?_⟩
    rw [hflight (Nat.ne_of_lt hof.1)] at hok
    rcases eq_or_ne z zid with rfl | hne
    · cases hnone.symm.trans (h.joinable_of_arc hc hok)
    · rw [hentries hne]
      exact hlive hok
  · obtain ⟨z, hz⟩ := Call.arc_of_holds (Call.holds_of_working hc)
    rw [hflight (Nat.ne_of_lt (h.live c z f hz).1.1)]
    exact h.working c f hc
  · rcases eq_or_ne f s.fresh with rfl | hne
    · rw [open_flight]
      exact ⟨nofun, nofun⟩
    · rw [hflight hne]
      exact h.failed f
  · rcases eq_or_ne f s.fresh with rfl | hne
    · rw [open_flight] at ho
      cases ho
    · rw [hflight hne] at ho
      exact h.values f o ho
  · obtain ⟨hlt, hgood⟩ := h.log f v hv
    rw [hflight (Nat.ne_of_lt hlt)]
    exact ⟨lt_succ_of_lt hlt, hgood⟩

/-! ## What is left in flights -/

variable {o : Except RefreshError τ} {e : RefreshError} {g : ℕ}

theorem leave_of_ne (h : g ≠ f) : (s.leave f o).flight g = s.flight g := update_of_ne h ..

theorem leave_ok : (s.leave f (.ok v)).flight f = { s.flight f with value := some (.ok v) } := update_self ..

theorem leave_error : (s.leave f (.error e)).flight f = ⟨(s.flight f).zid, some (.error e), true⟩ :=
  update_self ..

theorem leave_zid : ((s.leave f o).flight g).zid = (s.flight g).zid := by
  rcases eq_or_ne g f with rfl | hne
  · cases o with
    | ok v => rw [leave_ok]
    | error e => rw [leave_error]
  · rw [leave_of_ne hne]

theorem Grows.leave : Grows s (s.leave f o) :=
  ⟨le_refl _, fun _ _ => leave_zid, fun _ => id, fun _ => mem_cons_of_mem _⟩

theorem Inv.values_leave (h : Inv snd s) {o' : Except RefreshError τ} (hv : ((s.leave f o).flight g).value = some o') :
    (g, o') ∈ (s.leave f o).log := by
  rcases eq_or_ne g f with rfl | hne
  · cases o with
    | ok v =>
      rw [leave_ok] at hv
      cases hv
      exact mem_cons_self
    | error e =>
      rw [leave_error] at hv
      cases hv
      exact mem_cons_self
  · rw [leave_of_ne hne] at hv
    exact mem_cons_of_mem _ (h.values g o' hv)

theorem Inv.log_leave (h : Inv snd s) (hof : Of s zid f) (hgood : ∀ v, o = .ok v → snd.good s.history zid v)
    (hv : (g, .ok v) ∈ (s.leave f o).log) :
    g < s.fresh ∧ snd.good s.history ((s.leave f o).flight g).zid v := by
  rw [leave_zid]
  rcases mem_cons.1 hv with heq | hmem
  · cases heq
    exact ⟨hof.1, hof.2.symm ▸ hgood v rfl⟩
  · exact h.log g v hmem

theorem Inv.logged_leave (h : Inv snd s) (hof : Of s zid f) : ∀ p ∈ (s.leave f o).log, p.1 < s.fresh := by
  intro p hp
  rcases mem_cons.1 hp with rfl | hp
  · exact hof.1
  · exact h.logged p hp

theorem Of.leave (h : Of s zid g) : Of (s.leave f o) zid g := ⟨h.1, leave_zid.trans h.2⟩

section

variable (h : Inv snd s)
include h

/-- The holder of a lock leaves a value in its flight. -/
theorem Inv.leave (hc : (s.calls c).working = some f) (hof : Of s zid f)
    (hgood : snd.good s.history zid v) : Inv snd (s.leave f (.ok v)) := by
  have hok := h.working c f hc
  have hfailed : ∀ g, ((s.leave f (.ok v)).flight g).failed = (s.flight g).failed := by
    intro g
    rcases eq_or_ne g f with rfl | hne
    · rw [leave_ok]
    · rw [leave_of_ne hne]
  refine ⟨h.began, fun z g hg => (h.entries z g hg).leave, fun c' z g hc' => ?_, h.mutex, fun c' g hc' => ?_,
    fun g => ?_, fun _ _ => h.values_leave, fun _ _ => h.log_leave hof (by rintro _ ⟨⟩; exact hgood),
    h.logged_leave hof, h.cache, h.stored, fun c' => Grows.leave.callInv (h.calls c')⟩
  · obtain ⟨hof', hlive⟩ := h.live c' z g hc'
    exact ⟨hof'.leave, fun hg => hlive ((hfailed g).symm.trans hg)⟩
  · rw [hfailed]
    exact h.working c' g hc'
  · rw [hfailed]
    rcases eq_or_ne g f with rfl | hne
    · rw [leave_ok, hok]
      exact ⟨nofun, nofun⟩
    · rw [leave_of_ne hne]
      exact h.failed g

/-- The holder of a lock fails its flight, and ends. -/
theorem Inv.fails (hc : (s.calls c).working = some f) (hof : Of s zid f) (harc : call.arc = none)
    (hcall : CallInv snd (s.leave f (.error e)) call) : Inv snd ((s.leave f (.error e)).setCall c call) := by
  obtain ⟨hholds, hworking⟩ := Call.none_of_arc harc
  have hbegan : s.calls c ≠ .idle := fun hidle => by rw [hidle] at hc; cases hc
  have hgrows : Grows s ((s.leave f (.error e)).setCall c call) := Grows.leave.trans Grows.setCall
  -- the others have what they had, and the call has nothing
  have hcalls : ∀ c', ((s.leave f (.error e)).setCall c call).calls c' = call ∨
      c' ≠ c ∧ ((s.leave f (.error e)).setCall c call).calls c' = s.calls c' := by
    intro c'
    rcases eq_or_ne c' c with rfl | hne
    · exact .inl setCall_self
    · exact .inr ⟨hne, setCall_of_ne hne⟩
  refine ⟨fun c' hc' => ?_, fun z g hg => (h.entries z g hg).leave, fun c' z g hc' => ?_, fun c₁ c₂ g h₁ h₂ => ?_,
    fun c' g hc' => ?_, fun g => ?_, fun _ _ => h.values_leave, fun _ _ => h.log_leave hof nofun,
    h.logged_leave hof, h.cache, h.stored, fun c' => ?_⟩
  · rcases eq_or_ne c' c with rfl | hne
    · exact h.began c' hbegan
    · rw [setCall_of_ne hne] at hc'
      exact h.began c' hc'
  · rcases hcalls c' with heq | ⟨-, heq⟩ <;> rw [heq] at hc'
    · rw [harc] at hc'; cases hc'
    · obtain ⟨hof', hlive⟩ := h.live c' z g hc'
      refine ⟨hof'.leave, fun hg => hlive ?_⟩
      rcases eq_or_ne g f with rfl | hne
      · exact h.working c g hc
      · exact (congrArg Flight.failed (leave_of_ne hne)).symm.trans hg
  · rcases hcalls c₁ with heq₁ | ⟨-, heq₁⟩ <;> rcases hcalls c₂ with heq₂ | ⟨-, heq₂⟩ <;> rw [heq₁] at h₁ <;>
      rw [heq₂] at h₂
    · rw [hholds] at h₁; cases h₁
    · rw [hholds] at h₁; cases h₁
    · rw [hholds] at h₂; cases h₂
    · exact h.mutex c₁ c₂ g h₁ h₂
  · rcases hcalls c' with heq | ⟨hne, heq⟩ <;> rw [heq] at hc'
    · rw [hworking] at hc'; cases hc'
    · -- nobody else has the lock of the flight that failed
      have hg : g ≠ f := by
        rintro rfl
        exact hne (h.mutex c' c g (Call.holds_of_working hc') (Call.holds_of_working hc))
      exact (congrArg Flight.failed (leave_of_ne hg)).trans (h.working c' g hc')
  · rcases eq_or_ne g f with rfl | hne
    · rw [show ((s.leave g (.error e)).setCall c call).flight g = _ from leave_error]
      exact ⟨fun _ => ⟨e, rfl⟩, fun _ => rfl⟩
    · rw [show ((s.leave f (.error e)).setCall c call).flight g = _ from leave_of_ne hne]
      exact h.failed g
  · rcases hcalls c' with heq | ⟨-, heq⟩ <;> rw [heq]
    · exact Grows.setCall.callInv hcall
    · exact hgrows.callInv (h.calls c')

/-- Entries of the cache, and numbers of allocations. -/
theorem Inv.cached {cache : ℤ → Option χ} (hcache : ∀ z x, cache z = some x → snd.kept s.history z x)
    (n : ℕ) : Inv snd { s with cache := cache, allocated := n } :=
  { h with
    cache := hcache
    calls := fun c =>
      (Grows.same rfl rfl rfl rfl : Grows s { s with cache := cache, allocated := n }).callInv (h.calls c) }

/-! ## Runs -/

/-- What the holder of a lock finds in the cache, when its flight has nothing for it. -/
theorem Inv.lookedCache (hok : (s.flight f).failed = false)
    (hcall : call = match svc.hit r (s.cache zid) s.clock with
      | some a => .done zid r .cached s.clock (.ok a)
      | none => if svc.reads r then .dispatching zid r f (s.cache zid) else .back zid r f (s.cache zid) none) :
    CallInv snd s call ∧ (call.arc = none ∨ call.arc = some (zid, f) ∧ call.holds = some f ∧
      call.working = some f ∧ (s.flight f).failed = false) := by
  subst hcall
  cases hhit : svc.hit r (s.cache zid) s.clock with
  | some a => exact ⟨⟨_, a, h.cache zid, rfl, hhit⟩, .inl rfl⟩
  | none => cases hreads : svc.reads r with
    | true => exact ⟨h.cache zid, .inr ⟨rfl, rfl, rfl, hok⟩⟩
    | false => exact ⟨⟨h.cache zid, nofun⟩, .inr ⟨rfl, rfl, rfl, hok⟩⟩

/-- The holder of a lock takes what was left in its flight, or looks in the cache. -/
theorem Inv.looked (hof : Of s zid f) :
    CallInv snd s (Refreshes.looked svc s zid r f) ∧
      ((Refreshes.looked svc s zid r f).arc = none ∨ (Refreshes.looked svc s zid r f).arc = some (zid, f) ∧
        (Refreshes.looked svc s zid r f).holds = some f ∧ (Refreshes.looked svc s zid r f).working = some f ∧
        (s.flight f).failed = false) := by
  have hok : (∀ e, (s.flight f).value ≠ some (.error e)) → (s.flight f).failed = false := by
    intro hne
    rw [← Bool.not_eq_true, h.failed]
    exact fun h => h.elim hne
  cases hvalue : (s.flight f).value with
  | none => exact h.lookedCache (r := r) (hok (by simp [hvalue])) (by simp only [Refreshes.looked, hvalue] <;> rfl)
  | some o => cases o with
    | error e =>
      have heq : Refreshes.looked svc s zid r f = .done zid r (.refused f) s.clock (.error e) := by
        simp only [Refreshes.looked, hvalue]
      rw [heq]
      exact ⟨⟨hof, e, rfl, h.values f _ hvalue⟩, .inl rfl⟩
    | ok v =>
      have hfailed := hok (by simp [hvalue])
      cases hshares : svc.shares r v s.clock with
      | false => exact h.lookedCache (r := r) hfailed (by simp only [Refreshes.looked, hvalue, hshares] <;> rfl)
      | true =>
        have heq : Refreshes.looked svc s zid r f = .settled zid r f (.shared f v s.clock) v := by
          simp only [Refreshes.looked, hvalue, hshares, if_true]
        have hlog := h.values f _ hvalue
        rw [heq]
        exact ⟨⟨hof.2 ▸ (h.log f v hlog).2, rfl, rfl, hlog, hshares⟩, .inr ⟨rfl, rfl, rfl, hfailed⟩⟩

theorem Inv.acquire (hbegan : c ∈ s.began) (deadline : ℕ) : Inv snd (s.acquire c zid r deadline) := by
  cases hf : s.joinable zid with
  | some f =>
    obtain ⟨hof, -, hentry⟩ := h.joinable_spec hf
    have heq : s.acquire c zid r deadline = s.setCall c (.waiting zid r f deadline) := by
      simp only [State.acquire, hf]
    rw [heq]
    refine h.setCall hbegan (fun z g hg => ?_) nofun nofun trivial
    cases hg
    exact ⟨hof, fun _ => hentry⟩
  | none =>
    have heq : s.acquire c zid r deadline = (s.open zid).setCall c (.waiting zid r s.fresh deadline) := by
      simp only [State.acquire, hf]
    rw [heq]
    refine (h.open hf).setCall hbegan (fun z g hg => ?_) nofun nofun trivial
    cases hg
    have hentry : (s.open zid).entries zid = some s.fresh := update_self ..
    exact ⟨(h.open hf).entries zid _ hentry, fun _ => hentry⟩

/-- The holder of a lock answers; the cache may keep the entry. -/
theorem Inv.answers {role : Role τ} (hc : s.calls c = .settled zid r f role v) {retain : Retain}
    {p : Finish τ χ ω} {time : ℤ} {n m : ℕ} (hp : svc.finish r v time n = .ok p) :
    Inv snd ({ (match p.value with
        | some v => s.leave f (.ok v)
        | none => s) with cache := s.retained zid p.keep retain, allocated := m }.setCall c
      (.done zid r role time (.ok p.answer))) := by
  have hinv := h.calls c
  rw [hc] at hinv
  obtain ⟨hgood, hcame⟩ := hinv
  obtain ⟨hvalue, hkeep⟩ := snd.finish hgood hp
  have hof := (h.live c zid f (by rw [hc]; rfl)).1
  -- a value for the flight is left there first
  obtain ⟨s₁, heq, hs₁, hgrows, hcalls, hhistory⟩ : ∃ s₁, (match p.value with
      | some v => s.leave f (.ok v)
      | none => s) = s₁ ∧ Inv snd s₁ ∧ Grows s s₁ ∧ s₁.calls = s.calls ∧ s₁.history = s.history := by
    cases hval : p.value with
    | none => exact ⟨s, rfl, h, .same rfl rfl rfl rfl, rfl, rfl⟩
    | some w => exact ⟨_, rfl, h.leave (by rw [hc]; rfl) hof (hvalue w hval), Grows.leave, rfl, rfl⟩
  rw [heq]
  have hcache : ∀ z x, s.retained zid p.keep retain z = some x → snd.kept s₁.history z x := by
    intro z x hx
    rw [hhistory]
    cases retain with
    | unchanged => exact h.cache z x hx
    | dropped =>
      rcases eq_or_ne z zid with rfl | hne
      · rw [State.retained, update_self] at hx
        cases hx
      · rw [State.retained, update_of_ne hne] at hx
        exact h.cache z x hx
    | kept =>
      rcases eq_or_ne z zid with rfl | hne
      · rw [State.retained, update_self] at hx
        cases hk : p.keep with
        | none => exact h.cache z x (by rwa [hk] at hx)
        | some y =>
          rw [hk] at hx
          cases hx
          exact hkeep x hk
      · rw [State.retained, update_of_ne hne] at hx
        exact h.cache z x hx
  have hans : Answered snd s zid r time (.ok p.answer) role := by
    match role, hcame with
    | .shared g w seen, ⟨hg, hw, hlog, hshares⟩ =>
      subst hg hw
      exact ⟨hof, hgood, ⟨rfl, rfl, hlog, hshares⟩, n, p, hp, rfl⟩
    | .led g w ended, ⟨hg, hw, hlog, hbuild⟩ =>
      subst hg hw
      exact ⟨hof, hgood, ⟨rfl, rfl, hlog, hbuild⟩, n, p, hp, rfl⟩
  have hbegan : c ∈ s₁.began := hs₁.began c (by rw [hcalls, hc]; nofun)
  refine (hs₁.cached hcache m).ends hbegan rfl ?_
  exact (hgrows.trans (.same rfl rfl rfl rfl)).answered hans

theorem Inv.step {e : Event ρ σ} (hstep : step svc patience s e = some s') : Inv snd s' := by
  have hinv : ∀ {c call}, s.calls c = call → CallInv snd s call := fun {c _} hc => hc ▸ h.calls c
  have hidle : ∀ {c call}, s.calls c = call → call ≠ .idle → s.calls c ≠ .idle := fun hc hne => hc ▸ hne
  cases e with
  | start c zid r =>
    simp only [Refreshes.step] at hstep
    split at hstep
    · next hc =>
      cases hstep
      have hbegan : Inv snd { s with began := c :: s.began } :=
        { h with
          began := fun c' hc' => mem_cons_of_mem _ (h.began c' hc')
          calls := fun c' =>
            (Grows.same rfl rfl rfl rfl : Grows s { s with began := c :: s.began }).callInv (h.calls c') }
      refine hbegan.ends mem_cons_self ?_ ?_
      · split <;> rfl
      · split
        · next a ha => exact ⟨_, a, fun x hx => h.cache zid x hx, rfl, ha⟩
        · trivial
    · cases hstep
  | acquire c =>
    simp only [Refreshes.step] at hstep
    split at hstep
    · next zid r hc =>
      cases hstep
      exact h.acquire (h.began c (hidle hc nofun)) _
    · cases hstep
  | lock c =>
    simp only [Refreshes.step] at hstep
    split at hstep
    · next zid r f deadline hc =>
      split at hstep
      · cases hstep
      · next hlock =>
        cases hstep
        refine h.setCall (h.began c (hidle hc nofun)) (fun z g hg => ?_) (fun g hg => ?_) nofun trivial
        · cases hg
          exact h.live c zid f (by rw [hc]; rfl)
        · cases hg
          exact .inr (by simpa using hlock)
    · cases hstep
  | timeout c =>
    simp only [Refreshes.step] at hstep
    split at hstep
    · next zid r f deadline hc =>
      split at hstep
      · cases hstep
        exact h.ends (h.began c (hidle hc nofun)) rfl rfl
      · cases hstep
    · cases hstep
  | look c =>
    simp only [Refreshes.step] at hstep
    split at hstep
    · next zid r f hc =>
      cases hstep
      have harc : (s.calls c).arc = some (zid, f) := by rw [hc]; rfl
      obtain ⟨hcall, hnext⟩ := h.looked (r := r) (h.live c zid f harc).1
      rcases hnext with hend | ⟨hnarc, hnholds, hnworking, hok⟩
      · exact h.ends (h.began c (hidle hc nofun)) hend hcall
      · refine h.setCall (h.began c (hidle hc nofun)) (fun z g hg => ?_) (fun g hg => ?_) (fun g hg => ?_) hcall
        · exact h.live c z g (harc.trans (hnarc.symm.trans hg))
        · exact .inl (by rw [hc]; exact hnholds.symm.trans hg)
        · cases hnworking.symm.trans hg
          exact hok
    · cases hstep
  | dispatch c =>
    simp only [Refreshes.step] at hstep
    split at hstep
    · next zid r f hint hc =>
      cases hstep
      exact h.goes hc nofun rfl rfl rfl ⟨hinv hc, nofun⟩
    · cases hstep
  | refuse c message =>
    simp only [Refreshes.step] at hstep
    split at hstep
    · next zid r f hint hc =>
      cases hstep
      have hof := (h.live c zid f (by rw [hc]; rfl)).1
      exact h.fails (by rw [hc]; rfl) hof rfl ⟨hof.leave, _, rfl⟩
    · cases hstep
  | query c =>
    simp only [Refreshes.step] at hstep
    split at hstep
    · next zid r f hint detached hc =>
      cases hstep
      obtain ⟨hkept, -⟩ := hinv hc
      refine h.goes hc nofun rfl rfl rfl ⟨hkept, fun q hq => ?_⟩
      cases hq
      exact ⟨hint, s.stored zid, h.stored zid, hkept, rfl⟩
    · cases hstep
  | fail c message =>
    simp only [Refreshes.step] at hstep
    split at hstep
    · next zid r f hint hc =>
      cases hstep
      have hof := (h.live c zid f (by rw [hc]; rfl)).1
      exact h.fails (by rw [hc]; rfl) hof rfl ⟨hof.leave, _, rfl⟩
    · next zid r f hint hc =>
      cases hstep
      exact h.fails (by rw [hc]; rfl) (h.live c zid f (by rw [hc]; rfl)).1 rfl trivial
    · cases hstep
  | panic c =>
    simp only [Refreshes.step] at hstep
    split at hstep
    · next zid r f hint rows hc =>
      cases hstep
      exact h.ends (h.began c (hidle hc nofun)) rfl ⟨(h.live c zid f (by rw [hc]; rfl)).1, _, rfl⟩
    · next hc =>
      cases hstep
      exact h.ends (h.began c (hidle hc nofun)) rfl trivial
    · cases hstep
  | «return» c =>
    simp only [Refreshes.step] at hstep
    split at hstep
    · next zid r f hint rows hc =>
      cases hstep
      have hcall : CallInv snd s (.reading zid r f hint _ _) := hinv hc
      exact h.goes hc nofun rfl rfl rfl hcall
    · next hc =>
      cases hstep
      exact h.ends (h.began c (hidle hc nofun)) rfl trivial
    · cases hstep
  | build c =>
    simp only [Refreshes.step] at hstep
    split at hstep
    · next zid r f hint rows hc =>
      have hof := (h.live c zid f (by rw [hc]; rfl)).1
      obtain ⟨hkept, hrows⟩ := hinv hc
      split at hstep
      · next e he =>
        cases hstep
        exact h.fails (by rw [hc]; rfl) hof rfl ⟨hof.leave, e, rfl⟩
      · next v hv =>
        cases hstep
        have hgood := snd.build hkept hrows hv
        have hleft : Inv snd { s.leave f (.ok v) with allocated := s.allocated + 1 } :=
          (h.leave (by rw [hc]; rfl) hof hgood).cached h.cache _
        exact hleft.goes hc nofun rfl rfl rfl ⟨hgood, rfl, rfl, mem_cons_self, hint, rows, s.allocated, hv⟩
    · cases hstep
  | answer c retain =>
    simp only [Refreshes.step] at hstep
    split at hstep
    · next zid r f role v hc =>
      have hof := (h.live c zid f (by rw [hc]; rfl)).1
      obtain ⟨hgood, hcame⟩ := hinv hc
      split at hstep
      · next e he =>
        cases hstep
        exact h.fails (by rw [hc]; rfl) hof rfl ⟨hof.leave, e, rfl⟩
      · next p hp =>
        cases hstep
        exact h.answers hc hp
    · cases hstep
  | cancel c =>
    simp only [Refreshes.step] at hstep
    split at hstep
    · next hc =>
      cases hstep
      exact h.ends (h.began c (hidle hc nofun)) rfl trivial
    · next hc =>
      cases hstep
      exact h.ends (h.began c (hidle hc nofun)) rfl trivial
    · next hc =>
      cases hstep
      exact h.ends (h.began c (hidle hc nofun)) rfl trivial
    · next zid r f hint rows hc =>
      cases hstep
      have hcall : CallInv snd s (.reading zid r f hint _ _) := hinv hc
      exact h.goes hc nofun rfl rfl rfl hcall
    · cases hstep
  | evict zid =>
    cases hstep
    refine h.cached (fun z x hx => ?_) s.allocated
    rcases eq_or_ne z zid with rfl | hne
    · rw [update_self] at hx
      cases hx
    · rw [update_of_ne hne] at hx
      exact h.cache z x hx
  | publish zid row =>
    cases hstep
    have hmem : ∀ p ∈ s.history, p ∈ (zid, row) :: s.history := fun _ => mem_cons_of_mem _
    have hgrows : Grows s { s with stored := update s.stored zid row, history := (zid, row) :: s.history } :=
      ⟨le_refl _, fun _ _ => rfl, hmem, fun _ => id⟩
    refine ⟨h.began, h.entries, h.live, h.mutex, h.working, h.failed, h.values,
      fun f v hv => ⟨(h.log f v hv).1, snd.goodMono hmem (h.log f v hv).2⟩, h.logged,
      fun z x hx => snd.keptMono hmem (h.cache z x hx), fun z => ?_, fun c => hgrows.callInv (h.calls c)⟩
    change update s.stored zid row z = blank ∨ (z, update s.stored zid row z) ∈ _
    rcases eq_or_ne z zid with rfl | hne
    · rw [update_self]
      exact .inr mem_cons_self
    · rw [update_of_ne hne]
      exact (h.stored z).imp_right (hmem _)
  | tick clock duration =>
    cases hstep
    have hgrows : Grows s { s with clock := clock, instant := s.instant + duration } := .same rfl rfl rfl rfl
    exact { h with calls := fun c => hgrows.callInv (h.calls c) }

end

theorem Reachable.inv (h : Reachable svc patience blank s) : Inv snd s := by
  induction h with
  | init =>
    exact ⟨fun c hc => absurd rfl hc, nofun, nofun, nofun, nofun, fun f => ⟨nofun, nofun⟩, nofun, nofun, nofun,
      nofun, fun _ => .inl rfl, fun c => trivial⟩
  | step _ hstep ih => exact ih.step hstep

end Steps

/-! ## What holds in every run -/

/-- The promises of a refresh, in a state. -/
structure Shared (snd : Sound svc blank) (s : State ρ τ χ σ κ ω) : Prop where
  /-- At most one read for a conversation is in progress. -/
  one : ∀ c c' zid, (s.calls c).Reads zid → (s.calls c').Reads zid → c = c'
  /-- An answer is from the cache, from what was left in the call's own flight, or from the call's read. -/
  answered : ∀ c zid r role time answer, s.calls c = .done zid r role time answer →
    Answered snd s zid r time answer role
  /-- A call joins no flight that has failed. -/
  joined : ∀ c zid r deadline f, ((s.acquire c zid r deadline).calls c).arc = some (zid, f) →
    ((s.acquire c zid r deadline).flight f).failed = false
  /-- A call for a conversation without a flight, or whose flights have failed, has a new one with a free lock. -/
  leads : ∀ c zid r deadline, (∀ c' f, (s.calls c').arc = some (zid, f) → (s.flight f).failed = true) →
    (s.acquire c zid r deadline).calls c = .waiting zid r s.fresh deadline ∧
      ((s.acquire c zid r deadline).flight s.fresh).value = none ∧
      (s.acquire c zid r deadline).locked s.fresh = false

theorem Inv.shared (h : Inv snd s) : Shared snd s := by
  refine ⟨?_, fun c zid r role time answer hc => ?_, fun c zid r deadline f hf => ?_,
    fun c zid r deadline hnone => ?_⟩
  · -- both have the lock of the flight of the conversation
    intro c c' zid hc hc'
    have hread : ∀ {c}, (s.calls c).Reads zid → ∃ f, s.entries zid = some f ∧ (s.calls c).holds = some f := by
      intro c hc
      cases hcall : s.calls c with
      | reading z r f hint rows detached =>
        rw [hcall] at hc
        obtain rfl : z = zid := hc
        have hok := h.working c f (by rw [hcall]; rfl)
        exact ⟨f, (h.live c z f (by rw [hcall]; rfl)).2 hok, rfl⟩
      | _ =>
        rw [hcall] at hc
        exact hc.elim
    obtain ⟨f, hentry, hf⟩ := hread hc
    obtain ⟨f', hentry', hf'⟩ := hread hc'
    cases hentry.symm.trans hentry'
    exact h.mutex c c' f hf hf'
  · have hinv := h.calls c
    rw [hc] at hinv
    exact hinv
  · cases hj : s.joinable zid with
    | some g =>
      have heq : s.acquire c zid r deadline = s.setCall c (.waiting zid r g deadline) := by
        simp only [State.acquire, hj]
      rw [heq, setCall_self] at hf
      cases hf
      rw [heq]
      exact (h.joinable_spec hj).2.1
    | none =>
      have heq : s.acquire c zid r deadline = (s.open zid).setCall c (.waiting zid r s.fresh deadline) := by
        simp only [State.acquire, hj]
      rw [heq, setCall_self] at hf
      cases hf
      rw [heq]
      exact congrArg Flight.failed open_flight
  · have hj : s.joinable zid = none := by
      by_contra hne
      obtain ⟨f, hf⟩ := Option.ne_none_iff_exists'.1 hne
      obtain ⟨hof, hok, -⟩ := h.joinable_spec hf
      obtain ⟨-, hlive⟩ := Option.filter_eq_some_iff.1 hf
      obtain ⟨c', -, hc'⟩ := any_eq_true.1 (Bool.and_eq_true .. ▸ hlive).1
      obtain ⟨⟨z, g⟩, hz, hg⟩ := Option.map_eq_some_iff.1 (of_decide_eq_true hc')
      obtain rfl : g = f := hg
      obtain rfl : z = zid := (h.live c' z g hz).1.2.symm.trans hof.2
      rw [hnone c' g hz] at hok
      cases hok
    have heq : s.acquire c zid r deadline = (s.open zid).setCall c (.waiting zid r s.fresh deadline) := by
      simp only [State.acquire, hj]
    rw [heq]
    refine ⟨setCall_self, congrArg Flight.value open_flight, ?_⟩
    rw [State.locked, any_eq_false]
    intro c' _ hc'
    replace hc' := of_decide_eq_true hc'
    rcases eq_or_ne c' c with rfl | hne
    · rw [setCall_self] at hc'
      cases hc'
    · rw [setCall_of_ne hne] at hc'
      obtain ⟨z, hz⟩ := Call.arc_of_holds hc'
      exact lt_irrefl _ (h.live c' z s.fresh hz).1.1

end Polis.Refreshes
