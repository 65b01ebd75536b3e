import Polis.Serving.Priorities
import Mathlib.Data.List.Nodup

/-!
# What the calls for priorities are promised

An invariant of all runs: each flight in the map has exactly one leader, whose read is the only one of the
key. What the calls were answered follows from what their flights were given, and flights are given an
outcome once.

Reference: `queue-rs/polis-api/src/next_priorities.rs`.
-/

namespace Polis.Priorities

open List Function Option

variable {α β : Type*} {parse : α → Except String β} {patience cap : ℕ}
variable {s s' : State α β}

/-! ## What entries come from -/

/-- The member as it is parsed from a row. -/
def MathRow.parsed (parse : α → Except String β) (row : MathRow α) : Except String (Option β) :=
  match row.data with
  | none => .error "unsupported math shape"
  | some none => .ok none
  | some (some t) => (parse t).map some

/-- The data of the entry is that of the tick which it carries. -/
def FromRow (parse : α → Except String β) (s : State α β) (key : Key) (e : Entry β) : Prop :=
  ∃ row, (key, row) ∈ s.committed ∧ 0 ≤ row.tick ∧ row.tick = e.tick ∧ row.parsed parse = .ok e.data

/-- An entry that a read makes is good from its end on, and made of its row or of the cached entry's. -/
theorem refresh_spec {row : Option (MathRow α)} {now : ℤ} {cached : Option (Entry β)} {e : Entry β}
    (h : refresh parse row now cached = .ok (some e)) : e.validUntil = now + ttl ∧
      ((∃ r, row = some r ∧ 0 ≤ r.tick ∧ r.tick = e.tick ∧ r.parsed parse = .ok e.data) ∨
        ∃ e', cached = some e' ∧ e'.tick = e.tick ∧ e'.data = e.data) := by
  unfold refresh at h
  split at h
  · cases h
  · next r hr =>
    obtain ⟨hrow, htick⟩ := filter_eq_some_iff.1 hr
    split at h
    · next e' he' =>
      cases h
      exact ⟨rfl, .inr ⟨e', (filter_eq_some_iff.1 he').1, rfl, rfl⟩⟩
    · split at h
      · cases h
      · next hdata =>
        cases h
        exact ⟨rfl, .inl ⟨r, hrow, of_decide_eq_true htick, rfl, by rw [MathRow.parsed, hdata]⟩⟩
      · next t hdata =>
        cases hparse : parse t with
        | error m => rw [hparse] at h; cases h
        | ok v =>
          rw [hparse] at h
          cases h
          have hparsed : r.parsed parse = .ok (some v) := by simp [MathRow.parsed, hdata, hparse, Except.map]
          exact ⟨rfl, .inl ⟨r, hrow, of_decide_eq_true htick, rfl, hparsed⟩⟩

/-! ## The invariant -/

/-- The flight that a call leads. -/
def Call.leads : Call α β → Option (Key × ℕ)
  | .leading key f _ _ => some (key, f)
  | .ended key f _ _ => some (key, f)
  | .unwinding key f => some (key, f)
  | _ => none

/-- A read of the key is in progress. -/
def Call.Reads (key : Key) : Call α β → Prop
  | .leading k _ _ _ => k = key
  | _ => False

/-- What a waiter is answered, by the outcome of its flight and the time. -/
inductive Joined (outcome : Option (Outcome β)) (time : ℤ) : Outcome β → Prop
  | deadline : Joined outcome time (.error "priority flight deadline")
  | entry {e : Entry β} : outcome = some (.ok (some e)) → time < e.validUntil → Joined outcome time (.ok (some e))
  | expired {e : Entry β} : outcome = some (.ok (some e)) → e.validUntil ≤ time →
      Joined outcome time (.error "priority flight unavailable")
  | absent : outcome = some (.ok none) → Joined outcome time (.ok none)
  | failed {m : String} : outcome = some (.error m) → Joined outcome time (.error m)

/-- What a call is answered. -/
def Answered (s : State α β) (key : Key) (time : ℤ) (answer : Outcome β) : Role → Prop
  | .cached => ∃ e f, answer = .ok (some e) ∧ time < e.validUntil ∧ f < s.fresh ∧
      s.flight f = ⟨key, some (.ok (some e))⟩
  | .led f ended => f < s.fresh ∧ s.flight f = ⟨key, some answer⟩ ∧
      ∀ e, answer = .ok (some e) → e.validUntil = ended + ttl
  | .joined f => f < s.fresh ∧ (s.flight f).key = key ∧ Joined (s.flight f).outcome time answer

/-- What holds of a call where it stands. -/
def CallInv (parse : α → Except String β) (s : State α β) : Call α β → Prop
  | .leading key _ cached row => (∀ e, cached = some e → FromRow parse s key e) ∧
      ∀ r, row = some (some r) → (key, r) ∈ s.committed
  | .ended key _ time outcome => ∀ e, outcome = .ok (some e) → FromRow parse s key e ∧ e.validUntil = time + ttl
  | .joining key f _ => f < s.fresh ∧ (s.flight f).key = key
  | .waiting key f _ => f < s.fresh ∧ (s.flight f).key = key
  | .done key role time answer => Answered s key time answer role
  | _ => True

structure Inv (parse : α → Except String β) (s : State α β) : Prop where
  nodup : (s.flights.map Prod.fst).Nodup
  /-- The flights in the map are those that are led. -/
  led : ∀ p, p ∈ s.flights ↔ ∃ c, (s.calls c).leads = some p
  one : ∀ c c' p, (s.calls c).leads = some p → (s.calls c').leads = some p → c = c'
  opened : ∀ p ∈ s.flights, p.2 < s.fresh ∧ s.flight p.2 = ⟨p.1, none⟩
  /-- The cache has outcomes of reads that succeeded. -/
  cache : ∀ key e, (key, some e) ∈ s.cache.entries →
    ∃ f < s.fresh, s.flight f = ⟨key, some (.ok (some e))⟩
  closed : ∀ f key e, f < s.fresh → s.flight f = ⟨key, some (.ok (some e))⟩ → FromRow parse s key e
  rows : ∀ key r, s.rows key = some r → (key, r) ∈ s.committed
  calls : ∀ c, CallInv parse s (s.calls c)

/-- Flights that have an outcome keep it, and rows that were written have been. -/
structure Grows (s s' : State α β) : Prop where
  fresh : s.fresh ≤ s'.fresh
  key : ∀ f < s.fresh, (s'.flight f).key = (s.flight f).key
  outcome : ∀ f < s.fresh, ∀ o, (s.flight f).outcome = some o → (s'.flight f).outcome = some o
  committed : ∀ p ∈ s.committed, p ∈ s'.committed

theorem Grows.fromRow (h : Grows s s') {key : Key} {e : Entry β} (he : FromRow parse s key e) :
    FromRow parse s' key e :=
  let ⟨row, hrow, hrest⟩ := he
  ⟨row, h.committed _ hrow, hrest⟩

theorem Grows.flight (h : Grows s s') {key : Key} {f : ℕ} {o : Outcome β} (hf : f < s.fresh)
    (hflight : s.flight f = ⟨key, some o⟩) : f < s'.fresh ∧ s'.flight f = ⟨key, some o⟩ := by
  refine ⟨Nat.lt_of_lt_of_le hf h.fresh, ?_⟩
  have hkey := h.key f hf
  have hout := h.outcome f hf o (by rw [hflight])
  cases hs' : s'.flight f with
  | mk k out =>
    rw [hs'] at hkey hout
    rw [hflight] at hkey
    rw [show k = key from hkey, show out = some o from hout]

theorem Joined.grows (h : Grows s s') {f : ℕ} (hf : f < s.fresh) {time : ℤ} {answer : Outcome β}
    (hj : Joined (s.flight f).outcome time answer) : Joined (s'.flight f).outcome time answer := by
  cases hj with
  | deadline => exact .deadline
  | entry ho hlt => exact .entry (h.outcome f hf _ ho) hlt
  | expired ho hle => exact .expired (h.outcome f hf _ ho) hle
  | absent ho => exact .absent (h.outcome f hf _ ho)
  | failed ho => exact .failed (h.outcome f hf _ ho)

theorem Grows.callInv (h : Grows s s') {call : Call α β} (hcall : CallInv parse s call) :
    CallInv parse s' call := by
  match call, hcall with
  | .idle, _ => trivial
  | .unwinding _ _, _ => trivial
  | .panicked _ _, _ => trivial
  | .leading key f cached row, ⟨hcached, hrow⟩ =>
    exact ⟨fun e he => h.fromRow (hcached e he), fun r hr => h.committed _ (hrow r hr)⟩
  | .ended key f time outcome, hout => exact fun e he => (hout e he).imp_left h.fromRow
  | .joining key f d, ⟨hf, hkey⟩ => exact ⟨Nat.lt_of_lt_of_le hf h.fresh, (h.key f hf).trans hkey⟩
  | .waiting key f d, ⟨hf, hkey⟩ => exact ⟨Nat.lt_of_lt_of_le hf h.fresh, (h.key f hf).trans hkey⟩
  | .done key .cached time answer, ⟨e, f, hans, hlt, hf, hflight⟩ =>
    exact ⟨e, f, hans, hlt, h.flight hf hflight⟩
  | .done key (.led f ended) time answer, ⟨hf, hflight, hval⟩ =>
    obtain ⟨hf', hflight'⟩ := h.flight hf hflight
    exact ⟨hf', hflight', hval⟩
  | .done key (.joined f) time answer, ⟨hf, hkey, hjoined⟩ =>
    exact ⟨Nat.lt_of_lt_of_le hf h.fresh, (h.key f hf).trans hkey, hjoined.grows h hf⟩

/-! ## Steps keep the invariant -/

section Steps

variable {s s' : State α β} {c c' : ℕ} {call : Call α β} {key : Key} {f : ℕ}

theorem setCall_self : (s.setCall c call).calls c = call := update_self ..

theorem setCall_of_ne (h : c' ≠ c) : (s.setCall c call).calls c' = s.calls c' := update_of_ne h ..

theorem Grows.refl (s : State α β) : Grows s s := ⟨Nat.le_refl _, fun _ _ => rfl, fun _ _ _ => id, fun _ => id⟩

/-- A call goes on without a change of what it leads. -/
theorem Inv.setCall (h : Inv parse s) (hleads : call.leads = (s.calls c).leads) (hcall : CallInv parse s call) :
    Inv parse (s.setCall c call) := by
  have hsame : ∀ c', ((s.setCall c call).calls c').leads = (s.calls c').leads := by
    intro c'
    rcases eq_or_ne c' c with rfl | hne
    · rw [setCall_self, hleads]
    · rw [setCall_of_ne hne]
  refine ⟨h.nodup, fun p => ?_, fun c₁ c₂ p h₁ h₂ => ?_, h.opened, h.cache, h.closed, h.rows, fun c' => ?_⟩
  · simp only [hsame]
    exact h.led p
  · rw [hsame] at h₁ h₂
    exact h.one c₁ c₂ p h₁ h₂
  · rcases eq_or_ne c' c with rfl | hne
    · rw [setCall_self]
      exact (⟨Nat.le_refl _, fun _ _ => rfl, fun _ _ _ => id, fun _ => id⟩ : Grows s (s.setCall c' call)).callInv hcall
    · rw [setCall_of_ne hne]
      exact h.calls c'

/-- A cache with no more entries. -/
theorem Inv.cacheSub (h : Inv parse s) {cache : Lru Key (Option (Entry β))}
    (hsub : ∀ e ∈ cache.entries, e ∈ s.cache.entries) : Inv parse { s with cache := cache } :=
  { h with cache := fun key e he => h.cache key e (hsub _ he) }

theorem flightOf_mem (hf : s.flightOf key = some f) : (key, f) ∈ s.flights := by
  obtain ⟨p, hp, rfl⟩ := map_eq_some_iff.1 hf
  have hkey : p.1 = key := by simpa using find?_some hp
  exact hkey ▸ mem_of_find?_eq_some hp

theorem flightOf_none (hf : s.flightOf key = none) : ∀ p ∈ s.flights, p.1 ≠ key := by
  rw [State.flightOf, map_eq_none_iff, find?_eq_none] at hf
  exact fun p hp => by simpa using hf p hp

theorem Inv.lead (h : Inv parse s) (hidle : s.calls c = .idle) (hnone : s.flightOf key = none)
    {cached : Option (Entry β)} (hcached : ∀ e, cached = some e → FromRow parse s key e) :
    Inv parse ((s.open key).setCall c (.leading key s.fresh cached none)) := by
  have hgrows : Grows s ((s.open key).setCall c (.leading key s.fresh cached none)) := by
    refine ⟨Nat.le_succ _, fun f hf => ?_, fun f hf o ho => ?_, fun _ => id⟩
    · exact congrArg Flight.key (update_of_ne (Nat.ne_of_lt hf) ..)
    · exact (congrArg Flight.outcome (update_of_ne (Nat.ne_of_lt hf) ..)).trans ho
  have hflight : ∀ f < s.fresh, (s.open key).flight f = s.flight f := fun f hf =>
    update_of_ne (Nat.ne_of_lt hf) ..
  have hnew : (s.open key).flight s.fresh = ⟨key, none⟩ := update_self ..
  refine ⟨?_, fun p => ?_, fun c₁ c₂ p h₁ h₂ => ?_, fun p hp => ?_, fun k e he => ?_, fun g k e hg hk => ?_, h.rows,
    fun c' => ?_⟩
  · refine nodup_cons.2 ⟨fun hmem => ?_, h.nodup⟩
    obtain ⟨p, hp, hkey⟩ := mem_map.1 hmem
    exact flightOf_none hnone p hp hkey
  · rw [show ((s.open key).setCall c (.leading key s.fresh cached none)).flights = (key, s.fresh) :: s.flights from rfl,
      mem_cons, h.led]
    constructor
    · rintro (rfl | ⟨c', hc'⟩)
      · exact ⟨c, by rw [setCall_self]; rfl⟩
      · refine ⟨c', ?_⟩
        rw [setCall_of_ne]
        · exact hc'
        · rintro rfl
          rw [hidle] at hc'
          cases hc'
    · rintro ⟨c', hc'⟩
      rcases eq_or_ne c' c with rfl | hne
      · rw [setCall_self] at hc'
        exact .inl (Option.some.inj hc').symm
      · rw [setCall_of_ne hne] at hc'
        exact .inr ⟨c', hc'⟩
  · -- an older flight has a smaller number
    have hold : ∀ {c'}, c' ≠ c → (s.calls c').leads = some p → p ≠ (key, s.fresh) := by
      rintro c' - hc' rfl
      exact Nat.lt_irrefl _ (h.opened _ ((h.led _).2 ⟨c', hc'⟩)).1
    rcases eq_or_ne c₁ c with rfl | hne₁ <;> rcases eq_or_ne c₂ c₁ with rfl | hne₂
    · rfl
    · rw [setCall_self] at h₁
      rw [setCall_of_ne hne₂] at h₂
      exact absurd (Option.some.inj h₁).symm (hold hne₂ h₂)
    · rfl
    · rw [setCall_of_ne hne₁] at h₁
      rcases eq_or_ne c₂ c with rfl | hne
      · rw [setCall_self] at h₂
        exact absurd (Option.some.inj h₂).symm (hold hne₁ h₁)
      · rw [setCall_of_ne hne] at h₂
        exact h.one c₁ c₂ p h₁ h₂
  · rcases mem_cons.1 hp with rfl | hp
    · exact ⟨Nat.lt_succ_self _, hnew⟩
    · obtain ⟨hlt, hp⟩ := h.opened p hp
      exact ⟨Nat.lt_succ_of_lt hlt, (hflight _ hlt).trans hp⟩
  · obtain ⟨g, hg, hk⟩ := h.cache k e he
    exact ⟨g, Nat.lt_succ_of_lt hg, (hflight _ hg).trans hk⟩
  · rcases Nat.lt_succ_iff_lt_or_eq.1 hg with hg | rfl
    · exact hgrows.fromRow (h.closed g k e hg ((hflight g hg).symm.trans hk))
    · cases hnew.symm.trans hk
  · rcases eq_or_ne c' c with rfl | hne
    · rw [setCall_self]
      exact ⟨fun e he => hgrows.fromRow (hcached e he), nofun⟩
    · rw [setCall_of_ne hne]
      exact hgrows.callInv (h.calls c')

/-- A call begins. -/
theorem Inv.load (h : Inv parse s) (hidle : s.calls c = .idle) (deadline : ℕ) : Inv parse (s.load c key deadline) := by
  have hlooked : Inv parse (s.looked key) := h.cacheSub fun e he => Lru.mem_of_get he
  have hfound : ∀ e, (s.cache.get key).1.join = some e → ∃ f < s.fresh, s.flight f = ⟨key, some (.ok (some e))⟩ := by
    intro e he
    rw [Lru.get_fst, join_eq_some_iff] at he
    exact h.cache key e (Lru.mem_of_find he)
  cases hhit : (s.cache.get key).1.join.filter (s.clock < ·.validUntil) with
  | some e =>
    obtain ⟨he, hlt⟩ := filter_eq_some_iff.1 hhit
    obtain ⟨f, hf, hflight⟩ := hfound e he
    have heq : s.load c key deadline = (s.looked key).setCall c (.done key .cached s.clock (.ok (some e))) := by
      simp only [State.load, hhit]
    rw [heq]
    exact hlooked.setCall (by rw [show (s.looked key).calls c = .idle from hidle]; rfl)
      ⟨e, f, rfl, of_decide_eq_true hlt, hf, hflight⟩
  | none => cases hf : s.flightOf key with
    | some f =>
      obtain ⟨hlt, hflight⟩ := h.opened _ (flightOf_mem hf)
      have heq : s.load c key deadline = (s.looked key).setCall c (.joining key f deadline) := by
        simp only [State.load, hhit, hf]
      rw [heq]
      exact hlooked.setCall (by rw [show (s.looked key).calls c = .idle from hidle]; rfl)
        ⟨hlt, congrArg Flight.key hflight⟩
    | none =>
      have heq : s.load c key deadline =
          ((s.looked key).open key).setCall c (.leading key s.fresh (s.cache.get key).1.join none) := by
        simp only [State.load, hhit, hf]
      rw [heq]
      refine hlooked.lead hidle hf fun e he => ?_
      obtain ⟨f, hlt, hflight⟩ := hfound e he
      exact h.closed f key e hlt hflight

/-- A flight is given its outcome, and removed. -/
theorem Inv.complete (h : Inv parse s) (hleads : (s.calls c).leads = some (key, f)) {outcome : Outcome β}
    (hout : ∀ e, outcome = .ok (some e) → FromRow parse s key e) (hcall : call.leads = none)
    (hinv : Grows s ((s.complete key f outcome).setCall c call) →
      CallInv parse ((s.complete key f outcome).setCall c call) call) :
    Inv parse ((s.complete key f outcome).setCall c call) := by
  have hmem := (h.led _).2 ⟨c, hleads⟩
  obtain ⟨hlt, hopen⟩ := h.opened _ hmem
  have hflight : (s.complete key f outcome).flight f = ⟨key, some outcome⟩ := by
    refine (update_self ..).trans ?_
    rw [hopen]
  have hother : ∀ g, g ≠ f → (s.complete key f outcome).flight g = s.flight g := fun g hg =>
    update_of_ne hg ..
  have hgrows : Grows s ((s.complete key f outcome).setCall c call) := by
    refine ⟨Nat.le_refl _, fun g hg => ?_, fun g hg o ho => ?_, fun _ => id⟩
    · rcases eq_or_ne g f with rfl | hne
      · exact (congrArg Flight.key hflight).trans (congrArg Flight.key hopen).symm
      · exact congrArg Flight.key (hother g hne)
    · rcases eq_or_ne g f with rfl | hne
      · rw [hopen] at ho
        cases ho
      · exact (congrArg Flight.outcome (hother g hne)).trans ho
  refine ⟨h.nodup.sublist (filter_sublist.map _), fun p => ?_, fun c₁ c₂ p h₁ h₂ => ?_, fun p hp => ?_,
    fun k e he => ?_, fun g k e hg hk => ?_, h.rows, fun c' => ?_⟩
  · have hcalls : ∀ c', c' ≠ c → ((s.complete key f outcome).setCall c call).calls c' = s.calls c' :=
      fun c' hne => setCall_of_ne hne
    rw [show ((s.complete key f outcome).setCall c call).flights = s.flights.filter (·.1 ≠ key) from rfl,
      mem_filter, h.led]
    constructor
    · rintro ⟨⟨c', hc'⟩, hp⟩
      refine ⟨c', ?_⟩
      rw [hcalls]
      · exact hc'
      · rintro rfl
        rw [hleads] at hc'
        cases hc'
        simp at hp
    · rintro ⟨c', hc'⟩
      have hne : c' ≠ c := by
        rintro rfl
        rw [setCall_self, hcall] at hc'
        cases hc'
      rw [hcalls c' hne] at hc'
      refine ⟨⟨c', hc'⟩, ?_⟩
      rw [decide_eq_true_eq]
      intro hp
      have hpkey : p = (key, f) := inj_on_of_nodup_map h.nodup ((h.led p).2 ⟨c', hc'⟩) hmem hp
      exact hne (h.one c' c p hc' (hpkey ▸ hleads))
  · have hne : ∀ {c' : ℕ}, (((s.complete key f outcome).setCall c call).calls c').leads = some p → c' ≠ c := by
      rintro c' hc' rfl
      rw [setCall_self, hcall] at hc'
      cases hc'
    rw [setCall_of_ne (hne h₁)] at h₁
    rw [setCall_of_ne (hne h₂)] at h₂
    exact h.one c₁ c₂ p h₁ h₂
  · obtain ⟨hp, hkey⟩ := mem_filter.1 hp
    obtain ⟨hplt, hpopen⟩ := h.opened p hp
    refine ⟨hplt, ?_⟩
    have hne : p.2 ≠ f := by
      intro heq
      rw [heq, hopen] at hpopen
      cases hpopen
      simp at hkey
    exact (hother p.2 hne).trans hpopen
  · have hold : (k, some e) ∈ s.cache.entries →
        ∃ g < s.fresh, (s.complete key f outcome).flight g = ⟨k, some (.ok (some e))⟩ := by
      intro hmem
      obtain ⟨g, hg, hk⟩ := h.cache k e hmem
      refine ⟨g, hg, (hother g ?_).trans hk⟩
      rintro rfl
      cases hopen.symm.trans hk
    cases outcome with
    | error m => exact hold he
    | ok entry =>
      rcases Lru.mem_of_set he with ⟨he, -⟩ | he
      · exact hold he
      · cases he
        exact ⟨f, hlt, hflight⟩
  · rcases eq_or_ne g f with rfl | hne
    · cases hflight.symm.trans hk
      exact hgrows.fromRow (hout e rfl)
    · exact hgrows.fromRow (h.closed g k e hg ((hother g hne).symm.trans hk))
  · rcases eq_or_ne c' c with rfl | hne
    · rw [setCall_self]
      exact hinv hgrows
    · rw [setCall_of_ne hne]
      exact hgrows.callInv (h.calls c')

/-- What a waiter answers, by its flight. -/
theorem joinedAnswer_spec {waitUntil instant : ℕ} {clock : ℤ} {outcome : Option (Outcome β)}
    (h : outcome.isSome ∨ waitUntil ≤ instant) :
    Joined outcome clock (joinedAnswer waitUntil instant clock outcome) := by
  unfold joinedAnswer
  split
  · exact .deadline
  · next hwait =>
    obtain ⟨o, rfl⟩ := isSome_iff_exists.1 (h.resolve_right hwait)
    match o with
    | .ok (some e) =>
      dsimp only
      split
      · next hlt => exact .entry rfl hlt
      · next hlt => exact .expired rfl (Int.not_lt.1 hlt)
    | .ok none => exact .absent rfl
    | .error m => exact .failed rfl

/-- Each step keeps the invariant. -/
theorem Inv.step (h : Inv parse s) {e : Event α} (hstep : step parse patience s e = some s') : Inv parse s' := by
  cases e with
  | load c key deadline =>
    simp only [Priorities.step] at hstep
    split at hstep
    · next hc =>
      cases hstep
      exact h.load hc deadline
    · cases hstep
  | query c =>
    simp only [Priorities.step] at hstep
    split at hstep
    · next key f cached hc =>
      cases hstep
      have hinv := h.calls c
      rw [hc] at hinv
      refine h.setCall (by rw [hc]; rfl) ⟨hinv.1, fun r hr => h.rows key r ?_⟩
      exact Option.some.inj hr
    · cases hstep
  | fail c message =>
    simp only [Priorities.step] at hstep
    split at hstep
    · next key f cached hc =>
      cases hstep
      exact h.setCall (by rw [hc]; rfl) nofun
    · cases hstep
  | finish c =>
    simp only [Priorities.step] at hstep
    split at hstep
    · next key f cached row hc =>
      cases hstep
      have hinv := h.calls c
      rw [hc] at hinv
      refine h.setCall (by rw [hc]; rfl) fun e he => ?_
      obtain ⟨hval, ⟨r, rfl, htick, heq, hparsed⟩ | ⟨e', he', htick, hdata⟩⟩ := refresh_spec he
      · exact ⟨⟨r, hinv.2 r rfl, htick, heq, hparsed⟩, hval⟩
      · obtain ⟨r, hr, hpos, heq, hparsed⟩ := hinv.1 e' he'
        exact ⟨⟨r, hr, hpos, heq.trans htick, hdata ▸ hparsed⟩, hval⟩
    · cases hstep
  | panic c =>
    simp only [Priorities.step] at hstep
    split at hstep
    · next key f cached row hc =>
      cases hstep
      exact h.setCall (by rw [hc]; rfl) trivial
    · cases hstep
  | complete c =>
    simp only [Priorities.step] at hstep
    split at hstep
    · next key f ended outcome hc =>
      cases hstep
      have hinv := h.calls c
      rw [hc] at hinv
      refine h.complete (by rw [hc]; rfl) (fun e he => (hinv e he).1) rfl fun _ => ?_
      have hmem := (h.led (key, f)).2 ⟨c, by rw [hc]; rfl⟩
      obtain ⟨hlt, hopen⟩ := h.opened _ hmem
      refine ⟨hlt, (update_self ..).trans ?_, fun e he => (hinv e he).2⟩
      rw [hopen]
    · next key f hc =>
      cases hstep
      exact h.complete (by rw [hc]; rfl) nofun rfl fun _ => trivial
    · cases hstep
  | wait c =>
    simp only [Priorities.step] at hstep
    split at hstep
    · next key f deadline hc =>
      cases hstep
      have hinv := h.calls c
      rw [hc] at hinv
      exact h.setCall (by rw [hc]; rfl) hinv
    · cases hstep
  | wake c =>
    simp only [Priorities.step] at hstep
    split at hstep
    · next key f waitUntil hc =>
      split at hstep
      · next henabled =>
        cases hstep
        have hinv := h.calls c
        rw [hc] at hinv
        exact h.setCall (by rw [hc]; rfl) ⟨hinv.1, hinv.2, joinedAnswer_spec henabled⟩
      · cases hstep
    · cases hstep
  | publish key row =>
    cases hstep
    have hgrows : Grows s { s with rows := update s.rows key row
                                   committed := row.toList.map (key, ·) ++ s.committed } :=
      ⟨Nat.le_refl _, fun _ _ => rfl, fun _ _ _ => id, fun p hp => mem_append_right _ hp⟩
    refine ⟨h.nodup, h.led, h.one, h.opened, h.cache, fun f k e hf hk => hgrows.fromRow (h.closed f k e hf hk),
      fun k r hr => ?_, fun c => hgrows.callInv (h.calls c)⟩
    have hrow : update s.rows key row k = some r := hr
    rcases eq_or_ne k key with rfl | hne
    · rw [update_self] at hrow
      subst hrow
      exact mem_append_left _ mem_cons_self
    · rw [update_of_ne hne] at hrow
      exact mem_append_right _ (h.rows k r hrow)
  | tick clock duration =>
    cases hstep
    have hgrows : Grows s { s with clock := clock, instant := s.instant + duration } :=
      ⟨Nat.le_refl _, fun _ _ => rfl, fun _ _ _ => id, fun _ => id⟩
    exact { h with calls := fun c => hgrows.callInv (h.calls c) }

theorem Reachable.inv (h : Reachable parse patience cap s) : Inv parse s := by
  induction h with
  | init =>
    refine ⟨nodup_nil, fun p => ⟨nofun, fun ⟨c, hc⟩ => nomatch hc⟩, nofun, nofun, nofun, fun f k e hf => ?_,
      nofun, fun c => trivial⟩
    exact absurd hf (Nat.not_lt_zero f)
  | step _ hstep ih => exact ih.step hstep

end Steps

/-! ## What holds in every run -/

/-- The promises of `load`, in a state. -/
structure SingleFlight (parse : α → Except String β) (s : State α β) : Prop where
  /-- At most one read for a key is in progress. -/
  one : ∀ c c' key, (s.calls c).Reads key → (s.calls c').Reads key → c = c'
  /-- A waiter is answered by the flight that it joined, whose leader read its key, or after its time. -/
  joined : ∀ c key f time answer, s.calls c = .done key (.joined f) time answer →
    (s.flight f).key = key ∧ Joined (s.flight f).outcome time answer
  /-- A leader answers what it gave to the flight; the entry of a read is good from its end on. -/
  led : ∀ c key f ended time answer, s.calls c = .done key (.led f ended) time answer →
    s.flight f = ⟨key, some answer⟩ ∧ ∀ e, answer = .ok (some e) → e.validUntil = ended + ttl
  /-- What the cache answers is unexpired, and was read by a read of the key that succeeded. -/
  cached : ∀ c key time answer, s.calls c = .done key .cached time answer → ∃ e f, answer = .ok (some e) ∧
    time < e.validUntil ∧ s.flight f = ⟨key, some (.ok (some e))⟩
  /-- The data of a returned entry is that of its tick. -/
  data : ∀ c key role time e, s.calls c = .done key role time (.ok (some e)) → FromRow parse s key e
  /-- A flight in the map has a leader that has not come to its end. -/
  removed : ∀ key f, s.flightOf key = some f → ∃ c, (s.calls c).leads = some (key, f)
  /-- A call for a key that nobody leads, and that has no unexpired entry, leads. -/
  leads : ∀ c key deadline, (∀ c' f, (s.calls c').leads ≠ some (key, f)) →
    (s.cache.get key).1.join.filter (s.clock < ·.validUntil) = none →
    ((s.load c key deadline).calls c).Reads key

theorem Inv.singleFlight {s : State α β} (h : Inv parse s) : SingleFlight parse s := by
  have hinv : ∀ {c call}, s.calls c = call → CallInv parse s call := fun {c _} hc => hc ▸ h.calls c
  have hremoved : ∀ key f, s.flightOf key = some f → ∃ c, (s.calls c).leads = some (key, f) := fun key f hf =>
    (h.led _).1 (flightOf_mem hf)
  have hcached : ∀ {c key time answer}, s.calls c = .done key .cached time answer → ∃ e f, answer = .ok (some e) ∧
      time < e.validUntil ∧ f < s.fresh ∧ s.flight f = ⟨key, some (.ok (some e))⟩ := fun hc => hinv hc
  have hled : ∀ {c key f ended time answer}, s.calls c = .done key (.led f ended) time answer → f < s.fresh ∧
      s.flight f = ⟨key, some answer⟩ ∧ ∀ e, answer = .ok (some e) → e.validUntil = ended + ttl := fun hc => hinv hc
  have hjoined : ∀ {c key f time answer}, s.calls c = .done key (.joined f) time answer → f < s.fresh ∧
      (s.flight f).key = key ∧ Joined (s.flight f).outcome time answer := fun hc => hinv hc
  refine ⟨?_, fun c key f time answer hc => (hjoined hc).2, fun c key f ended time answer hc => (hled hc).2, ?_, ?_,
    hremoved, ?_⟩
  · -- both lead the only flight of the key
    intro c c' key hc hc'
    have hread : ∀ {c}, (s.calls c).Reads key → ∃ f, (s.calls c).leads = some (key, f) := by
      intro c hc
      cases hcall : s.calls c with
      | leading k f cached row =>
        rw [hcall] at hc
        obtain rfl : k = key := hc
        exact ⟨f, rfl⟩
      | _ =>
        rw [hcall] at hc
        exact hc.elim
    obtain ⟨f, hf⟩ := hread hc
    obtain ⟨f', hf'⟩ := hread hc'
    have heq : (key, f) = (key, f') :=
      inj_on_of_nodup_map h.nodup ((h.led _).2 ⟨c, hf⟩) ((h.led _).2 ⟨c', hf'⟩) rfl
    exact h.one c c' _ hf (heq ▸ hf')
  · intro c key time answer hc
    obtain ⟨e, f, hans, hlt, -, hflight⟩ := hcached hc
    exact ⟨e, f, hans, hlt, hflight⟩
  · intro c key role time e hc
    match role, hc with
    | .cached, hc =>
      obtain ⟨e', f, hans, -, hf, hflight⟩ := hcached hc
      cases hans
      exact h.closed f key e hf hflight
    | .led f ended, hc =>
      obtain ⟨hf, hflight, -⟩ := hled hc
      exact h.closed f key e hf hflight
    | .joined f, hc =>
      obtain ⟨hf, hkey, hj⟩ := hjoined hc
      cases hj with
      | entry hout hlt =>
        refine h.closed f key e hf ?_
        rw [← hkey, ← hout]
  · intro c key deadline hnone hexpired
    have hflight : s.flightOf key = none := by
      by_contra hne
      obtain ⟨f, hf⟩ := ne_none_iff_exists'.1 hne
      obtain ⟨c', hc'⟩ := hremoved key f hf
      exact hnone c' f hc'
    have heq : s.load c key deadline =
        ((s.looked key).open key).setCall c (.leading key s.fresh (s.cache.get key).1.join none) := by
      simp only [State.load, hexpired, hflight]
    rw [heq, setCall_self]
    rfl

end Polis.Priorities
