import Polis.Coordinator.RetentionTheorems

/-!
# Writer transitions

A transition withdraws its source until another transition leads there, revokes the dispatches of both
namespaces, and leaves the floor of its destination at or above every tick that either has recorded. Its
receipt answers the same principal's repetition.
-/

namespace Polis.Coordinator

open Queue (Time Clock isSha256)

variable {b : Builtins} {db₀ db db' : Database} {e : Event} {k : ConvKey}
variable {es : List Event} {a : TransitionArgs}
variable {profile : NamespaceRow} {n : ℤ}

/-! ## What an event reports -/

namespace Event

/-- The event is a new transition. -/
def moved : Event → Option TransitionArgs
  | .call _ _ (.transition a) (.ok (.transitioned r)) =>
    if r.outcome = .alreadyCommitted then none else some a
  | _ => none

/-- The event is a new transition to the conversation. -/
def movesTo (k : ConvKey) (e : Event) : Bool := e.moved.any fun a => a.to = k

/-- The owner, the epoch and the columns of a dispatch. -/
def dispatched (k : ConvKey) : Event → Option (String × ℤ × DispatchColumns)
  | .call _ _ (.dispatch k' owner epoch columns) (.ok (.dispatched none)) =>
    if k' = k then some (owner, epoch, columns) else none
  | _ => none

end Event

theorem NamespaceRow.transitioned_new {base cursor : ℤ} :
    (profile.transitioned base cursor).outcome ≠ .alreadyCommitted := by
  unfold NamespaceRow.transitioned
  cases profile.writerKind with
  | python | legacy => exact fun h => nomatch h

/-- A new transition, as a step. -/
theorem moved_step (h : Step b db e db') (ha : e.moved = some a) :
    ∃ s clock p profile, e = .call s clock (.transition a)
        (.ok (.transitioned (profile.transitioned (baseTick db a) (db.cachingTick + 1)))) ∧
      MayTransition db s a p ∧ ∃ after, NewTransition db a p profile after ∧
        db' = { after with xid := db.xid + 1 } := by
  cases h.effect with
  | @quiet e _ _ _ hquiet _ _ =>
    unfold Event.moved at ha
    split at ha
    · next r =>
        split at ha
        · cases ha
        · next hne => exact absurd (by simpa [Event.writes] using hquiet) hne
    · cases ha
  | damage | admitted | reconciled | protection | committed | cleaned => cases ha
  | @transitioned s clock a' p profile after hmay hnew =>
    simp only [Event.moved, if_neg NamespaceRow.transitioned_new, Option.some.injEq] at ha
    subst ha
    exact ⟨s, clock, p, profile, rfl, hmay, after, hnew, rfl⟩

/-! ## Authority -/

/-- A withdrawn namespace stays so until a transition leads there. -/
theorem withdrawn_step (h : Step b db e db') (hk : db.enabled k = false)
    (he : e.movesTo k = false) : db'.enabled k = false := by
  cases h.effect with
  | quiet | damage | admitted | reconciled | protection | committed | cleaned => exact hk
  | @transitioned s clock a p profile after _ hnew =>
    have hauth := hnew.authority k
    simp only [Event.movesTo, Event.moved, if_neg NamespaceRow.transitioned_new, Option.any_some,
      decide_eq_false_iff_not] at he
    rw [if_neg (Ne.symm he)] at hauth
    split at hauth
    · exact hauth
    · exact hauth.trans hk

theorem withdrawn_run (h : Run (Step b) db es db') (hk : db.enabled k = false)
    (hes : es.any (Event.movesTo k) = false) : db'.enabled k = false := by
  have hrun : es.any (Event.movesTo k) = false → db'.enabled k = false := by
    apply h.invariant fun es d => es.any (Event.movesTo k) = false → d.enabled k = false
    · exact fun _ => hk
    · intro es d e d' _ hd hstep hany
      rw [List.any_append, List.any_cons, List.any_nil, Bool.or_false, Bool.or_eq_false_iff] at hany
      exact withdrawn_step hstep (hd hany.1) hany.2
  exact hrun hes

/-! ## Dispatches -/

/-- The dispatch of the lease is one of those made since. -/
def DispatchedIn (db : Database) (k : ConvKey) (es : List Event) : Prop :=
  ∀ l d, db.leases.find k = some l → l.dispatch = some d →
    (l.ownerId, l.ownerEpoch, d) ∈ es.filterMap (Event.dispatched k)

theorem LeaseMove.dispatch {l l' : Option LeaseRow} (h : LeaseMove k e l l') {r' : LeaseRow}
    {d : DispatchColumns} (hl' : l' = some r') (hd : r'.dispatch = some d) :
    e.dispatched k = some (r'.ownerId, r'.ownerEpoch, d) ∨
      ∃ r, l = some r ∧ r.ownerId = r'.ownerId ∧ r.ownerEpoch = r'.ownerEpoch ∧
        r.dispatch = some d := by
  cases h with
  | kept _ => exact .inr ⟨r', hl', rfl, rfl, hd⟩
  | extended _ =>
    cases hl'
    exact .inr ⟨_, rfl, rfl, rfl, hd⟩
  | acquired hnone _ =>
    cases hl'
    rw [hnone] at hd
    cases hd
  | dispatched howned =>
    cases hl'
    cases hd
    refine .inl ?_
    simp [Event.dispatched, howned.1, howned.2]

theorem DispatchedIn.step (hi : DispatchedIn db k es) (h : Step b db e db') :
    DispatchedIn db' k (es ++ [e]) := by
  have hkept : db'.leases.find k = db.leases.find k → DispatchedIn db' k (es ++ [e]) := by
    intro heq l d hl hd
    rw [List.filterMap_append]
    exact List.mem_append_left _ (hi l d (heq.symm.trans hl) hd)
  cases h.effect with
  | damage | admitted | reconciled | protection | committed | cleaned => exact hkept rfl
  | @transitioned s clock a p profile after _ hnew =>
    by_cases hk : k = a.from ∨ k = a.to
    · intro l d hl hd
      rw [hnew.leases k hk l hl] at hd
      cases hd
    · rw [not_or] at hk
      exact hkept (hnew.others k hk.1 hk.2)
  | quiet _ hmoves _ =>
    intro l d hl hd
    rw [List.filterMap_append]
    rcases (hmoves k).dispatch hl hd with hnew | ⟨l₀, hl₀, howner, hepoch, hd₀⟩
    · refine List.mem_append_right _ ?_
      rw [List.filterMap_cons_some hnew, List.filterMap_nil]
      exact List.mem_singleton.2 rfl
    · rw [← howner, ← hepoch]
      exact List.mem_append_left _ (hi l₀ d hl₀ hd₀)

theorem dispatched_run (h : Run (Step b) db es db')
    (hnone : ∀ l, db.leases.find k = some l → l.dispatch = none) : DispatchedIn db' k es := by
  apply h.invariant fun es d => DispatchedIn d k es
  · intro l d hl hd
    rw [hnone l hl] at hd
    cases hd
  · exact fun es d e d' _ hd hstep => hd.step hstep

/-! ## Ticks -/

/-- The ticks of the rows of the math tables. -/
def Database.mathTicks (db : Database) (k : ConvKey) : List ℤ :=
  ((db.main.find k).map (·.mathTick)).toList ++ ((db.bidtopid.find k).map (·.mathTick)).toList ++
    ((db.ptptstats.find k).map (·.mathTick)).toList

/-- No row of the math tables is ahead of the current tick. -/
def Led (db : Database) : Prop := ∀ k, ∀ n ∈ db.mathTicks k, atLeast (db.currentTick k) n

theorem mem_mathTicks : n ∈ db.mathTicks k ↔
    (db.main.find k).map (·.mathTick) = some n ∨ (db.bidtopid.find k).map (·.mathTick) = some n ∨
      (db.ptptstats.find k).map (·.mathTick) = some n := by
  simp only [Database.mathTicks, List.mem_append, Option.mem_toList, or_assoc]

theorem mem_recordedTicks : n ∈ db.recordedTicks k ↔
    db.pointer k = some n ∨ n ∈ db.mathTicks k ∨ db.lastReceipt k = some n ∨
      db.floor k = some n := by
  rw [mem_mathTicks]
  unfold Database.recordedTicks Database.pointer Database.floor
  simp only [List.mem_append, List.mem_map, Option.mem_toList, Option.map_eq_some_iff, or_assoc]

/-- What is recorded is at or below the current tick, where no row is ahead of it. -/
theorem Led.atLeast_of_recorded (hi : Led db) (h : n ∈ db.recordedTicks k) :
    atLeast (db.currentTick k) n := by
  rcases mem_recordedTicks.1 h with h | h | h | h
  · exact atLeast_currentTick.2 (.inl ⟨n, h, le_rfl⟩)
  · exact hi k n h
  · exact atLeast_currentTick.2 (.inr (.inl ⟨n, h, le_rfl⟩))
  · exact atLeast_currentTick.2 (.inr (.inr ⟨n, h, le_rfl⟩))

/-- The current tick is recorded. -/
theorem exists_recorded (h : atLeast (db.currentTick k) n) :
    ∃ m ∈ db.recordedTicks k, n ≤ m := by
  rcases atLeast_currentTick.1 h with ⟨m, hm, hn⟩ | ⟨m, hm, hn⟩ | ⟨m, hm, hn⟩
  · exact ⟨m, mem_recordedTicks.2 (.inl hm), hn⟩
  · exact ⟨m, mem_recordedTicks.2 (.inr (.inr (.inl hm))), hn⟩
  · exact ⟨m, mem_recordedTicks.2 (.inr (.inr (.inr hm))), hn⟩

/-- A transition is at or above the current ticks of both namespaces. -/
theorem current_le_baseTick (hk : k = a.from ∨ k = a.to) (h : atLeast (db.currentTick k) n) :
    n ≤ baseTick db a := by
  obtain ⟨m, hm, hn⟩ := exists_recorded h
  refine hn.trans (le_baseTick ?_)
  rcases hk with rfl | rfl
  · exact .inl hm
  · exact .inr (.inl hm)

theorem NamespaceRow.resultTick_eq {base tick : ℤ} (h : profile.resultTick base = some tick) :
    tick = base + 1 := by
  unfold NamespaceRow.resultTick at h
  split at h
  · cases h
    rfl
  · cases h

theorem Moved.pointer {ticks : Table TicksRow} {main : Table MainRow}
    {bidtopid ptptstats : Table DataRow} {k' : ConvKey} {tick : ℤ}
    (h : Moved db k' tick ticks main bidtopid ptptstats) (hdb : db'.ticks = ticks) :
    db'.pointer k = if k = k' then some tick else db.pointer k := by
  unfold Database.pointer
  rw [hdb]
  exact h.ticks k

/-- Unless `math_ticks` is damaged, no step lowers the current tick. -/
theorem currentTick_step (h : Step b db e db') (he : e ≠ .damage)
    (hn : atLeast (db.currentTick k) n) : atLeast (db'.currentTick k) n := by
  have hfloor : atLeast (db.floor k) n → atLeast (db'.currentTick k) n := fun hf =>
    atLeast_currentTick.2 (.inr (.inr (atLeast_floor_step h hf)))
  cases h.effect with
  | quiet | admitted | reconciled | protection => exact hn
  | damage _ => exact absurd rfl he
  | @committed s clock a d ticks main bidtopid ptptstats generations payloads floors _ hmoved hrec =>
    rw [atLeast_currentTick, hmoved.pointer rfl]
    split
    · next hk =>
        subst hk
        exact .inl (atLeast_some.2 (lt_nextTick hn).le)
    · rw [atLeast_currentTick] at hfloor
      rw [hmoved.pointer rfl, if_neg (by assumption)] at hfloor
      rcases atLeast_currentTick.1 hn with hp | hr | hf
      · exact .inl hp
      · obtain ⟨g, hg, hkey, hle⟩ := atLeast_lastReceipt.1 hr
        refine .inr (.inl (atLeast_lastReceipt.2 ⟨g, ?_, hkey, hle⟩))
        rw [Table.insert_rows hrec.generations]
        exact List.mem_append_left _ hg
      · exact hfloor hf
  | @cleaned s clock k' g hrem =>
    rcases atLeast_currentTick.1 hn with hp | hr | hf
    · exact atLeast_currentTick.2 (.inl hp)
    · obtain ⟨g', hg', hkey, hle⟩ := atLeast_lastReceipt.1 hr
      by_cases hop : g'.op = k'
      · -- The receipt that goes is below the floor.
        obtain rfl : g = g' :=
          Option.some_inj.1 (hrem.receipt.symm.trans (receipt_eq_some.2 ⟨hg', hop⟩))
        obtain ⟨f, hf, hlt, -⟩ := hrem.passed
        have hconv : OpKey.conv k' = k := by
          rw [← hop, ← hkey]
          rfl
        refine hfloor ⟨f.mathTick, ?_, hle.trans hlt.le⟩
        rw [← hconv]
        exact Option.map_eq_some_iff.2 ⟨f, hf, rfl⟩
      · refine atLeast_currentTick.2 (.inr (.inl (atLeast_lastReceipt.2 ⟨g', ?_, hkey, hle⟩)))
        exact Table.mem_deleteWhere.2 ⟨hg', hop⟩
    · exact hfloor hf
  | @transitioned s clock a p profile after _ hnew =>
    rcases atLeast_currentTick.1 hn with hp | hr | hf
    · rw [atLeast_currentTick]
      left
      change atLeast (after.pointer k) n
      rcases hnew.math with ⟨-, hticks, -⟩ | ⟨tick, htick, hmoved⟩
      · unfold Database.pointer
        rw [hticks]
        exact hp
      · rw [hmoved.pointer rfl]
        split
        · next hk =>
            have hle := current_le_baseTick (.inr hk) hn
            rw [atLeast_some, profile.resultTick_eq htick]
            omega
        · exact hp
    · refine atLeast_currentTick.2 (.inr (.inl ?_))
      unfold Database.lastReceipt
      change atLeast (maxOf ((after.generations.rows.filter _).map _)) n
      rw [hnew.generations]
      exact hr
    · exact hfloor hf

/-- A math row moves with the pointer. -/
theorem Moved.mathTicks {ticks : Table TicksRow} {main : Table MainRow}
    {bidtopid ptptstats : Table DataRow} {k' : ConvKey} {tick : ℤ}
    (h : Moved db k' tick ticks main bidtopid ptptstats) (hmain : db'.main = main)
    (hbid : db'.bidtopid = bidtopid) (hptpt : db'.ptptstats = ptptstats)
    (hn : n ∈ db'.mathTicks k) : (k = k' ∧ n = tick) ∨ n ∈ db.mathTicks k := by
  rw [mem_mathTicks, hmain, hbid, hptpt, h.main k, h.bidtopid k, h.ptptstats k] at hn
  rw [mem_mathTicks]
  split at hn
  · next hk => exact .inl ⟨hk, by simpa [eq_comm] using hn⟩
  · exact .inr hn

theorem Led.step (hi : Led db) (h : Step b db e db') (he : e ≠ .damage) : Led db' := by
  intro k n hn
  have hkept : n ∈ db.mathTicks k → atLeast (db'.currentTick k) n := fun hmem =>
    currentTick_step h he (hi k n hmem)
  cases h.effect with
  | quiet | admitted | reconciled | protection | cleaned => exact hkept hn
  | damage _ => exact absurd rfl he
  | @committed s clock a d ticks main bidtopid ptptstats generations payloads floors _ hmoved hrec =>
    rcases hmoved.mathTicks rfl rfl rfl hn with ⟨hk, rfl⟩ | hmem
    · rw [atLeast_currentTick, hmoved.pointer rfl, if_pos hk]
      exact .inl (atLeast_some.2 le_rfl)
    · exact hkept hmem
  | @transitioned s clock a p profile after _ hnew =>
    change n ∈ after.mathTicks k at hn
    rcases hnew.math with ⟨-, -, hmain, hbid, hptpt⟩ | ⟨tick, htick, hmoved⟩
    · unfold Database.mathTicks at hn
      rw [hmain, hbid, hptpt] at hn
      exact hkept hn
    · rcases hmoved.mathTicks rfl rfl rfl hn with ⟨hk, rfl⟩ | hmem
      · refine atLeast_currentTick.2 (.inl ?_)
        change atLeast (after.pointer k) n
        rw [hmoved.pointer rfl, if_pos hk]
        exact atLeast_some.2 le_rfl
      · exact hkept hmem

/-- What a step without damage keeps, a run without damage keeps. -/
theorem undamaged_run {I : Database → Prop} (h : Run (Step b) db es db')
    (h0 : I db) (hstep : ∀ d e d', I d → Step b d e d' → e ≠ .damage → I d')
    (hes : .damage ∉ es) : I db' := by
  have hrun : Event.damage ∉ es → I db' := by
    apply h.invariant fun es d => Event.damage ∉ es → I d
    · exact fun _ => h0
    · intro es d e d' _ hd hs hmem
      rw [List.mem_append, List.mem_singleton, not_or] at hmem
      exact hstep d e d' (hd hmem.1) hs (Ne.symm hmem.2)
  exact hrun hes

/-! ## The receipt of a transition -/

theorem transitionReceipt_step {key : String × String} {t : TransitionRow} (h : Step b db e db')
    (ht : db.transitions.find key = some t) : db'.transitions.find key = some t := by
  cases h.effect with
  | quiet | damage | admitted | reconciled | protection | committed | cleaned => exact ht
  | @transitioned s clock a p profile after _ hnew =>
    change after.transitions.find key = some t
    rw [Table.find_insert hnew.inserted, if_neg]
    · exact ht
    · rintro rfl
      have hfresh := hnew.fresh
      rw [show (a.env, a.transition) = Row.key (a.row db p profile (db.cachingTick + 1)) from rfl,
        ht] at hfresh
      cases hfresh

/-- What a transition answers when it is repeated. -/
def Transitioned.again (r : Transitioned) : Transitioned := { r with outcome := .alreadyCommitted }

/-- The receipt answers the request and the principal that it records, and no other. -/
theorem answered_from_receipt {s s' : Session} {a a' : TransitionArgs} {p : PrincipalRow}
    {cursor : ℤ} (hmay : MayTransition db₀ s a p) (hsetup : SameSetup db₀ db)
    (ht : db.transitions.find (a.env, a.transition) = some (a.row db₀ p profile cursor))
    (henv : a'.env = a.env) (hid : a'.transition = a.transition) (clock : Clock) :
    (a' = a ∧ s'.user = s.user → pcTransition db s' clock a' =
      .ok ((profile.transitioned (baseTick db₀ a) cursor).again, db)) ∧
    (¬(a' = a ∧ s'.user = s.user) → ∃ error, pcTransition db s' clock a' = .error error) := by
  constructor
  · rintro ⟨rfl, huser⟩
    refine pcTransition_repeat (p := p) ?_ ht ⟨rfl, rfl, rfl, rfl, rfl, rfl⟩
    refine ⟨?_, ?_, hmay.capable, hmay.valid, ?_, ?_⟩
    · rw [hsetup.allowed]
      unfold namespaceAllowed
      rw [huser]
      exact hmay.allowed
    · rw [hsetup.principals, huser]
      exact hmay.principal
    · rw [hsetup.namespaces]
      exact hmay.source
    · rw [hsetup.conversations]
      exact hmay.conversation
  · intro hne
    cases hcall : pcTransition db s' clock a' with
    | error error => exact ⟨error, rfl⟩
    | ok reply =>
      exfalso
      apply hne
      obtain ⟨p', hmay', ⟨t, ht', hfor, -, -⟩ | ⟨profile', -, hnew⟩⟩ := pcTransition_ok hcall
      · rw [henv, hid, ht] at ht'
        cases ht'
        obtain ⟨hsource, hzid, hlast, hexclusion, -, hname⟩ := hfor
        refine ⟨?_, ?_⟩
        · cases a
          cases a'
          simp_all [TransitionArgs.row]
        · exact (hmay'.name.symm.trans hname.symm).trans hmay.name
      · have hfresh := hnew.fresh
        rw [henv, hid, ht] at hfresh
        cases hfresh

/-! ## Fences -/

/-- A writing publication had the authority to. -/
theorem committed_authorized (h : Step b db e db') {tick : ℤ} (htick : e.committed k = some tick) :
    db.enabled k = true := by
  cases h.effect with
  | @quiet e _ _ _ hquiet _ _ =>
    unfold Event.committed at htick
    split at htick
    · cases hquiet
    · cases htick
  | damage | admitted | reconciled | protection | cleaned | transitioned => cases htick
  | committed hauth _ _ =>
    simp only [Event.committed] at htick
    split at htick
    · next hk =>
        subst hk
        exact hauth.enabled
    · cases htick

/-- A tick that the destination gets from a transition or after it. -/
theorem lt_of_landed {base tick n : ℤ}
    (hfloor : atLeast (db.floor a.to) (profile.floorTick base)) (hn : n ≤ base)
    (htick : profile.resultTick base = some tick ∨
    ∃ e db', Step b db e db' ∧ e.committed a.to = some tick) : n < tick := by
  rcases htick with hresult | ⟨e, db', hstep, hcommitted⟩
  · rw [profile.resultTick_eq hresult]
    omega
  · rw [(committed_step hstep hcommitted).1]
    refine lt_nextTick (atLeast_currentTick.2 (.inr (.inr (hfloor.mono ?_))))
    exact hn.trans baseTick_le_floorTick

/-- After a new transition, however the run goes on: nothing commits in the source until a transition
leads there; a publication in either namespace was dispatched since; the ticks of the destination are
above what the transition found and was given, and, while `math_ticks` is not damaged, above every
current tick before it; and the receipt answers the same request of the same principal only. -/
theorem transition_fences {pre post mid : List Event} {d db₁ db₂ : Database} {s : Session}
    {clock : Clock} {a : TransitionArgs} {r : Transitioned} (hpre : Run (Step b) db₀ pre d)
    (hpost : Run (Step b) d post db₁)
    (ht : Step b db₁ (.call s clock (.transition a) (.ok (.transitioned r))) db₂)
    (hr : r.outcome ≠ .alreadyCommitted) (hmid : Run (Step b) db₂ mid db) :
    (∀ e db' tick, Step b db e db' → e.committed a.from = some tick →
      mid.any (Event.movesTo a.from) = true) ∧
    (∀ s' clock' c tick cursor db', Step b db (.call s' clock' (.publish c)
        (.ok (.published (.committed tick cursor)))) db' → c.conv = a.from ∨ c.conv = a.to →
      ∃ columns, (c.owner, c.epoch, columns) ∈ mid.filterMap (Event.dispatched c.conv) ∧
        columns.isFor b c) ∧
    (∀ tick, (r.resultTick = some tick ∨ ∃ e db', Step b db e db' ∧ e.committed a.to = some tick) →
      (∀ n, a.lastServed = some n → n < tick) ∧
      (∀ n ∈ db₁.recordedTicks a.from ++ db₁.recordedTicks a.to, n < tick) ∧
      (.damage ∉ post → ∀ k, k = a.from ∨ k = a.to → ∀ n, atLeast (d.currentTick k) n → n < tick) ∧
      (.damage ∉ pre ++ post → Led db₀ → ∀ k, k = a.from ∨ k = a.to →
        ∀ n ∈ d.recordedTicks k, n < tick)) ∧
    ∀ s' clock' a', a'.env = a.env → a'.transition = a.transition →
      (a' = a ∧ s'.user = s.user → pcTransition db s' clock' a' = .ok (r.again, db)) ∧
      (¬(a' = a ∧ s'.user = s.user) → ∃ error, pcTransition db s' clock' a' = .error error) := by
  have hmoved : Event.moved (.call s clock (.transition a) (.ok (.transitioned r))) = some a := by
    simp only [Event.moved, if_neg hr]
  obtain ⟨_, _, p, profile, hevent, hmay, after, hnew, rfl⟩ := moved_step ht hmoved
  cases hevent
  have hsetup := ht.setup.trans (setup_run hmid)
  refine ⟨fun e db' tick hstep hcommitted => ?_,
    fun s' clock' c tick cursor db' hstep hk => ?_, fun tick htick => ?_,
    fun s' clock' a' henv hid => answered_from_receipt hmay hsetup ?_ henv hid clock'⟩
  · by_contra hany
    have hsource : after.enabled a.from = false := by
      rw [hnew.authority, if_neg, if_pos rfl]
      intro heq
      exact hmay.valid.1 (Prod.mk.inj heq).1
    have hwithdrawn := withdrawn_run hmid hsource (Bool.eq_false_iff.2 hany)
    rw [committed_authorized hstep hcommitted] at hwithdrawn
    cases hwithdrawn
  · have hdispatched := dispatched_run hmid fun l hl => hnew.leases c.conv hk l hl
    obtain ⟨data, hauth, -⟩ := committed_receipt hstep
    obtain ⟨lease, columns, hlease, ⟨howner, hepoch⟩, -, -, hcolumns, hfor⟩ := hauth.dispatched
    have hmem := hdispatched lease columns hlease hcolumns
    rw [howner, hepoch] at hmem
    exact ⟨columns, hmem, hfor⟩
  · have hfloor : atLeast (db.floor a.to) (profile.floorTick (baseTick db₁ a)) := by
      have hfind := (hnew.floors a.to).trans (if_pos rfl)
      exact atLeast_floor_run hmid ⟨_, Option.map_eq_some_iff.2 ⟨_, hfind, rfl⟩, le_rfl⟩
    have hlt : ∀ n, n ≤ baseTick db₁ a → n < tick := fun n hn => lt_of_landed hfloor hn htick
    have hcurrent : .damage ∉ post → ∀ k, k = a.from ∨ k = a.to →
        ∀ n, atLeast (d.currentTick k) n → n < tick := by
      intro hundamaged k hk n hn
      refine hlt n (current_le_baseTick hk ?_)
      exact undamaged_run hpost hn (fun _ _ _ hi hs he => currentTick_step hs he hi) hundamaged
    refine ⟨fun n hn => hlt n (le_baseTick (.inr (.inr (.inl hn)))), fun n hn => hlt n (le_baseTick ?_),
      hcurrent, fun hundamaged hled k hk n hn => ?_⟩
    · rcases List.mem_append.1 hn with hn | hn
      · exact .inl hn
      · exact .inr (.inl hn)
    · rw [List.mem_append, not_or] at hundamaged
      refine hcurrent hundamaged.2 k hk n (Led.atLeast_of_recorded ?_ hn)
      exact undamaged_run hpre hled (fun _ _ _ hi hs he => hi.step hs he) hundamaged.1
  · apply hmid.keeps fun d => d.transitions.find (a.env, a.transition) =
      some (a.row db₁ p profile (db₁.cachingTick + 1))
    · exact (Table.find_insert hnew.inserted).trans (if_pos rfl)
    · exact fun _ _ _ hi hs => transitionReceipt_step hs hi

/-! ## Samples -/

/-- A second namespace with two operators, a third one with its own, and a row of `math_main` that
`math_ticks` does not account for. -/
def transitionDatabase : Database where
  conversations := [1]
  roles := [⟨10, "worker", true⟩, ⟨11, "operator", true⟩, ⟨12, "deputy", true⟩, ⟨13, "other", true⟩]
  namespaces := ⟨[⟨"prod", .python, 10⟩, ⟨"next", .python, 10⟩, ⟨"last", .python, 10⟩], by decide,
    by decide, by decide⟩
  principals := ⟨[⟨10, "worker", "prod", false⟩, ⟨11, "operator", "next", true⟩,
    ⟨12, "deputy", "next", true⟩, ⟨13, "other", "last", true⟩], by decide, by decide, by decide⟩
  budgets := ⟨[⟨"prod", 10, 1073741824⟩, ⟨"next", 10, 1073741824⟩], by decide, by decide, by decide⟩
  main := ⟨[⟨"prod", 1, 100, .object [], 5, 0⟩], by decide, by decide, by decide⟩

/-- A transition of the conversation from the first namespace. -/
def sampleTransition (env : String) : TransitionArgs where
  source := "prod"
  env := env
  zid := 1
  transition := "move"
  lastServed := none
  exclusionSha256 := "44136fa355b3678a1146ad16f7e8649e94fb4fc21fe77e8310c060f61caaff8a"

/-- A call of one of the operators. -/
def operatorCall (user : String) (c : Call) : Session × Clock × Call :=
  (⟨user, true⟩, ⟨0, fun _ => 0⟩, c)

/-- The operator's transition and the database after it. -/
def sampleMoved : Event × Database :=
  Call.event sampleBuiltins transitionDatabase
    (operatorCall "operator" (.transition (sampleTransition "next")))

private theorem sampleMoved_outcome : sampleMoved.1.outcome =
    some (.ok (.transitioned ⟨.publicationRequired, 100, none, 1⟩)) := by
  decide +kernel

/-- A transition finds the row that is ahead, and its repetition is answered. -/
theorem transition_fences_repeated : pcTransition sampleMoved.2 ⟨"operator", true⟩ ⟨0, fun _ => 0⟩
    (sampleTransition "next") = .ok (⟨.alreadyCommitted, 100, none, 1⟩, sampleMoved.2) := by
  have hstep : Step sampleBuiltins _ sampleMoved.1 sampleMoved.2 := Call.event_step sampleBuiltins _ _
  rw [show sampleMoved.1 = .call _ _ _ _ from Call.event_eq sampleBuiltins sampleMoved_outcome] at hstep
  obtain ⟨-, -, -, hrepeat⟩ := transition_fences .nil .nil hstep (fun h => nomatch h) .nil
  exact (hrepeat ⟨"operator", true⟩ ⟨0, fun _ => 0⟩ (sampleTransition "next") rfl rfl).1 ⟨rfl, rfl⟩

/-- A publication in the first namespace, a transition to the second and a publication there. -/
def sampleMove : List (Session × Clock × Call) :=
  sampleCalls (.acquire ("prod", 1) "owner" 60 :: samplePublication "first" none) ++
    [.transition (sampleTransition "next"), .acquire ("next", 1) "owner" 60,
      .dispatch ("next", 1) "owner" 1 (sampleColumns "first" (some 0)),
      .admission ⟨"next", 1, "owner", 1, "first",
        "44136fa355b3678a1146ad16f7e8649e94fb4fc21fe77e8310c060f61caaff8a", 2097152⟩,
      .publish { sampleRequest "first" (some 0) with env := "next" }].map (operatorCall "operator") ++
    [operatorCall "deputy" (.transition (sampleTransition "next")),
      operatorCall "other" (.transition (sampleTransition "last"))]

/-- The publication after the transition is below a tick that the first namespace recorded once; the same
request is refused to another principal; and the same id with another destination is a new transition. -/
theorem transition_not_fenced : 100 ∈ transitionDatabase.recordedTicks ("prod", 1) ∧
    (history sampleBuiltins transitionDatabase sampleMove).1.filterMap Event.outcome =
    [.ok (.acquired (some 1)), .ok (.dispatched none), .ok (.admitted .admitted),
      .ok (.published (.committed 0 1)), .ok (.reconciled true),
      .ok (.transitioned ⟨.publicationRequired, 0, none, 2⟩), .ok (.acquired (some 1)),
      .ok (.dispatched none), .ok (.admitted .admitted), .ok (.published (.committed 1 3)),
      .error (.raised "P2031" "TRANSITION_IDENTITY_CONFLICT"),
      .ok (.transitioned ⟨.publicationRequired, 0, none, 4⟩)] := by
  constructor
  · decide
  · decide +kernel

end Polis.Coordinator
