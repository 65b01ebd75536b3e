import Polis.Common.Run

/-!
# Transactions that lock what they write

A transaction locks a resource before it writes to it and keeps the lock until it ends. Each of its
statements sees what is committed by then, and its own writes before it. So the committed writes of a
resource make one serial history: each was allowed after the ones before it.
-/

set_option linter.unusedSectionVars false

namespace Polis

open List

/-! ## Serial histories -/

section Serial

variable {ω : Type*}

/-- A history in which each write was allowed after the ones before it. -/
inductive Serial (allowed : List ω → ω → Prop) : List ω → Prop
  | nil : Serial allowed []
  | snoc {h : List ω} {w : ω} : Serial allowed h → allowed h w → Serial allowed (h ++ [w])

namespace Serial

variable {allowed : List ω → ω → Prop} {h : List ω}

/-- A property of histories that every allowed write extends. -/
theorem keeps (I : List ω → Prop) (h0 : I [])
    (hstep : ∀ h w, Serial allowed h → I h → allowed h w → I (h ++ [w]))
    (hserial : Serial allowed h) : I h := by
  induction hserial with
  | nil => exact h0
  | snoc hs hw ih => exact hstep _ _ hs ih hw

/-- A history under one rule is one under every weaker rule. -/
theorem mono {allowed' : List ω → ω → Prop} (hmono : ∀ h w, allowed h w → allowed' h w)
    (hserial : Serial allowed h) : Serial allowed' h := by
  induction hserial with
  | nil => exact .nil
  | snoc _ hw ih => exact ih.snoc (hmono _ _ hw)

/-- The writes before one make a history after which it was allowed. -/
theorem of_append {w : ω} {r : List ω} (hserial : Serial allowed (h ++ w :: r)) :
    Serial allowed h ∧ allowed h w := by
  induction r using List.reverseRecOn with
  | nil =>
    generalize hl : h ++ [w] = l at hserial
    cases hserial with
    | nil => simp at hl
    | snoc hs hw =>
      obtain ⟨rfl, heq⟩ := append_inj' hl rfl
      obtain rfl : w = _ := by simpa using heq
      exact ⟨hs, hw⟩
  | append_singleton r x ih =>
    rw [← cons_append, ← append_assoc] at hserial
    generalize hl : h ++ w :: r ++ [x] = l at hserial
    cases hserial with
    | nil => simp at hl
    | snoc hs hw =>
      obtain ⟨rfl, -⟩ := append_inj' hl rfl
      exact ih hs

end Serial

end Serial

/-! ## Transactions -/

variable {κ τ ω : Type*}

/-- The committed writes of each resource, those of the open transactions, and who holds each lock. -/
structure Locked (κ τ ω : Type*) where
  committed : κ → List ω
  pending : τ → κ → List ω
  holder : κ → Option τ

namespace Locked

/-- What a transaction does next. -/
inductive Event (κ τ ω : Type*)
  | lock (t : τ) (k : κ)
  | write (t : τ) (k : κ) (w : ω)
  | commit (t : τ)
  | rollback (t : τ)
deriving DecidableEq, Repr

/-- The transaction whose step it is. -/
def Event.transaction : Event κ τ ω → τ
  | .lock t _ | .write t _ _ | .commit t | .rollback t => t

/-- Nothing is written yet. -/
def init : Locked κ τ ω := ⟨fun _ => [], fun _ _ => [], fun _ => none⟩

/-- The writes to a resource that a statement of the transaction sees. -/
def view (s : Locked κ τ ω) (t : τ) (k : κ) : List ω := s.committed k ++ s.pending t k

variable [DecidableEq κ] [DecidableEq τ]

/-- The lock is the transaction's. -/
def take (s : Locked κ τ ω) (t : τ) (k : κ) : Locked κ τ ω :=
  { s with holder := fun j => if j = k then some t else s.holder j }

/-- The transaction has written once more. -/
def add (s : Locked κ τ ω) (t : τ) (k : κ) (w : ω) : Locked κ τ ω :=
  { s with
    pending := fun u j => if u = t ∧ j = k then s.pending u j ++ [w] else s.pending u j }

/-- The transaction is over and its locks are free. -/
def drop (s : Locked κ τ ω) (t : τ) : Locked κ τ ω :=
  { s with
    pending := fun u j => if u = t then [] else s.pending u j
    holder := fun j => if s.holder j = some t then none else s.holder j }

/-- The state after the event, if it can happen: a lock is free or held already, and a write is of the
lock's holder and allowed after the writes it sees. -/
def next (allowed : κ → List ω → ω → Prop) [∀ k h, DecidablePred (allowed k h)]
    (s : Locked κ τ ω) : Event κ τ ω → Option (Locked κ τ ω)
  | .lock t k => if s.holder k = none ∨ s.holder k = some t then some (s.take t k) else none
  | .write t k w =>
    if s.holder k = some t ∧ allowed k (s.view t k) w then some (s.add t k w) else none
  | .commit t => some { s.drop t with committed := fun k => s.view t k }
  | .rollback t => some (s.drop t)

/-- One step of the transactions. -/
def Step (allowed : κ → List ω → ω → Prop) [∀ k h, DecidablePred (allowed k h)]
    (s : Locked κ τ ω) (e : Event κ τ ω) (s' : Locked κ τ ω) : Prop :=
  next allowed s e = some s'

section Views

variable {s : Locked κ τ ω} {t u : τ} {j k : κ} {w : ω}

theorem view_add :
    (s.add t k w).view u j = if u = t ∧ j = k then s.view u j ++ [w] else s.view u j := by
  by_cases h : u = t ∧ j = k
  · simp [view, add, h]
  · simp [view, add, h]

theorem view_drop (h : u ≠ t) : (s.drop t).view u j = s.view u j := by
  simp [view, drop, h]

theorem holder_drop : (s.drop t).holder j = some u ↔ s.holder j = some u ∧ u ≠ t := by
  unfold drop
  dsimp only
  split
  · next hheld =>
      rw [hheld]
      simp [eq_comm]
  · next hheld =>
      refine ⟨fun h => ⟨h, ?_⟩, fun h => h.1⟩
      rintro rfl
      exact hheld h

theorem pending_drop (h : (s.drop t).pending u j ≠ []) : u ≠ t ∧ s.pending u j ≠ [] := by
  unfold drop at h
  dsimp only at h
  split at h
  · exact absurd rfl h
  · next hu => exact ⟨hu, h⟩

end Views

section Steps

variable {allowed : κ → List ω → ω → Prop} [∀ k h, DecidablePred (allowed k h)]
  {s s' : Locked κ τ ω} {t : τ} {k : κ} {w : ω}

theorem lock_step (hfree : s.holder k = none ∨ s.holder k = some t) :
    Step allowed s (.lock t k) (s.take t k) :=
  if_pos hfree

theorem write_step (hheld : s.holder k = some t) (hallowed : allowed k (s.view t k) w) :
    Step allowed s (.write t k w) (s.add t k w) :=
  if_pos ⟨hheld, hallowed⟩

theorem step_lock (h : Step allowed s (.lock t k) s') :
    (s.holder k = none ∨ s.holder k = some t) ∧ s' = s.take t k := by
  dsimp only [Step, next] at h
  split at h
  · next hfree => exact ⟨hfree, (Option.some.inj h).symm⟩
  · cases h

theorem step_write (h : Step allowed s (.write t k w) s') :
    s.holder k = some t ∧ allowed k (s.view t k) w ∧ s' = s.add t k w := by
  dsimp only [Step, next] at h
  split at h
  · next hheld => exact ⟨hheld.1, hheld.2, (Option.some.inj h).symm⟩
  · cases h

theorem step_commit (h : Step allowed s (.commit t) s') :
    s' = { s.drop t with committed := fun k => s.view t k } :=
  (Option.some.inj h).symm

theorem step_rollback (h : Step allowed s (.rollback t) s') : s' = s.drop t :=
  (Option.some.inj h).symm

/-- A step is one under another rule that allows its write, if it is one. -/
theorem step_of_allowed {allowed' : κ → List ω → ω → Prop} [∀ k h, DecidablePred (allowed' k h)]
    {e : Event κ τ ω} (hwrite : ∀ t k w, e = .write t k w → allowed' k (s.view t k) w)
    (h : Step allowed s e s') : Step allowed' s e s' := by
  cases e with
  | lock | commit | rollback => exact h
  | write t k w =>
    obtain ⟨hheld, -, rfl⟩ := step_write h
    exact write_step hheld (hwrite t k w rfl)

end Steps

/-! ## Histories are serial -/

/-- Only the holder of a lock has writes on its resource, and these follow the committed ones. -/
structure Good (allowed : κ → List ω → ω → Prop) (s : Locked κ τ ω) : Prop where
  held : ∀ t k, s.pending t k ≠ [] → s.holder k = some t
  serial : ∀ k, Serial (allowed k) (s.committed k)
  serial_view : ∀ t k, s.holder k = some t → Serial (allowed k) (s.view t k)

namespace Good

variable {allowed : κ → List ω → ω → Prop} {s : Locked κ τ ω} {t : τ} {k : κ} {w : ω}

/-- A transaction that does not hold the lock sees what is committed. -/
theorem view_of_not_held (hs : Good allowed s) (h : s.holder k ≠ some t) :
    s.view t k = s.committed k := by
  have hnil : s.pending t k = [] := by_contra fun hne => h (hs.held t k hne)
  rw [view, hnil, append_nil]

/-- Every transaction sees a serial history. -/
theorem serial_all (hs : Good allowed s) (t : τ) (k : κ) : Serial (allowed k) (s.view t k) := by
  by_cases h : s.holder k = some t
  · exact hs.serial_view t k h
  · rw [hs.view_of_not_held h]
    exact hs.serial k

theorem take (hs : Good allowed s) (hfree : s.holder k = none ∨ s.holder k = some t) :
    Good allowed (s.take t k) := by
  refine ⟨fun u j hne => ?_, hs.serial, fun u j _ => hs.serial_all u j⟩
  have hheld := hs.held u j hne
  dsimp only [Locked.take]
  split
  · next hj =>
      subst hj
      -- The one who has writes on the resource holds its lock already.
      rcases hfree with hfree | hfree
      · rw [hfree] at hheld
        cases hheld
      · exact hfree.symm.trans hheld
  · exact hheld

theorem add (hs : Good allowed s) (hheld : s.holder k = some t)
    (hallowed : allowed k (s.view t k) w) : Good allowed (s.add t k w) := by
  refine ⟨fun u j hne => ?_, hs.serial, fun u j hj => ?_⟩
  · dsimp only [Locked.add] at hne
    split at hne
    · next heq =>
        obtain ⟨rfl, rfl⟩ := heq
        exact hheld
    · exact hs.held u j hne
  · rw [view_add]
    split
    · next heq =>
        obtain ⟨rfl, rfl⟩ := heq
        exact (hs.serial_view u j hj).snoc hallowed
    · exact hs.serial_view u j hj

theorem drop (hs : Good allowed s) : Good allowed (s.drop t) := by
  refine ⟨fun u j hne => ?_, hs.serial, fun u j hj => ?_⟩
  · obtain ⟨hu, hne⟩ := pending_drop hne
    exact holder_drop.2 ⟨hs.held u j hne, hu⟩
  · obtain ⟨hheld, hu⟩ := holder_drop.1 hj
    rw [view_drop hu]
    exact hs.serial_view u j hheld

theorem commit (hs : Good allowed s) :
    Good allowed { s.drop t with committed := fun k => s.view t k } := by
  refine ⟨hs.drop.held, fun j => hs.serial_all t j, fun u j hj => ?_⟩
  obtain ⟨hheld, hu⟩ := holder_drop.1 hj
  -- The transaction that ends has written nothing to what another holds.
  have hview : s.view t j = s.committed j :=
    hs.view_of_not_held fun ht => hu (Option.some.inj (hheld.symm.trans ht))
  have hsame : view { s.drop t with committed := fun k => s.view t k } u j = (s.drop t).view u j :=
    congrArg (· ++ (s.drop t).pending u j) hview
  rw [hsame, view_drop hu]
  exact hs.serial_view u j hheld

theorem step [∀ k h, DecidablePred (allowed k h)] {e : Event κ τ ω} {s' : Locked κ τ ω}
    (hs : Good allowed s) (h : Step allowed s e s') : Good allowed s' := by
  cases e with
  | lock t k =>
    obtain ⟨hfree, rfl⟩ := step_lock h
    exact hs.take hfree
  | write t k w =>
    obtain ⟨hheld, hallowed, rfl⟩ := step_write h
    exact hs.add hheld hallowed
  | commit t =>
    obtain rfl := step_commit h
    exact hs.commit
  | rollback t =>
    obtain rfl := step_rollback h
    exact hs.drop

/-- What another transaction has locked does not change. -/
theorem step_other [∀ k h, DecidablePred (allowed k h)] {e : Event κ τ ω} {s' : Locked κ τ ω} {u : τ}
    (hs : Good allowed s) (h : Step allowed s e s') (hu : u ≠ e.transaction) :
    s'.pending u = s.pending u ∧
      ∀ j, s.holder j = some u → s'.holder j = some u ∧ s'.committed j = s.committed j := by
  cases e with
  | lock t k =>
    obtain ⟨hfree, rfl⟩ := step_lock h
    refine ⟨rfl, fun j hj => ⟨?_, rfl⟩⟩
    dsimp only [Locked.take]
    split
    · next hjk =>
        subst hjk
        rw [hj] at hfree
        exact absurd (Option.some.inj (hfree.resolve_left (by simp))) hu
    · exact hj
  | write t k w =>
    obtain ⟨-, -, rfl⟩ := step_write h
    refine ⟨funext fun j => ?_, fun j hj => ⟨hj, rfl⟩⟩
    exact if_neg fun heq => hu heq.1
  | commit t =>
    obtain rfl := step_commit h
    refine ⟨funext fun j => if_neg hu, fun j hj => ⟨holder_drop.2 ⟨hj, hu⟩, ?_⟩⟩
    exact hs.view_of_not_held fun ht => hu (Option.some.inj (hj.symm.trans ht))
  | rollback t =>
    obtain rfl := step_rollback h
    exact ⟨funext fun j => if_neg hu, fun j hj => ⟨holder_drop.2 ⟨hj, hu⟩, rfl⟩⟩

theorem mono {allowed' : κ → List ω → ω → Prop} (hmono : ∀ k h w, allowed k h w → allowed' k h w)
    (hs : Good allowed s) : Good allowed' s where
  held := hs.held
  serial k := (hs.serial k).mono (hmono k)
  serial_view t k hk := (hs.serial_view t k hk).mono (hmono k)

theorem run [∀ k h, DecidablePred (allowed k h)] {es : List (Event κ τ ω)} {s' : Locked κ τ ω}
    (hs : Good allowed s) (h : Run (Step allowed) s es s') : Good allowed s' :=
  h.keeps (Good allowed) hs fun _ _ _ hs hstep => hs.step hstep

/-- What another transaction has locked does not change over a run. -/
theorem run_other [∀ k h, DecidablePred (allowed k h)] {es : List (Event κ τ ω)} {s' : Locked κ τ ω}
    {u : τ} (hs : Good allowed s) (h : Run (Step allowed) s es s')
    (hby : ∀ e ∈ es, e.transaction = t) (hu : u ≠ t) :
    s'.pending u = s.pending u ∧
      ∀ j, s.holder j = some u → s'.holder j = some u ∧ s'.committed j = s.committed j := by
  induction h with
  | nil => exact ⟨rfl, fun j hj => ⟨hj, rfl⟩⟩
  | @snoc es s₁ e s₂ hrun hstep ih =>
    obtain ⟨hpending, hheld⟩ := ih fun e he => hby e (mem_append_left _ he)
    have he : u ≠ e.transaction := by rwa [hby e (by simp)]
    obtain ⟨hpending', hheld'⟩ := (hs.run hrun).step_other hstep he
    refine ⟨hpending'.trans hpending, fun j hj => ?_⟩
    obtain ⟨hholder, hcommitted⟩ := hheld j hj
    obtain ⟨hholder', hcommitted'⟩ := hheld' j hholder
    exact ⟨hholder', hcommitted'.trans hcommitted⟩

end Good

/-! ## What steps do to the histories -/

section Histories

variable {allowed : κ → List ω → ω → Prop} [∀ k h, DecidablePred (allowed k h)]
  {s s' : Locked κ τ ω} {e : Event κ τ ω} {es : List (Event κ τ ω)}

theorem step_of_run (h : Run (Step allowed) s [e] s') : Step allowed s e s' := by
  obtain ⟨s₁, hstep, hnil⟩ := h.cons_inv
  rwa [← hnil.nil_inv] at hstep

/-- A history only grows. -/
theorem step_grows (h : Step allowed s e s') (k : κ) : s.committed k <+: s'.committed k := by
  cases e with
  | lock t j => exact (step_lock h).2 ▸ prefix_rfl
  | write t j w => exact (step_write h).2.2 ▸ prefix_rfl
  | commit t => exact step_commit h ▸ prefix_append _ _
  | rollback t => exact step_rollback h ▸ prefix_rfl

theorem run_grows (h : Run (Step allowed) s es s') (k : κ) : s.committed k <+: s'.committed k :=
  h.keeps (fun s' => s.committed k <+: s'.committed k) prefix_rfl
    fun _ _ _ hprefix hstep => hprefix.trans (step_grows hstep k)

/-- What is committed stays where no event is a commit. -/
theorem run_committed (h : Run (Step allowed) s es s') (hes : ∀ t, .commit t ∉ es) :
    s'.committed = s.committed := by
  induction h with
  | nil => rfl
  | @snoc es s₁ e s₂ hrun hstep ih =>
    have hih := ih fun t ht => hes t (mem_append_left _ ht)
    cases e with
    | lock t k => exact (step_lock hstep).2 ▸ hih
    | write t k w => exact (step_write hstep).2.2 ▸ hih
    | commit t => exact absurd (by simp) (hes t)
    | rollback t => exact step_rollback hstep ▸ hih

/-- Every write of the state, committed or not, has the property. -/
structure Writes (P : ω → Prop) (s : Locked κ τ ω) : Prop where
  committed : ∀ k, ∀ w ∈ s.committed k, P w
  pending : ∀ t k, ∀ w ∈ s.pending t k, P w

namespace Writes

variable {P Q : ω → Prop}

theorem view (hs : Writes P s) (t : τ) (k : κ) : ∀ w ∈ s.view t k, P w := by
  intro w hw
  rcases mem_append.1 hw with hw | hw
  · exact hs.committed k w hw
  · exact hs.pending t k w hw

theorem imp (hs : Writes P s) (h : ∀ w, P w → Q w) : Writes Q s :=
  ⟨fun k w hw => h w (hs.committed k w hw), fun t k w hw => h w (hs.pending t k w hw)⟩

theorem drop (hs : Writes P s) (t : τ) : Writes P (s.drop t) := by
  refine ⟨hs.committed, fun u k w hw => ?_⟩
  have hne : (s.drop t).pending u k ≠ [] := ne_nil_of_mem hw
  obtain ⟨hu, -⟩ := pending_drop hne
  exact hs.pending u k w (by simpa [Locked.drop, hu] using hw)

theorem step (hs : Writes P s) (h : Step allowed s e s') (hnew : ∀ t k w, e = .write t k w → P w) :
    Writes P s' := by
  cases e with
  | lock t k =>
    obtain ⟨-, rfl⟩ := step_lock h
    exact ⟨hs.committed, hs.pending⟩
  | write t k w =>
    obtain ⟨-, -, rfl⟩ := step_write h
    refine ⟨hs.committed, fun u j x hx => ?_⟩
    dsimp only [Locked.add] at hx
    split at hx
    · rcases mem_append.1 hx with hx | hx
      · exact hs.pending u j x hx
      · exact mem_singleton.1 hx ▸ hnew t k w rfl
    · exact hs.pending u j x hx
  | commit t =>
    obtain rfl := step_commit h
    exact ⟨fun k => hs.view t k, (hs.drop t).pending⟩
  | rollback t =>
    obtain rfl := step_rollback h
    exact hs.drop t

theorem run (hs : Writes P s) (h : Run (Step allowed) s es s')
    (hnew : ∀ t k w, .write t k w ∈ es → P w) : Writes P s' := by
  induction h with
  | nil => exact hs
  | @snoc es s₁ e s₂ hrun hstep ih =>
    refine (ih fun t k w hw => hnew t k w (mem_append_left _ hw)).step hstep ?_
    rintro t k w rfl
    exact hnew t k w (by simp)

end Writes

end Histories

theorem writes_init {P : ω → Prop} : Writes P (init : Locked κ τ ω) :=
  ⟨fun _ _ h => (nomatch h), fun _ _ _ h => (nomatch h)⟩

theorem good_init {allowed : κ → List ω → ω → Prop} : Good allowed (init : Locked κ τ ω) :=
  ⟨fun _ _ hne => absurd rfl hne, fun _ => .nil, fun _ _ h => nomatch h⟩

/-- In every state that transactions reach, each history is serial. -/
theorem good_of_run {allowed : κ → List ω → ω → Prop} [∀ k h, DecidablePred (allowed k h)]
    {s : Locked κ τ ω} {es : List (Event κ τ ω)} (h : Run (Step allowed) init es s) :
    Good allowed s :=
  h.keeps (Good allowed) good_init fun _ _ _ hs hstep => hs.step hstep

end Locked

end Polis
