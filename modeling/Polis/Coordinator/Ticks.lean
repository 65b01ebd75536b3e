import Polis.Coordinator.Effects

/-!
# Ticks and epochs

A floor never falls, and a publication is above it. So the ticks that a conversation commits increase
over a run, whatever happens to `math_ticks`, and so do the epochs that its lease is acquired with.
-/

namespace Polis.Coordinator

open Queue (Time Clock)

/-! ## Optional ticks -/

/-- `o>=n`, which NULL makes false. -/
def atLeast (o : Option ℤ) (n : ℤ) : Prop := ∃ c ∈ o, n ≤ c

@[simp]
theorem atLeast_some {c n : ℤ} : atLeast (some c) n ↔ n ≤ c := by simp [atLeast]

@[simp]
theorem not_atLeast_none {n : ℤ} : ¬atLeast none n := by simp [atLeast]

theorem atLeast.mono {o : Option ℤ} {m n : ℤ} (h : atLeast o n) (hm : m ≤ n) : atLeast o m := by
  obtain ⟨c, hc, hn⟩ := h
  exact ⟨c, hc, hm.trans hn⟩

theorem atLeast_greatest {x y : Option ℤ} {n : ℤ} :
    atLeast (greatest x y) n ↔ atLeast x n ∨ atLeast y n := by
  cases x with
  | none => simp [greatest]
  | some c =>
    cases y with
    | none | some => simp [greatest]

theorem atLeast_maxOf {ts : List ℤ} {n : ℤ} : atLeast (maxOf ts) n ↔ ∃ t ∈ ts, n ≤ t := by
  induction ts with
  | nil => simp [maxOf]
  | cons t ts ih =>
    change atLeast (greatest (some t) (maxOf ts)) n ↔ _
    rw [atLeast_greatest, ih]
    simp

theorem lt_nextTick {o : Option ℤ} {n : ℤ} (h : atLeast o n) : n < nextTick o := by
  obtain ⟨c, rfl, hn⟩ := h
  change n < c + 1
  omega

variable {b : Builtins} {db db' : Database} {e : Event} {k : ConvKey}
variable {es : List Event} {f : FloorRow} {n : ℤ}

/-! ## The current tick -/

theorem atLeast_currentTick : atLeast (db.currentTick k) n ↔
    atLeast (db.pointer k) n ∨ atLeast (db.lastReceipt k) n ∨ atLeast (db.floor k) n := by
  unfold Database.currentTick
  rw [atLeast_greatest, atLeast_greatest, or_assoc]

theorem atLeast_lastReceipt : atLeast (db.lastReceipt k) n ↔
    ∃ g ∈ db.generations.rows, (g.mathEnv, g.zid) = k ∧ n ≤ g.mathTick := by
  unfold Database.lastReceipt
  rw [atLeast_maxOf]
  constructor
  · rintro ⟨t, ht, hn⟩
    obtain ⟨g, hg, rfl⟩ := List.mem_map.1 ht
    obtain ⟨hg, hk⟩ := List.mem_filter.1 hg
    exact ⟨g, hg, of_decide_eq_true hk, hn⟩
  · rintro ⟨g, hg, hk, hn⟩
    exact ⟨_, List.mem_map_of_mem (List.mem_filter.2 ⟨hg, decide_eq_true hk⟩), hn⟩

/-! ## Floors -/

/-- A transition ends at or above every tick that either conversation records. -/
theorem le_baseTick {a : TransitionArgs}
    (h : n ∈ db.recordedTicks a.from ∨ n ∈ db.recordedTicks a.to ∨ a.lastServed = some n ∨ n = 0) :
    n ≤ baseTick db a := by
  have hge : atLeast (greatest (greatest (greatest (maxOf (db.recordedTicks a.from))
      (maxOf (db.recordedTicks a.to))) a.lastServed) (some 0)) n := by
    simp only [atLeast_greatest, atLeast_maxOf, atLeast_some]
    rcases h with h | h | h | h
    · exact .inl (.inl (.inl ⟨n, h, le_rfl⟩))
    · exact .inl (.inl (.inr ⟨n, h, le_rfl⟩))
    · exact .inl (.inr ⟨n, h, le_rfl⟩)
    · exact .inr h.le
  obtain ⟨c, hc, hn⟩ := hge
  unfold baseTick
  rw [hc]
  exact hn

theorem baseTick_le_floorTick {profile : NamespaceRow} {base : ℤ} :
    base ≤ profile.floorTick base := by
  unfold NamespaceRow.floorTick NamespaceRow.resultTick
  split
  · exact (lt_add_one base).le
  · exact le_rfl

theorem floor_mem_recordedTicks (h : db.floors.find k = some f) :
    f.mathTick ∈ db.recordedTicks k := by
  simp [Database.recordedTicks, h]

/-- The floor of a publication has reached its tick. -/
theorem PublishArgs.le_floor {a : PublishArgs} {tick cursor : ℤ} :
    tick ≤ (a.floor db tick cursor).mathTick := by
  unfold PublishArgs.floor
  split
  · exact le_max_right _ _
  · exact le_rfl

/-- It is no lower than the floor before. -/
theorem PublishArgs.floor_le {a : PublishArgs} {tick cursor : ℤ}
    (h : db.floors.find a.conv = some f) :
    f.mathTick ≤ (a.floor db tick cursor).mathTick ∧
      f.cachingTick ≤ (a.floor db tick cursor).cachingTick := by
  unfold PublishArgs.floor
  rw [h]
  exact ⟨le_max_left _ _, le_max_left _ _⟩

/-- No floor is ahead of the sequence. -/
def CursorsTaken (db : Database) : Prop :=
  ∀ k f, db.floors.find k = some f → f.cachingTick ≤ db.cachingTick

theorem CursorsTaken.step (hi : CursorsTaken db) (h : Step b db e db') : CursorsTaken db' := by
  intro k f hf
  cases h.effect with
  | quiet _ _ hcursor => exact (hi k f hf).trans hcursor
  | damage | admitted | reconciled | protection | cleaned => exact hi k f hf
  | @committed s clock a d _ _ _ _ _ _ _ _ _ hrec =>
    change f.cachingTick ≤ db.cachingTick + 1
    have hfind := hrec.floors k
    rw [hf] at hfind
    split at hfind
    · cases hfind
      unfold PublishArgs.floor
      cases hold : db.floors.find a.conv with
      | none => exact le_rfl
      | some f₀ =>
        have hle := hi _ _ hold
        change max f₀.cachingTick (db.cachingTick + 1) ≤ _
        omega
    · have hle := hi k f hfind.symm
      omega
  | @transitioned s clock a p profile after _ hnew =>
    change f.cachingTick ≤ after.cachingTick
    rw [hnew.cachingTick]
    have hfind := hnew.floors k
    change after.floors.find k = some f at hf
    rw [hf] at hfind
    split at hfind
    · cases hfind
      exact le_rfl
    · have hle := hi k f hfind.symm
      omega

/-- A floor never falls. -/
theorem floor_step (h : Step b db e db') (hf : db.floors.find k = some f) :
    ∃ f', db'.floors.find k = some f' ∧ f.mathTick ≤ f'.mathTick ∧
      (f.cachingTick ≤ db.cachingTick → f.cachingTick ≤ f'.cachingTick) := by
  cases h.effect with
  | quiet | damage | admitted | reconciled | protection | cleaned => exact ⟨f, hf, le_rfl, fun _ => le_rfl⟩
  | @committed s clock a d _ _ _ _ _ _ _ _ _ hrec =>
    have hfind := hrec.floors k
    split at hfind
    · next hk =>
        subst hk
        obtain ⟨hle, hcursor⟩ := PublishArgs.floor_le hf
        exact ⟨_, hfind, hle, fun _ => hcursor⟩
    · exact ⟨f, hfind.trans hf, le_rfl, fun _ => le_rfl⟩
  | @transitioned s clock a p profile after _ hnew =>
    have hfind := hnew.floors k
    split at hfind
    · next hk =>
        subst hk
        refine ⟨_, hfind, ?_, fun hcursor => hcursor.trans (lt_add_one _).le⟩
        exact (le_baseTick (.inr (.inl (floor_mem_recordedTicks hf)))).trans
          baseTick_le_floorTick
    · exact ⟨f, hfind.trans hf, le_rfl, fun _ => le_rfl⟩

theorem atLeast_floor_step (h : Step b db e db') (hn : atLeast (db.floor k) n) :
    atLeast (db'.floor k) n := by
  obtain ⟨m, hm, hle⟩ := hn
  obtain ⟨f, hf, rfl⟩ := Option.map_eq_some_iff.1 hm
  obtain ⟨f', hf', hle', -⟩ := floor_step h hf
  exact ⟨f'.mathTick, by simp [Database.floor, hf'], hle.trans hle'⟩

theorem atLeast_floor_run (h : Run (Step b) db es db') (hn : atLeast (db.floor k) n) :
    atLeast (db'.floor k) n :=
  h.keeps (fun d => atLeast (d.floor k) n) hn fun _ _ _ hi hs => atLeast_floor_step hs hi

/-- Floors never fall over a run. -/
theorem floor_run (hi : CursorsTaken db) (h : Run (Step b) db es db')
    (hf : db.floors.find k = some f) :
    ∃ f', db'.floors.find k = some f' ∧ f.mathTick ≤ f'.mathTick ∧ f.cachingTick ≤ f'.cachingTick := by
  have hrun : CursorsTaken db' ∧ ∃ f', db'.floors.find k = some f' ∧ f.mathTick ≤ f'.mathTick ∧
      f.cachingTick ≤ f'.cachingTick := by
    apply h.keeps (fun d => CursorsTaken d ∧ ∃ f', d.floors.find k = some f' ∧
      f.mathTick ≤ f'.mathTick ∧ f.cachingTick ≤ f'.cachingTick)
    · exact ⟨hi, f, hf, le_rfl, le_rfl⟩
    · rintro d e d' ⟨hd, f₁, hf₁, htick, hcursor⟩ hstep
      obtain ⟨f₂, hf₂, htick₂, hcursor₂⟩ := floor_step hstep hf₁
      exact ⟨hd.step hstep, f₂, hf₂, htick.trans htick₂, hcursor.trans (hcursor₂ (hd k f₁ hf₁))⟩
  exact hrun.2

/-! ## Committed ticks -/

/-- A writing publication takes the tick after the current one and leaves its floor there. -/
theorem committed_step (h : Step b db e db') {tick : ℤ} (htick : e.committed k = some tick) :
    tick = nextTick (db.currentTick k) ∧ atLeast (db'.floor k) tick := by
  cases h.effect with
  | @quiet e _ _ _ hquiet _ _ =>
    unfold Event.committed at htick
    split at htick
    · cases hquiet
    · cases htick
  | damage | admitted | reconciled | protection | cleaned | transitioned => cases htick
  | @committed s clock a d _ _ _ _ _ _ _ _ _ hrec =>
    simp only [Event.committed] at htick
    split at htick
    · next hk =>
        subst hk
        cases htick
        have hfind := hrec.floors a.conv
        rw [if_pos rfl] at hfind
        refine ⟨rfl, (a.floor db _ (db.cachingTick + 1)).mathTick, ?_, PublishArgs.le_floor⟩
        exact Option.map_eq_some_iff.2 ⟨_, hfind, rfl⟩
    · cases htick

/-- The ticks of a run increase, and the floor has reached each of them. -/
theorem committed_run (h : Run (Step b) db es db') :
    (es.filterMap (Event.committed k)).Pairwise (· < ·) ∧
      ∀ tick ∈ es.filterMap (Event.committed k), atLeast (db'.floor k) tick := by
  apply h.increasing (Event.committed k) fun d tick => atLeast (d.floor k) tick
  · intro d e d' tick hstep hfloor
    exact atLeast_floor_step hstep hfloor
  · intro d e d' tick hstep htick
    obtain ⟨rfl, hfloor⟩ := committed_step hstep htick
    refine ⟨hfloor, fun m hm => lt_nextTick ?_⟩
    rw [atLeast_currentTick]
    exact .inr (.inr hm)

/-! ## Epochs -/

/-- A lease stays, and its epoch does not fall; an acquisition raises it. -/
theorem LeaseMove.epoch {l l' : Option LeaseRow} (h : LeaseMove k e l l') :
    (∀ r, l = some r → ∃ r', l' = some r' ∧ r.ownerEpoch ≤ r'.ownerEpoch) ∧
    ∀ epoch, e.acquired k = some epoch →
      (∃ r', l' = some r' ∧ r'.ownerEpoch = epoch) ∧ ∀ r, l = some r → r.ownerEpoch < epoch := by
  cases h with
  | kept he => exact ⟨fun r hr => ⟨r, hr, le_rfl⟩, fun epoch h => nomatch he.symm.trans h⟩
  | extended he =>
    refine ⟨fun r hr => ?_, fun epoch h => nomatch he.symm.trans h⟩
    cases hr
    exact ⟨_, rfl, le_rfl⟩
  | dispatched howned =>
    refine ⟨fun r hr => ?_, fun epoch h => nomatch h⟩
    cases hr
    exact ⟨_, rfl, le_rfl⟩
  | @acquired s clock owner n l r' hdispatch hlt =>
    refine ⟨fun r hr => ⟨r', rfl, (hlt r hr).le⟩, fun epoch h => ?_⟩
    simp only [Event.acquired, if_true] at h
    cases h
    exact ⟨⟨r', rfl, rfl⟩, hlt⟩

theorem epoch_step (h : Step b db e db') :
    (∀ l, db.leases.find k = some l →
      ∃ l', db'.leases.find k = some l' ∧ l.ownerEpoch ≤ l'.ownerEpoch) ∧
    ∀ epoch, e.acquired k = some epoch →
      (∃ l', db'.leases.find k = some l' ∧ l'.ownerEpoch = epoch) ∧
      ∀ l, db.leases.find k = some l → l.ownerEpoch < epoch := by
  cases h.effect with
  | damage | admitted | reconciled | protection | cleaned | committed => exact (LeaseMove.kept rfl).epoch
  | transitioned _ hnew =>
    refine ⟨fun l hl => ?_, fun epoch h => nomatch h⟩
    obtain ⟨l', hl', hepoch⟩ := hnew.epochs k l hl
    exact ⟨l', hl', hepoch.ge⟩
  | quiet _ hmoves _ => exact (hmoves k).epoch

/-- The epochs that a lease is acquired with increase over a run. -/
theorem acquired_run (h : Run (Step b) db es db') :
    (es.filterMap (Event.acquired k)).Pairwise (· < ·) := by
  refine (h.increasing (Event.acquired k)
    (fun d epoch => ∃ l, d.leases.find k = some l ∧ epoch ≤ l.ownerEpoch) ?_ ?_).1
  · rintro d e d' epoch hstep ⟨l, hl, hle⟩
    obtain ⟨l', hl', hle'⟩ := (epoch_step hstep).1 l hl
    exact ⟨l', hl', hle.trans hle'⟩
  · intro d e d' epoch hstep hepoch
    obtain ⟨⟨l, hl, heq⟩, hlt⟩ := (epoch_step hstep).2 epoch hepoch
    refine ⟨⟨l, hl, heq.ge⟩, ?_⟩
    rintro m ⟨l₀, hl₀, hle₀⟩
    exact hle₀.trans_lt (hlt l₀ hl₀)

end Polis.Coordinator
