import Polis.Poller.Moderation
import Polis.Poller.ServiceLanes

/-!
# The moderation poll misses no change

The window remembers the rows the last poll read. So a row that it takes for handled is the row the
last poll saw, which was then the last one delivered for its comment; every other row above the lower
bound is delivered, and a row at or below it has not moved since the last poll.

Reference: `polismath/poller/service.py`.
-/

namespace Polis.Poller

open List

/-! ## The statement -/

/-- Every change of the comment stamped above the start commits before a poll whose `bound` has
reached its stamp: the bound of every earlier poll is below it. -/
def ChangesBefore (bound : ModerationCycle → ℤ) (start : ℤ) (comment : ℤ × ℤ)
    (es : List ModerationEvent) : Prop :=
  ∀ es₁ row es₂, es = es₁ ++ .change row :: es₂ → row.comment = comment → start < row.modified →
    ∀ cycle, .poll cycle ∈ es₁ → bound cycle < row.modified

/-- A poll leaves every accepted comment that stands above the starting watermark, if its changes
commit while the lower bound left by each earlier poll is below their stamps, with the row in the table
as the last one delivered. -/
def Delivers (config : ServiceConfig) (overlapMs start : ℤ) (es : List ModerationEvent)
    (s : ModerationState) : Prop :=
  ∀ cycle s', s.Step overlapMs (.poll cycle) s' → ∀ comment row,
    s.comments.find comment = some row → start < row.modified → config.accepts row.zid = true →
    ChangesBefore (fun cycle => cycle.next.lower) start comment es →
    lastDelivered config comment (es ++ [.poll cycle]) = some row

/-- Over two successive polls that find a comment in one version, it is delivered at most once. -/
def DeliversOnce (config : ServiceConfig) (overlapMs : ℤ) (s : ModerationState) : Prop :=
  ∀ cycle s₁, s.Step overlapMs (.poll cycle) s₁ → ∀ changes s₂,
    Run (ModerationState.Step overlapMs) s₁ changes s₂ → (∀ e ∈ changes, ∃ row, e = .change row) →
    ∀ cycle' s₃, s₂.Step overlapMs (.poll cycle') s₃ → ∀ comment row,
      s.comments.find comment = some row → s₂.comments.find comment = some row →
      (ofComment comment
        (deliveries config ([.poll cycle] ++ changes ++ [.poll cycle']))).length ≤ 1

/-- What no event moves down: the watermark, and the lower bound of the next poll. -/
def NeverDecreases (overlapMs : ℤ) (s : ModerationState) : Prop :=
  ∀ e s', s.Step overlapMs e s' → s.watermark ≤ s'.watermark ∧
    s.polling.currentWindow.lower ≤ s'.polling.currentWindow.lower

/-! ## Dividing a poll -/

theorem moderationKind_key_injective : Function.Injective moderationKind.key := by
  intro r r' h
  cases r
  cases r'
  simp only [moderationKind, Prod.mk.injEq] at h
  obtain ⟨rfl, rfl, rfl, rfl, rfl⟩ := h
  rfl

section Split

variable {ρ κ γ : Type*} [DecidableEq ρ] [DecidableEq κ] [DecidableEq γ] {kind : WindowKind ρ κ γ}
variable {cycle : ModerationCycle} {row : CommentRow} {rows : List CommentRow}

/-- Where rows have no cells, every row not handled is fresh. -/
theorem splitLoop_snd_eq_nil (hcell : ∀ row, kind.cell row = none) (win : PollWindow κ γ)
    (remaining : κ → ℕ) (rows : List ρ) : (win.splitLoop kind remaining rows).2 = [] := by
  refine eq_nil_iff_forall_not_mem.2 fun row hrow => ?_
  have hsup := (splitLoop_supersedes win remaining rows).2 row hrow
  simp [PollWindow.supersedes, hcell] at hsup

/-- The fresh rows of a poll, in its order. -/
theorem splitLoop_fst_sublist (win : PollWindow κ γ) (remaining : κ → ℕ) (rows : List ρ) :
    (win.splitLoop kind remaining rows).1.Sublist rows := by
  induction rows generalizing remaining with
  | nil => exact List.Sublist.refl _
  | cons row rows ih =>
    rw [splitLoop_cons]
    split
    · exact (ih _).cons _
    · split
      · exact (ih _).cons _
      · exact (ih _).cons_cons _

end Split

/-- A row read once is fresh if its window had not handled it. -/
theorem mem_fresh_iff {s : PollState CommentRow ModerationKey Empty} {overlapMs : ℤ}
    (hnodup : rows.Nodup) :
    row ∈ (s.cycle moderationKind overlapMs rows).fresh ↔
      row ∈ rows ∧ s.currentWindow.handled (moderationKind.key row) = 0 := by
  have hcount := cycle_outcome_count moderationKind_key_injective overlapMs s rows row
  have hnil : (s.cycle moderationKind overlapMs rows).superseded = [] :=
    splitLoop_snd_eq_nil (fun _ => rfl) _ _ _
  rw [Cycle.outcome, hnil, append_nil] at hcount
  rw [← count_pos_iff, hcount, ← count_pos_iff]
  have hone := nodup_iff_count_le_one.1 hnodup row
  omega

/-! ## What is delivered -/

/-- A list gathered from distinct labels, of which one carries anything. -/
theorem flatMap_ite_eq {α β : Type*} [DecidableEq α] {labels : List α} (h : labels.Nodup) (a : α)
    (l : List β) :
    (labels.flatMap fun b => if b = a then l else []) = if a ∈ labels then l else [] := by
  induction labels with
  | nil => rfl
  | cons b labels ih =>
    rw [nodup_cons] at h
    rw [flatMap_cons, ih h.2]
    by_cases hb : b = a
    · subst hb
      rw [if_pos rfl, if_neg h.1, if_pos mem_cons_self, append_nil]
    · simp [hb, Ne.symm hb]

section

variable (config : ServiceConfig)
include config

/-- A poll delivers of an accepted comment what is fresh of it, of the others nothing. -/
theorem ofComment_delivered (cycle : ModerationCycle) (comment : ℤ × ℤ) :
    ofComment comment (ModerationCycle.delivered config cycle) =
      if config.accepts comment.1 = true then ofComment comment cycle.fresh else [] := by
  have hdelivered : ModerationCycle.delivered config cycle =
      ((appendNew [] (cycle.fresh.map CommentRow.zid)).filter config.accepts).flatMap
        fun z => cycle.fresh.filter fun row => row.zid = z := by
    rw [ModerationCycle.delivered, submissions, groupByZid, filter_map, map_map,
      flatMap_map]
    rfl
  have hpart : ∀ z, (cycle.fresh.filter fun row => row.zid = z).filter
      (fun row => decide (row.comment = comment)) =
        if z = comment.1 then ofComment comment cycle.fresh else [] := by
    intro z
    rw [filter_filter]
    split
    · next hz =>
        refine filter_congr fun row _ => ?_
        rw [Bool.eq_iff_iff]
        simp only [Bool.and_eq_true, decide_eq_true_eq, and_iff_left_iff_imp]
        rintro rfl
        exact hz.symm
    · next hz =>
        refine filter_eq_nil_iff.2 fun row _ h => hz ?_
        simp only [Bool.and_eq_true, decide_eq_true_eq] at h
        rw [← h.2, ← h.1]
        rfl
  rw [hdelivered, ofComment, filter_flatMap]
  simp only [hpart]
  rw [flatMap_ite_eq ((appendNew_nodup .nil).filter _)]
  by_cases haccepts : config.accepts comment.1 = true
  · rw [if_pos haccepts]
    split
    · rfl
    · next hzid =>
        refine (filter_eq_nil_iff.2 fun row hrow h => hzid ?_).symm
        obtain rfl : row.comment = comment := of_decide_eq_true h
        exact mem_filter.2 ⟨mem_appendNew.2 (.inr (mem_map_of_mem hrow)), haccepts⟩
  · rw [if_neg haccepts, if_neg fun h => haccepts (mem_filter.1 h).2]

@[simp] theorem deliveries_append (es es' : List ModerationEvent) :
    deliveries config (es ++ es') = deliveries config es ++ deliveries config es' :=
  flatMap_append

@[simp] theorem deliveries_poll (cycle : ModerationCycle) :
    deliveries config [.poll cycle] = ModerationCycle.delivered config cycle := by
  simp [deliveries]

theorem deliveries_changes {es : List ModerationEvent}
    (h : ∀ e ∈ es, ∃ row, e = .change row) : deliveries config es = [] := by
  refine flatMap_eq_nil_iff.2 fun e he => ?_
  obtain ⟨row, rfl⟩ := h e he
  rfl

@[simp] theorem lastDelivered_change (comment : ℤ × ℤ)
    (es : List ModerationEvent) (row : CommentRow) :
    lastDelivered config comment (es ++ [.change row]) = lastDelivered config comment es := by
  have hnone : deliveries config [.change row] = [] := deliveries_changes config (by simp)
  rw [lastDelivered, deliveries_append, hnone, append_nil, lastDelivered]

end

/-- The last row delivered after a poll: a fresh one of the comment, or the last one before. -/
theorem lastDelivered_poll {config : ServiceConfig} {comment : ℤ × ℤ}
    (haccepts : config.accepts comment.1 = true) (es : List ModerationEvent) (cycle : ModerationCycle) :
    lastDelivered config comment (es ++ [.poll cycle]) =
      (ofComment comment cycle.fresh).getLast?.or (lastDelivered config comment es) := by
  rw [lastDelivered, deliveries_append, deliveries_poll, ofComment, filter_append,
    getLast?_append]
  congr 2
  exact (ofComment_delivered config cycle comment).trans (if_pos haccepts)

/-! ## One poll -/

/-- A poll spelled out: it divides the rows above the lower bound, each comment once. -/
structure Polls (overlapMs : ℤ) (s : ModerationState) (cycle : ModerationCycle) (s' : ModerationState)
    (rows : List CommentRow) : Prop where
  read : ∀ row, row ∈ rows ↔
    s.comments.find row.comment = some row ∧ s.polling.currentWindow.lower < row.modified
  nodup : (rows.map CommentRow.comment).Nodup
  cycle_eq : cycle = s.polling.cycle moderationKind overlapMs rows
  comments : s'.comments = s.comments
  window : s'.polling.currentWindow = cycle.next

theorem ModerationState.Step.polls {overlapMs : ℤ} {s s' : ModerationState}
    (h : s.Step overlapMs (.poll cycle) s') : ∃ rows, Polls overlapMs s cycle s' rows := by
  obtain ⟨polling, ⟨rows, hrows, hcycle, rfl⟩, rfl⟩ := h
  refine ⟨rows, fun row => ?_, ?_, hcycle, rfl, ?_⟩
  · rw [hrows.mem_iff, mem_filter, decide_eq_true_eq, Table.find_eq_some]
    constructor
    · rintro ⟨hrow, hlower⟩
      exact ⟨⟨hrow, rfl⟩, hlower⟩
    · rintro ⟨⟨hrow, -⟩, hlower⟩
      exact ⟨hrow, hlower⟩
  · rw [(hrows.map CommentRow.comment).nodup_iff]
    exact s.comments.keys_nodup.sublist (filter_sublist.map _)
  · exact currentWindow_next s.polling cycle.next

namespace Polls

variable {config : ServiceConfig} {overlapMs : ℤ} {s s' : ModerationState} {cycle : ModerationCycle}
  {rows : List CommentRow} {row : CommentRow} {comment : ℤ × ℤ}

section

variable (h : Polls overlapMs s cycle s' rows)
include h

theorem mem_fresh : row ∈ cycle.fresh ↔
    row ∈ rows ∧ s.polling.currentWindow.handled (moderationKind.key row) = 0 := by
  rw [h.cycle_eq]
  exact mem_fresh_iff h.nodup.of_map

theorem fresh_nodup :
    (cycle.fresh.map CommentRow.comment).Nodup := by
  rw [h.cycle_eq]
  exact h.nodup.sublist ((splitLoop_fst_sublist _ _ _).map _)

/-- Above the lower bound it leaves, a poll's window knows the rows it read. -/
theorem handled_iff (hlower : cycle.next.lower < row.modified) :
    cycle.next.handled (moderationKind.key row) ≠ 0 ↔ row ∈ rows := by
  obtain rfl := h.cycle_eq
  have hcount := advanced_handled moderationKind_key_injective s.polling.currentWindow rows _ overlapMs row
    hlower
  rw [← count_pos_iff, ← hcount]
  exact Nat.pos_iff_ne_zero.symm

theorem ofComment_of_fresh (hfresh : row ∈ cycle.fresh) :
    ofComment row.comment cycle.fresh = [row] :=
  filter_eq_singleton h.fresh_nodup hfresh fun _ _ => decide_eq_true_iff

/-- Nothing is fresh of a comment whose row in the table is not. -/
theorem ofComment_of_not_fresh
    (hfind : s.comments.find comment = some row) (hfresh : row ∉ cycle.fresh) :
    ofComment comment cycle.fresh = [] := by
  refine filter_eq_nil_iff.2 fun r hr hcomment => hfresh ?_
  obtain rfl : r.comment = comment := of_decide_eq_true hcomment
  have hread := ((h.read r).1 (h.mem_fresh.1 hr).1).1
  rwa [Option.some.inj (hfind.symm.trans hread)]

/-- The poll delivers the row that stands, if it is fresh, and nothing else of the comment. -/
theorem lastDelivered_eq
    (haccepts : config.accepts comment.1 = true) (hfind : s.comments.find comment = some row)
    (es : List ModerationEvent) :
    lastDelivered config comment (es ++ [.poll cycle]) =
      if row ∈ cycle.fresh then some row else lastDelivered config comment es := by
  rw [lastDelivered_poll haccepts]
  split
  · next hfresh =>
      obtain ⟨-, rfl⟩ := Table.find_eq_some.1 hfind
      rw [show Row.key row = row.comment from rfl, h.ofComment_of_fresh hfresh]
      rfl
  · next hfresh =>
      rw [h.ofComment_of_not_fresh hfind hfresh]
      rfl

end

end Polls

/-! ## The window against the history of a comment -/

/-- What the window knows of an accepted comment: a version that it takes for handled is the last one
delivered, and so is the row that stands, if the lower bound has reached its stamp. -/
structure Follows (config : ServiceConfig) (start : ℤ) (comment : ℤ × ℤ) (es : List ModerationEvent)
    (s : ModerationState) : Prop where
  lower_left : s.polling.currentWindow.lower = start ∨
    ∃ cycle, .poll cycle ∈ es ∧ cycle.next.lower = s.polling.currentWindow.lower
  handled : ∀ row, row.comment = comment → s.polling.currentWindow.lower < row.modified →
    s.polling.currentWindow.handled (moderationKind.key row) ≠ 0 →
    lastDelivered config comment es = some row
  settled : ∀ row, s.comments.find comment = some row → start < row.modified →
    row.modified ≤ s.polling.currentWindow.lower → lastDelivered config comment es = some row

theorem Follows.init (config : ServiceConfig) (start : ℤ) (comment : ℤ × ℤ) (table : Table CommentRow) :
    Follows config start comment [] (.init table start) where
  lower_left := .inl rfl
  handled _ _ _ h := absurd rfl h
  settled _ _ hstart hle := absurd hle (not_le.2 hstart)

/-- The change that commits puts its row in the place of its comment. -/
theorem find_change {table table' : Table CommentRow} {comment : ℤ × ℤ}
    (h : table.upsert row (·.overwrite row) = .ok table') :
    table'.find comment = if comment = row.comment then some row else table.find comment := by
  rw [Table.upsert] at h
  split at h
  · next hsome =>
      rw [Table.find_update (f := (·.overwrite row)) (fun _ => rfl) h]
      refine if_congr Iff.rfl ?_ rfl
      obtain ⟨old, hold⟩ := Option.isSome_iff_exists.1 hsome
      obtain ⟨-, hkey⟩ := Table.find_eq_some.1 hold
      have hzid : old.zid = row.zid := congrArg Prod.fst hkey
      have htid : old.tid = row.tid := congrArg Prod.snd hkey
      rw [hold, Option.map_some, CommentRow.overwrite, hzid, htid]
  · exact Table.find_insert h

variable {config : ServiceConfig} {overlapMs start : ℤ} {comment : ℤ × ℤ} {es : List ModerationEvent}
  {s s' : ModerationState}

section

variable (h : Follows config start comment es s)
include h

/-- After a poll the row that stands is the last one delivered. -/
theorem Follows.delivered
    (haccepts : config.accepts comment.1 = true) (hpolls : Polls overlapMs s cycle s' rows)
    (hfind : s.comments.find comment = some row) (hstart : start < row.modified) :
    lastDelivered config comment (es ++ [.poll cycle]) = some row := by
  obtain ⟨-, hcomment⟩ := Table.find_eq_some.1 hfind
  rw [hpolls.lastDelivered_eq haccepts hfind]
  split
  · rfl
  · next hfresh =>
      by_cases hlower : s.polling.currentWindow.lower < row.modified
      · -- read and not fresh: the last poll saw this version
        have hread : row ∈ rows :=
          (hpolls.read row).2 ⟨(congrArg s.comments.find hcomment).trans hfind, hlower⟩
        exact h.handled row hcomment hlower fun hzero => hfresh (hpolls.mem_fresh.2 ⟨hread, hzero⟩)
      · exact h.settled row hfind hstart (not_lt.1 hlower)

theorem Follows.poll
    (haccepts : config.accepts comment.1 = true)
    (hpolls : Polls overlapMs s cycle s' rows) (hlower : start ≤ s.polling.currentWindow.lower) :
    Follows config start comment (es ++ [.poll cycle]) s' where
  lower_left := .inr ⟨cycle, by simp, congrArg PollWindow.lower hpolls.window.symm⟩
  handled row hcomment habove hhandled := by
    rw [hpolls.window] at habove hhandled
    have hread := (hpolls.read row).1 ((hpolls.handled_iff habove).1 hhandled)
    rw [hcomment] at hread
    exact h.delivered haccepts hpolls hread.1 (hlower.trans_lt hread.2)
  settled row hfind hstart _ := by
    rw [hpolls.comments] at hfind
    exact h.delivered haccepts hpolls hfind hstart

theorem Follows.change
    (hs : s.Step overlapMs (.change row) s')
    (htimely : row.comment = comment → start < row.modified → ∀ cycle, .poll cycle ∈ es →
    cycle.next.lower < row.modified) :
    Follows config start comment (es ++ [.change row]) s' := by
  obtain ⟨table, htable, rfl⟩ := hs
  refine ⟨h.lower_left.imp_right ?_, fun r hr hlower hhandled => ?_, fun r hr hstart hle => ?_⟩
  · rintro ⟨cycle, hcycle, hlower⟩
    exact ⟨cycle, mem_append_left _ hcycle, hlower⟩
  · rw [lastDelivered_change]
    exact h.handled r hr hlower hhandled
  · rw [lastDelivered_change]
    rw [find_change htable] at hr
    split at hr
    · next hcomment =>
        -- the row just committed is above the lower bound the last poll left
        cases hr
        rcases h.lower_left with hlower | ⟨cycle, hcycle, hlower⟩
        · exact absurd (hle.trans hlower.le) (not_le.2 hstart)
        · exact absurd (hle.trans hlower.ge) (not_le.2 (htimely hcomment.symm hstart cycle hcycle))
    · exact h.settled r hr hstart hle

end

/-! ## Every run -/

theorem ChangesBefore.of_append {bound : ModerationCycle → ℤ} {es' : List ModerationEvent}
    (h : ChangesBefore bound start comment (es ++ es')) : ChangesBefore bound start comment es := by
  rintro es₁ row es₂ rfl
  exact h es₁ row (es₂ ++ es') (by simp)

/-- Neither the watermark nor the lower bound ever moves down. -/
theorem ModerationState.neverDecreases (s : ModerationState) : NeverDecreases overlapMs s := by
  intro e s' h
  cases e with
  | change row =>
    obtain ⟨table, -, rfl⟩ := h
    exact ⟨le_rfl, le_rfl⟩
  | poll cycle =>
    obtain ⟨polling, hpoll, rfl⟩ := h
    obtain ⟨hwatermark, hlower⟩ := step_monotone hpoll
    refine ⟨hwatermark, hlower.trans_eq ?_⟩
    obtain ⟨rows, -, -, rfl⟩ := hpoll
    rfl

theorem run_start_le_lower {table : Table CommentRow}
    (h : Run (ModerationState.Step overlapMs) (.init table start) es s) :
    start ≤ s.polling.currentWindow.lower :=
  h.keeps (fun s => start ≤ s.polling.currentWindow.lower) le_rfl fun s e s' hi hs =>
    hi.trans (s.neverDecreases e s' hs).2

/-- A run in which the changes of a comment commit in time keeps the window true to it. -/
theorem run_follows (haccepts : config.accepts comment.1 = true) {table : Table CommentRow}
    (h : Run (ModerationState.Step overlapMs) (.init table start) es s)
    (htimely : ChangesBefore (fun cycle => cycle.next.lower) start comment es) :
    Follows config start comment es s := by
  induction h with
  | nil => exact Follows.init config start comment table
  | @snoc es s e s' hrun hs ih =>
    have ih := ih htimely.of_append
    cases e with
    | change row => exact ih.change hs (htimely es row [] rfl)
    | poll cycle =>
      obtain ⟨rows, hpolls⟩ := hs.polls
      exact ih.poll haccepts hpolls (run_start_le_lower hrun)

/-- Changes alone leave the window as it is. -/
theorem run_changes_window (h : Run (ModerationState.Step overlapMs) s es s')
    (hchanges : ∀ e ∈ es, ∃ row, e = .change row) :
    s'.polling.currentWindow = s.polling.currentWindow := by
  induction h with
  | nil => rfl
  | @snoc es s e s' _ hs ih =>
    obtain ⟨row, rfl⟩ := hchanges e (by simp)
    obtain ⟨table, -, rfl⟩ := hs
    exact ih fun e he => hchanges e (mem_append_left _ he)

/-- What a poll delivers of a comment is at most the row that stands. -/
theorem Polls.length_delivered (config : ServiceConfig) (h : Polls overlapMs s cycle s' rows)
    (hfind : s.comments.find comment = some row) :
    (ofComment comment (ModerationCycle.delivered config cycle)).length ≤
      if row ∈ cycle.fresh then 1 else 0 := by
  rw [ofComment_delivered]
  split
  · split
    · next hfresh =>
        obtain ⟨-, rfl⟩ := Table.find_eq_some.1 hfind
        exact (congrArg List.length (h.ofComment_of_fresh hfresh)).le
    · next hfresh => exact (congrArg List.length (h.ofComment_of_not_fresh hfind hfresh)).le
  · exact Nat.zero_le _

/-- A version that one poll read is not fresh in the next. -/
theorem ModerationState.deliversOnce (s : ModerationState) : DeliversOnce config overlapMs s := by
  intro cycle s₁ h₁ changes s₂ hrun hchanges cycle' s₃ h₂ comment row hfind hfind'
  obtain ⟨rows, hpolls⟩ := h₁.polls
  obtain ⟨rows', hpolls'⟩ := h₂.polls
  rw [deliveries_append, deliveries_append, deliveries_poll, deliveries_poll,
    deliveries_changes config hchanges, append_nil, ofComment, filter_append, length_append]
  have hfirst := hpolls.length_delivered config hfind
  have hsecond := hpolls'.length_delivered config hfind'
  have hwindow := (run_changes_window hrun hchanges).trans hpolls.window
  have hnotboth : row ∈ cycle'.fresh → row ∉ cycle.fresh := by
    intro hfresh'
    obtain ⟨hread', hzero⟩ := hpolls'.mem_fresh.1 hfresh'
    have habove := ((hpolls'.read row).1 hread').2
    rw [hwindow] at hzero habove
    -- the first poll read it too, since its lower bound was no higher
    exact fun hfresh => (hpolls.handled_iff habove).2 (hpolls.mem_fresh.1 hfresh).1 hzero
  rw [ofComment] at hfirst hsecond
  by_cases hfresh' : row ∈ cycle'.fresh
  · rw [if_neg (hnotboth hfresh')] at hfirst
    rw [if_pos hfresh'] at hsecond
    omega
  · rw [if_neg hfresh'] at hsecond
    split at hfirst <;> omega

/-- The moderation poll misses no change. -/
theorem moderationPoll_misses_no_change (config : ServiceConfig) {overlapMs start : ℤ}
    {table : Table CommentRow} {es : List ModerationEvent} {s : ModerationState}
    (hrun : Run (ModerationState.Step overlapMs) (.init table start) es s) :
    Delivers config overlapMs start es s ∧ DeliversOnce config overlapMs s ∧
      NeverDecreases overlapMs s := by
  refine ⟨fun cycle s' hs comment row hfind hstart haccepts htimely => ?_, s.deliversOnce,
    s.neverDecreases⟩
  obtain ⟨rows, hpolls⟩ := hs.polls
  obtain ⟨-, rfl⟩ := Table.find_eq_some.1 hfind
  exact (run_follows haccepts hrun htimely).delivered haccepts hpolls hfind hstart

private def sampleConfig : ServiceConfig := ⟨60000, 3, false, fun _ => true⟩

private def sampleRow (tid modified : ℤ) : CommentRow := ⟨1, tid, modified, .int 1, false⟩

private def sampleTable (rows : List CommentRow) (h : (rows.map CommentRow.comment).Nodup) :
    Table CommentRow :=
  ⟨rows, h, by simp [Row.unique], fun _ _ => trivial⟩

private def earlyTable : Table CommentRow := sampleTable [sampleRow 1 100000] (by decide)

private def lateTable (modified : ℤ) : Table CommentRow :=
  sampleTable [sampleRow 1 100000, sampleRow 2 modified] (by simp [CommentRow.comment, sampleRow])

private def earlyState : ModerationState := .init earlyTable 0

private def earlyCycle : ModerationCycle :=
  earlyState.polling.cycle moderationKind defaultModerationOverlapMs [sampleRow 1 100000]

private def lateState (modified : ℤ) : ModerationState :=
  ⟨lateTable modified, earlyCycle.next.watermark, some earlyCycle.next⟩

/-- A comment is polled, then an earlier-stamped one commits. -/
private def lateChange (modified : ℤ) : List ModerationEvent :=
  [.change (sampleRow 1 100000), .poll earlyCycle, .change (sampleRow 2 modified)]

private theorem run_lateChange (modified : ℤ) :
    Run (ModerationState.Step defaultModerationOverlapMs) (.init Table.empty 0) (lateChange modified)
      (lateState modified) := by
  have h₁ : Run (ModerationState.Step defaultModerationOverlapMs) (.init Table.empty 0)
      [.change (sampleRow 1 100000)] earlyState := .snoc .nil ⟨earlyTable, rfl, rfl⟩
  have h₂ : Run (ModerationState.Step defaultModerationOverlapMs) (.init Table.empty 0)
      [.change (sampleRow 1 100000), .poll earlyCycle]
        ⟨earlyTable, earlyCycle.next.watermark, some earlyCycle.next⟩ :=
    .snoc h₁ ⟨_, ⟨[sampleRow 1 100000], .of_eq (by decide), rfl, rfl⟩, rfl⟩
  exact .snoc h₂ ⟨lateTable modified, rfl, rfl⟩

private def lateCycle (modified : ℤ) (rows : List CommentRow) : ModerationCycle :=
  (lateState modified).polling.cycle moderationKind defaultModerationOverlapMs rows

private theorem changesBefore_lateChange {bound : ModerationCycle → ℤ} {modified : ℤ}
    (h : bound earlyCycle < modified) (comment : ℤ × ℤ) :
    ChangesBefore bound 0 comment (lateChange modified) := by
  intro es₁ row es₂ hes hcomment hstart cycle hcycle
  rcases es₁ with _ | ⟨e₁, _ | ⟨e₂, _ | ⟨e₃, es₁⟩⟩⟩
  · simp at hcycle
  · simp [lateChange] at hes
  · simp only [lateChange, cons_append, nil_append, List.cons.injEq,
      ModerationEvent.change.injEq] at hes
    obtain ⟨rfl, rfl, rfl, -⟩ := hes
    obtain rfl : cycle = earlyCycle := by simpa using hcycle
    exact h
  · simp [lateChange] at hes

/-- A comment that commits above the lower bound left by the poll before is delivered. -/
theorem lateChange_delivered : lastDelivered sampleConfig (1, 2)
    (lateChange 70000 ++ [.poll (lateCycle 70000 [sampleRow 1 100000, sampleRow 2 70000])]) =
      some (sampleRow 2 70000) :=
  (moderationPoll_misses_no_change sampleConfig (run_lateChange 70000)).1
    (lateCycle 70000 [sampleRow 1 100000, sampleRow 2 70000]) _
    ⟨_, ⟨[sampleRow 1 100000, sampleRow 2 70000], .of_eq (by decide), rfl, rfl⟩, rfl⟩ (1, 2)
    (sampleRow 2 70000) (by decide) (by decide) rfl (changesBefore_lateChange (by decide) (1, 2))

/-- A comment commits before the first poll whose own lower bound has reached its stamp, but after the
last poll that reads below it, and no poll delivers it. -/
theorem moderationPoll_misses_late_change :
    ∃ s s' cycle row, Run (ModerationState.Step defaultModerationOverlapMs) (.init Table.empty 0)
        (lateChange 30000) s ∧
      s.Step defaultModerationOverlapMs (.poll cycle) s' ∧
      (∀ comment, ChangesBefore (fun cycle => cycle.window.lower) 0 comment (lateChange 30000)) ∧
      s.comments.find row.comment = some row ∧ (0 : ℤ) < row.modified ∧
      sampleConfig.accepts row.zid = true ∧
      lastDelivered sampleConfig row.comment (lateChange 30000 ++ [.poll cycle]) = none :=
  ⟨_, _, lateCycle 30000 [sampleRow 1 100000], sampleRow 2 30000, run_lateChange 30000,
    ⟨_, ⟨[sampleRow 1 100000], .of_eq (by decide), rfl, rfl⟩, rfl⟩,
    changesBefore_lateChange (by decide), by decide, by decide, rfl, by decide⟩

end Polis.Poller
