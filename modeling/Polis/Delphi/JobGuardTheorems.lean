import Polis.Delphi.JobGuard

/-!
# A job that is not live has no work left

A root that was terminal before a scan started gets no checker any more, so that the scan meets every checker
there is, and one that it meets terminal stays so. When a job is reported as not live, its row was read as
settled at a moment at which all its checkers were terminal.
-/

namespace Polis.Delphi.JobGuard

open Reading List

variable {q q' : Queue} {j : String} {r : JobRow} {c : Change} {pos : String → ℤ}

/-! ## What others write -/

theorem normalised_of_isTerminal (h : r.normalised.isTerminal = true) : r.normalised = r := by
  unfold JobRow.normalised at h ⊢
  split
  · next hno =>
      rw [if_pos hno] at h
      exact absurd h (by simp [JobRow.isTerminal])
  · rfl

/-- The id was used, and its row is terminal if it is still there. -/
structure Finished (q : Queue) (j : String) : Prop where
  ne : j ≠ ""
  used : ∃ u ∈ q.used, u.1 = j
  terminal : ∀ r ∈ q.rows, r.job_id = j → r.isTerminal = true

theorem change_create (h : q.change (.create r) = some q') :
    r.job_id ≠ "" ∧ (∀ u ∈ q.used, u.1 ≠ r.job_id) ∧ (∀ p ∈ r.batch_job_id, p ≠ "" → ∃ root ∈ q.rows,
      root.job_id = p ∧ root.isTerminal = false ∧ root.conversation_id = r.conversation_id) ∧
      q' = ⟨q.rows ++ [r], (r.job_id, r.conversation_id) :: q.used⟩ := by
  simp only [Queue.change] at h
  split at h
  · next hguard =>
      cases h
      exact ⟨hguard.1, hguard.2.1, hguard.2.2, rfl⟩
  · cases h

theorem change_write (h : q.change (.write r) = some q') : ∃ old ∈ q.rows, old.job_id = r.job_id ∧
    r.batch_job_id = old.batch_job_id ∧ r.conversation_id = old.conversation_id ∧
      (old.isTerminal = true → r.isTerminal = true) ∧
      q' = { q with rows := q.rows.map fun old => if old.job_id = r.job_id then r else old } := by
  simp only [Queue.change] at h
  split at h
  · next old hold =>
      split at h
      · next hguard =>
          cases h
          have hid : old.job_id = r.job_id := by simpa using find?_some hold
          exact ⟨old, mem_of_find?_eq_some hold, hid, hguard.1, hguard.2.1, hguard.2.2, rfl⟩
      · cases h
  · cases h

/-- What a change makes of a row: it is new, or it comes from a row of the same id and lineage. -/
theorem change_mem (h : q.change c = some q') {a : JobRow} (ha : a ∈ q'.rows) :
    c = .create a ∨ ∃ old ∈ q.rows, old.job_id = a.job_id ∧ a.batch_job_id = old.batch_job_id ∧
      a.conversation_id = old.conversation_id ∧ (old.isTerminal = true → a.isTerminal = true) := by
  cases c with
  | create r =>
    obtain ⟨-, -, -, rfl⟩ := change_create h
    rcases mem_append.1 ha with ha | ha
    · exact .inr ⟨a, ha, rfl, rfl, rfl, id⟩
    · rw [mem_singleton.1 ha]
      exact .inl rfl
  | write r =>
    obtain ⟨old, hold, hid, hbatch, hconv, hterminal, rfl⟩ := change_write h
    obtain ⟨b, hb, rfl⟩ := mem_map.1 ha
    by_cases hsame : b.job_id = r.job_id
    · rw [if_pos hsame]
      exact .inr ⟨old, hold, hid, hbatch, hconv, hterminal⟩
    · rw [if_neg hsame]
      exact .inr ⟨b, hb, rfl, rfl, rfl, id⟩
  | remove jobId =>
    cases h
    exact .inr ⟨a, (mem_filter.1 ha).1, rfl, rfl, rfl, id⟩

/-- Ids stay used. -/
theorem change_used (h : q.change c = some q') {u : String × Option String} (hu : u ∈ q.used) : u ∈ q'.used := by
  cases c with
  | create r =>
    obtain ⟨-, -, -, rfl⟩ := change_create h
    exact mem_cons_of_mem _ hu
  | write r =>
    obtain ⟨_, _, _, _, _, _, rfl⟩ := change_write h
    exact hu
  | remove jobId =>
    cases h
    exact hu

/-- A row that is terminal came from one that was, unless it is new. -/
theorem Finished.change (h : Finished q j) (hc : q.change c = some q') : Finished q' j := by
  obtain ⟨u, hu, hj⟩ := h.used
  refine ⟨h.ne, ⟨u, change_used hc hu, hj⟩, fun a ha haj => ?_⟩
  rcases change_mem hc ha with rfl | ⟨old, hold, hid, -, -, hterminal⟩
  · obtain ⟨-, hfresh, -, -⟩ := change_create hc
    exact absurd (hj.trans haj.symm) (hfresh u hu)
  · exact hterminal (h.terminal old hold (hid.trans haj))

/-- A finished job gets no checker. -/
theorem Finished.no_checker (h : Finished q j) (hc : q.change (.create r) = some q') : ¬ r.isCheckerOf j := by
  intro hr
  obtain ⟨-, -, hroot, -⟩ := change_create hc
  obtain ⟨root, hmem, hid, hlive, -⟩ := hroot j hr h.ne
  exact absurd (h.terminal root hmem hid) (by simp [hlive])

/-- The checkers of the job in these places are terminal. -/
def Clear (q : Queue) (j : String) (D : String → Prop) : Prop :=
  ∀ a ∈ q.rows, a.isCheckerOf j → D a.job_id → a.isTerminal = true

/-- Checkers of a finished job that are terminal stay so, and no other comes. -/
theorem Clear.change {D : String → Prop} (hd : Clear q j D) (h : Finished q j) (hc : q.change c = some q') :
    Clear q' j D := by
  intro a ha hchecker haD
  rcases change_mem hc ha with rfl | ⟨old, hold, hid, hbatch, -, hterminal⟩
  · exact absurd hchecker (h.no_checker hc)
  · refine hterminal (hd old hold ?_ ?_)
    · exact hbatch.symm.trans hchecker
    · rwa [hid]

theorem Queue.WellFormed.change (h : q.WellFormed) (hc : q.change c = some q') : q'.WellFormed := by
  refine ⟨?_, fun a ha => ?_, ?_, fun a ha k hchecker hk => ?_⟩
  · cases c with
    | create r =>
      obtain ⟨-, hfresh, -, rfl⟩ := change_create hc
      intro a ha b hb hab
      rcases mem_append.1 ha with ha | ha <;> rcases mem_append.1 hb with hb | hb
      · exact h.keyed a ha b hb hab
      · rw [mem_singleton.1 hb] at hab
        exact absurd hab (hfresh _ (h.named a ha).2)
      · rw [mem_singleton.1 ha] at hab
        exact absurd hab.symm (hfresh _ (h.named b hb).2)
      · rw [mem_singleton.1 ha, mem_singleton.1 hb]
    | write r =>
      obtain ⟨_, _, _, _, _, _, rfl⟩ := change_write hc
      intro a ha b hb hab
      obtain ⟨a, ha', rfl⟩ := mem_map.1 ha
      obtain ⟨b, hb', rfl⟩ := mem_map.1 hb
      have hkey : ∀ old : JobRow, (if old.job_id = r.job_id then r else old).job_id = old.job_id := by
        intro old
        split
        · next hid => exact hid.symm
        · rfl
      rw [hkey, hkey] at hab
      rw [h.keyed a ha' b hb' hab]
    | remove jobId =>
      cases hc
      exact fun a ha b hb => h.keyed a (mem_filter.1 ha).1 b (mem_filter.1 hb).1
  · rcases change_mem hc ha with rfl | ⟨old, hold, hid, -, hconv, -⟩
    · obtain ⟨hne, -, -, rfl⟩ := change_create hc
      exact ⟨hne, mem_cons_self⟩
    · obtain ⟨hne, hused⟩ := h.named old hold
      rw [← hid, hconv]
      exact ⟨hne, change_used hc hused⟩
  · cases c with
    | create r =>
      obtain ⟨-, hfresh, -, rfl⟩ := change_create hc
      intro u hu v hv huv
      rcases mem_cons.1 hu with rfl | hu
      · rcases mem_cons.1 hv with rfl | hv
        · rfl
        · exact absurd huv.symm (hfresh v hv)
      · rcases mem_cons.1 hv with rfl | hv
        · exact absurd huv (hfresh u hu)
        · exact h.single u hu v hv huv
    | write r =>
      obtain ⟨_, _, _, _, _, _, rfl⟩ := change_write hc
      exact h.single
    | remove jobId =>
      cases hc
      exact h.single
  · rcases change_mem hc ha with rfl | ⟨old, hold, -, hbatch, hconv, -⟩
    · obtain ⟨-, -, hroot, rfl⟩ := change_create hc
      obtain ⟨root, hmem, hid, -, hconv⟩ := hroot k hchecker hk
      rw [← hid, ← hconv]
      exact mem_cons_of_mem _ (h.named root hmem).2
    · rw [hconv]
      exact change_used hc (h.lineage old hold k (hbatch.symm.trans hchecker) hk)

/-! ## Settled jobs -/

/-- The row of the job is terminal with a resolved write and no scheduling failure, its checkers are terminal,
and whatever is written from here on, no checker of it is created. -/
structure Settled (j : String) (q : Queue) : Prop where
  row : ∃ r ∈ q.rows, r.job_id = j ∧ r.isTerminal = true ∧ r.terminalWriteIsResolved = true ∧
    r.checker_schedule_failed ≠ some true
  checkers : Clear q j fun _ => True
  never : ∀ cs q', Run (Changes Queue.change) q cs q' → ∀ r, .create r ∈ cs → ¬ r.isCheckerOf j

/-- No checker of a finished job is created in any run. -/
theorem Finished.never (h : Finished q j) {cs : List Change} (hrun : Run (Changes Queue.change) q cs q') :
    ∀ r, .create r ∈ cs → ¬ r.isCheckerOf j := by
  have hall : Finished q' j ∧ ∀ r, .create r ∈ cs → ¬ r.isCheckerOf j := by
    induction hrun with
    | nil => exact ⟨h, fun r hr => (nomatch hr)⟩
    | snoc _ hstep ih =>
      obtain ⟨hfinished, hnever⟩ := ih
      refine ⟨hfinished.change hstep, fun r hr => ?_⟩
      rcases mem_append.1 hr with hr | hr
      · exact hnever r hr
      · cases mem_singleton.1 hr
        exact hfinished.no_checker hstep
  exact hall.2

/-- A row that was found terminal finishes its job. -/
theorem Queue.WellFormed.finished (h : q.WellFormed) (hr : r ∈ q.rows) (hterminal : r.isTerminal = true) :
    Finished q r.job_id := by
  obtain ⟨hne, hused⟩ := h.named r hr
  refine ⟨hne, ⟨_, hused, rfl⟩, fun a ha haj => ?_⟩
  rw [h.keyed a ha r hr haj]
  exact hterminal

/-! ## Pages -/

/-- The keys that a scan has gone past. -/
def before (start : Option ℤ) (key : ℤ) : Prop := ∃ s ∈ start, key ≤ s

/-- The keys that the page goes up to. -/
def upTo (last : Option ℤ) (key : ℤ) : Prop := ∀ l ∈ last, key ≤ l

/-- The rows of a page. -/
def Queue.page (pos : String → ℤ) (q : Queue) (keep : JobRow → Bool) (start last : Option ℤ) : List JobRow :=
  q.rows.filter fun r => keep r && onPage start last (pos r.job_id)

theorem mem_page {keep : JobRow → Bool} {start last : Option ℤ} : r ∈ q.page pos keep start last ↔
    r ∈ q.rows ∧ keep r = true ∧ ¬ before start (pos r.job_id) ∧ upTo last (pos r.job_id) := by
  cases start <;> cases last <;> simp [Queue.page, onPage, before, upTo]

theorem upTo_some {last key : ℤ} : upTo (some last) key ↔ before (some last) key := by
  simp [upTo, before]

variable {what : String} {scan scan' : Scan} {keep : JobRow → Bool} {how : Served} {all : List JobRow}
  {result : SweepResult}

/-- A scan that goes on has the rows of the page, and goes on behind it. -/
theorem resume_more (h : scan.resume what (q.scan pos keep scan.start how) = .more scan') :
    ∃ last, scan'.start = some last ∧ scan'.found = scan.found ++ q.page pos keep scan.start (some last) := by
  cases how with
  | error e =>
    simp only [Queue.scan, Scan.resume] at h
    split at h <;> cases h
  | ok last n =>
    cases last with
    | none => cases h
    | some last =>
      simp only [Queue.scan, Scan.resume] at h
      split at h
      · cases h
      · split at h
        · cases h
        · cases h
          exact ⟨last, rfl, rfl⟩

/-- A scan that ends with rows has those of its last page. -/
theorem resume_ended (h : scan.resume what (q.scan pos keep scan.start how) = .ended result)
    (hrows : Converse.rowsOf result = some all) : all = scan.found ++ q.page pos keep scan.start none := by
  cases how with
  | error e =>
    simp only [Queue.scan, Scan.resume] at h
    split at h
    · cases h
    · cases h
      cases hrows
  | ok last n =>
    cases last with
    | none =>
      simp only [Queue.scan, Scan.resume] at h
      cases h
      split at hrows
      · next hempty =>
          cases hrows
          exact hempty.symm
      · cases hrows
        rfl
    | some last =>
      simp only [Queue.scan, Scan.resume] at h
      split at h
      · cases h
        cases hrows
      · split at h
        · cases h
          cases hrows
        · cases h

/-! ## One job -/

/-- What `assessJobLiveness` knows; `once` holds of the store at some moment of the call. -/
def Assess.Knows (pos : String → ℤ) (j : String) (once : Prop) (q : Queue) : Assess → Prop
  | .reading => True
  | .sweeping row scan => ∀ r ∈ row, r.isTerminal = true →
      Finished q j ∧ (scan.found = [] → Clear q j fun k => before scan.start (pos k))
  | .rereading row => row.isTerminal = true ∧ Finished q j ∧ Clear q j fun _ => True
  | .answered l => l.live = false → once
  | .thrown _ => True

variable {once once' : Prop} {call : Assess} {resume : Queue → Served → Assess} {row : JobRow}

theorem Assess.Knows.mono (h : call.Knows pos j once q) (honce : once → once') : call.Knows pos j once' q := by
  cases call with
  | answered l => exact fun hlive => honce (h hlive)
  | _ => exact h

theorem Assess.Knows.change (h : call.Knows pos j once q) (hc : q.change c = some q') :
    call.Knows pos j once q' := by
  cases call with
  | reading => trivial
  | sweeping row scan =>
    intro r hr hterminal
    obtain ⟨hfinished, hclear⟩ := h r hr hterminal
    exact ⟨hfinished.change hc, fun hfound => (hclear hfound).change hfinished hc⟩
  | rereading row => exact ⟨h.1, h.2.1.change hc, h.2.2.change h.2.1 hc⟩
  | answered l => exact h
  | thrown e => trivial

/-- The row that a read of the job finds. -/
theorem readJob_mem (h : q.readJob j how = .ok (some row)) :
    ∃ r ∈ q.rows, r.job_id = j ∧ row = r.normalised := by
  cases how with
  | error e => cases h
  | ok last n =>
    simp only [Queue.readJob, Except.ok.injEq, Option.map_eq_some_iff] at h
    obtain ⟨r, hr, rfl⟩ := h
    exact ⟨r, mem_of_find?_eq_some hr, by simpa using find?_some hr, rfl⟩

theorem Assess.Knows.afterRoot (hwf : q.WellFormed) :
    (Assess.afterRoot (q.readJob j how)).Knows pos j once q := by
  cases hread : q.readJob j how with
  | error e =>
    simp only [Assess.afterRoot]
    split <;> simp [Assess.Knows]
  | ok row =>
    rintro r rfl hterminal
    obtain ⟨r', hmem, rfl, rfl⟩ := readJob_mem hread
    rw [normalised_of_isTerminal hterminal] at hterminal
    refine ⟨hwf.finished hmem hterminal, fun _ a _ _ hbefore => ?_⟩
    obtain ⟨_, hnone, _⟩ := hbefore
    exact (nomatch hnone)

/-- A checker on an empty page is terminal. -/
theorem Clear.page {start last : Option ℤ} (h : Clear q j fun k => before start (pos k))
    (hpage : q.page pos (isLiveDescendant j) start last = []) : Clear q j fun k => upTo last (pos k) := by
  intro a ha hchecker hlast
  by_cases hstart : before start (pos a.job_id)
  · exact h a ha hchecker hstart
  · by_contra hlive
    have hkeep : isLiveDescendant j a = true := by
      rw [isLiveDescendant, show a.batch_job_id = some j from hchecker, Bool.eq_false_of_not_eq_true hlive]
      simp
    have hmem := mem_page.2 ⟨ha, hkeep, hstart, hlast⟩
    rw [hpage] at hmem
    exact (nomatch hmem)

theorem Assess.Knows.afterPage {row : Option JobRow} (h : (Assess.sweeping row scan).Knows pos j once q) :
    (Assess.afterPage row (scan.resume what (q.scan pos (isLiveDescendant j) scan.start how))).Knows
      pos j once q := by
  cases hres : scan.resume what (q.scan pos (isLiveDescendant j) scan.start how) with
  | thrown e => trivial
  | more scan' =>
    obtain ⟨last, hstart, hfound⟩ := resume_more hres
    intro r hr hterminal
    obtain ⟨hfinished, hclear⟩ := h r hr hterminal
    refine ⟨hfinished, fun hempty => ?_⟩
    obtain ⟨hempty, hpage⟩ := append_eq_nil_iff.1 (hfound.symm.trans hempty)
    simpa only [upTo_some, hstart] using (hclear hempty).page hpage
  | ended result =>
    cases result with
    | found | unknown => simp [Assess.afterPage, Assess.afterSweep, Assess.Knows]
    | none =>
      have hall : [] = scan.found ++ q.page pos (isLiveDescendant j) scan.start none := resume_ended hres rfl
      obtain ⟨hempty, hpage⟩ := append_eq_nil_iff.1 hall.symm
      cases row with
      | none => simp [Assess.afterPage, Assess.afterSweep, Assess.Knows]
      | some row =>
        simp only [Assess.afterPage, Assess.afterSweep]
        split
        · next hterminal =>
            obtain ⟨hfinished, hclear⟩ := h row rfl hterminal
            refine ⟨hterminal, hfinished, fun a ha hchecker _ => ?_⟩
            exact (hclear hempty).page hpage a ha hchecker fun _ hnone => (nomatch hnone)
        · simp [Assess.Knows]

/-- Rows of one anchor are judged alike. -/
theorem isTerminal_of_rowAnchor {a b : JobRow} (h : a.rowAnchor = b.rowAnchor) :
    a.isTerminal = b.isTerminal ∧ a.terminalWriteIsResolved = b.terminalWriteIsResolved ∧
      a.checker_schedule_failed = b.checker_schedule_failed := by
  simp only [JobRow.rowAnchor, Anchor.mk.injEq] at h
  obtain ⟨hstatus, -, -, -, hexit, hfailed⟩ := h
  simp [JobRow.isTerminal, JobRow.terminalWriteIsResolved, hstatus, hexit, hfailed]

/-- Only the second read answers that the job is not live, and then it is settled as it reads. -/
theorem Assess.Knows.afterReread (h : (Assess.rereading row).Knows pos j once q) :
    (Assess.afterReread row (q.readJob j how)).Knows pos j (Settled j q) q := by
  obtain ⟨hterminal, hfinished, hclear⟩ := h
  cases hread : q.readJob j how with
  | error e => simp [Assess.afterReread, Assess.Knows]
  | ok after =>
    simp only [Assess.afterReread]
    split
    · simp [Assess.Knows]
    · next hanchor =>
        split
        · simp [Assess.Knows]
        · next hfailed =>
            split
            · next hresolved =>
                intro _
                obtain ⟨a, rfl, heq⟩ := Option.map_eq_some_iff.1 (not_not.1 hanchor)
                obtain ⟨r, hmem, hid, rfl⟩ := readJob_mem hread
                obtain ⟨hterm, hres, hfail⟩ := isTerminal_of_rowAnchor heq
                have hsame := normalised_of_isTerminal (hterm.trans hterminal)
                rw [hsame] at hterm hres hfail
                refine ⟨⟨r, hmem, hid, hterm.trans hterminal, hres.trans hresolved, ?_⟩, hclear,
                  fun cs q' hrun => hfinished.never hrun⟩
                rwa [hfail]
            · simp [Assess.Knows]

/-- What it knows after a read: the job is settled now, or was at some moment. -/
theorem Assess.Knows.reply (h : call.Knows pos j once q) (hwf : q.WellFormed)
    (hask : Assess.ask pos j call = some resume) : (resume q how).Knows pos j (Settled j q ∨ once) q := by
  cases call with
  | reading =>
    cases hask
    exact Assess.Knows.afterRoot hwf
  | sweeping row scan =>
    cases hask
    exact (h.mono Or.inr).afterPage
  | rereading row =>
    cases hask
    exact h.afterReread.mono Or.inl
  | answered l => cases hask
  | thrown e => cases hask

variable {es : List (Event Change Served)} {s : State Queue Assess}

end Polis.Delphi.JobGuard
