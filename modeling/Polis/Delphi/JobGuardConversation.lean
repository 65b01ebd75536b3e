import Polis.Delphi.JobGuardTheorems

/-!
# Two sweeps of a conversation

The first sweep meets every checker that a finished job has behind the job's own place, and the second one
those before it. At the moment at which the second sweep reads the job, all its checkers were met by one of
the two.
-/

namespace Polis.Delphi.JobGuard

open Reading List Option

variable {q q' : Queue} {j cid : String} {r a : JobRow} {c : Change} {pos : String → ℤ} {all all' : List JobRow}
  {start last : Option ℤ}

/-! ## What a sweep says -/

theorem mem_liveChildParents :
    j ∈ liveChildParents all ↔ j ≠ "" ∧ ∃ r ∈ all, r.isCheckerOf j ∧ r.isTerminal = false := by
  simp only [liveChildParents, mem_filterMap, JobRow.isCheckerOf]
  constructor
  · rintro ⟨r, hr, hj⟩
    split at hj
    · cases hj
    · next hlive =>
        obtain ⟨hbatch, hne⟩ := filter_eq_some_iff.1 hj
        exact ⟨by simpa using hne, r, hr, hbatch, Bool.eq_false_of_not_eq_true hlive⟩
  · rintro ⟨hne, r, hr, hbatch, hlive⟩
    refine ⟨r, hr, ?_⟩
    rw [if_neg (by simp [hlive]), filter_eq_some_iff]
    exact ⟨hbatch, by simpa using hne⟩

theorem liveChildParents_append : liveChildParents (all ++ all') = liveChildParents all ++ liveChildParents all' :=
  filterMap_append

/-- A sweep says of a row that it is not live only if all four of its tests do. -/
theorem isLive_eq_false : isLive all r = false ↔ r.job_id ∉ liveChildParents all ∧ r.isTerminal = true ∧
    r.checker_schedule_failed ≠ some true ∧ r.terminalWriteIsResolved = true := by
  simp [isLive, and_assoc]

theorem rowOf_mem (h : rowOf all j = some r) : r ∈ all ∧ r.job_id = j :=
  ⟨mem_reverse.1 (mem_of_find?_eq_some h), by simpa using find?_some h⟩

theorem liveMap_false (h : (j, false) ∈ liveMap all) : ∃ r, rowOf all j = some r ∧ isLive all r = false := by
  obtain ⟨k, -, hk⟩ := mem_map.1 h
  obtain ⟨rfl, hlive⟩ := Prod.mk.inj hk
  cases hrow : rowOf all k with
  | none => simp [hrow] at hlive
  | some r => exact ⟨r, rfl, by simpa [hrow] using hlive⟩

/-- A job that is reported as not live was so in both sweeps. -/
theorem confirmed_false {first second : List JobRow} (h : (j, false) ∈ confirmed first second) :
    (∃ r, rowOf first j = some r ∧ isLive first r = false) ∧
      ∃ r, rowOf second j = some r ∧ isLive second r = false := by
  rcases mem_append.1 h with h | h
  · obtain ⟨⟨k, live⟩, hmem, hk⟩ := mem_map.1 h
    obtain ⟨rfl, hlive⟩ := Prod.mk.inj hk
    split at hlive
    · next hagreed =>
        cases show live = false from hlive
        obtain ⟨r, hrow, hfalse⟩ := liveMap_false hmem
        refine ⟨?_, r, hrow, hfalse⟩
        simp only [agreed, Bool.and_eq_true, decide_eq_true_eq, hrow, map_some, hfalse] at hagreed
        obtain ⟨r', hrow', hfalse'⟩ := map_eq_some_iff.1 hagreed.1
        exact ⟨r', hrow', hfalse'⟩
    · cases hlive
  · obtain ⟨_, _, hk⟩ := mem_map.1 h
    cases (Prod.mk.inj hk).2

/-! ## Sweeps of the conversation -/

/-- A job of the conversation that a sweep met as terminal. -/
structure Met (cid : String) (q : Queue) (j : String) : Prop where
  finished : Finished q j
  used : (j, some cid) ∈ q.used

theorem Met.change (h : Met cid q j) (hc : q.change c = some q') : Met cid q' j :=
  ⟨h.finished.change hc, change_used hc h.used⟩

/-- A checker is in the conversation of its root. -/
theorem Met.isInConversation (h : Met cid q j) (hwf : q.WellFormed) (ha : a ∈ q.rows) (hchecker : a.isCheckerOf j) :
    Converse.isInConversation cid a = true := by
  have hsame := hwf.single _ h.used _ (hwf.lineage a ha j hchecker h.finished.ne) rfl
  exact decide_eq_true (Prod.mk.inj hsame).2.symm

/-- What a page adds to the checkers that were met, if it has none that is live. -/
theorem Clear.pageOf (h : Met cid q j) (hwf : q.WellFormed) {E : String → Prop}
    (hclear : Clear q j fun k => E k ∧ before start (pos k))
    (hpage : j ∉ liveChildParents (q.page pos (Converse.isInConversation cid) start last)) :
    Clear q j fun k => E k ∧ upTo last (pos k) := by
  rintro a ha hchecker ⟨hE, hlast⟩
  by_cases hstart : before start (pos a.job_id)
  · exact hclear a ha hchecker ⟨hE, hstart⟩
  · by_contra hlive
    have hmem := mem_page.2 ⟨ha, h.isInConversation hwf ha hchecker, hstart, hlast⟩
    exact hpage (mem_liveChildParents.2 ⟨h.finished.ne, a, hmem, hchecker, Bool.eq_false_of_not_eq_true hlive⟩)

/-- The first sweep so far: the checkers behind a job that it met as terminal are terminal. -/
def FirstSweep (pos : String → ℤ) (cid : String) (q : Queue) (found : List JobRow) (D : ℤ → Prop) : Prop :=
  ∀ r ∈ found, r.isTerminal = true → Met cid q r.job_id ∧
    (r.job_id ∉ liveChildParents found → Clear q r.job_id fun k => pos r.job_id ≤ pos k ∧ D (pos k))

/-- The second sweep so far: of a job that the first one met as terminal and childless, it has met the checkers
in the places it went through, and if it met the job the same way, the job was settled at that moment. -/
def SecondSweep (pos : String → ℤ) (cid : String) (once : String → Prop) (q : Queue) (first found : List JobRow)
    (D : ℤ → Prop) : Prop :=
  ∀ r ∈ first, r.isTerminal = true → r.job_id ∉ liveChildParents first →
    Met cid q r.job_id ∧ (Clear q r.job_id fun k => pos r.job_id ≤ pos k) ∧
      (r.job_id ∉ liveChildParents found → (Clear q r.job_id fun k => D (pos k)) ∧
        ∀ r' ∈ found, r'.job_id = r.job_id → r'.isTerminal = true → r'.terminalWriteIsResolved = true →
          r'.checker_schedule_failed ≠ some true → once r.job_id)

variable {D : ℤ → Prop} {once once' : String → Prop} {first found : List JobRow}

theorem FirstSweep.change (h : FirstSweep pos cid q found D) (hc : q.change c = some q') :
    FirstSweep pos cid q' found D := by
  intro r hr hterminal
  obtain ⟨hmet, hclear⟩ := h r hr hterminal
  exact ⟨hmet.change hc, fun hno => (hclear hno).change hmet.finished hc⟩

theorem SecondSweep.change (h : SecondSweep pos cid once q first found D) (hc : q.change c = some q') :
    SecondSweep pos cid once q' first found D := by
  intro r hr hterminal hno
  obtain ⟨hmet, hlate, hsecond⟩ := h r hr hterminal hno
  refine ⟨hmet.change hc, hlate.change hmet.finished hc, fun hnot => ?_⟩
  obtain ⟨hclear, honce⟩ := hsecond hnot
  exact ⟨hclear.change hmet.finished hc, honce⟩

theorem SecondSweep.mono (h : SecondSweep pos cid once q first found D) (honce : ∀ j, once j → once' j) :
    SecondSweep pos cid once' q first found D := by
  intro r hr hterminal hno
  obtain ⟨hmet, hlate, hsecond⟩ := h r hr hterminal hno
  refine ⟨hmet, hlate, fun hnot => ⟨(hsecond hnot).1, fun r' hr' hid hterm hres hfail => ?_⟩⟩
  exact honce _ ((hsecond hnot).2 r' hr' hid hterm hres hfail)

theorem FirstSweep.page (last : Option ℤ) (hwf : q.WellFormed) (h : FirstSweep pos cid q found (before start)) :
    FirstSweep pos cid q (found ++ q.page pos (Converse.isInConversation cid) start last) (upTo last) := by
  intro r hr hterminal
  rw [liveChildParents_append, mem_append, not_or]
  rcases mem_append.1 hr with hr | hr
  · obtain ⟨hmet, hclear⟩ := h r hr hterminal
    exact ⟨hmet, fun hno => Clear.pageOf hmet hwf (hclear hno.1) hno.2⟩
  · obtain ⟨hmem, hconv, hstart, -⟩ := mem_page.1 hr
    have hmet : Met cid q r.job_id := by
      refine ⟨hwf.finished hmem hterminal, ?_⟩
      rw [← of_decide_eq_true hconv]
      exact (hwf.named r hmem).2
    refine ⟨hmet, fun hno => Clear.pageOf hmet hwf (fun a _ _ hbehind => ?_) hno.2⟩
    -- What is behind the row was not read before it.
    obtain ⟨hle, s, hs, hbefore⟩ := hbehind
    exact absurd ⟨s, hs, hle.trans hbefore⟩ hstart

/-- After the first sweep nothing is read of the second one. -/
theorem FirstSweep.second (h : FirstSweep pos cid q all (upTo none)) :
    SecondSweep pos cid once q all [] (before none) := by
  intro r hr hterminal hno
  obtain ⟨hmet, hclear⟩ := h r hr hterminal
  refine ⟨hmet, fun a ha hchecker hle => ?_, fun _ => ⟨fun a _ _ hbefore => ?_, fun r' hr' => (nomatch hr')⟩⟩
  · exact hclear hno a ha hchecker ⟨hle, fun _ hnone => (nomatch hnone)⟩
  · obtain ⟨_, hnone, _⟩ := hbefore
    exact (nomatch hnone)

/-- The page on which the second sweep meets the job is the moment at which the job is settled. -/
theorem SecondSweep.page (last : Option ℤ) (hwf : q.WellFormed)
    (h : SecondSweep pos cid once q first found (before start)) :
    SecondSweep pos cid (fun j => Settled j q ∨ once j) q first
      (found ++ q.page pos (Converse.isInConversation cid) start last) (upTo last) := by
  intro r hr hterminal hno
  obtain ⟨hmet, hlate, hsecond⟩ := h r hr hterminal hno
  refine ⟨hmet, hlate, fun hnot => ?_⟩
  rw [liveChildParents_append, mem_append, not_or] at hnot
  obtain ⟨hclear, honce⟩ := hsecond hnot.1
  have hpage : Clear q r.job_id fun k => upTo last (pos k) := by
    intro a ha hchecker hlast
    exact Clear.pageOf (E := fun _ => True) hmet hwf (fun a ha hchecker hbefore => hclear a ha hchecker hbefore.2)
      hnot.2 a ha hchecker ⟨trivial, hlast⟩
  refine ⟨hpage, fun r' hr' hid hterm hres hfail => ?_⟩
  rcases mem_append.1 hr' with hr' | hr'
  · exact .inr (honce r' hr' hid hterm hres hfail)
  · obtain ⟨hmem, -, -, hlast⟩ := mem_page.1 hr'
    refine .inl ⟨⟨r', hmem, hid, hterm, hres, hfail⟩, fun a ha hchecker _ => ?_, fun cs q' hrun =>
      hmet.finished.never hrun⟩
    by_cases hupTo : upTo last (pos a.job_id)
    · exact hpage a ha hchecker hupTo
    · refine hlate a ha hchecker ?_
      simp only [upTo, not_forall, not_le] at hupTo
      obtain ⟨l, hl, hlt⟩ := hupTo
      rw [← hid]
      exact (hlast l hl).trans hlt.le

/-! ## The answer -/

/-- What `assessConversationLiveness` knows; `once` holds of a job at some moment of the call. -/
def Converse.Knows (pos : String → ℤ) (cid : String) (once : String → Prop) (q : Queue) : Converse → Prop
  | .first scan => FirstSweep pos cid q scan.found (before scan.start)
  | .second rows scan => SecondSweep pos cid once q rows scan.found (before scan.start)
  | .answered _ live _ => ∀ j, (j, false) ∈ live → once j
  | .thrown _ => True

variable {call : Converse} {resume : Queue → Served → Converse} {how : Served} {scan : Scan} {what : String}

theorem Converse.Knows.mono (h : call.Knows pos cid once q) (honce : ∀ j, once j → once' j) :
    call.Knows pos cid once' q := by
  cases call with
  | first scan => exact h
  | second rows scan => exact SecondSweep.mono h honce
  | answered complete live rows => exact fun j hj => honce j (h j hj)
  | thrown e => trivial

theorem Converse.Knows.change (h : call.Knows pos cid once q) (hc : q.change c = some q') :
    call.Knows pos cid once q' := by
  cases call with
  | first scan => exact FirstSweep.change h hc
  | second rows scan => exact SecondSweep.change h hc
  | answered complete live rows => exact h
  | thrown e => trivial

theorem Converse.Knows.afterFirst (hwf : q.WellFormed) (h : FirstSweep pos cid q scan.found (before scan.start)) :
    (Converse.afterFirst (scan.resume what (q.scan pos (Converse.isInConversation cid) scan.start how))).Knows
      pos cid once q := by
  cases hres : scan.resume what (q.scan pos (Converse.isInConversation cid) scan.start how) with
  | thrown e => trivial
  | more scan' =>
    obtain ⟨last, hstart, hfound⟩ := resume_more hres
    have hpage := FirstSweep.page (some last) hwf h
    simp only [Converse.afterFirst, Converse.Knows, hstart, hfound]
    exact fun r hr hterminal => by simpa only [upTo_some] using hpage r hr hterminal
  | ended result =>
    simp only [Converse.afterFirst]
    cases hrows : Converse.rowsOf result with
    | none => exact fun j hj => (nomatch hj)
    | some all =>
      dsimp only
      split
      · have hpage := FirstSweep.page none hwf h
        rw [← resume_ended hres hrows] at hpage
        exact hpage.second
      · next hall =>
          intro j hj
          exact absurd (any_eq_true.2 ⟨_, hj, rfl⟩) hall

theorem Converse.Knows.afterSecond (hwf : q.WellFormed)
    (h : SecondSweep pos cid once q first scan.found (before scan.start)) :
    (Converse.afterSecond first (scan.resume what (q.scan pos (Converse.isInConversation cid) scan.start how))).Knows
      pos cid (fun j => Settled j q ∨ once j) q := by
  cases hres : scan.resume what (q.scan pos (Converse.isInConversation cid) scan.start how) with
  | thrown e => trivial
  | more scan' =>
    obtain ⟨last, hstart, hfound⟩ := resume_more hres
    have hpage := SecondSweep.page (some last) hwf h
    simp only [Converse.afterSecond, Converse.Knows, hstart, hfound]
    exact fun r hr hterminal => by simpa only [upTo_some] using hpage r hr hterminal
  | ended result =>
    simp only [Converse.afterSecond]
    cases hrows : Converse.rowsOf result with
    | none => exact fun j hj => (nomatch hj)
    | some all =>
      have hpage := SecondSweep.page none hwf h
      rw [← resume_ended hres hrows] at hpage
      intro j hj
      obtain ⟨⟨r, hrow, hfalse⟩, r', hrow', hfalse'⟩ := confirmed_false hj
      obtain ⟨hr, rfl⟩ := rowOf_mem hrow
      obtain ⟨hr', hid⟩ := rowOf_mem hrow'
      obtain ⟨hno, hterminal, -, -⟩ := isLive_eq_false.1 hfalse
      obtain ⟨hno', hterminal', hfail, hres⟩ := isLive_eq_false.1 hfalse'
      rw [hid] at hno'
      obtain ⟨-, -, hsecond⟩ := hpage r hr hterminal hno
      exact (hsecond hno').2 r' hr' hid hterminal' hres hfail

theorem Converse.Knows.reply (h : call.Knows pos cid once q) (hwf : q.WellFormed)
    (hask : Converse.ask pos cid call = some resume) :
    (resume q how).Knows pos cid (fun j => Settled j q ∨ once j) q := by
  cases call with
  | first scan =>
    cases hask
    exact Converse.Knows.afterFirst hwf h
  | second rows scan =>
    cases hask
    exact Converse.Knows.afterSecond hwf h
  | answered | thrown => cases hask

variable {es : List (Event Change Served)} {s : State Queue Converse}

/-- The answer of a call that has one. -/
private def Assess.answer : Assess → Option Liveness
  | .answered l => some l
  | _ => none

end Polis.Delphi.JobGuard
