import Polis.Coordinator.Sweep

/-!
# A healthy sweep has seen everything

While all goes well under one scope, the pages of a sweep have visited each conversation up to the cursor, in
order and once. The cursor carries that from one pass to the next, and a page that is not full has nothing
after it.
-/

namespace Polis.Coordinator.Sweep

open List Function Option

variable {digest : ℤ → List ℤ → String} {s s' : State} {i : ℤ × ℤ} {c : Config} {pages : List Page}
  {visits : List Visit} {standing : List ℤ} {scope : String} {cursor started z : ℤ}

/-! ## What the pages cover -/

/-- The visits of the pages. -/
def visitsOf (pages : List Page) : List Visit := pages.flatMap (·.visits)

@[simp] theorem visitsOf_concat : visitsOf (pages ++ [⟨c, visits⟩]) = visitsOf pages ++ visits := by
  simp [visitsOf]

/-- The pages went well under one scope and have visited what stands and is accepted up to the cursor. -/
structure Covered (digest : ℤ → List ℤ → String) (standing : List ℤ) (pages : List Page) (scope : String)
    (cursor : ℤ) : Prop where
  scopes : ∀ p ∈ pages, p.config.poll_scope digest = scope
  ascending : ((visitsOf pages).map (·.zid)).Pairwise (· < ·)
  passed : ∀ v ∈ visitsOf pages, v.zid ≤ cursor
  ok : ∀ v ∈ visitsOf pages, v.outcome = .ok
  whole : ∀ z ∈ standing, z ≤ cursor → (∀ p ∈ pages, p.config.accepts z = true) →
    ∃ v ∈ visitsOf pages, v.zid = z

namespace Covered

/-- Fewer conversations stand. -/
theorem anti {standing' : List ℤ} (h : Covered digest standing pages scope cursor)
    (hsub : ∀ z ∈ standing', z ∈ standing) : Covered digest standing' pages scope cursor :=
  ⟨h.scopes, h.ascending, h.passed, h.ok, fun z hz => h.whole z (hsub z hz)⟩

/-- Before the first page nothing is covered, and all that stands is after the cursor. -/
theorem first (hpositive : ∀ z ∈ standing, 0 < z) : Covered digest standing [] scope 0 where
  scopes _ hp := nomatch hp
  ascending := .nil
  passed _ hv := nomatch hv
  ok _ hv := nomatch hv
  whole z hz hle := absurd hle (not_le_of_gt (hpositive z hz))

/-- A new page has not visited anything yet. -/
theorem newPage (h : Covered digest standing pages (c.poll_scope digest) cursor) :
    Covered digest standing (pages ++ [⟨c, []⟩]) (c.poll_scope digest) cursor := by
  have hvisits : visitsOf (pages ++ [⟨c, []⟩]) = visitsOf pages := by simp
  refine ⟨fun p hp => ?_, by rw [hvisits]; exact h.ascending, by rw [hvisits]; exact h.passed,
    by rw [hvisits]; exact h.ok, fun z hz hle haccepts => ?_⟩
  · rcases mem_append.1 hp with hp | hp
    · exact h.scopes p hp
    · rw [mem_singleton.1 hp]
  · rw [hvisits]
    exact h.whole z hz hle fun p hp => haccepts p (mem_append_left _ hp)

/-- The next accepted conversation is visited. -/
theorem visit (h : Covered digest standing (pages ++ [⟨c, visits⟩]) scope cursor) (hlt : cursor < z)
    (hnext : ∀ w ∈ standing, cursor < w → w ≤ z → w = z) :
    Covered digest standing (pages ++ [⟨c, visits ++ [⟨z, .ok⟩]⟩]) scope z := by
  have hvisits : visitsOf (pages ++ [⟨c, visits ++ [⟨z, .ok⟩]⟩]) =
      visitsOf (pages ++ [⟨c, visits⟩]) ++ [⟨z, .ok⟩] := by simp
  refine ⟨fun p hp => ?_, ?_, fun v hv => ?_, fun v hv => ?_, fun w hw hle haccepts => ?_⟩
  · rcases mem_append.1 hp with hp | hp
    · exact h.scopes p (mem_append_left _ hp)
    · rw [mem_singleton.1 hp]
      exact h.scopes ⟨c, visits⟩ (mem_append_right _ (mem_singleton.2 rfl))
  · rw [hvisits, map_append, pairwise_append]
    refine ⟨h.ascending, pairwise_singleton _ _, fun a ha b hb => ?_⟩
    obtain ⟨v, hv, rfl⟩ := mem_map.1 ha
    rw [map_singleton, mem_singleton] at hb
    rw [hb]
    exact (h.passed v hv).trans_lt hlt
  · rw [hvisits] at hv
    rcases mem_append.1 hv with hv | hv
    · exact (h.passed v hv).trans hlt.le
    · rw [mem_singleton.1 hv]
  · rw [hvisits] at hv
    rcases mem_append.1 hv with hv | hv
    · exact h.ok v hv
    · rw [mem_singleton.1 hv]
  · rw [hvisits]
    rcases le_or_gt w cursor with hcursor | hcursor
    · have hbefore : ∀ p ∈ pages ++ [⟨c, visits⟩], p.config.accepts w = true := by
        intro p hp
        rcases mem_append.1 hp with hp | hp
        · exact haccepts p (mem_append_left _ hp)
        · rw [mem_singleton.1 hp]
          exact haccepts ⟨c, visits ++ [⟨z, .ok⟩]⟩ (mem_append_right _ (mem_singleton.2 rfl))
      obtain ⟨v, hv, hzid⟩ := h.whole w hw hcursor hbefore
      exact ⟨v, mem_append_left _ hv, hzid⟩
    · exact ⟨⟨z, .ok⟩, mem_append_right _ (mem_singleton.2 rfl), (hnext w hw hcursor hle).symm⟩

/-- A conversation of another shard is passed over. -/
theorem skip (h : Covered digest standing (pages ++ [⟨c, visits⟩]) scope cursor) (hlt : cursor < z)
    (hnext : ∀ w ∈ standing, cursor < w → w ≤ z → w = z) (haccepts : c.accepts z = false) :
    Covered digest standing (pages ++ [⟨c, visits⟩]) scope z := by
  refine ⟨h.scopes, h.ascending, fun v hv => (h.passed v hv).trans hlt.le, h.ok, fun w hw hle hall => ?_⟩
  rcases le_or_gt w cursor with hcursor | hcursor
  · exact h.whole w hw hcursor hall
  · have hw' := hall ⟨c, visits⟩ (mem_append_right _ (mem_singleton.2 rfl))
    rw [hnext w hw hcursor hle] at hw'
    exact absurd (haccepts.symm.trans hw') (by decide)

end Covered

/-! ## What holds at every moment -/

/-- What the rest of a page leaves out of what stands: nothing after a page that is not full, and what is after
all of it otherwise. -/
def Reaches (standing : List ℤ) (cursor : ℤ) (short : Bool) (left : List ℤ) : Prop :=
  ∀ z ∈ standing, cursor < z → z ∈ left ∨ short = false ∧ ∀ w ∈ left, w < z

/-- What a pass knows of the sweep that its cursor belongs to. -/
def PassHolds (digest : ℤ → List ℤ → String) (h : History) : Pass → Prop
  | .idle | .completed .. => True
  | .begun c cursor started ok => ok = true →
      started = h.started ∧ Covered digest h.standing h.pages (c.poll_scope digest) cursor
  | .scanning c cursor started ok short left visits => (cursor :: left).Pairwise (· < ·) ∧ (ok = true →
      started = h.started ∧ Covered digest h.standing (h.pages ++ [⟨c, visits⟩]) (c.poll_scope digest) cursor ∧
        Reaches h.standing cursor short left)

/-- What a cursor in the middle of a sweep says. -/
def CursorHolds (digest : ℤ → List ℤ → String) (h : History) (p : Option Position) : Prop :=
  ∀ q d, p = some q → q.zid ≠ 0 → q.d06 = some d → d.healthy = true →
    d.started = h.started ∧ Covered digest h.standing h.pages d.scope q.zid

structure Inv (digest : ℤ → List ℤ → String) (s : State) : Prop where
  positive : ∀ z ∈ s.conversations, 0 < z
  distinct : s.conversations.Nodup
  standing : ∀ i, ∀ z ∈ (s.histories i).standing, z ∈ s.conversations
  cursor : ∀ i, CursorHolds digest (s.histories i) (s.cursors i)
  pass : ∀ i, PassHolds digest (s.histories i) (s.passes i)

theorem inv_start (h : Start s) : Inv digest s where
  positive := h.positive
  distinct := h.distinct
  standing i z hz := by
    rw [h.empty] at hz
    cases hz
  cursor i q d hq _ hd _ := by
    rw [h.unmarked i q hq] at hd
    cases hd
  pass i := by
    rw [h.idle]
    trivial

/-- Fewer conversations stand. -/
theorem PassHolds.anti {h : History} {standing' : List ℤ} {p : Pass} (hp : PassHolds digest h p)
    (hsub : ∀ z ∈ standing', z ∈ h.standing) : PassHolds digest { h with standing := standing' } p := by
  cases p with
  | idle | completed => trivial
  | begun c cursor started ok =>
    intro hok
    obtain ⟨hstarted, hcovered⟩ := hp hok
    exact ⟨hstarted, hcovered.anti hsub⟩
  | scanning c cursor started ok short left visits =>
    refine ⟨hp.1, fun hok => ?_⟩
    obtain ⟨hstarted, hcovered, hreaches⟩ := hp.2 hok
    exact ⟨hstarted, hcovered.anti hsub, fun z hz => hreaches z (hsub z hz)⟩

/-- A pass may stand anywhere where what it knows is so. -/
theorem Inv.setPass (h : Inv digest s) {p : Pass} (hp : PassHolds digest (s.histories i) p) :
    Inv digest (s.setPass i p) := by
  refine ⟨h.positive, h.distinct, h.standing, h.cursor, fun j => ?_⟩
  by_cases hj : j = i
  · subst hj
    simpa [State.setPass] using hp
  · simpa [State.setPass, hj] using h.pass j

/-! ## Steps -/

theorem Inv.remove (h : Inv digest s) (zid : ℤ) : Inv digest { s with
    conversations := s.conversations.filter (· ≠ zid)
    histories := fun i => { s.histories i with standing := (s.histories i).standing.filter (· ≠ zid) } } where
  positive z hz := h.positive z (mem_of_mem_filter hz)
  distinct := h.distinct.filter _
  standing i z hz := by
    obtain ⟨hz, hne⟩ := mem_filter.1 hz
    exact mem_filter.2 ⟨h.standing i z hz, hne⟩
  cursor i q d hq hzid hd hhealthy := by
    obtain ⟨hstarted, hcovered⟩ := h.cursor i q d hq hzid hd hhealthy
    exact ⟨hstarted, hcovered.anti fun z hz => mem_of_mem_filter hz⟩
  pass i := (h.pass i).anti fun z hz => mem_of_mem_filter hz

/-- A sweep starts anew at the first conversation, or goes on from a cursor of the same scope. -/
theorem Inv.begin (h : Inv digest s) (c : Config) : Inv digest (s.begin digest c) := by
  unfold State.begin
  dsimp only
  split
  · next hzero =>
      have hnew : Inv digest { s with
          histories := update s.histories c.shard ⟨s.clock, s.conversations, []⟩
          passes := update s.passes c.shard .idle } := by
        refine ⟨h.positive, h.distinct, fun j z hz => ?_, fun j => ?_, fun j => ?_⟩
        · by_cases hj : j = c.shard
          · subst hj
            simpa using hz
          · exact h.standing j z (by simpa [hj] using hz)
        · by_cases hj : j = c.shard
          · subst hj
            intro q d hq hne
            rw [show s.cursors c.shard = some q from hq] at hzero
            exact absurd hzero hne
          · simpa [hj] using h.cursor j
        · by_cases hj : j = c.shard
          · subst hj
            simp [PassHolds]
          · simpa [hj] using h.pass j
      have hpass := hnew.setPass (i := c.shard) (p := .begun c 0 s.clock true) (by
        intro _
        simpa using Covered.first h.positive)
      simpa [State.setPass] using hpass
  · next hne =>
      refine h.setPass fun hok => ?_
      obtain ⟨d, hd, hmarks⟩ := (any_eq_true _ _).1 hok
      simp only [Bool.and_eq_true, decide_eq_true_eq] at hmarks
      obtain ⟨⟨hscope, hhealthy⟩, -⟩ := hmarks
      cases hcursor : s.cursors c.shard with
      | none => simp [hcursor] at hne
      | some q =>
        rw [hcursor] at hne hd
        have hmark : q.d06 = some d := hd
        obtain ⟨hstarted, hcovered⟩ := h.cursor c.shard q d hcursor hne hmark hhealthy
        simp only [getD_some, hmark, map_some]
        exact ⟨hstarted, hscope ▸ hcovered⟩

/-- The page is in order after the cursor, and leaves out only what is after all of it, if it is full. -/
theorem page_spec (hdistinct : s.conversations.Nodup) (cursor : ℤ) (n : ℕ) :
    (cursor :: s.page cursor n).Pairwise (· < ·) ∧
      ∀ z ∈ s.conversations, cursor < z →
        z ∈ s.page cursor n ∨ ¬(s.page cursor n).length < n ∧ ∀ w ∈ s.page cursor n, w < z := by
  let rows := (s.conversations.filter (cursor < ·)).insertionSort (· ≤ ·)
  have hmem : ∀ z, z ∈ rows ↔ z ∈ s.conversations ∧ cursor < z := by
    intro z
    rw [mem_insertionSort, mem_filter, decide_eq_true_eq]
  have hsorted : rows.Pairwise (· < ·) := by
    have hle : rows.Pairwise (· ≤ ·) := pairwise_insertionSort _ _
    have hnodup : rows.Nodup := (perm_insertionSort _ _).nodup_iff.2 (hdistinct.filter _)
    exact (hle.and hnodup).imp fun h => lt_of_le_of_ne h.1 h.2
  have hpage : s.page cursor n = rows.take n := rfl
  rw [hpage]
  constructor
  · refine pairwise_cons.2 ⟨fun z hz => ((hmem z).1 (mem_of_mem_take hz)).2, hsorted.sublist ?_⟩
    exact take_sublist _ _
  · intro z hz hlt
    have hrow : z ∈ rows := (hmem z).2 ⟨hz, hlt⟩
    rw [← take_append_drop n rows] at hrow hsorted
    rcases mem_append.1 hrow with hin | hout
    · exact .inl hin
    · refine .inr ⟨fun hshort => ?_, fun w hw => (pairwise_append.1 hsorted).2.2 w hw z hout⟩
      have hdrop : rows.drop n = [] := by
        rw [length_take] at hshort
        exact drop_of_length_le (by omega)
      rw [hdrop] at hout
      cases hout

theorem Inv.read (h : Inv digest s) {ok : Bool}
    (hpass : s.passes i = .begun c cursor started ok) :
    Inv digest (s.setPass i (.scanning c cursor started ok
      (decide ((s.page cursor c.page_size).length < c.page_size)) (s.page cursor c.page_size) [])) := by
  obtain ⟨hsorted, hall⟩ := page_spec h.distinct cursor c.page_size
  have hbegun := h.pass i
  rw [hpass] at hbegun
  refine h.setPass ⟨hsorted, fun hok => ?_⟩
  obtain ⟨hstarted, hcovered⟩ := hbegun hok
  refine ⟨hstarted, hcovered.newPage, fun z hz hlt => ?_⟩
  rcases hall z (h.standing i z hz) hlt with hin | ⟨hfull, hafter⟩
  · exact .inl hin
  · exact .inr ⟨decide_eq_false hfull, hafter⟩

/-- Nothing that stands is between the cursor and the next conversation of the page. -/
theorem Reaches.next {short : Bool} {left : List ℤ} (h : Reaches standing cursor short (z :: left))
    (hsorted : (cursor :: z :: left).Pairwise (· < ·)) :
    (∀ w ∈ standing, cursor < w → w ≤ z → w = z) ∧ Reaches standing z short left := by
  obtain ⟨hcursor, hsorted⟩ := pairwise_cons.1 hsorted
  obtain ⟨hleft, -⟩ := pairwise_cons.1 hsorted
  constructor
  · intro w hw hlt hle
    rcases h w hw hlt with hin | ⟨-, hafter⟩
    · rcases mem_cons.1 hin with rfl | hin
      · rfl
      · exact absurd (hleft w hin) (not_lt_of_ge hle)
    · exact absurd (hafter z mem_cons_self) (not_lt_of_ge hle)
  · intro w hw hlt
    rcases h w hw ((hcursor z mem_cons_self).trans hlt) with hin | ⟨hfull, hafter⟩
    · rcases mem_cons.1 hin with rfl | hin
      · exact absurd hlt (lt_irrefl w)
      · exact .inl hin
    · exact .inr ⟨hfull, fun v hv => hafter v (mem_cons_of_mem _ hv)⟩

theorem Inv.visit (h : Inv digest s) {ok short : Bool} {zid : ℤ}
    {left : List ℤ} (outcome : Outcome)
    (hpass : s.passes i = .scanning c cursor started ok short (zid :: left) visits) :
    Inv digest (if c.accepts zid then
        s.setPass i (.scanning c zid started (ok && outcome = .ok) short left (visits ++ [⟨zid, outcome⟩]))
      else s.setPass i (.scanning c zid started ok short left visits)) := by
  have hscan := h.pass i
  rw [hpass] at hscan
  obtain ⟨hsorted, hscan⟩ := hscan
  have hlt : cursor < zid := (pairwise_cons.1 hsorted).1 zid mem_cons_self
  have hrest := (pairwise_cons.1 hsorted).2
  split
  · refine h.setPass ⟨hrest, fun hok => ?_⟩
    simp only [Bool.and_eq_true, decide_eq_true_eq] at hok
    obtain ⟨hok, rfl⟩ := hok
    obtain ⟨hstarted, hcovered, hreaches⟩ := hscan hok
    obtain ⟨hnext, hreaches⟩ := hreaches.next hsorted
    exact ⟨hstarted, hcovered.visit hlt hnext, hreaches⟩
  · next hno =>
      refine h.setPass ⟨hrest, fun hok => ?_⟩
      obtain ⟨hstarted, hcovered, hreaches⟩ := hscan hok
      obtain ⟨hnext, hreaches⟩ := hreaches.next hsorted
      exact ⟨hstarted, hcovered.skip hlt hnext (Bool.eq_false_of_not_eq_true hno), hreaches⟩

/-- The cursor of a full page carries what the pages cover. -/
theorem Inv.persist (h : Inv digest s) {ok : Bool}
    (hpass : s.passes i = .scanning c cursor started ok false [] visits) :
    Inv digest (({ s with
      histories := update s.histories i
        { s.histories i with pages := (s.histories i).pages ++ [Page.mk c visits] } }.write i cursor started ok
          (c.poll_scope digest)).setPass i .idle) := by
  have hscan := h.pass i
  rw [hpass] at hscan
  obtain ⟨-, hscan⟩ := hscan
  refine ⟨h.positive, h.distinct, fun j z hz => ?_, fun j => ?_, fun j => ?_⟩
  · by_cases hj : j = i
    · subst hj
      exact h.standing j z (by simpa [State.write, State.setPass] using hz)
    · exact h.standing j z (by simpa [State.write, State.setPass, hj] using hz)
  · by_cases hj : j = i
    · subst hj
      intro q d hq _ hd hhealthy
      simp only [State.write, State.setPass, update_self, Option.some.injEq] at hq ⊢
      subst hq
      cases hd
      obtain ⟨hstarted, hcovered, -⟩ := hscan hhealthy
      exact ⟨hstarted, hcovered⟩
    · simpa [State.write, State.setPass, hj] using h.cursor j
  · by_cases hj : j = i
    · subst hj
      simp [State.write, State.setPass, PassHolds]
    · simpa [State.write, State.setPass, hj] using h.pass j

/-- After the last page the cursor is at the start again. -/
theorem Inv.finish (h : Inv digest s) (i : ℤ × ℤ) (started : ℤ) (ok : Bool) (scope : String) :
    Inv digest ((s.write i 0 started ok scope).setPass i .idle) := by
  have hwrite : Inv digest ({ s with passes := update s.passes i .idle }.write i 0 started ok scope) := by
    refine ⟨h.positive, h.distinct, h.standing, fun j => ?_, fun j => ?_⟩
    · by_cases hj : j = i
      · subst hj
        intro q d hq hne
        simp only [State.write, update_self, Option.some.injEq] at hq
        subst hq
        exact absurd rfl hne
      · simpa [State.write, hj] using h.cursor j
    · by_cases hj : j = i
      · subst hj
        simp [State.write, PassHolds]
      · simpa [State.write, hj] using h.pass j
  simpa [State.write, State.setPass] using hwrite

/-- Every step keeps what holds. -/
theorem Inv.step {e : Event} (h : Inv digest s) (hstep : Step digest s e s') : Inv digest s' := by
  cases e with
  | tick now =>
    simp only [Step, next] at hstep
    split at hstep
    · cases hstep
      exact ⟨h.positive, h.distinct, h.standing, h.cursor, h.pass⟩
    · cases hstep
  | insert zid =>
    simp only [Step, next] at hstep
    split at hstep
    · next hzid =>
        cases hstep
        refine ⟨fun z hz => ?_, nodup_cons.2 ⟨hzid.2, h.distinct⟩,
          fun j z hz => mem_cons_of_mem _ (h.standing j z hz), h.cursor, h.pass⟩
        rcases mem_cons.1 hz with rfl | hz
        · exact hzid.1
        · exact h.positive z hz
    · cases hstep
  | remove zid =>
    cases hstep
    exact h.remove zid
  | start c =>
    simp only [Step, next] at hstep
    split at hstep
    · cases hstep
      exact h.begin c
    · cases hstep
  | read j =>
    simp only [Step, next] at hstep
    split at hstep
    · next hpass =>
        cases hstep
        exact h.read hpass
    · cases hstep
  | visit j outcome =>
    simp only [Step, next] at hstep
    split at hstep
    · next hpass =>
        have hkeep := h.visit outcome hpass
        split at hstep
        · next haccepts =>
            cases hstep
            rwa [if_pos haccepts] at hkeep
        · next haccepts =>
            cases hstep
            rwa [if_neg haccepts] at hkeep
    · cases hstep
  | complete j =>
    simp only [Step, next] at hstep
    split at hstep
    · cases hstep
      have hreport : ∀ r, Inv digest { s with reports := update s.reports j r } :=
        fun _ => ⟨h.positive, h.distinct, h.standing, h.cursor, h.pass⟩
      exact (hreport _).setPass trivial
    · cases hstep
  | persist j =>
    simp only [Step, next] at hstep
    split at hstep
    · next hpass =>
        cases hstep
        exact h.persist hpass
    · cases hstep
      exact h.finish j _ _ _
    · cases hstep
  | abort j reported =>
    have hidle : Inv digest (s.setPass j .idle) := h.setPass trivial
    simp only [Step, next, Option.some.injEq] at hstep
    split at hstep
    · subst hstep
      exact ⟨hidle.positive, hidle.distinct, hidle.standing, hidle.cursor, hidle.pass⟩
    · subst hstep
      exact hidle

/-! ## The contract -/

/-- Since the start of the sweep the pages have visited, under the scope of the last one, every conversation
that stands and that their settings accept, once and in order, and processed each of them. -/
structure Earned (digest : ℤ → List ℤ → String) (h : History) (c : Config) (visits : List Visit)
    (started : ℤ) : Prop where
  started : started = h.started
  scopes : ∀ p ∈ h.pages, p.config.poll_scope digest = c.poll_scope digest
  ascending : ((visitsOf (h.pages ++ [⟨c, visits⟩])).map (·.zid)).Pairwise (· < ·)
  ok : ∀ v ∈ visitsOf (h.pages ++ [⟨c, visits⟩]), v.outcome = .ok
  once : ∀ z ∈ h.standing, (∀ p ∈ h.pages ++ [⟨c, visits⟩], p.config.accepts z = true) →
    ((visitsOf (h.pages ++ [⟨c, visits⟩])).map (·.zid)).count z = 1

/-- At the end of a page that is not full everything that stands is covered. -/
theorem Inv.earned (h : Inv digest s)
    (hpass : s.passes i = .scanning c cursor started true true [] visits) :
    Earned digest (s.histories i) c visits started := by
  have hscan := h.pass i
  rw [hpass] at hscan
  obtain ⟨hstarted, hcovered, hreaches⟩ := hscan.2 rfl
  refine ⟨hstarted, fun p hp => hcovered.scopes p (mem_append_left _ hp), hcovered.ascending, hcovered.ok,
    fun z hz haccepts => ?_⟩
  have hle : z ≤ cursor := by
    rcases le_or_gt z cursor with hle | hlt
    · exact hle
    · rcases hreaches z hz hlt with hin | ⟨hfull, -⟩
      · cases hin
      · cases hfull
  obtain ⟨v, hv, rfl⟩ := hcovered.whole z hz hle haccepts
  exact count_eq_one_of_mem (hcovered.ascending.imp ne_of_lt) (mem_map_of_mem hv)

theorem begin_cursors (s : State) (c : Config) : (s.begin digest c).cursors = s.cursors := by
  unfold State.begin
  dsimp only
  split
  · rfl
  · rfl

/-- Only the end of a page writes a cursor. -/
theorem cursors_step {e : Event} (hstep : Step digest s e s') (hno : ∀ i, e ≠ .persist i) :
    s'.cursors = s.cursors := by
  cases e with
  | tick | insert | read | complete =>
    simp only [Step, next] at hstep
    split at hstep
    · cases hstep
      rfl
    · cases hstep
  | remove zid =>
    cases hstep
    rfl
  | start c =>
    simp only [Step, next] at hstep
    split at hstep
    · cases hstep
      exact begin_cursors s c
    · cases hstep
  | visit j outcome =>
    simp only [Step, next] at hstep
    split at hstep
    · split at hstep
      · cases hstep
        rfl
      · cases hstep
        rfl
    · cases hstep
  | persist j => exact absurd rfl (hno j)
  | abort j reported =>
    simp only [Step, next, Option.some.injEq] at hstep
    rw [← hstep]
    split
    · rfl
    · rfl

/-- A sweep that is reported healthy has been earned, and only the end of a page moves a cursor. -/
theorem sweep_health {s₀ : State} {es : List Event} (hstart : Start s₀) (hrun : Run (Step digest) s₀ es s) :
    (∀ i s' started, Step digest s (.complete i) s' → s'.reports i = some ⟨started, true⟩ →
      ∃ c cursor visits, s.passes i = .scanning c cursor started true true [] visits ∧
        Earned digest (s.histories i) c visits started) ∧
    (∀ i reported s', Step digest s (.abort i reported) s' → s'.cursors = s.cursors) ∧
    ∀ e s', Step digest s e s' → s'.cursors ≠ s.cursors → ∃ i, e = .persist i := by
  have h : Inv digest s := hrun.keeps (Inv digest) (inv_start hstart) fun _ _ _ h hstep => h.step hstep
  refine ⟨fun i s' started hstep hreport => ?_, fun i reported s' hstep => ?_, fun e s' hstep hne => ?_⟩
  · simp only [Step, next] at hstep
    split at hstep
    · next c cursor started' ok visits hpass =>
        cases hstep
        simp only [State.setPass, update_self, Option.some.injEq, Report.mk.injEq] at hreport
        obtain ⟨rfl, rfl⟩ := hreport
        exact ⟨c, cursor, visits, hpass, h.earned hpass⟩
    · cases hstep
  · exact cursors_step hstep fun j hj => (nomatch hj)
  · by_contra hno
    exact hne (cursors_step hstep fun j hj => hno ⟨j, hj⟩)

/-! ## A sweep in two pages -/

section Runs

private def oneShard : Config := ⟨0, 1, [], 2, by decide⟩

private def threeConversations : State :=
  ⟨0, [3, 1, 2], fun _ => none, fun _ => none, fun _ => .idle, fun _ => ⟨0, [], []⟩⟩

private theorem threeConversations_start : Start threeConversations :=
  ⟨by decide, by decide, fun _ => rfl, fun _ _ h => (nomatch h), fun _ => rfl⟩

/-- A full page, then one that ends the sweep, with a new process in between. -/
private def twoPages : List Event :=
  [.tick 7, .start oneShard, .read (0, 1), .visit (0, 1) .ok, .visit (0, 1) .ok, .persist (0, 1), .tick 8,
    .start oneShard, .abort (0, 1) true, .start oneShard, .read (0, 1), .visit (0, 1) .ok]

private theorem twoPages_run : (twoPages.foldlM (next fun _ _ => "scope") threeConversations).map (fun s =>
    ((next (fun _ _ => "scope") s (.complete (0, 1))).map fun s' => s'.reports (0, 1), (s.histories (0, 1)).standing)) =
      some (some (some ⟨7, true⟩), [3, 1, 2]) := by
  decide +kernel

theorem sweep_health_reported : ∃ s : State, ∃ c visits,
    Run (Step fun _ _ => "scope") threeConversations twoPages s ∧
      Earned (fun _ _ => "scope") (s.histories (0, 1)) c visits 7 ∧ (s.histories (0, 1)).standing = [3, 1, 2] := by
  obtain ⟨s, hs, hend⟩ := map_eq_some_iff.1 twoPages_run
  have hrun : Run (Step fun _ _ => "scope") threeConversations twoPages s := run_of_foldlM hs
  obtain ⟨s', hs', hreport⟩ := map_eq_some_iff.1 (congrArg Prod.fst hend)
  obtain ⟨c, cursor, visits, -, hearned⟩ :=
    (sweep_health threeConversations_start hrun).1 (0, 1) s' 7 hs' hreport
  exact ⟨s, c, visits, hrun, hearned, congrArg Prod.snd hend⟩

end Runs

end Polis.Coordinator.Sweep
