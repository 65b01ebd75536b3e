import Polis.Poller.Convention
import Polis.Poller.Incremental
import Polis.Common.Table

/-!
# A flip of the storage sign is invisible

Two runs against two databases that differ in the sign of every vote and of the convention row stay
in step: each reader holds an answer from the row, so each vote is converted by the sign that was read
in its own statement, and the two signs cancel.

Reference: `polismath/utils/vote_convention.py`, `polismath/database/postgres.py`.
-/

namespace Polis.Poller

open Clustering List Option

/-! ## The statement -/

/-- A vote as it is stored after an odd number of flips. -/
def StoredVote.signed (negated : Bool) (row : StoredVote) : StoredVote :=
  if negated then row.negate else row

/-- An event of the first run as it happens in the second: inserts are in the sign of the store. -/
def ReadEvent.signed (negated : Bool) : ReadEvent → ReadEvent
  | .insert row => .insert (row.signed negated)
  | e => e

/-- The second history is the first with flips at any moments, each negating every later insert. -/
inductive Paired : Bool → List ReadEvent → List ReadEvent → Prop
  | nil {negated : Bool} : Paired negated [] []
  | flip {negated : Bool} {es es' : List ReadEvent} (raised : ℕ) :
      Paired (!negated) es es' → Paired negated es (.flip raised :: es')
  | step {negated : Bool} {es es' : List ReadEvent} (e : ReadEvent) :
      Paired negated es es' → Paired negated (e :: es) (e.signed negated :: es')

/-- The database carries the convention row, and no reader holds an answer from before it. -/
structure Joined (s : ReadState) : Prop where
  carries : ∃ v a : ℤ, s.db.convention = some [⟨.int v, .int a⟩] ∧ 0 ≤ v ∧ Admissible a
  cached : ∀ c ∈ s.cached, c.origin = .database
  answered : ∀ reader read c, s.stage reader = .answered read c → c.origin = .database

section Matrices

variable {K : Type*} [Field K] [LinearOrder K] [Numerics K]
variable {c c' : StorageConvention}

/-- The raw matrix of a conversation after the fresh rows of every poll. -/
def polledMatrix (zid : ℤ) (c : Conversation K) (s : ReadState) : NamedMat Vote :=
  (s.cycles.foldl (fun c cycle => applyVotes c (ofZid zid cycle.fresh)) c).rawRatingMat

/-- The raw matrices that the returned histories load. -/
def loadedMatrices (c : Conversation K) (s : ReadState) : List (Except ReadError (NamedMat Vote)) :=
  s.returned.map fun r => r.result.map fun rows => (applyVotes c rows).rawRatingMat

end Matrices

/-- What the engine sees of a run: the lists returned, the cycles of the vote poll with the rows fresh
in each window, and the matrices that follow from them. -/
structure SameToTheEngine (s s' : ReadState) : Prop where
  returned : s'.returned = s.returned
  cycles : s'.cycles = s.cycles
  polled : ∀ {K : Type} [Field K] [LinearOrder K] [Numerics K] (zid : ℤ) (c : Conversation K),
    polledMatrix zid c s' = polledMatrix zid c s
  loaded : ∀ {K : Type} [Field K] [LinearOrder K] [Numerics K] (c : Conversation K),
    loadedMatrices c s' = loadedMatrices c s

/-- The source answers from one row with an admissible sign and a version that is not malformed;
it raises on every other answer of the function, and caches nothing then. -/
def SourceRefuses : Prop :=
  (∀ rows c, conventionOf rows = .ok c → ∃ version, rows = [⟨version, .int c.agreeValue⟩] ∧
    Admissible c.agreeValue ∧
    (version = .null ∧ c.version = none ∨ ∃ v, version = .int v ∧ 0 ≤ v ∧ c.version = some v)) ∧
  ∀ overlapMs fallback reader s s' rows e, s.db.convention = some rows → conventionOf rows = .error e →
    ReadState.step overlapMs fallback s (.askRow reader) = some s' →
    s'.cached = s.cached ∧ s'.returned = s.returned ++ [⟨reader, .error e⟩]

/-- A row converted by an admissible sign: its own, which the declared one then equals, or the declared
one, or the fallback. -/
def ConvertedBy (declared : Option ColumnValue) (fallback : ℤ) (fetched : FetchedVote)
    (row : VoteRow) : Prop :=
  ∃ s raw, fetched.row.vote = some raw ∧
    row = ⟨fetched.row.zid, fetched.row.pid, fetched.row.tid, raw * s, fetched.row.created⟩ ∧
    match fetched.convention with
    | some c => c.agreeValue = .int s ∧ Admissible s ∧ ∀ d ∈ declared, d = .int s
    | none => match declared with
      | some d => d = .int s ∧ Admissible s
      | none => s = fallback

/-- The loader returns rows only when each is converted so. -/
def LoaderRefuses : Prop :=
  ∀ rows declared fallback out, loadSemanticVotes rows declared fallback = .ok out →
    List.Forall₂ (ConvertedBy declared fallback) rows out

/-! ## One vote in two signs -/

theorem Admissible.neg {a : ℤ} (h : Admissible a) : Admissible (-a) := by
  unfold Admissible at h ⊢
  omega

theorem validate_int {a : ℤ} (h : Admissible a) : validateStorageAgreeValue (.int a) = .ok a := if_pos h

/-- A sign after an odd number of flips. -/
def signed (negated : Bool) (a : ℤ) : ℤ := if negated then -a else a

theorem Admissible.signed {a : ℤ} (h : Admissible a) (negated : Bool) :
    Admissible (Polis.Poller.signed negated a) := by
  cases negated
  · exact h
  · exact h.neg

theorem signed_neg (negated : Bool) (a : ℤ) : -signed negated a = signed (!negated) a := by
  cases negated
  · rfl
  · exact neg_neg a

@[simp] theorem negate_negate (row : StoredVote) : row.negate.negate = row := by
  cases row with
  | mk zid pid tid vote created => cases vote <;> simp [StoredVote.negate]

section

variable (negated : Bool)
include negated

section

variable (row : StoredVote)
include row

theorem negate_signed :
    (row.signed negated).negate = row.signed (!negated) := by
  cases negated
  · rfl
  · exact negate_negate row

theorem negate_signed_comm :
    (row.signed negated).negate = row.negate.signed negated := by
  cases negated <;> rfl

@[simp] theorem signed_zid : (row.signed negated).zid = row.zid := by
  cases negated <;> rfl

@[simp] theorem signed_pid : (row.signed negated).pid = row.pid := by
  cases negated <;> rfl

@[simp] theorem signed_tid : (row.signed negated).tid = row.tid := by
  cases negated <;> rfl

@[simp] theorem signed_created :
    (row.signed negated).created = row.created := by
  cases negated <;> rfl

@[simp] theorem signed_vote :
    (row.signed negated).vote = row.vote.map (signed negated) := by
  cases negated
  · exact (Option.map_id_fun'.symm ▸ rfl : row.vote = row.vote.map fun a => a)
  · rfl

end

/-- The two signs cancel. -/
theorem signed_mul_signed (raw a : ℤ) : signed negated raw * signed negated a = raw * a := by
  cases negated
  · rfl
  · exact neg_mul_neg raw a

end

/-! ## One statement in two signs -/

/-- A joined vote in the other run. -/
def FetchedVote.signed (negated : Bool) (row : ConventionRow) (fetched : FetchedVote) : FetchedVote :=
  ⟨fetched.row.signed negated, some row⟩

theorem found_joined {db : VoteDatabase} {row : ConventionRow} (h : db.convention = some [row])
    (read : VoteRead) :
    db.found read true = .ok ((db.votes.filter read.selects).map fun vote => ⟨vote, some row⟩) := by
  rw [VoteDatabase.found, if_pos rfl, h]
  exact congrArg Except.ok (flatMap_pure_eq_map _ _)

theorem selects_signed (negated : Bool) (read : VoteRead) (row : StoredVote) :
    read.selects (row.signed negated) = read.selects row := by
  cases read with
  | history zid since => cases since <;> simp [VoteRead.selects]
  | recent since => simp [VoteRead.selects]

/-- A change of rows that keeps the columns they are ordered by keeps every order. -/
theorem arranged_map {f : FetchedVote → FetchedVote}
    (hf : ∀ a b, (f a).before (f b) ↔ a.before b) (order : List ℕ) (rows : List FetchedVote) :
    arranged order (rows.map f) = (arranged order rows).map (List.map f) := by
  have hpick : picked order (rows.map f) = (picked order rows).map f := by
    rw [picked, picked, map_filterMap]
    exact filterMap_congr fun i _ => getElem?_map
  have hsorted : (picked order (rows.map f)).Pairwise FetchedVote.before ↔
      (picked order rows).Pairwise FetchedVote.before := by
    rw [hpick, pairwise_map]
    simp only [hf]
  unfold arranged
  rw [length_map, if_congr (and_congr_right' hsorted) (congrArg some hpick) rfl]
  split <;> rfl

theorem before_signed (negated : Bool) (row : ConventionRow) (a b : FetchedVote) :
    (a.signed negated row).before (b.signed negated row) ↔ a.before b := by
  simp [FetchedVote.before, FetchedVote.signed]

theorem arranged_subset {order : List ℕ} {rows result : List FetchedVote}
    (h : arranged order rows = some result) : result ⊆ rows := by
  unfold arranged at h
  split at h
  · cases h
    intro row hrow
    obtain ⟨i, -, hi⟩ := mem_filterMap.1 hrow
    exact mem_of_getElem? hi
  · cases h

/-- A list traversed under a renaming. -/
theorem mapM_map_congr {α β γ ε : Type} {f : α → β} {g : β → Except ε γ} {g' : α → Except ε γ}
    {l : List α} (h : ∀ a ∈ l, g (f a) = g' a) : (l.map f).mapM g = l.mapM g' := by
  induction l with
  | nil => rfl
  | cons a l ih =>
    rw [map_cons, mapM_cons, mapM_cons, h a mem_cons_self,
      ih fun b hb => h b (mem_cons_of_mem a hb)]

/-- Reading the votes as numbers keeps the rows, or fails on a NULL. -/
theorem mapM_intVote (rows : List FetchedVote) :
    rows.mapM intVote =
      if ∀ r ∈ rows, r.row.vote.isSome then .ok rows else .error .typeError := by
  induction rows with
  | nil => rfl
  | cons r rows ih =>
    rw [mapM_cons, ih]
    cases hvote : r.row.vote with
    | none => simp [intVote, hvote, bind, Except.bind]
    | some raw =>
      have hhead : intVote r = .ok r := by simp [intVote, hvote]
      rw [hhead]
      by_cases hall : ∀ r ∈ rows, r.row.vote.isSome
      · rw [if_pos hall, if_pos (forall_mem_cons.2 ⟨by simp [hvote], hall⟩)]
        rfl
      · rw [if_neg hall, if_neg fun h => hall (forall_mem_cons.1 h).2]
        rfl

theorem loadSemanticVote_signed (negated : Bool) {fallback v v' a : ℤ} (ha : Admissible a)
    {fetched : FetchedVote} (h : fetched.convention = some ⟨.int v, .int a⟩) :
    loadSemanticVote none fallback (fetched.signed negated ⟨.int v', .int (signed negated a)⟩) =
      loadSemanticVote none fallback fetched := by
  simp only [loadSemanticVote, rowSign, FetchedVote.signed, h, validate_int ha,
    validate_int (ha.signed negated), bind, Except.bind, signed_vote, signed_zid, signed_pid, signed_tid,
    signed_created]
  cases fetched.row.vote with
  | none => rfl
  | some raw => simp only [map_some, semanticVote, signed_mul_signed]

/-- A statement that joined the row converts to the same votes in both signs. -/
theorem voteRows_signed (negated : Bool) {fallback v v' a : ℤ} (ha : Admissible a)
    (hc : c.origin = .database) (hc' : c'.origin = .database)
    {rows : List FetchedVote} (h : ∀ r ∈ rows, r.convention = some ⟨.int v, .int a⟩) :
    voteRows c' fallback (rows.map (FetchedVote.signed negated ⟨.int v', .int (signed negated a)⟩)) =
      voteRows c fallback rows := by
  have hsome : (∀ r ∈ rows.map (FetchedVote.signed negated ⟨.int v', .int (signed negated a)⟩),
      r.row.vote.isSome = true) ↔ ∀ r ∈ rows, r.row.vote.isSome = true := by
    simp [FetchedVote.signed]
  unfold voteRows
  rw [mapM_intVote, mapM_intVote, if_pos hc, if_pos hc']
  by_cases hall : ∀ r ∈ rows, r.row.vote.isSome = true
  · rw [if_pos hall, if_pos (hsome.2 hall)]
    exact mapM_map_congr fun r hr => loadSemanticVote_signed negated ha (h r hr)
  · rw [if_neg hall, if_neg fun hs => hall (hsome.1 hs)]

/-! ## Two runs in step -/

/-- Where a reader of the other run stands: at the same place, with its own answer. -/
inductive SameStage : ReadStage → ReadStage → Prop
  | refl (stage : ReadStage) : SameStage stage stage
  | answered (read : VoteRead) (c c' : StorageConvention) :
      SameStage (.answered read c) (.answered read c')

/-- The other run: the votes and the row in the sign of its store, each answer from its own row, and
everything else the same. -/
structure Similar (negated : Bool) (s s' : ReadState) : Prop where
  joined : Joined s
  joined' : Joined s'
  votes : s'.db.votes = s.db.votes.map (StoredVote.signed negated)
  sign : ∃ v v' a : ℤ, s.db.convention = some [⟨.int v, .int a⟩] ∧
    s'.db.convention = some [⟨.int v', .int (signed negated a)⟩]
  cached : s'.cached.isSome = s.cached.isSome
  lock : s'.lock = s.lock
  stage : ∀ reader, SameStage (s.stage reader) (s'.stage reader)
  watermark : s'.watermark = s.watermark
  window : s'.window = s.window
  returned : s'.returned = s.returned
  cycles : s'.cycles = s.cycles

theorem Similar.refl {s : ReadState} (h : Joined s) : Similar false s s where
  joined := h
  joined' := h
  votes := (map_id s.db.votes).symm
  sign := by
    obtain ⟨v, a, hrow, -⟩ := h.carries
    exact ⟨v, v, a, hrow, hrow⟩
  cached := rfl
  lock := rfl
  stage reader := .refl _
  watermark := rfl
  window := rfl
  returned := rfl
  cycles := rfl

variable {negated : Bool} {s s' s₁ : ReadState} {overlapMs fallback : ℤ}

theorem conventionOf_carried {v a : ℤ} (hv : 0 ≤ v) (ha : Admissible a) :
    ∃ c, conventionOf [⟨.int v, .int a⟩] = .ok c ∧ c.origin = .database :=
  ⟨⟨a, some v, .database, ha, by simpa using hv⟩, by simp [conventionOf, StorageConvention.ofRow, ha, hv], rfl⟩

/-- What the row answers is the one row, with an admissible sign and a version. -/
theorem Joined.conventionOf {rows : List ConventionRow} (h : Joined s) (hrows : s.db.convention = some rows) :
    ∃ c, conventionOf rows = .ok c ∧ c.origin = .database := by
  obtain ⟨v, a, hrow, hv, ha⟩ := h.carries
  obtain rfl := Option.some.inj (hrows.symm.trans hrow)
  exact conventionOf_carried hv ha

/-- A reader moves on, to a place where its answer is from the row. -/
theorem Joined.setStage (h : Joined s) (reader : Reader) {stage : ReadStage}
    (hstage : ∀ read c, stage = .answered read c → c.origin = .database) : Joined (s.setStage reader stage) where
  carries := h.carries
  cached := h.cached
  answered r read c hr := by
    simp only [ReadState.setStage] at hr
    split at hr
    · exact hstage read c hr
    · exact h.answered r read c hr

section

variable (h : Similar negated s s')
include h

theorem Similar.setStage (reader : Reader) {stage stage' : ReadStage}
    (hsame : SameStage stage stage') (hstage : ∀ read c, stage = .answered read c → c.origin = .database)
    (hstage' : ∀ read c, stage' = .answered read c → c.origin = .database) :
    Similar negated (s.setStage reader stage) (s'.setStage reader stage') :=
  { h with
    joined := h.joined.setStage reader hstage
    joined' := h.joined'.setStage reader hstage'
    stage := fun r => by
      simp only [ReadState.setStage]
      split
      · exact hsame
      · exact h.stage r }

/-- A move to a place without an answer. -/
theorem Similar.move (reader : Reader) {stage : ReadStage}
    (hstage : ∀ read c, stage ≠ .answered read c) :
    Similar negated (s.setStage reader stage) (s'.setStage reader stage) :=
  h.setStage reader (.refl stage) (fun read c heq => absurd heq (hstage read c))
    fun read c heq => absurd heq (hstage read c)

/-- A reader gets its answer from the row. -/
theorem Similar.answer (reader : Reader) (read : VoteRead)
    (hc : c.origin = .database) (hc' : c'.origin = .database) :
    Similar negated (s.answer reader read c) (s'.answer reader read c') := by
  have hmoved := h.setStage reader (.answered read c c') (fun _ _ heq => by cases heq; exact hc)
    fun _ _ heq => by cases heq; exact hc'
  exact { hmoved with
    joined := { hmoved.joined with cached := fun _ heq => by cases heq; exact hc }
    joined' := { hmoved.joined' with cached := fun _ heq => by cases heq; exact hc' }
    cached := rfl
    lock := rfl }

theorem Similar.raise (reader : Reader) (error : ReadError) :
    Similar negated (s.raise reader error) (s'.raise reader error) := by
  have hmoved : Similar negated (s.setStage reader .idle) (s'.setStage reader .idle) :=
    h.move reader fun read c heq => nomatch heq
  exact { hmoved with
    joined := { hmoved.joined with }
    joined' := { hmoved.joined' with }
    lock := by rw [ReadState.raise, ReadState.raise, h.lock]
    returned := congrArg (· ++ _) h.returned }

theorem Similar.polling : s'.polling = s.polling := by
  rw [ReadState.polling, ReadState.polling, h.watermark, h.window]

theorem Similar.deliver (reader : Reader) (rows : List VoteRow) :
    Similar negated (s.deliver overlapMs reader rows) (s'.deliver overlapMs reader rows) := by
  have hmoved : Similar negated (s.setStage reader .idle) (s'.setStage reader .idle) :=
    h.move reader fun read c heq => nomatch heq
  cases reader with
  | worker id =>
    exact { hmoved with
      joined := { hmoved.joined with }
      joined' := { hmoved.joined' with }
      returned := congrArg (· ++ _) h.returned }
  | poll =>
    have hcycle : s'.polling.cycle voteKind overlapMs rows = s.polling.cycle voteKind overlapMs rows :=
      congrArg (fun p => PollState.cycle voteKind overlapMs p rows) h.polling
    exact { hmoved with
      joined := { hmoved.joined with }
      joined' := { hmoved.joined' with }
      watermark := congrArg (fun cycle => cycle.next.watermark) hcycle
      window := congrArg (fun cycle : Cycle VoteRow VoteKey VoteCell => some cycle.next) hcycle
      returned := congrArg (· ++ _) h.returned
      cycles := by
        refine congrArg₂ (· ++ ·) h.cycles ?_
        exact congrArg (fun cycle => [cycle]) hcycle }

theorem Similar.insert (row : StoredVote) :
    Similar negated { s with db := { s.db with votes := s.db.votes ++ [row] } }
      { s' with db := { s'.db with votes := s'.db.votes ++ [row.signed negated] } } :=
  { h with
    joined := { h.joined with }
    joined' := { h.joined' with }
    votes := by
      rw [map_append, ← h.votes]
      rfl }

end

/-- A flip of a store that carries the row. -/
theorem Joined.flip (h : Joined s) (raised : ℕ) : Joined { s with db := s.db.flip raised } where
  carries := by
    obtain ⟨v, a, hrow, hv, ha⟩ := h.carries
    refine ⟨v + raised + 1, -a, ?_, by omega, ha.neg⟩
    rw [VoteDatabase.flip, hrow]
    rfl
  cached := h.cached
  answered := h.answered

section

variable (h : Similar negated s s')
include h

/-- The other run alone flips. -/
theorem Similar.flip (raised : ℕ) :
    Similar (!negated) s { s' with db := s'.db.flip raised } :=
  { h with
    joined' := h.joined'.flip raised
    votes := by
      rw [VoteDatabase.flip, h.votes, List.map_map]
      exact map_congr_left fun row _ => negate_signed negated row
    sign := by
      obtain ⟨v, v', a, hrow, hrow'⟩ := h.sign
      refine ⟨v, v' + raised + 1, a, hrow, ?_⟩
      rw [VoteDatabase.flip, hrow', ← signed_neg]
      rfl }

/-- Both runs flip. -/
theorem Similar.flips (raised : ℕ) :
    Similar negated { s with db := s.db.flip raised } { s' with db := s'.db.flip raised } :=
  { h with
    joined := h.joined.flip raised
    joined' := h.joined'.flip raised
    votes := by
      rw [VoteDatabase.flip, VoteDatabase.flip, h.votes, List.map_map, List.map_map]
      exact map_congr_left fun row _ => negate_signed_comm negated row
    sign := by
      obtain ⟨v, v', a, hrow, hrow'⟩ := h.sign
      refine ⟨v + raised + 1, v' + raised + 1, -a, ?_, ?_⟩
      · rw [VoteDatabase.flip, hrow]
        rfl
      · rw [VoteDatabase.flip, hrow', map_some, map_singleton, ConventionRow.flip, signed_neg]
        cases negated
        · rfl
        · exact congrArg (fun b => some [(⟨_, .int b⟩ : ConventionRow)]) (neg_neg a).symm }

/-- Asking the source goes the same way in both runs. -/
theorem Similar.ask {reader : Reader} {read : VoteRead}
    (hs : s.ask reader read = some s₁) :
    ∃ s₁', s'.ask reader read = some s₁' ∧ Similar negated s₁ s₁' := by
  unfold ReadState.ask at hs ⊢
  rw [h.lock]
  cases hlock : s.lock with
  | some holder => simp [hlock] at hs
  | none =>
    have hsome := h.cached
    cases hcached : s.cached with
    | none =>
      rw [hcached] at hsome
      rw [isSome_eq_false_iff.1 hsome |> isNone_iff_eq_none.1]
      simp only [hlock, hcached, Option.some.injEq] at hs ⊢
      subst hs
      refine ⟨_, rfl, ?_⟩
      have hmoved : Similar negated (s.setStage reader (.asking read))
          (s'.setStage reader (.asking read)) := h.move reader fun read c heq => nomatch heq
      exact { hmoved with
        joined := { hmoved.joined with }
        joined' := { hmoved.joined' with }
        lock := rfl }
    | some c =>
      rw [hcached] at hsome
      obtain ⟨c', hc'⟩ := isSome_iff_exists.1 hsome
      simp only [hlock, hcached, hc', Option.some.injEq] at hs ⊢
      subst hs
      refine ⟨_, rfl, h.setStage reader (.answered read c c') ?_ ?_⟩
      · rintro _ _ ⟨⟩
        exact h.joined.cached c hcached
      · rintro _ _ ⟨⟩
        exact h.joined'.cached c' hc'

/-- The vote statement returns the same rows in both runs, converted to the same votes. -/
theorem Similar.readVotes {reader : Reader} {read : VoteRead}
    (hc : c.origin = .database) (hc' : c'.origin = .database) {order : List ℕ}
    (hs : s.readVotes overlapMs fallback reader read c order = some s₁) :
    ∃ s₁', s'.readVotes overlapMs fallback reader read c' order = some s₁' ∧ Similar negated s₁ s₁' := by
  obtain ⟨v, v', a, hrow, hrow'⟩ := h.sign
  have ha : Admissible a := by
    obtain ⟨w, b, hb, -, hadm⟩ := h.joined.carries
    rw [hrow] at hb
    simp only [Option.some.injEq, List.cons.injEq, ConventionRow.mk.injEq, ColumnValue.int.injEq] at hb
    rw [hb.1.2]
    exact hadm
  have hfound : (s'.db.votes.filter read.selects).map (fun vote =>
      (⟨vote, some ⟨.int v', .int (signed negated a)⟩⟩ : FetchedVote)) =
        ((s.db.votes.filter read.selects).map fun vote =>
          (⟨vote, some ⟨.int v, .int a⟩⟩ : FetchedVote)).map
            (FetchedVote.signed negated ⟨.int v', .int (signed negated a)⟩) := by
    rw [h.votes, List.filter_map, List.map_map, List.map_map]
    have hselects : read.selects ∘ StoredVote.signed negated = read.selects :=
      funext fun row => selects_signed negated read row
    rw [hselects]
    rfl
  unfold ReadState.readVotes at hs ⊢
  rw [decide_eq_true hc, found_joined hrow] at hs
  rw [decide_eq_true hc', found_joined hrow', hfound]
  dsimp only at hs ⊢
  rw [arranged_map (before_signed negated _)]
  cases harr : arranged order ((s.db.votes.filter read.selects).map fun vote =>
      (⟨vote, some ⟨.int v, .int a⟩⟩ : FetchedVote)) with
  | none => simp [harr] at hs
  | some rows =>
    have hown : ∀ r ∈ rows, r.convention = some ⟨.int v, .int a⟩ := by
      intro r hr
      obtain ⟨vote, -, rfl⟩ := mem_map.1 (arranged_subset harr hr)
      rfl
    simp only [harr, map_some, Option.some.injEq] at hs ⊢
    rw [voteRows_signed negated ha hc hc' hown]
    refine ⟨_, rfl, ?_⟩
    subst hs
    cases voteRows c fallback rows with
    | error e => exact h.raise reader e
    | ok votes => exact h.deliver reader votes

end

/-- A reader without an answer stands at the same place in both runs. -/
theorem SameStage.eq {a b : ReadStage} (h : SameStage a b) (ha : ∀ read c, a ≠ .answered read c) : b = a := by
  cases h with
  | refl => rfl
  | answered read c c' => exact absurd rfl (ha read c)

theorem Joined.exists_rows (h : Joined s) : ∃ rows, s.db.convention = some rows := by
  obtain ⟨v, a, hrow, -⟩ := h.carries
  exact ⟨_, hrow⟩

/-- The function is there: no answer is from a database without it. -/
theorem Joined.convention_ne_none (h : Joined s) : s.db.convention ≠ none := by
  obtain ⟨rows, hrows⟩ := h.exists_rows
  rw [hrows]
  exact some_ne_none rows

/-- One event of the first run happens in the second too, in its sign. -/
theorem Similar.step (h : Similar negated s s') {e : ReadEvent}
    (hs : s.step overlapMs fallback e = some s₁) :
    ∃ s₁', s'.step overlapMs fallback (e.signed negated) = some s₁' ∧ Similar negated s₁ s₁' := by
  cases e with
  | insert row =>
    obtain rfl := Option.some.inj hs
    exact ⟨_, rfl, h.insert row⟩
  | flip raised =>
    obtain rfl := Option.some.inj hs
    exact ⟨_, rfl, h.flips raised⟩
  | beginCycle =>
    simp only [ReadState.step] at hs
    split at hs
    · next hidle hlock =>
        obtain rfl := Option.some.inj hs
        have hstage := (h.stage .poll).eq (by simp [hidle])
        refine ⟨{ s'.setStage .poll .begun with cached := none }, ?_, ?_⟩
        · simp [ReadState.step, ReadEvent.signed, hstage, hidle, h.lock, hlock]
        · have hmoved : Similar negated (s.setStage .poll .begun) (s'.setStage .poll .begun) :=
            h.move .poll fun read c heq => nomatch heq
          exact { hmoved with
            joined := { hmoved.joined with cached := fun _ heq => nomatch heq }
            joined' := { hmoved.joined' with cached := fun _ heq => nomatch heq }
            cached := rfl }
    · cases hs
  | askPoll =>
    simp only [ReadState.step] at hs
    split at hs
    · next hbegun =>
        obtain ⟨s₁', hask, hsim⟩ := h.ask hs
        have hstage := (h.stage .poll).eq (by simp [hbegun])
        refine ⟨s₁', ?_, hsim⟩
        simp only [ReadState.step, ReadEvent.signed, hstage, hbegun, h.polling]
        exact hask
    · cases hs
  | askHistory id zid since =>
    simp only [ReadState.step] at hs
    split at hs
    · next hidle =>
        obtain ⟨s₁', hask, hsim⟩ := h.ask hs
        have hstage := (h.stage (.worker id)).eq (by simp [hidle])
        refine ⟨s₁', ?_, hsim⟩
        simp only [ReadState.step, ReadEvent.signed, hstage, hidle]
        exact hask
    · cases hs
  | askPresent reader =>
    simp only [ReadState.step] at hs
    split at hs
    · next hnone => exact absurd hnone h.joined.convention_ne_none
    · next read rows hasking hrows =>
        obtain rfl := Option.some.inj hs
        have hstage := (h.stage reader).eq (by simp [hasking])
        obtain ⟨rows', hrows'⟩ := h.joined'.exists_rows
        refine ⟨_, ?_, h.move reader fun read c heq => nomatch heq⟩
        simp [ReadState.step, ReadEvent.signed, hstage, hasking, hrows']
    · cases hs
  | askRow reader =>
    simp only [ReadState.step] at hs
    split at hs
    · next hnone => exact absurd hnone h.joined.convention_ne_none
    · next read rows hasked hrows =>
        have hstage := (h.stage reader).eq (by simp [hasked])
        obtain ⟨rows', hrows'⟩ := h.joined'.exists_rows
        obtain ⟨c, hc, horigin⟩ := h.joined.conventionOf hrows
        obtain ⟨c', hc', horigin'⟩ := h.joined'.conventionOf hrows'
        rw [hc] at hs
        obtain rfl := Option.some.inj hs
        refine ⟨_, ?_, h.answer reader read horigin horigin'⟩
        simp only [ReadState.step, ReadEvent.signed, hstage, hasked, hrows', hc']
    · cases hs
  | readVotes reader order =>
    simp only [ReadState.step] at hs
    have hsame := h.stage reader
    split at hs
    · next read c hanswered =>
        rw [hanswered] at hsame
        obtain ⟨c', hanswered'⟩ : ∃ c', s'.stage reader = .answered read c' := by
          generalize s'.stage reader = stage' at hsame
          cases hsame with
          | refl => exact ⟨c, rfl⟩
          | answered _ _ c' => exact ⟨c', rfl⟩
        obtain ⟨s₁', hread, hsim⟩ := h.readVotes (h.joined.answered reader read c hanswered)
          (h.joined'.answered reader read c' hanswered') hs
        refine ⟨s₁', ?_, hsim⟩
        simp only [ReadState.step, ReadEvent.signed, hanswered']
        exact hread
    · cases hs
  | fail reader =>
    simp only [ReadState.step] at hs
    have hsame := h.stage reader
    split at hs
    · cases hs
    · cases hs
    · next hidle hbegun =>
        obtain rfl := Option.some.inj hs
        refine ⟨_, ?_, h.raise reader .database⟩
        simp only [ReadState.step, ReadEvent.signed]
        generalize hstage : s.stage reader = stage at hsame hidle hbegun
        generalize hstage' : s'.stage reader = stage' at hsame
        cases hsame with
        | answered read c c' => rfl
        | refl =>
          split
          · exact absurd rfl hidle
          · exact absurd rfl hbegun
          · rfl

theorem ReadState.run_cons (s : ReadState) (e : ReadEvent) (es : List ReadEvent) :
    s.run overlapMs fallback (e :: es) =
      (s.step overlapMs fallback e).bind fun s₁ => s₁.run overlapMs fallback es := rfl

/-- Paired histories keep two runs in step. -/
theorem Similar.run {es es' : List ReadEvent} (hpaired : Paired negated es es')
    (h : Similar negated s s') (hrun : s.run overlapMs fallback es = some s₁) :
    ∃ s₂ negated', s'.run overlapMs fallback es' = some s₂ ∧ Similar negated' s₁ s₂ := by
  induction hpaired generalizing s s' with
  | nil =>
    obtain rfl := Option.some.inj hrun
    exact ⟨s', _, rfl, h⟩
  | flip raised _ ih => exact ih (h.flip raised) hrun
  | step e _ ih =>
    rw [ReadState.run_cons] at hrun
    obtain ⟨t, ht, hrun⟩ := bind_eq_some_iff.1 hrun
    obtain ⟨t', ht', hsim⟩ := h.step ht
    obtain ⟨s₂, negated', hrun', hsim₂⟩ := ih hsim hrun
    refine ⟨s₂, negated', ?_, hsim₂⟩
    rw [ReadState.run_cons, ht']
    exact hrun'

theorem Similar.sameToTheEngine (h : Similar negated s s') : SameToTheEngine s s' where
  returned := h.returned
  cycles := h.cycles
  polled zid c := by rw [polledMatrix, polledMatrix, h.cycles]
  loaded c := by rw [loadedMatrices, loadedMatrices, h.returned]

/-! ## What is refused -/

theorem conventionOf_ok {rows : List ConventionRow} {c : StorageConvention} (h : conventionOf rows = .ok c) :
    ∃ version, rows = [⟨version, .int c.agreeValue⟩] ∧ Admissible c.agreeValue ∧
      (version = .null ∧ c.version = none ∨ ∃ v, version = .int v ∧ 0 ≤ v ∧ c.version = some v) := by
  unfold conventionOf at h
  split at h
  · next row =>
      obtain ⟨version, agree⟩ := row
      unfold StorageConvention.ofRow at h
      split at h
      · next a hagree =>
          obtain rfl : agree = .int a := hagree
          split at h
          · next ha =>
              split at h
              · next hversion =>
                  cases h
                  exact ⟨version, rfl, ha, .inl ⟨hversion, rfl⟩⟩
              · next v hversion =>
                  split at h
                  · next hv =>
                      cases h
                      exact ⟨version, rfl, ha, .inr ⟨v, hversion, hv, rfl⟩⟩
                  · cases h
              · cases h
          · cases h
      · cases h
  · cases h

theorem sourceRefuses : SourceRefuses := by
  refine ⟨fun rows c h => conventionOf_ok h, ?_⟩
  intro overlapMs fallback reader s s' rows e hrows he hs
  simp only [ReadState.step, hrows] at hs
  split at hs
  · next hnone => cases hnone
  · next hsome =>
      obtain rfl := Option.some.inj hsome
      rw [he] at hs
      obtain rfl := Option.some.inj hs
      exact ⟨rfl, rfl⟩
  · cases hs

theorem validate_ok {value : ColumnValue} {a : ℤ} (h : validateStorageAgreeValue value = .ok a) :
    value = .int a ∧ Admissible a := by
  unfold validateStorageAgreeValue at h
  split at h
  · split at h
    · next hadm =>
        cases h
        exact ⟨rfl, hadm⟩
    · cases h
  · cases h

/-- A list is traversed when each of its elements is. -/
theorem forall₂_of_mapM {α β ε : Type} {f : α → Except ε β} {l : List α} {out : List β}
    (h : l.mapM f = .ok out) : List.Forall₂ (fun a b => f a = .ok b) l out := by
  induction l generalizing out with
  | nil =>
    cases h
    exact .nil
  | cons a l ih =>
    rw [mapM_cons] at h
    obtain ⟨b, hb, h⟩ := bind_eq_ok.1 h
    obtain ⟨bs, hbs, h⟩ := bind_eq_ok.1 h
    cases h
    exact .cons hb (ih hbs)

/-- The validated declaration. -/
theorem mapM_validate {declared : Option ColumnValue} {d : Option ℤ}
    (h : declared.mapM validateStorageAgreeValue = .ok d) :
    declared = d.map ColumnValue.int ∧ ∀ a ∈ d, Admissible a := by
  cases declared with
  | none =>
    cases h
    exact ⟨rfl, fun _ ha => nomatch ha⟩
  | some value =>
    obtain ⟨a, ha, hd⟩ := mapped_eq_ok.1 h
    obtain ⟨rfl, hadm⟩ := validate_ok ha
    cases hd
    refine ⟨rfl, ?_⟩
    rintro _ ⟨⟩
    exact hadm

theorem loadSemanticVote_ok {d : Option ℤ} (hd : ∀ a ∈ d, Admissible a) {fallback : ℤ}
    {fetched : FetchedVote} {row : VoteRow} (h : loadSemanticVote d fallback fetched = .ok row) :
    ConvertedBy (d.map ColumnValue.int) fallback fetched row := by
  obtain ⟨s, hs, h⟩ := bind_eq_ok.1 h
  obtain ⟨vote, hvote, h⟩ := bind_eq_ok.1 h
  obtain ⟨raw, hraw, rfl⟩ : ∃ raw, fetched.row.vote = some raw ∧ raw * s = vote := by
    unfold semanticVote at hvote
    split at hvote
    · cases hvote
    · next raw hraw => exact ⟨raw, hraw, Except.ok.inj hvote⟩
  refine ⟨s, raw, hraw, (Except.ok.inj h).symm, ?_⟩
  unfold rowSign at hs
  cases hconv : fetched.convention with
  | none =>
    rw [hconv] at hs
    cases d with
    | none => exact (Except.ok.inj hs).symm
    | some a =>
      obtain rfl : a = s := Except.ok.inj hs
      exact ⟨rfl, hd a rfl⟩
  | some c =>
    rw [hconv] at hs
    obtain ⟨a, ha, hs⟩ := bind_eq_ok.1 hs
    obtain ⟨hagree, hadm⟩ := validate_ok ha
    cases d with
    | none =>
      obtain rfl : a = s := Except.ok.inj hs
      exact ⟨hagree, hadm, fun _ hmem => nomatch hmem⟩
    | some b =>
      dsimp only at hs
      split at hs
      · cases hs
      · next hsame =>
          obtain rfl : a = s := Except.ok.inj hs
          obtain rfl : b = a := not_not.1 hsame
          refine ⟨hagree, hadm, ?_⟩
          rintro _ ⟨⟩
          rfl

theorem loaderRefuses : LoaderRefuses := by
  intro rows declared fallback out h
  obtain ⟨d, hd, hrows⟩ := bind_eq_ok.1 h
  obtain ⟨rfl, hadm⟩ := mapM_validate hd
  exact (forall₂_of_mapM hrows).imp fun fetched row hrow => loadSemanticVote_ok hadm hrow

/-! ## The flip -/

/-- A flip of the storage sign is invisible to the engine, in paired runs from any state in which the
database carries the row and no reader holds an answer from before it. A convention that is
missing, malformed or contradicted is refused by the source and by the loader. -/
theorem flip_invisible {overlapMs fallback : ℤ} {s₀ s₁ : ReadState} {es es' : List ReadEvent}
    (hjoined : Joined s₀) (hpaired : Paired false es es')
    (hrun : s₀.run overlapMs fallback es = some s₁) :
    (∃ s₂, s₀.run overlapMs fallback es' = some s₂ ∧ SameToTheEngine s₁ s₂) ∧
      SourceRefuses ∧ LoaderRefuses := by
  obtain ⟨s₂, negated, hrun', hsim⟩ := (Similar.refl hjoined).run hpaired hrun
  exact ⟨⟨s₂, hrun', hsim.sameToTheEngine⟩, sourceRefuses, loaderRefuses⟩

private def sampleDatabase : VoteDatabase := ⟨[⟨1, 2, 3, some (-1), 5⟩], some [⟨.int 0, .int (-1)⟩]⟩

private def sampleState : ReadState := .init sampleDatabase 0

private theorem sampleState_joined : Joined sampleState where
  carries := ⟨0, -1, rfl, le_rfl, .inl rfl⟩
  cached _ h := nomatch h
  answered _ _ _ h := nomatch h

/-- A poll that reads one vote. -/
private def pollHistory : List ReadEvent :=
  [.beginCycle, .askPoll, .askPresent .poll, .askRow .poll, .readVotes .poll [0]]

/-- The same poll, with a flip between its answer and its statement. -/
private def flippedHistory : List ReadEvent :=
  [.beginCycle, .askPoll, .askPresent .poll, .askRow .poll, .flip 0, .readVotes .poll [0]]

private theorem paired_flippedHistory : Paired false pollHistory flippedHistory :=
  .step .beginCycle <| .step .askPoll <| .step (.askPresent .poll) <| .step (.askRow .poll) <|
    .flip 0 <| .step (.readVotes .poll [0]) .nil

private def pollEnd : ReadState := (sampleState.run 60000 (-1) pollHistory).get rfl

/-- A flip between the answer of the source and the statement of the poll changes nothing. -/
theorem flip_invisible_within_poll :
    ∃ s₂, sampleState.run 60000 (-1) flippedHistory = some s₂ ∧ SameToTheEngine pollEnd s₂ :=
  (flip_invisible sampleState_joined paired_flippedHistory (some_get _).symm).1

/-- The source refuses a negative version; joined to a vote it is dropped unread, and a row with the
other sign beside it converts the same vote twice. A database without the function converts by the
constant. -/
theorem malformed_convention_converted :
    conventionOf [⟨.int (-1), .int 1⟩] = .error .version ∧
    (∀ c : StorageConvention, c.origin = .database →
      voteRows c (-1) [⟨⟨1, 2, 3, some 1, 5⟩, some ⟨.int (-1), .int 1⟩⟩] = .ok [⟨1, 2, 3, 1, 5⟩] ∧
      voteRows c (-1) (joinConvention [⟨.int 0, .int 1⟩, ⟨.int 0, .int (-1)⟩] ⟨1, 2, 3, some 1, 5⟩) =
        .ok [⟨1, 2, 3, 1, 5⟩, ⟨1, 2, 3, -1, 5⟩]) ∧
    voteRows absentConvention (-1) [⟨⟨1, 2, 3, some 1, 5⟩, none⟩] = .ok [⟨1, 2, 3, -1, 5⟩] := by
  refine ⟨rfl, fun c hc => ⟨?_, ?_⟩, rfl⟩
  · rw [voteRows, if_pos hc]
    rfl
  · rw [voteRows, if_pos hc]
    rfl

end Polis.Poller
