import Polis.Delphi.EmbeddingStage
import Polis.Delphi.EmbeddingTheorems

/-!
# What a scope holds

Every row of a scope is one that the spool has a place for, with a number of its own, and every set
describes the rows that it covers. A put adds those of its rows whose comment is new, in their order.
-/

namespace Polis.Delphi.Embedding

open ByteCodec List Nat

variable {α : Type*} {sha256 : Bytes → Bytes} {db db' : Db} {batch : String} {c : Call}
variable {embeddings : Option (SqlArray Real4)} {shas : Option (SqlArray Bytes)}
  {tids : Option (SqlArray ℤ)}
variable {ps : List Proposal} {p : Proposal}

/-! ## Chunks -/

theorem chunks_flatten (n : ℕ) (hn : n ≠ 0) (l : List α) : (chunks n l).flatten = l := by
  induction hlen : l.length using Nat.strong_induction_on generalizing l with
  | _ len ih =>
    rw [chunks]
    split
    · next h =>
        rcases h with rfl | h
        · rfl
        · exact absurd h hn
    · next h =>
        have hpos := length_pos_iff.mpr (not_or.mp h).1
        rw [flatten_cons, ih _ (by rw [length_drop]; omega) _ rfl, take_append_drop]

/-- The columns of a row that a put proposes. -/
def Row.proposal (r : Row) : Proposal := ⟨r.tid, r.text_sha, r.embedding⟩

/-- A row that the spool of this width has a place for. -/
def Proposal.Kept (width : ℕ) (p : Proposal) : Prop :=
  ∃ x : SpoolRow, x.proposal = p ∧ 0 ≤ x.tid ∧ x.vector.length = width ∧ x.Finite

/-- The values of columns of the types `integer`, `bytea` and `real[]` that pass the checks. -/
theorem Proposal.Kept.of_columns {width : ℕ} (htid : 0 ≤ p.tid ∧ p.tid < 2147483648)
    (hsha : p.text_sha.length = 32) (hwidth : p.embedding.length = width)
    (hfinite : ∀ v ∈ p.embedding, v.isFinite = true) : p.Kept width := by
  have hback : (Int32.ofInt p.tid).toInt = p.tid := Int32.toInt_ofInt_of_le (by omega) (by omega)
  refine ⟨⟨.ofInt p.tid, ⟨p.text_sha, hsha⟩, p.embedding⟩, ?_, ?_, hwidth, hfinite⟩
  · rw [SpoolRow.proposal, hback]
  · rw [Int32.le_iff_toInt_le, hback]
    exact htid.1

/-- The arguments are of the types of the function: a number is an `integer`. -/
def Typed (p_tids : Option (SqlArray ℤ)) : Prop :=
  ∀ tids ∈ p_tids, ∀ t ∈ tids.elems.reduceOption, t < 2147483648

/-- What holds of a scope. -/
structure Db.Sound (sha256 : Bytes → Bytes) (db : Db) : Prop where
  width : ∀ d ∈ db.dims, 1 ≤ d ∧ d ≤ MAX_DIMS
  kept : ∀ r ∈ db.tables.rows, ∀ d ∈ db.dims, r.proposal.Kept d
  known : db.tables.rows ≠ [] → db.dims ≠ none
  unique : Unique db.tables
  below : ∀ r ∈ db.tables.rows, r.seq ≤ db.seq
  marks : ∀ s ∈ db.tables.sets, s.seq_mark ≤ db.seq
  describes : ∀ s ∈ db.tables.sets,
    Describes sha256 s (sortByStamp (·.tid) (db.tables.rows.filter (·.seq ≤ s.seq_mark)))

/-! ## What a put proposes -/

theorem unnest_eq_zip {as : List (Option α)} {β : Type*} {bs : List (Option β)}
    (h : as.length = bs.length) : unnest as bs = as.zip bs := by
  induction as generalizing bs with
  | nil =>
    cases eq_nil_of_length_eq_zero h.symm
    rfl
  | cons a as ih =>
    cases bs with
    | nil => cases h
    | cons b bs =>
      rw [unnest, zip_cons_cons, tail_cons, ih (by simpa using h)]
      cases b <;> rfl

/-- What the checks of a put leave. -/
structure Checked (dims : ℕ) (tids : SqlArray ℤ) (shas : SqlArray Bytes) (embeddings : SqlArray Real4) :
    Prop where
  sameLength : shas.elems.length = tids.elems.length
  matrix : embeddings.elems.length = tids.elems.length * dims
  each : ∀ x ∈ tids.elems.zip shas.elems,
    ∃ t b, x = (some t, some b) ∧ 0 ≤ t ∧ List.length b = 32
  finite : ∀ v ∈ embeddings.elems, ∃ x, v = some x ∧ x.isFinite = true

theorem differs_eq_false {x : Option α} [DecidableEq α] {a : α} :
    differs x (some a) = false ↔ ∀ b ∈ x, b = a := by
  cases x <;> simp [differs]

/-- A check that a null passes fails only of a value. -/
theorem all_eq_false {o : Option α} {p : α → Bool} (h : o.all p = false) :
    ∃ a, o = some a ∧ p a = false := by
  cases o with
  | none => cases h
  | some a => exact ⟨a, rfl, h⟩

/-- A matrix of two dimensions has as many elements as they say. -/
theorem matrix_length {a : SqlArray α} {m n : ℕ} (hdims : a.ndims = some 2)
    (hrows : ∀ l ∈ a.length 1, l = m) (hcols : ∀ l ∈ a.length 2, l = n) : a.elems.length = m * n := by
  have hshape := a.shape
  rw [SqlArray.ndims] at hdims
  split at hdims
  · cases hdims
  · obtain ⟨x, y, hxy⟩ := length_eq_two.mp (Option.some.inj hdims)
    simp only [SqlArray.length, hxy] at hrows hcols hshape
    have hm : x.2 = m := by simpa using hrows
    have hn : y.2 = n := by simpa using hcols
    simpa [hm, hn] using hshape

theorem checked_of_validRows {dims : ℕ} {rows : List Proposal}
    (h : validRows dims tids shas embeddings = some rows) :
    ∃ t s e, tids = some t ∧ shas = some s ∧ embeddings = some e ∧ Checked dims t s e ∧
      rows = proposals dims t s e := by
  obtain ⟨tids, rfl, htids⟩ := Option.bind_eq_some_iff.1 h
  obtain ⟨shas, rfl, hshas⟩ := Option.bind_eq_some_iff.1 htids
  obtain ⟨embeddings, rfl, hrows⟩ := Option.bind_eq_some_iff.1 hshas
  split at hrows
  · cases hrows
  · next hvalid =>
      cases hrows
      simp only [Bool.or_eq_true, not_or, Bool.not_eq_true, decide_eq_true_eq, not_not,
        differs_eq_false, any_eq_false, ne_eq] at hvalid
      obtain ⟨⟨⟨⟨⟨⟨⟨⟨-, hsame⟩, hndims⟩, -⟩, -⟩, hm⟩, hn⟩, heach⟩, -⟩ := hvalid.1
      refine ⟨tids, shas, embeddings, rfl, rfl, rfl, ⟨hsame, matrix_length hndims hm hn, ?_, ?_⟩, rfl⟩
      · rintro ⟨t, b⟩ hx
        rw [← unnest_eq_zip hsame.symm] at hx
        obtain ⟨htid, hsha⟩ := heach _ hx
        obtain ⟨t, rfl, ht⟩ := all_eq_false htid
        obtain ⟨b, rfl, hb⟩ := all_eq_false hsha
        exact ⟨t, b, rfl, by simpa using ht, by simpa using hb⟩
      · intro v hv
        obtain ⟨x, rfl, hfinite⟩ := all_eq_false (hvalid.2 v hv)
        exact ⟨x, rfl, by simpa using hfinite⟩

/-- What is proposed is what the arrays hold at some position. -/
theorem mem_proposals {dims : ℕ} {t : SqlArray ℤ} {s : SqlArray Bytes} {e : SqlArray Real4}
    (h : Checked dims t s e) (hp : p ∈ proposals dims t s e) :
    some p.tid ∈ t.elems ∧ 0 ≤ p.tid ∧ p.text_sha.length = 32 ∧ p.embedding.length = dims ∧
      ∀ v ∈ p.embedding, v.isFinite = true := by
  rw [proposals, mem_sortByStamp, mem_filterMap] at hp
  obtain ⟨⟨⟨tid, sha⟩, o⟩, hx, hp⟩ := hp
  rw [unnest_eq_zip h.sameLength.symm] at hx
  have hmem := fst_mem_of_mem_zipIdx hx
  obtain ⟨t', b, heq, htid, hsha⟩ := h.each _ hmem
  obtain ⟨rfl, rfl⟩ := Prod.mk.inj heq
  obtain rfl : _ = p := Option.some.inj hp
  have ho : o < t.elems.length := by
    have := (mem_zipIdx hx).2.1
    rw [length_zip] at this
    omega
  obtain ⟨slice, hslice⟩ : ∃ slice, slice = (e.elems.drop (o * dims)).take dims := ⟨_, rfl⟩
  have hall : ∀ v ∈ slice, ∃ x, v = some x ∧ x.isFinite = true := by
    intro v hv
    rw [hslice] at hv
    exact h.finite v (mem_of_mem_drop (mem_of_mem_take hv))
  have hlen : slice.length = dims := by
    rw [hslice, length_take, length_drop, h.matrix]
    have : (o + 1) * dims ≤ t.elems.length * dims := mul_le_mul_right dims ho
    rw [add_mul, one_mul] at this
    omega
  refine ⟨(of_mem_zip hmem).1, htid, hsha, ?_, ?_⟩
  · rw [← hslice]
    have : slice.reduceOption.length = slice.length := by
      rw [reduceOption_length_eq_iff]
      intro v hv
      obtain ⟨x, rfl, -⟩ := hall v hv
      rfl
    rw [← hlen, ← this]
  · intro v hv
    rw [← hslice] at hv
    obtain ⟨x, hx, hfinite⟩ := hall _ (reduceOption_mem_iff.mp hv)
    cases hx
    exact hfinite

/-! ## What the daemon proposes -/

variable {dims : UInt16} {rows : List SpoolRow}

/-- Rows in the order of their comments, as the next call takes them. -/
structure Ready (dims : UInt16) (rows : List SpoolRow) : Prop where
  ordered : rows.Pairwise fun x y => x.tid.toInt < y.tid.toInt
  each : ∀ r ∈ rows, r.Laid dims ∧ r.Finite

theorem length_matrix (h : ∀ r ∈ rows, r.Laid dims) :
    (rows.flatMap (·.vector)).length = rows.length * dims.toNat := by
  induction rows with
  | nil => simp
  | cons r rows ih =>
    rw [forall_mem_cons] at h
    rw [flatMap_cons, length_append, ih h.2, h.1.width, length_cons]
    ring

/-- Each row of the matrix goes to its comment. -/
theorem rows_of_matrix {data before : List Real4} {n : ℕ} (h : ∀ r ∈ rows, r.Laid dims)
    (hbefore : before.length = n * dims.toNat) (hdata : data = before ++ rows.flatMap (·.vector)) :
    (((rows.map fun r => (some r.tid.toInt, some r.text_sha.1)).zipIdx n).filterMap
      fun ((tid, sha), o) => do
        pure ⟨← tid, ← sha, (((data.map some).drop (o * dims.toNat)).take dims.toNat).reduceOption⟩) =
      rows.map SpoolRow.proposal := by
  induction rows generalizing before n with
  | nil => rfl
  | cons r rows ih =>
    rw [forall_mem_cons] at h
    have hslice : (((data.map some).drop (n * dims.toNat)).take dims.toNat).reduceOption =
        r.vector := by
      rw [hdata, ← hbefore, ← map_drop, drop_left, flatMap_cons, ← map_take,
        take_left' h.1.width]
      simp [List.reduceOption]
    have hrest := @ih (before ++ r.vector) (n + 1) h.2
      (by rw [length_append, hbefore, h.1.width]; ring)
      (by rw [hdata, flatMap_cons, append_assoc])
    rw [map_cons, zipIdx_cons, filterMap_cons_some, hrest, map_cons]
    simp only [hslice]
    rfl

/-- The comments of ready rows are distinct. -/
theorem Ready.nodup (h : Ready dims rows) : (rows.map (·.tid.toInt)).Nodup := by
  rw [nodup_iff_pairwise_ne, pairwise_map]
  exact h.ordered.imp fun hlt => hlt.ne

/-- The arrays of a chunk propose its rows. -/
theorem proposals_of_ready (h : Ready dims rows)
    (hlen : (rows.flatMap (·.vector)).length = (rows.map (·.tid.toInt)).length * dims.toNat) :
    proposals dims.toNat (vectorArray (rows.map (·.tid.toInt)))
      (vectorArray (rows.map (·.text_sha.1)))
      (matrix (rows.map (·.tid.toInt)).length dims.toNat (rows.flatMap (·.vector)) hlen) =
      rows.map SpoolRow.proposal := by
  have hzip : unnest (vectorArray (rows.map (·.tid.toInt))).elems
      (vectorArray (rows.map (·.text_sha.1))).elems =
        rows.map fun r => (some r.tid.toInt, some r.text_sha.1) := by
    rw [unnest_eq_zip (by simp [vectorArray])]
    simp only [vectorArray, map_map, zip_map', Function.comp_def]
  have hrows := @rows_of_matrix dims rows _ [] 0 (fun r hr => (h.each r hr).1) (by simp)
    (nil_append _).symm
  rw [proposals, hzip]
  refine (congrArg _ hrows).trans (sortByStamp_eq_self ?_)
  rw [pairwise_map]
  exact h.ordered.imp fun hlt => hlt.le

/-- The rows of a chunk pass the checks, and they are what is proposed. -/
theorem validRows_of_ready (h : Ready dims rows) (hne : rows ≠ []) (hle : rows.length ≤ 4096)
    (hlen : (rows.flatMap (·.vector)).length = (rows.map (·.tid.toInt)).length * dims.toNat) :
    validRows dims.toNat (some (vectorArray (rows.map (·.tid.toInt))))
      (some (vectorArray (rows.map (·.text_sha.1))))
      (some (matrix (rows.map (·.tid.toInt)).length dims.toNat (rows.flatMap (·.vector)) hlen)) =
      some (rows.map SpoolRow.proposal) := by
  have hpos := length_pos_iff.mpr hne
  have heach : ∀ r ∈ rows, 0 ≤ r.tid.toInt := by
    intro r hr
    simpa using Int32.le_iff_toInt_le.mp (h.each r hr).1.tid
  have hdistinct : (rows.map (·.tid.toInt)).dedup.length = rows.length := by
    rw [h.nodup.dedup, length_map]
  rw [← proposals_of_ready h hlen]
  simp only [validRows, Option.bind_eq_bind, Option.bind_some]
  rw [if_neg]
  simp only [Bool.or_eq_true, not_or, Bool.not_eq_true, decide_eq_true_eq, not_not,
    differs_eq_false, any_eq_false, ne_eq]
  refine ⟨⟨⟨⟨⟨⟨⟨⟨⟨⟨⟨⟨⟨?_, ?_⟩, ?_⟩, ?_⟩, ?_⟩, ?_⟩, ?_⟩, ?_⟩, ?_⟩, ?_⟩, ?_⟩, ?_⟩, ?_⟩, ?_⟩
  case refine_12 =>
    intro x hx
    rw [unnest_eq_zip (by simp [vectorArray])] at hx
    simp only [vectorArray, map_map, zip_map', mem_map, Function.comp_def] at hx
    obtain ⟨r, hr, rfl⟩ := hx
    simpa [r.text_sha.2] using heach r hr
  case refine_13 =>
    simpa [vectorArray, SqlArray.cardinality, List.reduceOption] using hdistinct
  case refine_14 =>
    intro x hx
    simp only [matrix, mem_map, mem_flatMap] at hx
    obtain ⟨v, ⟨r, hr, hv⟩, rfl⟩ := hx
    simpa using (h.each r hr).2 v hv
  all_goals
    simp [vectorArray, matrix, SqlArray.cardinality, SqlArray.ndims, SqlArray.lower, SqlArray.length]
  exact ⟨hpos, hle⟩

/-! ## What a put adds -/

/-- The proposals of new comments. -/
def fresh (v : Tables) (ps : List Proposal) : List Proposal :=
  ps.filter fun p => ∀ r ∈ v.rows, r.tid ≠ p.tid

/-- Rows of the new comments among the proposals went to the end, with numbers above the old ones. -/
structure Added (ps : List Proposal) (new : List Row) (db db' : Db) : Prop where
  tables : db'.tables = ⟨db.tables.rows ++ new, db.tables.sets⟩
  dims : db'.dims = db.dims
  columns : new.map Row.proposal = fresh db.tables ps
  above : ∀ r ∈ new, db.seq < r.seq
  below : ∀ r ∈ new, r.seq ≤ db'.seq
  grows : db.seq ≤ db'.seq

theorem fresh_cons_new {v : Tables}
    (h : v.rows.any (·.tid = p.tid) = false) : fresh v (p :: ps) = p :: fresh v ps := by
  rw [fresh, filter_cons_of_pos, fresh]
  simpa using h

theorem fresh_cons_old {v : Tables}
    (h : v.rows.any (·.tid = p.tid) = true) : fresh v (p :: ps) = fresh v ps := by
  rw [fresh, filter_cons_of_neg, fresh]
  simpa using h

/-- A row that is stored makes no other comment old. -/
theorem fresh_append {v : Tables} {r : Row} (h : ∀ p ∈ ps, r.tid ≠ p.tid) :
    fresh ⟨v.rows ++ [r], v.sets⟩ ps = fresh v ps := by
  refine filter_congr fun p hp => ?_
  rw [decide_eq_decide]
  constructor
  · intro hall r' hr'
    exact hall r' (mem_append_left _ hr')
  · intro hall r' hr'
    rcases mem_append.mp hr' with hr' | hr'
    · exact hall r' hr'
    · rw [mem_singleton.mp hr']
      exact h p hp

/-- The `INSERT` adds the new comments, in their order. -/
theorem added_insert (h : (ps.map (·.tid)).Nodup) (db : Db) :
    ∃ new, Added ps new db (ps.foldl (Db.insert batch) db) := by
  induction ps generalizing db with
  | nil => exact ⟨[], by simp, rfl, rfl, by simp, by simp, le_rfl⟩
  | cons p ps ih =>
    obtain ⟨hp, hps⟩ := nodup_cons.mp h
    obtain ⟨new, hnew⟩ := ih hps (db.insert batch p)
    have hother : ∀ q ∈ ps, p.tid ≠ q.tid := by
      rintro q hq heq
      exact hp (mem_map.mpr ⟨q, hq, heq.symm⟩)
    have hcolumns := hnew.columns
    rw [foldl_cons]
    by_cases hold : db.tables.rows.any (·.tid = p.tid) = true
    · -- The comment is stored: only the sequence moves.
      have hinsert : db.insert batch p = { db with seq := db.seq + 1 } := if_pos hold
      rw [hinsert] at hnew hcolumns ⊢
      exact ⟨new, hnew.tables, hnew.dims, by rw [hcolumns, fresh_cons_old hold],
        fun r hr => (lt_succ_self _).trans (hnew.above r hr), hnew.below,
        (le_succ _).trans hnew.grows⟩
    · -- The comment is new: its row takes the next value.
      have hinsert : db.insert batch p = ⟨db.dims, ⟨db.tables.rows ++
          [⟨p.tid, db.seq + 1, p.text_sha, p.embedding, batch⟩], db.tables.sets⟩, db.seq + 1⟩ :=
        if_neg hold
      rw [hinsert] at hnew hcolumns ⊢
      refine ⟨⟨p.tid, db.seq + 1, p.text_sha, p.embedding, batch⟩ :: new, ?_, hnew.dims, ?_, ?_, ?_,
        (le_succ _).trans hnew.grows⟩
      · rw [hnew.tables, append_assoc]
        rfl
      · rw [map_cons, hcolumns, fresh_append hother,
          fresh_cons_new (Bool.not_eq_true _ ▸ hold)]
        rfl
      · rw [forall_mem_cons]
        exact ⟨lt_succ_self _, fun r hr => (lt_succ_self _).trans (hnew.above r hr)⟩
      · rw [forall_mem_cons]
        exact ⟨hnew.grows, hnew.below⟩

/-- A call that goes on has found its model. -/
theorem begin_eq_ok {req : Request} {s : Option EmbeddingSet} {d : ℕ} (h : begin c req s = .ok d) :
    c.dims = some d := by
  have hbatch : ∀ {x : Except String ℕ}, x = .ok d → x = pd_embedding_batch c s → c.dims = some d := by
    intro x hx hbatch
    rw [hbatch, pd_embedding_batch] at hx
    cases hdims : c.dims with
    | none => rw [hdims] at hx; cases hx
    | some d' =>
      rw [hdims] at hx
      dsimp only at hx
      split at hx
      · cases hx
      · split at hx
        · cases hx
        · exact congrArg some (Except.ok.inj hx)
  cases req with
  | put tids shas embeddings =>
    simp only [begin] at h
    split at h
    · cases h
    · exact hbatch h rfl
  | close =>
    simp only [begin] at h
    split at h
    · cases h
    · split at h
      · cases h
      · exact hbatch h rfl

/-- What a put that succeeds has found and done. -/
theorem put_eq_ok {reply : Reply}
    (h : db.pd_embedding_put batch c tids shas embeddings = .ok (reply, db')) :
    ∃ d rows new, db.dims = some d ∧ db.tables.set batch = none ∧
      validRows d tids shas embeddings = some rows ∧ conflicts db.tables rows = false ∧
      reply.rows = some rows.length ∧ Added rows new db db' := by
  simp only [Db.pd_embedding_put, bind_eq_ok, ensure_eq_ok, exists_const] at h
  obtain ⟨d, hbegin, hset, rows, hrows, hconflicts, hreply⟩ := h
  have hvalid : validRows d tids shas embeddings = some rows := by
    cases hv : validRows d tids shas embeddings with
    | none => rw [hv] at hrows; cases hrows
    | some rows' => rw [hv] at hrows; exact congrArg some (Except.ok.inj hrows)
  obtain ⟨hr, rfl⟩ := Prod.mk.inj (Except.ok.inj hreply)
  obtain ⟨new, hnew⟩ : ∃ new, Added rows new db (rows.foldl (Db.insert batch) db) :=
    added_insert (proposals_nodup hvalid) db
  exact ⟨d, rows, new, begin_eq_ok hbegin, hset, hvalid, hconflicts, by rw [← hr]; rfl, hnew⟩

/-! ## Every call keeps it -/

namespace Db

/-- What happens to a scope: its calls, and the values that other scopes take of the sequence. -/
inductive Event
  | put (batch : String) (c : Call) (p_tids : Option (SqlArray ℤ)) (p_text_sha : Option (SqlArray Bytes))
      (p_embeddings : Option (SqlArray Real4))
  | close (batch : String) (c : Call)
  | prune
  | elsewhere (seq : ℕ)

/-- One event that succeeds. -/
def Step (sha256 : Bytes → Bytes) (db : Db) (e : Event) (db' : Db) : Prop :=
  match e with
  | .put batch c tids shas embeddings =>
    Typed tids ∧ ∃ reply, db.pd_embedding_put batch c tids shas embeddings = .ok (reply, db')
  | .close batch c => ∃ s, db.pd_embedding_close sha256 batch c = .ok (s, db')
  | .prune => db' = db.prune
  | .elsewhere seq => db.seq ≤ seq ∧ db' = { db with seq }

/-- The scopes of a conversation and a model of this width, or of none. -/
def Reachable (sha256 : Bytes → Bytes) (db : Db) : Prop :=
  ∃ dims seq es, (∀ d ∈ dims, 1 ≤ d ∧ d ≤ MAX_DIMS) ∧ Run (Step sha256) ⟨dims, ⟨[], []⟩, seq⟩ es db

/-- Old sets do not cover new rows. -/
theorem filter_above {db : Db} {new : List Row} {mark : ℕ} (hmark : mark ≤ db.seq)
    (habove : ∀ r ∈ new, db.seq < r.seq) :
    (db.tables.rows ++ new).filter (·.seq ≤ mark) = db.tables.rows.filter (·.seq ≤ mark) := by
  have hnew : new.filter (·.seq ≤ mark) = [] := by
    rw [filter_eq_nil_iff]
    intro r hr
    have := habove r hr
    simp only [decide_eq_true_eq]
    omega
  rw [filter_append, hnew, append_nil]

/-- Rows of new comments that have a place keep everything. -/
theorem Sound.added {new : List Row} {d : ℕ} (h : db.Sound sha256)
    (hdims : db.dims = some d) (hps : (ps.map (·.tid)).Nodup) (hkept : ∀ p ∈ ps, p.Kept d)
    (hadd : Added ps new db db') : db'.Sound sha256 := by
  have hfresh : ∀ r ∈ new, r.proposal ∈ ps ∧ ∀ r' ∈ db.tables.rows, r'.tid ≠ r.tid := by
    intro r hr
    have hmem := mem_map_of_mem (f := Row.proposal) hr
    rw [hadd.columns, fresh, mem_filter] at hmem
    exact ⟨hmem.1, of_decide_eq_true hmem.2⟩
  have hnew : new.Pairwise (·.tid ≠ ·.tid) := by
    have htids : (new.map (·.tid)).Nodup := by
      have heq : new.map (·.tid) = (fresh db.tables ps).map (·.tid) := by
        rw [← hadd.columns, map_map]
        rfl
      rw [heq]
      exact (filter_sublist.map _).nodup hps
    rwa [nodup_iff_pairwise_ne, pairwise_map] at htids
  refine ⟨?_, ?_, ?_, ?_, ?_, ?_, ?_⟩
  · rw [hadd.dims]
    exact h.width
  · rw [hadd.dims, hadd.tables]
    intro r hr d' hd'
    obtain rfl : d = d' := Option.some.inj (hdims.symm.trans hd')
    rcases mem_append.mp hr with hr | hr
    · exact h.kept r hr d hdims
    · exact hkept _ (hfresh r hr).1
  · rw [hadd.dims, hdims]
    simp
  · rw [hadd.tables]
    refine ⟨pairwise_append.mpr ⟨h.unique.rows, hnew, fun r hr r' hr' => ?_⟩, h.unique.sets⟩
    exact (hfresh r' hr').2 r hr
  · rw [hadd.tables]
    intro r hr
    rcases mem_append.mp hr with hr | hr
    · exact (h.below r hr).trans hadd.grows
    · exact hadd.below r hr
  · rw [hadd.tables]
    exact fun s hs => (h.marks s hs).trans hadd.grows
  · rw [hadd.tables]
    intro s hs
    dsimp only
    rw [filter_above (h.marks s hs) hadd.above]
    exact h.describes s hs

/-- The rows of a put have a place. -/
theorem kept_of_typed {d : ℕ} (htyped : Typed tids)
    (h : validRows d tids shas embeddings = some ps) : ∀ p ∈ ps, p.Kept d := by
  obtain ⟨t, s, e, rfl, rfl, rfl, hchecked, rfl⟩ := checked_of_validRows h
  intro p hp
  obtain ⟨hmem, htid, hsha, hwidth, hfinite⟩ := mem_proposals hchecked hp
  exact .of_columns ⟨htid, htyped t rfl _ (reduceOption_mem_iff.mpr hmem)⟩ hsha hwidth hfinite

/-- What a close that succeeds has done. -/
theorem close_eq_ok {s : EmbeddingSet} (h : db.pd_embedding_close sha256 batch c = .ok (s, db')) :
    db.dims ≠ none ∧ ((db.tables.set batch = some s ∧ db' = db) ∨ db.tables.set batch = none ∧
      s = closing sha256 batch db.tables ∧
        db' = { db with tables := ⟨db.tables.rows, db.tables.sets ++ [s]⟩ }) := by
  simp only [pd_embedding_close, bind_eq_ok] at h
  obtain ⟨d, hbegin, hs⟩ := h
  have hdims : db.dims = some d := begin_eq_ok hbegin
  refine ⟨by rw [hdims]; simp, ?_⟩
  cases hset : db.tables.set batch with
  | some s' =>
    rw [hset] at hs
    obtain ⟨rfl, rfl⟩ := Prod.mk.inj (Except.ok.inj hs)
    exact .inl ⟨rfl, rfl⟩
  | none =>
    rw [hset] at hs
    obtain ⟨rfl, rfl⟩ := Prod.mk.inj (Except.ok.inj hs)
    exact .inr ⟨rfl, rfl, rfl⟩

theorem set_snoc (v : Tables) (s : EmbeddingSet) (b : String) :
    Tables.set ⟨v.rows, v.sets ++ [s]⟩ b = (v.set b).or (if s.batch_id = b then some s else none) := by
  simp only [Tables.set, find?_append, find?_cons, find?_nil]
  split <;> simp_all

/-- A close of a batch without a set stores one of everything. -/
theorem Sound.closed (h : db.Sound sha256) (hset : db.tables.set batch = none) :
    Sound sha256 { db with tables :=
      ⟨db.tables.rows, db.tables.sets ++ [closing sha256 batch db.tables]⟩ } := by
  have hall : db.tables.rows.filter (·.seq ≤ (closing sha256 batch db.tables).seq_mark) =
      db.tables.rows :=
    filter_eq_self.mpr fun r hr => decide_eq_true (le_mark hr)
  have hmark : (closing sha256 batch db.tables).seq_mark ≤ db.seq := by
    refine Nat.lt_succ_iff.mp (mark_lt (succ_pos _) fun r hr => ?_)
    exact Nat.lt_succ_of_le (h.below r hr)
  refine ⟨h.width, h.kept, h.known, ⟨h.unique.rows, ?_⟩, h.below, ?_, ?_⟩
  · intro s hs
    rw [set_snoc]
    rcases mem_append.mp hs with hs | hs
    · rw [h.unique.sets s hs, Option.some_or]
    · obtain rfl := mem_singleton.mp hs
      exact (by rw [if_pos rfl, show (closing sha256 batch db.tables).batch_id = batch from rfl, hset,
        Option.none_or])
  · intro s hs
    rcases mem_append.mp hs with hs | hs
    · exact h.marks s hs
    · rw [mem_singleton.mp hs]
      exact hmark
  · intro s hs
    rcases mem_append.mp hs with hs | hs
    · exact h.describes s hs
    · rw [mem_singleton.mp hs]
      dsimp only
      rw [hall]
      exact describes_closing batch db.tables

theorem Sound.step {e : Event} (h : db.Sound sha256) (hstep : Step sha256 db e db') :
    db'.Sound sha256 := by
  cases e with
  | put batch c tids shas embeddings =>
    obtain ⟨htyped, reply, hput⟩ := hstep
    obtain ⟨d, ps, new, hdims, -, hvalid, -, -, hadd⟩ := put_eq_ok hput
    exact h.added hdims (proposals_nodup hvalid) (kept_of_typed htyped hvalid) hadd
  | close batch c =>
    obtain ⟨s, hclose⟩ := hstep
    rcases (close_eq_ok hclose).2 with ⟨-, rfl⟩ | ⟨hset, rfl, rfl⟩
    · exact h
    · exact h.closed hset
  | prune =>
    obtain rfl := hstep
    exact ⟨h.width, by simp [prune, Tables.write], by simp [prune, Tables.write],
      ⟨.nil, by simp [prune, Tables.write]⟩, by simp [prune, Tables.write],
      by simp [prune, Tables.write], by simp [prune, Tables.write]⟩
  | elsewhere seq =>
    obtain ⟨hseq, rfl⟩ := hstep
    exact ⟨h.width, h.kept, h.known, h.unique, fun r hr => (h.below r hr).trans hseq,
      fun s hs => (h.marks s hs).trans hseq, h.describes⟩

/-- A scope that calls have led to is sound. -/
theorem Reachable.sound (h : db.Reachable sha256) : db.Sound sha256 := by
  obtain ⟨dims, seq, es, hdims, hrun⟩ := h
  refine hrun.keeps (Db.Sound sha256) ?_ fun _ _ _ hs hstep => hs.step hstep
  exact ⟨hdims, by simp, by simp, ⟨.nil, by simp⟩, by simp, by simp, by simp⟩

end Db

end Polis.Delphi.Embedding
