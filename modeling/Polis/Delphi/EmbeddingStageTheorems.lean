import Polis.Delphi.EmbeddingPutTheorems

/-!
# What a stage leaves behind

The calls for the chunks of a spool add its new comments, and the set that the stage closes covers them
and what was covered before.
-/

namespace Polis.Delphi.Embedding

open ByteCodec List

variable {sha256 : Bytes → Bytes} {db db' : Db} {batch model : String} {dims : UInt16}
  {rows chunk : List SpoolRow} {cs : List (List SpoolRow)} {finds : ℕ → Call} {i : ℕ}

/-! ## The chunks -/

theorem Ready.of_append {xs ys : List SpoolRow} (h : Ready dims (xs ++ ys)) :
    Ready dims xs ∧ Ready dims ys := by
  obtain ⟨hxs, hys, -⟩ := pairwise_append.mp h.ordered
  exact ⟨⟨hxs, fun r hr => h.each r (mem_append_left _ hr)⟩,
    ⟨hys, fun r hr => h.each r (mem_append_right _ hr)⟩⟩

/-- A new row is one of the proposals. -/
theorem Added.mem {ps : List Proposal} {new : List Row} (h : Added ps new db db') {r : Row}
    (hr : r ∈ new) : r.proposal ∈ ps := by
  have hmem := mem_map_of_mem (f := Row.proposal) hr
  rw [h.columns] at hmem
  exact mem_of_mem_filter hmem

/-- One put after another adds what both propose. -/
theorem Added.trans {ps qs : List Proposal} {new more : List Row} {db₁ db₂ : Db}
    (h : Added ps new db db₁) (h' : Added qs more db₁ db₂)
    (hdisjoint : ∀ p ∈ ps, ∀ q ∈ qs, p.tid ≠ q.tid) : Added (ps ++ qs) (new ++ more) db db₂ := by
  refine ⟨?_, h'.dims.trans h.dims, ?_, ?_, ?_, h.grows.trans h'.grows⟩
  · rw [h'.tables, h.tables, append_assoc]
  · rw [map_append, h.columns, h'.columns, fresh, fresh, fresh, filter_append]
    congr 1
    refine filter_congr fun q hq => ?_
    rw [decide_eq_decide, h.tables]
    constructor
    · intro hall r hr
      exact hall r (mem_append_left _ hr)
    · intro hall r hr
      rcases mem_append.mp hr with hr | hr
      · exact hall r hr
      · exact hdisjoint _ (h.mem hr) q hq
  · intro r hr
    rcases mem_append.mp hr with hr | hr
    · exact h.above r hr
    · exact h.grows.trans_lt (h'.above r hr)
  · intro r hr
    rcases mem_append.mp hr with hr | hr
    · exact (h.below r hr).trans h'.grows
    · exact h'.below r hr

/-- What the put of a chunk has found and done. -/
theorem embedding_put_eq_ok {c : Call} {reply : Reply} (hready : Ready dims chunk)
    (h : embedding_put db batch c (chunk.map (·.tid.toInt)) (chunk.map (·.text_sha.1)) dims.toNat
      (chunk.flatMap (·.vector)) = .ok (reply, db')) :
    db.dims = some dims.toNat ∧ db.tables.set batch = none ∧
      conflicts db.tables (chunk.map SpoolRow.proposal) = false ∧
      ∃ new, Added (chunk.map SpoolRow.proposal) new db db' := by
  rw [embedding_put, bind_eq_ok] at h
  obtain ⟨_, hchunk, h⟩ := h
  obtain ⟨hne, hle⟩ := ensure_eq_ok.mp hchunk
  split at h
  · next hshape =>
      obtain ⟨d, ps, new, hdims, hset, hvalid, hconflicts, -, hadd⟩ := put_eq_ok h
      have hpos : 0 < chunk.length := length_pos_iff.mpr (mt (by rintro rfl; rfl) hne)
      obtain rfl : d = dims.toNat := by
        obtain ⟨t, s, e, ht, -, he, hchecked, -⟩ := checked_of_validRows hvalid
        have hlen := hchecked.matrix
        rw [← Option.some.inj ht, ← Option.some.inj he] at hlen
        simp only [matrix, vectorArray, length_map, length_matrix fun r hr => (hready.each r hr).1]
          at hlen
        exact (Nat.eq_of_mul_eq_mul_left hpos hlen).symm
      have hps := validRows_of_ready hready (length_pos_iff.mp hpos)
        (by simpa [PUT_CHUNK] using hle) hshape.2
      rw [hvalid] at hps
      obtain rfl := Option.some.inj hps
      exact ⟨hdims, hset, hconflicts, new, hadd⟩
  · cases h

/-- What the calls for the chunks have found and done. -/
theorem putChunks_eq_ok (hready : Ready dims cs.flatten)
    (h : putChunks batch dims finds i cs db = .ok db') :
    (cs ≠ [] → db.dims = some dims.toNat ∧ db.tables.set batch = none) ∧
      ∃ new, Added (cs.flatten.map SpoolRow.proposal) new db db' := by
  induction cs generalizing i db with
  | nil =>
    cases h
    exact ⟨fun h => absurd rfl h, [], by simp, rfl, rfl, by simp, by simp, le_rfl⟩
  | cons chunk cs ih =>
    rw [flatten_cons] at hready
    simp only [putChunks, bind_eq_ok, ensure_eq_ok, exists_const] at h
    obtain ⟨⟨reply, db₁⟩, hput, -, hrest⟩ := h
    obtain ⟨hdims, hset, -, new, hadd⟩ := embedding_put_eq_ok hready.of_append.1 hput
    obtain ⟨-, more, hmore⟩ := ih hready.of_append.2 hrest
    refine ⟨fun _ => ⟨hdims, hset⟩, new ++ more, ?_⟩
    rw [flatten_cons, map_append]
    refine hadd.trans hmore ?_
    intro p hp q hq
    obtain ⟨x, hx, rfl⟩ := mem_map.mp hp
    obtain ⟨y, hy, rfl⟩ := mem_map.mp hq
    exact ((pairwise_append.mp hready.ordered).2.2 x hx y hy).ne

/-! ## Staging -/

/-- What a set of the batch covers, if it were closed now. -/
def covers (v : Tables) (batch : String) : List Row :=
  match v.set batch with
  | some s => v.rows.filter (·.seq ≤ s.seq_mark)
  | none => v.rows

/-- After the stage the set covers what it covered before and the new comments of the spool. -/
theorem staged {closes : Call} {db₁ db₂ : Db} {s : EmbeddingSet} (hsound : db.Sound sha256)
    (hready : Ready dims rows) (hput : putChunks batch dims finds 0 (chunks PUT_CHUNK rows) db = .ok db₁)
    (hclose : db₁.pd_embedding_close sha256 batch closes = .ok (s, db₂)) :
    db₂.Sound sha256 ∧ db₂.dims = db.dims ∧ db.dims ≠ none ∧ s.batch_id = batch ∧
      db₂.tables.set batch = some s ∧
      ∃ new, new.map Row.proposal = fresh db.tables (rows.map SpoolRow.proposal) ∧
        (covers db.tables batch ++ new).Pairwise (·.tid ≠ ·.tid) ∧
        (rows ≠ [] → db.tables.set batch = none) ∧
        pd_embedding_rows db₂.tables batch = sortByStamp (·.tid) (covers db.tables batch ++ new) := by
  have hflat := chunks_flatten PUT_CHUNK (by decide) rows
  obtain ⟨hfirst, new, hadd⟩ := putChunks_eq_ok (by rwa [hflat]) hput
  rw [hflat] at hadd
  have hne : rows ≠ [] → chunks PUT_CHUNK rows ≠ [] := by
    rintro hrows hnil
    rw [hnil] at hflat
    exact hrows hflat.symm
  obtain ⟨hknown, hset⟩ := Db.close_eq_ok hclose
  obtain ⟨d, hd⟩ := Option.ne_none_iff_exists'.mp hknown
  rw [hadd.dims] at hd
  have hsound₁ : db₁.Sound sha256 := by
    refine hsound.added hd ?_ ?_ hadd
    · rw [map_map]
      exact hready.nodup
    · intro p hp
      obtain ⟨x, hx, rfl⟩ := mem_map.mp hp
      have hdims := (hfirst (hne (ne_nil_of_mem hx))).1
      obtain rfl : d = dims.toNat := Option.some.inj (hd.symm.trans hdims)
      exact ⟨x, rfl, (hready.each x hx).1.tid, (hready.each x hx).1.width, (hready.each x hx).2⟩
  have hunique := hsound₁.unique.rows
  rw [hadd.tables] at hunique
  rcases hset with ⟨hset, rfl⟩ | ⟨hset, rfl, rfl⟩
  · -- The batch had its set: then the spool has no rows.
    have hold : db.tables.set batch = some s := by
      rw [hadd.tables] at hset
      exact hset
    have hcovers : covers db.tables batch = db.tables.rows.filter (·.seq ≤ s.seq_mark) := by
      rw [covers, hold]
    have hrows : rows = [] := by
      by_contra hrows
      rw [(hfirst (hne hrows)).2] at hold
      cases hold
    have hnil : new = [] := by
      have := hadd.columns
      rw [hrows] at this
      exact map_eq_nil_iff.mp this
    refine ⟨hsound₁, hadd.dims, by rw [hd]; simp, ?_, hset, new, hadd.columns, ?_,
      fun h => absurd hrows h, ?_⟩
    · simpa using find?_some hset
    · rw [hnil, append_nil, hcovers]
      exact hsound.unique.rows.filter _
    · rw [pd_embedding_rows, hset, hcovers, hnil, append_nil]
      dsimp only
      rw [hadd.tables, hnil, append_nil]
  · -- The close stores a set of everything.
    have hold : db.tables.set batch = none := by
      rw [hadd.tables] at hset
      exact hset
    have hcovers : covers db.tables batch = db.tables.rows := by rw [covers, hold]
    have hnew : Tables.set ⟨db₁.tables.rows, db₁.tables.sets ++ [closing sha256 batch db₁.tables]⟩ batch =
        some (closing sha256 batch db₁.tables) := by
      rw [Db.set_snoc, hset, Option.none_or]
      exact if_pos rfl
    have hall : db₁.tables.rows.filter (·.seq ≤ (closing sha256 batch db₁.tables).seq_mark) =
        db₁.tables.rows :=
      filter_eq_self.mpr fun r hr => decide_eq_true (le_mark hr)
    refine ⟨hsound₁.closed hset, hadd.dims, by rw [hd]; simp, rfl, hnew, new, hadd.columns, ?_,
      fun _ => hold, ?_⟩
    · rw [hcovers]
      exact hunique
    · rw [pd_embedding_rows, hnew, hcovers]
      dsimp only
      rw [hall, hadd.tables]

/-! ## A stage that goes through -/

/-- The calls of the attempt find its job, its open batch and the model. -/
structure Call.Goes (c : Call) : Prop where
  readCommitted : c.readCommitted = true
  owned : c.owned = true
  bound : c.bound = true
  unsealed : c.sealed = false

end Polis.Delphi.Embedding
