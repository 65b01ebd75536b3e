import Polis.Queue.Logs
import Mathlib.Data.List.Range

/-!
# What the captured log lines are

After any calls the rows are the pieces that were pushed up to a limit, and one marker if there were more. All
of them fit into the table; a manifest row has its text as it was given, which is checked before.
-/

namespace Polis.Queue.Logs

open Utf8 List

/-! ## Pieces -/

/-- What a line of the table may hold. -/
def Storable (line : List Char) : Prop := bytes line ≤ MAX_LINE ∧ Char.ofNat 0 ∉ line

theorem not_mem_replaceNul (line : List Char) : Char.ofNat 0 ∉ replaceNul line := by
  intro h
  obtain ⟨c, -, hc⟩ := mem_map.1 h
  split at hc
  · exact absurd hc (by decide)
  · next hne => exact hne hc

/-- What is cut, with and without a NUL in it. -/
theorem clean_eq (line : List Char) :
    (if Char.ofNat 0 ∈ line then replaceNul line else line) = replaceNul line := by
  split
  · rfl
  · next hno =>
      have hid : ∀ c ∈ line, (if c = Char.ofNat 0 then Char.ofNat 0xFFFD else c) = c :=
        fun c hc => if_neg fun heq => hno (by rw [← heq]; exact hc)
      exact ((map_congr_left hid).trans (map_id'' (fun _ => rfl) line)).symm

/-- The pieces of a line make up the line with its NULs replaced. -/
theorem flatten_split_line (line : List Char) : (split_line line).flatten = replaceNul line := by
  unfold split_line
  rw [clean_eq]
  dsimp only
  split
  · rw [flatten_cons, flatten_nil, append_nil]
  · exact flatten_pieces _

theorem storable_of_mem_split_line {line p : List Char} (hp : p ∈ split_line line) : Storable p := by
  have hnul : Char.ofNat 0 ∉ p := by
    intro h
    apply not_mem_replaceNul line
    rw [← flatten_split_line]
    exact mem_flatten_of_mem hp h
  refine ⟨?_, hnul⟩
  unfold split_line at hp
  rw [clean_eq] at hp
  dsimp only at hp
  split at hp
  · next hle => rwa [mem_singleton.1 hp]
  · exact bytes_le_of_mem_pieces hp

theorem storable_of_mem_pushed {calls : List Call} {p : String × List Char} (hp : p ∈ pushed calls) :
    Storable p.2 := by
  induction calls with
  | nil => cases hp
  | cons call calls ih =>
    cases call with
    | push stream line =>
      rcases mem_append.1 hp with hp | hp
      · obtain ⟨q, hq, rfl⟩ := mem_map.1 hp
        exact storable_of_mem_split_line hq
      · exact ih hp
    | take | manifest_row => exact ih hp

theorem bytes_digits {t : List Char} (h : Digits t) : bytes t = t.length := by
  induction t with
  | nil => rfl
  | cons c t ih =>
    obtain ⟨hc, ht⟩ := h.cons
    have hone : c.utf8Size = 1 := by
      rw [Char.utf8Size_eq_one_iff]
      simp only [Char.isDigit, Bool.and_eq_true, decide_eq_true_eq] at hc
      exact UInt32.le_trans hc.2 (by decide)
    rw [bytes_cons, hone, ih ht, length_cons, Nat.add_comm]

/-- A text within a number of bytes, without NUL. -/
structure Fits (n : ℕ) (t : List Char) : Prop where
  bytes_le : bytes t ≤ n
  not_mem : Char.ofNat 0 ∉ t

theorem Fits.append {m n : ℕ} {t u : List Char} (ht : Fits m t) (hu : Fits n u) : Fits (m + n) (t ++ u) where
  bytes_le := by
    rw [bytes_append]
    exact Nat.add_le_add ht.bytes_le hu.bytes_le
  not_mem h := (mem_append.1 h).elim ht.not_mem hu.not_mem

/-- A 64-bit number has at most twenty digits. -/
theorem fits_toDigits {n : ℕ} (h : n < 2 ^ 64) : Fits 20 (Nat.toDigits 10 n) where
  bytes_le := by
    rw [bytes_digits (Digits.toDigits n), Nat.length_toDigits_le_iff (by decide) (by decide)]
    exact h.trans (by decide)
  not_mem h := absurd (Digits.toDigits n _ h) (by decide)

theorem fits_text {n : ℕ} {t : List Char}
    (h : (decide (bytes t ≤ n) && t.all (· ≠ Char.ofNat 0)) = true) : Fits n t := by
  obtain ⟨hle, hall⟩ := Bool.and_eq_true_iff.1 h
  exact ⟨of_decide_eq_true hle, fun hmem => by simpa using all_eq_true.1 hall _ hmem⟩

theorem storable_marker {b : LogBuffer} (hlines : b.kept_lines ≤ b.max_lines.toNat)
    (hbytes : b.kept_bytes ≤ b.max_bytes.toNat) : Storable b.marker := by
  have hmax := b.max_lines.toNat_lt
  have hmax' := b.max_bytes.toNat_lt
  have hhead : Fits 60 "\x7b\"schema\":\"polis_jobs.truncated/1\",\"after_lines\":".toList :=
    fits_text (by decide +kernel)
  have hafter : Fits 20 ",\"after_bytes\":".toList := fits_text (by decide +kernel)
  have hlimit : Fits 20 ",\"max_lines\":".toList := fits_text (by decide +kernel)
  have hlimit' : Fits 20 ",\"max_bytes\":".toList := fits_text (by decide +kernel)
  have hclose : Fits 20 "\x7d".toList := fits_text (by decide +kernel)
  have hmarker := (((((((hhead.append (fits_toDigits (hlines.trans_lt hmax))).append hafter).append
    (fits_toDigits (hbytes.trans_lt hmax'))).append hlimit).append (fits_toDigits hmax)).append hlimit').append
      (fits_toDigits hmax')).append hclose
  exact ⟨hmarker.bytes_le.trans (by decide), hmarker.not_mem⟩

/-! ## What holds after any calls -/

/-- A row without its number. -/
def Row.content (r : Row) : String × List Char := (r.stream, r.line)

/-- The marker, once something was dropped. -/
def LogBuffer.marking (b : LogBuffer) : List (String × List Char) :=
  if b.truncated then [("truncated", b.marker)] else []

/-- The pieces `ps` were pushed and the texts `ts` given as manifest rows. -/
structure Inv (ps : List (String × List Char)) (ts : List (List Char)) (c : Capture) : Prop where
  seen : c.buffer.seen_lines = ps.length
  counted : c.buffer.seen_lines = c.buffer.kept_lines + c.buffer.dropped_lines
  truncated : c.buffer.truncated = true ↔ 0 < c.buffer.dropped_lines
  size : c.buffer.kept_bytes = ((ps.take c.buffer.kept_lines).map (bytes ·.2)).sum
  lines_le : c.buffer.kept_lines ≤ c.buffer.max_lines.toNat
  bytes_le : c.buffer.kept_bytes ≤ c.buffer.max_bytes.toNat
  rows : c.rows.map Row.content = ps.take c.buffer.kept_lines ++ c.buffer.marking
  manifests : c.manifests.map (·.line) = ts
  numbers : ((c.rows ++ c.manifests).map (·.seq)).Perm (List.range c.buffer.next_seq)
  ascending : (c.rows.map (·.seq)).Pairwise (· < ·)
  manifestsAscending : (c.manifests.map (·.seq)).Pairwise (· < ·)

variable {ps : List (String × List Char)} {ts : List (List Char)} {c : Capture}

theorem inv_new (max_lines max_bytes : UInt64) : Inv [] [] ⟨.new max_lines max_bytes, [], []⟩ where
  seen := rfl
  counted := rfl
  truncated := ⟨fun h => (nomatch h), fun h => (nomatch h)⟩
  size := rfl
  lines_le := Nat.zero_le _
  bytes_le := Nat.zero_le _
  rows := rfl
  manifests := rfl
  numbers := .nil
  ascending := .nil
  manifestsAscending := .nil

/-- No row has the next number. -/
theorem Inv.seq_lt (h : Inv ps ts c) {n : ℕ} (hn : n ∈ (c.rows ++ c.manifests).map (·.seq)) :
    n < c.buffer.next_seq := mem_range.1 (h.numbers.mem_iff.1 hn)

/-- The rows with one more that has the next number. -/
theorem Inv.numbers_concat (h : Inv ps ts c) (stream : String) (line : List Char) :
    ((c.rows ++ [Row.mk c.buffer.next_seq stream line] ++ c.manifests).map Row.seq).Perm
        (List.range (c.buffer.next_seq + 1)) ∧
      ((c.rows ++ [Row.mk c.buffer.next_seq stream line]).map Row.seq).Pairwise (· < ·) := by
  constructor
  · rw [range_succ, append_assoc, map_append, map_append]
    have hswap := (@perm_append_comm _ [c.buffer.next_seq] (c.manifests.map (·.seq))).append_left
      (c.rows.map (·.seq))
    refine hswap.trans ?_
    rw [← append_assoc, ← map_append]
    exact h.numbers.append_right _
  · rw [map_append, pairwise_append]
    refine ⟨h.ascending, pairwise_singleton _ _, fun m hm n hn => ?_⟩
    rw [mem_singleton.1 hn]
    exact h.seq_lt (by rw [map_append]; exact mem_append_left _ hm)

/-- A row from `enqueue` has the next number. -/
theorem rows_enqueue (b : LogBuffer) (taken manifests : List Row) (stream : String) (line : List Char) :
    Capture.rows ⟨b.enqueue stream line, taken, manifests⟩ =
      Capture.rows ⟨b, taken, manifests⟩ ++ [⟨b.next_seq, stream, line⟩] := by
  simp [Capture.rows, LogBuffer.enqueue]

theorem take_concat_of_le {α : Type*} {l : List α} {n : ℕ} (h : n ≤ l.length) (x : α) :
    (l ++ [x]).take n = l.take n := take_append_of_le_length h

/-- A piece that is kept is the next one: nothing was dropped before. -/
theorem Inv.keep (h : Inv ps ts c) {stream : String} {piece : List Char}
    (hrefuses : c.buffer.refuses piece = false) :
    Inv (ps ++ [(stream, piece)]) ts { c with buffer := c.buffer.pushPiece stream piece } := by
  have hpush : c.buffer.pushPiece stream piece = { c.buffer with
      seen_lines := c.buffer.seen_lines + 1
      kept_lines := c.buffer.kept_lines + 1
      kept_bytes := c.buffer.kept_bytes + bytes piece }.enqueue stream piece := by
    simp [LogBuffer.pushPiece, hrefuses]
  simp only [LogBuffer.refuses, Bool.or_eq_false_iff, decide_eq_false_iff_not, not_lt] at hrefuses
  obtain ⟨⟨htruncated, hlines⟩, hbytes⟩ := hrefuses
  have hdropped : c.buffer.dropped_lines = 0 := by
    have hiff := h.truncated
    rw [htruncated] at hiff
    simpa using hiff
  have hall : c.buffer.kept_lines = ps.length := by
    have hseen := h.seen
    have hcounted := h.counted
    omega
  have htake : ps.take c.buffer.kept_lines = ps := by rw [hall, take_length]
  have htake' : (ps ++ [(stream, piece)]).take (c.buffer.kept_lines + 1) = ps ++ [(stream, piece)] := by
    rw [hall]
    exact take_of_length_le (by simp)
  obtain ⟨hnumbers, hascending⟩ := h.numbers_concat stream piece
  rw [hpush]
  refine ⟨?_, ?_, h.truncated, ?_, hlines, hbytes, ?_, h.manifests, ?_, ?_, h.manifestsAscending⟩
  · have hseen := h.seen
    simpa [LogBuffer.enqueue] using hseen
  · have hcounted := h.counted
    simp only [LogBuffer.enqueue]
    omega
  · simp only [LogBuffer.enqueue, htake', map_append, map_cons, map_nil, sum_append,
      sum_singleton]
    rw [h.size, htake]
  · rw [rows_enqueue, map_append]
    have hrows : (Capture.rows c).map Row.content = ps := by
      rw [h.rows, htake, LogBuffer.marking, htruncated]
      exact append_nil _
    refine (congrArg₂ (· ++ ·) hrows rfl).trans ?_
    simp only [LogBuffer.enqueue, htake', LogBuffer.marking, htruncated]
    exact (append_nil _).symm
  · rw [rows_enqueue]
    exact hnumbers
  · rw [rows_enqueue]
    exact hascending

/-- A piece that is not kept leaves the rows, apart from the marker of the first one. -/
theorem Inv.drop (h : Inv ps ts c) {stream : String} {piece : List Char}
    (hrefuses : c.buffer.refuses piece = true) :
    Inv (ps ++ [(stream, piece)]) ts { c with buffer := c.buffer.pushPiece stream piece } := by
  have hseen := h.seen
  have hcounted := h.counted
  have hle : c.buffer.kept_lines ≤ ps.length := by omega
  have htake := take_concat_of_le hle (stream, piece)
  cases htruncated : c.buffer.truncated with
  | true =>
    have hpush : c.buffer.pushPiece stream piece = { c.buffer with
        seen_lines := c.buffer.seen_lines + 1
        dropped_lines := c.buffer.dropped_lines + 1 } := by
      simp [LogBuffer.pushPiece, hrefuses, htruncated]
    rw [hpush]
    refine ⟨by simpa using hseen, ?_, ?_, ?_, h.lines_le, h.bytes_le, ?_, h.manifests, h.numbers, h.ascending,
      h.manifestsAscending⟩
    · show c.buffer.seen_lines + 1 = c.buffer.kept_lines + (c.buffer.dropped_lines + 1)
      omega
    · exact ⟨fun _ => Nat.succ_pos _, fun _ => htruncated⟩
    · rw [htake]
      exact h.size
    · rw [htake]
      exact h.rows
  | false =>
    have hpush : c.buffer.pushPiece stream piece = { c.buffer with
        seen_lines := c.buffer.seen_lines + 1
        dropped_lines := c.buffer.dropped_lines + 1
        truncated := true }.enqueue "truncated" c.buffer.marker := by
      simp [LogBuffer.pushPiece, hrefuses, htruncated]
    obtain ⟨hnumbers, hascending⟩ := h.numbers_concat "truncated" c.buffer.marker
    rw [hpush]
    refine ⟨?_, ?_, ?_, ?_, h.lines_le, h.bytes_le, ?_, h.manifests, ?_, ?_, h.manifestsAscending⟩
    · simpa [LogBuffer.enqueue] using hseen
    · show c.buffer.seen_lines + 1 = c.buffer.kept_lines + (c.buffer.dropped_lines + 1)
      omega
    · exact ⟨fun _ => Nat.succ_pos _, fun _ => rfl⟩
    · simp only [LogBuffer.enqueue]
      rw [htake]
      exact h.size
    · rw [rows_enqueue, map_append]
      have hrows : (Capture.rows c).map Row.content = ps.take c.buffer.kept_lines := by
        rw [h.rows, LogBuffer.marking, htruncated]
        exact append_nil _
      refine (congrArg₂ (· ++ ·) hrows rfl).trans ?_
      simp only [LogBuffer.enqueue, htake]
      rfl
    · rw [rows_enqueue]
      exact hnumbers
    · rw [rows_enqueue]
      exact hascending

theorem Inv.pushPieces (h : Inv ps ts c) (stream : String) (pieces : List (List Char)) :
    Inv (ps ++ pieces.map (stream, ·)) ts
      { c with buffer := pieces.foldl (fun b piece => b.pushPiece stream piece) c.buffer } := by
  induction pieces generalizing ps c with
  | nil => simpa using h
  | cons piece pieces ih =>
    have hstep : Inv (ps ++ [(stream, piece)]) ts
        { c with buffer := c.buffer.pushPiece stream piece } := by
      cases hrefuses : c.buffer.refuses piece with
      | true => exact h.drop hrefuses
      | false => exact h.keep hrefuses
    have hrest := ih hstep
    rwa [append_assoc] at hrest

/-- What is taken is no longer pending. -/
theorem rows_take (c : Capture) : (c.next .take).rows = c.rows := by
  simp [Capture.next, Capture.rows, LogBuffer.take]

theorem Inv.take (h : Inv ps ts c) : Inv ps ts (c.next .take) := by
  have hrows := rows_take c
  exact { h with
    rows := hrows ▸ h.rows
    numbers := by rw [hrows]; exact h.numbers
    ascending := by rw [hrows]; exact h.ascending }

theorem Inv.manifest_row (h : Inv ps ts c) (text : List Char) :
    Inv ps (ts ++ [text]) (c.next (.manifest_row text)) := by
  refine { h with manifests := ?_, numbers := ?_, manifestsAscending := ?_ }
  · simp [Capture.next, LogBuffer.manifest_row, h.manifests]
  · have hnumbers := h.numbers.append_right [c.buffer.next_seq]
    rw [← range_succ] at hnumbers
    refine List.Perm.trans ?_ hnumbers
    simp [Capture.next, Capture.rows, LogBuffer.manifest_row]
  · simp only [Capture.next, LogBuffer.manifest_row, map_append, pairwise_append]
    refine ⟨h.manifestsAscending, pairwise_singleton _ _, fun m hm n hn => ?_⟩
    rw [mem_singleton.1 hn]
    exact h.seq_lt (by rw [map_append]; exact mem_append_right _ hm)

theorem Inv.next (h : Inv ps ts c) (call : Call) :
    Inv (ps ++ pushed [call]) (ts ++ manifestTexts [call]) (c.next call) := by
  cases call with
  | push stream line =>
    have hpush := h.pushPieces stream (split_line line)
    simpa [pushed, manifestTexts, Capture.next, LogBuffer.push] using hpush
  | take => simpa [pushed, manifestTexts] using h.take
  | manifest_row text => simpa [pushed, manifestTexts] using h.manifest_row text

/-! ## Runs -/

theorem pushed_append (calls calls' : List Call) : pushed (calls ++ calls') = pushed calls ++ pushed calls' := by
  induction calls with
  | nil => rfl
  | cons call calls ih =>
    cases call with
    | push stream line => simp [pushed, ih]
    | take => exact ih
    | manifest_row text => exact ih

theorem manifestTexts_append (calls calls' : List Call) :
    manifestTexts (calls ++ calls') = manifestTexts calls ++ manifestTexts calls' := by
  induction calls with
  | nil => rfl
  | cons call calls ih =>
    cases call with
    | push | take => exact ih
    | manifest_row text => simp [manifestTexts, ih]

theorem inv_run (max_lines max_bytes : UInt64) (calls : List Call) :
    Inv (pushed calls) (manifestTexts calls) (Capture.run max_lines max_bytes calls) := by
  induction calls using List.reverseRecOn with
  | nil => exact inv_new max_lines max_bytes
  | append_singleton calls call ih =>
    rw [pushed_append, manifestTexts_append, Capture.run, foldl_append]
    exact ih.next call

/-- No call changes the limits. -/
theorem limits_next (c : Capture) (call : Call) : (c.next call).buffer.max_lines = c.buffer.max_lines ∧
    (c.next call).buffer.max_bytes = c.buffer.max_bytes := by
  cases call with
  | push stream line =>
    have hpiece : ∀ (b : LogBuffer) (piece : List Char), (b.pushPiece stream piece).max_lines = b.max_lines ∧
        (b.pushPiece stream piece).max_bytes = b.max_bytes := by
      intro b piece
      unfold LogBuffer.pushPiece
      dsimp only
      split
      · split
        · exact ⟨rfl, rfl⟩
        · exact ⟨rfl, rfl⟩
      · exact ⟨rfl, rfl⟩
    have hfold : ∀ (pieces : List (List Char)) (b : LogBuffer),
        (pieces.foldl (fun b piece => b.pushPiece stream piece) b).max_lines = b.max_lines ∧
          (pieces.foldl (fun b piece => b.pushPiece stream piece) b).max_bytes = b.max_bytes := by
      intro pieces
      induction pieces with
      | nil => exact fun b => ⟨rfl, rfl⟩
      | cons piece pieces ih =>
        intro b
        obtain ⟨hlines, hbytes⟩ := ih (b.pushPiece stream piece)
        exact ⟨hlines.trans (hpiece b piece).1, hbytes.trans (hpiece b piece).2⟩
    exact hfold (split_line line) c.buffer
  | take | manifest_row => exact ⟨rfl, rfl⟩

theorem limits_run (max_lines max_bytes : UInt64) (calls : List Call) :
    (Capture.run max_lines max_bytes calls).buffer.max_lines = max_lines ∧
      (Capture.run max_lines max_bytes calls).buffer.max_bytes = max_bytes := by
  induction calls using List.reverseRecOn with
  | nil => exact ⟨rfl, rfl⟩
  | append_singleton calls call ih =>
    rw [Capture.run, foldl_append]
    obtain ⟨hlines, hbytes⟩ := limits_next (Capture.run max_lines max_bytes calls) call
    exact ⟨hlines.trans ih.1, hbytes.trans ih.2⟩

/-- The rows of `push` can be stored. -/
theorem Inv.storable {calls : List Call} (h : Inv (pushed calls) ts c) : ∀ r ∈ c.rows, Storable r.line := by
  intro r hr
  have hcontent : r.content ∈ c.rows.map Row.content := mem_map_of_mem hr
  rw [h.rows] at hcontent
  rcases mem_append.1 hcontent with hkept | hmarker
  · exact storable_of_mem_pushed (mem_of_mem_take hkept)
  · unfold LogBuffer.marking at hmarker
    split at hmarker
    · have hline : r.line = c.buffer.marker := congrArg Prod.snd (mem_singleton.1 hmarker)
      rw [hline]
      exact storable_marker h.lines_le h.bytes_le
    · cases hmarker

/-- After any calls the rows are numbered without gaps, those of `push` can be stored and are a first part of
the pieces within the limits, with one marker after them if anything was dropped, and a manifest row has the
text that was given. -/
theorem log_lines (max_lines max_bytes : UInt64) (calls : List Call) :
    (∀ line, (split_line line).flatten = replaceNul line ∧ ∀ p ∈ split_line line, Storable p) ∧
    let c := Capture.run max_lines max_bytes calls
    ((c.rows ++ c.manifests).map (·.seq)).Perm (List.range c.buffer.next_seq) ∧
    (c.rows.map (·.seq)).Pairwise (· < ·) ∧ (c.manifests.map (·.seq)).Pairwise (· < ·) ∧
    (∀ r ∈ c.rows, Storable r.line) ∧ c.manifests.map (·.line) = manifestTexts calls ∧
    ∃ kept dropped, pushed calls = kept ++ dropped ∧
      kept.length ≤ max_lines.toNat ∧ (kept.map (bytes ·.2)).sum ≤ max_bytes.toNat ∧
      c.rows.map Row.content = kept ++ (if dropped = [] then [] else [("truncated", c.buffer.marker)]) ∧
      c.buffer.kept_lines = kept.length ∧ c.buffer.dropped_lines = dropped.length ∧
      c.buffer.seen_lines = kept.length + dropped.length := by
  refine ⟨fun line => ⟨flatten_split_line line, fun p hp => storable_of_mem_split_line hp⟩, ?_⟩
  intro c
  have h : Inv (pushed calls) (manifestTexts calls) c := inv_run max_lines max_bytes calls
  obtain ⟨hmaxLines, hmaxBytes⟩ := limits_run max_lines max_bytes calls
  have hseen := h.seen
  have hcounted := h.counted
  have hkept : ((pushed calls).take c.buffer.kept_lines).length = c.buffer.kept_lines := by
    rw [length_take]
    omega
  have hdropped : ((pushed calls).drop c.buffer.kept_lines).length = c.buffer.dropped_lines := by
    rw [length_drop]
    omega
  refine ⟨h.numbers, h.ascending, h.manifestsAscending, h.storable, h.manifests,
    (pushed calls).take c.buffer.kept_lines, (pushed calls).drop c.buffer.kept_lines,
    (take_append_drop _ _).symm, ?_, ?_, ?_, hkept.symm, hdropped.symm, ?_⟩
  · rw [hkept, ← hmaxLines]
    exact h.lines_le
  · rw [← h.size, ← hmaxBytes]
    exact h.bytes_le
  · rw [h.rows, LogBuffer.marking]
    congr 1
    have hiff := h.truncated
    rw [← hdropped, length_pos_iff] at hiff
    by_cases hnil : (pushed calls).drop c.buffer.kept_lines = []
    · rw [if_pos hnil, if_neg fun htruncated => hiff.1 htruncated hnil]
    · rw [if_neg hnil, if_pos (hiff.2 hnil)]
  · rw [hkept, hdropped]
    exact hcounted

/-- A manifest row keeps a NUL that it is given. -/
theorem manifest_row_not_storable : ¬ ∀ (max_lines max_bytes : UInt64) (calls : List Call),
    ∀ r ∈ (Capture.run max_lines max_bytes calls).rows ++ (Capture.run max_lines max_bytes calls).manifests,
      Storable r.line := by
  intro hall
  have hrow := hall 10 100 [.manifest_row [Char.ofNat 0]] ⟨0, "manifest", [Char.ofNat 0]⟩ (by decide)
  exact hrow.2 (by decide)

end Polis.Queue.Logs
