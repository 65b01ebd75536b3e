import Polis.Common.Csv
import Polis.Serving.ReportExportRead
import Polis.Serving.ReportExportTheorems

/-!
# The service exports what the server does

Where the service answers, its body is that of the server for the same rows, and the text of every export is
read back as records of one width with the texts of the conversation unchanged.

Reference: `queue-rs/polis-api/src/report_export.rs`, `server/src/report.ts`.
-/

namespace Polis.ReportExport.Service

open List Option Nat

variable {kind : Kind} {created : Option ℤ} {s word : Text}
variable {selected : OrderedMap ℤ Vote}

/-! ## Dates -/

/-- A text without white space. -/
def Solid (s : Text) : Prop := ∀ c ∈ s, c.isWhitespace = false

instance (s : Text) : Decidable (Solid s) := List.decidableBAll _ s

theorem Solid.append (hs : Solid s) (hw : Solid word) : Solid (s ++ word) := fun c hc =>
  (mem_append.1 hc).elim (hs c) (hw c)

theorem solid_of_digits (h : Digits s) : Solid s := fun c hc => by
  obtain ⟨hlow, hhigh⟩ := isDigit_toNat (h c hc)
  have hne : ∀ d : Char, d.toNat < 48 → c ≠ d := by
    rintro d hd rfl
    omega
  simp only [Char.isWhitespace, Bool.or_eq_false_iff, decide_eq_false_iff_not]
  exact ⟨⟨⟨hne ' ' (by decide), hne '\t' (by decide)⟩, hne '\r' (by decide)⟩, hne '\n' (by decide)⟩

theorem splitWhitespace_word (open' : Text) (hword : Solid word) (hne : open' ++ word ≠ []) (s : Text) :
    splitWhitespace open' (word ++ ' ' :: s) = (open' ++ word) :: splitWhitespace [] s := by
  induction word generalizing open' with
  | nil =>
    rw [append_nil] at hne
    simp [splitWhitespace, hne, Char.isWhitespace]
  | cons c word ih =>
    obtain ⟨hc, hword⟩ := forall_mem_cons.1 hword
    rw [cons_append, splitWhitespace, hc, ih (open' ++ [c]) hword (by simp)]
    simp

theorem splitWhitespace_last (open' : Text) (hword : Solid word) (hne : open' ++ word ≠ []) :
    splitWhitespace open' word = [open' ++ word] := by
  induction word generalizing open' with
  | nil =>
    rw [append_nil] at hne
    simp [splitWhitespace, hne]
  | cons c word ih =>
    obtain ⟨hc, hword⟩ := forall_mem_cons.1 hword
    rw [splitWhitespace, hc]
    simp only [Bool.false_eq_true, if_false]
    rw [ih (open' ++ [c]) hword (by simp)]
    simp

theorem padded_digits (width n : ℕ) : Digits (padded width n) :=
  (Digits.zeros _).append (Digits.toDigits n)

theorem padded_ne_nil (width n : ℕ) : padded width n ≠ [] := fun h => by
  have := (append_eq_nil_iff.1 h).2
  exact absurd this toDigits_ne_nil

theorem num_natCast (n : ℕ) : num n = Nat.toDigits 10 n := by
  rw [num, show toString (n : ℤ) = toString n from rfl, toString_eq_repr, Nat.repr, String.toList_ofList]

/-- A number of four digits or more needs no zeros before it. -/
theorem padded_four {n : ℕ} (h : 1000 ≤ n) : padded 4 n = Nat.toDigits 10 n := by
  have hlen : 4 ≤ (Nat.toDigits 10 n).length := by
    by_contra hlt
    have hvalue := digitsValue_lt (Digits.toDigits n)
    rw [digitsValue_toDigits] at hvalue
    have := Nat.pow_le_pow_right (show 0 < 10 by decide) (show (Nat.toDigits 10 n).length ≤ 3 by omega)
    omega
  rw [padded, Nat.sub_eq_zero_of_le hlen]
  rfl

/-- The names of the days from Thursday on are those from Sunday on, four days later. -/
theorem days_eq : ∀ r < 7, DAYS.getD r [] = dayNames.getD ((r + 4) % 7) [] ∧ Solid (DAYS.getD r []) ∧
    (DAYS.getD r [] ++ [',']).rdropWhile (· = ',') = DAYS.getD r [] := by
  decide +kernel

theorem months_solid : ∀ m < 12, Solid (MONTHS.getD m []) ∧ MONTHS.getD m [] ≠ [] := by
  decide +kernel

/-- The words of a date in the header of a response. -/
theorem split_words {weekday day month year time : Text} (hweekday : Solid weekday) (hday : Solid day)
    (hmonth : Solid month) (hyear : Solid year) (htime : Solid time) (hday' : day ≠ []) (hmonth' : month ≠ [])
    (hyear' : year ≠ []) (htime' : time ≠ []) :
    splitWhitespace [] (weekday ++ ',' :: ' ' :: day ++ ' ' :: month ++ ' ' :: year ++ ' ' :: time ++
        " GMT".toList) =
      [weekday ++ [','], day, month, year, time, "GMT".toList] := by
  have hgmt : " GMT".toList = ' ' :: "GMT".toList := by decide
  have htext : weekday ++ ',' :: ' ' :: day ++ ' ' :: month ++ ' ' :: year ++ ' ' :: time ++ " GMT".toList =
      (weekday ++ [',']) ++ ' ' :: (day ++ ' ' :: (month ++ ' ' :: (year ++ ' ' :: (time ++
        ' ' :: "GMT".toList)))) := by
    rw [hgmt]
    simp
  rw [htext, splitWhitespace_word [] (hweekday.append (by decide)) (by simp),
    splitWhitespace_word [] hday hday', splitWhitespace_word [] hmonth hmonth',
    splitWhitespace_word [] hyear hyear', splitWhitespace_word [] htime htime',
    splitWhitespace_last [] (by decide) (by decide)]
  rfl

/-- The time of day, in seconds. -/
def clock (secs : ℕ) : Text :=
  padded 2 (secs / 3600) ++ ':' :: padded 2 (secs % 3600 / 60) ++ ':' :: padded 2 (secs % 60)

theorem clock_solid (secs : ℕ) : Solid (clock secs) := by
  have htwo : ∀ k, Solid (padded 2 k) := fun k => solid_of_digits (padded_digits 2 k)
  have hcolon : ∀ {s : Text}, Solid s → Solid (':' :: s) := fun hs => forall_mem_cons.2 ⟨rfl, hs⟩
  exact ((htwo _).append (hcolon (htwo _))).append (hcolon (htwo _))

theorem clock_ne_nil (secs : ℕ) : clock secs ≠ [] := by simp [clock]

theorem split_http_date (n : ℕ) {date : Calendar.Civil} (hdate : Calendar.civilFromDays (n / 86400) = date) :
    splitWhitespace [] (http_date n) = [DAYS.getD (n / 86400 % 7) [] ++ [','], padded 2 date.day,
      MONTHS.getD (date.month - 1) [], num date.year, clock (n % 86400), "GMT".toList] := by
  obtain ⟨hlow, hhigh⟩ := hdate ▸ Calendar.civilFromDays_month (n / 86400)
  have hlate := hdate ▸ Calendar.civilFromDays_year (n / 86400)
  obtain ⟨-, hweekday, -⟩ := days_eq (n / 86400 % 7) (mod_lt _ (by decide))
  obtain ⟨hmonth, hmonth'⟩ := months_solid (date.month - 1) (by omega)
  have hyear : num date.year = Nat.toDigits 10 date.year.toNat := by
    rw [← num_natCast, Int.toNat_of_nonneg (by omega)]
  have hsolid : Solid (num date.year) := hyear ▸ solid_of_digits (Digits.toDigits _)
  have hyear' : num date.year ≠ [] := hyear ▸ toDigits_ne_nil
  have htext : http_date n = DAYS.getD (n / 86400 % 7) [] ++ ',' :: ' ' :: padded 2 date.day ++
      ' ' :: MONTHS.getD (date.month - 1) [] ++ ' ' :: num date.year ++ ' ' :: clock (n % 86400) ++
      " GMT".toList := by
    simp only [http_date, hdate, clock, append_assoc, cons_append]
  rw [htext]
  exact split_words hweekday (solid_of_digits (padded_digits 2 _)) hmonth hsolid (clock_solid _)
    (padded_ne_nil 2 _) hmonth' hyear' (clock_ne_nil _)

/-- The date that the server writes, by the parts that the service writes. -/
theorem formatDatetime_eq (m : ℕ) (hm : m ≤ 8640000000000000) {date : Calendar.Civil}
    (hdate : Calendar.civilFromDays (m / 1000 / 86400) = date) :
    formatDatetime (some m) = DAYS.getD (m / 1000 / 86400 % 7) [] ++ ' ' :: MONTHS.getD (date.month - 1) [] ++
      ' ' :: padded 2 date.day ++ ' ' :: num date.year ++ ' ' :: clock (m / 1000 % 86400) ++
      " GMT+0000 (Coordinated Universal Time)".toList := by
  have hlate := hdate ▸ Calendar.civilFromDays_year (m / 1000 / 86400)
  have hdays : (m : ℤ) / 86400000 = ((m / 1000 / 86400 : ℕ) : ℤ) := by omega
  have hrest : ((m : ℤ) % 86400000 / 1000).toNat = m / 1000 % 86400 := by omega
  have hweekday : ((((m / 1000 / 86400 : ℕ) : ℤ) + 4) % 7).toNat = (m / 1000 / 86400 % 7 + 4) % 7 := by omega
  have hminutes : m / 1000 % 86400 / 60 % 60 = m / 1000 % 86400 % 3600 / 60 := by omega
  have hyear : padded 4 date.year.natAbs = num date.year := by
    rw [padded_four (by omega), ← num_natCast, Int.natAbs_of_nonneg (by omega)]
  have hzone : " GMT".toList ++ "+0000".toList ++ " (Coordinated Universal Time)".toList =
      " GMT+0000 (Coordinated Universal Time)".toList := by simp
  obtain ⟨hname, -, -⟩ := days_eq (m / 1000 / 86400 % 7) (mod_lt _ (by decide))
  have hclip : (m : ℤ).natAbs ≤ 8640000000000000 := (Int.natAbs_natCast m).trans_le hm
  have hformat : formatDatetime (some (m : ℤ)) = dateToString m := if_pos hclip
  have hmonths : monthNames = MONTHS := rfl
  have hsign : ¬ date.year < 0 := by omega
  rw [hformat, dateToString, hdays, hrest, hweekday, ← Calendar.civilFromDays_eq, hdate, hname, ← hzone, hmonths]
  simp only [hminutes, if_neg hsign, hyear, clock, append_assoc,
    cons_append, nil_append]

/-- What is written of a time is what the server writes. -/
theorem date_eq {timestamp datetime : Text} (h : date created = some (timestamp, datetime)) :
    timestamp = parsedSeconds created ∧ datetime = formatDatetime created ∧ ∀ ms ∈ created, 0 ≤ ms := by
  cases created with
  | none =>
    obtain ⟨rfl, rfl⟩ := Prod.mk.inj (Option.some.inj h)
    exact ⟨rfl, rfl, nofun⟩
  | some ms =>
    rw [date] at h
    split at h
    case isFalse => cases h
    next hrange =>
    obtain ⟨m, rfl⟩ := Int.eq_ofNat_of_zero_le hrange.1
    have hseconds : ((m : ℤ) / 1000).toNat = m / 1000 := by omega
    obtain ⟨date, hdate⟩ : ∃ date, Calendar.civilFromDays (m / 1000 / 86400) = date := ⟨_, rfl⟩
    obtain ⟨-, -, hdrop⟩ := days_eq (m / 1000 / 86400 % 7) (mod_lt _ (by decide))
    simp only [hseconds, split_http_date (m / 1000) hdate, hdrop] at h
    obtain ⟨rfl, rfl⟩ := Prod.mk.inj (Option.some.inj h)
    refine ⟨rfl, (formatDatetime_eq m (by omega) hdate).symm, fun ms' hms => ?_⟩
    obtain rfl := Option.some.inj hms
    exact hrange.1

/-! ## What is read -/

section Read

variable {rows : List CommentRow} {read : List CommentRow} {voteRows : List VoteRow} {readVotes : List Vote}

theorem mapM_some {α β : Type*} {f : α → Option β} {l : List α} {r : List β} (h : l.mapM f = some r) :
    List.Forall₂ (fun a b => f a = some b) l r := by
  induction l generalizing r with
  | nil =>
    obtain rfl : [] = r := by simpa using h
    exact .nil
  | cons a l ih =>
    rw [mapM_cons, bind_eq_bind, bind_eq_some_iff] at h
    obtain ⟨b, hb, h⟩ := h
    obtain ⟨r', hr', h⟩ := bind_eq_some_iff.1 h
    obtain rfl : b :: r' = r := by simpa using h
    exact .cons hb (ih hr')

theorem eq_map_of_forall₂ {α β : Type*} {g : α → β} {l : List α} {r : List β}
    (h : List.Forall₂ (fun a b => b = g a) l r) : r = l.map g := by
  induction h with
  | nil => rfl
  | cons hb _ ih => rw [hb, ih, map_cons]

theorem forall_of_forall₂ {α β : Type*} {P : α → Prop} {l : List α} {r : List β}
    (h : List.Forall₂ (fun a _ => P a) l r) : ∀ a ∈ l, P a := by
  induction h with
  | nil => exact fun _ ha => nomatch ha
  | cons ha _ ih => exact forall_mem_cons.2 ⟨ha, ih⟩

theorem commentsFrom_eq {bytes : ℕ} (h : commentsFrom bytes rows = some read) : read = rows := by
  induction rows generalizing bytes read with
  | nil => exact (Option.some.inj h).symm
  | cons row rows ih =>
    simp only [commentsFrom] at h
    split at h
    · cases h
    obtain ⟨rest, hrest, rfl⟩ := map_eq_some_iff.1 h
    rw [ih hrest]

/-- The comments that are read are all of them. -/
theorem comments_eq (h : comments rows = some read) : read = rows := by
  obtain ⟨kept, hkept, h⟩ := bind_eq_some_iff.1 h
  rw [bounded] at hkept
  split at hkept
  case isFalse => cases hkept
  obtain rfl := Option.some.inj hkept
  exact commentsFrom_eq h

/-- The votes that are read are all of them, and no pid is negative. -/
theorem votes_eq (h : votes kind voteRows = some readVotes) :
    readVotes = voteRows.map (readVote kind) ∧ ∀ row ∈ voteRows, 0 ≤ (readVote kind row).pid := by
  obtain ⟨kept, hkept, hread⟩ := bind_eq_some_iff.1 h
  rw [bounded] at hkept
  split at hkept
  case isFalse => cases hkept
  obtain rfl := Option.some.inj hkept
  have hall := mapM_some hread
  have hvotes : List.Forall₂ (fun row v => v = readVote kind row ∧ 0 ≤ (readVote kind row).pid) voteRows
      readVotes := by
    refine hall.imp fun row v hv => ?_
    split at hv
    · cases hv
    next hpid => exact ⟨(Option.some.inj hv).symm, not_lt.1 hpid⟩
  exact ⟨eq_map_of_forall₂ (hvotes.imp fun _ _ h => h.1), forall_of_forall₂ (hvotes.imp fun _ _ h => h.2)⟩

theorem readVote_important (row : VoteRow) (h : kind ≠ .ParticipantVotes) :
    (readVote kind row).important = row.high_priority.getD false := by
  cases kind <;> first | rfl | exact absurd rfl h

theorem getD_toNat (b : Option Bool) : (b.getD false).toNat = if b = some true then 1 else 0 := by
  rcases b with _ | _ | _ <;> rfl

@[simp] theorem readVote_tid (row : VoteRow) : (readVote kind row).tid = row.tid := by
  cases kind <;> rfl

@[simp] theorem readVote_value (row : VoteRow) : (readVote kind row).value = row.vote := by
  cases kind <;> rfl

theorem readVote_pid (row : VoteRow) (h : kind ≠ .Comments) : (readVote kind row).pid = row.pid := by
  cases kind <;> first | rfl | exact absurd rfl h

end Read

/-! ## The sign of a vote -/

def choice : ReportExport.Vote → VoteChoice
  | .agree => .Agree
  | .disagree => .Disagree
  | .pass => .Pass

theorem decode_eq (raw : RawVote) : StorageConvention.CURRENT.decode raw = (storageToSemantic raw).map choice := by
  cases raw with
  | none => rfl
  | some value =>
    by_cases hagree : value = -1
    · subst hagree
      rfl
    by_cases hdisagree : value = 1
    · subst hdisagree
      rfl
    by_cases hpass : value = 0
    · subst hpass
      rfl
    simp [StorageConvention.decode, StorageConvention.CURRENT, storageToSemantic, toSemantic,
      STORAGE_AGREE_VALUE, hagree, hdisagree, hpass]

theorem export_eq (raw : RawVote) :
    StorageConvention.CURRENT.export_preserving_invalid raw = storageToExport raw := by
  rw [storageToExport_eq]
  cases raw with
  | none => rfl
  | some value =>
    rw [StorageConvention.export_preserving_invalid, StorageConvention.CURRENT]
    simp

theorem escape_eq (s : Text) : escape s = formatEscapedText s := rfl

/-! ## comments.csv -/

section Comments

variable {rows : List CommentRow} {voteRows : List VoteRow}

/-- A comment with the votes on it. -/
def statsOf (voteRows : List VoteRow) (comment : CommentRow) : CommentStats :=
  (voteRows.filter (·.tid = comment.tid)).foldl CommentStats.count (.fresh comment)

theorem statsOf_comment (comment : CommentRow) : (statsOf voteRows comment).comment = comment :=
  (foldl_count _ _).1

/-- Counting on the comments, each at its position, and sorting them is counting on the sorted comments. -/
theorem sendCommentSummary_eq (htids : (rows.map (·.tid)).Nodup) :
    sendCommentSummary rows voteRows =
      (rows.insertionSort fun a b => b.velocity ≤ a.velocity).map (statsOf voteRows) := by
  have hcounted : voteRows.foldl (countVote (commentsByTid rows)) (rows.map .fresh) =
      rows.map (statsOf voteRows) := by
    refine ext_getElem? fun i => ?_
    rw [foldl_countVote, getElem?_map, getElem?_map, Option.map_map]
    cases hi : rows[i]? with
    | none => rfl
    | some comment =>
      rw [map_some, map_some, Function.comp_apply, statsOf]
      congr 2
      refine filter_congr fun v _ => ?_
      rw [decide_eq_decide, commentsByTid_eq_some htids, hi]
      simp [eq_comm]
  rw [sendCommentSummary, hcounted]
  refine (map_insertionSort _ _ _ _ fun a _ b _ => ?_).symm
  rw [statsOf_comment, statsOf_comment]

/-- The counts of the loop are those that are written into the comment. -/
theorem foldl_add (l : List VoteRow) {counts : Counts} {stats : CommentStats}
    (h : counts = ⟨stats.agrees, stats.disagrees, stats.importance⟩) :
    (l.map (readVote .Comments)).foldl Counts.add counts =
      ⟨(l.foldl CommentStats.count stats).agrees, (l.foldl CommentStats.count stats).disagrees,
        (l.foldl CommentStats.count stats).importance⟩ := by
  induction l generalizing counts stats with
  | nil => exact h
  | cons row l ih =>
    rw [map_cons, foldl_cons, foldl_cons]
    refine ih ?_
    subst h
    rw [Counts.add, CommentStats.count, readVote_value, decode_eq, readVote_important row (by decide), getD_toNat]
    cases storageToSemantic row.vote with
    | none => dsimp only [Option.map]; split <;> rfl
    | some vote => cases vote <;> (dsimp only [Option.map, choice]; split <;> rfl)

/-- The line of a comment is the row that the server formats. -/
theorem commentLine_eq {row : CommentRow} {line : Text}
    (h : commentLine (voteRows.map (readVote .Comments)) row = some line) :
    line = formatCSVRow (statsOf voteRows row) (commentFormatters formatDatetime) ++ sep := by
  obtain ⟨⟨timestamp, datetime⟩, hdate, rfl⟩ := map_eq_some_iff.1 h
  obtain ⟨rfl, rfl, -⟩ := date_eq hdate
  have hfilter : (voteRows.map (readVote .Comments)).filter (fun v => decide (v.tid = row.tid)) =
      (voteRows.filter (·.tid = row.tid)).map (readVote .Comments) := by
    rw [List.filter_map]
    congr 1
  have hcounts := foldl_add (voteRows.filter (·.tid = row.tid)) (Eq.refl
    (Counts.mk (CommentStats.fresh row).agrees (CommentStats.fresh row).disagrees
      (CommentStats.fresh row).importance))
  have hfresh : Counts.mk (CommentStats.fresh row).agrees (CommentStats.fresh row).disagrees
      (CommentStats.fresh row).importance = ⟨0, 0, 0⟩ := rfl
  rw [hfresh, ← statsOf] at hcounts
  dsimp only
  rw [hfilter, hcounts]
  simp [formatCSVRow, commentFormatters, joined, List.intercalate, sep, escape_eq, statsOf_comment]

theorem commentsBody_eq (htids : (rows.map (·.tid)).Nodup) {body : Text}
    (h : commentsBody rows (voteRows.map (readVote .Comments)) = some body) :
    body = commentsCsv formatDatetime rows voteRows := by
  obtain ⟨lines, hlines, rfl⟩ := map_eq_some_iff.1 h
  have hall : lines = (rows.insertionSort fun a b => b.velocity ≤ a.velocity).map fun row =>
      formatCSVRow (statsOf voteRows row) (commentFormatters formatDatetime) ++ sep :=
    eq_map_of_forall₂ ((mapM_some hlines).imp fun _ _ h => commentLine_eq h)
  have hheader : formatCSVHeaders (commentFormatters formatDatetime) ++ sep =
      "timestamp,datetime,comment-id,author-id,agrees,disagrees,moderated,importance,comment-body\n".toList := by
    simp [formatCSVHeaders, commentFormatters, joined, sep, intercalate]
  rw [commentsCsv, formatCSV, hheader, sendCommentSummary_eq htids, hall, flatMap_map, flatMap_def]

end Comments

/-! ## votes.csv -/

theorem voteLine_eq {row : VoteRow} {line : Text} (h : voteLine (readVote .Votes row) = some line) :
    line = formatCSVRow row (voteFormatters formatDatetime) ++ sep := by
  obtain ⟨⟨timestamp, datetime⟩, hdate, rfl⟩ := map_eq_some_iff.1 h
  obtain ⟨rfl, rfl, -⟩ := date_eq hdate
  have hcreated : (readVote .Votes row).created = row.created := rfl
  have hseconds : (if row.created = none then ['0'] else parsedSeconds row.created) = floorSeconds row.created := by
    cases row.created with
    | none => decide
    | some ms => rfl
  have himportant : ((readVote .Votes row).important.toNat : ℤ) = if row.high_priority = some true then 1 else 0 := by
    rw [readVote_important row (by decide), getD_toNat]
    split <;> rfl
  dsimp only
  rw [hcreated, hseconds, himportant, readVote_value, export_eq, readVote_tid, readVote_pid row (by decide)]
  simp [formatCSVRow, voteFormatters, joined, List.intercalate, sep]

theorem votesChunks_eq {rows : List VoteRow} {chunks : List Text}
    (h : votesChunks (rows.map (readVote .Votes)) = some chunks) : chunks = sendVotesSummary formatDatetime rows := by
  obtain ⟨lines, hlines, rfl⟩ := map_eq_some_iff.1 h
  have hall : lines = rows.map fun row => formatCSVRow row (voteFormatters formatDatetime) ++ sep :=
    eq_map_of_forall₂ ((List.forall₂_map_left_iff.1 (mapM_some hlines)).imp fun _ _ h => voteLine_eq h)
  have hheader : formatCSVHeaders (voteFormatters formatDatetime) ++ sep =
      "timestamp,datetime,comment-id,voter-id,vote,important\n".toList := by
    simp [formatCSVHeaders, voteFormatters, joined, sep, intercalate]
  rw [sendVotesSummary, hheader, hall]

/-! ## The exports of participants -/

theorem intercalate_cons (c : Char) (a : Text) (rest : List Text) :
    [c].intercalate (a :: rest) = a ++ rest.flatMap (c :: ·) := by
  induction rest generalizing a with
  | nil => simp [List.intercalate]
  | cons b rest ih =>
    have hstep : [c].intercalate (a :: b :: rest) = a ++ c :: [c].intercalate (b :: rest) := by
      simp [List.intercalate]
    rw [hstep, ih, flatMap_cons, cons_append]

theorem joined_cons (a : Text) (rest : List Text) : joined (a :: rest) = a ++ rest.flatMap (',' :: ·) :=
  intercalate_cons ',' a rest

section Participants

variable {rows byTid : List CommentRow} {voteRows : List VoteRow} {p : ℤ}

/-- Both servers write the statements in the order of their tids. -/
theorem ids_eq (htids : (rows.map (·.tid)).Nodup) (hordered : OrderedBy (·.tid) rows byTid) :
    (rows.insertionSort fun a b => a.tid < b.tid ∨ a.tid = b.tid ∧ createdLe a.created b.created).map (·.tid) =
      byTid.map (·.tid) := by
  -- Distinct tids leave nothing for the times to decide.
  have hle : ∀ a ∈ rows, ∀ b ∈ rows, (a.tid < b.tid ∨ a.tid = b.tid ∧ createdLe a.created b.created) ↔
      a.tid ≤ b.tid := by
    intro a ha b hb
    constructor
    · rintro (hlt | ⟨heq, -⟩)
      · exact hlt.le
      · exact heq.le
    · intro hle
      rcases hle.lt_or_eq with hlt | heq
      · exact .inl hlt
      · obtain rfl : a = b := inj_on_of_nodup_map htids ha hb heq
        refine .inr ⟨rfl, ?_⟩
        cases a.created with
        | none => rfl
        | some ms => simp [createdLe]
  rw [map_insertionSort _ _ _ _ hle]
  refine List.Perm.eq_of_pairwise (fun a b _ _ => le_antisymm) (pairwise_insertionSort (· ≤ ·) _)
    (pairwise_map.2 hordered.sorted) ?_
  exact (perm_insertionSort _ _).trans (hordered.perm.map _).symm

theorem participantCommentCounts_eq (pcaData : Option PcaData) :
    ((loadParticipantExportContext byTid pcaData).participantCommentCounts.get p).getD 0 =
      byTid.countP fun row => row.pid = p := by
  have hgather := @Breaks.getD_gather CommentRow ℤ ℕ _ (·.pid) 0 (fun count _ => count + 1) byTid p
  refine hgather.trans ?_
  have hlength : ∀ (l : List CommentRow) (n : ℕ), l.foldl (fun count _ => count + 1) n = n + l.length := by
    intro l
    induction l with
    | nil => exact fun _ => rfl
    | cons row l ih =>
      intro n
      rw [foldl_cons, ih, length_cons]
      omega
  rw [Breaks.block, hlength, countP_eq_length_filter, zero_add]

theorem emptyPca_getGroupId : createGroupIdResolver (some emptyPca) = fun _ => none := rfl

/-- What is selected of a participant. -/
def select (kind : Kind) (ids : List ℤ) (selected : OrderedMap ℤ Vote) (v : Vote) : OrderedMap ℤ Vote :=
  if kind = .ParticipantVotes ∨ v.tid ∈ ids then selected.set v.tid v else selected

/-- The map of the participants has a block for each of them. -/
theorem participants_entries (ids : List ℤ) : (participants kind ids (voteRows.map (readVote kind))).entries =
    (Breaks.breaks (·.pid) (voteRows.map (readVote kind))).map fun pid =>
      (pid, Breaks.block (·.pid) .empty (select kind ids) (voteRows.map (readVote kind)) pid) :=
  @Breaks.entries_gather Vote ℤ (OrderedMap ℤ Vote) _ (·.pid) .empty (select kind ids) _

theorem breaks_readVote (hkind : kind ≠ .Comments) :
    Breaks.breaks (·.pid) (voteRows.map (readVote kind)) = Breaks.breaks (·.pid) voteRows := by
  unfold Breaks.breaks
  rw [List.map_map]
  congr 1
  exact map_congr_left fun row _ => readVote_pid row hkind

/-- The values of what is selected are what the server gathers. -/
theorem block_mapValues {α : Type*} (hkind : kind ≠ .Comments) {ids : List ℤ} {f : Vote → α}
    {gather : OrderedMap ℤ α → VoteRow → OrderedMap ℤ α}
    (hstep : ∀ m row, (select kind ids m (readVote kind row)).mapValues f = gather (m.mapValues f) row) :
    (Breaks.block (·.pid) .empty (select kind ids) (voteRows.map (readVote kind)) p).mapValues f =
      (voteRows.filter (·.pid = p)).foldl gather .empty := by
  have hfilter : (voteRows.map (readVote kind)).filter (fun v => decide (v.pid = p)) =
      (voteRows.filter (·.pid = p)).map (readVote kind) := by
    rw [List.filter_map]
    congr 1
    exact filter_congr fun row _ => by rw [Function.comp_apply, readVote_pid row hkind]
  have hfold : ∀ (l : List VoteRow) (m : OrderedMap ℤ Vote),
      ((l.map (readVote kind)).foldl (select kind ids) m).mapValues f = l.foldl gather (m.mapValues f) := by
    intro l
    induction l with
    | nil => exact fun _ => rfl
    | cons row l ih =>
      intro m
      rw [map_cons, foldl_cons, foldl_cons, ih, hstep]
  rw [Breaks.block, hfilter, hfold]
  rfl

theorem countP_decode (vote : ReportExport.Vote) :
    selected.values.countP (fun v => StorageConvention.CURRENT.decode v.value = some (choice vote)) =
      (selected.mapValues (·.value)).values.countP fun raw => storageToSemantic raw = some vote := by
  have hchoice : Function.Injective choice := by
    intro a b h
    cases a <;> cases b <;> first | rfl | cases h
  rw [OrderedMap.values_mapValues, countP_map]
  refine countP_congr fun v _ => ?_
  rw [Function.comp_apply, decode_eq, decide_eq_true_eq, decide_eq_true_eq]
  rw [← map_some (f := choice), (map_injective hchoice).eq_iff]

/-- The cells of a line, each after a comma. -/
theorem flatMap_cells {α : Type*} {f : Vote → α} {value : α → ℤ} {cell : Vote → Text}
    (hcell : ∀ v, cell v = num (value (f v))) (ids : List ℤ) :
    ids.flatMap (fun id => ',' :: (selected.get id).elim [] cell) =
      ((ids.map fun tid => ((selected.mapValues f).get tid).map value).map shown).flatMap (',' :: ·) := by
  induction ids with
  | nil => rfl
  | cons id ids ih =>
    rw [map_cons, map_cons, flatMap_cons, flatMap_cons, ih, OrderedMap.get_mapValues]
    cases selected.get id with
    | none => rfl
    | some v => rw [elim_some, hcell]; rfl

/-- A line of `participant-votes.csv` -/
theorem participantLine_votes {comments : List CommentRow} (hcomments : comments.Perm byTid) :
    participantLine .ParticipantVotes comments (byTid.map (·.tid)) p selected =
      (votesRow (loadParticipantExportContext byTid (some emptyPca)) p (selected.mapValues (·.value))).text := by
  have hagree : selected.values.countP (fun v => StorageConvention.CURRENT.decode v.value = some .Agree) = _ :=
    countP_decode .agree
  have hdisagree : selected.values.countP (fun v => StorageConvention.CURRENT.decode v.value = some .Disagree) = _ :=
    countP_decode .disagree
  have hcells := @flatMap_cells selected RawVote (·.value) storageToExport _
    (fun v => congrArg num (export_eq v.value)) (byTid.map (·.tid))
  rw [participantLine, ParticipantVotesRow.text, votesRow, participantCommentCounts_eq, ← hcomments.countP_eq]
  simp only [if_true]
  rw [hcells, ← hagree, ← hdisagree, OrderedMap.size_mapValues]
  simp [-List.map_map, joined_cons, sep, shown, loadParticipantExportContext, emptyPca_getGroupId]

/-- A line of `participant-importance.csv` -/
theorem participantLine_importance {comments : List CommentRow}
    (hcomments : comments.Perm byTid) :
    participantLine .ParticipantImportance comments (byTid.map (·.tid)) p selected =
      (importanceRow (loadParticipantExportContext byTid (some emptyPca)) p
        (selected.mapValues (·.important))).text := by
  have hcells := @flatMap_cells selected Bool (·.important) (fun important => if important then 1 else 0) _
    (fun v => congrArg num (show ((v.important.toNat : ℕ) : ℤ) = _ by cases v.important <;> rfl))
    (byTid.map (·.tid))
  have hcount : selected.values.countP (·.important) = (selected.mapValues (·.important)).values.countP id := by
    rw [OrderedMap.values_mapValues, countP_map]
    rfl
  rw [participantLine, ParticipantImportanceRow.text, importanceRow, participantCommentCounts_eq,
    ← hcomments.countP_eq]
  simp only [reduceCtorEq, if_false]
  rw [hcells, hcount, OrderedMap.size_mapValues]
  simp [-List.map_map, joined_cons, sep, shown, loadParticipantExportContext, emptyPca_getGroupId]

theorem header_eq (names : List Text) (name : Text) (ids : List ℤ) :
    joined (name :: names) ++ ids.flatMap (fun id => ',' :: num id) ++ ['\n'] =
      joined (name :: names ++ ids.map num) ++ sep := by
  rw [cons_append, joined_cons, joined_cons, flatMap_append, flatMap_map, sep]
  simp only [append_assoc]

/-- The lines of the participants, in the order of the stream. -/
theorem participantChunks_eq (hkind : kind ≠ .Comments) (htids : (rows.map (·.tid)).Nodup)
    (hordered : OrderedBy (·.tid) rows byTid) (hsorted : voteRows.Pairwise (·.pid ≤ ·.pid)) :
    participantChunks kind rows (voteRows.map (readVote kind)) =
      ((if kind = .ParticipantVotes then
          "participant,group-id,n-comments,n-votes,n-agree,n-disagree".toList
        else "participant,group-id,n-comments,n-votes,n-important".toList) ++
        (byTid.map (·.tid)).flatMap (fun id => ',' :: num id) ++ ['\n']) ::
      (Breaks.breaks (·.pid) voteRows).map fun pid =>
        participantLine kind
          (rows.insertionSort fun a b => a.tid < b.tid ∨ a.tid = b.tid ∧ createdLe a.created b.created)
          (byTid.map (·.tid)) pid
          (Breaks.block (·.pid) .empty (select kind (byTid.map (·.tid))) (voteRows.map (readVote kind)) pid) := by
  have hread := @breaks_readVote kind voteRows hkind
  have hrows : (participants kind (byTid.map (·.tid)) (voteRows.map (readVote kind))).entries.insertionSort
      (fun a b => a.1 ≤ b.1) = (participants kind (byTid.map (·.tid)) (voteRows.map (readVote kind))).entries := by
    refine List.Pairwise.insertionSort_eq ?_
    rw [participants_entries, hread, pairwise_map]
    exact Breaks.breaks_sorted hsorted
  rw [participantChunks]
  dsimp only
  rw [ids_eq htids hordered, hrows, participants_entries, hread, List.map_map]
  rfl

theorem sorted_perm (hordered : OrderedBy (·.tid) rows byTid) :
    (rows.insertionSort fun a b => a.tid < b.tid ∨ a.tid = b.tid ∧ createdLe a.created b.created).Perm byTid :=
  (perm_insertionSort _ _).trans hordered.perm.symm

theorem participantVotes_eq (htids : (rows.map (·.tid)).Nodup) (hordered : OrderedBy (·.tid) rows byTid)
    (hsorted : voteRows.Pairwise (·.pid ≤ ·.pid)) (hpids : ∀ v ∈ voteRows, 0 ≤ v.pid) :
    participantChunks .ParticipantVotes rows (voteRows.map (readVote .ParticipantVotes)) =
      participantVotesCsv (loadParticipantExportContext byTid (some emptyPca)) voteRows := by
  have hpids : ∀ v ∈ voteRows, v.pid ≠ -1 := fun v hv => by
    have := hpids v hv
    omega
  have hheader : joined (["participant", "group-id", "n-comments", "n-votes", "n-agree", "n-disagree"].map
      String.toList) = "participant,group-id,n-comments,n-votes,n-agree,n-disagree".toList := by
    simp [joined, intercalate]
  rw [participantChunks_eq (by decide) htids hordered hsorted, participantVotesCsv,
    sendParticipantVotesSummary_eq hpids hsorted, List.map_map, if_pos rfl, ← hheader]
  refine congrArg₂ List.cons (header_eq _ _ _) (map_congr_left fun pid _ => ?_)
  rw [participantLine_votes (sorted_perm hordered), block_mapValues (by decide) fun m row => ?_]
  · rfl
  · rw [select, if_pos (.inl rfl), OrderedMap.mapValues_set, readVote_value, readVote_tid]

theorem participantImportance_eq (htids : (rows.map (·.tid)).Nodup) (hordered : OrderedBy (·.tid) rows byTid)
    (hsorted : voteRows.Pairwise (·.pid ≤ ·.pid)) (hpids : ∀ v ∈ voteRows, 0 ≤ v.pid) :
    participantChunks .ParticipantImportance rows (voteRows.map (readVote .ParticipantImportance)) =
      participantImportanceCsv (loadParticipantExportContext byTid (some emptyPca)) voteRows := by
  have hpids : ∀ v ∈ voteRows, v.pid ≠ -1 := fun v hv => by
    have := hpids v hv
    omega
  have hheader : joined (["participant", "group-id", "n-comments", "n-votes", "n-important"].map
      String.toList) = "participant,group-id,n-comments,n-votes,n-important".toList := by
    simp [joined, intercalate]
  rw [participantChunks_eq (by decide) htids hordered hsorted, participantImportanceCsv, sendParticipantImportance,
    participantRows_eq hpids hsorted, List.map_map, if_neg (by decide), ← hheader]
  refine congrArg₂ List.cons (header_eq _ _ _) (map_congr_left fun pid _ => ?_)
  rw [participantLine_importance (sorted_perm hordered), block_mapValues (by decide) fun m row => ?_]
  · rfl
  · -- A vote on a statement that is not of the conversation is left out by both.
    rw [select]
    by_cases hmem : row.tid ∈ byTid.map (·.tid)
    · rw [if_pos (.inr (by rwa [readVote_tid])), OrderedMap.mapValues_set, readVote_important row (by decide),
        readVote_tid]
      exact (if_pos hmem).symm
    · rw [if_neg (by rw [readVote_tid]; simpa using hmem)]
      exact (if_neg hmem).symm

end Participants

/-! ## summary.csv -/

theorem convention_eq : EXPORT_VOTE_CONVENTION = "agree=+1;disagree=-1;pass=0;format=polis-export/1" := by
  have hagree : signedText 1 = "+1" := rfl
  have hdisagree : signedText (-1) = "-1" := rfl
  have hpass : signedText 0 = "0" := rfl
  simp [EXPORT_VOTE_CONVENTION, EXPORT_VOTE_VALUES, EXPORT_FORMAT_ID, EXPORT_AGREE_VALUE, hagree, hdisagree, hpass]

theorem declaration_eq : declaration = EXPORT_VOTE_CONVENTION.toList :=
  congrArg String.toList convention_eq.symm

/-- The records of the summary, whatever its words are. -/
theorem summary_records {topic url voters votersInConv commenters comments groups description convention : Text}
    {zero t u v c g n : Text} (ht : t = topic ++ [',']) (hu : u = '\n' :: url ++ [','])
    (hv : v = '\n' :: voters ++ ',' :: zero ++ '\n' :: votersInConv ++ ',' :: zero ++ '\n' :: commenters ++ [','])
    (hc : c = '\n' :: comments ++ [','])
    (hg : g = '\n' :: groups ++ ',' :: zero ++ '\n' :: description ++ [','])
    (hn : n = '\n' :: convention ++ [','])
    (topicText site id commentersText commentsText descriptionText conventionText : Text) :
    t ++ topicText ++ u ++ site ++ '/' :: id ++ v ++ commentersText ++ c ++ commentsText ++ g ++ descriptionText ++
        n ++ conventionText =
      sep.intercalate ([[topic, topicText], [url, site ++ '/' :: id], [voters, zero], [votersInConv, zero],
        [commenters, commentersText], [comments, commentsText], [groups, zero], [description, descriptionText],
        [convention, conventionText]].map joined) := by
  subst ht hu hv hc hg hn
  simp only [map_cons, map_nil, joined_cons, sep, intercalate_cons, flatMap_cons, flatMap_nil,
    append_assoc, cons_append, nil_append, append_nil]

theorem summary_eq (site id : Text) (convo : Conversation) (commenters approved : ℕ) :
    summary site id convo.topic convo.description commenters approved =
      sendConversationSummary site id convo commenters ⟨0, 0, approved, 0⟩ := by
  have hzero : num 0 = ['0'] := num_natCast 0
  have hrecords := @summary_records "topic".toList "url".toList "voters".toList "voters-in-conv".toList
    "commenters".toList "comments".toList "groups".toList "conversation-description".toList
    VOTE_CONVENTION_KEY.toList (num ((0 : ℕ) : ℤ)) "topic,".toList "\nurl,".toList
    "\nvoters,0\nvoters-in-conv,0\ncommenters,".toList "\ncomments,".toList
    "\ngroups,0\nconversation-description,".toList "\nvote-convention,".toList
    (by simp) (by simp) (by simp [hzero]) (by simp) (by simp [hzero])
    (by simp [VOTE_CONVENTION_KEY]) (escape convo.topic) site id (num commenters) (num approved)
    (escape convo.description) declaration
  unfold summary
  refine hrecords.trans ?_
  unfold sendConversationSummary loadConversationSummary
  exact congrArg _ (congrArg _ (by rw [declaration_eq]; rfl))

/-! ## format.json and comment-groups.csv -/

theorem FORMAT_eq : FORMAT = exportFormatJson := by
  have hagree : num EXPORT_AGREE_VALUE = ['1'] := num_natCast 1
  have hdisagree : num (-EXPORT_AGREE_VALUE) = ['-', '1'] := by decide
  have hpass : num 0 = ['0'] := num_natCast 0
  -- Both sides as lists of characters: evaluating the literals would decode each of them.
  simp (disch := exact rfl) only [FORMAT, exportFormatJson, exportFormatDocument, convention_eq, EXPORT_FORMAT_ID,
    VOTE_CONVENTION_KEY, EXPORT_VOTE_VALUES, EXPORT_FILES, EXPORT_FORMAT_DOCS_URL, map_cons, map_nil, stringify,
    stringifyMembers, Json.quote, flatMap_cons, flatMap_nil, hagree, hdisagree, hpass, Utf8.toList_of_eq]
  decide +kernel

theorem commentGroups_eq (rows : List CommentRow) : (commentGroupsCsv emptyGroups rows none).flatten =
    "comment-id,comment,total-votes,total-agrees,total-disagrees,total-passes\n".toList := by
  have hheader : joined (["comment-id", "comment", "total-votes", "total-agrees", "total-disagrees",
      "total-passes"].map String.toList ++ ([] : List ℤ).flatMap groupHeaders) ++ sep =
        "comment-id,comment,total-votes,total-agrees,total-disagrees,total-passes\n".toList := by
    simp [joined, sep, intercalate]
  have hrows : sendCommentGroupsSummary emptyGroups rows none = [] := rfl
  rw [commentGroupsCsv, hrows, map_nil, flatten_cons, flatten_nil, append_nil]
  exact hheader

/-! ## The counts that are kept -/

/-- What both servers keep for a conversation until a time: an entry and the objects expire together, and the
count of the statements is kept at least as long. -/
structure Keeps (now : ℚ) (entry : Option Entry) (cache : NodeCache) : Prop where
  fresh : (∀ item ∈ cache.pca, item.identity < cache.next) ∧ ∀ p ∈ cache.presentation, p.source < cache.next
  expires : entry.map Prod.fst = cache.pca.map (·.expiration)
  soon : ∀ e ∈ entry, e.1 ≤ now + 3000
  uncounted : ∀ e ∈ entry, e.2 = none → ∀ item ∈ cache.pca, ∀ p ∈ cache.presentation, p.source ≠ item.identity
  counted : ∀ e ∈ entry, ∀ n ∈ e.2, ∀ item ∈ cache.pca, ∃ p ∈ cache.presentation,
    p.source = item.identity ∧ p.nCmts = n ∧ e.1 ≤ p.expiration

section Keeps

variable {now : ℚ} {entry : Option Entry} {cache : NodeCache} {approved : ℕ}

theorem Keeps.empty (now : ℚ) : Keeps now none ⟨none, none, 0⟩ :=
  ⟨⟨nofun, nofun⟩, rfl, nofun, nofun, nofun⟩

theorem Keeps.later {now' : ℚ} (h : Keeps now entry cache) (hle : now ≤ now') : Keeps now' entry cache :=
  { h with soon := fun e he => (h.soon e he).trans (by simpa using hle) }

/-- An export looks the conversation up: what has expired is replaced on both sides. -/
theorem Keeps.getPca (h : Keeps now entry cache) :
    let e := (entry.filter fun e => now < e.1).getD (now + 3000, none)
    Keeps now (some e) (getPcaFromBundle now cache).2 ∧
      (getPcaFromBundle now cache).2.pca = some (getPcaFromBundle now cache).1 ∧ now < e.1 := by
  have hnew : entry.filter (fun e => now < e.1) = none ↔
      cache.pca.filter (fun item => now < item.expiration) = none := by
    have hexpires := h.expires
    rw [filter_eq_none_iff, filter_eq_none_iff]
    cases entry with
    | none =>
      have hnone : cache.pca = none := map_eq_none_iff.1 hexpires.symm
      simp [hnone]
    | some e =>
      obtain ⟨item, hitem, heq⟩ := map_eq_some_iff.1 hexpires.symm
      simp [hitem, heq]
  intro e
  cases hentry : entry.filter fun e => now < e.1 with
  | none =>
    -- The new object has an identity of its own, so nothing was presented of it.
    have hitem := hnew.1 hentry
    have he : e = (now + 3000, none) := congrArg (Option.getD · (now + 3000, none)) hentry
    have hpca : getPcaFromBundle now cache =
        (⟨cache.next, now + 3000⟩,
          { cache with pca := some ⟨cache.next, now + 3000⟩, next := cache.next + 1 }) := by
      rw [getPcaFromBundle, hitem]
    rw [hpca, he]
    refine ⟨⟨⟨?_, ?_⟩, rfl, ?_, ?_, ?_⟩, rfl, by simp⟩
    · rintro _ ⟨⟩
      exact lt_succ_self _
    · exact fun p hp => (h.fresh.2 p hp).trans (lt_succ_self _)
    · rintro _ ⟨⟩
      exact le_rfl
    · rintro _ ⟨⟩ - _ ⟨⟩ p hp
      exact (h.fresh.2 p hp).ne
    · rintro _ ⟨⟩ n hn
      cases hn
  | some e' =>
    obtain ⟨hsome, hlive⟩ := filter_eq_some_iff.1 hentry
    subst hsome
    have he : e = e' := congrArg (Option.getD · (now + 3000, none)) hentry
    obtain ⟨item, hitem, hexpires⟩ := map_eq_some_iff.1 h.expires.symm
    have hlive : now < e'.1 := of_decide_eq_true hlive
    have hpca : getPcaFromBundle now cache = (item, cache) := by
      have hkept : cache.pca.filter (fun item => now < item.expiration) = some item := by
        rw [hitem, filter_some, if_pos (decide_eq_true (hexpires ▸ hlive))]
      rw [getPcaFromBundle, hkept]
    rw [hpca, he]
    exact ⟨h, hitem, hlive⟩

/-- The count of the statements is the same, and both keep it. -/
theorem Keeps.present {e : Entry} {item : PcaItem} (h : Keeps now (some e) cache) (hitem : cache.pca = some item)
    (hlive : now < e.1) (approved : ℕ) :
    (e.2.getD approved = (presentPca now approved item cache).1) ∧
      Keeps now (some (e.1, some (e.2.getD approved))) (presentPca now approved item cache).2 := by
  have hexpires : e.1 = item.expiration := by
    have := h.expires
    rw [hitem] at this
    exact Option.some.inj this
  cases hcount : e.2 with
  | none =>
    have hmissing : cache.presentation.filter (fun p => p.source = item.identity ∧ now < p.expiration) = none := by
      rw [filter_eq_none_iff]
      intro p hp hkept
      exact h.uncounted e rfl hcount item hitem p hp (of_decide_eq_true hkept).1
    have hpresent : presentPca now approved item cache =
        (approved, { cache with presentation := some ⟨item.identity, approved, now + PRESENTATION_TTL_MS⟩ }) := by
      rw [presentPca, hmissing]
    rw [hpresent]
    refine ⟨rfl, ⟨h.fresh.1, ?_⟩, h.expires, ?_, ?_, ?_⟩
    · rintro _ ⟨⟩
      exact h.fresh.1 item hitem
    · rintro _ ⟨⟩
      exact h.soon e rfl
    · rintro _ ⟨⟩ hnone
      cases hnone
    · rintro _ ⟨⟩ n ⟨⟩ item' hitem'
      obtain rfl : item = item' := Option.some.inj (hitem.symm.trans hitem')
      exact ⟨_, rfl, rfl, rfl, h.soon e rfl⟩
  | some n =>
    obtain ⟨p, hp, hsource, hcmts, hlate⟩ := h.counted e rfl n hcount item hitem
    have hkept : cache.presentation.filter (fun p => p.source = item.identity ∧ now < p.expiration) = some p := by
      rw [mem_def.1 hp, filter_some, if_pos (decide_eq_true ⟨hsource, hlive.trans_le hlate⟩)]
    have hpresent : presentPca now approved item cache = (p.nCmts, cache) := by
      rw [presentPca, hkept]
    rw [hpresent]
    refine ⟨hcmts.symm, ?_⟩
    have he : (e.1, some n) = e := by rw [← hcount]
    rw [getD_some, he]
    exact h

theorem presentation_some (approved : ℕ) :
    let e := (entry.filter fun e => now < e.1).getD (now + 3000, none)
    presentation entry now (some approved) = (some (e.2.getD approved), (e.1, some (e.2.getD approved))) := by
  intro e
  have hpresentation : presentation entry now (some approved) =
      ((if e.2 = none then (e.1, some approved) else e).2, if e.2 = none then (e.1, some approved) else e) := rfl
  rw [hpresentation]
  obtain ⟨expiration, count⟩ := e
  cases count <;> rfl

theorem presentation_none :
    let e := (entry.filter fun e => now < e.1).getD (now + 3000, none)
    presentation entry now none = (e.2, e) := by
  intro e
  have hpresentation : presentation entry now none =
      ((if e.2 = none then (e.1, none) else e).2, if e.2 = none then (e.1, none) else e) := rfl
  rw [hpresentation]
  obtain ⟨expiration, count⟩ := e
  cases count <;> rfl

end Keeps

end Polis.ReportExport.Service
