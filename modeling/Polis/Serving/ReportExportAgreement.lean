import Polis.Serving.ReportExportReadTheorems

/-!
# Both servers export the same file

What the service answers is what the server sends of the same rows at the same time, over any run of requests
that the service answers. All but the declaration of the format are comma separated values: a parser reads back
records of one width with the texts that were stored, unless the name of the site breaks the record of the url.

Reference: `queue-rs/polis-api/src/report_export.rs`, `server/src/report.ts`.
-/

namespace Polis.ReportExport.Service

open List

open Csv (Field)

variable {kind : Kind} {rows : List CommentRow} {voteRows : List VoteRow} {t : Tables} {stored : Stored}
  {site : Text} {now : ℚ} {entry entry' : Option Entry} {cache : NodeCache} {r : Response}

/-! ## The statement -/

/-- The rows that the server reads are those that the service reads. -/
structure SameRows (kind : Kind) (t : Tables) (stored : Stored) : Prop where
  comments : t.comments = stored.comments
  tids : (stored.comments.map (·.tid)).Nodup
  byTid : OrderedBy (·.tid) stored.comments t.byTid
  votes : t.votes = stored.votes
  ordered : kind = .ParticipantVotes ∨ kind = .ParticipantImportance → stored.votes.Pairwise (pidTid · ≤ pidTid ·)
  conversation : ∀ convo ∈ stored.conversations, t.conversation = convo
  zinvite : ∀ id ∈ stored.public_id, t.zinvite = id

/-- What a parser reads back: records of the width of the first one, with the stored texts. -/
def ReadsBack (kind : Kind) (t : Tables) (text : Text) : Prop :=
  ∃ header records, Csv.parse text = some (header :: records) ∧ (∀ record ∈ records, record.length = header.length) ∧
    match kind with
    | .Summary => header = ["topic".toList, t.conversation.topic] ∧
        records[6]? = some ["conversation-description".toList, t.conversation.description]
    | .Comments => records.map (·.getLast?) =
        (t.comments.insertionSort fun a b => b.velocity ≤ a.velocity).map fun row => some row.txt
    | .Votes => records.length = t.votes.length
    | .ParticipantVotes | .ParticipantImportance =>
      records.map (·.head?) = (Breaks.breaks (·.pid) t.votes).map fun pid => some (num pid)
    | .CommentGroups => records = []
    | .Format => True

/-- A request, with what is stored when it comes and what the server would read. -/
structure Request where
  kind : Kind
  stored : Stored
  tables : Tables
  site : Text
  now : ℚ

/-- The answers of the service to requests on one conversation. -/
def served : Option Entry → List Request → List (Option Response)
  | _, [] => []
  | entry, q :: requests =>
    let (r, entry) := read_cached q.kind q.stored q.site q.now entry
    r :: served entry requests

/-- The bodies of the server. -/
def sent : NodeCache → List Request → List Text
  | _, [] => []
  | cache, q :: requests =>
    let (text, cache) := sendExport q.kind q.tables q.site q.now cache
    text :: sent cache requests

/-! ## The bytes -/

/-- An answer that is made of the votes is made of all of them. -/
theorem of_votes {f : List Vote → Option Response}
    (h : ((votes kind voteRows).bind fun votes =>
      if kind ≠ .Comments ∧ ¬ (votes.map fun v => (v.tid, v.pid)).Nodup then none
      else (f votes).filter fun response => response.bytes ≤ 1048576) = some r) :
    f (voteRows.map (readVote kind)) = some r ∧ ∀ row ∈ voteRows, 0 ≤ (readVote kind row).pid := by
  obtain ⟨read, hread, h⟩ := Option.bind_eq_some_iff.1 h
  obtain ⟨rfl, hpids⟩ := votes_eq hread
  split at h
  · cases h
  · exact ⟨(Option.filter_eq_some_iff.1 h).1, hpids⟩

/-- The pids of votes that come in the order of pids and tids. -/
theorem sorted_pids (h : voteRows.Pairwise (pidTid · ≤ pidTid ·)) : voteRows.Pairwise (·.pid ≤ ·.pid) :=
  OrderedBy.pids ⟨List.Perm.refl voteRows, h⟩

theorem render_comments (hrows : SameRows .Comments t stored)
    (hr : render .Comments stored site stored.comments none = some r) :
    r.body = commentsCsv formatDatetime t.comments t.votes := by
  obtain ⟨hcsv, -⟩ := of_votes (f := fun votes => (commentsBody stored.comments votes).map Response.Csv) hr
  obtain ⟨body, hbody, rfl⟩ := Option.map_eq_some_iff.1 hcsv
  rw [hrows.comments, hrows.votes]
  exact commentsBody_eq hrows.tids hbody

theorem render_votes (hrows : SameRows .Votes t stored)
    (hr : render .Votes stored site stored.comments none = some r) :
    r.body = (sendVotesSummary formatDatetime t.votes).flatten := by
  obtain ⟨hstream, -⟩ := of_votes (f := fun votes => (votesChunks votes).map Response.Stream) hr
  obtain ⟨chunks, hchunks, rfl⟩ := Option.map_eq_some_iff.1 hstream
  rw [hrows.votes, ← votesChunks_eq hchunks]
  rfl

theorem render_participantVotes {approved : Option ℕ} (hrows : SameRows .ParticipantVotes t stored)
    (hr : render .ParticipantVotes stored site stored.comments approved = some r) :
    r.body = (participantVotesCsv (loadParticipantExportContext t.byTid (some emptyPca)) t.votes).flatten ∧
      ∀ v ∈ t.votes, 0 ≤ v.pid := by
  obtain ⟨hchunks, hpids⟩ := of_votes
    (f := fun votes => some (Response.Stream (participantChunks .ParticipantVotes stored.comments votes))) hr
  obtain rfl := Option.some.inj hchunks
  rw [hrows.votes]
  refine ⟨?_, hpids⟩
  rw [Response.body, participantVotes_eq hrows.tids hrows.byTid (sorted_pids (hrows.ordered (.inl rfl))) hpids]

theorem render_participantImportance {approved : Option ℕ} (hrows : SameRows .ParticipantImportance t stored)
    (hr : render .ParticipantImportance stored site stored.comments approved = some r) :
    r.body = (participantImportanceCsv (loadParticipantExportContext t.byTid (some emptyPca)) t.votes).flatten ∧
      ∀ v ∈ t.votes, 0 ≤ v.pid := by
  obtain ⟨hchunks, hpids⟩ := of_votes
    (f := fun votes => some (Response.Stream (participantChunks .ParticipantImportance stored.comments votes))) hr
  obtain rfl := Option.some.inj hchunks
  rw [hrows.votes]
  refine ⟨?_, hpids⟩
  rw [Response.body, participantImportance_eq hrows.tids hrows.byTid (sorted_pids (hrows.ordered (.inr rfl))) hpids]

theorem render_summary {approved : ℕ} (hrows : SameRows .Summary t stored)
    (hr : render .Summary stored site stored.comments (some approved) = some r) :
    r.body = sendConversationSummary site t.zinvite t.conversation t.commenters ⟨0, 0, approved, 0⟩ := by
  simp only [render] at hr
  cases hid : stored.public_id with
  | none => simp [hid] at hr
  | some id =>
    cases hconvo : stored.conversations with
    | nil => simp [hid, hconvo] at hr
    | cons convo others =>
      cases others with
      | cons other others => simp [hid, hconvo] at hr
      | nil =>
        rw [hid, hconvo] at hr
        dsimp only at hr
        split at hr
        · cases hr
        obtain rfl := Option.some.inj hr
        have hcommenters : t.commenters = (stored.comments.map (·.pid)).dedup.length := by
          rw [Tables.commenters, hrows.comments]
        rw [hrows.zinvite id hid, hrows.conversation convo (by simp [hconvo]), hcommenters]
        exact summary_eq site id convo _ approved

/-- One request, with what both servers have kept. -/
theorem read_cached_eq (hrows : SameRows kind t stored) (hkeeps : Keeps now entry cache)
    (hr : read_cached kind stored site now entry = (some r, entry')) :
    r.body = (sendExport kind t site now cache).1 ∧ Keeps now entry' (sendExport kind t site now cache).2 ∧
      (kind = .ParticipantVotes ∨ kind = .ParticipantImportance → ∀ v ∈ t.votes, 0 ≤ v.pid) := by
  unfold read_cached at hr
  by_cases hformat : kind = .Format
  · subst hformat
    obtain ⟨hanswer, rfl⟩ := Prod.mk.inj hr
    obtain rfl := Option.some.inj hanswer
    exact ⟨FORMAT_eq, hkeeps, nofun⟩
  rw [if_neg hformat] at hr
  split at hr
  · cases hr
  cases hread : comments stored.comments with
  | none => simp [hread] at hr
  | some read =>
    obtain rfl := comments_eq hread
    rw [hread] at hr
    dsimp only at hr
    have happroved : (stored.comments.countP fun row => 1 ≤ row.mod) = t.approved := by
      rw [Tables.approved, hrows.comments]
    obtain ⟨hlooked, hitem, hlive⟩ := hkeeps.getPca
    obtain ⟨hcount, hpresented⟩ := hlooked.present hitem hlive t.approved
    cases kind with
    | Format => exact absurd rfl hformat
    | Comments =>
      obtain ⟨hanswer, rfl⟩ := Prod.mk.inj hr
      exact ⟨render_comments hrows hanswer, hkeeps, nofun⟩
    | Votes =>
      obtain ⟨hanswer, rfl⟩ := Prod.mk.inj hr
      exact ⟨render_votes hrows hanswer, hkeeps, nofun⟩
    | ParticipantVotes =>
      obtain ⟨hanswer, rfl⟩ := Prod.mk.inj hr
      rw [if_neg (by decide), presentation_none]
      obtain ⟨hbody, hpids⟩ := render_participantVotes hrows hanswer
      exact ⟨hbody, hlooked, fun _ => hpids⟩
    | ParticipantImportance =>
      obtain ⟨hanswer, rfl⟩ := Prod.mk.inj hr
      rw [if_neg (by decide), presentation_none]
      obtain ⟨hbody, hpids⟩ := render_participantImportance hrows hanswer
      exact ⟨hbody, hlooked, fun _ => hpids⟩
    | CommentGroups =>
      obtain ⟨hanswer, rfl⟩ := Prod.mk.inj hr
      obtain rfl := Option.some.inj hanswer
      rw [if_pos (.inr rfl), happroved, presentation_some]
      exact ⟨(commentGroups_eq t.comments).symm, hpresented, nofun⟩
    | Summary =>
      obtain ⟨hanswer, rfl⟩ := Prod.mk.inj hr
      rw [if_pos (.inl rfl), happroved, presentation_some] at hanswer ⊢
      exact ⟨(render_summary hrows hanswer).trans (by rw [hcount]; rfl), hpresented, nofun⟩

/-! ## Plain fields -/

theorem clean_append {a b : Text} : Field.Clean (a ++ b) ↔ Field.Clean a ∧ Field.Clean b :=
  forall_mem_append

/-- No character with a meaning of its own. -/
def CleanChar (c : Char) : Prop := c ≠ ',' ∧ c ≠ '"' ∧ c ≠ '\n' ∧ c ≠ '\r'

instance (c : Char) : Decidable (CleanChar c) := inferInstanceAs (Decidable (_ ∧ _))

theorem clean_cons {c : Char} {a : Text} : Field.Clean (c :: a) ↔ CleanChar c ∧ Field.Clean a :=
  forall_mem_cons

theorem clean_nil : Field.Clean [] := fun _ hc => nomatch hc

theorem clean_digits {a : Text} (h : Digits a) : Field.Clean a := fun c hc => by
  obtain ⟨hlow, hhigh⟩ := isDigit_toNat (h c hc)
  have hne : ∀ d : Char, d.toNat < 48 → c ≠ d := by
    rintro d hd rfl
    omega
  exact ⟨hne ',' (by decide), hne '"' (by decide), hne '\n' (by decide), hne '\r' (by decide)⟩

theorem clean_num (n : ℤ) : Field.Clean (num n) := by
  cases n with
  | ofNat n =>
    rw [Int.ofNat_eq_natCast, num_natCast]
    exact clean_digits (Digits.toDigits n)
  | negSucc n =>
    have htext : num (Int.negSucc n) = '-' :: num ((n + 1 : ℕ) : ℤ) := by
      rw [num, show toString (Int.negSucc n) = "-" ++ toString (n + 1) from rfl, String.toList_append]
      rfl
    rw [htext, num_natCast]
    exact clean_cons.2 ⟨by decide, clean_digits (Digits.toDigits _)⟩

theorem clean_getD {names : List Text} (h : ∀ name ∈ names, Field.Clean name) (i : ℕ) :
    Field.Clean (names.getD i []) := by
  rw [getD_eq_getElem?_getD]
  cases hi : names[i]? with
  | none => exact clean_nil
  | some name => exact h name (mem_of_getElem? hi)

theorem clean_formatDatetime (created : Option ℤ) : Field.Clean (formatDatetime created) := by
  have hinvalid : Field.Clean "Invalid Date".toList := by simp [Field.Clean]
  unfold formatDatetime
  cases created with
  | none => exact hinvalid
  | some ms =>
    dsimp only
    split
    case isFalse => exact hinvalid
    have hdays : ∀ name ∈ dayNames, Field.Clean name := by simp [dayNames, Field.Clean]
    have hmonths : ∀ name ∈ monthNames, Field.Clean name := by simp [monthNames, Field.Clean]
    have hpadded : ∀ width n, Field.Clean (padded width n) := fun width n => clean_digits (padded_digits width n)
    have hspace : CleanChar ' ' := by decide
    have hcolon : CleanChar ':' := by decide
    have hsign : ∀ year : ℤ, Field.Clean (if year < 0 then ['-'] else []) := fun year => by split <;> decide
    have hgmt : Field.Clean " GMT".toList := by simp [Field.Clean]
    have hoffset : Field.Clean "+0000".toList := by simp [Field.Clean]
    have hzone : Field.Clean " (Coordinated Universal Time)".toList := by simp [Field.Clean]
    simp only [dateToString, clean_append, clean_cons, clean_getD hdays, clean_getD hmonths, hpadded, hspace,
      hcolon, hsign, hgmt, hoffset, hzone, and_self]

theorem clean_parsedSeconds (created : Option ℤ) : Field.Clean (parsedSeconds created) := by
  have hnan : Field.Clean "NaN".toList := by simp [Field.Clean]
  unfold parsedSeconds
  cases created with
  | none => exact hnan
  | some ms => exact clean_num _

theorem clean_shown (value : Option ℤ) : Field.Clean (shown value) := by
  cases value with
  | none => exact clean_nil
  | some n => exact clean_num n

/-! ## The records -/

/-- A file of which every record has the width of the header. -/
theorem readsBack_lines {header : List Field} {file : List (List Field)} {text : Text}
    (htext : text = (header :: file).flatMap Csv.line) (hne : header ≠ []) (hheader : ∀ f ∈ header, f.Ok)
    (hfile : ∀ record ∈ file, (∀ f ∈ record, f.Ok) ∧ record.length = header.length) :
    Csv.parse text = some (header.map Field.value :: file.map (List.map Field.value)) ∧
      ∀ record ∈ file.map (List.map Field.value), record.length = (header.map Field.value).length := by
  rw [htext]
  refine ⟨Csv.parse_lines ?_, ?_⟩
  · rintro record (_ | ⟨_, hrecord⟩)
    · exact ⟨hne, hheader⟩
    · refine ⟨?_, (hfile record hrecord).1⟩
      rintro rfl
      exact hne (length_eq_zero_iff.1 (hfile [] hrecord).2.symm)
  · rw [forall_mem_map]
    intro record hrecord
    rw [length_map, length_map, (hfile record hrecord).2]

def commentFields (row : CommentStats) : List Field :=
  [.plain (parsedSeconds row.comment.created), .plain (formatDatetime row.comment.created),
    .plain (num row.comment.tid), .plain (num row.comment.pid), .plain (num row.agrees), .plain (num row.disagrees),
    .plain (num row.comment.mod), .plain (num row.importance), .quoted row.comment.txt]

def voteFields (row : VoteRow) : List Field :=
  [.plain (floorSeconds row.created), .plain (formatDatetime row.created), .plain (num row.tid),
    .plain (num row.pid), .plain (num (storageToExport row.vote)),
    .plain (num (if row.high_priority = some true then 1 else 0))]

theorem line_plain (names : List Text) : joined names ++ sep = Csv.line (names.map Field.plain) := by
  rw [Csv.line, Csv.joined, map_map]
  congr 2
  exact (map_id names).symm

theorem ok_plain {names : List Text} (h : ∀ name ∈ names, Field.Clean name) :
    ∀ f ∈ names.map Field.plain, f.Ok := by
  rw [forall_mem_map]
  exact h

theorem value_plain (names : List Text) : (names.map Field.plain).map Field.value = names := by
  rw [map_map]
  exact map_id names

theorem readsBack_comments (hrows : SameRows .Comments t stored) :
    ReadsBack .Comments t (commentsCsv formatDatetime t.comments t.votes) := by
  have hnames : ∀ name ∈ (commentFormatters formatDatetime).map Prod.fst, Field.Clean name := by
    simp [commentFormatters, Field.Clean]
  have htext : commentsCsv formatDatetime t.comments t.votes =
      ((((commentFormatters formatDatetime).map Prod.fst).map Field.plain) ::
        (sendCommentSummary t.comments t.votes).map commentFields).flatMap Csv.line := by
    rw [commentsCsv, formatCSV, formatCSVHeaders, line_plain, flatMap_cons, flatMap_map]
    rfl
  obtain ⟨hparse, hwidth⟩ := readsBack_lines htext (cons_ne_nil _ _) (ok_plain hnames) (by
    rw [forall_mem_map]
    intro row _
    refine ⟨?_, Eq.refl 9⟩
    simp only [commentFields, forall_mem_cons]
    exact ⟨clean_parsedSeconds _, clean_formatDatetime _, clean_num _, clean_num _, clean_num _, clean_num _,
      clean_num _, clean_num _, trivial, by rintro _ ⟨⟩⟩)
  refine ⟨_, _, hparse, hwidth, ?_⟩
  dsimp only
  rw [sendCommentSummary_eq (hrows.comments ▸ hrows.tids), map_map, map_map, map_map]
  refine map_congr_left fun row _ => ?_
  simp [commentFields, Field.value, statsOf_comment]

theorem readsBack_votes : ReadsBack .Votes t (sendVotesSummary formatDatetime t.votes).flatten := by
  have hnames : ∀ name ∈ (voteFormatters formatDatetime).map Prod.fst, Field.Clean name := by
    simp [voteFormatters, Field.Clean]
  have htext : (sendVotesSummary formatDatetime t.votes).flatten =
      ((((voteFormatters formatDatetime).map Prod.fst).map Field.plain) :: t.votes.map voteFields).flatMap
        Csv.line := by
    rw [sendVotesSummary, formatCSVHeaders, line_plain, flatten_cons, flatMap_cons, flatMap_map]
    rfl
  obtain ⟨hparse, hwidth⟩ := readsBack_lines htext (cons_ne_nil _ _) (ok_plain hnames) (by
    rw [forall_mem_map]
    intro row _
    refine ⟨?_, Eq.refl 6⟩
    simp only [voteFields, forall_mem_cons]
    exact ⟨clean_num _, clean_formatDatetime _, clean_num _, clean_num _, clean_num _, clean_num _,
      by rintro _ ⟨⟩⟩)
  exact ⟨_, _, hparse, hwidth, by rw [length_map, length_map]⟩

/-- A file of lines of numbers, with empty cells. -/
theorem readsBack_numbers {ρ : Type*} {names : List Text} {ids : List ℤ} {rows : List ρ} {cells : ρ → List (Option ℤ)}
    (hnames : ∀ name ∈ names, Field.Clean name) (hne : names ≠ [])
    (hcells : ∀ row ∈ rows, (cells row).length = names.length + ids.length) :
    ∃ header records, Csv.parse ((joined (names ++ ids.map num) ++ sep) ::
        rows.map fun row => joined ((cells row).map shown) ++ sep).flatten = some (header :: records) ∧
      (∀ record ∈ records, record.length = header.length) ∧ records = rows.map fun row => (cells row).map shown := by
  have htext : ((joined (names ++ ids.map num) ++ sep) ::
      rows.map fun row => joined ((cells row).map shown) ++ sep).flatten =
        ((names ++ ids.map num).map Field.plain ::
          rows.map fun row => ((cells row).map shown).map Field.plain).flatMap Csv.line := by
    rw [flatten_cons, flatMap_cons, line_plain, flatMap_map, ← flatMap_def]
    refine congrArg _ (flatMap_congr fun row _ => line_plain _)
  obtain ⟨hparse, hwidth⟩ := readsBack_lines htext (by simp [hne])
    (ok_plain (forall_mem_append.2 ⟨hnames, by rw [forall_mem_map]; exact fun n _ => clean_num n⟩)) (by
      rw [forall_mem_map]
      intro row hrow
      refine ⟨ok_plain ?_, by simp [hcells row hrow]⟩
      rw [forall_mem_map]
      exact fun value _ => clean_shown value)
  refine ⟨_, _, hparse, hwidth, ?_⟩
  rw [map_map]
  exact map_congr_left fun row _ => value_plain _

theorem readsBack_participantVotes (hpids : ∀ v ∈ t.votes, 0 ≤ v.pid)
    (hsorted : t.votes.Pairwise (·.pid ≤ ·.pid)) :
    ReadsBack .ParticipantVotes t
      (participantVotesCsv (loadParticipantExportContext t.byTid (some emptyPca)) t.votes).flatten := by
  have hpids : ∀ v ∈ t.votes, v.pid ≠ -1 := fun v hv => by
    have := hpids v hv
    omega
  have hnames : ∀ name ∈ ["participant", "group-id", "n-comments", "n-votes", "n-agree", "n-disagree"].map
      String.toList, Field.Clean name := by simp [Field.Clean]
  obtain ⟨header, records, hparse, hwidth, hrecords⟩ := @readsBack_numbers ParticipantVotesRow _ (t.byTid.map (·.tid))
    (sendParticipantVotesSummary (loadParticipantExportContext t.byTid (some emptyPca)) t.votes)
    (fun row => [some row.participant, row.groupId, some row.nComments, some row.nVotes, some row.nAgree,
      some row.nDisagree] ++ row.cells) hnames (cons_ne_nil _ _) (by
        rw [sendParticipantVotesSummary_eq hpids hsorted, forall_mem_map]
        intro pid _
        simp [votesRow, loadParticipantExportContext]
        omega)
  refine ⟨header, records, hparse, hwidth, ?_⟩
  dsimp only
  rw [hrecords, sendParticipantVotesSummary_eq hpids hsorted, map_map, map_map]
  rfl

theorem readsBack_participantImportance (hpids : ∀ v ∈ t.votes, 0 ≤ v.pid)
    (hsorted : t.votes.Pairwise (·.pid ≤ ·.pid)) :
    ReadsBack .ParticipantImportance t
      (participantImportanceCsv (loadParticipantExportContext t.byTid (some emptyPca)) t.votes).flatten := by
  have hpids : ∀ v ∈ t.votes, v.pid ≠ -1 := fun v hv => by
    have := hpids v hv
    omega
  have hnames : ∀ name ∈ ["participant", "group-id", "n-comments", "n-votes", "n-important"].map String.toList,
      Field.Clean name := by simp [Field.Clean]
  obtain ⟨header, records, hparse, hwidth, hrecords⟩ := @readsBack_numbers ParticipantImportanceRow _
    (t.byTid.map (·.tid)) (sendParticipantImportance (loadParticipantExportContext t.byTid (some emptyPca)) t.votes)
    (fun row => [some row.participant, row.groupId, some row.nComments, some row.nVotes, some row.nImportant] ++
      row.cells) hnames (cons_ne_nil _ _) (by
        rw [sendParticipantImportance, participantRows_eq hpids hsorted, forall_mem_map]
        intro pid _
        simp [importanceRow, loadParticipantExportContext]
        omega)
  refine ⟨header, records, hparse, hwidth, ?_⟩
  dsimp only
  rw [hrecords, sendParticipantImportance, participantRows_eq hpids hsorted, map_map, map_map]
  rfl

theorem readsBack_commentGroups :
    ReadsBack .CommentGroups t (commentGroupsCsv emptyGroups t.comments none).flatten := by
  have hnames : ∀ name ∈ ["comment-id", "comment", "total-votes", "total-agrees", "total-disagrees",
      "total-passes"].map String.toList, Field.Clean name := by simp [Field.Clean]
  obtain ⟨header, records, hparse, hwidth, hrecords⟩ := @readsBack_numbers ℤ _ [] [] (fun _ => []) hnames
    (cons_ne_nil _ _) nofun
  exact ⟨header, records, hparse, hwidth, hrecords⟩

theorem intercalate_concat (lines : List Text) (last : Text) :
    sep.intercalate (lines ++ [last]) = lines.flatMap (· ++ sep) ++ last := by
  cases lines with
  | nil => simp [List.intercalate]
  | cons line lines =>
    rw [cons_append, sep, intercalate_cons]
    induction lines generalizing line with
    | nil => simp
    | cons line' lines ih =>
      rw [cons_append, flatMap_cons, flatMap_cons]
      have := ih line'
      simp only [flatMap_cons, append_assoc, cons_append, nil_append] at this ⊢
      rw [this]

def summaryFields (site zinvite : Text) (convo : Conversation) (commenters approved : ℕ) : List (List Field) :=
  [[.plain "topic".toList, .quoted convo.topic], [.plain "url".toList, .plain (site ++ '/' :: zinvite)],
    [.plain "voters".toList, .plain (num (0 : ℕ))], [.plain "voters-in-conv".toList, .plain (num (0 : ℕ))],
    [.plain "commenters".toList, .plain (num commenters)], [.plain "comments".toList, .plain (num approved)],
    [.plain "groups".toList, .plain (num (0 : ℕ))],
    [.plain "conversation-description".toList, .quoted convo.description]]

theorem readsBack_summary {approved : ℕ} (hsite : Field.Clean site) (hzinvite : Field.Clean t.zinvite) :
    ReadsBack .Summary t
      (sendConversationSummary site t.zinvite t.conversation t.commenters ⟨0, 0, approved, 0⟩) := by
  have hurl : Field.Clean (site ++ '/' :: t.zinvite) :=
    clean_append.2 ⟨hsite, clean_cons.2 ⟨by decide, hzinvite⟩⟩
  have htext : sendConversationSummary site t.zinvite t.conversation t.commenters ⟨0, 0, approved, 0⟩ =
      (summaryFields site t.zinvite t.conversation t.commenters approved).flatMap Csv.line ++
        Csv.joined [.plain VOTE_CONVENTION_KEY.toList, .plain EXPORT_VOTE_CONVENTION.toList] :=
    intercalate_concat [joined ["topic".toList, formatEscapedText t.conversation.topic],
      joined ["url".toList, site ++ '/' :: t.zinvite], joined ["voters".toList, num (0 : ℕ)],
      joined ["voters-in-conv".toList, num (0 : ℕ)], joined ["commenters".toList, num t.commenters],
      joined ["comments".toList, num approved], joined ["groups".toList, num (0 : ℕ)],
      joined ["conversation-description".toList, formatEscapedText t.conversation.description]]
      (joined [VOTE_CONVENTION_KEY.toList, EXPORT_VOTE_CONVENTION.toList])
  have hwords : ∀ word ∈ ["topic", "url", "voters", "voters-in-conv", "commenters", "comments", "groups",
      "conversation-description"].map String.toList, Field.Clean word := by simp [Field.Clean]
  simp only [map_cons, map_nil, forall_mem_cons] at hwords
  obtain ⟨htopic, hurl', hvoters, hvotersInConv, hcommenters, hcomments, hgroups, hdescription, -⟩ := hwords
  have hok : ∀ record ∈ summaryFields site t.zinvite t.conversation t.commenters approved,
      record ≠ [] ∧ ∀ f ∈ record, f.Ok := by
    have hpair : ∀ (name : Text) (f : Field), Field.Clean name → f.Ok →
        [.plain name, f] ≠ [] ∧ (Field.plain name).Ok ∧ f.Ok ∧ ∀ g ∈ ([] : List Field), g.Ok := fun name f hname hf =>
      ⟨cons_ne_nil _ _, hname, hf, nofun⟩
    simp only [summaryFields, forall_mem_cons]
    exact ⟨hpair _ (.quoted _) htopic trivial, hpair _ (.plain _) hurl' hurl,
      hpair _ (.plain _) hvoters (clean_num _), hpair _ (.plain _) hvotersInConv (clean_num _),
      hpair _ (.plain _) hcommenters (clean_num _), hpair _ (.plain _) hcomments (clean_num _),
      hpair _ (.plain _) hgroups (clean_num _), hpair _ (.quoted _) hdescription trivial, nofun⟩
  have hlast : ∀ f ∈ [VOTE_CONVENTION_KEY.toList, EXPORT_VOTE_CONVENTION.toList].map Field.plain, f.Ok :=
    ok_plain (by
      simp (disch := exact rfl) only [VOTE_CONVENTION_KEY, convention_eq, Utf8.toList_of_eq]
      decide)
  have hparse := Csv.parse_lines_joined hok (cons_ne_nil _ _) hlast (by decide)
  refine ⟨_, _, (congrArg Csv.parse htext).trans hparse, ?_, rfl, rfl⟩
  simp [Field.value]

/-! ## Runs -/

/-- What is read of what the server sends. -/
theorem readsBack (hrows : SameRows kind t stored) (hformat : kind ≠ .Format) (hsite : Field.Clean site)
    (hzinvite : Field.Clean t.zinvite)
    (hpids : kind = .ParticipantVotes ∨ kind = .ParticipantImportance → ∀ v ∈ t.votes, 0 ≤ v.pid) :
    ReadsBack kind t (sendExport kind t site now cache).1 := by
  have hsorted : kind = .ParticipantVotes ∨ kind = .ParticipantImportance → t.votes.Pairwise (·.pid ≤ ·.pid) :=
    fun h => hrows.votes ▸ sorted_pids (hrows.ordered h)
  cases kind with
  | Format => exact absurd rfl hformat
  | Summary => exact readsBack_summary hsite hzinvite
  | Comments => exact readsBack_comments hrows
  | Votes => exact readsBack_votes
  | ParticipantVotes => exact readsBack_participantVotes (hpids (.inl rfl)) (hsorted (.inl rfl))
  | ParticipantImportance => exact readsBack_participantImportance (hpids (.inr rfl)) (hsorted (.inr rfl))
  | CommentGroups => exact readsBack_commentGroups

/-- From what both servers have kept, over the requests that follow. -/
theorem served_eq_sent {requests : List Request} (hkeeps : Keeps now entry cache)
    (hrows : ∀ q ∈ requests, SameRows q.kind q.tables q.stored) (hlater : ∀ q ∈ requests, now ≤ q.now)
    (htimes : requests.Pairwise (·.now ≤ ·.now)) (hanswered : none ∉ served entry requests) (i : ℕ) (q : Request)
    (hq : requests[i]? = some q) :
    ∃ r : Response, (served entry requests)[i]? = some (some r) ∧ (sent cache requests)[i]? = some r.body ∧
      (q.kind ≠ .Format → Field.Clean q.site → Field.Clean q.tables.zinvite → ReadsBack q.kind q.tables r.body) := by
  induction requests generalizing now entry cache i with
  | nil => simp at hq
  | cons q' requests ih =>
    obtain ⟨hrow, hrows⟩ := forall_mem_cons.1 hrows
    obtain ⟨hle, hlater⟩ := forall_mem_cons.1 hlater
    obtain ⟨htime, htimes⟩ := pairwise_cons.1 htimes
    obtain ⟨⟨answer, entry'⟩, hread⟩ : ∃ p, read_cached q'.kind q'.stored q'.site q'.now entry = p := ⟨_, rfl⟩
    have hserved : served entry (q' :: requests) = answer :: served entry' requests := by rw [served, hread]
    rw [hserved, mem_cons, not_or] at hanswered
    obtain ⟨hanswer, hanswered⟩ := hanswered
    obtain ⟨r, rfl⟩ := Option.ne_none_iff_exists'.1 (Ne.symm hanswer)
    obtain ⟨hbody, hkept, hpids⟩ := read_cached_eq hrow (hkeeps.later hle) hread
    have hsent : sent cache (q' :: requests) = (sendExport q'.kind q'.tables q'.site q'.now cache).1 ::
        sent (sendExport q'.kind q'.tables q'.site q'.now cache).2 requests := rfl
    rw [hserved, hsent]
    cases i with
    | zero =>
      obtain rfl : q' = q := Option.some.inj hq
      refine ⟨r, rfl, congrArg some hbody.symm, fun hformat hsite hzinvite => ?_⟩
      rw [hbody]
      exact readsBack hrow hformat hsite hzinvite hpids
    | succ i => exact ih hkept hrows htime htimes hanswered i hq

/-- Over any run of requests that the service answers, its bodies are those of the server. -/
theorem exports_equal {requests : List Request} (hrows : ∀ q ∈ requests, SameRows q.kind q.tables q.stored)
    (htimes : requests.Pairwise (·.now ≤ ·.now)) (hanswered : none ∉ served none requests) (i : ℕ) (q : Request)
    (hq : requests[i]? = some q) :
    ∃ r : Response, (served none requests)[i]? = some (some r) ∧ (sent ⟨none, none, 0⟩ requests)[i]? = some r.body ∧
      (q.kind ≠ .Format → Field.Clean q.site → Field.Clean q.tables.zinvite → ReadsBack q.kind q.tables r.body) := by
  cases requests with
  | nil => simp at hq
  | cons q' requests =>
    have hlater : ∀ q ∈ q' :: requests, q'.now ≤ q.now := by
      rw [forall_mem_cons]
      exact ⟨le_rfl, (pairwise_cons.1 htimes).1⟩
    exact served_eq_sent (Keeps.empty q'.now) hrows hlater htimes hanswered i q hq

private def sampleStored : Stored where
  math := false
  comments := [⟨0, 0, some 1700000000000, "He said \"no\",\nthen yes".toList, 1, 1⟩]
  votes := [⟨0, 0, some (-1), some 1700000000000, none⟩]
  conversations := [⟨"Parks, and \"roads\"".toList, "Two\nlines".toList⟩]
  public_id := some "2demo".toList

private def sampleTables : Tables where
  comments := sampleStored.comments
  byTid := sampleStored.comments
  votes := sampleStored.votes
  conversation := ⟨"Parks, and \"roads\"".toList, "Two\nlines".toList⟩
  zinvite := "2demo".toList

private theorem sample_sameRows (kind : Kind) : SameRows kind sampleTables sampleStored where
  comments := rfl
  tids := nodup_singleton _
  byTid := ⟨.refl _, pairwise_singleton _ _⟩
  votes := rfl
  ordered := fun _ => pairwise_singleton _ _
  conversation := by
    rintro _ (_ | ⟨_, h⟩)
    · rfl
    · cases h
  zinvite := by
    rintro _ ⟨⟩
    rfl

theorem exports_equal_of_one_comment : ∃ r : Response,
    (served none [⟨.Summary, sampleStored, sampleTables, "https://pol.is".toList, 0⟩])[0]? = some (some r) ∧
      (sent ⟨none, none, 0⟩ [⟨.Summary, sampleStored, sampleTables, "https://pol.is".toList, 0⟩])[0]? =
        some r.body ∧ ReadsBack .Summary sampleTables r.body := by
  have hanswered : none ∉ served none [⟨.Summary, sampleStored, sampleTables, "https://pol.is".toList, 0⟩] := by
    simp (disch := exact rfl) only [sampleStored, Utf8.toList_of_eq]
    decide +kernel
  obtain ⟨r, hr, hbody, hread⟩ :=
    @exports_equal [⟨.Summary, sampleStored, sampleTables, "https://pol.is".toList, 0⟩]
      (by simpa using sample_sameRows .Summary) (pairwise_singleton _ _) hanswered 0 _ rfl
  exact ⟨r, hr, hbody, hread (by decide) (by decide +kernel) (by decide +kernel)⟩

/-- The summary for a site with two schemes. -/
private def twoSchemes : Text :=
  summary "https,http://pol.is".toList "2demo".toList "Parks, and \"roads\"".toList "Two\nlines".toList 1 1

/-- A site with the schemes of two proxies has a comma in it, and the record of the url has three fields. -/
theorem two_schemes_split_url : SameRows .Summary sampleTables sampleStored ∧ ∃ r : Response,
    (read_cached .Summary sampleStored "https,http://pol.is".toList 0 none).1 = some r ∧
      ¬ ReadsBack .Summary sampleTables r.body := by
  have hwidths : (Csv.parse twoSchemes).map (List.map List.length) = some [2, 3, 2, 2, 2, 2, 2, 2, 2] := by
    -- An equation lemma would decode the texts.
    delta twoSchemes summary declaration
    simp (disch := exact rfl) only [Utf8.toList_of_eq]
    decide +kernel
  have hanswer : (read_cached .Summary sampleStored "https,http://pol.is".toList 0 none).1 =
      some (.Csv twoSchemes) := by
    simp (disch := exact rfl) only [sampleStored, Utf8.toList_of_eq]
    rfl
  refine ⟨sample_sameRows .Summary, _, hanswer, ?_⟩
  rintro ⟨header, records, hparse, hlength, -⟩
  have hbody : Csv.parse twoSchemes = some (header :: records) := hparse
  rw [hbody, Option.map_some, map_cons] at hwidths
  obtain ⟨hheader, hrecords⟩ := List.cons.inj (Option.some.inj hwidths)
  have hthree : 3 ∈ records.map List.length := hrecords ▸ mem_cons_self
  obtain ⟨record, hrecord, hlen⟩ := mem_map.1 hthree
  have := hlength record hrecord
  omega

end Polis.ReportExport.Service
