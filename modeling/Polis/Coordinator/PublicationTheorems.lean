import Polis.Coordinator.Receipts

/-!
# Publication safety

Over every run: epochs and committed ticks increase, floors never fall, and a publication writes only
under its own dispatched, unexpired lease and its own durable admission. A replay is answered from the
receipt while there is one, and the request never commits again when there is none.
-/

namespace Polis.Coordinator

open Json
open Queue (Time Clock isSha256)

variable {b : Builtins} {db₀ db db' : Database} {e : Event}
variable {clock : Clock} {s : Session}
variable {a : PublishArgs} {tick cursor : ℤ}

/-! ## Writing -/

/-- A publication that wrote had the authority to, and took the next tick. -/
structure Wrote (b : Builtins) (db : Database) (s : Session) (clock : Clock) (a : PublishArgs)
    (tick : ℤ) : Prop where
  authorized : ∃ d, Authorized b db s clock a d
  durable : ∃ o, db.operations.find a.op = some o ∧ o.isFor b a ∧ o.xmin < db.xid
  tick : tick = nextTick (db.currentTick a.conv)

/-- A publication writes only with authority; any other answer leaves the tables as they were. -/
theorem publish_step (hi : Inv b db)
    {r : Except DbError Reply} (h : Step b db (.call s clock (.publish a) r) db') :
    (∃ tick cursor, r = .ok (.published (.committed tick cursor)) ∧ Wrote b db s clock a tick) ∨
      db' = { db with cachingTick := db'.cachingTick, xid := db'.xid } := by
  cases h with
  | refused _ _ _ => exact .inr rfl
  | done h =>
    obtain ⟨r, hr, rfl⟩ := replied_eq_ok.1 h
    rcases pcPublish_ok hr with ⟨g, -, -, rfl⟩ | ⟨-, -, -, rfl⟩ |
      ⟨d, _, _, _, _, _, _, _, hauth, rfl, -, -, -⟩
    · exact .inr rfl
    · exact .inr rfl
    · obtain ⟨o, ho, -, hfor⟩ := hauth.admitted
      exact .inl ⟨_, _, rfl, ⟨d, hauth⟩, ⟨o, ho, hfor, hi.durable o (Table.find_eq_some.1 ho).1⟩,
        rfl⟩

/-- The receipt of a writing publication, and the floor at its tick. -/
theorem committed_receipt
    (h : Step b db (.call s clock (.publish a) (.ok (.published (.committed tick cursor)))) db') :
    ∃ d, Authorized b db s clock a d ∧ tick = nextTick (db.currentTick a.conv) ∧
      db'.receipt a.op = some (a.generation b d tick cursor) ∧ atLeast (db'.floor a.conv) tick := by
  have hcommitted : Event.committed a.conv
      (.call s clock (.publish a) (.ok (.published (.committed tick cursor)))) = some tick := by
    simp [Event.committed]
  obtain ⟨htick, hfloor⟩ := committed_step h hcommitted
  cases h.effect with
  | quiet hquiet _ _ => cases hquiet
  | @committed s clock a d _ _ _ _ _ _ _ hauth _ hrec =>
    refine ⟨d, hauth, rfl, receipt_eq_some.2 ⟨?_, rfl⟩, hfloor⟩
    rw [Table.insert_rows hrec.generations]
    exact List.mem_append_right _ (List.mem_singleton.2 rfl)

/-! ## Replays -/

/-- Two requests with one identity: what a receipt records of them is the same. -/
def SameRequest (b : Builtins) (a a' : PublishArgs) : Prop :=
  a'.owner = a.owner ∧ a'.epoch = a.epoch ∧ b.sha256 a'.capability = b.sha256 a.capability ∧
    a'.expectedTick = a.expectedTick ∧
    ∃ d d', a.data b = .ok d ∧ a'.data b = .ok d' ∧ (a.recorded b d).same (a'.recorded b d')

theorem InputCheckpoint.same_refl (c : InputCheckpoint) : c.same c := ⟨rfl, rfl, rfl, rfl, rfl⟩

/-- A complete receipt is an exact replay of its own request. -/
theorem exactReplay_self {d : PayloadData} (h : db.complete (a.generation b d tick cursor)) :
    exactReplay b db a d (a.generation b d tick cursor) := by
  refine ⟨rfl, rfl, rfl, rfl, InputCheckpoint.same_refl _, ?_⟩
  rw [List.filter_eq_self.2]
  · exact h.length
  · exact fun p hp => decide_eq_true (h.recorded hp)

/-- A replay while the operation has its receipt. -/
structure AnsweredFromReceipt (b : Builtins) (db : Database) (a : PublishArgs) (tick cursor : ℤ) :
    Prop where
  exactly : ∀ s clock, namespaceAllowed db s a.env →
    pcPublish b db s clock a = .ok (.alreadyCommitted tick cursor, db)
  only : ∀ s clock a' r db', a'.op = a.op → pcPublish b db s clock a' = .ok (r, db') →
    SameRequest b a a' ∧ r = .alreadyCommitted tick cursor ∧ db' = db

theorem AnsweredFromReceipt.of_receipt {d : PayloadData}
    (hg : db.receipt a.op = some (a.generation b d tick cursor))
    (hcomplete : db.complete (a.generation b d tick cursor)) (hvalid : a.valid b)
    (hconv : a.zid ∈ db.conversations) (hdata : a.data b = .ok d) :
    AnsweredFromReceipt b db a tick cursor := by
  constructor
  · intro s clock hns
    refine bind_eq_ok.2 ⟨(), require_eq_ok.2 hns, bind_eq_ok.2 ⟨(), require_eq_ok.2 hvalid,
      bind_eq_ok.2 ⟨d, hdata, bind_eq_ok.2 ⟨(), require_eq_ok.2 hconv, ?_⟩⟩⟩⟩
    rw [hg]
    exact bind_eq_ok.2 ⟨(), require_eq_ok.2 (exactReplay_self hcomplete), rfl⟩
  · intro s clock a' r db' hop h
    have hg' : db.receipt a'.op = some (a.generation b d tick cursor) := hop ▸ hg
    rcases pcPublish_ok h with ⟨g, hrep, rfl, rfl⟩ | ⟨hnone, -⟩ |
      ⟨d', _, _, _, _, _, _, _, hauth, -⟩
    · obtain rfl : a.generation b d tick cursor = g := Option.some.inj (hg'.symm.trans hrep.receipt)
      obtain ⟨d', hdata', howner, hepoch, hcap, hexpected, hsame, -⟩ := hrep.exactly
      exact ⟨⟨howner.symm, hepoch.symm, hcap.symm, hexpected.symm, d, d', hdata, hdata', hsame⟩,
        rfl, rfl⟩
    · rw [hg'] at hnone
      cases hnone
    · have hnone := hauth.unwritten
      rw [hg'] at hnone
      cases hnone

/-- Once the generation of a request is gone, the request finds another generation or is refused. -/
theorem conflict_of_gone {r : Published}
    (hgone : Gone db a.conv (nextTick a.expectedTick)) (h : pcPublish b db s clock a = .ok (r, db')) :
    (∃ t, r = .conflict t) ∧ db' = db := by
  rcases pcPublish_ok h with ⟨g, hrep, -, -⟩ | ⟨-, rfl, -, rfl⟩ | ⟨d, _, _, _, _, _, _, _, hauth, -⟩
  · exfalso
    obtain ⟨hmem, hop⟩ := receipt_eq_some.1 hrep.receipt
    obtain ⟨d, -, -, -, -, hexpected, -⟩ := hrep.exactly
    have htick : g.mathTick = nextTick g.expectedTick := (db.generations.checked g hmem).2.2.2.2.2.2.2.2.2.2
    have hconv : g.conv = a.conv := by
      obtain ⟨henv, hrest⟩ := Prod.mk.inj hop
      obtain ⟨hzid, -⟩ := Prod.mk.inj hrest
      exact Prod.ext henv hzid
    exact hgone.absent g hmem hconv (htick.trans (congrArg nextTick hexpected))
  · exact ⟨⟨_, rfl⟩, rfl⟩
  · exfalso
    have hlt := lt_nextTick (atLeast_currentTick.2 (.inr (.inr hgone.floor)))
    rw [hauth.current] at hlt
    exact hlt.false

/-! ## Runs -/

/-- What becomes of a committed publication. -/
theorem replay_run {post : List Event} {db₁ : Database} (hi : Inv b db₀)
    (hstep : Step b db₀ (.call s clock (.publish a) (.ok (.published (.committed tick cursor)))) db₁)
    (hpost : Run (Step b) db₁ post db) :
    (post.any (Event.cleaned a.op) = false → AnsweredFromReceipt b db a tick cursor) ∧
      (post.any (Event.cleaned a.op) = true → ∀ s' clock' r db',
        pcPublish b db s' clock' a = .ok (r, db') → (∃ t, r = .conflict t) ∧ db' = db) := by
  obtain ⟨d, hauth, htick, hreceipt, hfloor⟩ := committed_receipt hstep
  have hi₁ : Inv b db₁ := hi.step hstep
  have hidb : Inv b db := hpost.keeps (Inv b) hi₁ fun _ _ _ h hs => h.step hs
  rcases receipt_run hreceipt hfloor hpost with ⟨hnone, hg, -⟩ | ⟨hsome, hgone⟩
  · rw [hnone]
    refine ⟨fun _ => ?_, fun h => nomatch h⟩
    have hconv : a.zid ∈ db.conversations := by
      rw [((hstep.setup).trans (setup_run hpost)).conversations]
      exact hauth.conversation
    exact .of_receipt hg (hidb.complete _ (receipt_eq_some.1 hg).1) hauth.valid hconv hauth.data
  · rw [hsome]
    refine ⟨(fun h => nomatch h), fun _ s' clock' r db' h => conflict_of_gone ?_ h⟩
    rw [← hauth.current, ← htick]
    exact hgone

/-- Over every run of the calls, with damage to `math_ticks` in between: the epochs of a lease and the
committed ticks of a conversation increase; a publication writes only when it is authorized, at the next
tick; no floor falls; an operation has one receipt, from which its request is answered until it is
cleaned up, and after that the request does not commit. -/
theorem publication_safety {es : List Event} (h0 : Installed db₀) (h : Run (Step b) db₀ es db) :
    (∀ k, (es.filterMap (Event.acquired k)).Pairwise (· < ·) ∧
      (es.filterMap (Event.committed k)).Pairwise (· < ·)) ∧
    (∀ s clock a r db', Step b db (.call s clock (.publish a) r) db' →
      (∃ tick cursor, r = .ok (.published (.committed tick cursor)) ∧ Wrote b db s clock a tick) ∨
        db' = { db with cachingTick := db'.cachingTick, xid := db'.xid }) ∧
    (∀ k f es' db', db.floors.find k = some f → Run (Step b) db es' db' →
      ∃ f', db'.floors.find k = some f' ∧ f.mathTick ≤ f'.mathTick ∧
        f.cachingTick ≤ f'.cachingTick) ∧
    (∀ g ∈ db.generations.rows, ∀ g' ∈ db.generations.rows, g.op = g'.op → g = g') ∧
    ∀ pre s clock a tick cursor post,
      es = pre ++ .call s clock (.publish a) (.ok (.published (.committed tick cursor))) :: post →
      (post.any (Event.cleaned a.op) = false → AnsweredFromReceipt b db a tick cursor) ∧
      (post.any (Event.cleaned a.op) = true → ∀ s' clock' r db',
        pcPublish b db s' clock' a = .ok (r, db') → (∃ t, r = .conflict t) ∧ db' = db) := by
  have hi : Inv b db := .run h0 h
  have hcursors : CursorsTaken db := by
    apply h.keeps CursorsTaken
    · intro k f hf
      rw [h0.floors] at hf
      cases hf
    · exact fun _ _ _ hi hs => hi.step hs
  refine ⟨fun k => ⟨acquired_run h, (committed_run h).1⟩, fun s clock a r db' => publish_step hi,
    fun k f es' db' hf hrun => floor_run hcursors hrun hf, fun g hg g' hg' hop => ?_, ?_⟩
  · exact Table.unique_inj hg hg' rfl (congrArg some hop.symm)
  · rintro pre s clock a tick cursor post rfl
    obtain ⟨db₁, hpre, hrest⟩ := h.append_inv
    obtain ⟨db₂, hstep, hpost⟩ := hrest.cons_inv
    exact replay_run (.run h0 hpre) hstep hpost

/-! ## Samples -/

/-- The bytes of a payload, and its canonical text. -/
private def samplePayload : Bytes := utf8 "\x7b\"zid\":1,\"lastVoteTimestamp\":5\x7d"

private def sampleCanonical : Bytes := utf8 "\x7b\"lastVoteTimestamp\":5,\"zid\":1\x7d"

/-- The digests of the bytes that the samples hash. -/
private def sampleSha256 (bytes : Bytes) : String :=
  if bytes = samplePayload then "0fa70407fc7f1bec4bf821e1771ee46d142b8708c79423a3d2aa384ea71100fc"
  else if bytes = sampleCanonical then
    "5e9c00082c35e537bd65636df1bbec7ce1eb824fd67bdb1166f3b6264281fd16"
  else if bytes = utf8 "\x7b\x7d" then
    "44136fa355b3678a1146ad16f7e8649e94fb4fc21fe77e8310c060f61caaff8a"
  else "66687aadf862bd776c8fc18b8e9f8e20089714856ee233b3902a591d0d5f2925"

private theorem sampleSha256_hex (bytes : Bytes) : isSha256 (sampleSha256 bytes) = true := by
  unfold sampleSha256
  split
  · decide +kernel
  · split
    · decide +kernel
    · split
      · decide +kernel
      · decide +kernel

mutual

/-- `jsonb::text`, where no string has a character to escape -/
private def sampleText : Json Decimal → String
  | .null => "null"
  | .bool true => "true"
  | .bool false => "false"
  | .number n => String.ofList n.text
  | .string s => "\"" ++ s ++ "\""
  | .array a => "[" ++ sampleItems a ++ "]"
  | .object m => "\x7b" ++ sampleMembers m ++ "\x7d"

private def sampleItems : List (Json Decimal) → String
  | [] => ""
  | [v] => sampleText v
  | v :: a => sampleText v ++ ", " ++ sampleItems a

private def sampleMembers : List (String × Json Decimal) → String
  | [] => ""
  | [(k, v)] => "\"" ++ k ++ "\": " ++ sampleText v
  | (k, v) :: m => "\"" ++ k ++ "\": " ++ sampleText v ++ ", " ++ sampleMembers m

end

private def sampleJson : Json Decimal :=
  .object [("zid", jsonInt 1), ("lastVoteTimestamp", jsonInt 5)]

def sampleBuiltins : Builtins where
  sha256 := sampleSha256
  sha256_hex := sampleSha256_hex
  uniqueObject bytes := bytes = samplePayload
  jsonb bytes := if bytes = samplePayload then some sampleJson else none
  text v := sampleText v

/-- A conversation, a budget and a process of the namespace. -/
def sampleDatabase : Database where
  conversations := [1]
  roles := [⟨10, "worker", true⟩]
  namespaces := ⟨[⟨"prod", .python, 10⟩], by decide, by decide, by decide⟩
  principals := ⟨[⟨10, "worker", "prod", false⟩], by decide, by decide, by decide⟩
  budgets := ⟨[⟨"prod", 10, 1073741824⟩], by decide, by decide, by decide⟩

theorem sampleDatabase_installed : Installed sampleDatabase :=
  ⟨rfl, rfl, rfl, rfl, rfl, rfl, rfl, rfl⟩

/-- A publication of the sample payloads. -/
def sampleRequest (operation : String) (expected : Option ℤ) : PublishArgs where
  env := "prod"
  zid := 1
  owner := "owner"
  epoch := 1
  operation := operation
  capability := List.replicate 32 0
  expectedTick := expected
  checkpoint := .object []
  main := samplePayload
  bidtopid := samplePayload
  ptptstats := samplePayload

/-- The columns of its dispatch. -/
def sampleColumns (operation : String) (expected : Option ℤ) : DispatchColumns where
  operationId := operation
  capabilitySha256 := "66687aadf862bd776c8fc18b8e9f8e20089714856ee233b3902a591d0d5f2925"
  checkpointSha256 := "44136fa355b3678a1146ad16f7e8649e94fb4fc21fe77e8310c060f61caaff8a"
  expectedTick := expected
  marginMs := 1000

/-- The calls of the process at one time. -/
def sampleCalls (calls : List Call) : List (Session × Clock × Call) :=
  calls.map fun c => (⟨"worker", true⟩, ⟨0, fun _ => 0⟩, c)

/-- A dispatch, its admission, its publication and its reconciliation. -/
def samplePublication (operation : String) (expected : Option ℤ) : List Call :=
  [.dispatch ("prod", 1) "owner" 1 (sampleColumns operation expected),
    .admission ⟨"prod", 1, "owner", 1, operation,
      "44136fa355b3678a1146ad16f7e8649e94fb4fc21fe77e8310c060f61caaff8a", 2097152⟩,
    .publish (sampleRequest operation expected), .reconcile ("prod", 1, operation)]

/-- An admitted publication. -/
def sampleAdmitted : List Call :=
  .acquire ("prod", 1) "owner" 60 :: (samplePublication "first" none).take 2

/-- The publication itself. -/
private def publishFirst : Session × Clock × Call :=
  (⟨"worker", true⟩, ⟨0, fun _ => 0⟩, .publish (sampleRequest "first" none))

/-- The publication and the database after it. -/
def samplePublished : Event × Database :=
  Call.event sampleBuiltins (history sampleBuiltins sampleDatabase (sampleCalls sampleAdmitted)).2
    publishFirst

theorem samplePublished_outcome :
    samplePublished.1.outcome = some (.ok (.published (.committed 0 1))) := by
  decide +kernel

theorem samplePublished_allowed : namespaceAllowed samplePublished.2 ⟨"worker", true⟩ "prod" := by
  decide +kernel

/-- The replay of the first publication is answered from its receipt. -/
theorem publication_safety_replayed :
    pcPublish sampleBuiltins samplePublished.2 ⟨"worker", true⟩ ⟨0, fun _ => 0⟩
      (sampleRequest "first" none) = .ok (.alreadyCommitted 0 1, samplePublished.2) := by
  have hrun := history_run sampleBuiltins sampleDatabase (sampleCalls sampleAdmitted)
  have hstep : Step sampleBuiltins _ samplePublished.1 samplePublished.2 :=
    Call.event_step sampleBuiltins _ publishFirst
  have hevent : samplePublished.1 = .call _ _ _ _ := Call.event_eq sampleBuiltins samplePublished_outcome
  obtain ⟨-, -, -, -, hreplays⟩ := publication_safety sampleDatabase_installed (hrun.snoc hstep)
  exact ((hreplays _ _ _ _ _ _ [] (congrArg _ (congrArg ([·]) hevent))).1 rfl).exactly _ _
    samplePublished_allowed

/-- Two publications, the first of which is then cleaned up. -/
def sampleCleanup : List Call :=
  .acquire ("prod", 1) "owner" 60 :: samplePublication "first" none ++
    samplePublication "second" (some 0) ++
    [.release ("prod", 1) "owner" 1, .cleanup ("prod", 1, "first")]

/-- After its receipt is cleaned up, the first publication is refused and not answered. -/
theorem cleaned_replay_refused :
    (history sampleBuiltins sampleDatabase (sampleCalls
      (sampleCleanup ++ [.publish (sampleRequest "first" none)]))).1.filterMap Event.outcome =
    [.ok (.acquired (some 1)), .ok (.dispatched none), .ok (.admitted .admitted),
      .ok (.published (.committed 0 1)), .ok (.reconciled true), .ok (.dispatched none),
      .ok (.admitted .admitted), .ok (.published (.committed 1 2)), .ok (.reconciled true), .ok .done,
      .ok (.cleaned true), .error (.raised "P2005" "LEASE-EXPIRED")] := by
  decide +kernel

end Polis.Coordinator
