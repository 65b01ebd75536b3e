import Polis.Treevite.Issuance

/-!
# The requests of the Node server that issue codes

A creation writes its wave and then looks for members of the parent wave; an acceptance marks its code and
then looks for child waves. Each statement commits on its own, but the codes of one member in one wave are
counted and inserted in a transaction under a lock. A statement may fail, also after it was applied.

Reference: `server/src/invites/treevites.ts`.
-/

namespace Polis.Treevite.Node

/-- The parsed numbers of a request; a missing count is zero. -/
structure Fields where
  invites_per_user : ℕ
  owner_invites : ℕ
  parent_wave : Option ℤ
deriving DecidableEq, Repr

/-- What follows when the codes of all members are issued. -/
inductive After
  | create (w : Wave)
  | accept (invite : Invite)
deriving DecidableEq, Repr

/-- Codes for nobody: those of the owner, and those that a root wave has for its users. -/
inductive Mint
  | owners
  | roots
deriving DecidableEq, Repr

/-- A request, by its next statement. -/
inductive Thread
  | idle
  /-- `select max(wave)` -/
  | numbering (f : Fields)
  /-- `select size` of the parent -/
  | sizing (f : Fields) (wave : ℕ) (parent : ℤ)
  /-- `insert into treevite_waves` -/
  | inserting (f : Fields) (wave : ℕ) (parent : ℤ) (parentSize : ℕ)
  /-- `insertInviteWithRetry`, with so many to come after it. -/
  | minting (w : Wave) (kind : Mint) (left attempt : ℕ)
  /-- `select id` of the parent -/
  | finding (w : Wave)
  /-- the members of the parent -/
  | members (w : Wave) (parentWaveId : ℕ)
  /-- `pg_advisory_xact_lock` -/
  | locking (after : After) (job : Job) (rest : List Job)
  | counting (after : After) (job : Job) (rest : List Job)
  /-- `insertInviteWithRetry` in the transaction that has written the rows. -/
  | filling (after : After) (job : Job) (rest : List Job) (left attempt : ℕ) (rows : List Invite)
  | committing (after : After) (job : Job) (rest : List Job) (rows : List Invite)
  /-- `select count(*)` of the wave -/
  | totalling (w : Wave)
  /-- the lookup of the code -/
  | looking (invite_code : String)
  /-- the statements that find or make the participant -/
  | joining (invite : Invite)
  /-- `update treevite_invites` -/
  | marking (invite : Invite) (pid : ℤ)
  /-- `upsertLoginCode` -/
  | login (invite : Invite) (pid : ℤ)
  /-- `select wave` of the wave that was joined -/
  | locating (invite : Invite) (pid : ℤ)
  /-- the child waves -/
  | children (invite : Invite) (pid : ℤ) (currentWave : ℕ)
  /-- `getZinvite` -/
  | answering (invite : Invite)
  | created (r : Response)
  | accepted (invite : Invite)
  | refused (e : String)
  | failed
deriving DecidableEq

structure State where
  db : Tables
  /-- The advisory lock of a wave and a participant. -/
  holder : ℕ × ℤ → Option ℕ
  threads : ℕ → Thread
  nextWave : ℕ
  nextInvite : ℕ

namespace State

variable (s : State)

def setThread (t : ℕ) (thread : Thread) : State := { s with threads := Function.update s.threads t thread }

def addWave (w : Wave) : State :=
  { s with db := { s.db with waves := s.db.waves ++ [w] }, nextWave := s.nextWave + 1 }

def addInvites (rows : List Invite) : State := { s with db := { s.db with invites := s.db.invites ++ rows } }

/-- The end of a transaction. -/
def release (t : ℕ) : State := { s with holder := fun l => if s.holder l = some t then none else s.holder l }

/-- An error ends the request, and its transaction. -/
def fail (t : ℕ) : State := (s.release t).setThread t .failed

end State

/-! ## From statement to statement -/

/-- `createRetroactiveInviteCodes` and `createParticipantInviteCodes`, from one job to the next. -/
def issue (after : After) : List Job → Thread
  | job :: rest => .locking after job rest
  | [] => match after with
      | .create w => .totalling w
      | .accept invite => .answering invite

/-- The codes of a root wave. -/
def startRoots (w : Wave) : Thread :=
  match w.invites_per_user with
  | 0 => .totalling w
  | n + 1 => .minting w .roots n 0

/-- Per-user codes, after those of the owner. -/
def perUser (w : Wave) : Thread :=
  if w.invites_per_user = 0 then .totalling w
  else if w.parent_wave = 0 then startRoots w
  else .finding w

def startOwners (w : Wave) : Thread :=
  match w.owner_invites with
  | 0 => perUser w
  | n + 1 => .minting w .owners n 0

/-- The loop goes on, or what follows it. -/
def nextMint (w : Wave) (kind : Mint) : ℕ → Thread
  | left + 1 => .minting w kind left 0
  | 0 => match kind with
      | .owners => perUser w
      | .roots => .totalling w

def nextFill (after : After) (job : Job) (rest : List Job) (rows : List Invite) : ℕ → Thread
  | left + 1 => .filling after job rest left 0 rows
  | 0 => .committing after job rest rows

/-- `maxAttempts` -/
def maxAttempts : ℕ := 5

/-- The unique keys of `treevite_invites` leave room for the row. -/
def accepts (db : Tables) (i : Invite) : Bool :=
  db.invites.all fun j => j.id ≠ i.id && (j.zid ≠ i.zid || j.invite_code ≠ i.invite_code)

/-- The checks and the unique key of `treevite_waves` leave room for the row. -/
def acceptsWave (db : Tables) (zid : ℤ) (f : Fields) (wave : ℕ) (parent : ℤ) (size : ℕ) : Bool :=
  0 ≤ parent && parent ≤ 2147483647 && wave ≤ 2147483647 && f.invites_per_user ≤ 2147483647 &&
    f.owner_invites ≤ 2147483647 && size ≤ 2147483647 && (0 < f.invites_per_user || 0 < f.owner_invites) &&
    (db.wavesOf zid).all (·.wave ≠ wave)

variable (zid : ℤ)

/-- The next statement of a request, with the random code of an insert and the participant of a join. -/
def run (s : State) (t : ℕ) (code : String) (participant : ℤ) : Thread → Option State
  | .numbering f =>
    let maxWave : ℕ := ((s.db.wavesOf zid).map (·.wave)).max?.getD 0
    let parentWave := f.parent_wave.getD maxWave
    some (s.setThread t (if 0 < parentWave then .sizing f (maxWave + 1) parentWave
      else .inserting f (maxWave + 1) parentWave 1))
  | .sizing f wave parent => match (s.db.wavesOf zid).find? fun w => (w.wave : ℤ) = parent with
      | none => some (s.setThread t (.refused "polis_err_treevite_parent_wave_not_found"))
      | some w => some (s.setThread t (.inserting f wave parent (max (w.size.getD 0) 1)))
  | .inserting f wave parent parentSize =>
    let derivedSize := parentSize * f.invites_per_user + f.owner_invites
    if acceptsWave s.db zid f wave parent derivedSize then
      let w : Wave :=
        ⟨s.nextWave, zid, wave, parent.toNat, f.invites_per_user, f.owner_invites, some derivedSize⟩
      some ((s.addWave w).setThread t (startOwners w))
    else some (s.fail t)
  | .minting w kind left attempt =>
    let i : Invite := ⟨s.nextInvite, zid, w.id, none, code, none, 0, none⟩
    let s : State := { s with nextInvite := s.nextInvite + 1 }
    if accepts s.db i then
      some ((s.addInvites [i]).setThread t (nextMint w kind left))
    else if attempt + 1 < maxAttempts then some (s.setThread t (.minting w kind left (attempt + 1)))
    else some (s.fail t)
  | .finding w => match (s.db.wavesOf zid).find? (·.wave = w.parent_wave) with
      | none => some (s.setThread t (.refused "polis_err_treevite_parent_wave_not_found"))
      | some parent => some (s.setThread t (.members w parent.id))
  | .members w parentWaveId =>
    let jobs := (s.db.codes parentWaveId).filterMap fun i =>
      i.invite_used_by_pid.map fun pid => (⟨w.id, i.id, pid, w.invites_per_user⟩ : Job)
    some (s.setThread t (issue (.create w) jobs))
  | .locking after job rest =>
    if s.holder (job.wave, job.pid) = none then
      some (({ s with holder := Function.update s.holder (job.wave, job.pid) (some t) } : State).setThread t
        (.counting after job rest))
    else none
  | .counting after job rest =>
    let missing := job.amount - (s.db.held job.wave job.pid).length
    some (s.setThread t (nextFill after job rest [] missing))
  | .filling after job rest left attempt rows =>
    let i : Invite := ⟨s.nextInvite, zid, job.wave, some job.parent_invite, code, some job.pid, 0, none⟩
    let s : State := { s with nextInvite := s.nextInvite + 1 }
    if accepts (s.addInvites rows).db i then
      some (s.setThread t (nextFill after job rest (rows ++ [i]) left))
    else if attempt + 1 < maxAttempts then some (s.setThread t (.filling after job rest left (attempt + 1) rows))
    else some (s.fail t)
  | .committing after job rest rows =>
    -- a key that another transaction has inserted meanwhile holds the insert up
    if rows.all (accepts s.db) then
      some (((s.addInvites rows).release t).setThread t (issue after rest))
    else none
  | .totalling w => some (s.setThread t (.created ⟨w.id, w.zid, w.wave, w.parent_wave, w.size.getD 0,
      w.invites_per_user, w.owner_invites, (s.db.codes w.id).length⟩))
  | .looking invite_code =>
    match s.db.invites.find? fun i => i.zid = zid ∧ i.invite_code = invite_code ∧ i.status = 0 with
    | none => some (s.setThread t (.refused "polis_err_treevite_invalid_or_used_invite"))
    | some invite => some (s.setThread t (.joining invite))
  | .joining invite => some (s.setThread t (.marking invite participant))
  | .marking invite pid =>
    if s.db.invites.any fun i => i.id = invite.id ∧ i.status = 0 then
      some (({ s with db := s.db.accept invite.id (some pid) } : State).setThread t (.login invite pid))
    else some (s.setThread t (.refused "polis_err_treevite_invite_race_condition"))
  | .login invite pid => some (s.setThread t (.locating invite pid))
  | .locating invite pid => match s.db.waves.find? (·.id = invite.wave_id) with
      | none => some (s.setThread t (.answering invite))
      | some w => some (s.setThread t (.children invite pid w.wave))
  | .children invite pid currentWave =>
    let childWaves := (s.db.wavesOf zid).filter fun w => w.parent_wave = currentWave ∧ 0 < w.invites_per_user
    let jobs := childWaves.map fun w => (⟨w.id, invite.id, pid, w.invites_per_user⟩ : Job)
    some (s.setThread t (issue (.accept invite) jobs))
  | .answering invite => some (s.setThread t (.accepted invite))
  | .idle | .created _ | .accepted _ | .refused _ | .failed => none

/-! ## Runs -/

inductive Event
  /-- A creation is sent; the moderator query may fail. -/
  | create (t : ℕ) (moderator : Option Bool) (f : Fields)
  | accept (t : ℕ) (invite_code : String)
  | run (t : ℕ) (code : String) (participant : ℤ)
  /-- The statement fails; the answer of a statement that was applied may be lost. -/
  | error (t : ℕ) (code : String) (participant : ℤ) (applied : Bool)

/-- The request has an answer. -/
def Thread.isEnded : Thread → Bool
  | .created _ | .accepted _ | .refused _ | .failed => true
  | _ => false

def next (s : State) : Event → Option State
  | .create t moderator f =>
    if s.threads t = .idle then
      some (match moderator with
      | none => s.setThread t .failed
      | some false => s.setThread t (.refused "polis_err_treevite_not_conversation_owner")
      | some true =>
        if f.invites_per_user = 0 ∧ f.owner_invites = 0 then
          s.setThread t (.refused "polis_err_treevite_wave_requires_invites")
        else s.setThread t (.numbering f))
    else none
  | .accept t invite_code => if s.threads t = .idle then some (s.setThread t (.looking invite_code)) else none
  | .run t code participant => run zid s t code participant (s.threads t)
  | .error t code participant applied =>
    if s.threads t = .idle ∨ (s.threads t).isEnded then none
    else if applied then (run zid s t code participant (s.threads t)).map (·.fail t)
    else some (s.fail t)

def Step (s : State) (e : Event) (s' : State) : Prop := next zid s e = some s'

/-- No wave, no code and no request yet. -/
def start (owner : ℤ → Option ℤ) (uid : ℤ → ℤ → Option ℤ) : State :=
  ⟨⟨owner, uid, [], []⟩, fun _ => none, fun _ => .idle, 0, 0⟩

end Polis.Treevite.Node
