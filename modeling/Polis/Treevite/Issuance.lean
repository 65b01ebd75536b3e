import Polis.Treevite.Waves

/-!
# The threads that issue codes

Creations of waves, acceptances of codes, logins and the top-ups that follow them run in threads of their
own. A thread may fail before any of its statements; what its transaction wrote is then gone, and its locks
are free. A commit may be lost, so that nobody knows whether it was applied.

Reference: `queue-rs/polis-api/src/post_treevite_waves.rs`, `queue-rs/polis-api/src/treevite_write.rs`.
-/

namespace Polis.Treevite

open Function

/-- The advisory locks, by what their keys are made of. -/
inductive Lock
  | ownerCodes (owner : ℤ)
  | waves (zid : ℤ)
  | perUserCodes (wave : ℕ) (pid : ℤ)
deriving DecidableEq, Repr

/-- How far a creation has come before it writes. -/
inductive Stage
  | authorized
  | owned (owner : ℤ)
  | ownerLocked (owner : ℤ)
  | locked (owner : ℤ)
  | numbered (owner : ℤ) (wave : ℕ) (parent : ℤ)
  | parented (owner : ℤ) (wave : ℕ) (parent : ℤ) (parentSize : ℕ) (members : List (ℕ × ℤ))

/-- What a thread does between transactions: codes to issue, and codes that the member used, with their
waves. -/
structure TopUp where
  zid : ℤ
  pid : ℤ
  jobs : List Job
  parents : List (ℕ × ℕ)

/-- What a transaction is for; a creation reconciles the other waves once. -/
inductive Purpose
  | create (owner : ℤ) (wave : Wave) (reconciled : Bool)
  | fill (then' : TopUp)

/-- The next statement of a transaction that writes. -/
inductive Doing
  /-- So many codes without a member are to be inserted. -/
  | mint (left : ℕ)
  | lock (job : Job)
  | count (job : Job)
  | fill (job : Job) (left : ℕ)
  | reconcile
  | commit

inductive Thread
  | idle
  | creating (zid : ℤ) (f : Fields) (stage : Stage)
  | writing (zid : ℤ) (purpose : Purpose) (rows : Rows) (doing : Doing) (rest : List Job)
  | toppingUp (work : TopUp)
  | ended

structure State where
  db : Tables
  holder : Lock → Option ℕ
  threads : ℕ → Thread
  nextWave : ℕ
  nextInvite : ℕ
  /-- What creations answered. -/
  answers : ℕ → Option (Except ErrorCode Response)
  /-- What was committed, by whom. -/
  log : List (ℕ × Rows)

namespace State

variable (s : State)

def setThread (t : ℕ) (thread : Thread) : State := { s with threads := update s.threads t thread }

/-- The first answer counts. -/
def reply (t : ℕ) (answer : Except ErrorCode Response) : State :=
  { s with answers := update s.answers t ((s.answers t).or (some answer)) }

/-- The end of a transaction. -/
def release (t : ℕ) : State := { s with holder := fun l => if s.holder l = some t then none else s.holder l }

/-- A lock is taken, if no other thread has it. -/
def take (t : ℕ) (l : Lock) : Option State :=
  if s.holder l = none ∨ s.holder l = some t then some { s with holder := update s.holder l (some t) }
  else none

/-- A creation ends without a commit. -/
def refuse (t : ℕ) (e : ErrorCode) : State := ((s.release t).reply t (.error e)).setThread t .ended

/-- The rows of a transaction are committed. -/
def apply (t : ℕ) (rows : Rows) : State := { s with db := s.db.withRows rows, log := (t, rows) :: s.log }

end State

/-- What comes after the codes of one member. -/
def Purpose.next : Purpose → List Job → Doing × List Job
  | _, job :: rest => (.lock job, rest)
  | .create _ _ false, [] => (.reconcile, [])
  | _, [] => (.commit, [])

/-- The response of a creation. -/
def response (db : Tables) (w : Wave) : Response :=
  ⟨w.id, w.zid, w.wave, w.parent_wave, w.size.getD 0, w.invites_per_user, w.owner_invites, (db.codes w.id).length⟩

inductive Event
  /-- A creation begins; the moderator query may fail. -/
  | begin (t : ℕ) (zid : ℤ) (admin : Bool) (moderator : Option Bool) (f : Fields)
  /-- The next statement of a creation that has not written. -/
  | advance (t : ℕ)
  /-- The next statement of a transaction that writes, with a random code. -/
  | write (t : ℕ) (code : String)
  | commit (t : ℕ)
  /-- The commit fails, and may have been applied. -/
  | lose (t : ℕ) (applied : Bool)
  | fail (t : ℕ)
  /-- The caller of a creation is told that its time is over. -/
  | expire (t : ℕ)
  /-- A member uses a code, or it is used up for nobody. -/
  | accept (t : ℕ) (zid : ℤ) (invite : ℕ) (pid : Option ℤ)
  | login (t : ℕ) (zid pid : ℤ)
  | reconcileChildren (t : ℕ) (zid : ℤ) (consumed : String) (member : Option ℤ)
  /-- A top-up goes on. -/
  | resume (t : ℕ)
  /-- A participant joins. -/
  | join (zid pid uid : ℤ)

variable (caps : Caps)

/-- The statements before the first that writes, and the insert of the wave. -/
def advance (s : State) (t : ℕ) (zid : ℤ) (f : Fields) : Stage → Option State
  | .authorized => match s.db.owner zid with
      | none => some (s.refuse t .createWave)
      | some owner => some (s.setThread t (.creating zid f (.owned owner)))
  | .owned owner => (s.take t (.ownerCodes owner)).map (·.setThread t (.creating zid f (.ownerLocked owner)))
  | .ownerLocked owner => (s.take t (.waves zid)).map (·.setThread t (.creating zid f (.locked owner)))
  | .locked owner => match number s.db zid f with
      | .error e => some (s.refuse t e)
      | .ok (wave, parent) => some (s.setThread t (.creating zid f (.numbered owner wave parent)))
  | .numbered owner wave parent => match parentOf s.db zid parent f with
      | .error e => some (s.refuse t e)
      | .ok (size, members) => some (s.setThread t (.creating zid f (.parented owner wave parent size members)))
  | .parented owner wave parent parentSize members => match plan caps s.db zid owner parent parentSize f with
      | .error e => some (s.refuse t e)
      | .ok p =>
        let w : Wave := ⟨s.nextWave, zid, wave, p.parent_wave, p.invites_per_user, p.owner_invites, some p.size⟩
        -- the codes of a root wave are for nobody
        let root := if p.parent_wave = 0 then p.invites_per_user else 0
        let jobs := members.map fun m => (⟨w.id, m.1, m.2, p.invites_per_user⟩ : Job)
        some (({ s with nextWave := s.nextWave + 1 } : State).setThread t
          (.writing zid (.create owner w false) ⟨[w], []⟩ (.mint (p.owner_invites + root)) jobs))

/-- The code is new in the conversation. -/
def Tables.newCode (db : Tables) (zid : ℤ) (code : String) : Bool :=
  db.invites.all fun i => i.zid ≠ zid || i.invite_code ≠ code

/-- `insert`, with the code that is new. -/
def insert (s : State) (t : ℕ) (zid : ℤ) (purpose : Purpose) (rows : Rows) (wave : ℕ) (parent : Option ℕ)
    (pid : Option ℤ) (code : String) (doing : Doing) (rest : List Job) : Option State :=
  if (s.db.withRows rows).newCode zid code then
    let i : Invite := ⟨s.nextInvite, zid, wave, parent, code, pid, 0, none⟩
    some (({ s with nextInvite := s.nextInvite + 1 } : State).setThread t
      (.writing zid purpose ⟨rows.waves, rows.invites ++ [i]⟩ doing rest))
  else none

/-- The next statement of a transaction that writes. -/
def write (s : State) (t : ℕ) (code : String) (zid : ℤ) (purpose : Purpose) (rows : Rows) (rest : List Job) :
    Doing → Option State
  | .mint 0 => some (s.setThread t (.writing zid purpose rows (purpose.next rest).1 (purpose.next rest).2))
  | .mint (left + 1) => match purpose with
      | .create _ w _ => insert s t zid purpose rows w.id none none code (.mint left) rest
      | .fill _ => none
  | .lock job =>
    (s.take t (.perUserCodes job.wave job.pid)).map (·.setThread t (.writing zid purpose rows (.count job) rest))
  | .count job =>
    some (s.setThread t (.writing zid purpose rows
      (.fill job (job.amount - ((s.db.withRows rows).held job.wave job.pid).length)) rest))
  | .fill _ 0 => some (s.setThread t (.writing zid purpose rows (purpose.next rest).1 (purpose.next rest).2))
  | .fill job (left + 1) =>
    insert s t zid purpose rows job.wave (some job.parent_invite) (some job.pid) code (.fill job left) rest
  | .reconcile => match purpose with
      | .create owner w _ =>
        let purpose := Purpose.create owner w true
        let next := purpose.next (reconcile (s.db.withRows rows) zid w.id)
        some (s.setThread t (.writing zid purpose rows next.1 next.2))
      | .fill _ => none
  | .commit => none

/-- The codes of the transaction are still new. -/
def Tables.accepts (db : Tables) (rows : Rows) : Bool := rows.invites.all fun i => db.newCode i.zid i.invite_code

/-- A thread whose transaction has ended. -/
def resumed (s : State) (t : ℕ) : Purpose → State
  | .create _ w _ => (s.reply t (.ok (response s.db w))).setThread t .ended
  | .fill then' => s.setThread t (.toppingUp then')

/-- A code is used; only an unused one can be. -/
def Tables.accept (db : Tables) (invite : ℕ) (pid : Option ℤ) : Tables :=
  { db with invites := db.invites.map fun i =>
      if i.id = invite ∧ i.status = 0 then { i with status := 1, invite_used_by_pid := pid } else i }

/-- A step, when it can be made. -/
def step (s : State) : Event → Option State
  | .begin t zid admin moderator f => match s.threads t with
      | .idle => match authorize admin moderator f with
          | .error e => some (s.refuse t e)
          | .ok () => some (s.setThread t (.creating zid f .authorized))
      | _ => none
  | .advance t => match s.threads t with
      | .creating zid f stage => advance caps s t zid f stage
      | _ => none
  | .write t code => match s.threads t with
      | .writing zid purpose rows doing rest => write s t code zid purpose rows rest doing
      | _ => none
  | .commit t => match s.threads t with
      | .writing _ purpose rows .commit _ =>
        if s.db.accepts rows then some (resumed ((s.apply t rows).release t) t purpose) else none
      | _ => none
  | .lose t applied => match s.threads t with
      | .writing _ (.create _ _ _) rows .commit _ =>
        if applied then
          if s.db.accepts rows then some ((s.apply t rows).refuse t .outcomeUnknown) else none
        else some (s.refuse t .outcomeUnknown)
      | .writing _ (.fill _) rows .commit _ =>
        if applied then
          if s.db.accepts rows then some (((s.apply t rows).release t).setThread t .ended) else none
        else some ((s.release t).setThread t .ended)
      | _ => none
  | .fail t => match s.threads t with
      | .creating _ _ _ | .writing _ (.create _ _ _) _ _ _ => some (s.refuse t .createWave)
      | .writing _ (.fill _) _ _ _ | .toppingUp _ => some ((s.release t).setThread t .ended)
      | _ => none
  | .expire t => match s.threads t with
      | .creating _ _ _ | .writing _ (.create _ _ _) _ _ _ => some (s.reply t (.error .outcomeUnknown))
      | _ => none
  | .accept t zid invite pid => match s.threads t with
      | .idle => match s.db.invites.find? fun i => i.id = invite ∧ i.zid = zid ∧ i.status = 0 with
          | none => none
          | some i => some (({ s with db := s.db.accept invite pid } : State).setThread t (match pid with
              | none => .ended
              | some pid => .toppingUp ⟨zid, pid, [], [(i.id, i.wave_id)]⟩))
      | _ => none
  | .login t zid pid => match s.threads t with
      | .idle =>
        let parents := (((s.db.invites.filter fun i => i.zid = zid ∧ i.invite_used_by_pid = some pid ∧ i.status = 1
          ).insertionSort (·.id ≤ ·.id)).take 11).map fun i => (i.id, i.wave_id)
        some (s.setThread t (if parents.length ≤ 10 then .toppingUp ⟨zid, pid, [], parents⟩ else .ended))
      | _ => none
  | .reconcileChildren t zid consumed member => match s.threads t with
      | .idle => some (s.setThread t (.toppingUp ⟨zid, 0, reconcileChildren s.db zid consumed member, []⟩))
      | _ => none
  | .resume t => match s.threads t with
      -- `fill_child`
      | .toppingUp ⟨zid, pid, job :: jobs, parents⟩ =>
        some (s.setThread t (if job.amount ≤ 5 then
          .writing zid (.fill ⟨zid, pid, jobs, parents⟩) ⟨[], []⟩ (.lock job) [] else .ended))
      | .toppingUp ⟨zid, pid, [], (invite, wave) :: parents⟩ =>
        some (s.setThread t (match issueChildren s.db zid pid invite wave with
          | some jobs => .toppingUp ⟨zid, pid, jobs, parents⟩
          | none => .ended))
      | .toppingUp ⟨_, _, [], []⟩ => some (s.setThread t .ended)
      | _ => none
  | .join zid pid uid => match s.db.uid zid pid with
      | some _ => none
      | none =>
        let uids := update (s.db.uid zid) pid (some uid)
        some { s with db := { s.db with uid := update s.db.uid zid uids } }

inductive Reachable (start : State) : State → Prop
  | start : Reachable start start
  | step {s s' : State} {e : Event} : Reachable start s → step caps s e = some s' → Reachable start s'

end Polis.Treevite
