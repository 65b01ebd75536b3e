import Polis.Treevite.Waves

/-!
# Accepting an invite on the Node server

An acceptance makes its participant first and marks the invite afterwards, in statements that commit one by
one. The gate of a Treevite conversation only asks whether the user has a participant there.

Reference: `server/src/invites/treevites.ts` (`handle_POST_treevite_acceptInvite`), the Treevite gate of
`server/src/auth/ensure-participant.ts`.
-/

namespace Polis.Treevite.Accept

/-! ## Tables -/

/-- A row of `participants` of the conversation. -/
structure Participant where
  uid : ℤ
  pid : ℤ
deriving DecidableEq, Repr

/-- A row of `treevite_login_codes`, which keeps hashes of the code. -/
structure LoginCode where
  pid : ℤ
  code : String
  /-- The acceptance that wrote the code. -/
  writer : Option ℕ
  /-- It took the place of another code. -/
  replaced : Bool
deriving DecidableEq, Repr

/-- What the token of a request names; its pid may be of another conversation. -/
structure Caller where
  uid : Option ℤ
  pid : Option ℤ
deriving DecidableEq, Repr

/-- The answer 201, with what the token carries. -/
structure Answer where
  wave_id : ℕ
  invite_id : ℕ
  login_code : String
  uid : ℤ
  pid : ℤ
deriving DecidableEq, Repr

/-- A request, by its next statement; `enrolled` says that it has made the participant. -/
inductive Request
  | idle
  /-- the lookup of an unused code -/
  | looking (caller : Caller) (code : String)
  /-- `getPidPromise` -/
  | finding (invite : Invite) (uid : ℤ)
  /-- `insert into users` -/
  | adding (invite : Invite)
  /-- `addParticipant`, which is tried twice -/
  | enrolling (invite : Invite) (uid : ℤ) (retried : Bool)
  /-- `update treevite_invites` -/
  | marking (invite : Invite) (uid pid : ℤ) (enrolled : Bool)
  /-- `upsertLoginCode` -/
  | coding (invite : Invite) (uid pid : ℤ) (enrolled : Bool)
  /-- `createParticipantInviteCodes` and `getZinvite` -/
  | issuing (invite : Invite) (uid pid : ℤ) (enrolled replaced : Bool) (code : String)
  | accepted (a : Answer)
  /-- the gate of `_ensureParticipantInternal` -/
  | gating (uid : Option ℤ)
  /-- `_getOrCreateParticipant` for the owner -/
  | joining (uid : ℤ)
  | ensured (p : Participant)
  | refused (e : String)
  | failed
deriving DecidableEq

structure State where
  participants : List Participant
  invites : List Invite
  logins : List LoginCode
  nextUid : ℤ
  /-- The users that callers have a token of, for this conversation or another one. -/
  identities : List ℤ
  requests : ℕ → Request
  /-- The invites that were marked, and by which requests. -/
  marks : List (ℕ × ℕ)

namespace State

variable (s : State)

def setRequest (t : ℕ) (r : Request) : State := { s with requests := Function.update s.requests t r }

/-- `getPidPromise` -/
def pidOf (uid : ℤ) : Option ℤ := (s.participants.find? (·.uid = uid)).map (·.pid)

/-- `pid_auto` -/
def nextPid : ℤ := (s.participants.map (·.pid)).foldr max (-1) + 1

/-- The participants row of a user who has none. -/
def enroll (uid : ℤ) : State := { s with participants := s.participants ++ [⟨uid, s.nextPid⟩] }

/-- The invite is there and unused. -/
def unused (id : ℕ) : Bool := s.invites.any fun i => i.id = id ∧ i.status = 0

def mark (t id : ℕ) (pid : ℤ) : State :=
  { s with
    invites := s.invites.map fun i =>
      if i.id = id ∧ i.status = 0 then { i with status := 1, invite_used_by_pid := some pid } else i
    marks := (id, t) :: s.marks }

/-- The participant has a login code. -/
def hasLogin (pid : ℤ) : Bool := s.logins.any (·.pid = pid)

/-- `on conflict (zid, pid) do update` -/
def upsertLogin (t : ℕ) (pid : ℤ) (code : String) : State :=
  { s with logins := s.logins.filter (·.pid ≠ pid) ++ [⟨pid, code, some t, s.hasLogin pid⟩] }

end State

/-! ## Statements -/

variable (owner : ℤ)

/-- The next statement of a request, with the login code that is generated. -/
def run (s : State) (t : ℕ) (code : String) : Request → Option State
  | .looking caller invite_code =>
    match s.invites.find? fun i => i.invite_code = invite_code ∧ i.status = 0 with
    | none => some (s.setRequest t (.refused "polis_err_treevite_invalid_or_used_invite"))
    | some invite =>
      let pid := caller.pid.getD 0
      match caller.uid with
      | some uid => some (s.setRequest t (if uid ≠ 0 ∧ 0 < pid then .finding invite uid else .adding invite))
      | none => some (s.setRequest t (.adding invite))
  | .finding invite uid => match s.pidOf uid with
      | some pid => some (s.setRequest t (.marking invite uid pid false))
      | none => some (s.setRequest t (.enrolling invite uid false))
  | .adding invite =>
    some (({ s with nextUid := s.nextUid + 1 } : State).setRequest t (.enrolling invite s.nextUid false))
  | .enrolling invite uid retried => match s.pidOf uid with
      | none => some ((s.enroll uid).setRequest t (.marking invite uid s.nextPid true))
      -- the unique key of the user, found again by the second attempt
      | some _ => some (s.setRequest t (if retried then .failed else .enrolling invite uid true))
  | .marking invite uid pid enrolled =>
    if s.unused invite.id then some ((s.mark t invite.id pid).setRequest t (.coding invite uid pid enrolled))
    else some (s.setRequest t (.refused "polis_err_treevite_invite_race_condition"))
  | .coding invite uid pid enrolled =>
    -- the lookup hash of a code is unique
    if s.logins.any fun l => l.pid ≠ pid ∧ l.code = code then some (s.setRequest t .failed)
    else some ((s.upsertLogin t pid code).setRequest t
      (.issuing invite uid pid enrolled (s.hasLogin pid) code))
  | .issuing invite uid pid _ _ code =>
    some (({ s with identities := uid :: s.identities } : State).setRequest t
      (.accepted ⟨invite.wave_id, invite.id, code, uid, pid⟩))
  | .gating (some uid) => match s.pidOf uid with
      | some pid => some (s.setRequest t (.ensured ⟨uid, pid⟩))
      | none => some (s.setRequest t (if uid = owner then .joining uid
          else .refused "polis_err_treevite_auth_required"))
  | .gating none =>
    -- the new user is made before the gate
    some (({ s with nextUid := s.nextUid + 1 } : State).setRequest t (.refused "polis_err_treevite_auth_required"))
  | .joining uid => match s.pidOf uid with
      | some pid => some (s.setRequest t (.ensured ⟨uid, pid⟩))
      | none => some ((s.enroll uid).setRequest t (.ensured ⟨uid, s.nextPid⟩))
  | .idle | .accepted _ | .ensured _ | .refused _ | .failed => none

/-! ## Runs -/

inductive Event
  /-- An acceptance is sent, by a caller without a token or with one of a known user. -/
  | accept (t : ℕ) (caller : Caller) (code : String)
  /-- A request that goes through `ensureParticipant`. -/
  | ensure (t : ℕ) (uid : Option ℤ)
  | run (t : ℕ) (code : String)
  /-- A statement fails; it may have been applied. -/
  | error (t : ℕ) (code : String) (applied : Bool)
  /-- Another invite of the conversation. -/
  | invite (i : Invite)

/-- The request has an answer. -/
def Request.isEnded : Request → Bool
  | .accepted _ | .ensured _ | .refused _ | .failed => true
  | _ => false

def next (s : State) : Event → Option State
  | .accept t caller code =>
    if s.requests t = .idle ∧ ∀ uid ∈ caller.uid, uid ∈ s.identities then some (s.setRequest t (.looking caller code))
    else none
  | .ensure t uid =>
    if s.requests t = .idle ∧ ∀ u ∈ uid, u ∈ s.identities then some (s.setRequest t (.gating uid)) else none
  | .run t code => run owner s t code (s.requests t)
  | .error t code applied =>
    if s.requests t = .idle ∨ (s.requests t).isEnded then none
    else if applied then
      -- the answer with the token is lost
      (run owner s t code (s.requests t)).map fun s' =>
        ({ s' with identities := s.identities } : State).setRequest t .failed
    else some (s.setRequest t .failed)
  | .invite i =>
    if i.status = 0 ∧ i.invite_used_by_pid = none ∧ ∀ j ∈ s.invites, j.id ≠ i.id then
      some { s with invites := s.invites ++ [i] }
    else none

def Step (s : State) (e : Event) (s' : State) : Prop := next owner s e = some s'

/-- The gate lets the user in. -/
def admits (s : State) (uid : ℤ) : Bool := uid = owner || (s.pidOf uid).isSome

/-- Some participants, invites, login codes and callers, and no request yet. -/
structure Start (s : State) : Prop where
  uids : (s.participants.map (·.uid)).Nodup
  requests : ∀ t, s.requests t = .idle
  marks : s.marks = []
  logins : ∀ l ∈ s.logins, l.writer = none

end Polis.Treevite.Accept
