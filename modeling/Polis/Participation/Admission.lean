import Polis.Participation.Credential

/-!
# Admission to a conversation

`run` is one transaction: it finds the user that a request acts as, under the owner of the conversation, or makes
a new one, and gives them a participant. A refusal leaves the tables as they were, but for an invite that a
member with a live login code has used up.

Reference: `queue-rs/polis-auth/src/admission.rs`.
-/

namespace Polis.Auth

/-! ## Identities -/

inductive Identity
  | Anonymous
  | AnonymousParticipant (uid conversation : ℤ)
  | Account (uid : ℤ)
  | Xid (xid : Text) (uid : Option ℤ)
deriving DecidableEq

namespace Identity

def from_verified (identity : RequestIdentity) (target : ℤ) : Identity :=
  match identity.xid with
  | some xid => .Xid xid identity.uid
  | none => match identity.uid with
      | some uid => if identity.kind = .StandardUser then .Account uid else .AnonymousParticipant uid target
      | none => .Anonymous

/-- `scoped` -/
def scopedTo (identity : Identity) (target : ℤ) : Option ℤ × Option Text :=
  match identity with
  | .Anonymous => (none, none)
  | .AnonymousParticipant uid conversation => (if conversation = target then some uid else none, none)
  | .Account uid => (some uid, none)
  | .Xid xid uid => (uid, some xid)

end Identity

/-! ## Tables -/

structure Conversation where
  zid : ℤ
  owner : ℤ
  is_active : Option Bool
  treevite_enabled : Option Bool
  use_xid_whitelist : Option Bool
  xid_required : Bool
deriving DecidableEq

structure User where
  uid : ℤ
  is_owner : Option Bool
  site_id : Text
deriving DecidableEq

/-- A row of `xids`; the pairs of an owner and an xid are unique. -/
structure Binding where
  owner : ℤ
  xid : Text
  uid : ℤ
  zid : ℤ
  pid : ℤ
deriving DecidableEq

structure Participant where
  zid : ℤ
  uid : ℤ
  pid : ℤ
deriving DecidableEq

/-- A row of `treevite_invites`, with whether its time is over. -/
structure Invite where
  id : ℤ
  zid : ℤ
  wave_id : ℤ
  invite_code : Text
  status : ℤ
  expired : Bool
  invite_used_by_pid : Option ℤ
deriving DecidableEq

/-- A row of `treevite_login_codes`, with whether its time is over. -/
structure LoginCode where
  zid : ℤ
  pid : ℤ
  login_code_hash : Text
  login_code_lookup : Text
  revoked : Bool
  expired : Bool
deriving DecidableEq

structure Db where
  conversations : List Conversation
  users : List User
  oidc_user_mappings : List ℤ
  xid_whitelist : List (ℤ × Text)
  xids : List Binding
  participants : List Participant
  treevite_invites : List Invite
  treevite_login_codes : List LoginCode
  /-- The sequence of the uids. -/
  next_uid : ℤ
deriving DecidableEq

namespace Db

variable (db : Db)

/-- `SELECT uid FROM xids WHERE owner=$1 AND xid=$2` -/
def binding (owner : ℤ) (xid : Text) : Option ℤ :=
  (db.xids.find? fun b => b.owner = owner ∧ b.xid = xid).map (·.uid)

/-- `SELECT pid FROM participants WHERE zid=$1 AND uid=$2` -/
def pidOf (zid uid : ℤ) : Option ℤ := (db.participants.find? fun p => p.zid = zid ∧ p.uid = uid).map (·.pid)

/-- `pid_auto` -/
def nextPid (zid : ℤ) : ℤ := ((db.participants.filter (·.zid = zid)).map (·.pid)).foldr max (-1) + 1

/-- An account with one of the privileges that the statement selects. -/
def privileged (uid : ℤ) : Bool :=
  match db.users.find? (·.uid = uid) with
  | none => false
  | some u =>
    u.is_owner.getD false || db.conversations.any (·.owner = uid) ||
      db.users.any (fun owner_user => owner_user.site_id = u.site_id &&
        db.conversations.any (·.owner = owner_user.uid)) ||
      db.oidc_user_mappings.contains uid

end Db

/-! ## Requests -/

structure PreparedRecovery where
  bcrypt_hash : Text
  lookup : Text

structure VerifiedLogin where
  lookup : Text
  bcrypt_hash : Text

inductive Entry
  | Participation (create_if_missing : Bool)
  | Invite (code : Text) (recovery : PreparedRecovery)
  | Login (proof : VerifiedLogin)

structure Request where
  zid : ℤ
  identity : Identity
  entry : Entry
  admin_uids : List ℤ

structure Admitted where
  uid : ℤ
  pid : ℤ
  new_user : Bool
  new_participant : Bool
  invite : Option (ℤ × ℤ)
deriving DecidableEq, Repr

structure Refusal where
  status : ℕ
  code : String
deriving DecidableEq, Repr

inductive Failure
  | Refused (r : Refusal)
  /-- The refusal of a used invite is committed. -/
  | Burned (r : Refusal) (db : Db)
  | Database

def refuse {α : Type*} (status : ℕ) (code : String) : Except Failure α := .error (.Refused ⟨status, code⟩)

/-! ## The transaction -/

section Run

variable (db : Db) (request : Request)

def require_participant_account (uid : ℤ) : Except Failure Unit :=
  if uid ∈ request.admin_uids ∨ db.privileged uid then refuse 403 "polis_err_xid_owner_account" else .ok ()

def require_anonymous (uid : ℤ) : Except Failure Unit := do
  require_participant_account db request uid
  if db.xids.any (·.uid = uid) then refuse 403 "polis_err_treevite_identity_conversion" else .ok ()

def require_open : Except Failure Unit :=
  match db.conversations.find? (·.zid = request.zid) with
  | some row => if row.is_active = some true then .ok () else refuse 403 "polis_err_conversation_is_closed"
  | none => refuse 403 "polis_err_conversation_is_closed"

/-- The invite of the request, by its id and its wave. -/
def find_invite : Except Failure (Option (ℤ × ℤ)) :=
  match request.entry with
  | .Invite code _ =>
    match db.treevite_invites.find? fun i => i.zid = request.zid ∧ i.invite_code = code with
    | none => refuse 400 "polis_err_treevite_invalid_or_used_invite"
    | some row =>
      if row.status ≠ 0 then refuse 400 "polis_err_treevite_invalid_or_used_invite"
      else if row.expired then refuse 400 "polis_err_treevite_invite_expired"
      else match request.identity with
        | .Account _ | .Xid _ _ => refuse 403 "polis_err_treevite_identity_conversion"
        | _ => .ok (some (row.id, row.wave_id))
  | _ => .ok none

def login (proof : VerifiedLogin) : Except Failure Admitted :=
  match db.treevite_login_codes.find? fun l => l.zid = request.zid ∧ l.login_code_lookup = proof.lookup with
  | none => refuse 401 "polis_err_treevite_login_code_invalid"
  | some l =>
    match db.participants.find? fun p => p.zid = request.zid ∧ p.pid = l.pid with
    | none => refuse 401 "polis_err_treevite_login_code_invalid"
    | some p =>
      if l.revoked ∨ l.login_code_hash ≠ proof.bcrypt_hash then
        refuse 401 "polis_err_treevite_login_code_invalid"
      else if l.expired then refuse 401 "polis_err_treevite_login_code_expired"
      else do
        require_anonymous db request p.uid
        require_open db request
        .ok ⟨p.uid, l.pid, false, false, none⟩

/-- The user that the request acts as, if there is one yet, and the xid that it is known by. -/
def identify (owner : ℤ) (whitelist : Bool) : Except Failure (Option ℤ × Option Text) :=
  match request.identity.scopedTo request.zid with
  | (uid, none) => .ok (uid, none)
  | (uid, some xid) =>
    if whitelist ∧ (owner, xid) ∉ db.xid_whitelist then refuse 403 "polis_err_xid_not_allowed"
    else match uid.or (db.binding owner xid) with
      | none => .ok (none, some xid)
      | some uid => do
        require_participant_account db request uid
        .ok (some uid, some xid)

/-- A member with a live login code uses the invite up. -/
def burn (invite : Option (ℤ × ℤ)) (uid existing : Option ℤ) : Except Failure Unit :=
  match invite with
  | none => .ok ()
  | some (id, _) => do
    match uid with
    | some uid => require_anonymous db request uid
    | none => pure ()
    match existing.bind fun pid => db.treevite_login_codes.find? fun l => l.zid = request.zid ∧ l.pid = pid with
    | some l =>
      if ¬ l.revoked ∧ ¬ l.expired then
        .error (.Burned ⟨409, "polis_err_treevite_login_code_exists"⟩ { db with
          treevite_invites := db.treevite_invites.map fun i =>
            if i.id = id then { i with status := 1, invite_used_by_pid := none } else i })
      else .ok ()
    | none => .ok ()

/-- The checks of a user who has just been made. -/
def require_new (uid : ℤ) (xid : Option Text) (invited : Bool) : Except Failure Unit := do
  if xid.isSome then require_participant_account db request uid
  if invited then require_anonymous db request uid

/-- The user of the request, who is made if there is none. -/
def allocate (uid : Option ℤ) (xid : Option Text) (invited : Bool) (site_id : Text) : Except Failure (ℤ × Db) :=
  match uid with
  | some uid => .ok (uid, db)
  | none =>
    let db' : Db := { db with
      users := db.users ++ [⟨db.next_uid, some false, site_id⟩]
      next_uid := db.next_uid + 1 }
    (require_new db' request db.next_uid xid invited).map fun () => (db.next_uid, db')

/-- The participant of the user, who must have a row. -/
def enroll (uid : ℤ) (existing : Option ℤ) : Except Failure (ℤ × Db) :=
  match existing with
  | some pid => .ok (pid, db)
  | none =>
    if db.users.any (·.uid = uid) then
      let pid := db.nextPid request.zid
      .ok (pid, { db with participants := db.participants ++ [⟨request.zid, uid, pid⟩] })
    else .error .Database

/-- The login code of the participant; its lookup is unique. -/
def save_login (recovery : PreparedRecovery) (pid : ℤ) : Except Failure Db :=
  if db.treevite_login_codes.any fun l =>
      (l.zid ≠ request.zid ∨ l.pid ≠ pid) && l.login_code_lookup = recovery.lookup then .error .Database
  else .ok { db with
    treevite_login_codes := db.treevite_login_codes.filter (fun l => l.zid ≠ request.zid ∨ l.pid ≠ pid) ++
      [⟨request.zid, pid, recovery.bcrypt_hash, recovery.lookup, false, false⟩] }

/-- The request makes what is missing. -/
def creates (xid : Option Text) : Bool :=
  match request.entry with
  | .Participation create_if_missing => create_if_missing || xid.isSome
  | _ => true

/-- A conversation of external ids makes no user without one, unless there is an invite. -/
def require_xid (row : Conversation) (invite : Option (ℤ × ℤ)) (uid : Option ℤ) (xid : Option Text) :
    Except Failure Unit :=
  if creates request xid ∧ uid = none ∧ xid = none ∧ invite = none ∧
      (row.use_xid_whitelist.getD false ∨ row.xid_required) then
    refuse 403 "polis_err_xid_required"
  else .ok ()

/-- A Treevite conversation takes members, its owner and who has an invite. -/
def require_invite (row : Conversation) (invite : Option (ℤ × ℤ)) (uid existing : Option ℤ) : Except Failure Unit :=
  if row.treevite_enabled.getD false ∧ invite = none ∧ existing = none ∧ uid ≠ some row.owner then
    refuse 401 "polis_err_treevite_auth_required"
  else .ok ()

/-- A new user is bound to the xid. -/
def bind_xid (row : Conversation) (uid : Option ℤ) (xid : Option Text) (user pid : ℤ) : Db :=
  match uid, xid with
  | none, some xid => { db with xids := db.xids ++ [⟨row.owner, xid, user, request.zid, pid⟩] }
  | _, _ => db

/-- The login code of an invited participant, who spends the invite. -/
def spend (invite : Option (ℤ × ℤ)) (pid : ℤ) : Except Failure Db :=
  match request.entry with
  | .Invite _ recovery => (save_login db request recovery pid).map fun db => { db with
      treevite_invites := db.treevite_invites.map fun i =>
        if some i.id = invite.map (·.1) then { i with status := 1, invite_used_by_pid := some pid } else i }
  | _ => .ok db

/-- A participant for the user, and what goes with them. -/
def create_participant (row : Conversation) (invite : Option (ℤ × ℤ)) (uid : Option ℤ) (xid : Option Text)
    (existing : Option ℤ) (site_id : Text) : Except Failure (Option Admitted × Db) := do
  require_invite row invite uid existing
  let (user, db) ← allocate db request uid xid invite.isSome site_id
  let (pid, db) ← enroll db request user existing
  let db ← spend (bind_xid db request row uid xid user pid) request invite pid
  require_open db request
  .ok (some ⟨user, pid, uid.isNone, existing.isNone, invite⟩, db)

/-- The rest of the transaction, for the user that was found; a new user is of a new site. -/
def admit_user (row : Conversation) (invite : Option (ℤ × ℤ)) (uid : Option ℤ) (xid : Option Text) (site_id : Text) :
    Except Failure (Option Admitted × Db) := do
  require_xid request row invite uid xid
  let existing := uid.bind (db.pidOf request.zid)
  burn db request invite uid existing
  if creates request xid then create_participant db request row invite uid xid existing site_id
  else .ok (uid.bind fun uid => existing.map fun pid => ⟨uid, pid, false, false, none⟩, db)

/-- One transaction, with the site id that a new user would get. -/
def run (site_id : Text) : Except Failure (Option Admitted × Db) := do
  let invite ← find_invite db request
  match db.conversations.find? (·.zid = request.zid) with
  | none => refuse 404 "polis_err_fetching_zid_for_conversation_id"
  | some row =>
    if row.is_active ≠ some true then refuse 403 "polis_err_conversation_is_closed"
    else match request.entry with
      | .Login proof => (login db request proof).map fun admitted => (some admitted, db)
      | _ => do
        let (uid, xid) ← identify db request row.owner (row.use_xid_whitelist.getD false)
        admit_user db request row invite uid xid site_id

end Run

inductive Error
  | Refused (r : Refusal)
  | Unavailable
deriving DecidableEq, Repr

/-- `admit`, where nothing else runs: the answer, and the tables as they are committed. -/
def admission (db : Db) (request : Request) (site_id : Text) : Except Error (Option Admitted) × Db :=
  match run db request site_id with
  | .ok (admitted, db) => (.ok admitted, db)
  | .error (.Refused r) => (.error (.Refused r), db)
  | .error (.Burned r db) => (.error (.Refused r), db)
  | .error .Database => (.error .Unavailable, db)

end Polis.Auth
