import Polis.Common.Utf8

/-!
# The identity that a token gives to a request

A signed token names a user of one conversation, an account, or an external id. `verify_for_request` checks the
claims and scopes what they name to the conversation of the request: in another conversation, or under another
external id, a token of an external id leaves only that id to be resolved.

The signature, the issuer, the audience and the shape of the claims are checked by the JWT library, which is a
parameter, as are the lookup of an account and the snapshot of the revoked tokens.

Reference: `queue-rs/polis-auth/src/participant.rs`, `queue-rs/polis-auth/src/xid_account.rs`.
-/

namespace Polis.Auth

abbrev Text := List Char

/-! ## Tokens -/

inductive Kind
  | Anonymous
  | Xid
  | StandardUser
deriving DecidableEq, Repr

structure Claims where
  uid : ℤ
  pid : ℤ
  conversation_id : Text
  sub : Text
  iss : Text
  aud : Text
  exp : ℕ
  iat : ℕ
  nbf : Option ℕ
  anonymous_participant : Option Bool
  standard_user_participant : Option Bool
  oidc_sub : Option Text
  xid_participant : Option Bool
  xid : Option Text
deriving DecidableEq

/-- Verified claims scoped to a request. -/
structure RequestIdentity where
  uid : Option ℤ
  pid : Option ℤ
  xid : Option Text
  kind : Kind
deriving DecidableEq

/-- `request_xid_whitespace` -/
def request_xid_whitespace (c : Char) : Bool :=
  (0x9 ≤ c.toNat && c.toNat ≤ 0xd) || c = ' ' || c.toNat = 0xa0 || c.toNat = 0x1680 ||
    (0x2000 ≤ c.toNat && c.toNat ≤ 0x200a) || c.toNat = 0x2028 || c.toNat = 0x2029 || c.toNat = 0x202f ||
    c.toNat = 0x205f || c.toNat = 0x3000 || c.toNat = 0xfeff

/-- An xid that is not blank; trimming would leave something of it. -/
def nonblank (xid : Option Text) : Option Text := xid.filter fun xid => !xid.all request_xid_whitespace

/-- What the library and the process give: the algorithm of a token, its claims where the signature, the issuer
and the audience are right, the unverified fields that are read ahead, and the revoked tokens. -/
structure Verifier where
  rs256 : Text → Bool
  decode : Text → Option Claims
  hints : Text → Option (Text × ℤ)
  revocations : Option (Text → ℤ → Bool)

/-- The kind of a token, from the fields that are there and the subject. -/
def Claims.kind (c : Claims) : Option Kind :=
  match c.anonymous_participant, c.standard_user_participant, c.oidc_sub, c.xid_participant, c.xid with
  | some true, none, none, none, none =>
    if c.sub = "anon:".toList ++ (toString c.uid).toList then some .Anonymous else none
  | none, some true, some sub, none, none =>
    if sub ≠ [] ∧ Utf8.bytes sub ≤ 255 ∧ c.sub = "user:".toList ++ sub then some .StandardUser else none
  | none, none, none, some true, some xid =>
    if xid ≠ [] ∧ c.sub = "xid:".toList ++ xid then some .Xid else none
  | _, _, _, _, _ => none

namespace Verifier

variable (v : Verifier)

def verify_claims (authorization : Text) (now : ℕ) : Option (Claims × Kind) :=
  if "Bearer ".toList.isPrefixOf authorization then
    let token := authorization.drop 7
    if token = [] ∨ 16384 < Utf8.bytes token ∨ v.rs256 token = false then none
    else match v.decode token with
      | none => none
      | some c =>
        if c.exp ≤ now ∨ (∃ n ∈ c.nbf, now < n) ∨ now < c.iat ∨ c.uid ≤ 0 ∨ c.pid < 0 ∨ c.iss = [] ∨ c.aud = [] then
          none
        else c.kind.map fun kind => (c, kind)
  else none

/-- `check_revocation`: the token is a revoked one. -/
def isRevoked (authorization : Text) (now : ℕ) : Bool :=
  match v.revocations with
  | none => false
  | some contains =>
    match v.hints authorization with
    | none => false
    | some (cid, pid) =>
      contains cid pid && (v.verify_claims authorization now).any fun e => contains e.1.conversation_id e.1.pid

/-- The claims of a token that is not revoked. -/
def verified (authorization : Text) (now : ℕ) : Option (Claims × Kind) :=
  if v.isRevoked authorization now then none else v.verify_claims authorization now

end Verifier

/-! ## Accounts -/

inductive Class
  | Admin
  | ConversationOwner
  | OwnerFlag
  | SiteModerator
  | OidcMapped
deriving DecidableEq, Repr

structure Account where
  owns_conversation : Bool
  is_owner : Bool
  site_moderator : Bool
  oidc_mapped : Bool
deriving DecidableEq, Repr

def classify (account : Account) : Option Class :=
  if account.owns_conversation then some .ConversationOwner
  else if account.is_owner then some .OwnerFlag
  else if account.site_moderator then some .SiteModerator
  else if account.oidc_mapped then some .OidcMapped
  else none

inductive AccountRefusal
  | Privileged (c : Class)
  | CheckFailed
deriving DecidableEq, Repr

/-- The lookup of an account, unless it is unavailable, and the admins of the configuration. -/
structure Check where
  account : ℤ → Option (Option Account)
  admin_uids : List ℤ

def Check.require_participant (check : Check) (uid : ℤ) : Except AccountRefusal Unit :=
  if uid ∈ check.admin_uids then .error (.Privileged .Admin)
  else match check.account uid with
    | none => .error .CheckFailed
    | some account => match account.bind classify with
      | some c => .error (.Privileged c)
      | none => .ok ()

/-! ## Scoping -/

/-- The claims as the conversation of a request sees them; a token of an external id names one. -/
def scope (c : Claims) (kind : Kind) (conversation : Text) (request_xid : Option Text) : Option RequestIdentity :=
  let same_conversation := c.conversation_id = conversation
  let request_xid := nonblank request_xid
  let identity : RequestIdentity :=
    { uid := some c.uid, pid := if same_conversation then some c.pid else none, xid := none, kind }
  match kind with
  | .Xid =>
    match request_xid.or c.xid with
    | none => none
    | some xid =>
      if ¬ same_conversation ∨ some xid ≠ c.xid then
        some { identity with uid := none, pid := none, xid := some xid }
      else some { identity with xid := some xid }
  | .Anonymous =>
    if same_conversation then some identity else some { identity with uid := none, xid := request_xid }
  | .StandardUser => some identity

def Verifier.verify_for_request (v : Verifier) (authorization conversation : Text) (request_xid : Option Text)
    (now : ℕ) (check : Check) : Except AccountRefusal (Option RequestIdentity) :=
  match v.verified authorization now with
  | none => .ok none
  | some (c, kind) =>
    if kind = .Xid then
      -- The signed uid is checked, also where the request drops it.
      (check.require_participant c.uid).map fun () => scope c kind conversation request_xid
    else .ok (scope c kind conversation request_xid)

end Polis.Auth
