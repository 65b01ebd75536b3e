import Polis.Common.Table
import Polis.Participation.Admission

/-!
# A credential never becomes someone else

A request acts as the user that its token names only where the token was issued for the conversation, or names
an account. Otherwise it acts as the user that the owner of the conversation knows by the xid of the request, or
as a new one; what an XID token says of another user does not matter there.

Reference: `queue-rs/polis-auth/src/participant.rs`, `queue-rs/polis-auth/src/admission.rs`.
-/

namespace Polis.Auth

open List Option

variable {v : Verifier} {authorization conversation : Text} {request_xid : Option Text} {now : ℕ} {check : Check}
  {c : Claims} {kind : Kind} {identity : RequestIdentity} {db db' : Db} {request : Request} {site_id : Text}
  {owner uid : ℤ} {xid : Option Text} {row : Conversation}
variable {invite : Option (ℤ × ℤ)}

/-! ## The statement -/

/-- The xid that a request is resolved by. -/
def effectiveXid (c : Claims) (kind : Kind) (conversation : Text) (request_xid : Option Text) : Option Text :=
  match kind with
  | .Xid => (nonblank request_xid).or c.xid
  | .Anonymous => if c.conversation_id = conversation then none else nonblank request_xid
  | .StandardUser => none

/-- The token is used in another conversation, or under another xid. -/
def OutOfScope (c : Claims) (conversation : Text) (request_xid : Option Text) : Prop :=
  c.conversation_id ≠ conversation ∨ ∃ xid ∈ nonblank request_xid, some xid ≠ c.xid

/-- The user is the one that the token names, and it names them here. -/
def Own (c : Claims) (kind : Kind) (conversation : Text) (uid : ℤ) : Prop :=
  uid = c.uid ∧ (c.conversation_id = conversation ∨ kind = .StandardUser)

/-- The user is the one that the owner knows by the xid. -/
def Bound (db : Db) (owner : ℤ) (xid : Option Text) (uid : ℤ) : Prop :=
  ∃ x ∈ xid, ∃ b ∈ db.xids, b.owner = owner ∧ b.xid = x ∧ b.uid = uid

/-- What the server does with a request that has a token. -/
def respond (v : Verifier) (check : Check) (authorization conversation : Text) (request_xid : Option Text) (now : ℕ)
    (db : Db) (zid : ℤ) (entry : Entry) (admin_uids : List ℤ) (site_id : Text) :
    Except AccountRefusal (Option (Except Error (Option Admitted) × Db)) :=
  (v.verify_for_request authorization conversation request_xid now check).map fun identity =>
    identity.map fun identity => admission db ⟨zid, .from_verified identity zid, entry, admin_uids⟩ site_id

/-- What a verified token lets its bearer act as. -/
structure NeverAnother (v : Verifier) (check : Check) (authorization conversation : Text) (request_xid : Option Text)
    (now : ℕ) (c : Claims) (kind : Kind) : Prop where
  /-- The user that the transaction finds. -/
  resolved : ∀ identity, v.verify_for_request authorization conversation request_xid now check = .ok (some identity) →
    ∀ db request owner whitelist uid xid, request.identity = .from_verified identity request.zid →
      identify db request owner whitelist = .ok (some uid, xid) →
      Own c kind conversation uid ∨ Bound db owner (effectiveXid c kind conversation request_xid) uid
  /-- The user that is admitted, by another way than a login code. -/
  admitted : ∀ identity, v.verify_for_request authorization conversation request_xid now check = .ok (some identity) →
    ∀ db db' request site_id row a, request.identity = .from_verified identity request.zid →
      (∀ proof, request.entry ≠ .Login proof) → db.conversations.find? (·.zid = request.zid) = some row →
      run db request site_id = .ok (some a, db') →
      Own c kind conversation a.uid ∨ Bound db row.owner (effectiveXid c kind conversation request_xid) a.uid ∨
        a.new_user ∧ a.uid = db.next_uid ∧
          ∀ x, effectiveXid c kind conversation request_xid = some x → Bound db' row.owner (some x) a.uid
  /-- Out of its scope an XID token gives neither its uid nor its pid. -/
  dropped : kind = .Xid → OutOfScope c conversation request_xid →
    ∀ identity, v.verify_for_request authorization conversation request_xid now check = .ok (some identity) →
      identity.uid = none ∧ identity.pid = none
  /-- And another uid and pid in it would make no difference, unless an account is refused. -/
  replaced : kind = .Xid → OutOfScope c conversation request_xid → ∀ authorization' uid pid,
    v.verified authorization' now = some ({ c with uid, pid }, kind) →
    ∀ db zid entry admin_uids site_id,
      respond v check authorization' conversation request_xid now db zid entry admin_uids site_id =
        respond v check authorization conversation request_xid now db zid entry admin_uids site_id ∨
      (∃ r, check.require_participant uid = .error r ∧
        respond v check authorization' conversation request_xid now db zid entry admin_uids site_id = .error r) ∨
      ∃ r, check.require_participant c.uid = .error r ∧
        respond v check authorization conversation request_xid now db zid entry admin_uids site_id = .error r

/-! ## Scoping -/

theorem verify_claims_kind (h : v.verify_claims authorization now = some (c, kind)) : c.kind = some kind := by
  unfold Verifier.verify_claims at h
  split at h
  case isFalse => cases h
  dsimp only at h
  split at h
  case isTrue => cases h
  split at h
  · cases h
  split at h
  · cases h
  obtain ⟨k, hk, heq⟩ := map_eq_some_iff.1 h
  obtain ⟨rfl, rfl⟩ := Prod.mk.inj heq
  exact hk

theorem verified_kind (h : v.verified authorization now = some (c, kind)) : c.kind = some kind := by
  unfold Verifier.verified at h
  split at h
  · cases h
  · exact verify_claims_kind h

/-- A token of an external id names one. -/
theorem kind_xid (h : c.kind = some .Xid) : c.xid ≠ none := by
  intro hnone
  unfold Claims.kind at h
  split at h
  case h_3 hxid => exact absurd (hnone.symm.trans hxid) (some_ne_none _).symm
  all_goals first | cases h | (split at h <;> cases h)

theorem scope_spec (h : scope c kind conversation request_xid = some identity) :
    identity.xid = effectiveXid c kind conversation request_xid ∧ identity.kind = kind ∧
      ∀ uid, identity.uid = some uid → Own c kind conversation uid := by
  unfold scope at h
  cases kind with
  | Xid =>
    dsimp only at h
    cases hxid : (nonblank request_xid).or c.xid with
    | none => simp [hxid] at h
    | some xid =>
      rw [hxid] at h
      dsimp only at h
      split at h
      · obtain rfl := Option.some.inj h
        exact ⟨hxid.symm, rfl, nofun⟩
      next hscope =>
        obtain rfl := Option.some.inj h
        obtain ⟨hsame, -⟩ := not_or.1 hscope
        exact ⟨hxid.symm, rfl, fun uid huid => ⟨(Option.some.inj huid).symm, .inl (not_not.1 hsame)⟩⟩
  | Anonymous =>
    dsimp only at h
    split at h
    next hsame =>
      obtain rfl := Option.some.inj h
      exact ⟨(if_pos hsame).symm, rfl, fun uid huid => ⟨(Option.some.inj huid).symm, .inl hsame⟩⟩
    next hother =>
      obtain rfl := Option.some.inj h
      exact ⟨(if_neg hother).symm, rfl, nofun⟩
  | StandardUser =>
    obtain rfl := Option.some.inj h
    exact ⟨rfl, rfl, fun uid huid => ⟨(Option.some.inj huid).symm, .inr rfl⟩⟩

/-- Out of its scope an XID token leaves its effective xid and nothing else. -/
theorem scope_outOfScope (hxid : c.xid ≠ none) (hout : OutOfScope c conversation request_xid) :
    scope c .Xid conversation request_xid =
      some { uid := none, pid := none, xid := effectiveXid c .Xid conversation request_xid, kind := .Xid } := by
  unfold scope effectiveXid
  dsimp only
  cases heff : (nonblank request_xid).or c.xid with
  | none => exact absurd (or_eq_none_iff.1 heff).2 hxid
  | some xid =>
    dsimp only
    rw [if_pos]
    rcases hout with hother | ⟨x, hx, hne⟩
    · exact .inl hother
    · refine .inr ?_
      rw [mem_def.1 hx, some_or] at heff
      rwa [← heff]

theorem verify_spec (hverified : v.verified authorization now = some (c, kind))
    (h : v.verify_for_request authorization conversation request_xid now check = .ok (some identity)) :
    scope c kind conversation request_xid = some identity := by
  unfold Verifier.verify_for_request at h
  rw [hverified] at h
  dsimp only at h
  split at h
  · cases hcheck : check.require_participant c.uid with
    | error r => rw [hcheck] at h; cases h
    | ok u =>
      rw [hcheck] at h
      exact Except.ok.inj h
  · exact Except.ok.inj h

/-! ## Resolving -/

theorem scopedTo_from_verified (identity : RequestIdentity) (zid : ℤ) :
    (Identity.from_verified identity zid).scopedTo zid = (identity.uid, identity.xid) := by
  unfold Identity.from_verified
  cases hxid : identity.xid with
  | some xid => rfl
  | none =>
    cases huid : identity.uid with
    | none => rfl
    | some uid =>
      dsimp only
      split
      · rfl
      · simp [Identity.scopedTo]

theorem binding_eq_some (h : db.binding owner x = some uid) : Bound db owner (some x) uid := by
  obtain ⟨b, hb, rfl⟩ := map_eq_some_iff.1 h
  obtain ⟨howner, hxid⟩ : b.owner = owner ∧ b.xid = x := by simpa using find?_some hb
  exact ⟨x, rfl, b, mem_of_find?_eq_some hb, howner, hxid, rfl⟩

/-- The user of the identity, or the one of the binding. -/
theorem identify_spec {whitelist : Bool} {found : Option ℤ} {identity : RequestIdentity}
    (hrequest : request.identity = .from_verified identity request.zid)
    (h : identify db request owner whitelist = .ok (found, xid)) :
    xid = identity.xid ∧
      (found = identity.uid ∨ identity.uid = none ∧ ∃ uid, found = some uid ∧ Bound db owner identity.xid uid) := by
  unfold identify at h
  rw [hrequest, scopedTo_from_verified] at h
  cases hxid : identity.xid with
  | none =>
    rw [hxid] at h
    obtain ⟨rfl, rfl⟩ := Prod.mk.inj (Except.ok.inj h)
    exact ⟨rfl, .inl rfl⟩
  | some x =>
    rw [hxid] at h
    dsimp only at h
    split at h
    · cases h
    cases hfound : identity.uid.or (db.binding owner x) with
    | none =>
      rw [hfound] at h
      obtain ⟨rfl, rfl⟩ := Prod.mk.inj (Except.ok.inj h)
      exact ⟨rfl, .inl (or_eq_none_iff.1 hfound).1.symm⟩
    | some uid =>
      rw [hfound] at h
      dsimp only at h
      cases hcheck : require_participant_account db request uid with
      | error e => rw [hcheck] at h; cases h
      | ok u =>
        rw [hcheck] at h
        obtain ⟨rfl, rfl⟩ := Prod.mk.inj (Except.ok.inj h)
        refine ⟨rfl, ?_⟩
        cases huid : identity.uid with
        | some own =>
          rw [huid, some_or] at hfound
          exact .inl hfound.symm
        | none =>
          rw [huid, none_or] at hfound
          exact .inr ⟨rfl, uid, rfl, binding_eq_some hfound⟩

/-! ## The transaction -/

theorem allocate_some {found : ℤ} {invited : Bool} {user : ℤ}
    (h : allocate db request (some found) xid invited site_id = .ok (user, db')) : user = found ∧ db' = db := by
  obtain ⟨rfl, rfl⟩ := Prod.mk.inj (Except.ok.inj h)
  exact ⟨rfl, rfl⟩

theorem allocate_none {invited : Bool} {user : ℤ}
    (h : allocate db request none xid invited site_id = .ok (user, db')) : user = db.next_uid := by
  unfold allocate at h
  dsimp only at h
  generalize require_new _ _ _ _ _ = checked at h
  cases checked with
  | error e => cases h
  | ok u => exact (Prod.mk.inj (Except.ok.inj h)).1.symm

theorem save_login_xids {recovery : PreparedRecovery} {pid : ℤ} (h : save_login db request recovery pid = .ok db') :
    db'.xids = db.xids := by
  unfold save_login at h
  split at h
  · cases h
  · obtain rfl := Except.ok.inj h
    rfl

theorem spend_xids {pid : ℤ} (h : spend db request invite pid = .ok db') :
    db'.xids = db.xids := by
  unfold spend at h
  split at h
  next recovery _ =>
    cases hsave : save_login db request recovery pid with
    | error e => rw [hsave] at h; cases h
    | ok saved =>
      have hsaved := save_login_xids hsave
      rw [hsave] at h
      obtain rfl := Except.ok.inj h
      exact hsaved
  · obtain rfl := Except.ok.inj h
    rfl

/-- Who gets a participant is the user that was found, or a new one, who is then bound to the xid. -/
theorem create_participant_spec {found existing : Option ℤ} {a : Admitted}
    (h : create_participant db request row invite found xid existing site_id = .ok (some a, db')) :
    found = some a.uid ∨ found = none ∧ a.new_user = true ∧ a.uid = db.next_uid ∧
      ∀ x, xid = some x → Bound db' row.owner (some x) a.uid := by
  obtain ⟨-, -, h⟩ := bind_eq_ok.1 h
  obtain ⟨⟨user, db₁⟩, hallocate, h⟩ := bind_eq_ok.1 h
  obtain ⟨⟨pid, db₂⟩, -, h⟩ := bind_eq_ok.1 h
  obtain ⟨db₃, hspend, h⟩ := bind_eq_ok.1 h
  obtain ⟨-, -, h⟩ := bind_eq_ok.1 h
  obtain ⟨hadmitted, rfl⟩ := Prod.mk.inj (Except.ok.inj h)
  obtain rfl := Option.some.inj hadmitted
  cases found with
  | some uid =>
    obtain ⟨rfl, -⟩ := allocate_some hallocate
    exact .inl rfl
  | none =>
    refine .inr ⟨rfl, rfl, allocate_none hallocate, fun x hx => ?_⟩
    subst hx
    refine ⟨x, rfl, ⟨row.owner, x, user, request.zid, pid⟩, ?_, rfl, rfl, rfl⟩
    rw [spend_xids hspend]
    exact mem_append_right _ mem_cons_self

theorem admit_user_spec {found : Option ℤ} {a : Admitted}
    (h : admit_user db request row invite found xid site_id = .ok (some a, db')) :
    found = some a.uid ∨ found = none ∧ a.new_user = true ∧ a.uid = db.next_uid ∧
      ∀ x, xid = some x → Bound db' row.owner (some x) a.uid := by
  obtain ⟨-, -, h⟩ := bind_eq_ok.1 h
  obtain ⟨-, -, h⟩ := bind_eq_ok.1 h
  split at h
  · exact create_participant_spec h
  · obtain ⟨hmember, -⟩ := Prod.mk.inj (Except.ok.inj h)
    obtain ⟨uid, huid, hmember⟩ := bind_eq_some_iff.1 hmember
    obtain ⟨pid, -, rfl⟩ := map_eq_some_iff.1 hmember
    exact .inl huid

/-- Without a login code, the transaction admits the user of the identity, of the binding, or a new one. -/
theorem run_spec {identity : RequestIdentity} {a : Admitted}
    (hrequest : request.identity = .from_verified identity request.zid)
    (hentry : ∀ proof, request.entry ≠ .Login proof)
    (hrow : db.conversations.find? (·.zid = request.zid) = some row)
    (h : run db request site_id = .ok (some a, db')) :
    identity.uid = some a.uid ∨ identity.uid = none ∧ (Bound db row.owner identity.xid a.uid ∨
      a.new_user = true ∧ a.uid = db.next_uid ∧ ∀ x, identity.xid = some x → Bound db' row.owner (some x) a.uid) := by
  obtain ⟨invite, -, h⟩ := bind_eq_ok.1 h
  rw [hrow] at h
  dsimp only at h
  split at h
  · cases h
  split at h
  next proof hlogin => exact absurd hlogin (hentry proof)
  obtain ⟨⟨found, xid⟩, hidentify, h⟩ := bind_eq_ok.1 h
  obtain ⟨rfl, hfound⟩ := identify_spec hrequest hidentify
  rcases admit_user_spec h with huser | ⟨hnone, hnew⟩
  · rcases hfound with hown | ⟨hnone, uid, hbound, hbinding⟩
    · exact .inl (hown ▸ huser)
    · obtain rfl := Option.some.inj (hbound.symm.trans huser)
      exact .inr ⟨hnone, .inl hbinding⟩
  · rcases hfound with hown | ⟨-, uid, hbound, -⟩
    · exact .inr ⟨hown.symm.trans hnone, .inr hnew⟩
    · exact absurd (hbound.symm.trans hnone) (some_ne_none uid)

/-! ## The token of another -/

theorem respond_eq (hverified : v.verified authorization now = some (c, .Xid)) (zid : ℤ) (entry : Entry)
    (admin_uids : List ℤ) :
    respond v check authorization conversation request_xid now db zid entry admin_uids site_id =
      (check.require_participant c.uid).map fun () => (scope c .Xid conversation request_xid).map fun identity =>
        admission db ⟨zid, .from_verified identity zid, entry, admin_uids⟩ site_id := by
  rw [respond, Verifier.verify_for_request, hverified]
  dsimp only
  rw [if_pos rfl]
  cases check.require_participant c.uid <;> rfl

/-- A verified token never lets its bearer act as someone else. -/
theorem verified_neverAnother (hverified : v.verified authorization now = some (c, kind)) :
    NeverAnother v check authorization conversation request_xid now c kind := by
  refine ⟨?resolved, ?admitted, ?dropped, ?replaced⟩
  case resolved =>
    intro identity hverify db request owner whitelist uid xid hrequest hidentify
    obtain ⟨heff, -, hown⟩ := scope_spec (verify_spec hverified hverify)
    obtain ⟨-, hfound⟩ := identify_spec hrequest hidentify
    rcases hfound with huid | ⟨-, uid', huid, hbound⟩
    · exact .inl (hown uid huid.symm)
    · obtain rfl := Option.some.inj huid
      exact .inr (heff ▸ hbound)
  case admitted =>
    intro identity hverify db db' request site_id row a hrequest hentry hrow hrun
    obtain ⟨heff, -, hown⟩ := scope_spec (verify_spec hverified hverify)
    rw [← heff]
    rcases run_spec hrequest hentry hrow hrun with huid | ⟨-, hbound | hnew⟩
    · exact .inl (hown a.uid huid)
    · exact .inr (.inl hbound)
    · exact .inr (.inr hnew)
  case dropped =>
    rintro rfl hout identity hverify
    have hscope := verify_spec hverified hverify
    rw [scope_outOfScope (kind_xid (verified_kind hverified)) hout] at hscope
    obtain rfl := Option.some.inj hscope
    exact ⟨rfl, rfl⟩
  case replaced =>
    rintro rfl hout authorization' uid pid hverified' db zid entry admin_uids site_id
    have hxid : c.xid ≠ none := kind_xid (verified_kind hverified)
    rw [respond_eq hverified, respond_eq hverified', scope_outOfScope hxid hout,
      @scope_outOfScope conversation request_xid { c with uid, pid } hxid hout]
    cases hother : check.require_participant uid with
    | error r => exact .inr (.inl ⟨r, rfl, rfl⟩)
    | ok u =>
      cases hown : check.require_participant c.uid with
      | error r => exact .inr (.inr ⟨r, rfl, rfl⟩)
      | ok u' => exact .inl rfl

/-- A token of an external id, for another conversation. -/
private def sampleClaims : Claims where
  uid := 5
  pid := 0
  conversation_id := "2other".toList
  sub := "xid:e1".toList
  iss := "issuer".toList
  aud := "audience".toList
  exp := 200
  iat := 100
  nbf := none
  anonymous_participant := none
  standard_user_participant := none
  oidc_sub := none
  xid_participant := some true
  xid := some "e1".toList

private def sampleVerifier : Verifier where
  rs256 := fun _ => true
  decode := fun _ => some sampleClaims
  hints := fun _ => none
  revocations := none

theorem sample_neverAnother :
    NeverAnother sampleVerifier ⟨fun _ => some none, []⟩ "Bearer t".toList "2demo".toList none 150 sampleClaims
      .Xid :=
  verified_neverAnother (by decide +kernel)

end Polis.Auth
