import Mathlib.Data.List.Sort
import Mathlib.Algebra.Group.Nat.Defs

/-!
# Waves of invite codes

A wave of a conversation gives codes to its owner, and promises codes to each member that came by a code of
its parent wave. A creation checks the caps once, against what all waves may come to, and issues what can be
issued by then; the rest is issued when members accept, and by reconciliations. Each member of a wave is
served under a lock, in the transaction that issues the codes.

A step is one statement of a thread. A statement sees what is committed and what its own transaction wrote.

Reference: `queue-rs/polis-api/src/post_treevite_waves.rs`, `queue-rs/polis-api/src/treevite_write.rs`,
`server/postgres/migrations/000013_create_treevite.sql`.
-/

namespace Polis.Treevite

/-! ## Tables -/

/-- A row of `treevite_waves`; the parent wave zero is none. -/
structure Wave where
  id : ℕ
  zid : ℤ
  wave : ℕ
  parent_wave : ℕ
  invites_per_user : ℕ
  owner_invites : ℕ
  size : Option ℕ
deriving DecidableEq, Repr

/-- A row of `treevite_invites`; the status is 0 when unused and 1 when used. -/
structure Invite where
  id : ℕ
  zid : ℤ
  wave_id : ℕ
  parent_invite_id : Option ℕ
  invite_code : String
  invite_owner_pid : Option ℤ
  status : ℕ
  invite_used_by_pid : Option ℤ
deriving DecidableEq, Repr

structure Tables where
  /-- `conversations.owner` -/
  owner : ℤ → Option ℤ
  /-- `participants.uid`, by conversation and pid. -/
  uid : ℤ → ℤ → Option ℤ
  waves : List Wave
  invites : List Invite

/-- What a transaction has written. -/
structure Rows where
  waves : List Wave
  invites : List Invite

namespace Tables

/-- What a statement of a transaction sees. -/
def withRows (db : Tables) (rows : Rows) : Tables :=
  { db with waves := db.waves ++ rows.waves, invites := db.invites ++ rows.invites }

/-- The codes of a wave. -/
def codes (db : Tables) (wave : ℕ) : List Invite := db.invites.filter (·.wave_id = wave)

/-- The codes of a wave that a member has, in every state. -/
def held (db : Tables) (wave : ℕ) (pid : ℤ) : List Invite :=
  db.invites.filter fun i => i.wave_id = wave ∧ i.invite_owner_pid = some pid

/-- The waves of a conversation. -/
def wavesOf (db : Tables) (zid : ℤ) : List Wave := db.waves.filter (·.zid = zid)

/-- The waves of the conversations of an owner. -/
def ownedBy (db : Tables) (owner : ℤ) : List Wave := db.waves.filter (db.owner ·.zid = some owner)

/-- The children of a wave that promise codes. -/
def childrenOf (db : Tables) (parent : Wave) : List Wave :=
  db.waves.filter fun w => w.zid = parent.zid ∧ w.parent_wave = parent.wave ∧ 0 < w.invites_per_user

end Tables

/-! ## Reservations -/

/-- `u128` arithmetic, saturated. -/
def u128 (n : ℕ) : ℕ := min n (2 ^ 128 - 1)

/-- `reservation` -/
def reservation (parent per owner : ℕ) : ℕ := u128 (u128 (parent * per) + owner)

/-- What the waves of an owner may come to, and its sums. -/
structure Quota where
  potential : ℤ → ℕ → Option ℕ
  conversation : ℕ
  owned : ℕ

/-- What a parent may come to; no parent counts as one code. -/
def Quota.parentCapacity (q : Quota) (zid : ℤ) (parent : ℕ) : Option ℕ :=
  if parent = 0 then some 1 else q.potential zid parent

/-- One row of the quota query. -/
def Quota.add (db : Tables) (zid : ℤ) (q : Quota) (w : Wave) : Option Quota :=
  (q.parentCapacity w.zid w.parent_wave).map fun parent =>
    let capacity := max (reservation parent w.invites_per_user w.owner_invites) (db.codes w.id).length
    ⟨Function.update q.potential w.zid (Function.update (q.potential w.zid) w.wave (some capacity)),
      if w.zid = zid then u128 (q.conversation + capacity) else q.conversation, u128 (q.owned + capacity)⟩

/-- `order by w.zid,w.wave` -/
def before (a b : Wave) : Prop := a.zid < b.zid ∨ (a.zid = b.zid ∧ a.wave ≤ b.wave)

instance : DecidableRel before := fun a b =>
  inferInstanceAs (Decidable (a.zid < b.zid ∨ (a.zid = b.zid ∧ a.wave ≤ b.wave)))

/-- None is an invalid ancestry. -/
def quota (db : Tables) (zid owner : ℤ) : Option Quota :=
  ((db.ownedBy owner).insertionSort before).foldlM (Quota.add db zid) ⟨fun _ _ => none, 0, 0⟩

/-! ## A creation -/

/-- `POLIS_API_TREEVITE_CONVERSATION_CODE_CAP` and `POLIS_API_TREEVITE_OWNER_CODE_CAP`, which are `i64`. -/
structure Caps where
  conversation : ℕ
  owner : ℕ
  conversation_lt : conversation < 2 ^ 63
  owner_lt : owner < 2 ^ 63

/-- The parsed numbers of a request. -/
structure Fields where
  invites_per_user : ℤ
  owner_invites : ℤ
  parent_wave : Option ℤ
deriving DecidableEq, Repr

inductive ErrorCode
  | notOwner
  | authCheck
  | requiresInvites
  | parentNotFound
  | conversationCap
  | ownerCap
  | createWave
  | outcomeUnknown
deriving DecidableEq, Repr

structure Response where
  id : ℕ
  zid : ℤ
  wave : ℕ
  parent_wave : ℕ
  size : ℕ
  invites_per_user : ℕ
  owner_invites : ℕ
  invites_created : ℕ
deriving DecidableEq, Repr

/-- `storage_integer` -/
def storage_integer (n : ℤ) : Option ℤ := if -2147483648 ≤ n ∧ n ≤ 2147483647 then some n else none

/-- The checks before the locks; the moderator query may fail. -/
def authorize (admin : Bool) (moderator : Option Bool) (f : Fields) : Except ErrorCode Unit :=
  match if admin then some true else moderator with
  | none => .error .authCheck
  | some false => .error .notOwner
  | some true => if f.invites_per_user ≤ 0 ∧ f.owner_invites ≤ 0 then .error .requiresInvites else .ok ()

/-- The number of a new wave and its parent's. -/
def number (db : Tables) (zid : ℤ) (f : Fields) : Except ErrorCode (ℕ × ℤ) :=
  let last : ℕ := ((db.wavesOf zid).map (·.wave)).max?.getD 0
  if 2147483647 < last + 1 then .error .createWave
  else match storage_integer (f.parent_wave.getD last) with
    | none => .error .createWave
    | some parent => .ok (last + 1, parent)

/-- Codes to issue to a member, of a wave. -/
structure Job where
  wave : ℕ
  parent_invite : ℕ
  pid : ℤ
  amount : ℕ
deriving DecidableEq, Repr

/-- The size of the parent, and its members, when there are codes for them. -/
def parentOf (db : Tables) (zid parent : ℤ) (f : Fields) : Except ErrorCode (ℕ × List (ℕ × ℤ)) :=
  if parent ≤ 0 then .ok (1, [])
  else match db.waves.find? fun w => w.zid = zid ∧ (w.wave : ℤ) = parent with
    | none => .error .parentNotFound
    | some w => .ok (max (w.size.getD 0) 1, if f.invites_per_user ≤ 0 then []
        else (db.codes w.id).filterMap fun i => i.invite_used_by_pid.map (i.id, ·))

/-- The wave that a creation inserts. -/
structure Plan where
  parent_wave : ℕ
  invites_per_user : ℕ
  owner_invites : ℕ
  size : ℕ
deriving DecidableEq, Repr

/-- The narrowed counts are checked against the caps. -/
def plan (caps : Caps) (db : Tables) (zid owner parent : ℤ) (parentSize : ℕ) (f : Fields) : Except ErrorCode Plan :=
  match storage_integer f.invites_per_user, storage_integer f.owner_invites with
  | some per, some ownerInvites =>
    if per < 0 ∨ ownerInvites < 0 ∨ parent < 0 then .error .createWave
    else
      let size := parentSize * per.toNat + ownerInvites.toNat
      match quota db zid owner with
      | none => .error .createWave
      | some q => match q.parentCapacity zid parent.toNat with
          | none => .error .createWave
          | some parentCapacity =>
            let capacity := reservation parentCapacity per.toNat ownerInvites.toNat
            if caps.conversation < u128 (q.conversation + capacity) then .error .conversationCap
            else if caps.owner < u128 (q.owned + capacity) then .error .ownerCap
            else if 2147483647 < size then .error .createWave
            else .ok ⟨parent.toNat, per.toNat, ownerInvites.toNat, size⟩
  | _, _ => .error .createWave

/-! ## Gaps -/

/-- A child wave, and a code of its parent that a member used. -/
structure Gap where
  child : Wave
  invite : Invite
  pid : ℤ

def Gap.job (g : Gap) : Job := ⟨g.child.id, g.invite.id, g.pid, g.child.invites_per_user⟩

/-- The members of the parents of promising waves, who have less than was promised. -/
def gaps (db : Tables) (zid : ℤ) : List Gap :=
  (db.wavesOf zid).flatMap fun parent => (db.childrenOf parent).flatMap fun child =>
    (db.codes parent.id).filterMap fun i => match i.invite_used_by_pid with
      | some pid => if i.status = 1 ∧ (db.held child.id pid).length < child.invites_per_user then
          some ⟨child, i, pid⟩ else none
      | none => none

/-- `RECONCILIATION_ROW_LIMIT` -/
def rowLimit : ℕ := 100

/-- `reconcile`, of the waves but the new one. -/
def reconcile (db : Tables) (zid : ℤ) (newWave : ℕ) : List Job :=
  ((((gaps db zid).filter (·.child.id ≠ newWave)).insertionSort fun a b =>
    a.child.wave < b.child.wave ∨ (a.child.wave = b.child.wave ∧ a.invite.id ≤ b.invite.id)).take rowLimit).map Gap.job

/-- `DISTINCT ON`: the first row of each key, of rows in which equal keys stand together. -/
def distinctOn {α κ : Type*} [DecidableEq κ] (key : α → κ) : List α → List α
  | [] => []
  | a :: l => a :: (distinctOn key l).filter fun b => key b ≠ key a

/-- `reconcile_children`, after a code or of a member. -/
def reconcileChildren (db : Tables) (zid : ℤ) (consumed : String) (member : Option ℤ) : List Job :=
  ((distinctOn (fun g => (g.child.id, g.pid)) (((gaps db zid).filter fun g =>
      g.invite.zid = zid ∧ (db.uid zid g.pid).isSome ∧
        (g.invite.invite_code = consumed ∨ (member.isSome ∧ db.uid zid g.pid = member)) ∧
        g.child.invites_per_user ≤ 5).insertionSort fun a b =>
          a.child.id < b.child.id ∨ (a.child.id = b.child.id ∧ (a.pid < b.pid ∨ (a.pid = b.pid ∧
            a.invite.id ≤ b.invite.id))))).take 10).map Gap.job

/-- `issue_children`, of a code that a member used; none when there are too many waves. -/
def issueChildren (db : Tables) (zid pid : ℤ) (invite wave : ℕ) : Option (List Job) :=
  match db.waves.find? fun w => w.id = wave ∧ w.zid = zid with
  | none => some []
  | some parent =>
    let children := ((db.childrenOf parent).insertionSort (·.id ≤ ·.id)).take 11
    if children.length ≤ 10 then some (children.map fun w => ⟨w.id, invite, pid, w.invites_per_user⟩) else none

end Polis.Treevite
