import Polis.Serving.PrioritiesTheorems
import Polis.Serving.RefreshesTheorems
import Mathlib.Data.Rat.Cast.Defs

/-!
# Reads that callers share

The promises of the three places where calls share the reads of a conversation: the priorities, the body of
a math row, and its presentation with the approved comments. A body is made of one row that was stored, with
the tick of that row; only the body that stands for no row at all is made of none.

Reference: `queue-rs/polis-api/src/next_priorities.rs`, `queue-rs/polis-api/src/pca.rs`.
-/

namespace Polis.Refreshes

variable {δ β : Type*} (b : Bodies δ β)
variable {item : PcaItem β}

/-! ## Bodies of math rows -/

/-- The text of a row, parsed, with the tick of the row. -/
def Parsed (history : List (ℤ × Option (ℤ × δ))) (zid tick : ℤ) (pojo : β) : Prop :=
  ∃ data p, (zid, some (tick, data)) ∈ history ∧ b.parse data = .ok p ∧ pojo = b.setTick p (b.float tick)

/-- The body is that of a row, under the tick of the row, or that of no row. -/
def FromMath (history : List (ℤ × Option (ℤ × δ))) (zid : ℤ) (item : PcaItem β) : Prop :=
  (item.synthesized = true ∧ item.reusable = false ∧ ∃ now, item.pojo = b.template now) ∨
    (item.synthesized = false ∧ ∃ tick pojo now, Parsed b history zid tick pojo ∧
      b.complete pojo now = .ok item.pojo)

/-- What a flight has is made of a row. -/
def GoodMath (history : List (ℤ × Option (ℤ × δ))) (zid : ℤ) : MathRefresh β → Prop
  | .ready item _ => FromMath b history zid item
  | .uncommitted pojo _ => ∃ tick, b.float tick ≤ -1 ∧ Parsed b history zid tick pojo

variable {b} {history history' : List (ℤ × Option (ℤ × δ))} {zid : ℤ}

theorem Parsed.mono (h : ∀ p ∈ history, p ∈ history') {tick : ℤ} {pojo : β} (hp : Parsed b history zid tick pojo) :
    Parsed b history' zid tick pojo :=
  let ⟨data, p, hmem, hrest⟩ := hp
  ⟨data, p, h _ hmem, hrest⟩

theorem FromMath.mono (h : ∀ p ∈ history, p ∈ history') (hi : FromMath b history zid item) :
    FromMath b history' zid item :=
  hi.imp_right fun ⟨hs, tick, pojo, now, hp, hc⟩ => ⟨hs, tick, pojo, now, hp.mono h, hc⟩

theorem pack_spec {pojo : β} {synthesized reusable : Bool} {now : ℤ} {n : ℕ}
    (h : pack b pojo synthesized reusable now n = .ok item) : item = ⟨n, pojo, now + ttl, synthesized, reusable⟩ := by
  obtain ⟨_, -, rfl⟩ := mapped_eq_ok.1 h
  rfl

/-- What a read gives is good for three seconds, and made of the row or of the body that is served again. -/
theorem builtMath_spec {cached : Option (PcaItem β)} {row : Option (ℤ × Option δ)} {now : ℤ} {n : ℕ}
    {v : MathRefresh β} (h : builtMath b cached row now n = .ok v) : v.expiration = now + ttl ∧
      ∀ history zid, (∀ x, cached = some x → FromMath b history zid x) →
        (∀ tick data, row = some (tick, some data) → (zid, some (tick, data)) ∈ history) →
        GoodMath b history zid v := by
  unfold builtMath at h
  split at h
  · next item hitem =>
    cases h
    exact ⟨rfl, fun _ _ hcached _ => hcached item (Option.filter_eq_some_iff.1 hitem).1⟩
  · next rowTick data =>
    obtain ⟨p, hp, h⟩ := bind_eq_ok.1 h
    have hparsed {history zid} (hmem : (zid, some (rowTick, data)) ∈ history) :
        Parsed b history zid rowTick (b.setTick p (b.float rowTick)) := ⟨data, p, hmem, hp, rfl⟩
    split at h
    · next htick =>
      cases h
      exact ⟨rfl, fun _ _ _ hrow => ⟨rowTick, htick, hparsed (hrow rowTick data rfl)⟩⟩
    · obtain ⟨pojo, hpojo, h⟩ := bind_eq_ok.1 h
      obtain ⟨item, hitem, h⟩ := bind_eq_ok.1 h
      cases h
      cases pack_spec hitem
      exact ⟨rfl, fun _ _ _ hrow => .inr ⟨rfl, rowTick, _, now, hparsed (hrow rowTick data rfl), hpojo⟩⟩
  · obtain ⟨item, hitem, rfl⟩ := mapped_eq_ok.1 h
    cases pack_spec hitem
    exact ⟨rfl, fun _ _ _ _ => .inl ⟨rfl, rfl, now, rfl⟩⟩

/-- The answer is the body, which the cache may keep. -/
theorem refreshedAnswer_spec {requested : ℚ} :
    (∀ x, (refreshedAnswer b item requested).1 = some x → x = item) ∧
      ∀ x, (refreshedAnswer b item requested).2 = some x → x = item := by
  unfold refreshedAnswer answer
  split
  · exact ⟨nofun, nofun⟩
  · refine ⟨fun x hx => (Option.some.inj hx).symm, fun x hx => ?_⟩
    split at hx
    · exact (Option.some.inj hx).symm
    · cases hx

/-- A row without a body is made one for the call that asks for it. -/
theorem finishMathRefresh_spec {requested : ℚ} {v : MathRefresh β} {now : ℤ} {n : ℕ}
    {p : Finish (MathRefresh β) (PcaItem β) (Option (PcaItem β))} (h : finishMathRefresh b requested v now n = .ok p)
    (hv : GoodMath b history zid v) :
    (∀ v', p.value = some v' → GoodMath b history zid v') ∧ ∀ x, p.keep = some x ∨ p.answer = some x →
      FromMath b history zid x ∧ (x.expiration = v.expiration ∨ x.expiration = now + ttl) := by
  unfold finishMathRefresh at h
  split at h
  · next item outcome =>
    cases h
    refine ⟨nofun, fun x hx => ?_⟩
    obtain rfl := hx.elim (refreshedAnswer_spec.1 x) (refreshedAnswer_spec.2 x)
    exact ⟨hv, .inl rfl⟩
  · next pojo expiration =>
    split at h
    · cases h
      exact ⟨nofun, fun x hx => by cases hx <;> contradiction⟩
    · obtain ⟨pojo', hpojo, h⟩ := bind_eq_ok.1 h
      obtain ⟨item, hitem, h⟩ := bind_eq_ok.1 h
      cases h
      cases pack_spec hitem
      obtain ⟨tick, -, hparsed⟩ := hv
      have hfrom : FromMath b history zid ⟨n, pojo', now + ttl, false, false⟩ :=
        .inr ⟨rfl, tick, pojo, now, hparsed, hpojo⟩
      refine ⟨fun v' hv' => ?_, fun x hx => ?_⟩
      · cases hv'
        exact hfrom
      · obtain rfl := hx.elim (refreshedAnswer_spec.1 x) (refreshedAnswer_spec.2 x)
        exact ⟨hfrom, .inr rfl⟩

variable (b)

/-- `get_pca` serves bodies of rows that were stored. -/
def mathSound : Sound (getPca b) none where
  good := GoodMath b
  kept := FromMath b
  goodMono := fun {_ _ _ v} h hv => match v, hv with
    | .ready _ _, hv => hv.mono h
    | .uncommitted _ _, ⟨tick, htick, hp⟩ => ⟨tick, htick, hp.mono h⟩
  keptMono := fun h hx => hx.mono h
  build := by
    intro h zid r hint rows now n v hhint hrows hv
    refine (builtMath_spec hv).2 h zid hhint fun tick data hrow => ?_
    obtain ⟨hint', row, hstored, -, hq⟩ := hrows _ (Option.join_eq_some_iff.1 hrow)
    obtain ⟨⟨rowTick, text⟩, hsome, hpair⟩ := Option.map_eq_some_iff.1 hq.symm
    rcases hstored with rfl | hstored
    · cases hsome
    · subst hsome
      -- the text is left out when the tick is the one that is held
      split at hpair <;> cases hpair
      exact hstored
  finish := fun hv hp =>
    ⟨(finishMathRefresh_spec hp hv).1, fun x hx => ((finishMathRefresh_spec hp hv).2 x (.inl hx)).1⟩

/-! ## Presentations -/

/-- The presentation is its source with approved comments of the conversation. -/
def FromTids (history : List (ℤ × List ℤ)) (zid : ℤ) (p : Presentation β) : Prop :=
  ∃ tids, (tids = [] ∨ (zid, tids) ∈ history) ∧ p.presented.pojo = b.fill p.source.pojo tids ∧
    p.presented.expiration = p.source.expiration ∧ p.presented.synthesized = p.source.synthesized

variable {b} in
theorem present_build_spec {item : PcaItem β} {cached : Option (Presentation β)} {rows : Option (List ℤ)} {now : ℤ}
    {n : ℕ} {p : Presentation β} (h : (present b).build item cached rows now n = .ok p) :
    p.source = item ∧ p.expiration = now + ttl ∧ p.presented.pojo = b.fill item.pojo (rows.getD []) ∧
      p.presented.expiration = item.expiration ∧ p.presented.synthesized = item.synthesized := by
  obtain ⟨presented, hpresented, h⟩ := bind_eq_ok.1 h
  cases h
  cases pack_spec hpresented
  exact ⟨rfl, rfl, rfl, rfl, rfl⟩

/-- `present` serves bodies with the comments that were approved. -/
def presentSound : Sound (present b) [] where
  good := FromTids b
  kept := FromTids b
  goodMono := fun h ⟨tids, ht, hp⟩ => ⟨tids, ht.imp_right (h _), hp⟩
  keptMono := fun h ⟨tids, ht, hp⟩ => ⟨tids, ht.imp_right (h _), hp⟩
  build := by
    intro h zid item hint rows now n v hhint hrows hv
    obtain ⟨rfl, -, hpojo, hexp, hsynth⟩ := present_build_spec hv
    refine ⟨rows.getD [], ?_, hpojo, hexp, hsynth⟩
    cases rows with
    | none => exact .inl rfl
    | some tids =>
      obtain ⟨_, row, hstored, -, rfl⟩ := hrows tids rfl
      exact hstored
  finish := by
    rintro h zid item v now n p hv ⟨⟩
    exact ⟨nofun, fun x hx => Option.some.inj hx ▸ hv⟩

/-! ## What calls are answered -/

/-- A body from the cache has not expired; one from a flight had not when it was seen, or was read just then, or
it was made for the call. -/
def Fresh (time : ℤ) (item : PcaItem β) : Role (MathRefresh β) → Prop
  | .cached => time < item.expiration
  | .shared _ v seen => seen < v.expiration ∧ (item.expiration = v.expiration ∨ item.expiration = time + ttl)
  | .led _ v ended => v.expiration = ended + ttl ∧ (item.expiration = v.expiration ∨ item.expiration = time + ttl)
  | _ => False

/-- The body itself when nothing lacks, or a presentation of the very body, from the cache or a flight. -/
def Presented (history : List (ℤ × List ℤ)) (zid : ℤ) (item : PcaItem β) (time : ℤ) (shown : PcaItem β) :
    Role (Presentation β) → Prop
  | .cached => (b.lacks item.pojo = false ∧ shown = item) ∨
      ∃ p, FromTids b history zid p ∧ p.source.arc = item.arc ∧ time < p.expiration ∧ shown = p.presented
  | .shared _ p seen =>
    FromTids b history zid p ∧ p.source.arc = item.arc ∧ seen < p.expiration ∧ shown = p.presented
  | .led _ p ended =>
    FromTids b history zid p ∧ p.source = item ∧ p.expiration = ended + ttl ∧ shown = p.presented
  | _ => False

variable {b}

theorem served_of_answered
    {s : State ℚ (MathRefresh β) (PcaItem β) (Option (ℤ × δ)) (Option (ℤ × Option δ)) (Option (PcaItem β))}
    {r : ℚ} {time : ℤ} {role : Role (MathRefresh β)}
    (h : Answered (mathSound b) s zid r time (.ok (some item)) role) :
    FromMath b s.history zid item ∧ Fresh time item role := by
  match role, h with
  | .cached, ⟨cached, a, hkept, hans, hhit⟩ =>
    cases hans
    obtain ⟨x, hx, hanswer⟩ := Option.map_eq_some_iff.1 hhit
    obtain ⟨hcached, hlt⟩ := Option.filter_eq_some_iff.1 hx
    obtain rfl : x = item := by
      unfold answer at hanswer
      split at hanswer
      · exact Option.some.inj hanswer
      · cases hanswer
    exact ⟨hkept x hcached, by simpa [Fresh] using hlt⟩
  | .shared f v seen, ⟨_, hgood, ⟨_, _, _, hshares⟩, n, p, hp, hans⟩ =>
    obtain ⟨hfrom, hexp⟩ := (finishMathRefresh_spec hp hgood).2 item (.inr (Except.ok.inj hans).symm)
    exact ⟨hfrom, of_decide_eq_true hshares, hexp⟩
  | .led f v ended, ⟨_, hgood, ⟨_, _, _, hint, rows, n', hbuild⟩, n, p, hp, hans⟩ =>
    obtain ⟨hfrom, hexp⟩ := (finishMathRefresh_spec hp hgood).2 item (.inr (Except.ok.inj hans).symm)
    exact ⟨hfrom, (builtMath_spec hbuild).1, hexp⟩

theorem presented_of_answered
    {s : State (PcaItem β) (Presentation β) (Presentation β) (List ℤ) (List ℤ) (PcaItem β)}
    {time : ℤ} {shown : PcaItem β} {role : Role (Presentation β)}
    (h : Answered (presentSound b) s zid item time (.ok shown) role) :
    Presented b s.history zid item time shown role := by
  have hserves : ∀ {p : Presentation β} {now}, p.serves item now = true →
      p.source.arc = item.arc ∧ now < p.expiration := by
    intro p now hp
    obtain ⟨harc, hlt⟩ := Bool.and_eq_true_iff.1 hp
    exact ⟨of_decide_eq_true harc, of_decide_eq_true hlt⟩
  match role, h with
  | .cached, ⟨cached, a, hkept, hans, hhit⟩ =>
    cases hans
    unfold present at hhit
    dsimp only at hhit
    split at hhit
    · next hlacks =>
      cases hhit
      exact .inl ⟨by simpa using hlacks, rfl⟩
    · obtain ⟨p, hp, rfl⟩ := Option.map_eq_some_iff.1 hhit
      obtain ⟨hcached, hs⟩ := Option.filter_eq_some_iff.1 hp
      obtain ⟨harc, hlt⟩ := hserves hs
      exact .inr ⟨p, hkept p hcached, harc, hlt, rfl⟩
  | .shared f v seen, ⟨_, hgood, ⟨_, _, _, hshares⟩, n, p, hp, hans⟩ =>
    cases hp
    obtain ⟨harc, hlt⟩ := hserves hshares
    exact ⟨hgood, harc, hlt, Except.ok.inj hans⟩
  | .led f v ended, ⟨_, hgood, ⟨_, _, _, hint, rows, n', hbuild⟩, n, p, hp, hans⟩ =>
    cases hp
    obtain ⟨hsource, hexp, -⟩ := present_build_spec hbuild
    exact ⟨hgood, hsource, hexp, Except.ok.inj hans⟩

end Polis.Refreshes

namespace Polis

variable {α β δ : Type*}

/-- In every run, the calls for priorities, for bodies and for presentations share the reads of a conversation:
one read is in progress at most, what is answered is a read's own or was left in the call's flight or the
cache, and what failed is gone. -/
theorem single_flight (parse : α → Except String β) (b : Refreshes.Bodies δ β) (patience cap : ℕ) :
    (∀ s, Priorities.Reachable parse patience cap s → Priorities.SingleFlight parse s) ∧
      (∀ s, Refreshes.Reachable (Refreshes.getPca b) patience none s →
        Refreshes.Shared (Refreshes.mathSound b) s ∧
        ∀ c zid r role time item, s.calls c = .done zid r role time (.ok (some item)) →
          Refreshes.FromMath b s.history zid item ∧ Refreshes.Fresh time item role) ∧
      ∀ s, Refreshes.Reachable (Refreshes.present b) patience [] s →
        Refreshes.Shared (Refreshes.presentSound b) s ∧
        ∀ c zid item role time shown, s.calls c = .done zid item role time (.ok shown) →
          Refreshes.Presented b s.history zid item time shown role := by
  refine ⟨fun s h => h.inv.singleFlight, fun s h => ?_, fun s h => ?_⟩
  · have hshared : Refreshes.Shared (Refreshes.mathSound b) s := h.inv.shared
    refine ⟨hshared, fun c zid r role time item hc => ?_⟩
    exact Refreshes.served_of_answered (hshared.answered c zid r role time _ hc)
  · have hshared : Refreshes.Shared (Refreshes.presentSound b) s := h.inv.shared
    refine ⟨hshared, fun c zid item role time shown hc => ?_⟩
    exact Refreshes.presented_of_answered (hshared.answered c zid item role time _ hc)

/-! ## What is not promised -/

namespace Priorities

theorem Reachable.run {parse : α → Except String β} {patience cap : ℕ} {s : State α β}
    (h : Reachable parse patience cap s) (es : List (Event α)) {s' : State α β} (hs : es.foldlM (Priorities.step parse patience) s = some s') :
    Reachable parse patience cap s' := by
  induction es generalizing s with
  | nil => exact Option.some.inj hs ▸ h
  | cons e es ih =>
    obtain ⟨s₁, hs₁, hs⟩ := Option.bind_eq_some_iff.1 hs
    exact ih (h.step hs₁) hs

/-- A read that ends at zero, and is handed over at five seconds, while another call waits for it. -/
private def late : List (Event Unit) :=
  [.publish ("prod", 7) (some ⟨5, some (some ())⟩), .load 0 ("prod", 7) 100, .load 1 ("prod", 7) 100, .wait 1,
    .query 0, .finish 0, .tick 5000 10, .complete 0, .wake 1]

end Priorities

namespace Refreshes

theorem Reachable.run {ρ τ χ σ κ ω : Type*} {svc : Service ρ τ χ σ κ ω} {patience : ℕ} {blank : σ}
    {s : State ρ τ χ σ κ ω} (h : Reachable svc patience blank s) (es : List (Event ρ σ)) {s' : State ρ τ χ σ κ ω}
    (hs : es.foldlM (Refreshes.step svc patience) s = some s') : Reachable svc patience blank s' := by
  induction es generalizing s with
  | nil => exact Option.some.inj hs ▸ h
  | cons e es ih =>
    obtain ⟨s₁, hs₁, hs⟩ := Option.bind_eq_some_iff.1 hs
    exact ih (h.step hs₁) hs

/-- Bodies that are their ticks. -/
private def ticks : Bodies Unit ℚ where
  float n := n
  parse _ := .ok 0
  setTick _ t := t
  tick p := some p
  voted _ := true
  complete p _ := .ok p
  template _ := 0
  gzip _ := .ok ()
  lacks _ := false
  lacksTids _ := false
  fill p _ := p

/-- A conversation without a row is read, and asked for once more. -/
private def absent : List (Event ℚ (Option (ℤ × Unit))) :=
  [.start 0 7 (-1), .acquire 0, .lock 0, .look 0, .dispatch 0, .query 0, .return 0, .build 0, .answer 0 .kept,
    .start 1 7 (-1)]

end Refreshes

set_option maxRecDepth 4000 in
/-- A leader returns an entry that has expired, a waiter an error that is neither its outcome nor a deadline, and
a read that finds no row leaves a body that a later call returns. -/
theorem not_single_flight :
    (∃ s : Priorities.State Unit Unit, Priorities.Reachable (fun _ => .ok ()) 1000 500 s ∧
      s.calls 0 = .done ("prod", 7) (.led 0 0) 5000 (.ok (some ⟨3000, 5, some ()⟩)) ∧
      s.calls 1 = .done ("prod", 7) (.joined 0) 5000 (.error "priority flight unavailable")) ∧
    ∃ s, Refreshes.Reachable (Refreshes.getPca Refreshes.ticks) 1000 none s ∧ s.history = [] ∧
      s.calls 1 = .done 7 (-1) .cached 0 (.ok (some ⟨0, 0, 3000, true, false⟩)) := by
  constructor
  · obtain ⟨s, hs, hcalls⟩ := Option.map_eq_some_iff.1
      (show (Priorities.late.foldlM (Priorities.step (fun _ => .ok ()) 1000) (.init 500)).map
        (fun s => (s.calls 0, s.calls 1)) = some (.done ("prod", 7) (.led 0 0) 5000 (.ok (some ⟨3000, 5, some ()⟩)),
          .done ("prod", 7) (.joined 0) 5000 (.error "priority flight unavailable")) from rfl)
    obtain ⟨h₀, h₁⟩ := Prod.mk.inj hcalls
    exact ⟨s, Priorities.Reachable.init.run _ hs, h₀, h₁⟩
  · obtain ⟨s, hs, hcalls⟩ := Option.map_eq_some_iff.1
      (show (Refreshes.absent.foldlM (Refreshes.step (Refreshes.getPca Refreshes.ticks) 1000) (.init none)).map
        (fun s => (s.history, s.calls 1)) =
          some ([], .done 7 (-1) .cached 0 (.ok (some ⟨0, 0, 3000, true, false⟩))) from rfl)
    obtain ⟨h₀, h₁⟩ := Prod.mk.inj hcalls
    exact ⟨s, Refreshes.Reachable.init.run _ hs, h₀, h₁⟩

end Polis
