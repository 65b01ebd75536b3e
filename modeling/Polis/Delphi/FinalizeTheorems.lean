import Polis.Common.Utf8
import Polis.Daemon.Manifest
import Polis.Delphi.Writers
import Polis.Queue.ReapTheorems

/-!
# The daemon and the database judge a manifest alike

What the daemon has validated the database finds valid again, where jsonb can hold the text at all. A
job without a writer run then succeeds. The results of a writer run are published first, which may fail.

Reference: `queue-rs/src/jobs/manifest.rs`,
`server/postgres/migrations/000030_create_delphi_writers.sql`.
-/

namespace Polis.Delphi.Writers

open Daemon hiding get
open Queue Results JsonText List Option

/-! ## What the daemon has checked -/

open Daemon (Value Map Manifest Invalid check need get containsKey index isStr asStr asObject asArray
  asU64 hasKeys)

variable {α : Type} {m v o : Value} {r : Manifest} {job attempt stage text key name s : String}
  {u : Unit} {writer : Bool} {sha256Hex : String → String}

theorem check_eq_ok {p : Bool} : check p name = .ok u ↔ p = true := by
  cases p <;> simp [check]

theorem need_eq_ok {x : Option α} {a : α} : need x name = .ok a ↔ x = some a := by
  cases x <;> simp [need]

theorem eq_of_asObject {o : Map} (h : asObject v = some o) : v = .object o := by
  cases v with
  | object o' =>
    cases h
    rfl
  | _ => cases h

/-- A key that an object with these keys has is one of them. -/
theorem mem_of_hasKeys {root : Map} {keys : List String} (hkeys : keys.Nodup)
    (h : hasKeys root keys = true) (hk : key ∈ root.map Prod.fst) : key ∈ keys := by
  rw [hasKeys, Bool.and_eq_true, decide_eq_true_iff, List.all_eq_true] at h
  have hsub : keys ⊆ root.map Prod.fst := by
    intro k hk
    obtain ⟨x, hx⟩ := isSome_iff_exists.1 (h.2 k hk)
    obtain ⟨e, he, -⟩ := map_eq_some_iff.1 hx
    have hkey : e.1 = k := by simpa using find?_some he
    exact hkey ▸ mem_map_of_mem (mem_of_find?_eq_some he)
  have hperm : keys.Perm (root.map Prod.fst) :=
    (subperm_of_subset hkeys hsub).perm_of_length_le (by rw [length_map, h.1])
  exact hperm.mem_iff.2 hk

/-- What an output has. -/
structure OutputChecked (writer : Bool) (o : Value) : Prop where
  store : isStr o "store" (if writer then "postgres" else "dynamodb") = true
  table : ∃ t, asStr (index o "table") = some t ∧ t ≠ ""
  rows : ∃ n, asU64 (index o "rows") = some n
  partitions : ∃ m, asObject o = some m ∧
    (containsKey m "keys" = true ∨ containsKey m "key_prefix" = true)

theorem checkOutput_spec (h : checkOutput writer o = .ok u) : OutputChecked writer o := by
  obtain ⟨m, hm, h⟩ := bind_eq_ok.1 h
  obtain ⟨ps, hps, h⟩ := bind_eq_ok.1 h
  simp only [check_eq_ok, Bool.and_eq_true, any_eq_true_iff_get] at h
  obtain ⟨⟨⟨⟨hstore, -⟩, htable⟩, hrows⟩, -⟩ := h
  refine ⟨hstore, ?_, isSome_iff_exists.1 hrows, m, need_eq_ok.1 hm, ?_⟩
  · obtain ⟨hsome, hne⟩ := htable
    exact ⟨_, (some_get hsome).symm, by simpa using hne⟩
  · unfold partitions at hps
    split at hps
    · next hp _ => exact .inr (isSome_iff_exists.2 ⟨_, hp⟩)
    · next _ hk => exact .inl (isSome_iff_exists.2 ⟨_, hk⟩)
    · cases hps

theorem checkOutputs_spec {outputs : List Value} (h : checkOutputs writer outputs = .ok u) :
    ∀ o ∈ outputs, OutputChecked writer o := by
  induction outputs with
  | nil => exact fun _ h => nomatch h
  | cons o outputs ih =>
    obtain ⟨_, ho, h⟩ := bind_eq_ok.1 h
    exact forall_mem_cons.2 ⟨checkOutput_spec ho, ih h⟩

/-- The manifest is one of a writer. -/
abbrev isWriter (m : Value) : Bool := isStr m "schema" writerSchemaText

/-- What a manifest that succeeded has. -/
structure Checked (m : Value) (job attempt stage : String) : Prop where
  schema : isStr m "schema" schemaText = true ∨ isWriter m = true
  root : ∃ root, m = .object root ∧
    hasKeys root (if isWriter m then writerKeys root else rootKeys) = true
  job_id : isStr m "job_id" job = true
  attempt_id : isStr m "attempt_id" attempt = true
  stage : isStr m "stage" stage = true
  phase : ∃ p, asStr (index m "phase") = some p ∧ p ∈ ["run", "submit", "recheck"]
  outcome : isStr m "outcome" "succeeded" = true
  inputs : ∃ a, asObject (index m "inputs") = some a
  outputs : ∃ a, asArray (index m "outputs") = some a ∧ ∀ o ∈ a, OutputChecked (isWriter m) o
  models : ∃ a, asObject (index m "models") = some a
  cost : ∃ a, asObject (index m "cost") = some a

theorem validateValue_spec (h : validateValue sha256Hex text m job attempt stage = .ok r)
    (hr : r.outcome = .succeeded) :
    Checked m job attempt stage ∧ r.text = text ∧ r.sha256 = sha256Hex text := by
  obtain ⟨root, hroot, h⟩ := bind_eq_ok.1 h
  obtain ⟨_, hkeys, h⟩ := bind_eq_ok.1 h
  obtain ⟨_, hschema, h⟩ := bind_eq_ok.1 h
  obtain ⟨_, hjob, h⟩ := bind_eq_ok.1 h
  obtain ⟨_, hattempt, h⟩ := bind_eq_ok.1 h
  obtain ⟨_, hstage, h⟩ := bind_eq_ok.1 h
  obtain ⟨phase, hphase, h⟩ := bind_eq_ok.1 h
  obtain ⟨_, hin, h⟩ := bind_eq_ok.1 h
  obtain ⟨outcome, hout, h⟩ := bind_eq_ok.1 h
  obtain ⟨_, hinputs, h⟩ := bind_eq_ok.1 h
  obtain ⟨outputs, houtputs, h⟩ := bind_eq_ok.1 h
  obtain ⟨_, hall, h⟩ := bind_eq_ok.1 h
  obtain ⟨_, hmodels, h⟩ := bind_eq_ok.1 h
  obtain ⟨batches, hcost, h⟩ := bind_eq_ok.1 h
  obtain ⟨recheck, -, h⟩ := bind_eq_ok.1 h
  obtain ⟨_, _, h⟩ := bind_eq_ok.1 h
  cases h
  obtain rfl : outcome = .succeeded := hr
  obtain ⟨_, _, hkeys⟩ := bind_eq_ok.1 hkeys
  obtain ⟨inputs, hinputs, -⟩ := bind_eq_ok.1 hinputs
  obtain ⟨models, hmodels, -⟩ := bind_eq_ok.1 hmodels
  obtain ⟨cost, hcost, -⟩ := bind_eq_ok.1 hcost
  have hsucceeded : isStr m "outcome" "succeeded" = true := by
    unfold readOutcome at hout
    split at hout
    · assumption
    · split at hout
      · cases hout
      · cases hout
  have hobject : m = .object root := eq_of_asObject (need_eq_ok.1 hroot)
  exact ⟨{
    schema := Bool.or_eq_true_iff.1 (check_eq_ok.1 hschema)
    root := ⟨root, hobject, check_eq_ok.1 hkeys⟩
    job_id := check_eq_ok.1 hjob
    attempt_id := check_eq_ok.1 hattempt
    stage := check_eq_ok.1 hstage
    phase := ⟨phase, need_eq_ok.1 hphase, by simpa [check_eq_ok] using hin⟩
    outcome := hsucceeded
    inputs := ⟨inputs, need_eq_ok.1 hinputs⟩
    outputs := ⟨outputs, need_eq_ok.1 houtputs, checkOutputs_spec hall⟩
    models := ⟨models, need_eq_ok.1 hmodels⟩
    cost := ⟨cost, need_eq_ok.1 hcost⟩ }, rfl, rfl⟩

/-! ## One text, two readers -/

section Stored

variable (f : Number → String)

/-- A value as the database stores it. -/
def stored (v : Value) : Json := ofJson (JsonText.map f v)

theorem stored_array (a : List Value) : stored f (.array a) = .array (a.map (stored f)) := by
  rw [stored, JsonText.map, ofJson, mapItems_eq, ofItems_eq, List.map_map]
  rfl

theorem stored_object (o : Map) : stored f (.object o) = .object (o.map (Prod.map id (stored f))) := by
  rw [stored, JsonText.map, ofJson, mapMembers_eq, ofMembers_eq, List.map_map]
  rfl

theorem member_stored (o : Map) (key : String) :
    (stored f (.object o)).member key = (get o key).map (stored f) := by
  rw [stored_object, Json.member, find?_map, Daemon.get, Option.map_map, Option.map_map]
  rfl

end Stored

/-- What the database is relied on for. -/
structure Faithful (p : Server) : Prop where
  sha256 : ∀ t, isSha256 (p.sha256Hex t) = true
  /-- A whole number without a sign is its own text. -/
  numeric : ∀ n k, numberU64 n = some k → p.numeric n = .ok (toString k)

variable {p : Server} {finite : Number → Bool}

/-- What the daemon reads the database reads too, where jsonb can hold the text. -/
theorem jsonb_of_fromStr (hrep : p.representable text = true)
    (h : fromStr finite text = some v) : p.jsonb text = .ok (stored p.numberText v) := by
  unfold fromStr at h
  split at h
  swap
  · cases h
  next t hparse =>
  split at h
  · cases h
  have hall : t.all (fun s => !escapesNul s) p.holds = true := by
    rwa [Server.representable, hparse] at hrep
  have hread : read serdeString (serdeNumber finite) t = .ok v := by
    cases hx : read serdeString (serdeNumber finite) t with
    | error e =>
      rw [hx] at h
      cases h
    | ok x =>
      rw [hx] at h
      cases h
      rfl
  have hstr : ∀ s t, (!escapesNul s) = true → serdeString s = .ok t → jsonbString s = .ok t := by
    intro s t hs ht
    obtain ⟨cs, hcs, ht⟩ := bind_eq_ok.1 ht
    cases ht
    rw [jsonbString, decode_agree (by simpa using hs) hcs]
    rfl
  have hnum : ∀ n x, p.holds n = true → serdeNumber finite n = .ok x →
      p.numeric n = .ok (p.numberText x) := by
    intro n x hn hx
    unfold serdeNumber at hx
    split at hx
    · cases hx
      rw [Server.numberText]
      cases hp : p.numeric n with
      | ok t => rfl
      | error e =>
        rw [Server.holds, hp] at hn
        cases hn
    · cases hx
  rw [Server.jsonb, hparse]
  dsimp only
  rw [read_agree hstr hnum hall hread]
  rfl

/-! ## The manifest is accepted -/

variable {β : Type} {b : Builtins} {f : Number → String} {g : Value → Option β} {y : β}

/-- What a member holds, where a missing one would not. -/
theorem index_eq_some (hnull : g .null = none) (h : g (index v key) = some y) :
    ∃ o x, v = .object o ∧ get o key = some x ∧ g x = some y := by
  unfold index at h
  cases hget : (asObject v).bind (get · key) with
  | none =>
    rw [hget, getD_none, hnull] at h
    cases h
  | some x =>
    rw [hget, getD_some] at h
    obtain ⟨o, ho, hx⟩ := bind_eq_some_iff.1 hget
    exact ⟨o, x, eq_of_asObject ho, hx, h⟩

theorem member_of_index (hnull : g .null = none) (h : g (index v key) = some y) :
    ∃ x, (stored f v).member key = some (stored f x) ∧ g x = some y := by
  obtain ⟨o, x, rfl, hx, hy⟩ := index_eq_some hnull h
  exact ⟨x, by rw [member_stored, hx, map_some], hy⟩

theorem field_of_str (h : asStr (index v key) = some s) : (stored f v).field b key = some s := by
  obtain ⟨x, hx, hs⟩ := member_of_index rfl h
  rw [Json.field, hx]
  cases x with
  | string t =>
    cases hs
    rfl
  | _ => cases hs

theorem field_of_isStr (h : isStr v key s = true) : (stored f v).field b key = some s :=
  field_of_str (of_decide_eq_true h)

theorem isDigits_toString (n : ℕ) : isDigits (toString n) = true := by
  have hdigits : ∀ c ∈ (toString n).toList, c.isDigit = true := by
    intro c hc
    rw [Nat.toString_eq_repr, Nat.repr, String.toList_ofList] at hc
    exact Digits.toDigits n c hc
  have hne : toString n ≠ "" := by
    intro h
    have := congrArg String.toList h
    rw [Nat.toString_eq_repr, Nat.repr, String.toList_ofList] at this
    exact Nat.toDigits_ne_nil this
  rw [isDigits, Bool.and_eq_true, decide_eq_true_iff, List.all_eq_true]
  refine ⟨hne, fun c hc => ?_⟩
  have := hdigits c hc
  rw [Char.isDigit, Bool.and_eq_true, decide_eq_true_iff, decide_eq_true_iff] at this
  rw [Bool.and_eq_true, decide_eq_true_iff, decide_eq_true_iff]
  exact this

theorem OutputChecked.accepted (hp : Faithful p) (h : OutputChecked writer o) :
    outputAccepted b writer (stored p.numberText o) = true := by
  obtain ⟨t, ht, hne⟩ := h.table
  obtain ⟨n, hn⟩ := h.rows
  obtain ⟨m, hm, hkeys⟩ := h.partitions
  obtain ⟨x, hx, hn⟩ := member_of_index rfl hn
  have hrows : (stored p.numberText o).field b "rows" = some (toString n) := by
    rw [Json.field, hx]
    cases x with
    | number k =>
      have hk := hp.numeric k n hn
      show some (p.numberText k) = _
      rw [Server.numberText, hk]
      rfl
    | _ => cases hn
  have hhas : ∀ key, (stored p.numberText o).has key = containsKey m key := by
    intro key
    obtain rfl := eq_of_asObject hm
    rw [Json.has, member_stored, isSome_map]
    rfl
  simp only [outputAccepted, field_of_isStr h.store, field_of_str ht, hrows, hhas, getD_some,
    isDigits_toString, decide_true, Bool.true_and, Bool.and_true, Bool.and_eq_true, Bool.or_eq_true]
  exact ⟨by simpa using hne, hkeys⟩

theorem Checked.artifacts (h : Checked m job attempt stage) :
    (stored f m).member "artifacts" = none := by
  obtain ⟨root, rfl, hkeys⟩ := h.root
  rw [member_stored]
  cases hget : get root "artifacts" with
  | none => rfl
  | some x =>
    obtain ⟨e, he, -⟩ := map_eq_some_iff.1 hget
    have hkey : e.1 = "artifacts" := by simpa using find?_some he
    have hmem : "artifacts" ∈ root.map Prod.fst :=
      hkey ▸ mem_map_of_mem (mem_of_find?_eq_some he)
    split at hkeys
    · have hwriter : (writerKeys root).Nodup ∧ "artifacts" ∉ writerKeys root := by
        unfold writerKeys
        split <;> split <;> decide
      exact absurd (mem_of_hasKeys hwriter.1 hkeys hmem) hwriter.2
    · exact absurd (mem_of_hasKeys (by decide) hkeys hmem) (by decide)

/-- The two schemas are told apart alike. -/
theorem Checked.field_schema (h : Checked m job attempt stage) :
    (stored f m).field b "schema" = some (if isWriter m then writerSchemaText else schemaText) := by
  split
  · next hw => exact field_of_isStr hw
  · next hw => exact field_of_isStr (h.schema.resolve_right hw)

theorem Checked.accepted {j a : Uuid} {st : Stage} (hp : Faithful p)
    (h : Checked m (uuidText j) (uuidText a) (stageText st)) :
    manifestAccepted b (stored p.numberText m) j a st = true := by
  obtain ⟨phase, hphase, hin⟩ := h.phase
  obtain ⟨outputs, houtputs, hall⟩ := h.outputs
  obtain ⟨xo, hxo, ho⟩ := member_of_index (f := p.numberText) rfl houtputs
  obtain ⟨_, hinputs⟩ := h.inputs
  obtain ⟨xi, hxi, hi⟩ := member_of_index (f := p.numberText) rfl hinputs
  obtain ⟨_, hmodels⟩ := h.models
  obtain ⟨xm, hxm, hm⟩ := member_of_index (f := p.numberText) rfl hmodels
  obtain ⟨_, hcost⟩ := h.cost
  obtain ⟨xc, hxc, hc⟩ := member_of_index (f := p.numberText) rfl hcost
  have hobject : ∀ {x : Value} {o : Map}, asObject x = some o →
      (stored p.numberText x).isObject = true := by
    intro x o ho
    cases x with
    | object o => rw [stored_object]; rfl
    | _ => cases ho
  have hwriter : decide ((stored p.numberText m).field b "schema" = some writerSchemaText) =
      isWriter m := by
    rw [h.field_schema]
    split
    · next hw => rw [hw]; rfl
    · next hw => rw [Bool.eq_false_iff.2 hw]; rfl
  have hitems : (stored p.numberText xo).items? = some (outputs.map (stored p.numberText)) := by
    cases xo with
    | array a =>
      cases ho
      rw [stored_array]
      rfl
    | _ => cases ho
  have hschema : (decide ((stored p.numberText m).field b "schema" = some schemaText) ||
      isWriter m) = true := by
    rw [h.field_schema]
    cases isWriter m with
    | true => rfl
    | false => rfl
  have houts : (outputs.map (stored p.numberText)).all (outputAccepted b (isWriter m)) = true := by
    rw [List.all_map, List.all_eq_true]
    exact fun o ho => (hall o ho).accepted hp
  have hphases : ["submit", "recheck", "run"].contains phase = true := by
    have hcases : phase = "run" ∨ phase = "submit" ∨ phase = "recheck" := by simpa using hin
    rcases hcases with rfl | rfl | rfl
    · decide
    · decide
    · decide
  simp only [manifestAccepted, hschema, hwriter, field_of_isStr h.job_id, field_of_isStr h.attempt_id,
    field_of_isStr h.stage, field_of_isStr h.outcome, field_of_str hphase, hxo, hxi, hxm, hxc,
    h.artifacts, bind_some, hitems, any_some, houts, hobject hi, hobject hm, hobject hc,
    getD_some, hphases, all_none, decide_true, Bool.and_true]

/-! ## The receipt -/

variable {db : Database} {w w' : Store} {clock : Clock} {j : JobRow} {a : AttemptRow}
  {token : Queue.Token} {uri : String} {aid id job₀ : Uuid}

/-- The manifest is in the log of the attempt, and no other of its manifests has the same digest. -/
structure Logged (p : Server) (db : Database) (env : String) (attempt : Uuid) (text : String) :
    Prop where
  row : ∃ l ∈ db.logs.rows, l.env = env ∧ l.attemptId = attempt ∧ l.stream = .manifest ∧ l.line = text
  digest : ∀ l ∈ db.logs.rows, l.env = env → l.attemptId = attempt → l.stream = .manifest →
    p.sha256Hex l.line = p.sha256Hex text → l.line = text

theorem Logged.manifestLine {env : String} (h : Logged p db env id text) :
    manifestLine p.builtins db env id (p.sha256Hex text) = some text := by
  obtain ⟨l, hl, henv, hid, hstream, hline⟩ := h.row
  have hmem : ∀ l', l' ∈ (db.logs.rows.filter fun l => l.env = env ∧ l.attemptId = id ∧
      l.stream = .manifest ∧ p.builtins.sha256Hex l.line = p.sha256Hex text).insertionSort
      (fun l l' => l'.seq ≤ l.seq) ↔ l' ∈ db.logs.rows ∧ l'.env = env ∧ l'.attemptId = id ∧
      l'.stream = .manifest ∧ p.sha256Hex l'.line = p.sha256Hex text := by
    intro l'
    rw [mem_insertionSort, mem_filter, decide_eq_true_iff]
    rfl
  unfold Delphi.manifestLine
  cases hsort : (db.logs.rows.filter fun l => l.env = env ∧ l.attemptId = id ∧
      l.stream = .manifest ∧ p.builtins.sha256Hex l.line = p.sha256Hex text).insertionSort
      (fun l l' => l'.seq ≤ l.seq) with
  | nil =>
    have hin := (hmem l).2 ⟨hl, henv, hid, hstream, by rw [hline]⟩
    rw [hsort] at hin
    cases hin
  | cons l' rest =>
    have hin : l' ∈ l' :: rest := mem_cons_self
    rw [← hsort, hmem] at hin
    obtain ⟨hl', henv', hid', hstream', hsha⟩ := hin
    exact congrArg some (h.digest l' hl' henv' hid' hstream' hsha)

theorem receipt_raises (hp : Faithful p) {message : String}
    (hjsonb : p.jsonb text = .error (.other message))
    (hlog : Logged p db j.env id text) (huri : isFileUri uri = true) (hlen : uri.length ≤ 2048) :
    receipt p.builtins db j id (some uri) (some (p.sha256Hex text)) = .error (.raised message) := by
  have hjsonb : p.builtins.jsonb text = .error (.other message) := hjsonb
  unfold receipt
  dsimp only
  rw [huri, hp.sha256, hlog.manifestLine, if_neg (by simpa using hlen)]
  dsimp only
  rw [hjsonb]

theorem receipt_of_checked (hp : Faithful p) (hrep : p.representable text = true)
    (hread : fromStr finite text = some m)
    (hm : Checked m (uuidText j.jobId) (uuidText id) (stageText j.stage))
    (hlog : Logged p db j.env id text) (huri : isFileUri uri = true) (hlen : uri.length ≤ 2048) :
    receipt p.builtins db j id (some uri) (some (p.sha256Hex text)) =
      .ok (some (stored p.numberText m, uri, p.sha256Hex text)) := by
  have hjsonb : p.builtins.jsonb text = .ok (stored p.numberText m) := jsonb_of_fromStr hrep hread
  unfold receipt
  dsimp only
  rw [huri, hp.sha256, hlog.manifestLine, if_neg (by simpa using hlen)]
  dsimp only
  rw [hjsonb]
  dsimp only
  rw [if_pos (hm.accepted hp)]

/-! ## The writes go through -/

theorem updateDelphiJob_ok {k : String × Uuid} {f : DelphiJobRow → DelphiJobRow}
    (hf : DelphiJobRow.Keeps f)
    (hkeep : ∀ d, (f d).origin = d.origin ∧ (f d).runId = d.runId ∧
      (d.status.terminal → (f d).status.terminal)) :
    ∃ db', db.updateDelphiJob k f = .ok db' := by
  obtain ⟨t, ht⟩ := Table.exists_update (t := db.delphiJobs) (k := k.2)
    (f := fun d => if d.env = k.1 then f d else d)
    (fun d => by
      split
      · exact (hf d).1
      · rfl)
    fun d hfind => by
      have hcheck : Row.check d := Table.check_of_find hfind
      obtain ⟨henv, hparent, horigin⟩ := hcheck
      obtain ⟨ho, hr, hs⟩ := hkeep d
      refine ⟨rfl, ?_⟩
      split
      · refine ⟨by rw [(hf d).2.1]; exact henv, by rw [(hf d).1, (hf d).2.2.1]; exact hparent, ?_⟩
        rw [ho, hr]
        exact horigin.imp_right fun h => ⟨h.1, hs h.2⟩
      · exact ⟨henv, hparent, horigin⟩
  exact ⟨_, write_eq_ok.2 ⟨t, ht, rfl⟩⟩

/-- A job that ends takes its logical job along. -/
theorem updateJobState_ended {k : String × Uuid} {f : JobRow → JobRow} (now : Time)
    (hf : JobRow.Keeps f) (hj : db.jobs.find k = some j) (hstage : (f j).stage = j.stage)
    (hinstance : (f j).stageInstance = j.stageInstance) (hcheck : Row.check (f j))
    (hended : (f j).state.terminal = true) : ∃ db', db.updateJobState k now f = .ok db' := by
  obtain ⟨db₁, h₁⟩ : ∃ db₁, db.updateJob k f = .ok db₁ := by
    refine updateJob_ok hf fun i hi => ?_
    obtain rfl : j = i := Option.some.inj (hj.symm.trans hi)
    exact ⟨hstage, hinstance, hcheck⟩
  have hfind : db₁.jobs.find k = some (f j) := by
    obtain ⟨t, ht, rfl⟩ := write_eq_ok.1 h₁
    have hfind : t.find k = _ := Table.find_update (fun j => Prod.ext (hf j).1 (hf j).2.1) ht
    rwa [if_pos rfl, hj] at hfind
  by_cases hnoop : (f j).stage = .noop
  · refine ⟨db₁, bind_eq_ok.2 ⟨db₁, h₁, ?_⟩⟩
    rw [hfind]
    exact if_pos hnoop
  · obtain ⟨db₂, h₂⟩ : ∃ db₂, db₁.updateDelphiJob k (·.sync (f j) now) = .ok db₂ :=
      updateDelphiJob_ok (fun _ => ⟨rfl, rfl, rfl, rfl, rfl, rfl⟩) fun _ => ⟨rfl, rfl, fun _ => hended⟩
    refine ⟨db₂, bind_eq_ok.2 ⟨db₁, h₁, ?_⟩⟩
    rw [hfind]
    exact (if_neg hnoop).trans h₂

theorem succeeded_check {attempt : Option Uuid} {sha : Option String} (hj : Row.check j) :
    Row.check (j.succeeded clock attempt sha) := by
  obtain ⟨-, hcounted, h₁, h₂, h₃, h₄, h₅, hstages⟩ := hj
  refine ⟨.inr ⟨by simp [JobRow.succeeded], rfl, rfl, rfl⟩, hcounted, h₁, h₂, h₃, ?_, ?_, hstages⟩
  · show 0 ≤ j.version + 1
    omega
  · show 0 ≤ j.mgmtVersion + 1
    omega

/-- Nothing refuses the writes of a finalize. -/
theorem finishProcess_ok (hj : db.jobs.find j.key = some j) {sha : String}
    (hlen : 1 ≤ uri.length ∧ uri.length ≤ 2048) (hsha : isSha256 sha = true) :
    ∃ reply db', finishProcess db clock j id uri sha = .ok (reply, db') ∧
      reply.outcome = .state .succeeded := by
  obtain ⟨db₁, h₁⟩ : ∃ db₁, db.updateAttempt (j.env, id)
      (AttemptRow.succeed (some sha) (clock.read 1)) = .ok db₁ :=
    updateAttempt_ok fun _ => ⟨rfl, rfl, rfl, rfl, rfl⟩
  have hj₁ : db₁.jobs.find j.key = some j := by
    obtain ⟨t, -, rfl⟩ := write_eq_ok.1 h₁
    exact hj
  obtain ⟨db₂, h₂⟩ := updateJobState_ended (f := JobRow.succeeded clock (some id) (some sha))
    (clock.read 3) (fun _ => ⟨rfl, rfl, rfl⟩) hj₁ rfl rfl (succeeded_check (Table.check_of_find hj)) rfl
  obtain ⟨db₃, h₃⟩ : ∃ db₃, db₂.updateDelphiJob j.key
      (fun d => { d with outputManifestDigest := some sha }) = .ok db₃ :=
    updateDelphiJob_ok (fun _ => ⟨rfl, rfl, rfl, rfl, rfl, rfl⟩) fun _ => ⟨rfl, rfl, fun h => h⟩
  obtain ⟨t, ht⟩ := Table.exists_update (t := db₃.runs) (k := (j.env, j.runId))
    (f := fun r => { r with
      state := .succeeded
      expectedOutputUri := uri
      expectedOutputSha256 := sha
      outputSha256 := some sha })
    (fun _ => rfl) fun r hr => by
      obtain ⟨c₁, c₂, c₃, c₄, c₅, c₆, -, -, -, c₇⟩ := Table.check_of_find hr
      exact ⟨rfl, c₁, c₂, c₃, c₄, c₅, c₆, hlen.1, hlen.2, hsha, c₇⟩
  refine ⟨_, _, bind_eq_ok.2 ⟨db₁, h₁, bind_eq_ok.2 ⟨db₂, h₂, bind_eq_ok.2 ⟨db₃, h₃,
    bind_eq_ok.2 ⟨_, write_eq_ok.2 ⟨t, ht, rfl⟩, rfl⟩⟩⟩⟩, rfl⟩

/-! ## The answer -/

/-- The caller owns the job, its process has exited, no request is open and the log holds the text. -/
structure Finishing (p : Server) (w : Store) (clock : Clock) (token : Queue.Token) (j : JobRow)
    (a : AttemptRow) (text uri : String) : Prop where
  job : w.queue.jobs.find (w.env, j.jobId) = some j
  owns : pqOwns j token (clock.read 0) = true
  attempt : attemptOf w.queue w.env j.jobId token = some a
  exited : a.processExitConfirmedAt.isSome
  closed : hasRequest w.queue j.key ProviderState.open = false
  logged : Logged p w.queue w.env a.attemptId text
  file : isFileUri uri = true
  length : uri.length ≤ 2048

/-- The call answers `succeeded`. -/
def Succeeds (x : Except DbError (Reply × Store)) : Prop :=
  ∃ reply w', x = .ok (reply, w') ∧ reply.outcome = .state .succeeded

/-- The call answers `invalid_output` and changes nothing. -/
def Refuses (w : Store) (x : Except DbError (Reply × Store)) : Prop :=
  ∃ reply, x = .ok (reply, w) ∧ reply.outcome = .invalidOutput

/-- The manifest leaves its families in a spool. -/
def spools (m : Value) : Bool := (asObject m).any (containsKey · "family_spool")

/-- The answer about a manifest `m` that the daemon has validated. A graph's manifest is for another
call, a job without a writer run has nothing to publish, and what a writer run left is published, which
may raise. -/
structure Judged (p : Server) (w : Store) (j : JobRow) (a : AttemptRow) (aid : Uuid) (m : Value)
    (x : Except DbError (Reply × Store)) : Prop where
  graph : (w.graphStages j.jobId).isSome → x = .error (.raised "graph manifest required")
  plain : w.graphStages j.jobId = none → w.writerRun j.jobId = none → isWriter m = false → Succeeds x
  refused : w.graphStages j.jobId = none → (w.writerRun j.jobId).isSome →
    isWriter m = false ∨ spools m = true → Refuses w x
  published : w.graphStages j.jobId = none → (w.writerRun j.jobId).isSome →
    isWriter m = true → spools m = false →
    (∃ w', pd_writer_publish p.builtins w j.jobId a.attemptId
      ((stored p.numberText m).member "results") aid = .ok w' ∧ Succeeds x) ∨
    ∃ e, pd_writer_publish p.builtins w j.jobId a.attemptId
      ((stored p.numberText m).member "results") aid = .error e ∧ x = .error e

theorem pd_finalize_eq (h : Finishing p w clock token j a text uri)
    (hgraph : w.graphStages j.jobId = none) {sha : Option String} :
    pd_finalize b w clock j.jobId token (some uri) sha aid =
      finishOwned b w clock j a.attemptId (some uri) sha aid := by
  have hrunning : j.state = .running := (pqOwns_iff.1 h.owns).1
  have hexit : a.processExitConfirmedAt.isNone = false := by
    rw [← not_isSome, h.exited]
    rfl
  unfold pd_finalize
  simp only [h.job, hgraph, hrunning, h.owns, h.attempt, hexit, isSome_none, Bool.false_eq_true,
    if_false, reduceCtorEq, false_and, Bool.not_true]

theorem has_stored {root : Map} : (stored f (.object root)).has key = containsKey root key := by
  rw [Json.has, member_stored, isSome_map]
  rfl

/-- A writer's manifest that leaves no spool names its results. -/
theorem Checked.results (h : Checked m job attempt stage) (hw : isWriter m = true)
    (hs : spools m = false) : (stored f m).has "results" = true := by
  obtain ⟨root, rfl, hkeys⟩ := h.root
  have hspool : containsKey root "family_spool" = false := hs
  rw [if_pos hw, hasKeys, Bool.and_eq_true, List.all_eq_true] at hkeys
  rw [has_stored]
  exact hkeys.2 "results" (by rw [writerKeys, hspool]; simp)

theorem Checked.has_spool (h : Checked m job attempt stage) :
    (stored f m).has "family_spool" = spools m := by
  obtain ⟨root, rfl, -⟩ := h.root
  exact has_stored

/-- What is published of a manifest that the daemon has validated. -/
theorem Checked.publishResults_eq (h : Checked m job attempt stage) :
    publishResults b w j id (stored f m) aid =
      match w.writerRun j.jobId with
      | some _ =>
        if isWriter m = true ∧ spools m = false then
          (pd_writer_publish b w j.jobId id ((stored f m).member "results") aid).map some
        else .ok none
      | none => .ok (if isWriter m then none else some w) := by
  have hne : schemaText ≠ writerSchemaText := by decide
  unfold publishResults
  cases w.writerRun j.jobId with
  | none =>
    rw [h.field_schema]
    cases isWriter m with
    | true => simp [hne.symm]
    | false => simp
  | some run =>
    dsimp only
    rw [h.field_schema, h.has_spool]
    cases hw : isWriter m with
    | false => simp [hne]
    | true =>
      cases hs : spools m with
      | true => simp
      | false =>
        rw [h.results hw hs]
        simp

theorem pd_writer_publish_queue {results : Option Json}
    (h : pd_writer_publish b w job₀ id results aid = .ok w') : w'.queue = w.queue := by
  obtain ⟨run, -, h⟩ := bind_eq_ok.1 h
  obtain ⟨j, -, h⟩ := bind_eq_ok.1 h
  obtain ⟨_, _, h⟩ := bind_eq_ok.1 h
  obtain ⟨s, -, h⟩ := bind_eq_ok.1 h
  obtain ⟨_, _, h⟩ := bind_eq_ok.1 h
  obtain ⟨legacy, -, h⟩ := bind_eq_ok.1 h
  obtain ⟨rs, -, h⟩ := bind_eq_ok.1 h
  cases h
  rfl

/-- The job succeeds once its results are published. -/
theorem finishes (h : Finishing p w clock token j a text uri) (hqueue : w'.queue = w.queue)
    {sha : String} (hsha : isSha256 sha = true) :
    Succeeds ((finishProcess w'.queue clock j a.attemptId uri sha).map fun (r, db) =>
      (r, w'.setQueue db)) := by
  have hkey : j.key = (w.env, j.jobId) := (Table.find_eq_some.1 h.job).2
  have hlen : 7 < uri.length := by
    have := h.file
    rw [isFileUri, Bool.and_eq_true, decide_eq_true_iff] at this
    exact this.2
  have hj : w.queue.jobs.find j.key = some j := hkey ▸ h.job
  obtain ⟨reply, db, hok, hout⟩ : ∃ reply db', finishProcess w.queue clock j a.attemptId uri sha =
      .ok (reply, db') ∧ reply.outcome = .state .succeeded :=
    finishProcess_ok hj ⟨by omega, h.length⟩ hsha
  rw [hqueue, hok]
  exact ⟨reply, _, rfl, hout⟩

/-- The call on a manifest that is accepted: what is published, and then the end of the job. -/
theorem pd_finalize_accepted (aid : Uuid) (hp : Faithful p)
    (h : Finishing p w clock token j a text uri) (hgraph : w.graphStages j.jobId = none)
    (hrep : p.representable text = true)
    (hread : fromStr finite text = some m)
    (hm : Checked m (uuidText j.jobId) (uuidText a.attemptId) (w.stageOf j)) :
    pd_finalize p.builtins w clock j.jobId token (some uri) (some (p.sha256Hex text)) aid =
      match publishResults p.builtins w j a.attemptId (stored p.numberText m) aid with
      | .error e => .error e
      | .ok none => .ok (pqResult w.queue .invalidOutput (some j) false, w)
      | .ok (some w') => (finishProcess w'.queue clock j a.attemptId uri (p.sha256Hex text)).map
          fun (r, db) => (r, w'.setQueue db) := by
  have hkey : j.key = (w.env, j.jobId) := (Table.find_eq_some.1 h.job).2
  have henv : j.env = w.env := congrArg Prod.fst hkey
  have hstage : w.stageOf j = stageText j.stage := by rw [Store.stageOf, hgraph]; rfl
  rw [pd_finalize_eq h hgraph, finishOwned,
    receipt_of_checked hp hrep hread (hstage ▸ hm) (henv.symm ▸ h.logged) h.file h.length]
  dsimp only
  rw [h.closed]
  rfl

/-- The text of a manifest that is taken holds a checked value. -/
theorem validate_spec {finite : Number → Bool} {bytes : ByteArray}
    (hvalid : validate finite sha256Hex (some bytes) job attempt stage = .ok r)
    (hr : r.outcome = .succeeded) :
    ∃ m, fromStr finite r.text = some m ∧ Checked m job attempt stage ∧
      r.sha256 = sha256Hex r.text := by
  unfold validate at hvalid
  dsimp only at hvalid
  split at hvalid
  · cases hvalid
  split at hvalid
  · cases hvalid
  split at hvalid
  · cases hvalid
  split at hvalid
  · cases hvalid
  next text htext m hm =>
  obtain ⟨hchecked, rfl, hsha⟩ := validateValue_spec hvalid hr
  exact ⟨m, hm, hchecked, hsha⟩

/-- The database finds valid what the daemon has validated, where jsonb can hold the text. -/
theorem validated_is_accepted (hp : Faithful p) (h : Finishing p w clock token j a r.text uri)
    {bytes : ByteArray} (hvalid : validate finite p.sha256Hex (some bytes) (uuidText j.jobId)
      (uuidText a.attemptId) (w.stageOf j) = .ok r)
    (hout : r.outcome = .succeeded) (hrep : p.representable r.text = true) :
    ∃ m, fromStr finite r.text = some m ∧ Judged p w j a aid m
      (pd_finalize p.builtins w clock j.jobId token (some uri) (some r.sha256) aid) := by
  obtain ⟨m, hm, hchecked, hsha⟩ := validate_spec hvalid hout
  have haccepted := fun hgraph => pd_finalize_accepted aid hp h hgraph hrep hm hchecked
  rw [hsha]
  refine ⟨m, hm, fun hgraph => ?_, fun hgraph hnone hw => ?_, fun hgraph hsome hbad => ?_,
    fun hgraph hsome hw hs => ?_⟩
  · unfold pd_finalize
    simp only [h.job, hgraph, if_true]
  · rw [haccepted hgraph, hchecked.publishResults_eq, hnone]
    dsimp only
    rw [hw]
    exact finishes h rfl (hp.sha256 _)
  · obtain ⟨run, hrun⟩ := isSome_iff_exists.1 hsome
    rw [haccepted hgraph, hchecked.publishResults_eq, hrun]
    dsimp only
    rw [if_neg fun hgood => by simp [hgood.1, hgood.2] at hbad]
    exact ⟨_, rfl, rfl⟩
  · obtain ⟨run, hrun⟩ := isSome_iff_exists.1 hsome
    rw [haccepted hgraph, hchecked.publishResults_eq, hrun]
    dsimp only
    rw [if_pos ⟨hw, hs⟩]
    cases hpublish : pd_writer_publish p.builtins w j.jobId a.attemptId
        ((stored p.numberText m).member "results") aid with
    | error e => exact .inr ⟨e, rfl, rfl⟩
    | ok w' => exact .inl ⟨w', rfl, finishes h (pd_writer_publish_queue hpublish) (hp.sha256 _)⟩

/-! ## A sample -/

/-- The manifest of a full pipeline. -/
private def manifestJson (math_env : String) : Polis.Json ℕ :=
  .object [("schema", .string "polis-jobs.output-manifest/1"),
    ("job_id", .string "00000000-0000-0000-0000-000000000001"),
    ("attempt_id", .string "00000000-0000-0000-0000-000000000002"),
    ("stage", .string "delphi_full_pipeline"), ("phase", .string "run"),
    ("outcome", .string "succeeded"),
    ("inputs", .object [("math_env", .string math_env), ("math_tick", .number 7),
      ("math_caching_tick", .number 7), ("comment_set_sha256", .null), ("vote_hwm", .number 12)]),
    ("outputs", .array [.object [("store", .string "dynamodb"), ("family", .string "Delphi_UMAPGraph"),
      ("table", .string "Delphi_UMAPGraph"), ("rows", .number 3),
      ("key_prefix", .object [("conversation_id", .string "1")])]]),
    ("models", .object [("embed", .null), ("topic", .null), ("narrative", .null)]),
    ("cost", .object [("llm_tokens_in", .number 0), ("llm_tokens_out", .number 0),
      ("provider_batches", .array [])]),
    ("recheck_after", .null), ("duration_ms", .number 1200)]

private def manifestChars (math_env : String) : List Char :=
  (manifestJson math_env).text (Nat.toDigits 10)

private def manifestText (math_env : String) : String := .ofList (manifestChars math_env)

private def sampleServer : Server where
  sha256Hex t :=
    if t = manifestText "prod" then "9b7b6c7bbf8ef19d1a32ee9e1d0983516f74e98d4b526f13f0e27d14a08eb559"
    else if t = manifestText (String.singleton (Char.ofNat 0)) then
      "a6d8f681dca22949f89218870827121311f72f7026436790993920eb04f5157b"
    else "0000000000000000000000000000000000000000000000000000000000000000"
  numeric n := match numberU64 n with
    | some k => .ok (toString k)
    | none => .error (.other "value overflows numeric format")
  malformed _ := .invalidText
  jsonText _ := ""

private theorem sampleServer_faithful : Faithful sampleServer where
  sha256 t := by
    unfold sampleServer
    dsimp only
    split
    · decide
    · split
      · decide
      · decide
  numeric n k h := by
    unfold sampleServer
    dsimp only
    rw [h]

private def sampleJob : JobRow where
  env := "prod"
  jobId := 1
  runId := 3
  stage := .fullPipeline
  workerClass := .delphi
  state := .running
  priority := 1
  eligibleAt := 0
  createdAt := 0
  updatedAt := 0
  attemptCount := 1
  maxAttempts := 3
  leaseEpoch := 1
  ownerId := some 4
  attemptId := some 2
  lockedUntil := some 60

private def sampleAttempt : AttemptRow where
  env := "prod"
  attemptId := 2
  jobId := 1
  ownerId := 4
  leaseEpoch := 1
  startedAt := 0
  outcome := .running
  processExitConfirmedAt := some 5

private def sampleLog (text : String) : LogRow := ⟨"prod", 2, 1, .manifest, text⟩

/-- The job is running, its process has exited and its manifest is in the log. -/
private def sampleStore (text : String) (hsize : text.utf8ByteSize ≤ 1048576) (runs : List WriterRun) :
    Store where
  env := "prod"
  queue := {
    conversations := [1]
    jobs := ⟨[sampleJob], by decide, by decide, by decide⟩
    attempts := ⟨[sampleAttempt], by decide, by decide, by decide⟩
    logs := ⟨[sampleLog text], by simp, by simp [Row.unique], by simp [Row.check, sampleLog, hsize]⟩ }
  graphStages _ := none
  graphs := []
  nodes := []
  edges := []
  reports := []
  batches := []
  families := []
  rows := []
  artifacts := []
  writerRuns := runs
  served := []

private def sampleRuns : List WriterRun := [⟨1, 1, "s", 0, none⟩]

private def sampleToken : Queue.Token := ⟨some 4, some 2, some 1⟩

private def sampleClock : Clock := ⟨10, fun _ => 10⟩

private theorem sampleStore_finishing {hsize : text.utf8ByteSize ≤ 1048576} {runs : List WriterRun} :
    Finishing sampleServer (sampleStore text hsize runs) sampleClock sampleToken sampleJob
      sampleAttempt text "file:///tmp/manifest.json" where
  job := rfl
  owns := by decide
  attempt := rfl
  exited := rfl
  closed := rfl
  logged := {
    row := ⟨sampleLog text, mem_singleton.2 rfl, rfl, rfl, rfl, rfl⟩
    digest l hl _ _ _ _ := by rw [mem_singleton.1 hl]; rfl }
  file := by decide +kernel
  length := by decide

private theorem toUTF8_ofList (l : List Char) :
    (String.ofList l).toUTF8 = (l.flatMap String.utf8EncodeChar).toByteArray := rfl

private theorem fromUTF8?_toUTF8 (s : String) : String.fromUTF8? s.toUTF8 = some s := by
  rw [String.fromUTF8?, String.toUTF8_eq_toByteArray, dif_pos s.isValidUTF8]
  rfl

/-- The daemon takes a sample with this tree. -/
private def daemonTakes (text : String) (t : Tree) : Bool :=
  t.depth ≤ 127 && (read serdeString (serdeNumber fun _ => true) t).toOption.any fun m =>
    isWriter m = false && (validateValue sampleServer.sha256Hex text m (uuidText 1) (uuidText 2)
      "delphi_full_pipeline").toOption.any (·.outcome = .succeeded)

/-- The daemon takes a sample, and its tree has a property. -/
private def taken (l : List Char) (q : Tree → Bool) : Bool :=
  let bytes := l.flatMap String.utf8EncodeChar
  bytes.length ≤ 1048576 && !bytes.contains 0 &&
    (parse l).any fun t => daemonTakes (.ofList l) t && q t

private theorem any_toOption {ε α : Type} {x : Except ε α} {q : α → Bool}
    (h : x.toOption.any q = true) : ∃ a, x = .ok a ∧ q a = true := by
  cases x with
  | error e => cases h
  | ok a => exact ⟨a, rfl, h⟩

private structure Taken (text : String) (q : Tree → Bool) (r : Manifest) : Prop where
  size : text.utf8ByteSize ≤ 1048576
  valid : validate (fun _ => true) sampleServer.sha256Hex (some text.toUTF8) (uuidText 1)
    (uuidText 2) "delphi_full_pipeline" = .ok r
  outcome : r.outcome = .succeeded
  same : r.text = text
  tree : ∃ t, parse text.toList = some t ∧ q t = true
  schema : ∃ m, fromStr (fun _ => true) text = some m ∧ isWriter m = false

private theorem taken_spec {l : List Char} {q : Tree → Bool} (h : taken l q = true) :
    ∃ r, Taken (.ofList l) q r := by
  unfold taken at h
  simp only [Bool.and_eq_true, decide_eq_true_eq, Bool.not_eq_true', Option.any_eq_true] at h
  obtain ⟨⟨hsize, hnul⟩, t, ht, htakes, hq⟩ := h
  simp only [daemonTakes, Bool.and_eq_true, decide_eq_true_eq] at htakes
  obtain ⟨hdepth, hm⟩ := htakes
  obtain ⟨m, hread, hm⟩ := any_toOption hm
  simp only [Bool.and_eq_true, decide_eq_true_eq] at hm
  obtain ⟨r, hr, hout⟩ := any_toOption hm.2
  have hout := of_decide_eq_true hout
  have hfrom : fromStr (fun _ => true) (.ofList l) = some m := by
    unfold fromStr
    rw [String.toList_ofList, ht]
    dsimp only
    rw [if_neg (by omega), hread]
    rfl
  have hbytes : (String.ofList l).toUTF8.size ≤ maxBytes := by
    rwa [toUTF8_ofList, size_toByteArray]
  have hzero : (String.ofList l).toUTF8.data.contains 0 = false := by
    rw [toUTF8_ofList, data_toByteArray, contains_toArray]
    exact hnul
  refine ⟨r, hbytes, ?_, hout, (validateValue_spec hr hout).2.1, ⟨t, by rw [String.toList_ofList, ht],
    hq⟩, m, hfrom, hm.1⟩
  unfold validate
  dsimp only
  rw [if_neg (Nat.not_lt.2 hbytes), if_neg (by rw [hzero]; decide), fromUTF8?_toUTF8]
  dsimp only
  rw [hfrom]
  exact hr

private theorem Taken.representable
    (h : Taken text (·.all (fun s => !escapesNul s) sampleServer.holds) r) :
    sampleServer.representable r.text = true := by
  obtain ⟨t, ht, hq⟩ := h.tree
  unfold Server.representable
  rw [h.same, ht]
  exact hq

/-- What the sample server raises when it reads a tree. -/
private def raisedBy (t : Tree) : Option String :=
  match read jsonbString sampleServer.numeric t with
  | .error (.other message) => some message
  | _ => none

private theorem taken_samples :
    taken (manifestChars "prod") (·.all (fun s => !escapesNul s) sampleServer.holds) = true ∧
      taken (manifestChars (.singleton (Char.ofNat 0)))
        (raisedBy · = some "unsupported Unicode escape sequence") = true := by
  simp (disch := exact rfl) only [manifestChars, manifestJson, Polis.Json.text, Polis.Json.textItems,
    Polis.Json.textMembers, Polis.Json.joinComma, Polis.Json.quote, flatMap_cons, flatMap_nil,
    Utf8.toList_of_eq]
  exact ⟨by decide +kernel, by decide +kernel⟩

/-- The sample without a writer run is accepted, and its job succeeds. -/
theorem validated_is_accepted_prod : ∃ (r : Manifest) (hsize : r.text.utf8ByteSize ≤ 1048576),
    Succeeds (pd_finalize sampleServer.builtins (sampleStore r.text hsize []) sampleClock 1 sampleToken
      (some "file:///tmp/manifest.json") (some r.sha256) 9) := by
  obtain ⟨r, h⟩ := taken_spec taken_samples.1
  have hsize : r.text.utf8ByteSize ≤ 1048576 := h.same ▸ h.size
  have hfin : Finishing sampleServer (sampleStore r.text hsize []) sampleClock sampleToken sampleJob
      sampleAttempt r.text "file:///tmp/manifest.json" := sampleStore_finishing
  obtain ⟨m, hm, hjudged⟩ : ∃ m, fromStr (fun _ => true) r.text = some m ∧
      Judged sampleServer (sampleStore r.text hsize []) sampleJob sampleAttempt 9 m _ :=
    validated_is_accepted sampleServer_faithful hfin h.valid h.outcome h.representable
  obtain ⟨m', hm', hw⟩ := h.schema
  rw [h.same, hm'] at hm
  cases hm
  exact ⟨r, hsize, hjudged.plain rfl rfl hw⟩

/-- The daemon takes a manifest for a job with these writer runs, and the call answers so. -/
private def Answered (runs : List WriterRun)
    (q : Store → Except DbError (Reply × Store) → Prop) : Prop :=
  ∃ (r : Manifest) (hsize : r.text.utf8ByteSize ≤ 1048576),
    validate (fun _ => true) sampleServer.sha256Hex (some r.text.toUTF8) (uuidText 1)
      (uuidText 2) "delphi_full_pipeline" = .ok r ∧ r.outcome = .succeeded ∧
    Finishing sampleServer (sampleStore r.text hsize runs) sampleClock sampleToken sampleJob
      sampleAttempt r.text "file:///tmp/manifest.json" ∧
    q (sampleStore r.text hsize runs)
      (pd_finalize sampleServer.builtins (sampleStore r.text hsize runs) sampleClock 1 sampleToken
        (some "file:///tmp/manifest.json") (some r.sha256) 9)

private theorem nul_raises :
    Answered [] fun _ x => x = .error (.raised "unsupported Unicode escape sequence") := by
  obtain ⟨r, h⟩ := taken_spec taken_samples.2
  obtain ⟨t, ht, hq⟩ := h.tree
  have hsize : r.text.utf8ByteSize ≤ 1048576 := h.same ▸ h.size
  have hfin : Finishing sampleServer (sampleStore r.text hsize []) sampleClock sampleToken sampleJob
      sampleAttempt r.text "file:///tmp/manifest.json" := sampleStore_finishing
  have hvalid := h.valid
  rw [← h.same] at hvalid
  refine ⟨r, hsize, hvalid, h.outcome, hfin, ?_⟩
  have hraised : sampleServer.jsonb r.text = .error (.other "unsupported Unicode escape sequence") := by
    unfold Server.jsonb
    rw [h.same, ht]
    dsimp only
    unfold raisedBy at hq
    split at hq
    · next message hread =>
        rw [hread, Option.some.inj (of_decide_eq_true hq)]
        rfl
    · cases of_decide_eq_true hq
  obtain ⟨_, _, _, hsha⟩ := validate_spec hvalid h.outcome
  have heq : pd_finalize sampleServer.builtins (sampleStore r.text hsize []) sampleClock 1 sampleToken
      (some "file:///tmp/manifest.json") (some (sampleServer.sha256Hex r.text)) 9 = _ :=
    pd_finalize_eq hfin rfl
  rw [hsha, heq, finishOwned,
    receipt_raises sampleServer_faithful hraised hfin.logged hfin.file hfin.length]

private theorem writer_refused : Answered sampleRuns Refuses := by
  obtain ⟨r, h⟩ := taken_spec taken_samples.1
  have hsize : r.text.utf8ByteSize ≤ 1048576 := h.same ▸ h.size
  have hfin : Finishing sampleServer (sampleStore r.text hsize sampleRuns) sampleClock sampleToken
      sampleJob sampleAttempt r.text "file:///tmp/manifest.json" := sampleStore_finishing
  have hvalid := h.valid
  rw [← h.same] at hvalid
  refine ⟨r, hsize, hvalid, h.outcome, hfin, ?_⟩
  obtain ⟨m, hm, hchecked, hsha⟩ := validate_spec hvalid h.outcome
  obtain ⟨m', hm', hw⟩ := h.schema
  have hmm : m = m' := by
    rw [h.same, hm'] at hm
    exact (Option.some.inj hm).symm
  have heq : pd_finalize sampleServer.builtins (sampleStore r.text hsize sampleRuns) sampleClock 1
      sampleToken (some "file:///tmp/manifest.json") (some (sampleServer.sha256Hex r.text)) 9 = _ :=
    pd_finalize_accepted 9 sampleServer_faithful hfin rfl h.representable hm hchecked
  rw [hsha, heq, hchecked.publishResults_eq, hmm, hw]
  exact ⟨_, rfl, rfl⟩

/-- The database raises on the sample that escapes U+0000 and refuses the other for a writer run. -/
theorem validated_not_accepted :
    Answered [] (fun _ x => x = .error (.raised "unsupported Unicode escape sequence")) ∧
      Answered sampleRuns Refuses :=
  ⟨nul_raises, writer_refused⟩

end Polis.Delphi.Writers
