import Polis.Common.Sql

/-!
# The published bundle of a conversation

A publication is four rows under one label: the generation counter, the main payload, the map from base
clusters to participants and the statistics of the participants. `VALID_BUNDLE_SQL` is the one rule for what
a bundle must hold; the fingerprint says which bundle it is.

Reference: `delphi/polismath/poller/backfill.py` (`VALID_BUNDLE_SQL`, `structurally_coherent`),
`delphi/polismath/database/postgres.py` (`Fingerprint`, `staged_newer`),
`server/postgres/migrations/000000_initial.sql`.
-/

namespace Polis.Poller

open Sql

/-! ## Rows -/

/-- `math_ticks` -/
structure TicksRow where
  mathTick : ℤ
  modified : ℤ
deriving DecidableEq, Repr

/-- `math_bidtopid` and `math_ptptstats` -/
structure CompanionRow where
  mathTick : ℤ
  data : Jsonb
  modified : Option ℤ

/-- `math_main` -/
structure MainRow where
  lastVoteTimestamp : ℤ
  mathTick : ℤ
  data : Jsonb
  cachingTick : ℤ
  modified : Option ℤ

/-- The rows of one conversation under one label, as the joins find them: `m`, `b`, `p` and `k`. -/
structure Bundle where
  m : Option MainRow
  b : Option CompanionRow
  p : Option CompanionRow
  k : Option TicksRow

/-! ## Fingerprints -/

/-- `Fingerprint` -/
structure Fingerprint where
  mathTick : ℤ
  lvt : ℤ
  modified : ℤ
  complete : Bool
deriving DecidableEq, Repr

/-- `Fingerprint.key` -/
def Fingerprint.key (f : Fingerprint) : ℤ × ℤ × ℤ := (f.mathTick, f.lvt, f.modified)

/-- `fingerprint_key` -/
def fingerprint_key (f : Option Fingerprint) : Option (ℤ × ℤ × ℤ) := f.map Fingerprint.key

/-- `staged_newer` -/
def staged_newer (staged : Fingerprint) (target : Option Fingerprint) : Bool :=
  match target with
  | none => true
  | some t => t.lvt < staged.lvt || (staged.lvt = t.lvt && t.modified < staged.modified)

namespace Bundle

variable (x : Bundle)

/-- The column `complete`: all four rows at one initialized tick. -/
def complete : Bool :=
  match x.m, x.b, x.p, x.k with
  | some m, some b, some p, some k =>
    0 ≤ m.mathTick && b.mathTick = m.mathTick && p.mathTick = m.mathTick && k.mathTick = m.mathTick
  | _, _, _, _ => false

/-- `_fingerprint_row`, where there is a main row. -/
def fingerprint : Option Fingerprint :=
  x.m.map fun m => ⟨m.mathTick, m.lastVoteTimestamp, m.modified.getD 0, x.complete⟩

/-- What `FINGERPRINT_SQL` reads of the main row. -/
def mark : Option (ℤ × ℤ) := x.m.map fun m => (m.mathTick, m.lastVoteTimestamp)

/-- `PROMOTED_POSTCONDITION_SQL` gives the tick four times. -/
def atTick (tick : ℤ) : Bool :=
  x.m.map (·.mathTick) = some tick && x.b.map (·.mathTick) = some tick &&
    x.p.map (·.mathTick) = some tick && x.k.map (·.mathTick) = some tick

/-- All four rows are there at one tick, or none is. -/
def OneTick : Prop := (x.m = none ∧ x.b = none ∧ x.p = none ∧ x.k = none) ∨ ∃ tick, x.atTick tick = true

end Bundle

/-! ## Parts of the rule -/

section Parts

variable (numericIn : String → Option ℚ)

/-- `jsonb_typeof(v) = t` -/
def isType (v : Option Jsonb) (t : String) : Cond := eq3 (jsonb_typeof v) (some t)

/-- `jsonb_typeof(v) <> t` -/
def notType (v : Option Jsonb) (t : String) : Cond := ne3 (jsonb_typeof v) (some t)

/-- `jsonb_typeof(v) IS DISTINCT FROM t` -/
def otherType (v : Option Jsonb) (t : String) : Cond := isDistinctFrom (jsonb_typeof v) (some t)

/-- The elements of `CASE WHEN jsonb_typeof(v) = 'array' THEN v ELSE '[]' END`. -/
def elements (v : Option Jsonb) : Except Fault (List Jsonb) :=
  (caseWhen (isType v "array") (.ok v) (.ok (some (.array [])))).bind jsonb_array_elements

/-- The values of `CASE WHEN jsonb_typeof(v) = 'object' THEN v ELSE '{}' END`. -/
def memberValues (v : Option Jsonb) : Except Fault (List Jsonb) :=
  (caseWhen (isType v "object") (.ok v) (.ok (some (.object [])))).bind jsonb_each

/-- `CASE WHEN jsonb_typeof(v) = 'number' THEN (v)::numeric = n ELSE false END` -/
def numberIs (v : Option Jsonb) (n : Option ℤ) : Cond :=
  caseWhen (isType v "number") ((numeric numericIn v).bind fun q => eq3 q (n.map (↑)))
    (.ok (some false))

/-- No element is anything but a number. -/
def numbers (v : Option Jsonb) : Cond := notExists (elements v) fun x => notType (some x) "number"

/-- Every element is a list of numbers. -/
def numberRows (v : Option Jsonb) : Cond :=
  notExists (elements v) fun c =>
    or3 (notType (some c) "array") (exists3 (elements (some c)) fun x => notType (some x) "number")

/-- The length of an array, and NULL for anything else. -/
def lengthOf (v : Option Jsonb) : Value ℕ :=
  caseWhen (isType v "array") (jsonb_array_length v) (.ok none)

/-- An empty object, or columns of one length with `pid` and `gid` among them. -/
def statsColumns (stats : Option Jsonb) : Cond :=
  caseWhen (isType stats "object")
    (or3 (isEmptyObject stats)
      (all3 [isType (arrow stats "pid") "array", isType (arrow stats "gid") "array",
        notExists (memberValues stats) fun e =>
          (lengthOf (some e)).bind fun n => (lengthOf (arrow stats "pid")).bind fun k =>
            isDistinctFrom n k]))
    (.ok (some false))

/-- An entry of `group-clusters` that has no number as its id or no numbers as its members. -/
def badGroupCluster (g : Jsonb) : Cond :=
  or3 (notType (some g) "object") (or3 (otherType (arrow (some g) "id") "number")
    (or3 (otherType (arrow (some g) "members") "array")
      (exists3 (elements (arrow (some g) "members")) fun x => notType (some x) "number")))

/-- A comment of `group-votes` without its three counts. -/
def badVotes (v : Jsonb) : Cond :=
  or3 (otherType (some v) "object") (or3 (otherType (arrow (some v) "A") "number")
    (or3 (otherType (arrow (some v) "D") "number") (otherType (arrow (some v) "S") "number")))

/-- A group of `group-votes` without its number of members or with a comment without counts. -/
def badGroupVotes (g : Jsonb) : Cond :=
  or3 (otherType (some g) "object") (or3 (otherType (arrow (some g) "n-members") "number")
    (or3 (otherType (arrow (some g) "votes") "object")
      (exists3 (memberValues (arrow (some g) "votes")) badVotes)))

/-- A group of `repness` that is no list of objects. -/
def badRepness (r : Jsonb) : Cond :=
  or3 (otherType (some r) "array") (exists3 (elements (some r)) fun x => otherType (some x) "object")

/-- `a <= b` -/
def le3 (a b : Option ℚ) : Cond := .ok (a.bind fun x => b.map fun y => x ≤ y)

/-- `a < b` -/
def lt3 (a b : Option ℚ) : Cond := .ok (a.bind fun x => b.map fun y => x < y)

/-- The length of an array as a number. -/
def count (v : Option Jsonb) : Value ℚ := (jsonb_array_length v).map (·.map (↑))

/-- The counts agree, and a conversation without participants is empty. -/
def counts (md bd pd : Option Jsonb) (lvt : Option ℤ) : Cond :=
  let n := arrow md "n"
  let ids := arrow (arrow md "base-clusters") "id"
  let members := arrow (arrow md "base-clusters") "members"
  let inConv := arrow md "in-conv"
  caseWhen
    (all3 [isType n "number", isType (arrow md "base-clusters") "object", isType ids "array",
      isType members "array", isType (arrow md "group-clusters") "array", isType inConv "array",
      isType (arrow bd "bidToPid") "array"])
    (all3 [(numeric numericIn n).bind fun q => le3 (some 0) q,
      (jsonb_array_length members).bind fun a => (jsonb_array_length ids).bind fun b => eq3 a b,
      (jsonb_array_length (arrow bd "bidToPid")).bind fun a =>
        (jsonb_array_length ids).bind fun b => eq3 a b,
      (count inConv).bind fun a => (numeric numericIn n).bind fun q => le3 a q,
      or3 ((numeric numericIn n).bind fun q => lt3 (some 0) q)
        (all3 [(jsonb_array_length ids).bind fun a => eq3 a (some 0),
          (jsonb_array_length (arrow md "group-clusters")).bind fun a => eq3 a (some 0),
          (jsonb_array_length inConv).bind fun a => eq3 a (some 0), eq3 lvt (some 0),
          isEmptyObject (arrow pd "ptptstats")])])
    (.ok (some false))

end Parts

/-! ## The rule -/

section Rule

variable (numericIn : String → Option ℚ) (zid : ℤ) (x : Bundle)

/-- The WHERE of the rule: all four rows at one initialized tick. -/
def bundleRow : Cond :=
  let tick := x.m.map (·.mathTick)
  all3 [isNotNull x.m, isNotNull x.b, isNotNull x.p, isNotNull x.k,
    .ok (tick.map fun t => 0 ≤ t), eq3 (x.b.map (·.mathTick)) tick, eq3 (x.p.map (·.mathTick)) tick,
    eq3 (x.k.map (·.mathTick)) tick, isNotNull (x.m.map (·.lastVoteTimestamp))]

/-- The SELECT of the rule: what the payloads hold. -/
def bundlePayload : Cond :=
  let md := x.m.map (·.data)
  let bd := x.b.map (·.data)
  let pd := x.p.map (·.data)
  let lvt := x.m.map (·.lastVoteTimestamp)
  all3 [isType md "object",
    numberIs numericIn (arrow md "zid") (x.m.map fun _ => zid),
    numberIs numericIn (arrow md "lastVoteTimestamp") lvt,
    isType (arrow md "tids") "array",
    isType (arrow md "pca") "object",
    isType (arrow md "repness") "object",
    isType bd "object",
    numberIs numericIn (arrow bd "zid") (x.b.map fun _ => zid),
    numberIs numericIn (arrow bd "lastVoteTimestamp") lvt,
    isType pd "object",
    numberIs numericIn (arrow pd "zid") (x.p.map fun _ => zid),
    numberIs numericIn (arrow pd "lastVoteTimestamp") lvt,
    statsColumns (arrow pd "ptptstats"),
    isType (arrow (arrow md "pca") "center") "array",
    isType (arrow (arrow md "pca") "comps") "array",
    numbers (arrow (arrow md "pca") "center"),
    numberRows (arrow (arrow md "pca") "comps"),
    notExists (elements (arrow md "group-clusters")) badGroupCluster,
    isType (arrow md "group-votes") "object",
    notExists (memberValues (arrow md "group-votes")) badGroupVotes,
    notExists (memberValues (arrow md "repness")) badRepness,
    numbers (arrow (arrow md "base-clusters") "id"),
    numberRows (arrow (arrow md "base-clusters") "members"),
    numberRows (arrow bd "bidToPid"),
    counts numericIn md bd pd lvt]

/-- `VALID_BUNDLE_SQL`: the payloads of rows that the WHERE takes, and false without a row. -/
def VALID_BUNDLE_SQL : Cond :=
  coalesce (caseWhen (bundleRow x) (bundlePayload numericIn zid x) (.ok none)) false

end Rule

end Polis.Poller
