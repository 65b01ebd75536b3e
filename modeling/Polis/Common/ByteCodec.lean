import Polis.Common.Table
import Mathlib.Tactic.Ring

/-!
# Byte codecs

Numbers of a fixed width in bytes, and readers that take a value off the front of a list of bytes or
fail with a message. A reader that succeeds on exactly the encodings of the values it may return is the
inverse of its encoder, and reading one thing after another keeps that.
-/

namespace Polis.ByteCodec

open List

/-! ## Numbers -/

/-- The `w` lowest bytes of a number, least significant first. -/
def little : ℕ → ℕ → List UInt8
  | 0, _ => []
  | w + 1, n => UInt8.ofNat n :: little w (n / 256)

/-- The number of which these are the bytes, least significant first. -/
def ofLittle : List UInt8 → ℕ
  | [] => 0
  | b :: bytes => b.toNat + 256 * ofLittle bytes

/-- The number of which these are the bytes, most significant first. -/
def ofBig (bytes : List UInt8) : ℕ := ofLittle bytes.reverse

@[simp] theorem length_little (w n : ℕ) : (little w n).length = w := by
  induction w generalizing n with
  | zero => rfl
  | succ w ih => simp [little, ih]

theorem little_ofLittle (bytes : List UInt8) : little bytes.length (ofLittle bytes) = bytes := by
  induction bytes with
  | nil => rfl
  | cons b bytes ih =>
    have hb := b.toNat_lt
    have hdiv : (b.toNat + 256 * ofLittle bytes) / 256 = ofLittle bytes := by omega
    have hlow : UInt8.ofNat (b.toNat + 256 * ofLittle bytes) = b := by
      apply UInt8.toNat_inj.mp
      rw [UInt8.toNat_ofNat']
      omega
    rw [length_cons, ofLittle, little, hdiv, hlow, ih]

/-- The numbers below `256 ^ w` and their bytes correspond. -/
structure Numerals (w : ℕ) (write : ℕ → List UInt8) (read : List UInt8 → ℕ) : Prop where
  length : ∀ n, (write n).length = w
  read_write : ∀ n < 256 ^ w, read (write n) = n
  write_read : ∀ bytes, bytes.length = w → write (read bytes) = bytes
  bound : ∀ bytes, bytes.length = w → read bytes < 256 ^ w

/-- What a reader returns goes with the bytes after it. -/
abbrev Reader := StateT (List UInt8) (Except String)

/-- `ensure!` -/
def ensure (p : Prop) [Decidable p] (message : String) : Except String Unit :=
  if p then .ok () else .error message

/-- The next `n` bytes. -/
def take (short : String) (n : ℕ) : Reader (List UInt8) := fun bytes =>
  if n ≤ bytes.length then .ok (bytes.take n, bytes.drop n) else .error short

/-- `n` values one after another. -/
def times {α : Type} (read : Reader α) : ℕ → Reader (List α)
  | 0 => pure []
  | n + 1 => do
    let a ← read
    let rest ← times read n
    pure (a :: rest)

/-- The reader succeeds on the encodings of the values it may return, and on nothing else. -/
def Inverts {α : Type} (read : Reader α) (valid : α → Prop) (encode : α → List UInt8) : Prop :=
  ∀ bytes a rest, read bytes = .ok (a, rest) ↔ valid a ∧ bytes = encode a ++ rest

variable {α β : Type} {bytes rest : List UInt8} {message : String}

@[simp] theorem ensure_eq_ok {p : Prop} [Decidable p] {u : Unit} :
    ensure p message = .ok u ↔ p := by
  unfold ensure
  split <;> simp_all

theorem read_bind_eq_ok {x : Reader α} {f : α → Reader β} {r : β × List UInt8} :
    (x >>= f) bytes = .ok r ↔ ∃ a rest, x bytes = .ok (a, rest) ∧ f a rest = .ok r := by
  constructor
  · intro h
    obtain ⟨⟨a, rest⟩, hx, hf⟩ := bind_eq_ok.mp h
    exact ⟨a, rest, hx, hf⟩
  · rintro ⟨a, rest, hx, hf⟩
    exact bind_eq_ok.mpr ⟨(a, rest), hx, hf⟩

theorem read_pure_eq_ok {a : α} {r : α × List UInt8} :
    (pure a : Reader α) bytes = .ok r ↔ r = (a, bytes) := by
  constructor
  · intro h
    exact (Except.ok.inj h).symm
  · rintro rfl
    rfl

theorem read_lift_eq_ok {x : Except String α} {r : α × List UInt8} :
    (liftM x : Reader α) bytes = .ok r ↔ x = .ok r.1 ∧ r.2 = bytes := by
  obtain ⟨a, rest⟩ := r
  constructor
  · intro h
    obtain ⟨b, hx, hr⟩ := bind_eq_ok.mp h
    cases hr
    exact ⟨hx, rfl⟩
  · rintro ⟨hx, hrest⟩
    cases hrest
    exact bind_eq_ok.mpr ⟨a, hx, rfl⟩

theorem take_eq_ok {n : ℕ} {r : List UInt8 × List UInt8} :
    take message n bytes = .ok r ↔ r.1.length = n ∧ bytes = r.1 ++ r.2 := by
  obtain ⟨a, rest⟩ := r
  unfold take
  constructor
  · intro h
    split at h
    · cases h
      exact ⟨by simpa, (take_append_drop n bytes).symm⟩
    · cases h
  · rintro ⟨rfl, rfl⟩
    simp

/-! ## Readers go on -/

/-! ## Readers of encodings -/

namespace Inverts

variable {read : Reader α} {valid : α → Prop} {encode : α → List UInt8}

/-- A number of a fixed width, as a value of a type with as many. -/
theorem number {w : ℕ} {write : ℕ → List UInt8} {digits : List UInt8 → ℕ}
    (h : Numerals w write digits) (of : ℕ → α) (back : α → ℕ) (hlt : ∀ a, back a < 256 ^ w)
    (hof : ∀ a, of (back a) = a) (hto : ∀ n < 256 ^ w, back (of n) = n) (short : String) :
    Inverts (do let b ← take short w; pure (of (digits b))) (fun _ => True) fun a => write (back a) := by
  intro bytes a rest
  simp only [read_bind_eq_ok, read_pure_eq_ok, take_eq_ok, true_and]
  constructor
  · rintro ⟨b, rest', ⟨hlen, rfl⟩, ha⟩
    obtain ⟨rfl, rfl⟩ := Prod.mk.inj ha
    rw [hto _ (h.bound b hlen), h.write_read b hlen]
  · rintro rfl
    refine ⟨_, rest, ⟨h.length _, rfl⟩, ?_⟩
    rw [h.read_write _ (hlt a), hof]

/-- A value of another type that corresponds to the one read. -/
theorem map (h : Inverts read valid encode) (of : α → β) (back : β → α) (hof : ∀ b, of (back b) = b)
    (hto : ∀ a, back (of a) = a) :
    Inverts (do let a ← read; pure (of a)) (fun b => valid (back b)) fun b => encode (back b) := by
  intro bytes b rest
  simp only [read_bind_eq_ok, read_pure_eq_ok, h _ _ _]
  constructor
  · rintro ⟨a, rest', ⟨ha, rfl⟩, hb⟩
    obtain ⟨rfl, rfl⟩ := Prod.mk.inj hb
    exact ⟨by rwa [hto], by rw [hto]⟩
  · rintro ⟨hb, rfl⟩
    exact ⟨back b, rest, ⟨hb, rfl⟩, by rw [hof]⟩

/-- Only the values that pass a check. -/
theorem filter (h : Inverts read valid encode) {p : α → Prop} [DecidablePred p] (message : String) :
    Inverts (do let a ← read; liftM (ensure (p a) message); pure a) (fun a => valid a ∧ p a)
      encode := by
  intro bytes a rest
  simp only [read_bind_eq_ok, read_pure_eq_ok, read_lift_eq_ok, ensure_eq_ok, h _ _ _]
  constructor
  · rintro ⟨a', rest', ⟨hvalid, rfl⟩, _, _, ⟨hp, rfl⟩, ha⟩
    obtain ⟨rfl, rfl⟩ := Prod.mk.inj ha
    exact ⟨⟨hvalid, hp⟩, rfl⟩
  · rintro ⟨⟨hvalid, hp⟩, rfl⟩
    exact ⟨a, rest, ⟨hvalid, rfl⟩, (), rest, ⟨hp, rfl⟩, rfl⟩

/-- One value after another. -/
theorem times (h : Inverts read valid encode) (n : ℕ) :
    Inverts (times read n) (fun as => as.length = n ∧ ∀ a ∈ as, valid a) (·.flatMap encode) := by
  induction n with
  | zero =>
    intro bytes as rest
    simp only [ByteCodec.times, read_pure_eq_ok, Prod.mk.injEq]
    constructor
    · rintro ⟨rfl, rfl⟩
      simp
    · rintro ⟨⟨hlen, -⟩, hbytes⟩
      cases eq_nil_of_length_eq_zero hlen
      exact ⟨rfl, hbytes.symm⟩
  | succ n ih =>
    intro bytes as rest
    simp only [ByteCodec.times, read_bind_eq_ok, read_pure_eq_ok, Prod.mk.injEq]
    constructor
    · rintro ⟨a, rest', ha, as', rest'', has, rfl, rfl⟩
      obtain ⟨hvalid, rfl⟩ := (h _ _ _).mp ha
      obtain ⟨⟨hlen, hall⟩, rfl⟩ := (ih _ _ _).mp has
      exact ⟨⟨by simp [hlen], by simpa [hvalid] using hall⟩, by simp⟩
    · rintro ⟨⟨hlen, hall⟩, rfl⟩
      cases as with
      | nil => simp at hlen
      | cons a as' =>
        have ha := (h (encode a ++ (as'.flatMap encode ++ rest)) a _).mpr ⟨hall a (by simp), rfl⟩
        have has := (ih (as'.flatMap encode ++ rest) as' rest).mpr
          ⟨⟨by simpa using hlen, fun b hb => hall b (by simp [hb])⟩, rfl⟩
        exact ⟨a, _, by simpa using ha, as', rest, has, rfl, rfl⟩

end Inverts

/-! ## Writers -/

end Polis.ByteCodec
