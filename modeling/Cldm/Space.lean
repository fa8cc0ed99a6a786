/-
An address space with permissions.

A `Space` holds the byte at each address, and which addresses a program may read
and which it may write.  Any other access faults, so a run that returns in a space
has read and written no byte but those it was allowed to.

* `load`, `store` — accesses of several bytes next to each other;
* `Space.write` — the space after a store; writing on where a prefix of the bytes
  `v` ends gives a longer prefix (`write_prefix`);
* `StringIn s p n` — a string of `n` bytes and its terminator lie at `p`;
* `within` — a run that may read some of the addresses only;
* `OnPages` — what may be read when whole pages may.
-/
import Cldm.FuelLoop
import Mathlib.Data.Nat.Bitwise

/-- The bytes of an address space, and what may be read and written. -/
structure Space where
  bytes : ℕ → UInt8
  readable : ℕ → Bool
  writable : ℕ → Bool

namespace Space

open Prog

/-- Bytes next to each other, by their offsets. -/
abbrev Lanes := ℕ → UInt8

variable {s : Space} {p q n m k o : ℕ} {v w : Lanes}

/-- The `n` bytes from `p` on may be read. -/
def Readable (s : Space) (p n : ℕ) : Prop := ∀ i < n, s.readable (p + i) = true

/-- The `n` bytes from `p` on may be written. -/
def Writable (s : Space) (p n : ℕ) : Prop := ∀ i < n, s.writable (p + i) = true

instance (s : Space) (p n : ℕ) : Decidable (s.Readable p n) :=
  inferInstanceAs (Decidable (∀ i < n, s.readable (p + i) = true))

instance (s : Space) (p n : ℕ) : Decidable (s.Writable p n) :=
  inferInstanceAs (Decidable (∀ i < n, s.writable (p + i) = true))

theorem Readable.mono (h : s.Readable p n) (hq : p ≤ q) (hm : q + m ≤ p + n) : s.Readable q m := by
  intro i hi
  have hi' := h (q - p + i) (by omega)
  rwa [show p + (q - p + i) = q + i by omega] at hi'

theorem Writable.mono (h : s.Writable p n) (hq : p ≤ q) (hm : q + m ≤ p + n) : s.Writable q m := by
  intro i hi
  have hi' := h (q - p + i) (by omega)
  rwa [show p + (q - p + i) = q + i by omega] at hi'

/-- The `n` bytes from `p` on, and zeros after them. -/
def lanes (s : Space) (n p : ℕ) : Lanes := fun i => if i < n then s.bytes (p + i) else 0

theorem lanes_of_lt {i : ℕ} (h : i < n) : s.lanes n p i = s.bytes (p + i) := if_pos h

/-- The first `n` bytes of `v`, written from `p` on. -/
def write (s : Space) (n p : ℕ) (v : Lanes) : Space :=
  { s with bytes := fun a => if p ≤ a ∧ a < p + n then v (a - p) else s.bytes a }

@[simp] theorem readable_write : (s.write n p v).readable = s.readable := rfl

@[simp] theorem writable_write : (s.write n p v).writable = s.writable := rfl

@[simp] theorem Readable_write : (s.write n p v).Readable q m ↔ s.Readable q m := Iff.rfl

@[simp] theorem Writable_write : (s.write n p v).Writable q m ↔ s.Writable q m := Iff.rfl

theorem write_at {i : ℕ} (h : i < n) : (s.write n p v).bytes (p + i) = v i := by
  show (if p ≤ p + i ∧ p + i < p + n then v (p + i - p) else s.bytes (p + i)) = v i
  rw [if_pos ⟨by omega, by omega⟩, Nat.add_sub_cancel_left]

theorem write_outside {a : ℕ} (h : a < p ∨ p + n ≤ a) : (s.write n p v).bytes a = s.bytes a :=
  if_neg (by omega)

/-- A read beside what was written. -/
theorem lanes_write (h : q + m ≤ p ∨ p + n ≤ q) : (s.write n p v).lanes m q = s.lanes m q := by
  funext i
  by_cases hi : i < m
  · rw [lanes_of_lt hi, lanes_of_lt hi, write_outside (by omega)]
  · simp only [lanes, if_neg hi]

@[simp] theorem write_zero : s.write 0 p v = s := by
  simp only [write, Nat.add_zero, show ∀ a, ¬ (p ≤ a ∧ a < p) from fun a => by omega, if_false]

/-- After the first `k` bytes of `v`, some more that overlap them or follow at once. -/
theorem write_prefix (ho : o ≤ k) (hw : ∀ i < n, w i = v (o + i)) :
    (s.write k p v).write n (p + o) w = s.write (max k (o + n)) p v := by
  simp only [write, mk.injEq, and_true]
  funext a
  by_cases ha : p + o ≤ a ∧ a < p + o + n
  · rw [if_pos ha, if_pos ⟨by omega, by omega⟩, hw _ (by omega)]
    congr 1
    omega
  · rw [if_neg ha]
    by_cases hk : p ≤ a ∧ a < p + k
    · rw [if_pos hk, if_pos ⟨by omega, by omega⟩]
    · rw [if_neg hk, if_neg (by omega)]

/-- The first `k` bytes from `src` on, copied to `dst`. -/
def copied (s : Space) (dst src k : ℕ) : Space := s.write k dst fun i => s.bytes (src + i)

@[simp] theorem copied_zero {dst src : ℕ} : s.copied dst src 0 = s := write_zero

/-- The next bytes of a copy, read from the source. -/
theorem copied_write {dst src : ℕ} (ho : o ≤ k) (hk : k ≤ o + n)
    (hw : ∀ i < n, w i = s.bytes (src + o + i)) :
    (s.copied dst src k).write n (dst + o) w = s.copied dst src (o + n) := by
  rw [copied, write_prefix ho, Nat.max_eq_right hk]
  · rfl
  · intro i hi
    rw [hw i hi, Nat.add_assoc]

/-- The first `k` bytes from `dst` on set to `b`. -/
def filled (s : Space) (dst : ℕ) (b : UInt8) (k : ℕ) : Space := s.write k dst fun _ => b

@[simp] theorem filled_zero {dst : ℕ} {b : UInt8} : s.filled dst b 0 = s := write_zero

theorem filled_write {dst : ℕ} {b : UInt8} (ho : o ≤ k) (hk : k ≤ o + n) (hw : ∀ i < n, w i = b) :
    (s.filled dst b k).write n (dst + o) w = s.filled dst b (o + n) := by
  rw [filled, write_prefix ho hw, Nat.max_eq_right hk]
  rfl

/-- Read `n` bytes. -/
def load (n p : ℕ) : Prog Space Lanes := fun s =>
  if s.Readable p n then some (s.lanes n p, s) else none

/-- Write `n` bytes. -/
def store (n p : ℕ) (v : Lanes) : Prog Space Unit := fun s =>
  if s.Writable p n then some ((), s.write n p v) else none

theorem load_eq (h : s.Readable p n) : load n p s = some (s.lanes n p, s) := if_pos h

theorem wp_load (h : s.Readable p n) {Q : Lanes → Space → Prop} :
    wp (load n p) Q s ↔ Q (s.lanes n p) s := wp_of_some (if_pos h)

theorem wp_store (h : s.Writable p n) {Q : Unit → Space → Prop} :
    wp (store n p v) Q s ↔ Q () (s.write n p v) := wp_of_some (if_pos h)

theorem load_fails (h : ¬ s.Readable p n) : load n p s = none := if_neg h

theorem store_fails (h : ¬ s.Writable p n) : store n p v s = none := if_neg h

/-- What a read that returns has done. -/
theorem load_eq_some {s' : Space} :
    load n p s = some (v, s') ↔ s.Readable p n ∧ v = s.lanes n p ∧ s' = s := by
  by_cases h : s.Readable p n
  · rw [load, if_pos h, Option.some.injEq, Prod.mk.injEq, eq_comm, eq_comm (a := s)]
    exact ⟨fun hv => ⟨h, hv⟩, fun hv => hv.2⟩
  · rw [load, if_neg h]
    exact ⟨fun hv => (by cases hv), fun hv => absurd hv.1 h⟩

/-- What a write that returns has done. -/
theorem store_eq_some {s' : Space} {u : Unit} :
    store n p v s = some (u, s') ↔ s.Writable p n ∧ s' = s.write n p v := by
  by_cases h : s.Writable p n
  · rw [store, if_pos h, Option.some.injEq, Prod.mk.injEq, eq_comm (b := s')]
    exact ⟨fun hv => ⟨h, hv.2⟩, fun hv => ⟨rfl, hv.2⟩⟩
  · rw [store, if_neg h]
    exact ⟨fun hv => (by cases hv), fun hv => absurd hv.1 h⟩

/-- Read a byte. -/
def loadByte (p : ℕ) : Prog Space UInt8 := do
  let v ← load 1 p
  return v 0

/-- Write a byte. -/
def storeByte (p : ℕ) (b : UInt8) : Prog Space Unit := store 1 p fun _ => b

theorem loadByte_eq (h : s.readable p = true) : loadByte p s = some (s.bytes p, s) := by
  have hr : s.Readable p 1 := fun i hi => by rwa [show p + i = p by omega]
  rw [loadByte, bind_some (load_eq hr) rfl, pure_apply, lanes_of_lt Nat.one_pos, Nat.add_zero]

theorem loadByte_fails (h : s.readable p = false) : loadByte p s = none := by
  have hr : ¬ s.Readable p 1 := fun hr => absurd ((hr 0 Nat.one_pos).symm.trans h) (by simp)
  rw [loadByte, bind_apply, load_fails hr]
  rfl

theorem wp_loadByte (h : s.readable p = true) {Q : UInt8 → Space → Prop} :
    wp (loadByte p) Q s ↔ Q (s.bytes p) s := wp_of_some (loadByte_eq h)

theorem wp_storeByte (h : s.writable p = true) {b : UInt8} {Q : Unit → Space → Prop} :
    wp (storeByte p b) Q s ↔ Q () (s.write 1 p fun _ => b) :=
  wp_store fun i hi => by rwa [show p + i = p by omega]

/-! ### Confined reads -/

/-- The space where only the addresses `may` can be read. -/
def narrow (s : Space) (may : ℕ → Bool) : Space :=
  { s with readable := fun a => s.readable a && may a }

/-- Run `f` where only the addresses `may` can be read. -/
def within {α : Type} (may : ℕ → Bool) (f : Prog Space α) : Prog Space α := fun s =>
  (f (s.narrow may)).map fun r => (r.1, { r.2 with readable := s.readable })

theorem wp_within {α : Type} {may : ℕ → Bool} {f : Prog Space α} {Q : α → Space → Prop} :
    wp (within may f) Q s ↔
      wp f (fun r s' => Q r { s' with readable := s.readable }) (s.narrow may) := by
  constructor
  · rintro ⟨r, s', hrun, hQ⟩
    obtain ⟨⟨r', t⟩, hf, heq⟩ := Option.map_eq_some_iff.mp hrun
    obtain ⟨rfl, rfl⟩ := Prod.mk.inj heq
    exact ⟨r', t, hf, hQ⟩
  · rintro ⟨r, t, hf, hQ⟩
    exact ⟨r, _, by rw [within, hf]; rfl, hQ⟩

/-- A read that stays within `may`. -/
theorem wp_within_load {may : ℕ → Bool} (h : (s.narrow may).Readable p n)
    {Q : Lanes → Space → Prop} : wp (within may (load n p)) Q s ↔ Q (s.lanes n p) s :=
  wp_within.trans (wp_load h)

/-- Rounding an address down to a multiple of a power of two, by a mask. -/
theorem mask_align {x j : ℕ} (h : x < 2 ^ 64) (hj : j ≤ 64) :
    (2 ^ 64 - 2 ^ j) &&& x = x / 2 ^ j * 2 ^ j := by
  have hpos : 0 < 2 ^ j := Nat.two_pow_pos j
  have hle : 2 ^ j ≤ 2 ^ 64 := Nat.pow_le_pow_right (by decide) hj
  rw [show 2 ^ 64 - 2 ^ j = 2 ^ 64 - (2 ^ j - 1 + 1) by omega]
  refine Nat.eq_of_testBit_eq fun i => ?_
  rw [Nat.testBit_and, Nat.testBit_two_pow_sub_succ (by omega), Nat.testBit_two_pow_sub_one,
    Nat.testBit_mul_two_pow, Nat.testBit_div_two_pow]
  by_cases hi : i < 64
  · by_cases hij : j ≤ i
    · simp [hi, hij, show ¬ i < j by omega]
    · simp [hij, show i < j by omega]
  · have hx : x.testBit i = false := Nat.testBit_lt_two_pow
      (lt_of_lt_of_le h (Nat.pow_le_pow_right (by decide) (by omega)))
    by_cases hij : j ≤ i
    · simp [hi, hij, hx]
    · simp [hi, hij]

/-! ### Strings and pages -/

/-- The bytes at `p` are a string of length `n` and its terminator. -/
structure StringIn (s : Space) (p n : ℕ) : Prop where
  terminator : s.bytes (p + n) = 0
  nonzero : ∀ i < n, s.bytes (p + i) ≠ 0

/-- The address `a` lies on a page, of `size` bytes, with one of the `n` bytes from `p` on. -/
def OnPages (size p n a : ℕ) : Prop := ∃ i < n, a / size = (p + i) / size

end Space
