/-
Arrays of elements of one size in memory, and the functions that copy bytes.

* `ArrayAt` — the elements of an array; `arrayAt_append` splits it, `ArrayAt.flatten`
  is all of its bytes;
* `copyBytes` — `memcpy` and `memmove`;
* `mallocBytes`, `freeBytes` — a block of memory; the allocator's answer is a parameter.
-/
import Cldm.Bytes

namespace Bytes

open Prog

variable {mem mem' : Mem} {p q n size : ℕ} {bs bs' x : List UInt8} {xs ys : List (List UInt8)}

/-! ### Areas side by side -/

theorem bytesAt_append {m : ℕ} (h : bytesAt mem p n = some bs)
    (h' : bytesAt mem (p + n) m = some bs') : bytesAt mem p (n + m) = some (bs ++ bs') := by
  have hlen := length_bytesAt h
  have hlen' := length_bytesAt h'
  refine bytesAt_eq_iff.mpr ⟨by rw [List.length_append]; omega, fun i hi => ?_⟩
  by_cases hin : i < n
  · rw [List.getElem?_append_left (by omega)]
    exact (bytesAt_eq_iff.mp h).2 i hin
  · rw [List.getElem?_append_right (by omega), hlen, ← (bytesAt_eq_iff.mp h').2 (i - n) (by omega)]
    congr 1
    omega

/-! ### Arrays -/

/-- The elements of the array at `p`, `size` bytes each. -/
def ArrayAt (mem : Mem) (size : ℕ) : ℕ → List (List UInt8) → Prop
  | _, [] => True
  | p, x :: xs => bytesAt mem p size = some x ∧ ArrayAt mem size (p + size) xs

attribute [grind =] ArrayAt

theorem arrayAt_nil : ArrayAt mem size p [] := trivial

theorem arrayAt_cons : ArrayAt mem size p (x :: xs) ↔
    bytesAt mem p size = some x ∧ ArrayAt mem size (p + size) xs := Iff.rfl

theorem arrayAt_append : ArrayAt mem size p (xs ++ ys) ↔
    ArrayAt mem size p xs ∧ ArrayAt mem size (p + xs.length * size) ys := by
  induction xs generalizing p with
  | nil =>
    rw [List.nil_append, List.length_nil, Nat.zero_mul, Nat.add_zero]
    exact ⟨fun h => ⟨trivial, h⟩, fun h => h.2⟩
  | cons x xs ih =>
    have hnext : p + (x :: xs).length * size = p + size + xs.length * size := by
      rw [List.length_cons, Nat.succ_mul]
      omega
    rw [List.cons_append, arrayAt_cons, arrayAt_cons, ih, hnext, and_assoc]

theorem arrayAt_singleton : ArrayAt mem size p [x] ↔ bytesAt mem p size = some x :=
  ⟨fun h => h.1, fun h => ⟨h, trivial⟩⟩

/-- An array depends on its own bytes only. -/
theorem ArrayAt.congr (h : ArrayAt mem size p xs)
    (hmem : ∀ a, p ≤ a → a < p + xs.length * size → mem' a = mem a) : ArrayAt mem' size p xs := by
  induction xs generalizing p with
  | nil => exact arrayAt_nil
  | cons x xs ih =>
    have hlen : (x :: xs).length * size = size + xs.length * size := by
      rw [List.length_cons, Nat.succ_mul]
      omega
    rw [hlen] at hmem
    refine ⟨?_, ih h.2 fun a ha ha' => hmem a (by omega) (by omega)⟩
    rw [← h.1]
    exact bytesAt_congr fun i hi => hmem (p + i) (by omega) (by omega)

/-- All bytes of an array. -/
theorem ArrayAt.flatten (h : ArrayAt mem size p xs) :
    bytesAt mem p (xs.length * size) = some xs.flatten := by
  induction xs generalizing p with
  | nil => rw [List.length_nil, Nat.zero_mul]; rfl
  | cons x xs ih =>
    rw [List.length_cons, Nat.succ_mul, Nat.add_comm, List.flatten_cons]
    exact bytesAt_append h.1 (ih h.2)

theorem ArrayAt.length_flatten (h : ArrayAt mem size p xs) :
    xs.flatten.length = xs.length * size := length_bytesAt h.flatten

/-- The bytes of an array are an array wherever they lie. -/
theorem ArrayAt.of_flatten (h : ArrayAt mem size p xs)
    (h' : bytesAt mem' q (xs.length * size) = some xs.flatten) : ArrayAt mem' size q xs := by
  induction xs generalizing p q with
  | nil => exact arrayAt_nil
  | cons x xs ih =>
    have hx : x.length = size := length_bytesAt h.1
    rw [List.length_cons, Nat.succ_mul, List.flatten_cons] at h'
    have hhead := bytesAt_take h' (m := size) (by omega)
    have htail := bytesAt_drop h' (Nat.le_of_eq (Nat.add_comm size (xs.length * size)))
    rw [List.take_left' hx] at hhead
    rw [List.drop_left' hx, List.take_of_length_le (by rw [h.2.length_flatten])] at htail
    exact ⟨hhead, ih h.2 htail⟩

/-- An array and an element of it. -/
theorem ArrayAt.elem (h : ArrayAt mem size p (xs ++ x :: ys)) :
    bytesAt mem (p + xs.length * size) size = some x := (arrayAt_append.mp h).2.1

theorem ArrayAt.accessible (h : ArrayAt mem size p xs) : Accessible mem p (xs.length * size) := by
  intro i hi
  rw [(bytesAt_eq_iff.mp h.flatten).2 i hi, List.getElem?_eq_getElem (by rw [h.length_flatten]; exact hi)]
  rfl

/-! ### Copying -/

/-- `memmove` of `n` bytes, and `memcpy` where the areas are apart; a fault where an area is not
accessible. -/
def copyBytes (dst src n : ℕ) : Prog Mem Unit := fun mem =>
  (bytesAt mem src n).bind fun bs =>
    if (bytesAt mem dst n).isSome then some ((), store mem dst bs) else none

theorem wp_copyBytes (hsrc : bytesAt mem p n = some bs) (hdst : Accessible mem q n)
    {Q : Unit → Mem → Prop} : wp (copyBytes q p n) Q mem ↔ Q () (store mem q bs) := by
  refine wp_of_some ?_
  obtain ⟨bs', hbs'⟩ := hdst.bytesAt
  rw [copyBytes, hsrc, Option.bind_some, if_pos (by rw [hbs', Option.isSome_some])]

theorem wp_readBytes {σ : Type} {s : σ} (h : bytesAt mem p n = some bs)
    {Q : List UInt8 → σ → Prop} : wp (readBytes mem p n) Q s ↔ Q bs s :=
  wp_of_some (readBytes_eq h s)

/-! ### Blocks -/

/-- The answer of the allocator: where the new block lies, and what it holds. -/
abbrev BlockAnswer := Option (ℕ × (ℕ → UInt8))

/-- `malloc`. -/
def mallocBytes (ans : BlockAnswer) (n : ℕ) : Prog Mem (Option ℕ) := fun mem =>
  match ans with
  | none => some (none, mem)
  | some (p, junk) =>
    some (some p, fun a => if p ≤ a ∧ a < p + n then some (junk (a - p)) else mem a)

/-- `free` of the block of `n` bytes at `p`. -/
def freeBytes (p n : ℕ) : Prog Mem Unit := fun mem =>
  some ((), fun a => if p ≤ a ∧ a < p + n then none else mem a)

theorem wp_freeBytes {Q : Unit → Mem → Prop} : wp (freeBytes p n) Q mem ↔
    Q () fun a => if p ≤ a ∧ a < p + n then none else mem a := wp_of_some rfl

/-- What the C library promises of the answer to a request for `n` bytes: nothing that is in use
lies in the block, and it has at most `PTRDIFF_MAX` bytes. -/
def BlockOk (mem : Mem) (n : ℕ) (ans : BlockAnswer) : Prop :=
  ∀ p junk, ans = some (p, junk) → n < 2 ^ 63 ∧ ∀ a, p ≤ a → a < p + n → mem a = none

end Bytes
