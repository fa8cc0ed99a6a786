/-
The exchange of two areas of memory.

An exchange that proceeds from the start of the areas is described by how far each of
them is done: in `s.exchanged p q k l` the first `k` bytes from `p` on are those that
lay at `q`, and the first `l` bytes from `q` on those that lay at `p`.

* `SwapArea.load_fst`, `load_snd` — a read from where an area is not done yet gives
  the bytes from before the exchange;
* `SwapArea.store_fst`, `store_snd` — a write that reaches beyond what is done
  extends it, also when it overlaps what is done already;
* `SwapArea.done` — an exchange of all bytes meets the specification `SwapDone`.

Bytes must be read before either area is written at their place, or the exchange
would be undone: `load_fst` asks for an offset not below `k`.
-/
import Cldm.Space

namespace Space

open Prog

variable {s : Space} {p q n k l o w : ℕ} {v : Lanes}

/-- The first `k` bytes from `p` on and the first `l` bytes from `q` on taken from the other
area. -/
def exchanged (s : Space) (p q k l : ℕ) : Space :=
  { s with bytes := fun a =>
      if p ≤ a ∧ a < p + k then s.bytes (q + (a - p))
      else if q ≤ a ∧ a < q + l then s.bytes (p + (a - q))
      else s.bytes a }

@[simp] theorem exchanged_zero : s.exchanged p q 0 0 = s := by
  have hnone : ∀ a r, ¬ (r ≤ a ∧ a < r + 0) := fun a r => by omega
  simp only [exchanged, hnone, if_false]

@[simp] theorem Readable_exchanged {a m : ℕ} :
    (s.exchanged p q k l).Readable a m ↔ s.Readable a m := Iff.rfl

@[simp] theorem Writable_exchanged {a m : ℕ} :
    (s.exchanged p q k l).Writable a m ↔ s.Writable a m := Iff.rfl

/-- A byte of the first area that is done. -/
theorem exchanged_fst {i : ℕ} (hi : i < k) :
    (s.exchanged p q k l).bytes (p + i) = s.bytes (q + i) := by
  show (if p ≤ p + i ∧ p + i < p + k then _ else _) = _
  rw [if_pos ⟨by omega, by omega⟩, Nat.add_sub_cancel_left]

/-- A byte outside of what is done of the first area. -/
theorem exchanged_snd {a : ℕ} (ha : a < p ∨ p + k ≤ a) (hq : q ≤ a) (hl : a < q + l) :
    (s.exchanged p q k l).bytes a = s.bytes (p + (a - q)) := by
  show (if p ≤ a ∧ a < p + k then _ else _) = _
  rw [if_neg (by omega), if_pos ⟨hq, hl⟩]

theorem exchanged_outside {a : ℕ} (hp : a < p ∨ p + k ≤ a) (hq : a < q ∨ q + l ≤ a) :
    (s.exchanged p q k l).bytes a = s.bytes a := by
  show (if p ≤ a ∧ a < p + k then _ else _) = _
  rw [if_neg (by omega), if_neg (by omega)]

/-- Two areas of `n` bytes, apart from each other, that may be read and written. -/
structure SwapArea (s : Space) (p q n : ℕ) : Prop where
  readable_fst : s.Readable p n
  writable_fst : s.Writable p n
  readable_snd : s.Readable q n
  writable_snd : s.Writable q n
  apart : p + n ≤ q ∨ q + n ≤ p

/-- What an exchange of `n` bytes leaves in memory. -/
structure SwapDone (s : Space) (p q n : ℕ) (s' : Space) : Prop where
  fst : ∀ i < n, s'.bytes (p + i) = s.bytes (q + i)
  snd : ∀ i < n, s'.bytes (q + i) = s.bytes (p + i)
  kept : ∀ a, a < p ∨ p + n ≤ a → a < q ∨ q + n ≤ a → s'.bytes a = s.bytes a

theorem SwapArea.done (h : SwapArea s p q n) : SwapDone s p q n (s.exchanged p q n n) := by
  have hapart := h.apart
  refine ⟨fun i hi => exchanged_fst hi, fun i hi => ?_, fun a hp hq => exchanged_outside hp hq⟩
  rw [exchanged_snd (by omega) (by omega) (by omega), Nat.add_sub_cancel_left]

theorem SwapArea.load_fst (h : SwapArea s p q n) (hk : k ≤ o) (hn : o + w ≤ n) (hl : l ≤ n)
    {Q : Lanes → Space → Prop} : wp (load w (p + o)) Q (s.exchanged p q k l) ↔
      Q (s.lanes w (p + o)) (s.exchanged p q k l) := by
  have hapart := h.apart
  have hr : s.Readable (p + o) w := h.readable_fst.mono (by omega) (by omega)
  rw [wp_load (Readable_exchanged.mpr hr)]
  have hsame : (s.exchanged p q k l).lanes w (p + o) = s.lanes w (p + o) := by
    funext i
    by_cases hi : i < w
    · rw [lanes_of_lt hi, lanes_of_lt hi, exchanged_outside (by omega) (by omega)]
    · simp only [lanes, if_neg hi]
  rw [hsame]

theorem SwapArea.load_snd (h : SwapArea s p q n) (hl : l ≤ o) (hn : o + w ≤ n) (hk : k ≤ n)
    {Q : Lanes → Space → Prop} : wp (load w (q + o)) Q (s.exchanged p q k l) ↔
      Q (s.lanes w (q + o)) (s.exchanged p q k l) := by
  have hapart := h.apart
  have hr : s.Readable (q + o) w := h.readable_snd.mono (by omega) (by omega)
  rw [wp_load (Readable_exchanged.mpr hr)]
  have hsame : (s.exchanged p q k l).lanes w (q + o) = s.lanes w (q + o) := by
    funext i
    by_cases hi : i < w
    · rw [lanes_of_lt hi, lanes_of_lt hi, exchanged_outside (by omega) (by omega)]
    · simp only [lanes, if_neg hi]
  rw [hsame]

theorem SwapArea.store_fst (h : SwapArea s p q n) (ho : o ≤ k) (hk : k ≤ o + w) (hn : o + w ≤ n)
    (hv : ∀ i < w, v i = s.bytes (q + o + i)) {Q : Unit → Space → Prop} :
    wp (store w (p + o) v) Q (s.exchanged p q k l) ↔ Q () (s.exchanged p q (o + w) l) := by
  have hw : s.Writable (p + o) w := h.writable_fst.mono (by omega) (by omega)
  have hnext : (s.exchanged p q k l).write w (p + o) v = s.exchanged p q (o + w) l := by
    simp only [write, exchanged, mk.injEq, and_true]
    funext a
    by_cases ha : p + o ≤ a ∧ a < p + o + w
    · rw [if_pos ha, if_pos ⟨by omega, by omega⟩, hv _ (by omega)]
      congr 1
      omega
    · rw [if_neg ha]
      by_cases hdone : p ≤ a ∧ a < p + k
      · rw [if_pos hdone, if_pos ⟨by omega, by omega⟩]
      · rw [if_neg hdone, if_neg (show ¬ (p ≤ a ∧ a < p + (o + w)) by omega)]
  rw [wp_store (Writable_exchanged.mpr hw), hnext]

theorem SwapArea.store_snd (h : SwapArea s p q n) (ho : o ≤ l) (hl : l ≤ o + w) (hn : o + w ≤ n)
    (hk : k ≤ n) (hv : ∀ i < w, v i = s.bytes (p + o + i)) {Q : Unit → Space → Prop} :
    wp (store w (q + o) v) Q (s.exchanged p q k l) ↔ Q () (s.exchanged p q k (o + w)) := by
  have hapart := h.apart
  have hw : s.Writable (q + o) w := h.writable_snd.mono (by omega) (by omega)
  have hnext : (s.exchanged p q k l).write w (q + o) v = s.exchanged p q k (o + w) := by
    simp only [write, exchanged, mk.injEq, and_true]
    funext a
    by_cases ha : q + o ≤ a ∧ a < q + o + w
    · rw [if_pos ha, if_neg (show ¬ (p ≤ a ∧ a < p + k) by omega), if_pos ⟨by omega, by omega⟩,
        hv _ (by omega)]
      congr 1
      omega
    · rw [if_neg ha]
      by_cases hfst : p ≤ a ∧ a < p + k
      · rw [if_pos hfst, if_pos hfst]
      · rw [if_neg hfst, if_neg hfst]
        by_cases hdone : q ≤ a ∧ a < q + l
        · rw [if_pos hdone, if_pos ⟨by omega, by omega⟩]
        · rw [if_neg hdone, if_neg (show ¬ (q ≤ a ∧ a < q + (o + w)) by omega)]
  rw [wp_store (Writable_exchanged.mpr hw), hnext]

/-- The next bytes of both areas, read and written back. -/
theorem SwapArea.swap (h : SwapArea s p q n) (hn : k + w ≤ n) {γ : Type} {f : Prog Space γ}
    {P : γ → Space → Prop} (hf : wp f P (s.exchanged p q (k + w) (k + w))) :
    wp (do
      let v ← load w (p + k)
      let v' ← load w (q + k)
      store w (p + k) v'
      store w (q + k) v
      f) P (s.exchanged p q k k) := by
  rw [wp_bind, h.load_fst (by omega) hn (by omega), wp_bind,
    h.load_snd (by omega) hn (by omega), wp_bind,
    h.store_fst (by omega) (by omega) hn fun i hi => lanes_of_lt hi, wp_bind,
    h.store_snd (by omega) (by omega) hn hn fun i hi => lanes_of_lt hi]
  exact hf

/-- The next bytes of both areas and their last ones, which may overlap: all of them are read
before the first is written, and the last ones are not written if there is no need. -/
theorem SwapArea.swapEnds (h : SwapArea s p q n) (hk : k + w ≤ n) (hn : n ≤ k + w + w) {γ : Type}
    {f g : Prog Space γ} {P : γ → Space → Prop} {c : Prop} [Decidable c] (hc : c → k + w = n)
    (hf : wp f P (s.exchanged p q n n)) (hg : wp g P (s.exchanged p q n n)) :
    wp (do
      let v₀ ← load w (p + k)
      let v₁ ← load w (q + k)
      let v₂ ← load w (p + (n - w))
      let v₃ ← load w (q + (n - w))
      store w (p + k) v₁
      store w (q + k) v₀
      if c then f else do
      store w (p + (n - w)) v₃
      store w (q + (n - w)) v₂
      g) P (s.exchanged p q k k) := by
  have hend : n - w + w = n := by omega
  rw [wp_bind, h.load_fst (by omega) hk (by omega), wp_bind,
    h.load_snd (by omega) hk (by omega), wp_bind,
    h.load_fst (by omega) (by omega) (by omega), wp_bind,
    h.load_snd (by omega) (by omega) (by omega), wp_bind,
    h.store_fst (by omega) (by omega) hk fun i hi => lanes_of_lt hi, wp_bind,
    h.store_snd (by omega) (by omega) hk hk fun i hi => lanes_of_lt hi]
  by_cases hlast : c
  · rw [if_pos hlast, hc hlast]
    exact hf
  · rw [if_neg hlast, wp_bind,
      h.store_fst (by omega) (by omega) (by omega) fun i hi => lanes_of_lt hi, wp_bind,
      h.store_snd (by omega) (by omega) (by omega) (by omega) fun i hi => lanes_of_lt hi, hend]
    exact hg

end Space
