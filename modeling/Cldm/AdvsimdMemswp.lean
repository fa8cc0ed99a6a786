/-
The Advanced SIMD exchange of memory areas.

`advsimdMemswp` is `cldm_advsimd_memswp`, with a definition for each label of the
assembly source.  The routine rounds the addresses of both areas up, each for itself,
and goes on from there in both areas at the same time.

* `advsimd_memswp_correct` — the exchange is right for all contents of memory just
  when there is nothing to exchange, or both areas begin at the same distance from
  an aligned address, with more than 32 bytes from there on, and not in the lowest memory.

Where the distances differ, a byte of the first area gets its content from another
position of the second (`long_shifted`).  Areas that are too short for the aligned part
are exchanged from the aligned address on, which is their end or lies beyond it: a run
that stays within the areas does not write the first byte (`short_first_kept`).  If the
first area ends in the first 128 bytes of memory, the limit of the loop falls below zero
(`low_fails`).
-/
import Cldm.Advsimd
import Cldm.Exchange

namespace Cldm

namespace Aarch64

open Prog Space Advsimd

/-! ### The routine -/

/-- `.Lswp1b` -/
def swp1b (x3 x4 : ℕ) : Prog Space Unit := do
  let w9 ← ldrb x3
  let w10 ← ldrb x4
  strb w10 x3
  strb w9 x4
  return

/-- `.Lswp2b` -/
def swp2b (x3 x4 x6 x7 : ℕ) : Prog Space Unit :=
  let x6 := addX x6 0x02
  let fl := cmpX x6 x3
  if bLo fl then swp1b x3 x4 else do
  let w9 ← ldrh x3
  let w10 ← ldrh x4
  let w11 ← ldrh x6
  let w12 ← ldrh (subX x7 0x02)
  strh w10 x3
  strh w9 x4
  if bEq fl then return else
  strh w12 x6
  strh w11 (subX x7 0x02)
  return

/-- `.Lswp4b` -/
def swp4b (x3 x4 x6 x7 : ℕ) : Prog Space Unit :=
  let x6 := addX x6 0x04
  let fl := cmpX x6 x3
  if bLo fl then swp2b x3 x4 x6 x7 else do
  let w9 ← ldrW x3
  let w10 ← ldrW x4
  let w11 ← ldrW x6
  let w12 ← ldrW (subX x7 0x04)
  strW w10 x3
  strW w9 x4
  if bEq fl then return else
  strW w12 x6
  strW w11 (subX x7 0x04)
  return

/-- `.Lswp8b` -/
def swp8b (x3 x4 x6 x7 : ℕ) : Prog Space Unit :=
  let x6 := addX x6 0x08
  let fl := cmpX x6 x3
  if bLo fl then swp4b x3 x4 x6 x7 else do
  let x9 ← ldrX x3
  let x10 ← ldrX x4
  let x11 ← ldrX x6
  let x12 ← ldrX (subX x7 0x08)
  strX x10 x3
  strX x9 x4
  if bEq fl then return else
  strX x12 x6
  strX x11 (subX x7 0x08)
  return

/-- `.Lswp16b` -/
def swp16b (x3 x4 x6 x7 : ℕ) : Prog Space Unit :=
  let x6 := addX x6 0x10
  let fl := cmpX x6 x3
  if bLo fl then swp8b x3 x4 x6 x7 else do
  let v0 ← ld1 1 x3
  let v16 ← ld1 1 x4
  let v1 ← ld1 1 x6
  let x7 := subX x7 0x10
  let v17 ← ld1 1 x7
  st1 1 v16 x3
  st1 1 v0 x4
  if bEq fl then return else
  st1 1 v17 x6
  st1 1 v1 x7
  return

/-- `.Lswp32b` -/
def swp32b (x3 x4 x6 x7 : ℕ) : Prog Space Unit :=
  let x6 := addX x6 0x20
  let fl := cmpX x6 x3
  if bLo fl then swp16b x3 x4 x6 x7 else do
  let v0 ← ld1 2 x3
  let v16 ← ld1 2 x4
  let v2 ← ld1 2 x6
  let x7 := subX x7 0x20
  let v18 ← ld1 2 x7
  st1 2 v16 x3
  st1 2 v0 x4
  if bEq fl then return else
  st1 2 v18 x6
  st1 2 v2 x7
  return

/-- `.Lswp64b` -/
def swp64b (x3 x4 x6 x7 : ℕ) : Prog Space Unit :=
  let x6 := addX x6 0x40
  let fl := cmpX x6 x3
  if bLo fl then swp32b x3 x4 x6 x7 else do
  let v0 ← ld1 4 x3
  let v16 ← ld1 4 x4
  st1 4 v16 x3
  let x3 := addX x3 0x40
  st1 4 v0 x4
  let x4 := addX x4 0x40
  if bEq fl then return else
  swp32b x3 x4 x6 x7

/-- `.Lswp128b`, once around -/
def swp128bBody (x6 x7 : ℕ) : ℕ × ℕ → Prog Space (ℕ × ℕ ⊕ Unit) := fun (x3, x4) =>
  let fl := cmpX x6 x3
  if bLo fl then .inr <$> swp64b x3 x4 x6 x7 else do
  let v0 ← ld1 4 x3
  let v16 ← ld1 4 x4
  st1 4 v16 x3
  let x3 := addX x3 0x40
  st1 4 v0 x4
  let x4 := addX x4 0x40
  let v4 ← ld1 4 x3
  let v20 ← ld1 4 x4
  st1 4 v20 x3
  let x3 := addX x3 0x40
  st1 4 v4 x4
  let x4 := addX x4 0x40
  if bHi fl then return .inl (x3, x4) else return .inr ()

/-- `cldm_advsimd_memswp`: `x0` and `x1` are the areas and `x2` is the number of bytes. -/
def advsimdMemswp (x0 x1 x2 fuel : ℕ) : Prog Space Unit :=
  if bEq (tstX x2 x2) then return else
  let x6 := addX x0 x2
  let x7 := addX x1 x2
  let x3 := addX x0 0x20
  let x3 := andImm (neg 0x20) x3
  let x4 := addX x1 0x20
  let x4 := andImm (neg 0x20) x4
  let x6 := subX x6 0x20
  if bLe (cmpX x6 x3) then swp32b x3 x4 x6 x7 else do
  let v0 ← ld1 2 x0
  let v16 ← ld1 2 x1
  let v2 ← ld1 2 x3
  let v18 ← ld1 2 x4
  st1 2 v16 x0
  st1 2 v0 x1
  st1 2 v18 x3
  let x3 := addX x3 0x20
  st1 2 v2 x4
  let x4 := addX x4 0x20
  let x6 := subX x6 0x60
  fuelLoop (swp128bBody x6 x7) fuel (x3, x4)

/-! ### Areas that begin at the same distance from an aligned address -/

variable {s s' : Space} {p q n k w : ℕ}

/-- Two areas of `n` bytes that may be exchanged, among the addresses of a user, which have
at most 52 bits. -/
structure UserArea (s : Space) (p q n : ℕ) : Prop extends SwapArea s p q n where
  fst_le : p + n ≤ 2 ^ 52
  snd_le : q + n ≤ 2 ^ 52

/-- The next block and the last one. -/
theorem UserArea.ends (h : UserArea s p q n) (hk : k + w ≤ n) (hn : n ≤ k + w + w) :
    wp (do
      let v₀ ← Space.load w (p + k)
      let v₁ ← Space.load w (q + k)
      let v₂ ← Space.load w (p + n - w)
      let v₃ ← Space.load w (subX (q + n) w)
      Space.store w (p + k) v₁
      Space.store w (q + k) v₀
      if p + n - w = p + k then return else do
      Space.store w (p + n - w) v₃
      Space.store w (subX (q + n) w) v₂
      return) (fun _ s' => s' = s.exchanged p q n n) (s.exchanged p q k k) := by
  have hsnd := h.snd_le
  have hend : p + n - w = p + (n - w) := by omega
  have hx7 : subX (q + n) w = q + (n - w) := subX_eq (by omega) (by omega)
  have hpure : wp (pure ()) (fun _ s' => s' = s.exchanged p q n n) (s.exchanged p q n n) :=
    (wp_pure _ _ _).mpr rfl
  rw [hend, hx7]
  exact h.swapEnds hk hn (by omega) hpure hpure

theorem wp_swp1b (h : UserArea s p q n) (hn : n = k + 1) :
    wp (swp1b (p + k) (q + k)) (fun _ s' => s' = s.exchanged p q n n)
      (s.exchanged p q k k) := by
  subst hn
  exact h.swap (by omega) ((wp_pure _ _ _).mpr rfl)

theorem wp_swp2b (h : UserArea s p q n) (hp : 128 ≤ p + n) (hk : k < n) (hn : n < k + 0x04) :
    wp (swp2b (p + k) (q + k) (p + n - 0x04) (q + n)) (fun _ s' => s' = s.exchanged p q n n)
      (s.exchanged p q k k) := by
  have hfst := h.fst_le
  have hx6 : addX (p + n - 0x04) 0x02 = p + n - 0x02 := addX_eq (by omega) (by omega)
  simp only [swp2b, hx6, bLo_cmpX, bEq_cmpX, decide_eq_true_eq]
  by_cases hroom : p + n - 0x02 < p + k
  · rw [if_pos hroom]
    exact wp_swp1b h (by omega)
  · rw [if_neg hroom]
    exact h.ends (by omega) (by omega)

theorem wp_swp4b (h : UserArea s p q n) (hp : 128 ≤ p + n) (hk : k < n) (hn : n < k + 0x08) :
    wp (swp4b (p + k) (q + k) (p + n - 0x08) (q + n)) (fun _ s' => s' = s.exchanged p q n n)
      (s.exchanged p q k k) := by
  have hfst := h.fst_le
  have hx6 : addX (p + n - 0x08) 0x04 = p + n - 0x04 := addX_eq (by omega) (by omega)
  simp only [swp4b, hx6, bLo_cmpX, bEq_cmpX, decide_eq_true_eq]
  by_cases hroom : p + n - 0x04 < p + k
  · rw [if_pos hroom]
    exact wp_swp2b h hp hk (by omega)
  · rw [if_neg hroom]
    exact h.ends (by omega) (by omega)

theorem wp_swp8b (h : UserArea s p q n) (hp : 128 ≤ p + n) (hk : k < n) (hn : n < k + 0x10) :
    wp (swp8b (p + k) (q + k) (p + n - 0x10) (q + n)) (fun _ s' => s' = s.exchanged p q n n)
      (s.exchanged p q k k) := by
  have hfst := h.fst_le
  have hx6 : addX (p + n - 0x10) 0x08 = p + n - 0x08 := addX_eq (by omega) (by omega)
  simp only [swp8b, hx6, bLo_cmpX, bEq_cmpX, decide_eq_true_eq]
  by_cases hroom : p + n - 0x08 < p + k
  · rw [if_pos hroom]
    exact wp_swp4b h hp hk (by omega)
  · rw [if_neg hroom]
    exact h.ends (by omega) (by omega)

theorem wp_swp16b (h : UserArea s p q n) (hp : 128 ≤ p + n) (hk : k < n) (hn : n < k + 0x20) :
    wp (swp16b (p + k) (q + k) (p + n - 0x20) (q + n)) (fun _ s' => s' = s.exchanged p q n n)
      (s.exchanged p q k k) := by
  have hfst := h.fst_le
  have hx6 : addX (p + n - 0x20) 0x10 = p + n - 0x10 := addX_eq (by omega) (by omega)
  simp only [swp16b, hx6, bLo_cmpX, bEq_cmpX, decide_eq_true_eq]
  by_cases hroom : p + n - 0x10 < p + k
  · rw [if_pos hroom]
    exact wp_swp8b h hp hk (by omega)
  · rw [if_neg hroom]
    exact h.ends (by omega) (by omega)

theorem wp_swp32b (h : UserArea s p q n) (hp : 128 ≤ p + n) (hk : k < n) (hn : n < k + 0x40) :
    wp (swp32b (p + k) (q + k) (p + n - 0x40) (q + n)) (fun _ s' => s' = s.exchanged p q n n)
      (s.exchanged p q k k) := by
  have hfst := h.fst_le
  have hx6 : addX (p + n - 0x40) 0x20 = p + n - 0x20 := addX_eq (by omega) (by omega)
  simp only [swp32b, hx6, bLo_cmpX, bEq_cmpX, decide_eq_true_eq]
  by_cases hroom : p + n - 0x20 < p + k
  · rw [if_pos hroom]
    exact wp_swp16b h hp hk (by omega)
  · rw [if_neg hroom]
    exact h.ends (by omega) (by omega)

theorem wp_swp64b (h : UserArea s p q n) (hp : 128 ≤ p + n) (hk : k < n) (hn : n < k + 0x80) :
    wp (swp64b (p + k) (q + k) (p + n - 0x80) (q + n)) (fun _ s' => s' = s.exchanged p q n n)
      (s.exchanged p q k k) := by
  have hfst := h.fst_le
  have hsnd := h.snd_le
  have hx6 : addX (p + n - 0x80) 0x40 = p + n - 0x40 := addX_eq (by omega) (by omega)
  have hx3 : addX (p + k) 0x40 = p + (k + 0x40) := addX_eq (by omega) (by omega)
  have hx4 : addX (q + k) 0x40 = q + (k + 0x40) := addX_eq (by omega) (by omega)
  simp only [swp64b, hx6, hx3, hx4, bLo_cmpX, bEq_cmpX, decide_eq_true_eq]
  by_cases hroom : p + n - 0x40 < p + k
  · rw [if_pos hroom]
    exact wp_swp32b h hp hk (by omega)
  rw [if_neg hroom]
  refine h.swap (by omega) ?_
  by_cases hend : p + n - 0x40 = p + k
  · rw [if_pos hend, wp_pure, show k + 4 * 16 = n by omega]
  · rw [if_neg hend]
    exact wp_swp32b h hp (by omega) (by omega)

/-- One turn of the loop exchanges the rest of the areas, or 128 bytes of them. -/
theorem wp_swp128bBody (h : UserArea s p q n) (hp : 128 ≤ p + n) (hk : k < n) :
    wp (swp128bBody (p + n - 0x80) (q + n) (p + k, q + k)) (fun r s' => Sum.elim
      (fun x => x = (p + (k + 0x80), q + (k + 0x80)) ∧ k + 0x80 < n ∧
        s' = s.exchanged p q (k + 0x80) (k + 0x80))
      (fun _ => s' = s.exchanged p q n n) r) (s.exchanged p q k k) := by
  have hfst := h.fst_le
  have hsnd := h.snd_le
  have hx3 : addX (p + k) 0x40 = p + (k + 0x40) := addX_eq (by omega) (by omega)
  have hx4 : addX (q + k) 0x40 = q + (k + 0x40) := addX_eq (by omega) (by omega)
  have hx3' : addX (p + (k + 0x40)) 0x40 = p + (k + 0x80) := addX_eq (by omega) (by omega)
  have hx4' : addX (q + (k + 0x40)) 0x40 = q + (k + 0x80) := addX_eq (by omega) (by omega)
  simp only [swp128bBody, hx3, hx4, hx3', hx4', bLo_cmpX, bHi_cmpX, decide_eq_true_eq]
  by_cases hroom : p + n - 0x80 < p + k
  · rw [if_pos hroom, wp_map]
    exact wp_swp64b h hp hk (by omega)
  rw [if_neg hroom]
  refine h.swap (by omega) ?_
  refine h.swap (by omega) ?_
  by_cases hmore : p + k < p + n - 0x80
  · rw [if_pos hmore, wp_pure]
    exact ⟨rfl, by omega, rfl⟩
  · rw [if_neg hmore, wp_pure, show k + 4 * 16 + 4 * 16 = n by omega]
    exact rfl

/-- The loop over blocks of 128 bytes. -/
theorem total_swp128b (h : UserArea s p q n) (hp : 128 ≤ p + n) (hk : k < n) :
    Total (fun fuel => fuelLoop (swp128bBody (p + n - 0x80) (q + n)) fuel (p + k, q + k))
      (fun _ s' => s' = s.exchanged p q n n) (s.exchanged p q k k) := by
  refine total_loop (f := fun _ => swp128bBody (p + n - 0x80) (q + n))
    (I := fun left x s' => ∃ k, left = n - k ∧ x = (p + k, q + k) ∧ k < n ∧
      s' = s.exchanged p q k k) ?_ (n - k) _ _ ⟨k, rfl, rfl, hk, rfl⟩
  rintro left x s' ⟨k, rfl, rfl, hk, rfl⟩
  refine (Total.const (wp_swp128bBody h hp hk)).mono ?_
  rintro (x | r) s' hr
  · obtain ⟨rfl, hmore, rfl⟩ := hr
    exact ⟨n - (k + 0x80), by omega, k + 0x80, rfl, rfl, hmore, rfl⟩
  · exact hr

/-! ### From the arguments to the labels -/

/-- The distance from an address to the next aligned one. -/
def alignDist (p : ℕ) : ℕ := 32 - p % 32

theorem alignDist_pos : 0 < alignDist p := by
  rw [alignDist]
  omega

theorem alignDist_le : alignDist p ≤ 32 := Nat.sub_le _ _

theorem andImm_alignDist (h : p ≤ 2 ^ 52) :
    andImm (neg 0x20) (addX p 0x20) = p + alignDist p := by
  rw [addX_eq (c := p + 0x20) rfl (by omega), andImm_align (by omega), alignDist]
  omega

/-- Areas with no more than 32 bytes from the aligned address on. -/
theorem advsimdMemswp_short (hp : p + n ≤ 2 ^ 52) (hq : q + n ≤ 2 ^ 52) (h0 : n ≠ 0)
    (hn : n ≤ alignDist p + 32) (fuel : ℕ) : advsimdMemswp p q n fuel =
      swp32b (p + alignDist p) (q + alignDist q) (subX (p + n) 0x20) (q + n) := by
  have hdist := alignDist_le (p := p)
  have hx6 : addX p n = p + n := addX_eq rfl (by omega)
  have hx7 : addX q n = q + n := addX_eq rfl (by omega)
  have hle : bLe (cmpX (subX (p + n) 0x20) (p + alignDist p)) = true := by
    by_cases hlow : p + n < 0x20
    · exact bLe_cmpX_neg (by rw [subX_wrap hlow (by omega)]; omega)
        (by rw [subX_wrap hlow (by omega)]; omega) (by omega)
    · rw [subX_eq (c := p + n - 0x20) (by omega) (by omega), bLe_cmpX (by omega) (by omega)]
      exact decide_eq_true (by omega)
  simp only [advsimdMemswp, andImm_alignDist (show p ≤ 2 ^ 52 by omega),
    andImm_alignDist (show q ≤ 2 ^ 52 by omega), hx6, hx7, hle, bEq_tstX, decide_eq_true_eq]
  rw [if_neg h0, if_pos trivial]

/-- The exchange of the bytes before the aligned addresses and of the 32 bytes from there on. -/
def swpHead (x0 x1 x3 x4 : ℕ) : Prog Space Unit := do
  let v0 ← ld1 2 x0
  let v16 ← ld1 2 x1
  let v2 ← ld1 2 x3
  let v18 ← ld1 2 x4
  st1 2 v16 x0
  st1 2 v0 x1
  st1 2 v18 x3
  st1 2 v2 x4

/-- Areas with more than 32 bytes from the aligned address on. -/
theorem advsimdMemswp_long (hp : p + n ≤ 2 ^ 52) (hq : q + n ≤ 2 ^ 52)
    (hn : alignDist p + 32 < n) (fuel : ℕ) : advsimdMemswp p q n fuel = (do
      swpHead p q (p + alignDist p) (q + alignDist q)
      fuelLoop (swp128bBody (subX (p + n - 0x20) 0x60) (q + n)) fuel
        (p + alignDist p + 0x20, q + alignDist q + 0x20)) := by
  have hdist := alignDist_le (p := p)
  have hdist' := alignDist_le (p := q)
  have hx6 : addX p n = p + n := addX_eq rfl (by omega)
  have hx7 : addX q n = q + n := addX_eq rfl (by omega)
  have hend : subX (p + n) 0x20 = p + n - 0x20 := subX_eq (by omega) (by omega)
  have hx3 : addX (p + alignDist p) 0x20 = p + alignDist p + 0x20 := addX_eq rfl (by omega)
  have hx4 : addX (q + alignDist q) 0x20 = q + alignDist q + 0x20 := addX_eq rfl (by omega)
  have hle : bLe (cmpX (p + n - 0x20) (p + alignDist p)) = false := by
    rw [bLe_cmpX (by omega) (by omega)]
    exact decide_eq_false (by omega)
  simp only [advsimdMemswp, andImm_alignDist (show p ≤ 2 ^ 52 by omega),
    andImm_alignDist (show q ≤ 2 ^ 52 by omega), hx6, hx7, hend, hx3, hx4, hle, bEq_tstX,
    decide_eq_true_eq, swpHead, bind_assoc]
  rw [if_neg (by omega)]
  rfl

/-- All of the bytes are read before the first is written. -/
theorem wp_swpHead (h : UserArea s p q n) (hw : w ≤ 32) (hn : w + 32 ≤ n) :
    wp (swpHead p q (p + w) (q + w))
      (fun _ s' => s' = s.exchanged p q (w + 32) (w + 32)) s := by
  suffices hrun : wp (swpHead (p + 0) (q + 0) (p + w) (q + w))
      (fun _ s' => s' = s.exchanged p q (w + 32) (w + 32)) (s.exchanged p q 0 0) by
    rwa [exchanged_zero] at hrun
  simp only [swpHead, ld1, st1]
  rw [wp_bind, h.load_fst (by omega) (by omega) (by omega), wp_bind,
    h.load_snd (by omega) (by omega) (by omega), wp_bind,
    h.load_fst (by omega) (by omega) (by omega), wp_bind,
    h.load_snd (by omega) (by omega) (by omega), wp_bind,
    h.store_fst (by omega) (by omega) (by omega) fun i hi => lanes_of_lt hi, wp_bind,
    h.store_snd (by omega) (by omega) (by omega) (by omega) fun i hi => lanes_of_lt hi, wp_bind,
    h.store_fst (by omega) (by omega) (by omega) fun i hi => lanes_of_lt hi,
    h.store_snd (by omega) (by omega) (by omega) (by omega) fun i hi => lanes_of_lt hi]

/-- The exchange, when both areas begin at the same distance from an aligned address. -/
theorem total_advsimdMemswp (h : UserArea s p q n) (hpq : alignDist p = alignDist q)
    (hn : alignDist p + 32 < n) (hp : 128 ≤ p + n) :
    Total (advsimdMemswp p q n) (fun _ s' => s' = s.exchanged p q n n) s := by
  have hfst := h.fst_le
  have hx6 : subX (p + n - 0x20) 0x60 = p + n - 0x80 := subX_eq (by omega) (by omega)
  have hrun : advsimdMemswp p q n = fun fuel =>
      swpHead p q (p + alignDist p) (q + alignDist p) >>= fun _ =>
        fuelLoop (swp128bBody (p + n - 0x80) (q + n)) fuel
          (p + (alignDist p + 0x20), q + (alignDist p + 0x20)) := by
    funext fuel
    rw [advsimdMemswp_long hfst h.snd_le hn, hx6, ← hpq, Nat.add_assoc, Nat.add_assoc]
  rw [hrun]
  refine Total.wp_bind (wp_mono (wp_swpHead h alignDist_le (by omega)) ?_)
  rintro _ _ rfl
  exact total_swp128b h hp (by omega)

/-! ### What a run leaves alone -/

variable {x3 x4 x6 x7 e t : ℕ} {u : Unit}

/-- Two reads and the two writes that exchange them. -/
theorem swap_returns {γ : Type} {f : Prog Space γ} {r : γ × Space}
    (h : (do
      let v ← Space.load w x3
      let v' ← Space.load w x4
      Space.store w x3 v'
      Space.store w x4 v
      f) s = some r) :
    ∃ s₁, f s₁ = some r ∧ s.Readable x3 w ∧ s₁.readable = s.readable ∧
      ∀ t, t < x3 ∨ x3 + w ≤ t → t < x4 ∨ x4 + w ≤ t → s₁.bytes t = s.bytes t := by
  obtain ⟨v, _, hload, h⟩ := bind_eq_some.mp h
  obtain ⟨hr, rfl, rfl⟩ := load_eq_some.mp hload
  obtain ⟨v', _, hload, h⟩ := bind_eq_some.mp h
  obtain ⟨-, rfl, rfl⟩ := load_eq_some.mp hload
  obtain ⟨_, _, hstore, h⟩ := bind_eq_some.mp h
  obtain ⟨-, rfl⟩ := store_eq_some.mp hstore
  obtain ⟨_, _, hstore, h⟩ := bind_eq_some.mp h
  obtain ⟨-, rfl⟩ := store_eq_some.mp hstore
  refine ⟨_, h, hr, rfl, fun t h3 h4 => ?_⟩
  rw [write_outside h4, write_outside h3]

/-- A run of the cascade from `.Lswp32b` on that returns: the last blocks have `w` bytes, where
`e` is what the routine takes for the end of the first area. -/
structure Ended (s s' : Space) (x3 x4 e x7 w : ℕ) : Prop where
  pos : 0 < w
  le : w ≤ 32
  next : w < 32 → e < x3 + w + w
  fits : 1 < w → x3 + w ≤ e
  readable_fst : s.Readable x3 w
  readable_last : 1 < w → s.Readable (e - w) w
  kept : ∀ t < 2 ^ 63, t < x3 ∨ x3 + w ≤ t → t < x4 ∨ x4 + w ≤ t → t + w < e ∨ e ≤ t →
    t + w < x7 ∨ x7 ≤ t → s'.bytes t = s.bytes t

/-- The blocks of `w` bytes at the end. -/
theorem ends_ended (h : (do
      let v₀ ← Space.load w x3
      let v₁ ← Space.load w x4
      let v₂ ← Space.load w x6
      let v₃ ← Space.load w (subX x7 w)
      Space.store w x3 v₁
      Space.store w x4 v₀
      if x6 = x3 then return else do
      Space.store w x6 v₃
      Space.store w (subX x7 w) v₂
      return) s = some (u, s')) (hw : 0 < w) (hle : w ≤ 32) (he : x6 + w = e) (hx3 : x3 ≤ x6)
    (hnext : w < 32 → e < x3 + w + w) (hx7 : x7 < 2 ^ 63) : Ended s s' x3 x4 e x7 w := by
  obtain ⟨v₀, _, hload, h⟩ := bind_eq_some.mp h
  obtain ⟨hr3, rfl, rfl⟩ := load_eq_some.mp hload
  obtain ⟨v₁, _, hload, h⟩ := bind_eq_some.mp h
  obtain ⟨-, rfl, rfl⟩ := load_eq_some.mp hload
  obtain ⟨v₂, _, hload, h⟩ := bind_eq_some.mp h
  obtain ⟨hr6, rfl, rfl⟩ := load_eq_some.mp hload
  obtain ⟨v₃, _, hload, h⟩ := bind_eq_some.mp h
  obtain ⟨-, rfl, rfl⟩ := load_eq_some.mp hload
  obtain ⟨_, _, hstore, h⟩ := bind_eq_some.mp h
  obtain ⟨-, rfl⟩ := store_eq_some.mp hstore
  obtain ⟨_, _, hstore, h⟩ := bind_eq_some.mp h
  obtain ⟨-, rfl⟩ := store_eq_some.mp hstore
  refine ⟨hw, hle, hnext, fun _ => by omega, hr3, fun _ => ?_, fun t ht h3 h4 h6 h7 => ?_⟩
  · rwa [show e - w = x6 by omega]
  -- the last block of the second area may begin below zero, and is then out of reach
  have hsub : t < subX x7 w ∨ subX x7 w + w ≤ t := by
    by_cases hlow : x7 < w
    · rw [subX_wrap hlow (by omega)]
      omega
    · rw [subX_eq (c := x7 - w) (by omega) (by omega)]
      omega
  by_cases heq : x6 = x3
  · rw [if_pos heq, pure_apply, Option.some.injEq, Prod.mk.injEq] at h
    obtain ⟨-, rfl⟩ := h
    rw [write_outside h4, write_outside h3]
  · rw [if_neg heq] at h
    obtain ⟨_, _, hstore, h⟩ := bind_eq_some.mp h
    obtain ⟨-, rfl⟩ := store_eq_some.mp hstore
    obtain ⟨_, _, hstore, h⟩ := bind_eq_some.mp h
    obtain ⟨-, rfl⟩ := store_eq_some.mp hstore
    rw [pure_apply, Option.some.injEq, Prod.mk.injEq] at h
    obtain ⟨-, rfl⟩ := h
    rw [write_outside hsub, write_outside (by omega), write_outside h4, write_outside h3]

theorem swp1b_ended (h : swp1b x3 x4 s = some (u, s')) (he : e < x3 + 2) :
    Ended s s' x3 x4 e x7 1 := by
  obtain ⟨s₁, hrun, hr, -, hkept⟩ := swap_returns h
  rw [pure_apply, Option.some.injEq, Prod.mk.injEq] at hrun
  obtain ⟨-, rfl⟩ := hrun
  exact ⟨by omega, by omega, fun _ => he, fun hw => absurd hw (by omega), hr,
    fun hw => absurd hw (by omega), fun t _ h3 h4 _ _ => hkept t h3 h4⟩

theorem swp2b_ended (h : swp2b x3 x4 x6 x7 s = some (u, s')) (hx6 : addX x6 0x02 + 0x02 = e)
    (he : e < x3 + 0x04) (hx7 : x7 < 2 ^ 63) : ∃ w, Ended s s' x3 x4 e x7 w := by
  simp only [swp2b, bLo_cmpX, bEq_cmpX, decide_eq_true_eq] at h
  by_cases hroom : addX x6 0x02 < x3
  · rw [if_pos hroom] at h
    exact ⟨1, swp1b_ended h (by omega)⟩
  · rw [if_neg hroom] at h
    exact ⟨2, ends_ended h (by omega) (by omega) hx6 (by omega) (by omega) hx7⟩

theorem swp4b_ended (h : swp4b x3 x4 x6 x7 s = some (u, s')) (hx6 : addX x6 0x04 + 0x04 = e)
    (he : e < x3 + 0x08) (hmax : e < 2 ^ 63) (hx7 : x7 < 2 ^ 63) :
    ∃ w, Ended s s' x3 x4 e x7 w := by
  simp only [swp4b, bLo_cmpX, bEq_cmpX, decide_eq_true_eq] at h
  by_cases hroom : addX x6 0x04 < x3
  · rw [if_pos hroom] at h
    have hx6' : addX (addX x6 0x04) 0x02 = e - 0x02 := addX_eq (by omega) (by omega)
    exact swp2b_ended h (by omega) (by omega) hx7
  · rw [if_neg hroom] at h
    exact ⟨4, ends_ended h (by omega) (by omega) hx6 (by omega) (by omega) hx7⟩

theorem swp8b_ended (h : swp8b x3 x4 x6 x7 s = some (u, s')) (hx6 : addX x6 0x08 + 0x08 = e)
    (he : e < x3 + 0x10) (hmax : e < 2 ^ 63) (hx7 : x7 < 2 ^ 63) :
    ∃ w, Ended s s' x3 x4 e x7 w := by
  simp only [swp8b, bLo_cmpX, bEq_cmpX, decide_eq_true_eq] at h
  by_cases hroom : addX x6 0x08 < x3
  · rw [if_pos hroom] at h
    have hx6' : addX (addX x6 0x08) 0x04 = e - 0x04 := addX_eq (by omega) (by omega)
    exact swp4b_ended h (by omega) (by omega) hmax hx7
  · rw [if_neg hroom] at h
    exact ⟨8, ends_ended h (by omega) (by omega) hx6 (by omega) (by omega) hx7⟩

theorem swp16b_ended (h : swp16b x3 x4 x6 x7 s = some (u, s')) (hx6 : addX x6 0x10 + 0x10 = e)
    (he : e < x3 + 0x20) (hmax : e < 2 ^ 63) (hx7 : x7 < 2 ^ 63) :
    ∃ w, Ended s s' x3 x4 e x7 w := by
  simp only [swp16b, bLo_cmpX, bEq_cmpX, decide_eq_true_eq] at h
  by_cases hroom : addX x6 0x10 < x3
  · rw [if_pos hroom] at h
    have hx6' : addX (addX x6 0x10) 0x08 = e - 0x08 := addX_eq (by omega) (by omega)
    exact swp8b_ended h (by omega) (by omega) hmax hx7
  · rw [if_neg hroom] at h
    exact ⟨16, ends_ended h (by omega) (by omega) hx6 (by omega) (by omega) hx7⟩

theorem swp32b_ended (h : swp32b x3 x4 x6 x7 s = some (u, s')) (hx6 : addX x6 0x20 + 0x20 = e)
    (hmax : e < 2 ^ 63) (hx7 : x7 < 2 ^ 63) : ∃ w, Ended s s' x3 x4 e x7 w := by
  simp only [swp32b, bLo_cmpX, bEq_cmpX, decide_eq_true_eq] at h
  by_cases hroom : addX x6 0x20 < x3
  · rw [if_pos hroom] at h
    have hx6' : addX (addX x6 0x20) 0x10 = e - 0x10 := addX_eq (by omega) (by omega)
    exact swp16b_ended h (by omega) (by omega) hmax hx7
  · rw [if_neg hroom] at h
    exact ⟨32, ends_ended h (by omega) (by omega) hx6 (by omega) (by omega) hx7⟩

/-! ### Areas that are too short -/

/-- The addresses of two areas. -/
def InAreas (p q n a : ℕ) : Prop := (p ≤ a ∧ a < p + n) ∨ (q ≤ a ∧ a < q + n)

instance : DecidablePred (InAreas p q n) := fun _ => inferInstanceAs (Decidable (_ ∨ _))

/-- Short areas: the routine goes on from the aligned address, with the end of the first area
for 32 bytes before it.  A run that stays within the areas does not write the first byte. -/
theorem short_first_kept (h : swp32b (p + alignDist p) (q + alignDist q) (subX (p + n) 0x20)
      (q + n) s = some (u, s')) (hin : ∀ a, s.readable a = true → InAreas p q n a)
    (hp : p + n ≤ 2 ^ 52) (hq : q + n ≤ 2 ^ 52) : s'.bytes p = s.bytes p := by
  have hdist := alignDist_pos (p := p)
  have hdist' := alignDist_pos (p := q)
  have hle := alignDist_le (p := p)
  have hx6 : addX (subX (p + n) 0x20) 0x20 = p + n := by
    rw [addX, subX]
    omega
  obtain ⟨w, hw⟩ := swp32b_ended h (e := p + n + 0x20) (by omega) (by omega) (by omega)
  have hpos := hw.pos
  have hmax := hw.le
  by_cases hone : w = 1
  · -- a single byte, beyond the first area and thus in the second
    subst hone
    have hnext := hw.next (by omega)
    have hfar := hin _ (hw.readable_fst 0 (by omega))
    simp only [InAreas] at hfar
    exact hw.kept p (by omega) (by omega) (by omega) (by omega) (by omega)
  · -- the last block begins at the end of the first area or beyond
    have hlast := hw.readable_last (by omega)
    have hbegin := hin _ (hlast 0 (by omega))
    have hend := hin _ (hlast (w - 1) (by omega))
    simp only [InAreas] at hbegin hend
    exact hw.kept p (by omega) (by omega) (by omega) (by omega) (by omega)

/-! ### Areas that begin at different distances from an aligned address -/

/-- An address `t` that a run from the cursors `x3` and `x4` on cannot write: it lies before
the cursor of the first area, and outside of what is left of the second area from `x4` on
and of the 32 bytes before its end. -/
structure OutOfReach (p q n k x4 t : ℕ) : Prop where
  left : k < n
  fst : t < p + k
  snd : t < x4 ∨ x4 + (n - k) ≤ t
  last : t + 32 < q + n ∨ q + n ≤ t

theorem swp32b_kept (hp : p + n < 2 ^ 63) (hq : q + n < 2 ^ 63) (hlow : 0x40 ≤ p + n)
    (h : swp32b (p + k) x4 (p + n - 0x40) (q + n) s = some (u, s'))
    (ht : OutOfReach p q n k x4 t) : s'.bytes t = s.bytes t := by
  obtain ⟨hleft, hfst, hsnd, hlast⟩ := ht
  have hx6 : addX (p + n - 0x40) 0x20 = p + n - 0x20 := addX_eq (by omega) (by omega)
  obtain ⟨w, hw⟩ := swp32b_ended h (e := p + n) (by omega) (by omega) (by omega)
  have hpos := hw.pos
  have hle := hw.le
  have hnext := hw.next
  have hfits := hw.fits
  exact hw.kept t (by omega) (by omega) (by omega) (by omega) (by omega)

theorem swp64b_kept (hp : p + n < 2 ^ 63) (hq : q + n < 2 ^ 63) (hlow : 0x80 ≤ p + n)
    (hx4 : x4 < 2 ^ 63) (h : swp64b (p + k) x4 (p + n - 0x80) (q + n) s = some (u, s'))
    (ht : OutOfReach p q n k x4 t) : s'.bytes t = s.bytes t := by
  obtain ⟨hleft, hfst, hsnd, hlast⟩ := ht
  have hx6 : addX (p + n - 0x80) 0x40 = p + n - 0x40 := addX_eq (by omega) (by omega)
  have hx3 : addX (p + k) 0x40 = p + (k + 0x40) := addX_eq (by omega) (by omega)
  have hx4' : addX x4 0x40 = x4 + 0x40 := addX_eq (by omega) (by omega)
  simp only [swp64b, hx6, hx3, hx4', bLo_cmpX, bEq_cmpX, decide_eq_true_eq] at h
  by_cases hroom : p + n - 0x40 < p + k
  · rw [if_pos hroom] at h
    exact swp32b_kept hp hq (by omega) h ⟨hleft, hfst, hsnd, hlast⟩
  rw [if_neg hroom] at h
  obtain ⟨s₁, hrun, -, -, hkept⟩ := swap_returns h
  rw [← hkept t (by omega) (by omega)]
  by_cases hend : p + n - 0x40 = p + k
  · rw [if_pos hend, pure_apply, Option.some.injEq, Prod.mk.injEq] at hrun
    rw [hrun.2]
  · rw [if_neg hend] at hrun
    exact swp32b_kept hp hq (by omega) hrun ⟨by omega, by omega, by omega, hlast⟩

/-- One turn of the loop. -/
theorem swp128bBody_kept (hp : p + n < 2 ^ 63) (hq : q + n < 2 ^ 63) (hlow : 0x80 ≤ p + n)
    (hx4 : x4 < 2 ^ 63) {r : ℕ × ℕ ⊕ Unit}
    (h : swp128bBody (p + n - 0x80) (q + n) (p + k, x4) s = some (r, s'))
    (ht : OutOfReach p q n k x4 t) : s'.bytes t = s.bytes t ∧
      ∀ x, r = .inl x → x = (p + (k + 0x80), x4 + 0x80) ∧ k + 0x80 < n := by
  obtain ⟨hleft, hfst, hsnd, hlast⟩ := ht
  have hx3 : addX (p + k) 0x40 = p + (k + 0x40) := addX_eq (by omega) (by omega)
  have hx3' : addX (p + (k + 0x40)) 0x40 = p + (k + 0x80) := addX_eq (by omega) (by omega)
  have hx4' : addX x4 0x40 = x4 + 0x40 := addX_eq (by omega) (by omega)
  have hx4'' : addX (x4 + 0x40) 0x40 = x4 + 0x80 := addX_eq (by omega) (by omega)
  simp only [swp128bBody, hx3, hx3', hx4', hx4'', bLo_cmpX, bHi_cmpX, decide_eq_true_eq] at h
  by_cases hroom : p + n - 0x80 < p + k
  · rw [if_pos hroom, map_eq_pure_bind] at h
    obtain ⟨_, s₁, hrun, hr⟩ := bind_eq_some.mp h
    rw [pure_apply, Option.some.injEq, Prod.mk.injEq] at hr
    obtain ⟨rfl, rfl⟩ := hr
    exact ⟨swp64b_kept hp hq hlow hx4 hrun ⟨hleft, hfst, hsnd, hlast⟩, fun x hx => by cases hx⟩
  rw [if_neg hroom] at h
  obtain ⟨s₁, hrun, -, -, hkept⟩ := swap_returns h
  obtain ⟨s₂, hrun, -, -, hkept'⟩ := swap_returns hrun
  rw [← hkept t (by omega) (by omega), ← hkept' t (by omega) (by omega)]
  by_cases hmore : p + k < p + n - 0x80
  · rw [if_pos hmore, pure_apply, Option.some.injEq, Prod.mk.injEq] at hrun
    obtain ⟨rfl, rfl⟩ := hrun
    exact ⟨rfl, fun x hx => ⟨(Sum.inl.inj hx).symm, by omega⟩⟩
  · rw [if_neg hmore, pure_apply, Option.some.injEq, Prod.mk.injEq] at hrun
    obtain ⟨rfl, rfl⟩ := hrun
    exact ⟨rfl, fun x hx => by cases hx⟩

/-- The whole loop. -/
theorem swp128b_kept (hp : p + n ≤ 2 ^ 52) (hq : q + n ≤ 2 ^ 52) (hlow : 0x80 ≤ p + n) {fuel : ℕ}
    (h : fuelLoop (swp128bBody (p + n - 0x80) (q + n)) fuel (p + k, x4) s = some (u, s'))
    (hx4 : x4 ≤ q + k + 32) (ht : OutOfReach p q n k x4 t) : s'.bytes t = s.bytes t := by
  refine fuelLoop_partial (I := fun x s₁ => ∃ k x4, x = (p + k, x4) ∧ x4 ≤ q + k + 32 ∧
    OutOfReach p q n k x4 t ∧ s₁.bytes t = s.bytes t) (Q := fun _ s₁ => s₁.bytes t = s.bytes t)
    ?_ fuel _ _ _ _ ⟨k, x4, rfl, hx4, ht, rfl⟩ h
  rintro _ s₁ r s₂ ⟨k, x4, rfl, hx4, ht, hsame⟩ hbody
  have hleft := ht.left
  obtain ⟨hkept, hnext⟩ :=
    swp128bBody_kept (by omega) (by omega) hlow (by omega) hbody ht
  rcases r with x | r
  · obtain ⟨rfl, hmore⟩ := hnext x rfl
    obtain ⟨-, hfst, hsnd, hlast⟩ := ht
    exact ⟨k + 0x80, x4 + 0x80, rfl, by omega, ⟨hmore, by omega, by omega, hlast⟩,
      hkept.trans hsame⟩
  · exact hkept.trans hsame

/-- What a run of the head leaves. -/
theorem swpHead_eq_some (h : swpHead p q x3 x4 s = some (u, s')) :
    s' = (((s.write 32 p (s.lanes 32 q)).write 32 q (s.lanes 32 p)).write 32 x3
      (s.lanes 32 x4)).write 32 x4 (s.lanes 32 x3) := by
  obtain ⟨v0, _, hload, h⟩ := bind_eq_some.mp h
  obtain ⟨-, rfl, rfl⟩ := load_eq_some.mp hload
  obtain ⟨v16, _, hload, h⟩ := bind_eq_some.mp h
  obtain ⟨-, rfl, rfl⟩ := load_eq_some.mp hload
  obtain ⟨v2, _, hload, h⟩ := bind_eq_some.mp h
  obtain ⟨-, rfl, rfl⟩ := load_eq_some.mp hload
  obtain ⟨v18, _, hload, h⟩ := bind_eq_some.mp h
  obtain ⟨-, rfl, rfl⟩ := load_eq_some.mp hload
  obtain ⟨_, _, hstore, h⟩ := bind_eq_some.mp h
  obtain ⟨-, rfl⟩ := store_eq_some.mp hstore
  obtain ⟨_, _, hstore, h⟩ := bind_eq_some.mp h
  obtain ⟨-, rfl⟩ := store_eq_some.mp hstore
  obtain ⟨_, _, hstore, h⟩ := bind_eq_some.mp h
  obtain ⟨-, rfl⟩ := store_eq_some.mp hstore
  obtain ⟨-, rfl⟩ := store_eq_some.mp h
  rfl

theorem swpHead_readable (h : swpHead p q x3 x4 s = some (u, s')) : s'.readable = s.readable := by
  rw [swpHead_eq_some h]
  rfl

/-- The last byte that the head of the exchange writes to the first area. -/
theorem swpHead_last (h : swpHead p q x3 x4 s = some (u, s'))
    (ht : x3 + 31 < x4 ∨ x4 + 32 ≤ x3 + 31) : s'.bytes (x3 + 31) = s.bytes (x4 + 31) := by
  rw [swpHead_eq_some h, write_outside (by omega), write_at (by omega), lanes_of_lt (by omega)]

/-- A byte of the first area, and the byte of the second area that it receives. -/
theorem long_shifted (hp : p + n ≤ 2 ^ 52) (hq : q + n ≤ 2 ^ 52) (hapart : p + n ≤ q ∨ q + n ≤ p)
    (hlow : 0x80 ≤ p + n) (hn : alignDist p + 32 < n) {fuel : ℕ}
    (h : advsimdMemswp p q n fuel s = some (u, s')) :
    s'.bytes (p + alignDist p + 31) = s.bytes (q + alignDist q + 31) := by
  have hpos := alignDist_pos (p := p)
  have hle := alignDist_le (p := q)
  have hx6 : subX (p + n - 0x20) 0x60 = p + n - 0x80 := subX_eq (by omega) (by omega)
  rw [advsimdMemswp_long hp hq hn, hx6, Nat.add_assoc p] at h
  obtain ⟨_, s₁, hhead, hloop⟩ := bind_eq_some.mp h
  rw [← swpHead_last hhead (by omega)]
  exact swp128b_kept hp hq hlow hloop (by omega) ⟨hn, by omega, by omega, by omega⟩

/-! ### Areas at the lowest addresses -/

/-- One turn of the loop when its limit has fallen below zero: it goes on. -/
theorem low_turn (hx6 : 2 ^ 63 < x6) (hx3 : x3 ≤ 2 ^ 63)
    (hin : ∀ a, s.readable a = true → a < 2 ^ 63) {r : ℕ × ℕ ⊕ Unit}
    (h : swp128bBody x6 x7 (x3, x4) s = some (r, s')) :
    s'.readable = s.readable ∧ ∃ x, r = .inl x ∧ x.1 ≤ 2 ^ 63 := by
  have hx3' : addX x3 0x40 = x3 + 0x40 := addX_eq rfl (by omega)
  have hx3'' : addX (x3 + 0x40) 0x40 = x3 + 0x80 := addX_eq (by omega) (by omega)
  simp only [swp128bBody, hx3', hx3'', bLo_cmpX, bHi_cmpX, decide_eq_true_eq] at h
  rw [if_neg (show ¬ x6 < x3 by omega)] at h
  obtain ⟨s₁, hrun, -, hread, -⟩ := swap_returns h
  obtain ⟨s₂, hrun, hlast, hread', -⟩ := swap_returns hrun
  rw [if_pos (show x3 < x6 by omega), pure_apply, Option.some.injEq, Prod.mk.injEq] at hrun
  obtain ⟨rfl, rfl⟩ := hrun
  have hend := hlast 0x3f (by omega)
  rw [hread] at hend
  have hbound := hin _ hend
  exact ⟨hread'.trans hread, _, rfl, by omega⟩

/-- With its limit below zero, the loop does not return. -/
theorem low_fails (hp : p + n < 0x80) (hq : q + n ≤ 2 ^ 52) (hn : alignDist p + 32 < n)
    (hin : ∀ a, s.readable a = true → a < 2 ^ 63) {fuel : ℕ} :
    advsimdMemswp p q n fuel s ≠ some (u, s') := by
  intro h
  have hx6 : subX (p + n - 0x20) 0x60 = 2 ^ 64 + (p + n - 0x20) - 0x60 :=
    subX_wrap (by omega) (by omega)
  rw [advsimdMemswp_long (by omega) hq hn, hx6] at h
  obtain ⟨_, s₁, hhead, hloop⟩ := bind_eq_some.mp h
  have hread : s₁.readable = s.readable := swpHead_readable hhead
  refine fuelLoop_partial (I := fun x s₂ => x.1 ≤ 2 ^ 63 ∧ s₂.readable = s.readable)
    (Q := fun _ _ => False) ?_ fuel _ _ _ _ ⟨by omega, hread⟩ hloop
  rintro ⟨x3, x4⟩ s₂ r s₃ ⟨hx3, hsame⟩ hbody
  obtain ⟨hsame', x, rfl, hx⟩ := low_turn (by omega) hx3 (by rwa [hsame]) hbody
  exact ⟨hx, hsame'.trans hsame⟩

/-! ### All lengths and addresses -/

/-- A space with a byte `1` at `m` and zeros elsewhere. -/
def markSpace (access : ℕ → Bool) (m : ℕ) : Space where
  bytes := fun a => if a = m then 1 else 0
  readable := access
  writable := access

theorem userArea_markSpace {access : ℕ → Bool} {m : ℕ} (hapart : p + n ≤ q ∨ q + n ≤ p)
    (hp : p + n ≤ 2 ^ 52) (hq : q + n ≤ 2 ^ 52) (hin : ∀ a, InAreas p q n a → access a = true) :
    UserArea (markSpace access m) p q n :=
  ⟨⟨fun i hi => hin _ (.inl ⟨by omega, by omega⟩), fun i hi => hin _ (.inl ⟨by omega, by omega⟩),
    fun i hi => hin _ (.inr ⟨by omega, by omega⟩), fun i hi => hin _ (.inr ⟨by omega, by omega⟩),
    hapart⟩, hp, hq⟩

/-- Short areas, in a memory of nothing but them. -/
theorem short_fails (hp : p + n ≤ 2 ^ 52) (hq : q + n ≤ 2 ^ 52) (hpq : p ≠ q) (h0 : n ≠ 0)
    (hn : n ≤ alignDist p + 32) : ¬ Total (advsimdMemswp p q n)
      (fun _ s' => SwapDone (markSpace (fun a => InAreas p q n a) p) p q n s')
      (markSpace (fun a => InAreas p q n a) p) := by
  rintro ⟨u, s', ⟨fuel, hrun⟩, hdone⟩
  have hlast := hrun fuel (Nat.le_refl _)
  rw [advsimdMemswp_short hp hq h0 hn] at hlast
  have hkept := short_first_kept hlast (fun a ha => of_decide_eq_true ha) hp hq
  have hfst := hdone.fst 0 (by omega)
  rw [Nat.add_zero, Nat.add_zero, hkept] at hfst
  simp [markSpace, hpq.symm] at hfst

/-- Areas at different distances from an aligned address, with a `1` in the second. -/
theorem shifted_fails (hp : p + n ≤ 2 ^ 52) (hq : q + n ≤ 2 ^ 52)
    (hapart : p + n ≤ q ∨ q + n ≤ p) (hlow : 0x80 ≤ p + n) (hn : alignDist p + 32 < n)
    (hpq : alignDist p ≠ alignDist q) : ¬ Total (advsimdMemswp p q n)
      (fun _ s' => SwapDone (markSpace (fun _ => true) (q + (alignDist p + 31))) p q n s')
      (markSpace (fun _ => true) (q + (alignDist p + 31))) := by
  rintro ⟨u, s', ⟨fuel, hrun⟩, hdone⟩
  have hlast := hrun fuel (Nat.le_refl _)
  have hgot := long_shifted hp hq hapart hlow hn hlast
  have hfst := hdone.fst (alignDist p + 31) (by omega)
  rw [← Nat.add_assoc, hgot] at hfst
  simp [markSpace, show q + alignDist q + 31 ≠ q + (alignDist p + 31) by omega] at hfst

/-- `cldm_advsimd_memswp` exchanges the areas and changes no other byte, whatever they hold,
just when there is nothing to exchange, or when the areas begin at the same distance from an
aligned address, have more than 32 bytes from there on and do not end in the first 128 bytes
of memory. -/
theorem advsimd_memswp_correct (hapart : p + n ≤ q ∨ q + n ≤ p) (hp : p + n ≤ 2 ^ 52)
    (hq : q + n ≤ 2 ^ 52) :
    (∀ s, UserArea s p q n →
      Total (advsimdMemswp p q n) (fun _ s' => SwapDone s p q n s') s) ↔
      n = 0 ∨ (alignDist p = alignDist q ∧ alignDist p + 32 < n ∧ 128 ≤ p + n) := by
  constructor
  · intro hall
    by_contra hno
    simp only [not_or, not_and_or, Nat.not_le, Nat.not_lt] at hno
    obtain ⟨h0, hno⟩ := hno
    by_cases hshort : n ≤ alignDist p + 32
    · exact short_fails hp hq (by omega) h0 hshort
        (hall _ (userArea_markSpace hapart hp hq fun a ha => decide_eq_true ha))
    by_cases hlow : p + n < 0x80
    · have harea : UserArea (markSpace (fun a => InAreas p q n a) p) p q n :=
        userArea_markSpace hapart hp hq fun a ha => decide_eq_true ha
      obtain ⟨u, s', ⟨fuel, hrun⟩, -⟩ := hall _ harea
      refine low_fails hlow hq (by omega) (fun a ha => ?_) (hrun fuel (Nat.le_refl _))
      have hin : InAreas p q n a := of_decide_eq_true ha
      simp only [InAreas] at hin
      omega
    · exact shifted_fails hp hq hapart (by omega) (by omega) (by omega)
        (hall _ (userArea_markSpace hapart hp hq fun _ _ => rfl))
  · rintro (rfl | ⟨hpq, hn, hlow⟩) s h
    · have hdone := h.done
      rw [exchanged_zero] at hdone
      exact ⟨(), s, ⟨0, fun m _ => rfl⟩, hdone⟩
    · refine (total_advsimdMemswp h hpq hn hlow).mono ?_
      rintro u s' rfl
      exact h.done

/-- An exchange of a hundred bytes between aligned addresses. -/
theorem advsimd_memswp_correct_hundred :
    UserArea (markSpace (fun _ => true) 0x2040) 0x1000 0x2000 100 ∧
    Total (advsimdMemswp 0x1000 0x2000 100)
      (fun _ s' => SwapDone (markSpace (fun _ => true) 0x2040) 0x1000 0x2000 100 s')
      (markSpace (fun _ => true) 0x2040) :=
  have h := userArea_markSpace (.inl (by decide)) (by decide) (by decide) fun _ _ => rfl
  ⟨h, (advsimd_memswp_correct (.inl (by decide)) (by decide) (by decide)).mpr
    (.inr ⟨by decide, by decide, by decide⟩) _ h⟩

/-- A hundred bytes at an aligned address and one byte after another. -/
theorem advsimd_memswp_shifted :
    UserArea (markSpace (fun _ => true) 0x2040) 0x1000 0x2001 100 ∧
    ¬ Total (advsimdMemswp 0x1000 0x2001 100)
      (fun _ s' => SwapDone (markSpace (fun _ => true) 0x2040) 0x1000 0x2001 100 s')
      (markSpace (fun _ => true) 0x2040) :=
  ⟨userArea_markSpace (.inl (by decide)) (by decide) (by decide) fun _ _ => rfl,
    shifted_fails (by decide) (by decide) (.inl (by decide)) (by decide) (by decide) (by decide)⟩

end Aarch64

end Cldm
