/-
The AVX2 exchange of memory areas.

`avx2Memswp` is `cldm_avx2_memswp`, with a definition for each label of the assembly
source (`vzeroupper`, on which no result depends, is left out, as is the offset that
`.Lswp8b_unaligned` computes and nothing reads).

From the first aligned address on, the routine exchanges blocks of 128 bytes, then
one of 64, and ends with two blocks of the largest size that still fits, which may
overlap.  At each label the first `k` bytes of both areas are exchanged, and the
cursor `rax` is the end of a block that begins there (`Space.exchanged`).  Short areas
take a cascade of their own, which ends in a byte that is exchanged without a check:

* `avx2_memswp_correct` — for every length, the areas are exchanged and nothing else
  is changed if and only if there is a byte to exchange, or the bytes at the two
  addresses may be exchanged and are the same.
-/
import Cldm.Avx2
import Cldm.Exchange

namespace Cldm

open Prog Space Avx2

/-! ### The routine -/

/-- `.Lswp1b` -/
def swp1b (rdi rsi rax : ℕ) : Prog Space Unit := do
  let rax := subq 0x01 rax
  let ecx ← movzxb (ea (rdi + rax - 0x01))
  let r8d ← movzxb (ea (rsi + rax - 0x01))
  movb r8d (ea (rdi + rax - 0x01))
  movb ecx (ea (rsi + rax - 0x01))
  return

/-- `.Lswp2b` -/
def swp2b (rdi rsi rdx rax : ℕ) : Prog Space Unit :=
  let rax := subq 0x02 rax
  let fl := cmpq rax rdx
  if jb fl then swp1b rdi rsi rax else do
  let ecx ← movzxb (ea (rdi + rax - 0x02))
  let r8d ← movzxb (ea (rsi + rax - 0x02))
  movb r8d (ea (rdi + rax - 0x02))
  movb ecx (ea (rsi + rax - 0x02))
  let ecx ← movzxb (ea (rdi + rax - 0x01))
  let r8d ← movzxb (ea (rsi + rax - 0x01))
  movb r8d (ea (rdi + rax - 0x01))
  movb ecx (ea (rsi + rax - 0x01))
  if je fl then return else
  let rax := ea (rax + 0x02)
  swp1b rdi rsi rax

/-- `.Lswp4b` -/
def swp4b (rdi rsi rdx rax : ℕ) : Prog Space Unit :=
  let rax := subq 0x04 rax
  let fl := cmpq rax rdx
  if jb fl then swp2b rdi rsi rdx rax else do
  let xmm0 ← vmovd (ea (rdi + rax - 0x04))
  let xmm1 ← vmovd (ea (rsi + rax - 0x04))
  let xmm2 ← vmovd (ea (rdi + rdx - 0x04))
  let xmm3 ← vmovd (ea (rsi + rdx - 0x04))
  vmovdTo xmm1 (ea (rdi + rax - 0x04))
  vmovdTo xmm0 (ea (rsi + rax - 0x04))
  if je fl then return else
  vmovdTo xmm3 (ea (rdi + rdx - 0x04))
  vmovdTo xmm2 (ea (rsi + rdx - 0x04))
  return

/-- `.Lswp8b` -/
def swp8b (rdi rsi rdx rax : ℕ) : Prog Space Unit :=
  let rax := subq 0x08 rax
  let fl := cmpq rax rdx
  if jb fl then swp4b rdi rsi rdx rax else do
  let xmm0 ← vmovq (ea (rdi + rax - 0x08))
  let xmm1 ← vmovq (ea (rsi + rax - 0x08))
  let xmm2 ← vmovq (ea (rdi + rdx - 0x08))
  let xmm3 ← vmovq (ea (rsi + rdx - 0x08))
  vmovqTo xmm1 (ea (rdi + rax - 0x08))
  vmovqTo xmm0 (ea (rsi + rax - 0x08))
  if je fl then return else
  vmovqTo xmm3 (ea (rdi + rdx - 0x08))
  vmovqTo xmm2 (ea (rsi + rdx - 0x08))
  return

/-- `.Lswp16b` -/
def swp16b (rdi rsi rdx rax : ℕ) : Prog Space Unit :=
  let rax := subq 0x10 rax
  let fl := cmpq rax rdx
  if jb fl then swp8b rdi rsi rdx rax else do
  let xmm0 ← vmovdqa xmm (ea (rdi + rax - 0x10))
  let xmm1 ← vmovdqu xmm (ea (rsi + rax - 0x10))
  let xmm2 ← vmovdqu xmm (ea (rdi + rdx - 0x10))
  let xmm3 ← vmovdqu xmm (ea (rsi + rdx - 0x10))
  vmovdqaTo xmm xmm1 (ea (rdi + rax - 0x10))
  vmovdquTo xmm xmm0 (ea (rsi + rax - 0x10))
  if je fl then return else
  vmovdquTo xmm xmm3 (ea (rdi + rdx - 0x10))
  vmovdquTo xmm xmm2 (ea (rsi + rdx - 0x10))
  return

/-- `.Lswp32b` -/
def swp32b (rdi rsi rdx rax : ℕ) : Prog Space Unit :=
  let rax := subq 0x20 rax
  let fl := cmpq rax rdx
  if jb fl then swp16b rdi rsi rdx rax else do
  let ymm0 ← vmovdqa ymm (ea (rdi + rax - 0x20))
  let ymm1 ← vmovdqu ymm (ea (rsi + rax - 0x20))
  let ymm2 ← vmovdqu ymm (ea (rdi + rdx - 0x20))
  let ymm3 ← vmovdqu ymm (ea (rsi + rdx - 0x20))
  vmovdqaTo ymm ymm1 (ea (rdi + rax - 0x20))
  vmovdquTo ymm ymm0 (ea (rsi + rax - 0x20))
  if je fl then return else
  vmovdquTo ymm ymm3 (ea (rdi + rdx - 0x20))
  vmovdquTo ymm ymm2 (ea (rsi + rdx - 0x20))
  return

/-- `.Lswp64b` -/
def swp64b (rdi rsi rdx rax : ℕ) : Prog Space Unit :=
  let rax := subq 0x40 rax
  let fl := cmpq rax rdx
  if jb fl then swp32b rdi rsi rdx rax else do
  let ymm0 ← vmovdqa ymm (ea (rdi + rax - 0x40))
  let ymm1 ← vmovdqu ymm (ea (rsi + rax - 0x40))
  vmovdqaTo ymm ymm1 (ea (rdi + rax - 0x40))
  vmovdquTo ymm ymm0 (ea (rsi + rax - 0x40))
  let ymm2 ← vmovdqa ymm (ea (rdi + rax - 0x20))
  let ymm3 ← vmovdqu ymm (ea (rsi + rax - 0x20))
  vmovdqaTo ymm ymm3 (ea (rdi + rax - 0x20))
  vmovdquTo ymm ymm2 (ea (rsi + rax - 0x20))
  if je fl then return else
  let rax := ea (rax + 0x40)
  swp32b rdi rsi rdx rax

/-- `.Lswp128b`, once around -/
def swp128bBody (rdi rsi rdx rax : ℕ) : Prog Space (ℕ ⊕ Unit) :=
  let fl := cmpq rax rdx
  if jb fl then .inr <$> swp64b rdi rsi rdx rax else do
  let ymm0 ← vmovdqa ymm (ea (rdi + rax - 0x80))
  let ymm1 ← vmovdqu ymm (ea (rsi + rax - 0x80))
  vmovdqaTo ymm ymm1 (ea (rdi + rax - 0x80))
  vmovdquTo ymm ymm0 (ea (rsi + rax - 0x80))
  let ymm2 ← vmovdqa ymm (ea (rdi + rax - 0x60))
  let ymm3 ← vmovdqu ymm (ea (rsi + rax - 0x60))
  vmovdqaTo ymm ymm3 (ea (rdi + rax - 0x60))
  vmovdquTo ymm ymm2 (ea (rsi + rax - 0x60))
  let ymm3 ← vmovdqa ymm (ea (rdi + rax - 0x40))
  let ymm4 ← vmovdqu ymm (ea (rsi + rax - 0x40))
  vmovdqaTo ymm ymm4 (ea (rdi + rax - 0x40))
  vmovdquTo ymm ymm3 (ea (rsi + rax - 0x40))
  let ymm5 ← vmovdqa ymm (ea (rdi + rax - 0x20))
  let ymm6 ← vmovdqu ymm (ea (rsi + rax - 0x20))
  vmovdqaTo ymm ymm6 (ea (rdi + rax - 0x20))
  vmovdquTo ymm ymm5 (ea (rsi + rax - 0x20))
  let rax := ea (rax + 0x80)
  if ja fl then return .inl rax else return .inr ()

/-- `.Lswp1b_unaligned` -/
def swp1bUnaligned (rdi rsi rax : ℕ) : Prog Space Unit := do
  let ecx ← movzxb (ea (rdi + rax))
  let r8d ← movzxb (ea (rsi + rax))
  movb r8d (ea (rdi + rax))
  movb ecx (ea (rsi + rax))
  return

/-- `.Lswp2b_unaligned` -/
def swp2bUnaligned (rdi rsi rdx : ℕ) : Prog Space Unit :=
  let eax := 0
  let fl := cmpl 0x02 rdx
  if jb fl then swp1bUnaligned rdi rsi eax else do
  let ecx ← movzxb (ea rdi)
  let r8d ← movzxb (ea rsi)
  movb r8d (ea rdi)
  movb ecx (ea rsi)
  let ecx ← movzxb (ea (rdi + 0x01))
  let r8d ← movzxb (ea (rsi + 0x01))
  movb r8d (ea (rdi + 0x01))
  movb ecx (ea (rsi + 0x01))
  if je fl then return else
  let eax := leal (eax + 0x02)
  swp1bUnaligned rdi rsi eax

/-- `.Lswp4b_unaligned` -/
def swp4bUnaligned (rdi rsi rdx : ℕ) : Prog Space Unit :=
  let fl := cmpl 0x04 rdx
  if jb fl then swp2bUnaligned rdi rsi rdx else do
  let xmm0 ← vmovd (ea rdi)
  let xmm1 ← vmovd (ea rsi)
  let xmm2 ← vmovd (ea (rdi + rdx - 0x04))
  let xmm3 ← vmovd (ea (rsi + rdx - 0x04))
  vmovdTo xmm1 (ea rdi)
  vmovdTo xmm0 (ea rsi)
  if je fl then return else
  vmovdTo xmm3 (ea (rdi + rdx - 0x04))
  vmovdTo xmm2 (ea (rsi + rdx - 0x04))
  return

/-- `.Lswp8b_unaligned` -/
def swp8bUnaligned (rdi rsi rdx : ℕ) : Prog Space Unit :=
  let fl := cmpl 0x08 rdx
  if jb fl then swp4bUnaligned rdi rsi rdx else do
  let xmm0 ← vmovq (ea rdi)
  let xmm1 ← vmovq (ea rsi)
  let xmm2 ← vmovq (ea (rdi + rdx - 0x08))
  let xmm3 ← vmovq (ea (rsi + rdx - 0x08))
  vmovqTo xmm1 (ea rdi)
  vmovqTo xmm0 (ea rsi)
  if je fl then return else
  vmovqTo xmm3 (ea (rdi + rdx - 0x08))
  vmovqTo xmm2 (ea (rsi + rdx - 0x08))
  return

/-- `.Lswp16b_unaligned` -/
def swp16bUnaligned (rdi rsi rdx : ℕ) : Prog Space Unit :=
  let fl := cmpl 0x10 rdx
  if jb fl then swp8bUnaligned rdi rsi rdx else do
  let xmm0 ← vmovdqu xmm (ea rdi)
  let xmm1 ← vmovdqu xmm (ea rsi)
  let xmm2 ← vmovdqu xmm (ea (rdi + rdx - 0x10))
  let xmm3 ← vmovdqu xmm (ea (rsi + rdx - 0x10))
  vmovdquTo xmm xmm1 (ea rdi)
  vmovdquTo xmm xmm0 (ea rsi)
  if je fl then return else
  vmovdquTo xmm xmm3 (ea (rdi + rdx - 0x10))
  vmovdquTo xmm xmm2 (ea (rsi + rdx - 0x10))
  return

/-- `.Lswp32b_unaligned` -/
def swp32bUnaligned (rdi rsi rdx : ℕ) : Prog Space Unit :=
  let fl := cmpl 0x20 rdx
  if jb fl then swp16bUnaligned rdi rsi rdx else do
  let ymm0 ← vmovdqu ymm (ea rdi)
  let ymm1 ← vmovdqu ymm (ea rsi)
  let ymm2 ← vmovdqu ymm (ea (rdi + rdx - 0x20))
  let ymm3 ← vmovdqu ymm (ea (rsi + rdx - 0x20))
  vmovdquTo ymm ymm1 (ea rdi)
  vmovdquTo ymm ymm0 (ea rsi)
  if je fl then return else
  vmovdquTo ymm ymm3 (ea (rdi + rdx - 0x20))
  vmovdquTo ymm ymm2 (ea (rsi + rdx - 0x20))
  return

/-- `cldm_avx2_memswp`: `rdi` and `rsi` are the areas and `rdx` is the number of bytes. -/
def avx2Memswp (rdi rsi rdx fuel : ℕ) : Prog Space Unit :=
  let rax := ea (rdi + 0x20)
  let rax := andq (imm (-0x20)) rax
  let rax := subq rdi rax
  let rcx := ea (rax + 0x20)
  let fl := cmpq rcx rdx
  if jna fl then swp32bUnaligned rdi rsi rdx else do
  let ymm0 ← vmovdqu ymm (ea rdi)
  let ymm1 ← vmovdqu ymm (ea rsi)
  let ymm2 ← vmovdqa ymm (ea (rdi + rax))
  let ymm3 ← vmovdqu ymm (ea (rsi + rax))
  vmovdquTo ymm ymm1 (ea rdi)
  vmovdquTo ymm ymm0 (ea rsi)
  vmovdqaTo ymm ymm3 (ea (rdi + rax))
  vmovdquTo ymm ymm2 (ea (rsi + rax))
  let rax := ea (rax + 0xa0)
  fuelLoop (swp128bBody rdi rsi rdx) fuel rax

/-! ### Blocks -/

variable {s : Space} {p q n k w : ℕ}

/-- Two areas of `n` bytes that may be exchanged, in the lower half of the address space. -/
structure MemswpArea (s : Space) (p q n : ℕ) : Prop extends SwapArea s p q n where
  fst_le : p + n ≤ 2 ^ 63
  snd_le : q + n ≤ 2 ^ 63

/-- A block at an aligned address of the first area. -/
theorem MemswpArea.block (h : MemswpArea s p q n) {x y : ℤ} (hx : x = p + k) (hy : y = q + k)
    (hal : (p + k) % w = 0) (hn : k + w ≤ n) {γ : Type} {f : Prog Space γ}
    {P : γ → Space → Prop} (hf : wp f P (s.exchanged p q (k + w) (k + w))) :
    wp (do
      let v ← vmovdqa w (ea x)
      let v' ← vmovdqu w (ea y)
      vmovdqaTo w v' (ea x)
      vmovdquTo w v (ea y)
      f) P (s.exchanged p q k k) := by
  have hfst := h.fst_le
  have hsnd := h.snd_le
  have hxk : ea x = p + k := ea_eq (by omega) (by omega)
  have hyk : ea y = q + k := ea_eq (by omega) (by omega)
  simp only [hxk, hyk, vmovdqa_of_aligned hal, vmovdqaTo_of_aligned hal]
  exact h.swap hn hf

/-- The next block and the last one, without any alignment. -/
theorem MemswpArea.ends (h : MemswpArea s p q n) {x y x' y' : ℤ} (hx : x = p + k) (hy : y = q + k)
    (hx' : x' + w = p + n) (hy' : y' + w = q + n) (hk : k + w ≤ n) (hn : n ≤ k + w + w)
    {c : Prop} [Decidable c] (hc : c → k + w = n) :
    wp (do
      let v₀ ← Space.load w (ea x)
      let v₁ ← Space.load w (ea y)
      let v₂ ← Space.load w (ea x')
      let v₃ ← Space.load w (ea y')
      Space.store w (ea x) v₁
      Space.store w (ea y) v₀
      if c then return else do
      Space.store w (ea x') v₃
      Space.store w (ea y') v₂
      return) (fun _ s' => s' = s.exchanged p q n n) (s.exchanged p q k k) := by
  have hfst := h.fst_le
  have hsnd := h.snd_le
  have hxk : ea x = p + k := ea_eq (by omega) (by omega)
  have hyk : ea y = q + k := ea_eq (by omega) (by omega)
  have hxn : ea x' = p + (n - w) := ea_eq (by omega) (by omega)
  have hyn : ea y' = q + (n - w) := ea_eq (by omega) (by omega)
  rw [hxk, hyk, hxn, hyn]
  have hpure : wp (pure ()) (fun _ s' => s' = s.exchanged p q n n) (s.exchanged p q n n) :=
    (wp_pure _ _ _).mpr rfl
  exact h.swapEnds hk hn hc hpure hpure

/-- The next block, at an aligned address, and the last one. -/
theorem MemswpArea.endsAligned (h : MemswpArea s p q n) {x y x' y' : ℤ} (hx : x = p + k)
    (hy : y = q + k) (hx' : x' + w = p + n) (hy' : y' + w = q + n) (hal : (p + k) % w = 0)
    (hk : k + w ≤ n) (hn : n ≤ k + w + w) {c : Prop} [Decidable c] (hc : c → k + w = n) :
    wp (do
      let v₀ ← vmovdqa w (ea x)
      let v₁ ← vmovdqu w (ea y)
      let v₂ ← vmovdqu w (ea x')
      let v₃ ← vmovdqu w (ea y')
      vmovdqaTo w v₁ (ea x)
      vmovdquTo w v₀ (ea y)
      if c then return else do
      vmovdquTo w v₃ (ea x')
      vmovdquTo w v₂ (ea y')
      return) (fun _ s' => s' = s.exchanged p q n n) (s.exchanged p q k k) := by
  have hfst := h.fst_le
  have hxk : ea x = p + k := ea_eq (by omega) (by omega)
  have halx : ea x % w = 0 := by rw [hxk, hal]
  simp only [vmovdqa_of_aligned halx, vmovdqaTo_of_aligned halx]
  exact h.ends hx hy hx' hy' hk hn hc

/-- The next byte, through general registers. -/
theorem MemswpArea.byte (h : MemswpArea s p q n) {x y : ℤ} (hx : x = p + k) (hy : y = q + k)
    (hn : k + 1 ≤ n) {γ : Type} {f : Prog Space γ} {P : γ → Space → Prop}
    (hf : wp f P (s.exchanged p q (k + 1) (k + 1))) :
    wp (do
      let r ← movzxb (ea x)
      let r' ← movzxb (ea y)
      movb r' (ea x)
      movb r (ea y)
      f) P (s.exchanged p q k k) := by
  have hfst := h.fst_le
  have hsnd := h.snd_le
  have hxk : ea x = p + k := ea_eq (by omega) (by omega)
  have hyk : ea y = q + k := ea_eq (by omega) (by omega)
  have hbyte : ∀ (a : ℕ) (i : ℕ), i < 1 → UInt8.ofNat (s.lanes 1 a 0).toNat = s.bytes (a + i) := by
    intro a i hi
    obtain rfl : i = 0 := by omega
    rw [UInt8.ofNat_toNat, lanes_of_lt hi]
  simp only [hxk, hyk, movzxb, movb]
  rw [wp_bind, wp_bind, h.load_fst (by omega) hn (by omega), wp_pure, wp_bind, wp_bind,
    h.load_snd (by omega) hn (by omega), wp_pure, wp_bind,
    h.store_fst (by omega) (by omega) hn (hbyte _), wp_bind,
    h.store_snd (by omega) (by omega) hn hn (hbyte _)]
  exact hf

/-! ### From the first aligned address on -/

theorem wp_swp1b (h : MemswpArea s p q n) (hn : n = k + 1) :
    wp (swp1b p q (k + 0x02)) (fun _ s' => s' = s.exchanged p q n n) (s.exchanged p q k k) := by
  have hfst := h.fst_le
  subst hn
  have hrax : subq 0x01 (k + 0x02) = k + 0x01 := subq_eq (by omega) (by omega)
  simp only [swp1b, hrax]
  exact h.byte (by omega) (by omega) (by omega) ((wp_pure _ _ _).mpr rfl)

theorem wp_swp2b (h : MemswpArea s p q n) (hk : k < n) (hn : n < k + 0x04) :
    wp (swp2b p q n (k + 0x04)) (fun _ s' => s' = s.exchanged p q n n) (s.exchanged p q k k) := by
  have hfst := h.fst_le
  have hrax : subq 0x02 (k + 0x04) = k + 0x02 := subq_eq (by omega) (by omega)
  simp only [swp2b, hrax, jb_cmpq, je_cmpq, decide_eq_true_eq]
  by_cases hroom : n < k + 0x02
  · rw [if_pos hroom]
    exact wp_swp1b h (by omega)
  rw [if_neg hroom]
  refine h.byte (by omega) (by omega) (by omega) ?_
  refine h.byte (by omega) (by omega) (by omega) ?_
  by_cases hend : n = k + 0x02
  · rw [if_pos hend, wp_pure, hend]
  · rw [if_neg hend, ea_eq (a := k + 1 + 1 + 0x02) (by omega) (by omega)]
    exact wp_swp1b h (by omega)

theorem wp_swp4b (h : MemswpArea s p q n) (hk : k < n) (hn : n < k + 0x08) :
    wp (swp4b p q n (k + 0x08)) (fun _ s' => s' = s.exchanged p q n n) (s.exchanged p q k k) := by
  have hfst := h.fst_le
  have hrax : subq 0x04 (k + 0x08) = k + 0x04 := subq_eq (by omega) (by omega)
  simp only [swp4b, hrax, jb_cmpq, je_cmpq, decide_eq_true_eq]
  by_cases hroom : n < k + 0x04
  · rw [if_pos hroom]
    exact wp_swp2b h hk hroom
  rw [if_neg hroom]
  exact h.ends (by omega) (by omega) (by omega) (by omega) (by omega) (by omega) (by omega)

theorem wp_swp8b (h : MemswpArea s p q n) (hk : k < n) (hn : n < k + 0x10) :
    wp (swp8b p q n (k + 0x10)) (fun _ s' => s' = s.exchanged p q n n) (s.exchanged p q k k) := by
  have hfst := h.fst_le
  have hrax : subq 0x08 (k + 0x10) = k + 0x08 := subq_eq (by omega) (by omega)
  simp only [swp8b, hrax, jb_cmpq, je_cmpq, decide_eq_true_eq]
  by_cases hroom : n < k + 0x08
  · rw [if_pos hroom]
    exact wp_swp4b h hk hroom
  rw [if_neg hroom]
  exact h.ends (by omega) (by omega) (by omega) (by omega) (by omega) (by omega) (by omega)

theorem wp_swp16b (h : MemswpArea s p q n) (hal : (p + k) % 32 = 0) (hk : k < n)
    (hn : n < k + 0x20) :
    wp (swp16b p q n (k + 0x20)) (fun _ s' => s' = s.exchanged p q n n) (s.exchanged p q k k) := by
  have hfst := h.fst_le
  have hrax : subq 0x10 (k + 0x20) = k + 0x10 := subq_eq (by omega) (by omega)
  simp only [swp16b, hrax, jb_cmpq, je_cmpq, decide_eq_true_eq, xmm]
  by_cases hroom : n < k + 0x10
  · rw [if_pos hroom]
    exact wp_swp8b h hk hroom
  rw [if_neg hroom]
  exact h.endsAligned (by omega) (by omega) (by omega) (by omega) (by omega) (by omega) (by omega)
    (by omega)

theorem wp_swp32b (h : MemswpArea s p q n) (hal : (p + k) % 32 = 0) (hk : k < n)
    (hn : n < k + 0x40) :
    wp (swp32b p q n (k + 0x40)) (fun _ s' => s' = s.exchanged p q n n) (s.exchanged p q k k) := by
  have hfst := h.fst_le
  have hrax : subq 0x20 (k + 0x40) = k + 0x20 := subq_eq (by omega) (by omega)
  simp only [swp32b, hrax, jb_cmpq, je_cmpq, decide_eq_true_eq, ymm]
  by_cases hroom : n < k + 0x20
  · rw [if_pos hroom]
    exact wp_swp16b h hal hk hroom
  rw [if_neg hroom]
  exact h.endsAligned (by omega) (by omega) (by omega) (by omega) (by omega) (by omega) (by omega)
    (by omega)

theorem wp_swp64b (h : MemswpArea s p q n) (hal : (p + k) % 32 = 0) (hk : k < n)
    (hn : n < k + 0x80) :
    wp (swp64b p q n (k + 0x80)) (fun _ s' => s' = s.exchanged p q n n) (s.exchanged p q k k) := by
  have hfst := h.fst_le
  have hrax : subq 0x40 (k + 0x80) = k + 0x40 := subq_eq (by omega) (by omega)
  simp only [swp64b, hrax, jb_cmpq, je_cmpq, decide_eq_true_eq, ymm]
  by_cases hroom : n < k + 0x40
  · rw [if_pos hroom]
    exact wp_swp32b h hal hk hroom
  rw [if_neg hroom]
  refine h.block (by omega) (by omega) (by omega) (by omega) ?_
  refine h.block (by omega) (by omega) (by omega) (by omega) ?_
  by_cases hend : n = k + 0x40
  · rw [if_pos hend, wp_pure, hend]
  · rw [if_neg hend, ea_eq (a := k + 32 + 32 + 0x40) (by omega) (by omega)]
    exact wp_swp32b h (by omega) (by omega) (by omega)

/-- One turn of the loop exchanges the rest of the areas, or 128 bytes of them. -/
theorem wp_swp128bBody (h : MemswpArea s p q n) (hal : (p + k) % 32 = 0) (hk : k < n) :
    wp (swp128bBody p q n (k + 0x80)) (fun r s' => Sum.elim
      (fun rax => s' = s.exchanged p q (k + 0x80) (k + 0x80) ∧ rax = k + 0x80 + 0x80 ∧
        k + 0x80 < n)
      (fun _ => s' = s.exchanged p q n n) r) (s.exchanged p q k k) := by
  have hfst := h.fst_le
  simp only [swp128bBody, jb_cmpq, ja_cmpq, decide_eq_true_eq, ymm]
  by_cases hroom : n < k + 0x80
  · rw [if_pos hroom, wp_map]
    exact wp_swp64b h hal hk hroom
  rw [if_neg hroom]
  refine h.block (by omega) (by omega) (by omega) (by omega) ?_
  refine h.block (by omega) (by omega) (by omega) (by omega) ?_
  refine h.block (by omega) (by omega) (by omega) (by omega) ?_
  refine h.block (by omega) (by omega) (by omega) (by omega) ?_
  by_cases hmore : k + 0x80 < n
  · rw [if_pos hmore, wp_pure]
    exact ⟨rfl, ea_eq (by omega) (by omega), hmore⟩
  · rw [if_neg hmore, wp_pure, show k + 32 + 32 + 32 + 32 = n by omega]
    exact rfl

/-- The loop over blocks of 128 bytes. -/
theorem total_swp128b (h : MemswpArea s p q n) (hal : (p + k) % 32 = 0) (hk : k < n) :
    Total (fun fuel => fuelLoop (swp128bBody p q n) fuel (k + 0x80))
      (fun _ s' => s' = s.exchanged p q n n) (s.exchanged p q k k) := by
  refine total_loop (f := fun _ => swp128bBody p q n)
    (I := fun left rax s' => ∃ k, left = n - k ∧ rax = k + 0x80 ∧ s' = s.exchanged p q k k ∧
      (p + k) % 32 = 0 ∧ k < n) ?_ (n - k) _ _ ⟨k, rfl, rfl, rfl, hal, hk⟩
  rintro left rax s' ⟨k, rfl, rfl, rfl, hal, hk⟩
  refine (Total.const (wp_swp128bBody h hal hk)).mono ?_
  rintro (rax | r) s' hr
  · obtain ⟨rfl, rfl, hmore⟩ := hr
    exact ⟨n - (k + 0x80), by omega, k + 0x80, rfl, rfl, rfl, by omega, hmore⟩
  · exact hr

/-! ### Short areas -/

theorem wp_swp1bUnaligned (h : MemswpArea s p q n) (hn : n = k + 1) :
    wp (swp1bUnaligned p q k) (fun _ s' => s' = s.exchanged p q n n) (s.exchanged p q k k) := by
  subst hn
  exact h.byte (by omega) (by omega) (by omega) ((wp_pure _ _ _).mpr rfl)

theorem wp_swp2bUnaligned (h : MemswpArea s p q n) (h0 : n ≠ 0) (hn : n < 4) :
    wp (swp2bUnaligned p q n) (fun _ s' => s' = s.exchanged p q n n) (s.exchanged p q 0 0) := by
  simp only [swp2bUnaligned, cmpl_eq (show 2 < 2 ^ 32 by decide) (show n < 2 ^ 32 by omega),
    jb_cmpq, je_cmpq, decide_eq_true_eq]
  by_cases hroom : n < 2
  · rw [if_pos hroom]
    exact wp_swp1bUnaligned h (by omega)
  rw [if_neg hroom]
  refine h.byte (by omega) (by omega) (by omega) ?_
  refine h.byte (by omega) (by omega) (by omega) ?_
  by_cases hend : n = 2
  · rw [if_pos hend, wp_pure, hend]
  · rw [if_neg hend, leal_eq (a := 2) (by omega) (by omega)]
    exact wp_swp1bUnaligned h (by omega)

theorem wp_swp4bUnaligned (h : MemswpArea s p q n) (h0 : n ≠ 0) (hn : n < 8) :
    wp (swp4bUnaligned p q n) (fun _ s' => s' = s.exchanged p q n n) (s.exchanged p q 0 0) := by
  simp only [swp4bUnaligned, cmpl_eq (show 4 < 2 ^ 32 by decide) (show n < 2 ^ 32 by omega),
    jb_cmpq, je_cmpq, decide_eq_true_eq]
  by_cases hroom : n < 4
  · rw [if_pos hroom]
    exact wp_swp2bUnaligned h h0 hroom
  rw [if_neg hroom]
  exact h.ends (by omega) (by omega) (by omega) (by omega) (by omega) (by omega) (by omega)

theorem wp_swp8bUnaligned (h : MemswpArea s p q n) (h0 : n ≠ 0) (hn : n < 16) :
    wp (swp8bUnaligned p q n) (fun _ s' => s' = s.exchanged p q n n) (s.exchanged p q 0 0) := by
  simp only [swp8bUnaligned, cmpl_eq (show 8 < 2 ^ 32 by decide) (show n < 2 ^ 32 by omega),
    jb_cmpq, je_cmpq, decide_eq_true_eq]
  by_cases hroom : n < 8
  · rw [if_pos hroom]
    exact wp_swp4bUnaligned h h0 hroom
  rw [if_neg hroom]
  exact h.ends (by omega) (by omega) (by omega) (by omega) (by omega) (by omega) (by omega)

theorem wp_swp16bUnaligned (h : MemswpArea s p q n) (h0 : n ≠ 0) (hn : n < 32) :
    wp (swp16bUnaligned p q n) (fun _ s' => s' = s.exchanged p q n n) (s.exchanged p q 0 0) := by
  simp only [swp16bUnaligned, cmpl_eq (show 16 < 2 ^ 32 by decide) (show n < 2 ^ 32 by omega),
    jb_cmpq, je_cmpq, decide_eq_true_eq, xmm]
  by_cases hroom : n < 16
  · rw [if_pos hroom]
    exact wp_swp8bUnaligned h h0 hroom
  rw [if_neg hroom]
  exact h.ends (by omega) (by omega) (by omega) (by omega) (by omega) (by omega) (by omega)

theorem wp_swp32bUnaligned (h : MemswpArea s p q n) (h0 : n ≠ 0) (hn : n ≤ 64) :
    wp (swp32bUnaligned p q n) (fun _ s' => s' = s.exchanged p q n n) (s.exchanged p q 0 0) := by
  simp only [swp32bUnaligned, cmpl_eq (show 32 < 2 ^ 32 by decide) (show n < 2 ^ 32 by omega),
    jb_cmpq, je_cmpq, decide_eq_true_eq, ymm]
  by_cases hroom : n < 32
  · rw [if_pos hroom]
    exact wp_swp16bUnaligned h h0 hroom
  rw [if_neg hroom]
  exact h.ends (by omega) (by omega) (by omega) (by omega) (by omega) (by omega) (by omega)

/-! ### All lengths -/

/-- The bytes before the first aligned address, with the block there: what overlaps is read
before it is written. -/
theorem MemswpArea.head (h : MemswpArea s p q n) (hw : w ≤ 32) (hn : 32 + w ≤ n)
    (hal : (p + w) % 32 = 0) {γ : Type} {f : Prog Space γ} {P : γ → Space → Prop}
    (hf : wp f P (s.exchanged p q (w + 32) (w + 32))) :
    wp (do
      let v₀ ← vmovdqu ymm (ea p)
      let v₁ ← vmovdqu ymm (ea q)
      let v₂ ← vmovdqa ymm (ea (p + w))
      let v₃ ← vmovdqu ymm (ea (q + w))
      vmovdquTo ymm v₁ (ea p)
      vmovdquTo ymm v₀ (ea q)
      vmovdqaTo ymm v₃ (ea (p + w))
      vmovdquTo ymm v₂ (ea (q + w))
      f) P s := by
  have hfst := h.fst_le
  have hsnd := h.snd_le
  have hp : ea p = p + 0 := ea_eq (by omega) (by omega)
  have hq : ea q = q + 0 := ea_eq (by omega) (by omega)
  have hpw : ea (p + w) = p + w := ea_eq (by omega) (by omega)
  have hqw : ea (q + w) = q + w := ea_eq (by omega) (by omega)
  suffices hrun : wp _ P (s.exchanged p q 0 0) by rwa [exchanged_zero] at hrun
  simp only [hp, hq, hpw, hqw, vmovdqa_of_aligned hal, vmovdqaTo_of_aligned hal, vmovdqu, vmovdquTo,
    ymm]
  rw [wp_bind, h.load_fst (by omega) (by omega) (by omega), wp_bind,
    h.load_snd (by omega) (by omega) (by omega), wp_bind,
    h.load_fst (by omega) (by omega) (by omega), wp_bind,
    h.load_snd (by omega) (by omega) (by omega), wp_bind,
    h.store_fst (by omega) (by omega) (by omega) fun i hi => lanes_of_lt hi, wp_bind,
    h.store_snd (by omega) (by omega) (by omega) (by omega) fun i hi => lanes_of_lt hi, wp_bind,
    h.store_fst (by omega) (by omega) (by omega) fun i hi => lanes_of_lt hi, wp_bind,
    h.store_snd (by omega) (by omega) (by omega) (by omega) fun i hi => lanes_of_lt hi]
  exact hf

/-- The distance from the first area to the next aligned address. -/
theorem MemswpArea.alignDist (h : MemswpArea s p q n) :
    subq p (andq (imm (-0x20)) (ea (p + 0x20))) = 32 - p % 32 := by
  have hfst := h.fst_le
  rw [ea_eq (a := p + 0x20) (by omega) (by omega), andq_align (by omega),
    subq_eq (by omega) (by omega)]
  omega

/-- An exchange of at least one byte. -/
theorem total_avx2Memswp (h : MemswpArea s p q n) (h0 : n ≠ 0) :
    Total (avx2Memswp p q n) (fun _ s' => s' = s.exchanged p q n n) s := by
  have hfst := h.fst_le
  have hrcx : ea ((32 - p % 32 : ℕ) + 0x20) = 32 - p % 32 + 0x20 := ea_eq (by omega) (by omega)
  by_cases hshort : n ≤ 32 - p % 32 + 0x20
  · have hrun : avx2Memswp p q n = fun _ => swp32bUnaligned p q n := by
      funext fuel
      simp only [avx2Memswp, h.alignDist, hrcx, jna_cmpq, decide_eq_true_eq]
      rw [if_pos hshort]
    rw [hrun]
    have hwp := wp_swp32bUnaligned h h0 (by omega)
    rw [exchanged_zero] at hwp
    exact Total.const hwp
  -- the head is run with the loop's fuel as a parameter
  obtain ⟨r, s', ⟨fuel, hloop⟩, rfl⟩ :=
    total_swp128b h (k := 32 - p % 32 + 32) (by omega) (by omega)
  refine ⟨r, _, ⟨fuel, fun m hm => ?_⟩, rfl⟩
  have hrax : ea ((32 - p % 32 : ℕ) + 0xa0) = 32 - p % 32 + 32 + 0x80 :=
    ea_eq (by omega) (by omega)
  simp only [avx2Memswp, h.alignDist, hrcx, hrax, jna_cmpq, decide_eq_true_eq]
  rw [if_neg hshort]
  obtain ⟨r', s', hrun, hsame⟩ := h.head (w := 32 - p % 32) (P := fun r' s' => (r', s') =
    (r, s.exchanged p q n n)) (by omega) (by omega) (by omega) ⟨r, _, hloop m hm, rfl⟩
  exact hrun.trans (congrArg some hsame)

/-- With no byte to exchange, the routine exchanges the bytes at the two addresses. -/
theorem avx2Memswp_zero (fuel : ℕ) :
    avx2Memswp p q 0 fuel = swp1bUnaligned p q 0 := by
  have hshort : jna (cmpq (ea ((subq p (andq (imm (-0x20)) (ea (p + 0x20))) : ℕ) + 0x20)) 0) =
      true := by simp
  simp only [avx2Memswp, hshort, if_true]
  rfl

/-- The bytes at `p` and at `q` may be read and written, and are the same. -/
structure SameByte (s : Space) (p q : ℕ) : Prop where
  readable_fst : s.readable p = true
  readable_snd : s.readable q = true
  writable_fst : s.writable p = true
  writable_snd : s.writable q = true
  same : s.bytes p = s.bytes q

theorem write_same {b : UInt8} (hb : s.bytes p = b) : s.write 1 p (fun _ => b) = s := by
  subst hb
  cases s with
  | mk bytes readable writable =>
    simp only [write, mk.injEq, and_true]
    funext a
    by_cases ha : p ≤ a ∧ a < p + 1
    · obtain rfl : a = p := by omega
      rw [if_pos ha]
    · rw [if_neg ha]

/-- The exchange of a byte that nobody asked for, when it shows no difference. -/
theorem SameByte.run (hb : SameByte s p q) (hp : p < 2 ^ 64) (hq : q < 2 ^ 64) :
    swp1bUnaligned p q 0 s = some ((), s) := by
  have hep : ea (p + (0 : ℕ)) = p := ea_eq (by omega) hp
  have heq : ea (q + (0 : ℕ)) = q := ea_eq (by omega) hq
  have hwp : s.Writable p 1 := fun i hi => by rw [show p + i = p by omega, hb.writable_fst]
  have hwq : s.Writable q 1 := fun i hi => by rw [show q + i = q by omega, hb.writable_snd]
  have hrun : wp (swp1bUnaligned p q 0) (fun _ s' => s' = s) s := by
    simp only [swp1bUnaligned]
    rw [wp_bind, wp_movzxb (a := p) (by omega) hp hb.readable_fst, wp_bind,
      wp_movzxb (a := q) (by omega) hq hb.readable_snd, hep, heq, wp_bind, movb,
      Space.wp_store hwp, UInt8.ofNat_toNat, write_same hb.same, wp_bind, movb,
      Space.wp_store hwq, UInt8.ofNat_toNat, write_same hb.same.symm, wp_pure]
  obtain ⟨_, s', hsome, rfl⟩ := hrun
  exact hsome

/-- If the exchange of a byte changes nothing, the two bytes are the same. -/
theorem SameByte.of_run {s' : Space} {u : Unit} (hp : p < 2 ^ 64) (hq : q < 2 ^ 64)
    (hrun : swp1bUnaligned p q 0 s = some (u, s')) (hsame : ∀ a, s'.bytes a = s.bytes a) :
    SameByte s p q := by
  have hep : ea (p + (0 : ℕ)) = p := ea_eq (by omega) hp
  have heq : ea (q + (0 : ℕ)) = q := ea_eq (by omega) hq
  simp only [swp1bUnaligned, hep, heq] at hrun
  obtain ⟨r, _, hr, hrun⟩ := bind_eq_some.mp hrun
  obtain ⟨hrp, rfl, rfl⟩ := movzxb_eq_some hr
  obtain ⟨r, _, hr, hrun⟩ := bind_eq_some.mp hrun
  obtain ⟨hrq, rfl, rfl⟩ := movzxb_eq_some hr
  obtain ⟨_, _, hw, hrun⟩ := bind_eq_some.mp hrun
  obtain ⟨hwp, rfl⟩ := movb_eq_some hw
  obtain ⟨_, _, hw, hrun⟩ := bind_eq_some.mp hrun
  obtain ⟨hwq, rfl⟩ := movb_eq_some hw
  rw [pure_apply, Option.some.injEq, Prod.mk.injEq] at hrun
  obtain ⟨-, rfl⟩ := hrun
  refine ⟨hrp, hrq, hwp, hwq, ?_⟩
  -- the byte at `q` is written last
  have hlast := hsame q
  rw [← Nat.add_zero q, write_at Nat.one_pos, UInt8.ofNat_toNat] at hlast
  exact hlast

/-- `cldm_avx2_memswp` exchanges the areas and changes no other byte just when there is a
byte to exchange, or the first bytes are accessible and the same. -/
theorem avx2_memswp_correct (h : MemswpArea s p q n) :
    Total (avx2Memswp p q n) (fun _ s' => SwapDone s p q n s') s ↔ n ≠ 0 ∨ SameByte s p q := by
  have hfst := h.fst_le
  have hsnd := h.snd_le
  by_cases h0 : n = 0
  · subst h0
    simp only [ne_eq, not_true_eq_false, false_or]
    constructor
    · rintro ⟨u, s', ⟨fuel, hrun⟩, hdone⟩
      have hlast := hrun fuel (Nat.le_refl _)
      rw [avx2Memswp_zero] at hlast
      exact .of_run (by omega) (by omega) hlast fun a => hdone.kept a (by omega) (by omega)
    · intro hb
      have hdone := h.done
      rw [exchanged_zero] at hdone
      refine ⟨(), s, ⟨0, fun m _ => ?_⟩, hdone⟩
      rw [avx2Memswp_zero, hb.run (by omega) (by omega)]
  · refine ⟨fun _ => .inl h0, fun _ => (total_avx2Memswp h h0).mono ?_⟩
    rintro u s' rfl
    exact h.done

/-- A space all of which may be read and written, with each byte the last of its address. -/
def swapSpace : Space where
  bytes := UInt8.ofNat
  readable := fun _ => true
  writable := fun _ => true

theorem memswpArea_swapSpace (h : p + n ≤ q) (hq : q + n ≤ 2 ^ 63) :
    MemswpArea swapSpace p q n :=
  ⟨⟨fun _ _ => rfl, fun _ _ => rfl, fun _ _ => rfl, fun _ _ => rfl, .inl h⟩, by omega, hq⟩

/-- An exchange of five bytes. -/
theorem avx2_memswp_correct_five : MemswpArea swapSpace 0x1003 0x2001 5 ∧
    Total (avx2Memswp 0x1003 0x2001 5) (fun _ s' => SwapDone swapSpace 0x1003 0x2001 5 s')
      swapSpace :=
  have h := memswpArea_swapSpace (by decide) (by decide)
  ⟨h, (avx2_memswp_correct h).mpr (.inl (by decide))⟩

/-- With no byte to exchange, the bytes `3` and `1` change places. -/
theorem avx2_memswp_empty : MemswpArea swapSpace 0x1003 0x2001 0 ∧
    ¬ Total (avx2Memswp 0x1003 0x2001 0) (fun _ s' => SwapDone swapSpace 0x1003 0x2001 0 s')
      swapSpace := by
  refine ⟨memswpArea_swapSpace (by decide) (by decide), ?_⟩
  rintro ⟨u, s', ⟨fuel, hrun⟩, hdone⟩
  have hlast := hrun fuel (Nat.le_refl _)
  rw [avx2Memswp_zero] at hlast
  have hb : SameByte swapSpace 0x1003 0x2001 :=
    .of_run (by decide) (by decide) hlast fun a => hdone.kept a (by omega) (by omega)
  exact absurd hb.same (by decide)

end Cldm
