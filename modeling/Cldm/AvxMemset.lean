/-
The AVX2 fill of a memory area.

`avx2Memset` is `cldm_avx2_memset`, with a definition for each label of the assembly
source.  Its blocks follow each other as those of the copy do, but end at absolute
addresses; the destination holds the byte at its first `k` offsets (`Space.filled`),
and every store begins at one of them or right behind.  As in the copy, the last
of the short paths writes a byte without a check:

* `avx2_memset_correct` — for every length, the routine sets exactly the `n` bytes if
  and only if `n` is not zero.
-/
import Cldm.Avx2

namespace Cldm

open Prog Space Avx2

/-! ### The routine -/

/-- `.Lwrlast32b` -/
def wrlast32b (rax rdx : ℕ) (ymm1 : Lanes) : Prog Space ℕ := do
  vmovdquTo ymm ymm1 (ea (rdx - 0x20))
  return rax

/-- `.Lwr32b` -/
def wr32b (rax rdi rdx : ℕ) (ymm1 : Lanes) : Prog Space ℕ :=
  let rdi := subq 0x20 rdi
  let fl := cmpq rdi rdx
  if jb fl then wrlast32b rax rdx ymm1 else do
  vmovdqaTo ymm ymm1 (ea (rdi - 0x20))
  if je fl then return rax else
  wrlast32b rax rdx ymm1

/-- `.Lwr64b` -/
def wr64b (rax rdi rdx : ℕ) (ymm1 : Lanes) : Prog Space ℕ :=
  let rdi := subq 0x40 rdi
  let fl := cmpq rdi rdx
  if jb fl then wr32b rax rdi rdx ymm1 else do
  vmovdqaTo ymm ymm1 (ea (rdi - 0x40))
  vmovdqaTo ymm ymm1 (ea (rdi - 0x20))
  if je fl then return rax else
  let rdi := ea (rdi + 0x40)
  wr32b rax rdi rdx ymm1

/-- `.Lwr128b` -/
def wr128b (rax rdi rdx : ℕ) (ymm1 : Lanes) : Prog Space ℕ :=
  let rdi := subq 0x80 rdi
  let fl := cmpq rdi rdx
  if jb fl then wr64b rax rdi rdx ymm1 else do
  vmovdqaTo ymm ymm1 (ea (rdi - 0x80))
  vmovdqaTo ymm ymm1 (ea (rdi - 0x60))
  vmovdqaTo ymm ymm1 (ea (rdi - 0x40))
  vmovdqaTo ymm ymm1 (ea (rdi - 0x20))
  if je fl then return rax else
  let rdi := ea (rdi + 0x80)
  wr64b rax rdi rdx ymm1

/-- `.Lwr256b`, once around -/
def wr256bBody (rax rdx : ℕ) (ymm1 : Lanes) (rdi : ℕ) : Prog Space (ℕ ⊕ ℕ) :=
  let fl := cmpq rdi rdx
  if jb fl then .inr <$> wr128b rax rdi rdx ymm1 else do
  vmovdqaTo ymm ymm1 (ea (rdi - 0x100))
  vmovdqaTo ymm ymm1 (ea (rdi - 0xe0))
  vmovdqaTo ymm ymm1 (ea (rdi - 0xc0))
  vmovdqaTo ymm ymm1 (ea (rdi - 0xa0))
  vmovdqaTo ymm ymm1 (ea (rdi - 0x80))
  vmovdqaTo ymm ymm1 (ea (rdi - 0x60))
  vmovdqaTo ymm ymm1 (ea (rdi - 0x40))
  vmovdqaTo ymm ymm1 (ea (rdi - 0x20))
  let rdi := ea (rdi + 0x100)
  if ja fl then return .inl rdi else return .inr rax

/-- `.Lwr32b_unaligned` -/
def wr32bUnaligned (rax rsi : ℕ) : Prog Space ℕ := do
  let xmm2 := vpxorSelf
  let xmm1 := vmovdOf rsi
  let xmm0 := vpshufb xmm xmm2 xmm1
  vmovdquTo xmm xmm0 (ea rax)
  vmovdquTo xmm xmm0 (ea (rax + 0x10))
  return rax

/-- `.Lwr1b` -/
def wr1b (rax rdi rsi : ℕ) : Prog Space ℕ := do
  movb rsi (ea rdi)
  return rax

/-- `.Lwr2b` -/
def wr2b (rax rdi rsi rdx : ℕ) : Prog Space ℕ :=
  let fl := cmpl 0x02 rdx
  if jb fl then wr1b rax rdi rsi else do
  movb rsi (ea rax)
  movb rsi (ea (rax + 0x01))
  let rdi := ea (rax + 0x02)
  if jne fl then wr1b rax rdi rsi else return rax

/-- `.Lwr4b` -/
def wr4b (rax rdi rsi rdx : ℕ) : Prog Space ℕ :=
  let fl := cmpl 0x04 rdx
  if jb fl then wr2b rax rdi rsi rdx else do
  let xmm2 := vpxorSelf
  let xmm1 := vmovdOf rsi
  let xmm0 := vpshufb xmm xmm2 xmm1
  vmovdTo xmm0 (ea rax)
  if je fl then return rax else
  vmovdTo xmm0 (ea (rax + rdx - 0x04))
  return rax

/-- `.Lwr8b` -/
def wr8b (rax rdi rsi rdx : ℕ) : Prog Space ℕ :=
  let fl := cmpl 0x08 rdx
  if jb fl then wr4b rax rdi rsi rdx else do
  let xmm2 := vpxorSelf
  let xmm1 := vmovdOf rsi
  let xmm0 := vpshufb xmm xmm2 xmm1
  vmovqTo xmm0 (ea rax)
  if je fl then return rax else
  vmovqTo xmm0 (ea (rax + rdx - 0x08))
  return rax

/-- `.Lwr16b` -/
def wr16b (rax rdi rsi rdx : ℕ) : Prog Space ℕ :=
  let fl := cmpl 0x10 rdx
  if jb fl then wr8b rax rdi rsi rdx else do
  let xmm2 := vpxorSelf
  let xmm1 := vmovdOf rsi
  let xmm0 := vpshufb xmm xmm2 xmm1
  vmovdquTo xmm xmm0 (ea rax)
  if je fl then return rax else
  vmovdquTo xmm xmm0 (ea (rax + rdx - 0x10))
  return rax

/-- `cldm_avx2_memset`: `rdi` is the destination, `rsi` the value and `rdx` the number of
bytes. -/
def avx2Memset (rdi rsi rdx fuel : ℕ) : Prog Space ℕ :=
  let rax := rdi
  let fl := cmpq 0x20 rdx
  if jb fl then wr16b rax rdi rsi rdx else
  if je fl then wr32bUnaligned rax rsi else do
  let xmm2 := vpxorSelf
  let xmm1 := vmovdOf rsi
  let xmm0 := vpshufb xmm xmm2 xmm1
  let ymm1 := vinserti128 xmm0 xmm0
  vmovdquTo ymm ymm1 (ea rdi)
  let rdi := ea (rdi + 0x11f)
  let rdi := andq (imm (-0x20)) rdi
  let rdx := ea (rax + rdx)
  fuelLoop (wr256bBody rax rdx ymm1) fuel rdi

/-! ### Fills -/

variable {s : Space} {dst n k o w rsi rcx : ℕ} {b : UInt8} {v : Lanes}

/-- An area of `n` bytes in the lower half of the address space, the only one that may be
written. -/
structure FillArea (s : Space) (dst n : ℕ) : Prop where
  writable : ∀ a, s.writable a = true ↔ dst ≤ a ∧ a < dst + n
  dst_le : dst + n ≤ 2 ^ 63

/-- A store that reaches beyond what has been filled. -/
theorem FillArea.fill (h : FillArea s dst n) {x : ℤ} (hx : x = dst + o) (ho : o ≤ k)
    (hk : k ≤ o + w) (hn : o + w ≤ n) (hv : ∀ i < w, v i = b) {γ : Type} {f : Prog Space γ}
    {P : γ → Space → Prop} (hf : wp f P (s.filled dst b (o + w))) :
    wp (do Space.store w (ea x) v; f) P (s.filled dst b k) := by
  have hdst := h.dst_le
  have hw : (s.filled dst b k).Writable (dst + o) w :=
    fun i hi => (h.writable _).mpr ⟨by omega, by omega⟩
  rw [ea_eq (a := dst + o) (by omega) (by omega), wp_bind, Space.wp_store hw, filled_write ho hk hv]
  exact hf

theorem FillArea.fillAligned (h : FillArea s dst n) {x : ℤ} (hx : x = dst + o)
    (hal : (dst + o) % w = 0) (ho : o ≤ k) (hk : k ≤ o + w) (hn : o + w ≤ n)
    (hv : ∀ i < w, v i = b) {γ : Type} {f : Prog Space γ}
    {P : γ → Space → Prop} (hf : wp f P (s.filled dst b (o + w))) :
    wp (do vmovdqaTo w v (ea x); f) P (s.filled dst b k) := by
  have hdst := h.dst_le
  have hxo : ea x = dst + o := ea_eq (by omega) (by omega)
  simp only [vmovdqaTo, hxo, hal, if_true]
  rw [← hxo]
  exact h.fill hx ho hk hn hv hf

theorem wp_wrlast32b (h : FillArea s dst n) (hv : ∀ i < 32, v i = b) (hk : n ≤ k + 0x20)
    (hkn : k < n) (h32 : 32 ≤ k) :
    wp (wrlast32b dst (dst + n) v) (fun r s' => r = dst ∧ s' = s.filled dst b n)
      (s.filled dst b k) := by
  have hdst := h.dst_le
  simp only [wrlast32b]
  refine h.fill (o := n - 32) (w := 32) (by omega) (by omega) (by omega) (by omega) hv ?_
  rw [show n - 32 + 32 = n by omega]
  exact ⟨_, _, rfl, rfl, rfl⟩

theorem wp_wr32b (h : FillArea s dst n) (hv : ∀ i < 32, v i = b)
    (hb : NextBlock dst n 0x40 k rcx) (hn : n < rcx) :
    wp (wr32b dst (dst + rcx) (dst + n) v) (fun r s' => r = dst ∧ s' = s.filled dst b n)
      (s.filled dst b k) := by
  have hdst := h.dst_le
  obtain ⟨hleft, hhead, hsize, hstart, hfresh, hal⟩ := hb
  have hrdi : subq 0x20 (dst + rcx) = dst + (rcx - 0x20) := by
    rw [subq_eq (by omega) (by omega)]
    omega
  simp only [wr32b, hrdi, jb_cmpq, je_cmpq, decide_eq_true_eq, ymm, Nat.add_lt_add_iff_left,
    Nat.add_left_cancel_iff]
  by_cases hroom : n < rcx - 0x20
  · rw [if_pos hroom]
    exact wp_wrlast32b h hv (by omega) hleft hhead
  rw [if_neg hroom]
  refine h.fillAligned (o := rcx - 0x40) (by omega) (by omega) (by omega) (by omega) (by omega)
    hv ?_
  by_cases hend : n = rcx - 0x20
  · rw [if_pos hend, wp_pure, show rcx - 0x40 + 32 = n by omega]
    exact ⟨rfl, rfl⟩
  · rw [if_neg hend]
    exact wp_wrlast32b h hv (by omega) (by omega) (by omega)

theorem wp_wr64b (h : FillArea s dst n) (hv : ∀ i < 32, v i = b)
    (hb : NextBlock dst n 0x80 k rcx) (hn : n < rcx) :
    wp (wr64b dst (dst + rcx) (dst + n) v) (fun r s' => r = dst ∧ s' = s.filled dst b n)
      (s.filled dst b k) := by
  have hdst := h.dst_le
  obtain ⟨hleft, hhead, hsize, hstart, hfresh, hal⟩ := hb
  have hrdi : subq 0x40 (dst + rcx) = dst + (rcx - 0x40) := by
    rw [subq_eq (by omega) (by omega)]
    omega
  simp only [wr64b, hrdi, jb_cmpq, je_cmpq, decide_eq_true_eq, ymm, Nat.add_lt_add_iff_left,
    Nat.add_left_cancel_iff]
  by_cases hroom : n < rcx - 0x40
  · rw [if_pos hroom]
    exact wp_wr32b h hv ⟨hleft, hhead, by omega, by omega, by omega, by omega⟩ hroom
  rw [if_neg hroom]
  refine h.fillAligned (o := rcx - 0x80) (by omega) (by omega) (by omega) (by omega) (by omega)
    hv ?_
  refine h.fillAligned (o := rcx - 0x60) (by omega) (by omega) (by omega) (by omega) (by omega)
    hv ?_
  by_cases hend : n = rcx - 0x40
  · rw [if_pos hend, wp_pure, show rcx - 0x60 + 32 = n by omega]
    exact ⟨rfl, rfl⟩
  · rw [if_neg hend, ea_eq (a := dst + rcx) (by omega) (by omega)]
    exact wp_wr32b h hv ⟨by omega, by omega, by omega, by omega, by omega, hal⟩ hn

theorem wp_wr128b (h : FillArea s dst n) (hv : ∀ i < 32, v i = b)
    (hb : NextBlock dst n 0x100 k rcx) (hn : n < rcx) :
    wp (wr128b dst (dst + rcx) (dst + n) v) (fun r s' => r = dst ∧ s' = s.filled dst b n)
      (s.filled dst b k) := by
  have hdst := h.dst_le
  obtain ⟨hleft, hhead, hsize, hstart, hfresh, hal⟩ := hb
  have hrdi : subq 0x80 (dst + rcx) = dst + (rcx - 0x80) := by
    rw [subq_eq (by omega) (by omega)]
    omega
  simp only [wr128b, hrdi, jb_cmpq, je_cmpq, decide_eq_true_eq, ymm, Nat.add_lt_add_iff_left,
    Nat.add_left_cancel_iff]
  by_cases hroom : n < rcx - 0x80
  · rw [if_pos hroom]
    exact wp_wr64b h hv ⟨hleft, hhead, by omega, by omega, by omega, by omega⟩ hroom
  rw [if_neg hroom]
  refine h.fillAligned (o := rcx - 0x100) (by omega) (by omega) (by omega) (by omega) (by omega)
    hv ?_
  refine h.fillAligned (o := rcx - 0xe0) (by omega) (by omega) (by omega) (by omega) (by omega)
    hv ?_
  refine h.fillAligned (o := rcx - 0xc0) (by omega) (by omega) (by omega) (by omega) (by omega)
    hv ?_
  refine h.fillAligned (o := rcx - 0xa0) (by omega) (by omega) (by omega) (by omega) (by omega)
    hv ?_
  by_cases hend : n = rcx - 0x80
  · rw [if_pos hend, wp_pure, show rcx - 0xa0 + 32 = n by omega]
    exact ⟨rfl, rfl⟩
  · rw [if_neg hend, ea_eq (a := dst + rcx) (by omega) (by omega)]
    exact wp_wr64b h hv ⟨by omega, by omega, by omega, by omega, by omega, hal⟩ hn

/-- One turn of the loop fills the rest of the area, or 256 bytes of it. -/
theorem wp_wr256bBody (h : FillArea s dst n) (hv : ∀ i < 32, v i = b)
    (hb : NextBlock dst n 0x100 k rcx) :
    wp (wr256bBody dst (dst + n) v (dst + rcx)) (fun r s' => Sum.elim
      (fun rdi' => ∃ rcx', rdi' = dst + rcx' ∧ s' = s.filled dst b rcx ∧
        NextBlock dst n 0x100 rcx rcx')
      (fun r => r = dst ∧ s' = s.filled dst b n) r) (s.filled dst b k) := by
  have hdst := h.dst_le
  simp only [wr256bBody, jb_cmpq, ja_cmpq, decide_eq_true_eq, ymm, Nat.add_lt_add_iff_left]
  by_cases hroom : n < rcx
  · rw [if_pos hroom, wp_map]
    exact wp_wr128b h hv hb hroom
  obtain ⟨hleft, hhead, hsize, hstart, hfresh, hal⟩ := hb
  rw [if_neg hroom]
  refine h.fillAligned (o := rcx - 0x100) (by omega) (by omega) (by omega) (by omega) (by omega)
    hv ?_
  refine h.fillAligned (o := rcx - 0xe0) (by omega) (by omega) (by omega) (by omega) (by omega)
    hv ?_
  refine h.fillAligned (o := rcx - 0xc0) (by omega) (by omega) (by omega) (by omega) (by omega)
    hv ?_
  refine h.fillAligned (o := rcx - 0xa0) (by omega) (by omega) (by omega) (by omega) (by omega)
    hv ?_
  refine h.fillAligned (o := rcx - 0x80) (by omega) (by omega) (by omega) (by omega) (by omega)
    hv ?_
  refine h.fillAligned (o := rcx - 0x60) (by omega) (by omega) (by omega) (by omega) (by omega)
    hv ?_
  refine h.fillAligned (o := rcx - 0x40) (by omega) (by omega) (by omega) (by omega) (by omega)
    hv ?_
  refine h.fillAligned (o := rcx - 0x20) (by omega) (by omega) (by omega) (by omega) (by omega)
    hv ?_
  rw [show rcx - 0x20 + 32 = rcx by omega]
  by_cases hmore : rcx < n
  · rw [if_pos hmore, wp_pure, ea_eq (a := dst + (rcx + 0x100)) (by omega) (by omega)]
    exact ⟨_, rfl, rfl, hmore, by omega, by omega, by omega, by omega, by omega⟩
  · rw [if_neg hmore, wp_pure, show rcx = n by omega]
    exact ⟨rfl, rfl⟩

/-- The loop over blocks of 256 bytes. -/
theorem total_wr256b (h : FillArea s dst n) (hv : ∀ i < 32, v i = b)
    (hb : NextBlock dst n 0x100 k rcx) :
    Total (fun fuel => fuelLoop (wr256bBody dst (dst + n) v) fuel (dst + rcx))
      (fun r s' => r = dst ∧ s' = s.filled dst b n) (s.filled dst b k) := by
  refine total_loop (f := fun _ => wr256bBody dst (dst + n) v)
    (I := fun left rdi s' => ∃ k rcx, left = n - k ∧ rdi = dst + rcx ∧ s' = s.filled dst b k ∧
      NextBlock dst n 0x100 k rcx) ?_ (n - k) _ _ ⟨k, rcx, rfl, rfl, rfl, hb⟩
  rintro left rdi s' ⟨k, rcx, rfl, rfl, rfl, hb⟩
  refine (Total.const (wp_wr256bBody h hv hb)).mono ?_
  rintro (rdi' | r) s' hr
  · obtain ⟨rcx', rfl, rfl, hb'⟩ := hr
    have hleft := hb.left
    have hgrow := hb.fresh
    exact ⟨n - rcx, by omega, rcx, rcx', rfl, rfl, rfl, hb'⟩
  · exact hr

/-! ### Fewer than 32 bytes -/

theorem wp_wr1b (h : FillArea s dst n) (hn : n = k + 1) :
    wp (wr1b dst (dst + k) rsi) (fun r s' => r = dst ∧ s' = s.filled dst (UInt8.ofNat rsi) n)
      (s.filled dst (UInt8.ofNat rsi) k) := by
  subst hn
  exact h.fill (o := k) (w := 1) (by omega) (by omega) (by omega) (by omega) (fun i hi => rfl)
    ⟨_, _, rfl, rfl, rfl⟩

theorem wp_wr2b (h : FillArea s dst n) (h0 : n ≠ 0) (hn : n < 4) :
    wp (wr2b dst dst rsi n) (fun r s' => r = dst ∧ s' = s.filled dst (UInt8.ofNat rsi) n)
      (s.filled dst (UInt8.ofNat rsi) 0) := by
  have hdst := h.dst_le
  simp only [wr2b, cmpl, low32_eq (show n < 2 ^ 32 by omega), low32_eq (show 2 < 2 ^ 32 by decide),
    jb_cmpq, jne_cmpq, decide_eq_true_eq]
  by_cases hroom : n < 2
  · rw [if_pos hroom]
    exact wp_wr1b h (by omega)
  rw [if_neg hroom]
  refine h.fill (o := 0) (w := 1) (by omega) (by omega) (by omega) (by omega) (fun i hi => rfl) ?_
  refine h.fill (o := 1) (w := 1) (by omega) (by omega) (by omega) (by omega) (fun i hi => rfl) ?_
  by_cases hend : n = 2
  · rw [if_neg (not_not_intro hend), wp_pure, hend]
    exact ⟨rfl, rfl⟩
  · rw [if_pos hend, ea_eq (a := dst + 2) (by omega) (by omega)]
    exact wp_wr1b h (by omega)

theorem wp_wr4b (h : FillArea s dst n) (h0 : n ≠ 0) (hn : n < 8) :
    wp (wr4b dst dst rsi n) (fun r s' => r = dst ∧ s' = s.filled dst (UInt8.ofNat rsi) n)
      (s.filled dst (UInt8.ofNat rsi) 0) := by
  have hdst := h.dst_le
  simp only [wr4b, cmpl, low32_eq (show n < 2 ^ 32 by omega), low32_eq (show 4 < 2 ^ 32 by decide),
    jb_cmpq, je_cmpq, decide_eq_true_eq]
  by_cases hroom : n < 4
  · rw [if_pos hroom]
    exact wp_wr2b h h0 hroom
  rw [if_neg hroom]
  refine h.fill (o := 0) (w := 4) (by omega) (by omega) (by omega) (by omega)
    (fun i hi => vpshufb_broadcast (by omega)) ?_
  by_cases hend : n = 4
  · rw [if_pos hend, wp_pure, hend]
    exact ⟨rfl, rfl⟩
  rw [if_neg hend]
  refine h.fill (o := n - 4) (w := 4) (by omega) (by omega) (by omega) (by omega)
    (fun i hi => vpshufb_broadcast (by omega)) ?_
  rw [wp_pure, show n - 4 + 4 = n by omega]
  exact ⟨rfl, rfl⟩

theorem wp_wr8b (h : FillArea s dst n) (h0 : n ≠ 0) (hn : n < 16) :
    wp (wr8b dst dst rsi n) (fun r s' => r = dst ∧ s' = s.filled dst (UInt8.ofNat rsi) n)
      (s.filled dst (UInt8.ofNat rsi) 0) := by
  have hdst := h.dst_le
  simp only [wr8b, cmpl, low32_eq (show n < 2 ^ 32 by omega), low32_eq (show 8 < 2 ^ 32 by decide),
    jb_cmpq, je_cmpq, decide_eq_true_eq]
  by_cases hroom : n < 8
  · rw [if_pos hroom]
    exact wp_wr4b h h0 hroom
  rw [if_neg hroom]
  refine h.fill (o := 0) (w := 8) (by omega) (by omega) (by omega) (by omega)
    (fun i hi => vpshufb_broadcast (by omega)) ?_
  by_cases hend : n = 8
  · rw [if_pos hend, wp_pure, hend]
    exact ⟨rfl, rfl⟩
  rw [if_neg hend]
  refine h.fill (o := n - 8) (w := 8) (by omega) (by omega) (by omega) (by omega)
    (fun i hi => vpshufb_broadcast (by omega)) ?_
  rw [wp_pure, show n - 8 + 8 = n by omega]
  exact ⟨rfl, rfl⟩

theorem wp_wr16b (h : FillArea s dst n) (h0 : n ≠ 0) (hn : n < 32) :
    wp (wr16b dst dst rsi n) (fun r s' => r = dst ∧ s' = s.filled dst (UInt8.ofNat rsi) n)
      (s.filled dst (UInt8.ofNat rsi) 0) := by
  have hdst := h.dst_le
  simp only [wr16b, cmpl, low32_eq (show n < 2 ^ 32 by omega),
    low32_eq (show 16 < 2 ^ 32 by decide),
    jb_cmpq, je_cmpq, decide_eq_true_eq, xmm]
  by_cases hroom : n < 16
  · rw [if_pos hroom]
    exact wp_wr8b h h0 hroom
  rw [if_neg hroom]
  refine h.fill (o := 0) (w := 16) (by omega) (by omega) (by omega) (by omega)
    (fun i hi => vpshufb_broadcast (by omega)) ?_
  by_cases hend : n = 16
  · rw [if_pos hend, wp_pure, hend]
    exact ⟨rfl, rfl⟩
  rw [if_neg hend]
  refine h.fill (o := n - 16) (w := 16) (by omega) (by omega) (by omega) (by omega)
    (fun i hi => vpshufb_broadcast (by omega)) ?_
  rw [wp_pure, show n - 16 + 16 = n by omega]
  exact ⟨rfl, rfl⟩

/-! ### All lengths -/

/-- A fill of at least one byte. -/
theorem total_avx2Memset (h : FillArea s dst n) (h0 : n ≠ 0) :
    Total (avx2Memset dst rsi n)
      (fun r s' => r = dst ∧ s' = s.filled dst (UInt8.ofNat rsi) n) s := by
  have hdst := h.dst_le
  suffices hrun : Total (avx2Memset dst rsi n)
      (fun r s' => r = dst ∧ s' = s.filled dst (UInt8.ofNat rsi) n)
      (s.filled dst (UInt8.ofNat rsi) 0) by simpa using hrun
  by_cases hshort : n < 32
  · rw [show avx2Memset dst rsi n = fun _ => wr16b dst dst rsi n from funext fun fuel => by
      simp [avx2Memset, hshort]]
    exact Total.const (wp_wr16b h h0 hshort)
  by_cases heq : n = 32
  · subst heq
    rw [show avx2Memset dst rsi 32 = fun _ => wr32bUnaligned dst rsi from funext fun fuel => by
      simp [avx2Memset]]
    refine Total.const ?_
    refine h.fill (o := 0) (w := 16) (by omega) (by omega) (by omega) (by omega)
      (fun i hi => vpshufb_broadcast hi) ?_
    exact h.fill (o := 16) (w := 16) (by omega) (by omega) (by omega) (by omega)
      (fun i hi => vpshufb_broadcast hi) ⟨_, _, rfl, rfl, rfl⟩
  · obtain ⟨v, hv⟩ : ∃ v, v = vinserti128 (vpshufb xmm vpxorSelf (vmovdOf rsi))
      (vpshufb xmm vpxorSelf (vmovdOf rsi)) := ⟨_, rfl⟩
    have hlanes : ∀ i < 32, v i = UInt8.ofNat rsi := fun i hi => by
      rw [hv, vinserti128_broadcast hi]
    have hend : andq (imm (-0x20)) (ea (dst + 0x11f)) =
        dst + ((dst + 0x11f) / 32 * 32 - dst) := by
      rw [ea_eq (a := dst + 0x11f) (by omega) (by omega), andq_align (by omega)]
      omega
    have hlast : ea (dst + n) = dst + n := ea_eq (by omega) (by omega)
    have hrun : avx2Memset dst rsi n = fun fuel =>
        (vmovdquTo ymm v (ea dst) >>= fun _ => pure ()) >>= fun _ =>
          fuelLoop (wr256bBody dst (dst + n) v) fuel
            (dst + ((dst + 0x11f) / 32 * 32 - dst)) := by
      funext fuel
      simp [avx2Memset, hshort, heq, hend, hlast, hv]
    rw [hrun]
    refine Total.wp_bind (h.fill (o := 0) (w := 32) (by omega) (by omega) (by omega) (by omega)
      hlanes ⟨_, _, rfl, ?_⟩)
    exact total_wr256b h hlanes ⟨by omega, by omega, by omega, by omega, by omega, by omega⟩

/-- The cascade ends in the store of a byte even if there is none to fill. -/
theorem avx2Memset_zero (fuel : ℕ) : avx2Memset dst rsi 0 fuel = wr1b dst dst rsi := rfl

theorem FillArea.zero_fails (h : FillArea s dst 0) (fuel : ℕ) :
    avx2Memset dst rsi 0 fuel s = none := by
  have hdst := h.dst_le
  have hno : ¬ s.Writable dst 1 := fun hw => by
    have := (h.writable _).mp (hw 0 Nat.one_pos)
    omega
  rw [avx2Memset_zero, wr1b, movb, ea_eq (a := dst) (by omega) (by omega), bind_apply,
    store_fails hno]
  rfl

/-- The answer `r` and the space `s'` after `n` bytes were set to the low byte of `rsi`. -/
structure FillDone (s : Space) (dst rsi n r : ℕ) (s' : Space) : Prop where
  returned : r = dst
  filled : ∀ i < n, s'.bytes (dst + i) = UInt8.ofNat rsi
  kept : ∀ a, a < dst ∨ dst + n ≤ a → s'.bytes a = s.bytes a

/-- `cldm_avx2_memset` returns the destination and sets exactly its `n` bytes to the low
byte of the value, and writes no other, just when there is a byte to set. -/
theorem avx2_memset_correct (h : FillArea s dst n) :
    Total (avx2Memset dst rsi n) (FillDone s dst rsi n) s ↔ n ≠ 0 := by
  constructor
  · rintro ⟨r, s', ⟨fuel, hrun⟩, -⟩ rfl
    exact absurd ((h.zero_fails fuel).symm.trans (hrun fuel (Nat.le_refl _))) (by simp)
  · intro h0
    refine (total_avx2Memset h h0).mono ?_
    rintro r s' ⟨rfl, rfl⟩
    exact ⟨rfl, fun i hi => write_at hi, fun a ha => write_outside ha⟩

/-- The space whose bytes are zero and that grants the stores of a fill. -/
def fillSpace (dst n : ℕ) : Space where
  bytes := fun _ => 0
  readable := fun _ => false
  writable := fun a => dst ≤ a ∧ a < dst + n

theorem fillArea_fillSpace (h : dst + n ≤ 2 ^ 63) : FillArea (fillSpace dst n) dst n :=
  ⟨fun a => by simp [fillSpace], h⟩

/-- Seven bytes set to the low byte of 258. -/
theorem avx2_memset_correct_seven : FillArea (fillSpace 0x1003 7) 0x1003 7 ∧
    Total (avx2Memset 0x1003 0x102 7) (FillDone (fillSpace 0x1003 7) 0x1003 0x102 7)
      (fillSpace 0x1003 7) :=
  have h := fillArea_fillSpace (by decide)
  ⟨h, (avx2_memset_correct h).mpr (by decide)⟩

/-- A fill of no bytes writes the first one. -/
theorem avx2_memset_empty : FillArea (fillSpace 0x1000 0) 0x1000 0 ∧
    ¬ Total (avx2Memset 0x1000 0xff 0) (FillDone (fillSpace 0x1000 0) 0x1000 0xff 0)
      (fillSpace 0x1000 0) := by
  have h : FillArea (fillSpace 0x1000 0) 0x1000 0 := fillArea_fillSpace (by decide)
  refine ⟨h, ?_⟩
  rintro ⟨r, s', ⟨fuel, hrun⟩, -⟩
  exact absurd ((h.zero_fails fuel).symm.trans (hrun fuel (Nat.le_refl _))) (by simp)

end Cldm
