/-
The AVX2 copy of memory areas.

`avx2Memcpy` is `cldm_avx2_memcpy`, with a definition for each label of the
assembly source (`vzeroupper`, on which no result depends, is left out).

A copy of `n` bytes between areas apart from each other proceeds from the start: at
each label the destination holds the first `k` bytes (`Space.copied`), and every
move begins at an offset up to `k` and ends beyond it (`wp_move`).  From 32 bytes
on this is exact.  Below, the cascade of shorter moves ends in a byte that is
copied without a check:

* `avx2_memcpy_correct` — for every length, the routine copies exactly the `n`
  bytes if and only if `n` is not zero.
-/
import Cldm.Avx2

namespace Cldm

open Prog Space Avx2

/-! ### The routine -/

/-- `.Lcpylast32b` -/
def cpylast32b (rax rsi rdx rcx : ℕ) : Prog Space ℕ := do
  let r8 := ea (rcx - 0x20)
  let rcx := subq rdx rcx
  let r8 := subq rcx r8
  let ymm0 ← vmovdqu ymm (ea (rsi + r8))
  vmovdquTo ymm ymm0 (ea (rax + r8))
  return rax

/-- `.Lcpy32b` -/
def cpy32b (rax rsi rdx rcx : ℕ) : Prog Space ℕ :=
  let rcx := subq 0x20 rcx
  let fl := cmpq rcx rdx
  if jb fl then cpylast32b rax rsi rdx rcx else do
  let ymm0 ← vmovdqu ymm (ea (rsi + rcx - 0x20))
  vmovdqaTo ymm ymm0 (ea (rax + rcx - 0x20))
  if jna fl then return rax else
  let rcx := ea (rcx + 0x20)
  cpylast32b rax rsi rdx rcx

/-- `.Lcpy64b` -/
def cpy64b (rax rsi rdx rcx : ℕ) : Prog Space ℕ :=
  let rcx := subq 0x40 rcx
  let fl := cmpq rcx rdx
  if jb fl then cpy32b rax rsi rdx rcx else do
  let ymm0 ← vmovdqu ymm (ea (rsi + rcx - 0x40))
  vmovdqaTo ymm ymm0 (ea (rax + rcx - 0x40))
  let ymm1 ← vmovdqu ymm (ea (rsi + rcx - 0x20))
  vmovdqaTo ymm ymm1 (ea (rax + rcx - 0x20))
  if jna fl then return rax else
  let rcx := ea (rcx + 0x40)
  cpy32b rax rsi rdx rcx

/-- `.Lcpy128b` -/
def cpy128b (rax rsi rdx rcx : ℕ) : Prog Space ℕ :=
  let rcx := subq 0x80 rcx
  let fl := cmpq rcx rdx
  if jb fl then cpy64b rax rsi rdx rcx else do
  let ymm0 ← vmovdqu ymm (ea (rsi + rcx - 0x80))
  vmovdqaTo ymm ymm0 (ea (rax + rcx - 0x80))
  let ymm1 ← vmovdqu ymm (ea (rsi + rcx - 0x60))
  vmovdqaTo ymm ymm1 (ea (rax + rcx - 0x60))
  let ymm2 ← vmovdqu ymm (ea (rsi + rcx - 0x40))
  vmovdqaTo ymm ymm2 (ea (rax + rcx - 0x40))
  let ymm3 ← vmovdqu ymm (ea (rsi + rcx - 0x20))
  vmovdqaTo ymm ymm3 (ea (rax + rcx - 0x20))
  if jna fl then return rax else
  let rcx := ea (rcx + 0x80)
  cpy64b rax rsi rdx rcx

/-- `.Lcpy256b`, once around -/
def cpy256bBody (rax rsi rdx rcx : ℕ) : Prog Space (ℕ ⊕ ℕ) :=
  let fl := cmpq rcx rdx
  if jb fl then .inr <$> cpy128b rax rsi rdx rcx else do
  let ymm0 ← vmovdqu ymm (ea (rsi + rcx - 0x100))
  vmovdqaTo ymm ymm0 (ea (rax + rcx - 0x100))
  let ymm1 ← vmovdqu ymm (ea (rsi + rcx - 0xe0))
  vmovdqaTo ymm ymm1 (ea (rax + rcx - 0xe0))
  let ymm2 ← vmovdqu ymm (ea (rsi + rcx - 0xc0))
  vmovdqaTo ymm ymm2 (ea (rax + rcx - 0xc0))
  let ymm3 ← vmovdqu ymm (ea (rsi + rcx - 0xa0))
  vmovdqaTo ymm ymm3 (ea (rax + rcx - 0xa0))
  let ymm4 ← vmovdqu ymm (ea (rsi + rcx - 0x80))
  vmovdqaTo ymm ymm4 (ea (rax + rcx - 0x80))
  let ymm5 ← vmovdqu ymm (ea (rsi + rcx - 0x60))
  vmovdqaTo ymm ymm5 (ea (rax + rcx - 0x60))
  let ymm6 ← vmovdqu ymm (ea (rsi + rcx - 0x40))
  vmovdqaTo ymm ymm6 (ea (rax + rcx - 0x40))
  let ymm7 ← vmovdqu ymm (ea (rsi + rcx - 0x20))
  vmovdqaTo ymm ymm7 (ea (rax + rcx - 0x20))
  let rcx := ea (rcx + 0x100)
  if ja fl then return .inl rcx else return .inr rax

/-- `.Lcpy32b_unaligned` -/
def cpy32bUnaligned (rax rsi : ℕ) : Prog Space ℕ := do
  let ymm0 ← vmovdqu ymm (ea rsi)
  vmovdquTo ymm ymm0 (ea rax)
  return rax

/-- `.Lcpy1b` -/
def cpy1b (rax rdi rsi rcx : ℕ) : Prog Space ℕ := do
  let r8 ← movzxb (ea (rsi + rcx))
  movb r8 (ea (rdi + rcx))
  return rax

/-- `.Lcpy2b` -/
def cpy2b (rax rdi rsi rdx rcx : ℕ) : Prog Space ℕ :=
  let fl := cmpl 0x02 rdx
  if jb fl then cpy1b rax rdi rsi rcx else do
  let r8 ← movzxb (ea rsi)
  movb r8 (ea rdi)
  let r9 ← movzxb (ea (rsi + 0x01))
  movb r9 (ea (rdi + 0x01))
  if je fl then return rax else
  let rcx := leal (rcx + 0x02)
  cpy1b rax rdi rsi rcx

/-- `.Lcpy4b` -/
def cpy4b (rax rdi rsi rdx rcx : ℕ) : Prog Space ℕ :=
  let fl := cmpl 0x04 rdx
  if jb fl then cpy2b rax rdi rsi rdx rcx else do
  let xmm0 ← vmovd (ea rsi)
  vmovdTo xmm0 (ea rdi)
  if je fl then return rax else
  let rcx := leal (rdx - 0x04)
  let xmm0 ← vmovd (ea (rsi + rcx))
  vmovdTo xmm0 (ea (rdi + rcx))
  return rax

/-- `.Lcpy8b` -/
def cpy8b (rax rdi rsi rdx rcx : ℕ) : Prog Space ℕ :=
  let fl := cmpl 0x08 rdx
  if jb fl then cpy4b rax rdi rsi rdx rcx else do
  let xmm0 ← vmovq (ea rsi)
  vmovqTo xmm0 (ea rdi)
  if je fl then return rax else
  let rcx := leal (rdx - 0x08)
  let xmm0 ← vmovq (ea (rsi + rcx))
  vmovqTo xmm0 (ea (rdi + rcx))
  return rax

/-- `.Lcpy16b` -/
def cpy16b (rax rdi rsi rdx : ℕ) : Prog Space ℕ :=
  let rcx := 0
  let fl := cmpl 0x10 rdx
  if jb fl then cpy8b rax rdi rsi rdx rcx else do
  let xmm0 ← vmovdqu xmm (ea rsi)
  vmovdquTo xmm xmm0 (ea rax)
  if je fl then return rax else
  let rcx := leal (rdx - 0x10)
  let xmm0 ← vmovdqu xmm (ea (rsi + rcx))
  vmovdquTo xmm xmm0 (ea (rdi + rcx))
  return rax

/-- `cldm_avx2_memcpy`: `rdi` is the destination, `rsi` the source and `rdx` the number of
bytes. -/
def avx2Memcpy (rdi rsi rdx fuel : ℕ) : Prog Space ℕ :=
  let rax := rdi
  let fl := cmpq 0x20 rdx
  if jb fl then cpy16b rax rdi rsi rdx else
  if je fl then cpy32bUnaligned rax rsi else do
  let ymm0 ← vmovdqu ymm (ea rsi)
  vmovdquTo ymm ymm0 (ea rax)
  let rcx := ea (rax + 0x120)
  let rcx := andq (imm (-0x20)) rcx
  let rcx := subq rax rcx
  fuelLoop (cpy256bBody rax rsi rdx) fuel rcx

/-! ### Copies -/

variable {s : Space} {dst src n k o w rcx : ℕ} {Q : ℕ → Space → Prop}

/-- Two areas of `n` bytes apart from each other, in the lower half of the address space,
of which just the source may be read and just the destination may be written. -/
structure CopyArea (s : Space) (dst src n : ℕ) : Prop where
  readable : ∀ a, s.readable a = true ↔ src ≤ a ∧ a < src + n
  writable : ∀ a, s.writable a = true ↔ dst ≤ a ∧ a < dst + n
  apart : src + n ≤ dst ∨ dst + n ≤ src
  dst_le : dst + n ≤ 2 ^ 63
  src_le : src + n ≤ 2 ^ 63

theorem CopyArea.load (h : CopyArea s dst src n) (hk : k ≤ n) (hn : o + w ≤ n)
    {P : Lanes → Space → Prop} : wp (Space.load w (src + o)) P (s.copied dst src k) ↔
      P (s.lanes w (src + o)) (s.copied dst src k) := by
  have hr : (s.copied dst src k).Readable (src + o) w :=
    fun i hi => (h.readable _).mpr ⟨by omega, by omega⟩
  have hapart := h.apart
  rw [Space.wp_load hr, copied, lanes_write (by omega)]

/-- A move that reaches beyond what has been copied. -/
theorem CopyArea.move (h : CopyArea s dst src n) {x y : ℤ} (hx : x = src + o) (hy : y = dst + o)
    (ho : o ≤ k) (hk : k ≤ o + w) (hn : o + w ≤ n) {γ : Type} {f : Prog Space γ}
    {P : γ → Space → Prop} (hf : wp f P (s.copied dst src (o + w))) :
    wp (do let v ← Space.load w (ea x); Space.store w (ea y) v; f) P (s.copied dst src k) := by
  have hdst := h.dst_le
  have hsrc := h.src_le
  rw [ea_eq (a := src + o) (by omega) (by omega), ea_eq (a := dst + o) (by omega) (by omega)]
  have hw : (s.copied dst src k).Writable (dst + o) w :=
    fun i hi => (h.writable _).mpr ⟨by omega, by omega⟩
  rw [wp_bind, h.load (by omega) hn, wp_bind, Space.wp_store hw,
    copied_write ho hk fun i hi => lanes_of_lt hi]
  exact hf

theorem CopyArea.moveAligned (h : CopyArea s dst src n) {x y : ℤ} (hx : x = src + o)
    (hy : y = dst + o) (hal : (dst + o) % w = 0)
    (ho : o ≤ k) (hk : k ≤ o + w) (hn : o + w ≤ n) {γ : Type} {f : Prog Space γ}
    {P : γ → Space → Prop} (hf : wp f P (s.copied dst src (o + w))) :
    wp (do let v ← vmovdqu w (ea x); vmovdqaTo w v (ea y); f) P (s.copied dst src k) := by
  have hdst := h.dst_le
  have hyo : ea y = dst + o := ea_eq (by omega) (by omega)
  simp only [vmovdqaTo, hyo, hal, if_true]
  rw [← hyo]
  exact h.move hx hy ho hk hn hf

theorem CopyArea.moveByte (h : CopyArea s dst src n) {x y : ℤ} (hx : x = src + o)
    (hy : y = dst + o) (ho : o ≤ k) (hk : k ≤ o + 1) (hn : o + 1 ≤ n) {γ : Type} {f : Prog Space γ}
    {P : γ → Space → Prop} (hf : wp f P (s.copied dst src (o + 1))) :
    wp (do let r ← movzxb (ea x); movb r (ea y); f) P (s.copied dst src k) := by
  have hdst := h.dst_le
  have hsrc := h.src_le
  rw [ea_eq (a := src + o) (by omega) (by omega), ea_eq (a := dst + o) (by omega) (by omega)]
  have hw : (s.copied dst src k).Writable (dst + o) 1 :=
    fun i hi => (h.writable _).mpr ⟨by omega, by omega⟩
  simp only [movzxb, movb, wp_bind]
  rw [h.load (by omega) hn, wp_pure, wp_bind, Space.wp_store hw, copied_write ho hk]
  · exact hf
  · intro i hi
    obtain rfl : i = 0 := by omega
    rw [UInt8.ofNat_toNat, lanes_of_lt Nat.one_pos]

theorem wp_cpylast32b (h : CopyArea s dst src n) (hn : n < rcx) (hlo : 0x20 ≤ rcx)
    (hk : rcx ≤ k + 0x20) (hkn : k < n) (h32 : 32 ≤ k) :
    wp (cpylast32b dst src n rcx) (fun r s' => r = dst ∧ s' = s.copied dst src n)
      (s.copied dst src k) := by
  have hdst := h.dst_le
  have hr8 : subq (subq n rcx) (ea (rcx - 0x20)) = n - 32 := by
    rw [ea_eq (a := rcx - 0x20) (by omega) (by omega), subq_eq (a := n) (by omega) (by omega),
      subq_eq (by omega) (by omega)]
    omega
  simp only [cpylast32b, hr8, ymm]
  refine h.move (o := n - 32) (by omega) (by omega) (by omega) (by omega) (by omega) ?_
  rw [show n - 32 + 32 = n by omega]
  exact ⟨_, _, rfl, rfl, rfl⟩

theorem wp_cpy32b (h : CopyArea s dst src n) (hb : NextBlock dst n 0x40 k rcx) (hn : n < rcx) :
    wp (cpy32b dst src n rcx) (fun r s' => r = dst ∧ s' = s.copied dst src n)
      (s.copied dst src k) := by
  have hdst := h.dst_le
  obtain ⟨hleft, hhead, hsize, hstart, hfresh, hal⟩ := hb
  have hrcx : subq 0x20 rcx = rcx - 0x20 := subq_eq (by omega) (by omega)
  simp only [cpy32b, hrcx, jb_cmpq, jna_cmpq, decide_eq_true_eq, ymm]
  by_cases hroom : n < rcx - 0x20
  · rw [if_pos hroom]
    exact wp_cpylast32b h hroom (by omega) (by omega) hleft hhead
  rw [if_neg hroom]
  refine h.moveAligned (o := rcx - 0x40) (by omega) (by omega) (by omega) (by omega) (by omega)
    (by omega) ?_
  by_cases hend : n ≤ rcx - 0x20
  · rw [if_pos hend, wp_pure, show rcx - 0x40 + 32 = n by omega]
    exact ⟨rfl, rfl⟩
  · rw [if_neg hend, ea_eq (a := rcx) (by omega) (by omega)]
    exact wp_cpylast32b h hn (by omega) (by omega) (by omega) (by omega)

theorem wp_cpy64b (h : CopyArea s dst src n) (hb : NextBlock dst n 0x80 k rcx) (hn : n < rcx) :
    wp (cpy64b dst src n rcx) (fun r s' => r = dst ∧ s' = s.copied dst src n)
      (s.copied dst src k) := by
  have hdst := h.dst_le
  obtain ⟨hleft, hhead, hsize, hstart, hfresh, hal⟩ := hb
  have hrcx : subq 0x40 rcx = rcx - 0x40 := subq_eq (by omega) (by omega)
  simp only [cpy64b, hrcx, jb_cmpq, jna_cmpq, decide_eq_true_eq, ymm]
  by_cases hroom : n < rcx - 0x40
  · rw [if_pos hroom]
    exact wp_cpy32b h ⟨hleft, hhead, by omega, by omega, by omega, by omega⟩ hroom
  rw [if_neg hroom]
  refine h.moveAligned (o := rcx - 0x80) (by omega) (by omega) (by omega) (by omega) (by omega)
    (by omega) ?_
  refine h.moveAligned (o := rcx - 0x60) (by omega) (by omega) (by omega) (by omega) (by omega)
    (by omega) ?_
  by_cases hend : n ≤ rcx - 0x40
  · rw [if_pos hend, wp_pure, show rcx - 0x60 + 32 = n by omega]
    exact ⟨rfl, rfl⟩
  · rw [if_neg hend, ea_eq (a := rcx) (by omega) (by omega)]
    exact wp_cpy32b h ⟨by omega, by omega, by omega, by omega, by omega, hal⟩ hn

theorem wp_cpy128b (h : CopyArea s dst src n) (hb : NextBlock dst n 0x100 k rcx) (hn : n < rcx) :
    wp (cpy128b dst src n rcx) (fun r s' => r = dst ∧ s' = s.copied dst src n)
      (s.copied dst src k) := by
  have hdst := h.dst_le
  obtain ⟨hleft, hhead, hsize, hstart, hfresh, hal⟩ := hb
  have hrcx : subq 0x80 rcx = rcx - 0x80 := subq_eq (by omega) (by omega)
  simp only [cpy128b, hrcx, jb_cmpq, jna_cmpq, decide_eq_true_eq, ymm]
  by_cases hroom : n < rcx - 0x80
  · rw [if_pos hroom]
    exact wp_cpy64b h ⟨hleft, hhead, by omega, by omega, by omega, by omega⟩ hroom
  rw [if_neg hroom]
  refine h.moveAligned (o := rcx - 0x100) (by omega) (by omega) (by omega) (by omega) (by omega)
    (by omega) ?_
  refine h.moveAligned (o := rcx - 0xe0) (by omega) (by omega) (by omega) (by omega) (by omega)
    (by omega) ?_
  refine h.moveAligned (o := rcx - 0xc0) (by omega) (by omega) (by omega) (by omega) (by omega)
    (by omega) ?_
  refine h.moveAligned (o := rcx - 0xa0) (by omega) (by omega) (by omega) (by omega) (by omega)
    (by omega) ?_
  by_cases hend : n ≤ rcx - 0x80
  · rw [if_pos hend, wp_pure, show rcx - 0xa0 + 32 = n by omega]
    exact ⟨rfl, rfl⟩
  · rw [if_neg hend, ea_eq (a := rcx) (by omega) (by omega)]
    exact wp_cpy64b h ⟨by omega, by omega, by omega, by omega, by omega, hal⟩ hn

/-- One turn of the loop copies the rest of the area, or 256 bytes of it. -/
theorem wp_cpy256bBody (h : CopyArea s dst src n) (hb : NextBlock dst n 0x100 k rcx) :
    wp (cpy256bBody dst src n rcx) (fun r s' => Sum.elim
      (fun rcx' => s' = s.copied dst src rcx ∧ NextBlock dst n 0x100 rcx rcx')
      (fun r => r = dst ∧ s' = s.copied dst src n) r) (s.copied dst src k) := by
  have hdst := h.dst_le
  simp only [cpy256bBody, jb_cmpq, ja_cmpq, decide_eq_true_eq, ymm]
  by_cases hroom : n < rcx
  · rw [if_pos hroom, wp_map]
    exact wp_cpy128b h hb hroom
  obtain ⟨hleft, hhead, hsize, hstart, hfresh, hal⟩ := hb
  rw [if_neg hroom]
  refine h.moveAligned (o := rcx - 0x100) (by omega) (by omega) (by omega) (by omega) (by omega)
    (by omega) ?_
  refine h.moveAligned (o := rcx - 0xe0) (by omega) (by omega) (by omega) (by omega) (by omega)
    (by omega) ?_
  refine h.moveAligned (o := rcx - 0xc0) (by omega) (by omega) (by omega) (by omega) (by omega)
    (by omega) ?_
  refine h.moveAligned (o := rcx - 0xa0) (by omega) (by omega) (by omega) (by omega) (by omega)
    (by omega) ?_
  refine h.moveAligned (o := rcx - 0x80) (by omega) (by omega) (by omega) (by omega) (by omega)
    (by omega) ?_
  refine h.moveAligned (o := rcx - 0x60) (by omega) (by omega) (by omega) (by omega) (by omega)
    (by omega) ?_
  refine h.moveAligned (o := rcx - 0x40) (by omega) (by omega) (by omega) (by omega) (by omega)
    (by omega) ?_
  refine h.moveAligned (o := rcx - 0x20) (by omega) (by omega) (by omega) (by omega) (by omega)
    (by omega) ?_
  rw [show rcx - 0x20 + 32 = rcx by omega]
  by_cases hmore : rcx < n
  · rw [if_pos hmore, wp_pure]
    rw [ea_eq (a := rcx + 0x100) (by omega) (by omega)]
    exact ⟨rfl, hmore, by omega, by omega, by omega, by omega, by omega⟩
  · rw [if_neg hmore, wp_pure, show rcx = n by omega]
    exact ⟨rfl, rfl⟩

/-- The loop over blocks of 256 bytes. -/
theorem total_cpy256b (h : CopyArea s dst src n) (hb : NextBlock dst n 0x100 k rcx) :
    Total (fun fuel => fuelLoop (cpy256bBody dst src n) fuel rcx)
      (fun r s' => r = dst ∧ s' = s.copied dst src n) (s.copied dst src k) := by
  refine total_loop (f := fun _ => cpy256bBody dst src n)
    (I := fun left rcx s' => ∃ k, left = n - k ∧ s' = s.copied dst src k ∧
      NextBlock dst n 0x100 k rcx) ?_ (n - k) rcx _ ⟨k, rfl, rfl, hb⟩
  rintro left rcx s' ⟨k, rfl, rfl, hb⟩
  refine (Total.const (wp_cpy256bBody h hb)).mono ?_
  rintro (rcx' | r) s' hr
  · obtain ⟨rfl, hb'⟩ := hr
    -- the blocks overlap with the head, but each ends beyond what was copied
    have hleft := hb.left
    have hgrow := hb.fresh
    exact ⟨n - rcx, by omega, rcx, rfl, rfl, hb'⟩
  · exact hr

theorem wp_cpy1b (h : CopyArea s dst src n) (hn : n = k + 1) :
    wp (cpy1b dst dst src k) (fun r s' => r = dst ∧ s' = s.copied dst src n)
      (s.copied dst src k) := by
  subst hn
  refine h.moveByte (o := k) (by omega) (by omega) (by omega) (by omega) (by omega) ?_
  exact ⟨_, _, rfl, rfl, rfl⟩

/-! ### Fewer than 32 bytes -/

theorem wp_cpy2b (h : CopyArea s dst src n) (h0 : n ≠ 0) (hn : n < 4) :
    wp (cpy2b dst dst src n 0) (fun r s' => r = dst ∧ s' = s.copied dst src n)
      (s.copied dst src 0) := by
  simp only [cpy2b, cmpl, low32_eq (show n < 2 ^ 32 by omega), low32_eq (show 2 < 2 ^ 32 by decide),
    jb_cmpq, je_cmpq, decide_eq_true_eq]
  by_cases hroom : n < 2
  · rw [if_pos hroom]
    exact wp_cpy1b h (by omega)
  rw [if_neg hroom]
  refine h.moveByte (o := 0) (by omega) (by omega) (by omega) (by omega) (by omega) ?_
  refine h.moveByte (o := 1) (by omega) (by omega) (by omega) (by omega) (by omega) ?_
  by_cases hend : n = 2
  · rw [if_pos hend, wp_pure, hend]
    exact ⟨rfl, rfl⟩
  · rw [if_neg hend, leal_eq (a := 2) (by omega) (by omega)]
    exact wp_cpy1b h (by omega)

theorem wp_cpy4b (h : CopyArea s dst src n) (h0 : n ≠ 0) (hn : n < 8) :
    wp (cpy4b dst dst src n 0) (fun r s' => r = dst ∧ s' = s.copied dst src n)
      (s.copied dst src 0) := by
  simp only [cpy4b, cmpl, low32_eq (show n < 2 ^ 32 by omega), low32_eq (show 4 < 2 ^ 32 by decide),
    jb_cmpq, je_cmpq, decide_eq_true_eq]
  by_cases hroom : n < 4
  · rw [if_pos hroom]
    exact wp_cpy2b h h0 hroom
  rw [if_neg hroom]
  refine h.move (o := 0) (w := 4) (by omega) (by omega) (by omega) (by omega) (by omega) ?_
  by_cases hend : n = 4
  · rw [if_pos hend, wp_pure, hend]
    exact ⟨rfl, rfl⟩
  rw [if_neg hend, leal_eq (a := n - 4) (by omega) (by omega)]
  refine h.move (o := n - 4) (by omega) (by omega) (by omega) (by omega) (by omega) ?_
  rw [wp_pure, show n - 4 + 4 = n by omega]
  exact ⟨rfl, rfl⟩

theorem wp_cpy8b (h : CopyArea s dst src n) (h0 : n ≠ 0) (hn : n < 16) :
    wp (cpy8b dst dst src n 0) (fun r s' => r = dst ∧ s' = s.copied dst src n)
      (s.copied dst src 0) := by
  simp only [cpy8b, cmpl, low32_eq (show n < 2 ^ 32 by omega), low32_eq (show 8 < 2 ^ 32 by decide),
    jb_cmpq, je_cmpq, decide_eq_true_eq]
  by_cases hroom : n < 8
  · rw [if_pos hroom]
    exact wp_cpy4b h h0 hroom
  rw [if_neg hroom]
  refine h.move (o := 0) (w := 8) (by omega) (by omega) (by omega) (by omega) (by omega) ?_
  by_cases hend : n = 8
  · rw [if_pos hend, wp_pure, hend]
    exact ⟨rfl, rfl⟩
  rw [if_neg hend, leal_eq (a := n - 8) (by omega) (by omega)]
  refine h.move (o := n - 8) (by omega) (by omega) (by omega) (by omega) (by omega) ?_
  rw [wp_pure, show n - 8 + 8 = n by omega]
  exact ⟨rfl, rfl⟩

theorem wp_cpy16b (h : CopyArea s dst src n) (h0 : n ≠ 0) (hn : n < 32) :
    wp (cpy16b dst dst src n) (fun r s' => r = dst ∧ s' = s.copied dst src n)
      (s.copied dst src 0) := by
  simp only [cpy16b, cmpl, low32_eq (show n < 2 ^ 32 by omega),
    low32_eq (show 16 < 2 ^ 32 by decide), jb_cmpq, je_cmpq, decide_eq_true_eq, xmm]
  by_cases hroom : n < 16
  · rw [if_pos hroom]
    exact wp_cpy8b h h0 hroom
  rw [if_neg hroom]
  refine h.move (o := 0) (by omega) (by omega) (by omega) (by omega) (by omega) ?_
  by_cases hend : n = 16
  · rw [if_pos hend, wp_pure, hend]
    exact ⟨rfl, rfl⟩
  rw [if_neg hend, leal_eq (a := n - 16) (by omega) (by omega)]
  refine h.move (o := n - 16) (by omega) (by omega) (by omega) (by omega) (by omega) ?_
  rw [wp_pure, show n - 16 + 16 = n by omega]
  exact ⟨rfl, rfl⟩

/-! ### All lengths -/

/-- A copy of at least one byte. -/
theorem total_avx2Memcpy (h : CopyArea s dst src n) (h0 : n ≠ 0) :
    Total (avx2Memcpy dst src n) (fun r s' => r = dst ∧ s' = s.copied dst src n) s := by
  have hdst := h.dst_le
  suffices hrun : Total (avx2Memcpy dst src n) (fun r s' => r = dst ∧ s' = s.copied dst src n)
      (s.copied dst src 0) by simpa using hrun
  by_cases hshort : n < 32
  · rw [show avx2Memcpy dst src n = fun _ => cpy16b dst dst src n from funext fun fuel => by
      simp [avx2Memcpy, hshort]]
    exact Total.const (wp_cpy16b h h0 hshort)
  by_cases heq : n = 32
  · subst heq
    rw [show avx2Memcpy dst src 32 = fun _ => cpy32bUnaligned dst src from funext fun fuel => by
      simp [avx2Memcpy]]
    exact Total.const (h.move (o := 0) (w := 32) (by omega) (by omega) (by omega) (by omega)
      (by omega) ⟨_, _, rfl, rfl, rfl⟩)
  · have hend : subq dst (andq (imm (-0x20)) (ea (dst + 0x120))) =
        (dst + 0x120) / 32 * 32 - dst := by
      rw [ea_eq (a := dst + 0x120) (by omega) (by omega), andq_align (by omega),
        subq_eq (by omega) (by omega)]
    have hrun : avx2Memcpy dst src n = fun fuel =>
        (vmovdqu ymm (ea src) >>= fun v => vmovdquTo ymm v (ea dst) >>= fun _ => pure ()) >>=
          fun _ => fuelLoop (cpy256bBody dst src n) fuel ((dst + 0x120) / 32 * 32 - dst) := by
      funext fuel
      simp [avx2Memcpy, hshort, heq, hend]
    rw [hrun]
    refine Total.wp_bind (h.move (o := 0) (w := 32) (by omega) (by omega) (by omega) (by omega)
      (by omega) ⟨_, _, rfl, ?_⟩)
    exact total_cpy256b h ⟨by omega, by omega, by omega, by omega, by omega, by omega⟩

/-- The cascade ends in the copy of a byte even if there is none to copy. -/
theorem avx2Memcpy_zero (fuel : ℕ) : avx2Memcpy dst src 0 fuel = cpy1b dst dst src 0 := rfl

theorem CopyArea.zero_fails (h : CopyArea s dst src 0) (fuel : ℕ) :
    avx2Memcpy dst src 0 fuel s = none := by
  have hsrc := h.src_le
  have hno : ¬ s.Readable src 1 := fun hr => by
    have := (h.readable _).mp (hr 0 Nat.one_pos)
    omega
  rw [avx2Memcpy_zero, cpy1b, movzxb, ea_eq (a := src) (by omega) (by omega), bind_apply,
    bind_apply, load_fails hno]
  rfl

/-- The answer `r` and the space `s'` after a copy of `n` bytes. -/
structure CopyDone (s : Space) (dst src n r : ℕ) (s' : Space) : Prop where
  returned : r = dst
  copied : ∀ i < n, s'.bytes (dst + i) = s.bytes (src + i)
  kept : ∀ a, a < dst ∨ dst + n ≤ a → s'.bytes a = s.bytes a

/-- `cldm_avx2_memcpy` returns the destination and copies exactly the `n` bytes, with no
access of any other byte, just when there is a byte to copy. -/
theorem avx2_memcpy_correct (h : CopyArea s dst src n) :
    Total (avx2Memcpy dst src n) (CopyDone s dst src n) s ↔ n ≠ 0 := by
  constructor
  · rintro ⟨r, s', ⟨fuel, hrun⟩, -⟩ rfl
    exact absurd ((h.zero_fails fuel).symm.trans (hrun fuel (Nat.le_refl _))) (by simp)
  · intro h0
    refine (total_avx2Memcpy h h0).mono ?_
    rintro r s' ⟨rfl, rfl⟩
    exact ⟨rfl, fun i hi => write_at hi, fun a ha => write_outside ha⟩

/-- The space that holds at every address its low byte and grants the accesses of a copy. -/
def copySpace (dst src n : ℕ) : Space where
  bytes := UInt8.ofNat
  readable := fun a => src ≤ a ∧ a < src + n
  writable := fun a => dst ≤ a ∧ a < dst + n

theorem copyArea_copySpace (h : src + n ≤ dst ∨ dst + n ≤ src) (hdst : dst + n ≤ 2 ^ 63)
    (hsrc : src + n ≤ 2 ^ 63) : CopyArea (copySpace dst src n) dst src n :=
  ⟨fun a => by simp [copySpace], fun a => by simp [copySpace], h, hdst, hsrc⟩

/-- A copy of five bytes. -/
theorem avx2_memcpy_correct_five : CopyArea (copySpace 0x1003 0x2001 5) 0x1003 0x2001 5 ∧
    Total (avx2Memcpy 0x1003 0x2001 5) (CopyDone (copySpace 0x1003 0x2001 5) 0x1003 0x2001 5)
      (copySpace 0x1003 0x2001 5) :=
  have h := copyArea_copySpace (.inr (by decide)) (by decide) (by decide)
  ⟨h, (avx2_memcpy_correct h).mpr (by decide)⟩

/-- A copy of no bytes reads the first byte of the source. -/
theorem avx2_memcpy_empty : CopyArea (copySpace 0x1000 0x2000 0) 0x1000 0x2000 0 ∧
    ¬ Total (avx2Memcpy 0x1000 0x2000 0) (CopyDone (copySpace 0x1000 0x2000 0) 0x1000 0x2000 0)
      (copySpace 0x1000 0x2000 0) := by
  have h : CopyArea (copySpace 0x1000 0x2000 0) 0x1000 0x2000 0 :=
    copyArea_copySpace (.inr (by decide)) (by decide) (by decide)
  refine ⟨h, ?_⟩
  rintro ⟨r, s', ⟨fuel, hrun⟩, -⟩
  exact absurd ((h.zero_fails fuel).symm.trans (hrun fuel (Nat.le_refl _))) (by simp)

end Cldm
