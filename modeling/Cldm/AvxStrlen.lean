/-
The AVX2 length of strings.

`avx2Strlen` is `cldm_avx2_strlen`, with a definition for each label of the assembly
source; the labels of the aligned part are the states `StrlenAt` of one loop.

A string that begins among the last 31 bytes of a page is read by steps of 16, 8, 4, 2
and one byte up to the boundary, each taken if it still fits; from there on whole vectors
stay on one page.

* `StringArea` — a string of which only the pages with its bytes may be read;
* `avx2_strlen_correct` — for every string and address, the answer is the length of
  the string, and no other page is read.
-/
import Cldm.AvxStrcmp

namespace Cldm

namespace AvxStrlen

open Prog Space Avx2

/-! ### The routine -/

/-- The labels of the aligned part, with the offset. -/
inductive StrlenAt
  | cmp128bPgchk (rax : ℕ)
  | cmp128b (rax : ℕ)
  | pgx32b (rax : ℕ)

/-- `.Lcmp128b_pgchk` -/
def cmp128bPgchk (rdi rax : ℕ) : Prog Space (StrlenAt ⊕ ℕ) :=
  let rcx := ea (rdi + rax)
  let rcx := andl (pgsize - 1) rcx
  let fl := cmpl (pgsize - 0x80) rcx
  if ja fl then return .inl (.pgx32b rax) else return .inl (.cmp128b rax)

/-- The end of `.Lcmp128b`: the search for the vector with the null byte, which is read
again. -/
def nullYmmword (ymm15 : Lanes) (rdi rax : ℕ) (ymm4 ymm5 ymm6 : Lanes) : Prog Space ℕ := do
  let rcx := 0x20
  let found := fun v => jnz (vptest ymm v v)
  let rax := ([ymm4, ymm5, ymm6].foldl (Avx2.search found) (rax, rcx)).1
  let ymm0 ← vmovdqa ymm (ea (rdi + rax))
  let ymm4 := vpcmpeqb ymm ymm15 ymm0
  let rcx := vpmovmskb ymm ymm4
  let rdx := tzcntl rcx
  return ea (rax + rdx)

/-- `.Lcmp128b` -/
def cmp128b (ymm15 : Lanes) (rdi rax : ℕ) : Prog Space (StrlenAt ⊕ ℕ) := do
  let ymm0 ← vmovdqa ymm (ea (rdi + rax))
  let ymm4 := vpcmpeqb ymm ymm15 ymm0
  let ymm1 ← vmovdqa ymm (ea (rdi + rax + 0x20))
  let ymm5 := vpcmpeqb ymm ymm15 ymm1
  let ymm2 ← vmovdqa ymm (ea (rdi + rax + 0x40))
  let ymm6 := vpcmpeqb ymm ymm15 ymm2
  let ymm3 ← vmovdqa ymm (ea (rdi + rax + 0x60))
  let ymm7 := vpcmpeqb ymm ymm15 ymm3
  let ymm8 := vpor ymm4 ymm5
  let ymm9 := vpor ymm6 ymm7
  let ymm10 := vpor ymm8 ymm9
  let rax := ea (rax + 0x80)
  if jz (vptest ymm ymm10 ymm10) then return .inl (.cmp128bPgchk rax) else
  let rax := ea (rax - 0x80)
  .inr <$> nullYmmword ymm15 rdi rax ymm4 ymm5 ymm6

/-- `.Lpgx32b` and `.Lpgx32b_next` -/
def pgx32b (ymm15 : Lanes) (rdi rax : ℕ) : Prog Space (StrlenAt ⊕ ℕ) := do
  let ymm0 ← vmovdqa ymm (ea (rdi + rax))
  let ymm4 := vpcmpeqb ymm ymm15 ymm0
  if jz (vptest ymm ymm4 ymm4) then
    let rax := ea (rax + 0x20)
    let rcx := ea (rdi + rax)
    let rcx := andl (pgsize - 1) rcx
    if jz (testl rcx rcx) then return .inl (.cmp128b rax) else return .inl (.pgx32b rax)
  else
    let rsi := vpmovmskb ymm ymm4
    let rdx := tzcntl rsi
    return .inr (ea (rax + rdx))

/-- The code at a label. -/
def strlenStep (ymm15 : Lanes) (rdi : ℕ) : StrlenAt → Prog Space (StrlenAt ⊕ ℕ)
  | .cmp128bPgchk rax => cmp128bPgchk rdi rax
  | .cmp128b rax => cmp128b ymm15 rdi rax
  | .pgx32b rax => pgx32b ymm15 rdi rax

/-- `.Lpgx1b` -/
def pgx1b (rdi rax : ℕ) : Prog Space (StrlenAt ⊕ ℕ) :=
  let rcx := ea (rdi + rax)
  if jz (testl 0x01 rcx) then return .inl (.cmp128b rax) else do
  let m ← movzxb (ea (rdi + rax))
  if je (cmpb 0x00 m) then return .inr rax else
  let rax := leal (rax + 0x01)
  return .inl (.cmp128b rax)

/-- `.Lpgx2b` -/
def pgx2b (rdi rax : ℕ) : Prog Space (StrlenAt ⊕ ℕ) :=
  let rcx := ea (rdi + rax)
  let rcx := andl (pgsize - 1) rcx
  if jz (testl rcx rcx) then return .inl (.cmp128b rax) else
  let fl := cmpl (pgsize - 0x02) rcx
  if ja fl then pgx1b rdi rax else do
  let rcx : ℕ := 0x01
  let rsi : ℕ := 0
  let rdx ← movzxw (ea (rdi + rax))
  let rcx := if jz (testl 0xff rdx) then rsi else rcx
  let rax := leal (rax + rcx)
  let rcx := if jz (testl 0xff00 rdx) then rsi else rcx
  let rax := leal (rax + rcx)
  if jz (testl rcx rcx) then return .inr rax else
  pgx1b rdi rax

/-- `.Lpgx8b` and `.Lpgx4b` with the labels `_next`: a move of `size` bytes, whose lanes a shift
by `shift` brings to the top. -/
def pgxShort (size shift : ℕ) (mov : ℕ → Prog Space Lanes)
    (next : ℕ → ℕ → Prog Space (StrlenAt ⊕ ℕ)) (xmm15 : Lanes) (rdi rax : ℕ) :
    Prog Space (StrlenAt ⊕ ℕ) :=
  let rcx := ea (rdi + rax)
  let rcx := andl (pgsize - 1) rcx
  if jz (testl rcx rcx) then return .inl (.cmp128b rax) else
  let fl := cmpl (pgsize - size) rcx
  if ja fl then next rdi rax else do
  let xmm0 ← mov (ea (rdi + rax))
  let xmm4 := vpcmpeqb xmm xmm15 xmm0
  let xmm7 := vpslldq shift xmm4
  if jz (vptest xmm xmm7 xmm7) then
    let rax := leal (rax + size)
    next rdi rax
  else
    let rsi := vpmovmskb xmm xmm7
    let rsi := shrl shift rsi
    let rdx := tzcntl rsi
    return .inr (leal (rax + rdx))

def pgx4b : Lanes → ℕ → ℕ → Prog Space (StrlenAt ⊕ ℕ) := pgxShort 0x04 0x0c vmovd pgx2b

def pgx8b (xmm15 : Lanes) : ℕ → ℕ → Prog Space (StrlenAt ⊕ ℕ) :=
  pgxShort 0x08 0x08 vmovq (pgx4b xmm15) xmm15

/-- `.Lpgx16b` and `.Lpgx16b_next` -/
def pgx16b (xmm15 : Lanes) (rdi rcx : ℕ) : Prog Space (StrlenAt ⊕ ℕ) :=
  let rax := 0
  let fl := cmpl (pgsize - 0x10) rcx
  if ja fl then pgx8b xmm15 rdi rax else do
  let xmm0 ← vmovdqu xmm (ea rdi)
  let xmm4 := vpcmpeqb xmm xmm15 xmm0
  if jz (vptest xmm xmm4 xmm4) then
    let rax := leal (rax + 0x10)
    pgx8b xmm15 rdi rax
  else
    let rsi := vpmovmskb xmm xmm4
    let rdx := tzcntl rsi
    return .inr (leal (rax + rdx))

/-- `.L32balign` -/
def l32balign (rdi : ℕ) : Prog Space (StrlenAt ⊕ ℕ) :=
  let rax := ea (rdi + 0x20)
  let rax := andq (imm (-0x20)) rax
  let rax := subq rdi rax
  return .inl (.cmp128bPgchk rax)

/-- The code before the aligned part. -/
def strlenEntry (ymm15 : Lanes) (rdi : ℕ) : Prog Space (StrlenAt ⊕ ℕ) :=
  let rcx := low32 rdi
  let rcx := andl (pgsize - 1) rcx
  let fl := cmpl (pgsize - 0x20) rcx
  if ja fl then pgx16b ymm15 rdi rcx else do
  let ymm0 ← vmovdqu ymm (ea rdi)
  let ymm4 := vpcmpeqb ymm ymm15 ymm0
  if jz (vptest ymm ymm4 ymm4) then l32balign rdi else
  let rcx := vpmovmskb ymm ymm4
  return .inr (tzcntl rcx)

/-- `cldm_avx2_strlen`: `rdi` is the string. -/
def avx2Strlen (rdi fuel : ℕ) : Prog Space ℕ := do
  let xmm15 := vpxorSelf
  match ← strlenEntry xmm15 rdi with
  | .inl label => fuelLoop (strlenStep xmm15 rdi) fuel label
  | .inr rax => return rax

/-! ### Strings -/

variable {s : Space} {p n o w size shift limit : ℕ}

/-- A string in the lower half of the address space; only pages with one of its bytes, up to its
terminator, may be read. -/
structure StringArea (s : Space) (p n : ℕ) : Prop extends StringIn s p n where
  readable : ∀ a, s.readable a = true ↔ OnPages pgsize p (n + 1) a
  lt : p + n < 2 ^ 63

theorem StringArea.block (h : StringArea s p n) (ho : o ≤ n)
    (hpage : (p + o) % pgsize + w ≤ pgsize) : s.Readable (p + o) w := by
  intro i hi
  simp only [pgsize] at hpage
  exact (h.readable _).mpr ⟨o, by omega, by simp only [pgsize]; omega⟩

/-- Whether the string goes on behind some bytes. -/
theorem StringArea.goes_on (h : StringArea s p n) (ho : o ≤ n) :
    (∀ i < w, s.bytes (p + (o + i)) ≠ 0) ↔ o + w ≤ n := by
  constructor
  · intro hall
    by_contra hin
    have hlast := hall (n - o) (by omega)
    rw [show o + (n - o) = n by omega] at hlast
    exact hlast h.terminator
  · exact fun hin i hi => h.nonzero _ (by omega)

theorem StringArea.allZero_nulls (h : StringArea s p n) (ho : o ≤ n) :
    AllZero w (nullLanes s p w w o) ↔ o + w ≤ n := by
  rw [allZero_nullLanes, h.goes_on ho]

/-- The index of the terminator. -/
theorem StringArea.tzcntl_nulls (h : StringArea s p n) (hw : w ≤ 32) (ho : o ≤ n)
    (hin : n < o + w) : tzcntl (vpmovmskb w (nullLanes s p w w o)) = n - o := by
  refine tzcntl_hit hw (by omega) ?_ fun j hj => ?_
  · rw [nullLanes_at (by omega) (Nat.le_refl w), show o + (n - o) = n by omega, h.terminator]
    decide
  · rw [nullLanes_at (by omega) (Nat.le_refl w), if_neg (h.nonzero _ (by omega))]
    decide

/-! ### The lanes of a short move -/

theorem allZero_vpslldq {v : Lanes} (hsize : size + shift = 16) :
    AllZero 16 (vpslldq shift v) ↔ AllZero size v := by
  constructor
  · intro hall i hi
    have hlane := hall (i + shift) (by omega)
    rw [vpslldq, if_neg (by simp only [xmm]; omega), Nat.add_sub_cancel] at hlane
    exact hlane
  · intro hall i hi
    by_cases hlow : i < shift
    · exact if_pos (.inl hlow)
    · rw [vpslldq, if_neg (by simp only [xmm]; omega)]
      exact hall _ (by omega)

/-- The shift of the mask undoes the one of the lanes. -/
theorem testBit_shrl_vpslldq {v : Lanes} (hsize : size + shift = 16) (i : ℕ) :
    (shrl shift (vpmovmskb 16 (vpslldq shift v))).testBit i =
      decide (i < size ∧ 0x80 ≤ (v i).toNat) := by
  have hlt : vpmovmskb 16 (vpslldq shift v) < 2 ^ 32 :=
    lt_of_lt_of_le (Nat.ofBits_lt_two_pow _) (Nat.pow_le_pow_right (by decide) (by decide))
  rw [shrl, low32_eq hlt, Nat.testBit_shiftRight, testBit_vpmovmskb]
  refine decide_eq_decide.mpr ?_
  by_cases hi : i < size
  · rw [vpslldq, if_neg (by simp only [xmm]; omega), Nat.add_sub_cancel_left]
    exact and_congr_left fun _ => by omega
  · exact iff_of_false (by omega) (by omega)

/-- The index of the terminator in a short move. -/
theorem StringArea.tzcntl_short (h : StringArea s p n) (hsize : size + shift = 16) (ho : o ≤ n)
    (hin : n < o + size) :
    tzcntl (shrl shift (vpmovmskb 16 (vpslldq shift (nullLanes s p 16 size o)))) = n - o := by
  refine firstIdx_eq (by omega) ?_ fun j hj => ?_
  · rw [testBit_shrl_vpslldq hsize, nullLanes_at (by omega) (by omega),
      show o + (n - o) = n by omega, h.terminator]
    exact decide_eq_true ⟨by omega, by decide⟩
  · rw [testBit_shrl_vpslldq hsize, nullLanes_at (by omega) (by omega),
      if_neg (h.nonzero _ (by omega))]
    exact decide_eq_false fun hset => absurd hset.2 (by decide)

theorem allZero_nulls_short (hsize : size + shift = 16) :
    AllZero 16 (vpslldq shift (nullLanes s p 16 size o)) ↔
      ∀ i < size, s.bytes (p + (o + i)) ≠ 0 := by
  rw [allZero_vpslldq hsize]
  refine forall₂_congr fun i hi => ?_
  rw [nullLanes_at hi (by omega)]
  by_cases h0 : s.bytes (p + (o + i)) = 0
  · simp [h0]
  · simp [h0]

/-! ### What holds at the labels -/

/-- What holds when a label is reached. -/
def StrlenAt.Ready (p n : ℕ) : StrlenAt → Prop
  | .cmp128bPgchk rax => rax ≤ n ∧ (p + rax) % 32 = 0
  | .cmp128b rax => rax ≤ n ∧ (p + rax) % 32 = 0 ∧ (p + rax) % pgsize + 128 ≤ pgsize
  | .pgx32b rax => rax ≤ n ∧ (p + rax) % 32 = 0

/-- How far the end is. -/
def StrlenAt.left (n : ℕ) : StrlenAt → ℕ
  | .cmp128bPgchk rax => 2 * (n - rax) + 1
  | .cmp128b rax => 2 * (n - rax)
  | .pgx32b rax => 2 * (n - rax)

/-- A step leads to the length, or to a label nearer to the end. -/
def StrlenStep (s : Space) (p n limit : ℕ) (r : StrlenAt ⊕ ℕ) (s' : Space) : Prop :=
  s' = s ∧ Sum.elim (fun label => label.Ready p n ∧ label.left n < limit) (fun rax => rax = n) r

/-- The position in a page. -/
theorem StringArea.page (h : StringArea s p n) (ho : o ≤ n) :
    andl (pgsize - 1) (ea (p + o)) = (p + o) % pgsize := by
  have hlt := h.lt
  rw [ea_eq (a := p + o) (by omega) (by omega), andl_page]

theorem ja_page {a b : ℕ} (ha : a ≤ pgsize) :
    ja (cmpl a (b % pgsize)) = decide (a < b % pgsize) := by
  simp only [pgsize] at ha
  rw [cmpl_eq (by omega) (by simp only [pgsize]; omega), ja_cmpq]

theorem jz_page {b : ℕ} : jz (testl (b % pgsize) (b % pgsize)) = decide (b % pgsize = 0) := by
  rw [jz_testl_self, low32_eq (by simp only [pgsize]; omega)]

theorem wp_cmp128bPgchk (h : StringArea s p n) (ho : o ≤ n) (hal : (p + o) % 32 = 0) :
    wp (cmp128bPgchk p o) (StrlenStep s p n (2 * (n - o) + 1)) s := by
  have hle : pgsize - 0x80 ≤ pgsize := by decide
  simp only [cmp128bPgchk, h.page ho, ja_page hle, decide_eq_true_eq]
  by_cases hnear : pgsize - 0x80 < (p + o) % pgsize
  · rw [if_pos hnear, wp_pure]
    exact ⟨rfl, ⟨ho, hal⟩, Nat.lt_succ_self _⟩
  · rw [if_neg hnear, wp_pure]
    refine ⟨rfl, ⟨ho, hal, ?_⟩, Nat.lt_succ_self _⟩
    simp only [pgsize] at *
    omega

/-- The first vector found is the one with the terminator. -/
theorem StringArea.findIdx (h : StringArea s p n) (ho : o ≤ n) (hin : n < o + 128) :
    [nullLanes s p 32 32 o, nullLanes s p 32 32 (o + 32), nullLanes s p 32 32 (o + 64)].findIdx
      (fun v => jnz (vptest 32 v v)) = (n - o) / 32 := by
  have hfound : ∀ o, o ≤ n → jnz (vptest 32 (nullLanes s p 32 32 o) (nullLanes s p 32 32 o)) =
      !decide (o + 32 ≤ n) := fun o ho => by
    rw [jnz_vptest, decide_eq_decide.mpr (h.allZero_nulls ho)]
  by_cases h1 : n < o + 32
  · rw [List.findIdx_cons, hfound o ho, show decide (o + 32 ≤ n) = false from
      decide_eq_false (by omega)]
    simp only [Bool.not_false, cond_true]
    omega
  rw [List.findIdx_cons, hfound o ho, decide_eq_true (show o + 32 ≤ n by omega)]
  by_cases h2 : n < o + 64
  · rw [List.findIdx_cons, hfound (o + 32) (by omega), show decide (o + 32 + 32 ≤ n) = false from
      decide_eq_false (by omega)]
    simp only [Bool.not_true, cond_false, Bool.not_false, cond_true]
    omega
  rw [List.findIdx_cons, hfound (o + 32) (by omega), decide_eq_true (show o + 32 + 32 ≤ n by omega)]
  by_cases h3 : n < o + 96
  · rw [List.findIdx_cons, hfound (o + 64) (by omega), show decide (o + 64 + 32 ≤ n) = false from
      decide_eq_false (by omega)]
    simp only [Bool.not_true, cond_false, Bool.not_false, cond_true]
    omega
  · rw [List.findIdx_cons, hfound (o + 64) (by omega),
      decide_eq_true (show o + 64 + 32 ≤ n by omega), List.findIdx_nil]
    simp only [Bool.not_true, cond_false]
    omega

/-! ### The aligned part -/

/-- The vectors of null bytes, as the routine computes them. -/
theorem nulls_eq (o : ℕ) : vpcmpeqb ymm vpxorSelf (s.lanes ymm (p + o)) = nullLanes s p 32 32 o :=
  rfl

theorem wp_nullYmmword (h : StringArea s p n) (ho : o ≤ n) (hal : (p + o) % 32 = 0)
    (hin : n < o + 128) :
    wp (nullYmmword vpxorSelf p o (nullLanes s p 32 32 o) (nullLanes s p 32 32 (o + 32))
      (nullLanes s p 32 32 (o + 64))) (fun rax s' => rax = n ∧ s' = s) s := by
  have hlt := h.lt
  simp only [nullYmmword]
  rw [search_fold _ (by simp only [List.length_cons, List.length_nil]; omega)]
  simp only [ymm]
  rw [h.findIdx ho hin, wp_bind, wp_vmovdqa (a := p + (o + 32 * ((n - o) / 32))) (by omega) (by omega)
    (by omega) (h.block (by omega) (by simp only [pgsize] at *; omega)), wp_pure]
  have hnull := h.tzcntl_nulls (w := 32) (o := o + 32 * ((n - o) / 32)) (Nat.le_refl 32) (by omega)
    (by omega)
  refine ⟨?_, rfl⟩
  rw [← nulls_eq] at hnull
  rw [hnull]
  exact ea_eq (by omega) (by omega)

theorem wp_cmp128b (h : StringArea s p n) (ho : o ≤ n) (hal : (p + o) % 32 = 0)
    (hpage : (p + o) % pgsize + 128 ≤ pgsize) :
    wp (cmp128b vpxorSelf p o) (StrlenStep s p n (2 * (n - o))) s := by
  have hlt := h.lt
  have hblock : ∀ i, i ≤ 96 → s.Readable (p + (o + i)) 32 := fun i hi =>
    (h.block (w := 128) ho hpage).mono (by omega) (by omega)
  have hrax : ea (o + 0x80) = o + 128 := ea_eq (by omega) (by omega)
  have hback : ea ((o + 128 : ℕ) - 0x80) = o := ea_eq (by omega) (by omega)
  have hfour := (forall_four (P := fun j => s.bytes (p + j) ≠ 0) (o := o)).trans (h.goes_on ho)
  rw [cmp128b, wp_bind, wp_vmovdqa (a := p + (o + 0)) (by omega) (by omega) (by omega)
    (hblock 0 (by omega)), wp_bind, wp_vmovdqa (a := p + (o + 32)) (by omega) (by omega) (by omega)
    (hblock 32 (by omega)), wp_bind, wp_vmovdqa (a := p + (o + 64)) (by omega) (by omega) (by omega)
    (hblock 64 (by omega)), wp_bind, wp_vmovdqa (a := p + (o + 96)) (by omega) (by omega) (by omega)
    (hblock 96 (by omega))]
  simp only [nulls_eq, hrax, hback, jz_vptest, decide_eq_true_eq, allZero_vpor, allZero_nullLanes,
    Nat.add_zero, hfour]
  by_cases hgo : o + 128 ≤ n
  · rw [if_pos hgo, wp_pure]
    refine ⟨rfl, ⟨hgo, by omega⟩, ?_⟩
    show 2 * (n - (o + 128)) + 1 < 2 * (n - o)
    omega
  · rw [if_neg hgo, wp_map]
    exact wp_mono (wp_nullYmmword h ho hal (by omega)) fun r s' hr => ⟨hr.2, hr.1⟩

theorem wp_pgx32b (h : StringArea s p n) (ho : o ≤ n) (hal : (p + o) % 32 = 0) :
    wp (pgx32b vpxorSelf p o) (StrlenStep s p n (2 * (n - o))) s := by
  have hlt := h.lt
  have hrax : ea (o + 0x20) = o + 32 := ea_eq (by omega) (by omega)
  rw [pgx32b, wp_bind, wp_vmovdqa (a := p + o) (by omega) (by omega) hal
    (h.block ho (by simp only [pgsize]; omega))]
  simp only [nulls_eq, hrax, jz_vptest, decide_eq_true_eq, allZero_nullLanes, h.goes_on ho]
  by_cases hgo : o + 32 ≤ n
  · rw [if_pos hgo, h.page hgo]
    simp only [jz_page, decide_eq_true_eq]
    by_cases hedge : (p + (o + 32)) % pgsize = 0
    · rw [if_pos hedge, wp_pure]
      refine ⟨rfl, ⟨hgo, by omega, by simp only [pgsize] at *; omega⟩, ?_⟩
      show 2 * (n - (o + 32)) < 2 * (n - o)
      omega
    · rw [if_neg hedge, wp_pure]
      refine ⟨rfl, ⟨hgo, by omega⟩, ?_⟩
      show 2 * (n - (o + 32)) < 2 * (n - o)
      omega
  · rw [if_neg hgo, h.tzcntl_nulls (Nat.le_refl 32) ho (by omega), wp_pure]
    exact ⟨rfl, ea_eq (by omega) (by omega)⟩

/-- Each step leads to the length or to a label where what must hold holds. -/
theorem wp_strlenStep (h : StringArea s p n) {label : StrlenAt} (hl : label.Ready p n) :
    wp (strlenStep vpxorSelf p label) (StrlenStep s p n (label.left n)) s := by
  cases label with
  | cmp128bPgchk rax => exact wp_cmp128bPgchk h hl.1 hl.2
  | cmp128b rax => exact wp_cmp128b h hl.1 hl.2.1 hl.2.2
  | pgx32b rax => exact wp_pgx32b h hl.1 hl.2

/-- From each label the terminator is found. -/
theorem total_strlenLoop (h : StringArea s p n) {label : StrlenAt} (hl : label.Ready p n) :
    Total (fun fuel => fuelLoop (strlenStep vpxorSelf p) fuel label)
      (fun rax s' => rax = n ∧ s' = s) s := by
  refine total_loop (f := fun _ => strlenStep vpxorSelf p)
    (I := fun left label s' => left = label.left n ∧ s' = s ∧ label.Ready p n) ?_
    (label.left n) label s ⟨rfl, rfl, hl⟩
  rintro left label s' ⟨rfl, rfl, hl⟩
  refine (Total.const (wp_strlenStep h hl)).mono ?_
  rintro (label' | rax) s'' ⟨rfl, hr⟩
  · exact ⟨_, hr.2, rfl, rfl, hr.1⟩
  · exact ⟨hr, rfl⟩

/-! ### The bytes before a page boundary -/

/-- The steps before the aligned part lead to the length or to a label. -/
def Entered (s : Space) (p n : ℕ) (r : StrlenAt ⊕ ℕ) (s' : Space) : Prop :=
  s' = s ∧ Sum.elim (fun label => label.Ready p n) (fun rax => rax = n) r

/-- At a boundary, whole vectors stay on the page. -/
theorem entered_boundary (ho : o ≤ n) (hedge : (p + o) % pgsize = 0) :
    Entered s p n (.inl (.cmp128b o)) s := by
  simp only [pgsize] at hedge
  exact ⟨rfl, ho, by omega, by simp only [pgsize]; omega⟩

theorem wp_pgx1b (h : StringArea s p n) (ho : o ≤ n) (hsmall : o < 62)
    (hnear : pgsize - 1 ≤ (p + o) % pgsize ∨ (p + o) % pgsize = 0) :
    wp (pgx1b p o) (Entered s p n) s := by
  have hlt := h.lt
  simp only [pgsize] at hnear
  have hodd : jz (testl 0x01 (ea (p + o))) = decide ((p + o) % 2 ^ 1 = 0) := by
    rw [ea_eq (a := p + o) (by omega) (by omega), show 0x01 = 2 ^ 1 - 1 from rfl,
      jz_testl (by decide)]
    exact decide_eq_decide.mpr mod_two_pow_eq_zero.symm
  simp only [pgx1b, hodd, decide_eq_true_eq]
  by_cases hedge : (p + o) % 2 ^ 1 = 0
  · rw [if_pos hedge, wp_pure]
    exact entered_boundary ho (by simp only [pgsize]; omega)
  have hr : s.readable (p + o) = true := (h.readable _).mpr ⟨o, by omega, rfl⟩
  have hbyte := (s.bytes (p + o)).toNat_lt
  rw [if_neg hedge, wp_bind, wp_movzxb (a := p + o) (by omega) (by omega) hr, cmpb, je_cmpq,
    Nat.mod_eq_of_lt (by omega)]
  by_cases hend : o = n
  · subst hend
    rw [h.terminator]
    exact ⟨_, _, rfl, rfl, rfl⟩
  · have hne : (s.bytes (p + o)).toNat ≠ (0x00 : UInt8).toNat := fun heq =>
      h.nonzero o (by omega) (UInt8.toNat_inj.mp heq)
    have hrax : leal (o + 0x01) = o + 1 := leal_eq (by omega) (by omega)
    rw [decide_eq_false hne, if_neg (by decide), wp_pure, hrax]
    exact entered_boundary (by omega) (by simp only [pgsize]; omega)

/-- Whether some bits in the middle are set. -/
theorem jz_testl_middle {x m k : ℕ} (hmk : m + k ≤ 32) :
    jz (testl ((2 ^ m - 1) * 2 ^ k) x) = decide (x / 2 ^ k % 2 ^ m = 0) := by
  have hmask : (2 ^ m - 1) * 2 ^ k < 2 ^ 32 := by
    have hlt : (2 ^ m - 1) * 2 ^ k < 2 ^ m * 2 ^ k :=
      Nat.mul_lt_mul_of_pos_right (Nat.sub_lt (Nat.two_pow_pos m) Nat.one_pos) (Nat.two_pow_pos k)
    rw [← Nat.pow_add] at hlt
    exact lt_of_lt_of_le hlt (Nat.pow_le_pow_right (by decide) hmk)
  refine decide_eq_decide.mpr ?_
  rw [low32_eq hmask, low32, mod_two_pow_eq_zero]
  constructor
  · intro hand i hi
    have hbit := congrArg (fun y => Nat.testBit y (i + k)) hand
    simp only [Nat.testBit_and, Nat.testBit_mul_two_pow, Nat.testBit_mod_two_pow,
      Nat.testBit_two_pow_sub_one, Nat.zero_testBit] at hbit
    rw [Nat.testBit_div_two_pow]
    simpa [show i + k < 32 by omega, hi] using hbit
  · intro hzero
    refine Nat.eq_of_testBit_eq fun i => ?_
    simp only [Nat.testBit_and, Nat.testBit_mul_two_pow, Nat.testBit_mod_two_pow,
      Nat.testBit_two_pow_sub_one, Nat.zero_testBit]
    by_cases hi : k ≤ i ∧ i - k < m
    · have hbit := hzero (i - k) hi.2
      rw [Nat.testBit_div_two_pow, Nat.sub_add_cancel hi.1] at hbit
      simp [hbit]
    · by_cases hk : k ≤ i
      · simp [hk, show ¬ i - k < m from fun hlt => hi ⟨hk, hlt⟩]
      · simp [hk]

/-- The two bytes of a word. -/
theorem jz_word (a b : UInt8) : jz (testl 0xff (a.toNat + 2 ^ 8 * b.toNat)) = decide (a = 0) ∧
    jz (testl 0xff00 (a.toNat + 2 ^ 8 * b.toNat)) = decide (b = 0) := by
  have ha := a.toNat_lt
  have hb := b.toNat_lt
  have hzero : ∀ c : UInt8, c.toNat = 0 ↔ c = 0 := fun c =>
    ⟨fun h0 => UInt8.toNat_inj.mp h0, fun h0 => by rw [h0]; rfl⟩
  constructor
  · rw [show 0xff = (2 ^ 8 - 1) * 2 ^ 0 from rfl, jz_testl_middle (by decide)]
    refine decide_eq_decide.mpr (Iff.trans ?_ (hzero a))
    omega
  · rw [show 0xff00 = (2 ^ 8 - 1) * 2 ^ 8 from rfl, jz_testl_middle (by decide)]
    refine decide_eq_decide.mpr (Iff.trans ?_ (hzero b))
    omega

theorem wp_pgx2b (h : StringArea s p n) (ho : o ≤ n) (hsmall : o < 60)
    (hnear : pgsize - 3 ≤ (p + o) % pgsize ∨ (p + o) % pgsize = 0) :
    wp (pgx2b p o) (Entered s p n) s := by
  have hlt := h.lt
  simp only [pgsize] at hnear
  have hle : pgsize - 0x02 ≤ pgsize := by decide
  simp only [pgx2b, h.page ho, jz_page, ja_page hle, decide_eq_true_eq]
  by_cases hedge : (p + o) % pgsize = 0
  · rw [if_pos hedge, wp_pure]
    exact entered_boundary ho hedge
  rw [if_neg hedge]
  by_cases hlast : pgsize - 0x02 < (p + o) % pgsize
  · rw [if_pos hlast]
    exact wp_pgx1b h ho (by omega) (.inl (by simp only [pgsize] at *; omega))
  have hr : s.Readable (p + o) 2 := h.block ho (by simp only [pgsize] at *; omega)
  have hword : wp (movzxw (ea (p + o))) (fun rdx s' => rdx =
      (s.bytes (p + o)).toNat + 2 ^ 8 * (s.bytes (p + (o + 1))).toNat ∧ s' = s) s := by
    rw [ea_eq (a := p + o) (by omega) (by omega), movzxw, wp_bind, Space.wp_load hr, wp_pure,
      lanes_of_lt (by decide), lanes_of_lt (by decide), Nat.add_zero, Nat.add_assoc]
    exact ⟨rfl, rfl⟩
  rw [if_neg hlast, wp_bind]
  refine wp_mono hword ?_
  rintro rdx s' ⟨rfl, rfl⟩
  obtain ⟨hfst, hsnd⟩ := jz_word (s'.bytes (p + o)) (s'.bytes (p + (o + 1)))
  have hone : leal (o + (1 : ℕ)) = o + 1 := leal_eq (by omega) (by omega)
  have htwo : leal ((o + 1 : ℕ) + (1 : ℕ)) = o + 2 := leal_eq (by omega) (by omega)
  have hstop : ∀ k : ℕ, k < 64 → leal (k + (0 : ℕ)) = k := fun k hk =>
    leal_eq (by omega) (by omega)
  simp only [hfst, hsnd, decide_eq_true_eq]
  by_cases hend : o = n
  · subst hend
    -- the first byte is the terminator, and the step stays zero
    simp only [h.terminator, if_true, hstop o (by omega), ite_self, jz_testl_self]
    exact ⟨_, _, rfl, rfl, rfl⟩
  have hne := h.nonzero o (by omega)
  simp only [if_neg hne, hone]
  by_cases hend' : o + 1 = n
  · have hterm := h.terminator
    rw [← hend'] at hterm
    simp only [hterm, if_true, hstop (o + 1) (by omega)]
    exact ⟨_, _, rfl, rfl, hend'⟩
  · have hne' := h.nonzero (o + 1) (by omega)
    have hgo : jz (testl 1 1) = false := by decide
    simp only [if_neg hne', htwo, hgo, Bool.false_eq_true, if_false]
    exact wp_pgx1b h (by omega) (by omega) (by simp only [pgsize] at *; omega)

/-- A step of `size` bytes, if they fit on the page. -/
theorem wp_pgxShort (h : StringArea s p n) (hsize : size + shift = 16) (hle : size ≤ 8)
    {next : ℕ → ℕ → Prog Space (StrlenAt ⊕ ℕ)} (ho : o ≤ n) (hsmall : o < 32)
    (hnear : pgsize - (2 * size - 1) ≤ (p + o) % pgsize ∨ (p + o) % pgsize = 0)
    (hnext : ∀ o', o' ≤ n → o' ≤ o + size →
      pgsize - (size - 1) ≤ (p + o') % pgsize ∨ (p + o') % pgsize = 0 →
      wp (next p o') (Entered s p n) s) :
    wp (pgxShort size shift (Space.load size) next vpxorSelf p o) (Entered s p n) s := by
  have hlt := h.lt
  simp only [pgsize] at hnear
  have hpage : pgsize - size ≤ pgsize := Nat.sub_le _ _
  simp only [pgxShort, h.page ho, jz_page, ja_page hpage, decide_eq_true_eq]
  by_cases hedge : (p + o) % pgsize = 0
  · rw [if_pos hedge, wp_pure]
    exact entered_boundary ho hedge
  rw [if_neg hedge]
  by_cases hlast : pgsize - size < (p + o) % pgsize
  · rw [if_pos hlast]
    exact hnext o ho (by omega) (.inl (by simp only [pgsize] at *; omega))
  have hr : s.Readable (p + o) size := h.block ho (by simp only [pgsize] at *; omega)
  have hnull : vpcmpeqb xmm vpxorSelf (s.lanes size (p + o)) = nullLanes s p 16 size o := rfl
  rw [if_neg hlast, wp_bind, ea_eq (a := p + o) (by omega) (by omega), Space.wp_load hr]
  simp only [hnull, jz_vptest, decide_eq_true_eq, xmm, allZero_nulls_short hsize, h.goes_on ho]
  by_cases hgo : o + size ≤ n
  · have hrax : leal (o + size) = o + size := leal_eq (by omega) (by omega)
    rw [if_pos hgo, hrax]
    exact hnext _ hgo (Nat.le_refl _) (by simp only [pgsize] at *; omega)
  · rw [if_neg hgo, h.tzcntl_short hsize ho (by omega), wp_pure]
    exact ⟨rfl, leal_eq (by omega) (by omega)⟩

theorem wp_pgx4b (h : StringArea s p n) (ho : o ≤ n) (hsmall : o < 32)
    (hnear : pgsize - 7 ≤ (p + o) % pgsize ∨ (p + o) % pgsize = 0) :
    wp (pgx4b vpxorSelf p o) (Entered s p n) s :=
  wp_pgxShort h (by decide) (by decide) ho hsmall hnear fun _ ho' hle hnear' =>
    wp_pgx2b h ho' (by omega) hnear'

theorem wp_pgx8b (h : StringArea s p n) (ho : o ≤ n) (hsmall : o < 24)
    (hnear : pgsize - 15 ≤ (p + o) % pgsize ∨ (p + o) % pgsize = 0) :
    wp (pgx8b vpxorSelf p o) (Entered s p n) s :=
  wp_pgxShort h (by decide) (by decide) ho (by omega) hnear fun _ ho' hle hnear' =>
    wp_pgx4b h ho' (by omega) hnear'

theorem wp_pgx16b (h : StringArea s p n) (hnear : pgsize - 0x20 < p % pgsize) :
    wp (pgx16b vpxorSelf p (p % pgsize)) (Entered s p n) s := by
  have hlt := h.lt
  have hpage : pgsize - 0x10 ≤ pgsize := by decide
  simp only [pgsize] at hnear
  simp only [pgx16b, ja_page hpage, decide_eq_true_eq]
  by_cases hlast : pgsize - 0x10 < p % pgsize
  · rw [if_pos hlast]
    exact wp_pgx8b h (Nat.zero_le n) (by omega) (.inl (by simp only [pgsize] at *; omega))
  have hr : s.Readable (p + 0) 16 :=
    h.block (Nat.zero_le n) (by simp only [pgsize, Nat.add_zero] at *; omega)
  have hnull : vpcmpeqb xmm vpxorSelf (s.lanes xmm (p + 0)) = nullLanes s p 16 16 0 := rfl
  rw [if_neg hlast, wp_bind, wp_vmovdqu (a := p + 0) (by omega) (by omega) hr]
  simp only [hnull, jz_vptest, decide_eq_true_eq, xmm, h.allZero_nulls (Nat.zero_le n)]
  by_cases hgo : 0 + 16 ≤ n
  · have hrax : leal ((0 : ℕ) + 0x10) = 16 := leal_eq (by omega) (by omega)
    rw [if_pos hgo, hrax]
    exact wp_pgx8b h (by omega) (by omega) (by simp only [pgsize] at *; omega)
  · rw [if_neg hgo, h.tzcntl_nulls (by decide) (Nat.zero_le n) (by omega), wp_pure]
    exact ⟨rfl, leal_eq (by omega) (by omega)⟩

theorem wp_strlenEntry (h : StringArea s p n) :
    wp (strlenEntry vpxorSelf p) (Entered s p n) s := by
  have hlt := h.lt
  have hpage : pgsize - 0x20 ≤ pgsize := by decide
  have hpos : andl (pgsize - 1) (low32 p) = p % pgsize := by
    rw [andl_page, low32]
    exact Nat.mod_mod_of_dvd p (by decide)
  simp only [strlenEntry, hpos, ja_page hpage, decide_eq_true_eq]
  by_cases hnear : pgsize - 0x20 < p % pgsize
  · rw [if_pos hnear]
    exact wp_pgx16b h hnear
  have hr : s.Readable (p + 0) 32 :=
    h.block (Nat.zero_le n) (by simp only [pgsize, Nat.add_zero] at *; omega)
  rw [if_neg hnear, wp_bind, wp_vmovdqu (a := p + 0) (by omega) (by omega) hr]
  simp only [nulls_eq, jz_vptest, decide_eq_true_eq, ymm, h.allZero_nulls (Nat.zero_le n)]
  by_cases hgo : 0 + 32 ≤ n
  · have hrax : subq p (andq (imm (-0x20)) (ea (p + 0x20))) = (p + 0x20) / 32 * 32 - p := by
      rw [ea_eq (a := p + 0x20) (by omega) (by omega), andq_align (by omega),
        subq_eq (by omega) (by omega)]
    rw [if_pos hgo, l32balign, hrax, wp_pure]
    exact ⟨rfl, by omega, by omega⟩
  · rw [if_neg hgo, h.tzcntl_nulls (Nat.le_refl 32) (Nat.zero_le n) (by omega), wp_pure]
    exact ⟨rfl, Nat.sub_zero n⟩

/-! ### All strings -/

/-- `cldm_avx2_strlen` returns the length of the string, and reads only pages with a byte of
the string up to its terminator. -/
theorem avx2_strlen_correct (h : StringArea s p n) :
    Total (avx2Strlen p) (fun rax s' => rax = n ∧ s' = s) s := by
  refine Total.wp_bind (wp_mono (wp_strlenEntry h) ?_)
  rintro (label | rax) s' ⟨rfl, hr⟩
  · exact total_strlenLoop h hr
  · exact Total.const ((wp_pure _ _ _).mpr ⟨hr, rfl⟩)

/-- Two pages. -/
theorem onPages_two {a : ℕ} (hp : 0x1000 ≤ p) (hp' : p < 0x2000) (hn : 0x2000 ≤ p + n)
    (hn' : p + n < 0x3000) : OnPages pgsize p (n + 1) a ↔ a / pgsize = 1 ∨ a / pgsize = 2 := by
  constructor
  · rintro ⟨i, hi, heq⟩
    simp only [pgsize] at *
    omega
  · rintro (heq | heq)
    · exact ⟨0, by omega, by simp only [pgsize] at *; omega⟩
    · exact ⟨n, by omega, by simp only [pgsize] at *; omega⟩

/-- The string "ab", whose terminator lies on the next page. -/
def abAtEnd : Space where
  bytes := fun a => if a = 0x1ffe then 97 else if a = 0x1fff then 98 else 0
  readable := fun a => a / pgsize = 1 ∨ a / pgsize = 2
  writable := fun _ => false

theorem stringArea_abAtEnd : StringArea abAtEnd 0x1ffe 2 where
  terminator := rfl
  nonzero := by decide
  readable := fun a => by
    rw [onPages_two (by decide) (by decide) (by decide) (by decide)]
    exact decide_eq_true_iff
  lt := by decide

/-- Both pages of the string are read. -/
theorem avx2_strlen_correct_ab :
    Total (avx2Strlen 0x1ffe) (fun rax s' => rax = 2 ∧ s' = abAtEnd) abAtEnd :=
  avx2_strlen_correct stringArea_abAtEnd

end AvxStrlen

end Cldm
