/-
The AVX2 search for the last occurrence of a character.

`avx2Strrchr` is `cldm_avx2_strrchr`, with a definition for each label of the assembly
source.  Labels that do the same for another size are one definition with the size as a
parameter; those of the aligned part are the states `StrrchrAt` of one loop.

At each label `rax` is the address of the last match before the offset (`Best`).  The
vectors compare with the low byte of `esi`, but the last three bytes of a page, when the
string begins there, are compared with all of `esi` as zero-extended bytes:

* `avx2_strrchr_correct` — the answer is the one of `strrchr` if and only if the
  character is among 0 to 255, or the last match is not one of the bytes before the
  page boundary of a string that begins among the last three bytes of its page.
-/
import Cldm.AvxStrlen

namespace Cldm

namespace AvxStrrchr

open Prog Space Avx2 AvxStrlen

/-! ### The routine -/

/-- The labels of the aligned part, with the offset and the last match. -/
inductive StrrchrAt
  | chk128bPrlg (rdx rax : ℕ)
  | chk128b (rdx rax : ℕ)
  | pgx32b (rdx rax : ℕ)

/-- Mask out potential matches after the first null byte, if there is one. -/
def maskNull (r8 r9 : ℕ) : ℕ :=
  let rcx := tzcntl r9
  if cntCarry r9 then r8 else
  let r9 := shll rcx 0x01
  let rcx := leal (r9 + r9 - 0x01)
  andl rcx r8

/-- The macro `vchk`: a result on the right ends the search. -/
def vchk (chwd nullwd : Lanes) (offset : ℤ) (rdi rdx rax : ℕ) : ℕ ⊕ ℕ :=
  let r8 := vpmovmskb ymm chwd
  let r9 := vpmovmskb ymm nullwd
  let r8 := maskNull r8 r9
  let r9 := lzcntl r8
  let fl := cntCarry r8
  let r9 := notq r9
  let r8 := ea (r9 + rdx + 0x20)
  let r9 := ea (rdi + r8 + offset)
  let rax := if !fl then r9 else rax
  if jnz (vptest ymm nullwd nullwd) then .inr rax else .inl rax

/-- `vchk` on a vector with a match or a null byte, else nothing. -/
def vchkFound (found chwd nullwd : Lanes) (offset : ℤ) (rdi rdx rax : ℕ) : ℕ ⊕ ℕ :=
  if jz (vptest ymm found found) then .inl rax else vchk chwd nullwd offset rdi rdx rax

/-- `.Lchk128b_prlg` -/
def chk128bPrlg (rdi rdx rax : ℕ) : Prog Space (StrrchrAt ⊕ ℕ) :=
  let rcx := ea (rdi + rdx)
  let rcx := andl (pgsize - 1) rcx
  let fl := cmpl (pgsize - 0x80) rcx
  if ja fl then return .inl (.pgx32b rdx rax) else return .inl (.chk128b rdx rax)

/-- `.Lchk128b` with the labels `_ymmwd1` to `_ymmwd3` -/
def chk128b (ymm14 ymm15 : Lanes) (rdi rdx rax : ℕ) : Prog Space (StrrchrAt ⊕ ℕ) := do
  let ymm0 ← vmovdqa ymm (ea (rdi + rdx))
  let ymm4 := vpcmpeqb ymm ymm14 ymm0
  let ymm8 := vpcmpeqb ymm ymm15 ymm0
  let ymm1 ← vmovdqa ymm (ea (rdi + rdx + 0x20))
  let ymm5 := vpcmpeqb ymm ymm14 ymm1
  let ymm9 := vpcmpeqb ymm ymm15 ymm1
  let ymm2 ← vmovdqa ymm (ea (rdi + rdx + 0x40))
  let ymm6 := vpcmpeqb ymm ymm14 ymm2
  let ymm10 := vpcmpeqb ymm ymm15 ymm2
  let ymm3 ← vmovdqa ymm (ea (rdi + rdx + 0x60))
  let ymm7 := vpcmpeqb ymm ymm14 ymm3
  let ymm11 := vpcmpeqb ymm ymm15 ymm3
  let ymm0 := vpor ymm4 ymm8
  let ymm1 := vpor ymm5 ymm9
  let ymm2 := vpor ymm6 ymm10
  let ymm3 := vpor ymm7 ymm11
  let ymm12 := vpor ymm0 ymm1
  let ymm12 := vpor ymm2 ymm12
  let ymm12 := vpor ymm3 ymm12
  let rdx := ea (rdx + 0x80)
  if jz (vptest ymm ymm12 ymm12) then return .inl (.chk128bPrlg rdx rax) else
  match vchkFound ymm0 ymm4 ymm8 (-0x80) rdi rdx rax with
  | .inr rax => return .inr rax
  | .inl rax =>
  match vchkFound ymm1 ymm5 ymm9 (-0x60) rdi rdx rax with
  | .inr rax => return .inr rax
  | .inl rax =>
  match vchkFound ymm2 ymm6 ymm10 (-0x40) rdi rdx rax with
  | .inr rax => return .inr rax
  | .inl rax =>
  match vchkFound ymm3 ymm7 ymm11 (-0x20) rdi rdx rax with
  | .inr rax => return .inr rax
  | .inl rax => return .inl (.chk128bPrlg rdx rax)

/-- `.Lpgx32b` and `.Lpgx32b_boundchk` -/
def pgx32b (ymm14 ymm15 : Lanes) (rdi rdx rax : ℕ) : Prog Space (StrrchrAt ⊕ ℕ) := do
  let ymm0 ← vmovdqa ymm (ea (rdi + rdx))
  let ymm4 := vpcmpeqb ymm ymm14 ymm0
  let ymm8 := vpcmpeqb ymm ymm15 ymm0
  let ymm0 := vpor ymm4 ymm8
  match vchkFound ymm0 ymm4 ymm8 0x00 rdi rdx rax with
  | .inr rax => return .inr rax
  | .inl rax =>
    let rdx := ea (rdx + 0x20)
    let rcx := ea (rdi + rdx)
    let rcx := andl (pgsize - 1) rcx
    if jz (testl rcx rcx) then return .inl (.chk128b rdx rax)
    else return .inl (.pgx32b rdx rax)

/-- The code at a label. -/
def strrchrStep (ymm14 ymm15 : Lanes) (rdi : ℕ) : StrrchrAt → Prog Space (StrrchrAt ⊕ ℕ)
  | .chk128bPrlg rdx rax => chk128bPrlg rdi rdx rax
  | .chk128b rdx rax => chk128b ymm14 ymm15 rdi rdx rax
  | .pgx32b rdx rax => pgx32b ymm14 ymm15 rdi rdx rax

/-- `.Lpgx1b` -/
def pgx1b (rdi rsi rdx rax : ℕ) : Prog Space (StrrchrAt ⊕ ℕ) :=
  let rcx := ea (rdi + rdx)
  let rcx := andl (pgsize - 1) rcx
  if jz (testl rcx rcx) then return .inl (.chk128b rdx rax) else do
  let r9 := ea (rdi + rdx)
  let r8 ← movzxb r9
  let rax := if je (cmpl rsi r8) then r9 else rax
  let rdx := ea (rdx + 0x01)
  if jnz (testl r8 r8) then return .inl (.chk128b rdx rax) else
  return .inr rax

/-- `.Lpgx2b` -/
def pgx2b (rdi rsi rdx rax rcx : ℕ) : Prog Space (StrrchrAt ⊕ ℕ) :=
  let fl := cmpl (pgsize - 0x02) rcx
  if ja fl then pgx1b rdi rsi rdx rax else do
  let r8 ← movzxb (ea rdi)
  let rax := if je (cmpl rsi r8) then rdi else rax
  if jz (testl r8 r8) then return .inr rax else
  let r9 := ea (rdi + 0x01)
  let r8 ← movzxb r9
  let rax := if je (cmpl rsi r8) then r9 else rax
  if jz (testl r8 r8) then return .inr rax else
  let rdx := ea (rdx + 0x02)
  pgx1b rdi rsi rdx rax

/-- `.Lpgx8b_aligned` and `.Lpgx4b_aligned`: a move of `size` bytes, whose lanes a shift by
`shift` brings to the top; `mshift` does it for a mask. -/
def pgxShortAligned (size shift mshift mask : ℕ) (mov : ℕ → Prog Space Lanes)
    (xmm14 xmm15 : Lanes) (rdi rdx rax r11 : ℕ) : Prog Space (StrrchrAt ⊕ ℕ) :=
  let r11 := leal (r11 + rdx)
  let fl := cmpl pgsize r11
  if je fl then return .inl (.chk128b rdx rax) else do
  let xmm0 ← mov (ea (rdi + rdx))
  let xmm4 := vpcmpeqb xmm xmm14 xmm0
  let xmm8 := vpcmpeqb xmm xmm15 xmm0
  let rdx := ea (rdx + size)
  let xmm12 := vpor xmm4 xmm8
  let xmm0 := vpslldq shift xmm12
  if jz (vptest xmm xmm0 xmm0) then return .inl (.chk128b rdx rax) else
  let r8 := vpmovmskb xmm xmm4
  let r9 := vpmovmskb xmm xmm8
  let r9 := andl mask r9
  let r10 := !cntCarry r9
  let r8 := maskNull r8 r9
  let r8 := shll mshift r8
  let r9 := lzcntl r8
  let fl := cntCarry r8
  let r9 := notq r9
  let r8 := ea (r9 + rdx)
  let r9 := ea (rdi + r8)
  let rax := if !fl then r9 else rax
  if r10 then return .inr rax else return .inl (.chk128b rdx rax)

/-- `.Lpgx8b` and `.Lpgx4b` with the labels `_mskd`. -/
def pgxShort (size shift mshift mask : ℕ) (mov : ℕ → Prog Space Lanes)
    (next : Prog Space (StrrchrAt ⊕ ℕ)) (xmm14 xmm15 : Lanes) (rdi rax rcx : ℕ) :
    Prog Space (StrrchrAt ⊕ ℕ) :=
  let fl := cmpl (pgsize - size) rcx
  if ja fl then next else do
  let xmm0 ← mov (ea rdi)
  let xmm4 := vpcmpeqb xmm xmm14 xmm0
  let xmm8 := vpcmpeqb xmm xmm15 xmm0
  let rdx := ea (rdi + size)
  let rdx := andq (imm (-size)) rdx
  let rdx := subq rdi rdx
  let xmm12 := vpor xmm4 xmm8
  let xmm0 := vpslldq shift xmm12
  let r11 := low32 rcx
  if jz (vptest xmm xmm0 xmm0) then
    pgxShortAligned size shift mshift mask mov xmm14 xmm15 rdi rdx rax r11 else
  let r8 := vpmovmskb xmm xmm4
  let r9 := vpmovmskb xmm xmm8
  let r9 := andl mask r9
  let r10 := !cntCarry r9
  let r8 := maskNull r8 r9
  let r8 := shll mshift r8
  let r9 := lzcntl r8
  let fl := cntCarry r8
  let r9 := notq r9
  let r8 := ea (rdi + r9 + size)
  let rax := if !fl then r8 else rax
  if r10 then return .inr rax else
  pgxShortAligned size shift mshift mask mov xmm14 xmm15 rdi rdx rax r11

def pgx4b (xmm14 xmm15 : Lanes) (rdi rsi rdx rax rcx : ℕ) : Prog Space (StrrchrAt ⊕ ℕ) :=
  pgxShort 0x04 0x0c 0x1c 0x0f vmovd (pgx2b rdi rsi rdx rax rcx) xmm14 xmm15 rdi rax rcx

def pgx8b (xmm14 xmm15 : Lanes) (rdi rsi rdx rax rcx : ℕ) : Prog Space (StrrchrAt ⊕ ℕ) :=
  pgxShort 0x08 0x08 0x18 0xff vmovq (pgx4b xmm14 xmm15 rdi rsi rdx rax rcx) xmm14 xmm15 rdi rax
    rcx

/-- `.Lpgx16b_aligned` -/
def pgx16bAligned (xmm14 xmm15 : Lanes) (rdi rdx rax r11 : ℕ) : Prog Space (StrrchrAt ⊕ ℕ) :=
  let r11 := leal (r11 + rdx)
  let fl := cmpl pgsize r11
  if je fl then return .inl (.chk128b rdx rax) else do
  let xmm0 ← vmovdqa xmm (ea (rdi + rdx))
  let xmm4 := vpcmpeqb xmm xmm14 xmm0
  let xmm8 := vpcmpeqb xmm xmm15 xmm0
  let rdx := ea (rdx + 0x10)
  let xmm0 := vpor xmm4 xmm8
  if jz (vptest xmm xmm0 xmm0) then return .inl (.chk128b rdx rax) else
  let r8 := vpmovmskb xmm xmm4
  let r9 := vpmovmskb xmm xmm8
  let r8 := maskNull r8 r9
  let r8 := shll 0x10 r8
  let r9 := lzcntl r8
  let fl := cntCarry r8
  let r9 := notq r9
  let r8 := ea (r9 + rdx)
  let r9 := ea (rdi + r8)
  let rax := if !fl then r9 else rax
  -- the upper lanes are zero
  if jnz (vptest ymm xmm8 xmm8) then return .inr rax else return .inl (.chk128b rdx rax)

/-- `.Lpgx16b` and `.Lpgx16b_mskd` -/
def pgx16b (xmm14 xmm15 : Lanes) (rdi rsi rdx rax rcx : ℕ) : Prog Space (StrrchrAt ⊕ ℕ) :=
  let fl := cmpl (pgsize - 0x10) rcx
  if ja fl then pgx8b xmm14 xmm15 rdi rsi rdx rax rcx else do
  let xmm0 ← vmovdqu xmm (ea rdi)
  let xmm4 := vpcmpeqb xmm xmm14 xmm0
  let xmm8 := vpcmpeqb xmm xmm15 xmm0
  let rdx := ea (rdi + 0x10)
  let rdx := andq (imm (-0x10)) rdx
  let rdx := subq rdi rdx
  let xmm0 := vpor xmm8 xmm4
  let r11 := low32 rcx
  if jz (vptest xmm xmm0 xmm0) then pgx16bAligned xmm14 xmm15 rdi rdx rax r11 else
  let r8 := vpmovmskb xmm xmm4
  let r9 := vpmovmskb xmm xmm8
  let r8 := maskNull r8 r9
  let r8 := shll 0x10 r8
  let r9 := lzcntl r8
  let fl := cntCarry r8
  let r9 := notq r9
  let r8 := ea (rdi + r9 + 0x10)
  let rax := if !fl then r8 else rax
  if jnz (vptest xmm xmm8 xmm8) then return .inr rax else
  pgx16bAligned xmm14 xmm15 rdi rdx rax r11

/-- `.L32balign` -/
def l32balign (rdi rax : ℕ) : Prog Space (StrrchrAt ⊕ ℕ) :=
  let rdx := ea (rdi + 0x20)
  let rdx := andq (imm (-0x20)) rdx
  let rdx := subq rdi rdx
  return .inl (.chk128bPrlg rdx rax)

/-- The code before the aligned part. -/
def strrchrEntry (ymm14 ymm15 : Lanes) (rdi rsi : ℕ) : Prog Space (StrrchrAt ⊕ ℕ) :=
  let rax := 0
  let rdx := 0
  let rcx := low32 rdi
  let rcx := andl (pgsize - 1) rcx
  let fl := cmpl (pgsize - 0x20) rcx
  if ja fl then pgx16b ymm14 ymm15 rdi rsi rdx rax rcx else do
  let ymm0 ← vmovdqu ymm (ea rdi)
  let ymm4 := vpcmpeqb ymm ymm14 ymm0
  let ymm8 := vpcmpeqb ymm ymm15 ymm0
  let ymm12 := vpor ymm4 ymm8
  match vchkFound ymm12 ymm4 ymm8 0x00 rdi rdx rax with
  | .inr rax => return .inr rax
  | .inl rax => l32balign rdi rax

/-- `cldm_avx2_strrchr`: `rdi` is the string and `rsi` holds the character. -/
def avx2Strrchr (rdi rsi fuel : ℕ) : Prog Space ℕ := do
  let ymm15 := vpxorSelf
  let xmm2 := vpxorSelf
  let xmm1 := vmovdOf rsi
  let xmm0 := vpshufb xmm xmm2 xmm1
  let ymm14 := vinserti128 xmm0 xmm0
  match ← strrchrEntry ymm14 ymm15 rdi rsi with
  | .inl label => fuelLoop (strrchrStep ymm14 ymm15 rdi) fuel label
  | .inr rax => return rax

/-! ### The last match -/

variable {s : Space} {p n o k w rsi rdx rax x r8 r9 : ℕ} {hit : ℕ → Prop}

/-- The address of the last match before the offset `k`, or null. -/
def Best (p : ℕ) (hit : ℕ → Prop) (k rax : ℕ) : Prop :=
  (rax = 0 ∧ ∀ i < k, ¬ hit i) ∨
    ∃ i < k, hit i ∧ rax = p + i ∧ ∀ j, i < j → j < k → ¬ hit j

theorem best_zero : Best p hit 0 0 := .inl ⟨rfl, fun i hi => absurd hi (Nat.not_lt_zero i)⟩

/-- Without a match, nothing changes. -/
theorem Best.extend (hb : Best p hit k rax) (hkw : k ≤ w) (hno : ∀ i, k ≤ i → i < w → ¬ hit i) :
    Best p hit w rax := by
  rcases hb with ⟨h0, hnone⟩ | ⟨i, hi, hhit, hrax, hlast⟩
  · refine .inl ⟨h0, fun i hi => ?_⟩
    by_cases hik : i < k
    · exact hnone i hik
    · exact hno i (by omega) hi
  · refine .inr ⟨i, by omega, hhit, hrax, fun j hij hj => ?_⟩
    by_cases hjk : j < k
    · exact hlast j hij hjk
    · exact hno j (by omega) hj

/-- The bits of a mask tell the matches among the `w` bytes from the offset `o` on, up to the
offset `e`; the last of them is at the top of the mask. -/
structure Matches (hit : ℕ → Prop) (o w e x : ℕ) : Prop where
  lt : x < 2 ^ 32
  bit : ∀ j < 32, x.testBit j = true ↔ 32 ≤ j + w ∧ o + (j + w - 32) < e ∧ hit (o + (j + w - 32))

theorem cntCarry_eq (hx : x < 2 ^ 32) : cntCarry x = decide (x = 0) := by
  rw [cntCarry, low32_eq hx]

/-- The last bit that is set. -/
theorem exists_last_bit (hx : x < 2 ^ 32) (h0 : x ≠ 0) : ∃ j < 32, x.testBit j = true ∧
    (∀ i, j < i → x.testBit i = false) ∧ lzcntl x = 31 - j := by
  obtain ⟨hlo, hhi⟩ := (Nat.log2_eq_iff h0).mp rfl
  have hlog : x.log2 < 32 := (Nat.log2_lt h0).mpr hx
  refine ⟨x.log2, hlog, Nat.testBit_log2 h0, fun i hi => ?_, lzcntl_eq hlog hlo hhi⟩
  exact Nat.testBit_lt_two_pow (lt_of_lt_of_le hhi (Nat.pow_le_pow_right (by decide) hi))

/-- The address of the last match in a block is stored, if there is one. -/
theorem Matches.best (hm : Matches hit o w k x) {seen : ℕ} (hb : Best p hit seen rax)
    (hos : o ≤ seen) (hsk : seen ≤ k) (hko : k ≤ o + w) (hw : w ≤ 32) {r : ℕ}
    (hr : ∀ j < 32, 32 ≤ j + w → lzcntl x = 31 - j → r = p + (o + (j + w - 32))) :
    Best p hit k (if !cntCarry x then r else rax) := by
  rw [cntCarry_eq hm.lt]
  by_cases h0 : x = 0
  · -- no match in the block
    simp only [h0, decide_true, Bool.not_true, Bool.false_eq_true, if_false]
    refine hb.extend hsk fun i hi hik hhit => ?_
    have hbit := (hm.bit (i - o + 32 - w) (by omega)).mpr ⟨by omega, by omega, by
      rwa [show o + (i - o + 32 - w + w - 32) = i by omega]⟩
    rw [h0, Nat.zero_testBit] at hbit
    exact absurd hbit (by decide)
  · obtain ⟨j, hj, hset, habove, hlz⟩ := exists_last_bit hm.lt h0
    obtain ⟨hjw, hlt, hhit⟩ := (hm.bit j hj).mp hset
    simp only [h0, decide_false, Bool.not_false, if_true]
    refine .inr ⟨o + (j + w - 32), hlt, hhit, hr j hj hjw hlz, fun i hi hik hhit' => ?_⟩
    have hbit := (hm.bit (i - o + 32 - w) (by omega)).mpr ⟨by omega, by omega, by
      rwa [show o + (i - o + 32 - w + w - 32) = i by omega]⟩
    rw [habove _ (by omega)] at hbit
    exact absurd hbit (by decide)

/-! ### Masks -/

theorem testBit_shll {m j : ℕ} (hm : m < 32) :
    (shll m x).testBit j = (decide (m ≤ j ∧ j < 32) && x.testBit (j - m)) := by
  rw [shll, Nat.mod_eq_of_lt hm, low32, low32, Nat.testBit_mod_two_pow, Nat.testBit_shiftLeft,
    Nat.testBit_mod_two_pow]
  by_cases hj : j < 32
  · by_cases hmj : m ≤ j
    · simp [hj, hmj, show j - m < 32 by omega]
    · simp [hmj]
  · simp [hj]

theorem shll_lt {m : ℕ} : shll m x < 2 ^ 32 := Nat.mod_lt _ (by decide)

/-- Without a null byte nothing is masked out. -/
theorem maskNull_none (h9 : r9 = 0) : maskNull r8 r9 = r8 := by
  have hcarry : cntCarry r9 = true := by
    subst h9
    decide
  simp only [maskNull, hcarry, if_true]

/-- The bits behind the one of the first null byte are masked out. -/
theorem testBit_maskNull {i j : ℕ} (hi : i < 32) (h9 : r9 < 2 ^ 32) (h0 : r9 ≠ 0)
    (htz : tzcntl r9 = i) :
    (maskNull r8 r9).testBit j = (decide (j ≤ i) && (decide (j < 32) && r8.testBit j)) := by
  have hcarry : cntCarry r9 = false := by
    rw [cntCarry_eq h9]
    exact decide_eq_false h0
  have hpow : (2 : ℕ) ^ (i + 1) ≤ 2 ^ 32 := Nat.pow_le_pow_right (by decide) hi
  have hpos : 0 < 2 ^ i := Nat.two_pow_pos i
  have hone : low32 0x01 = 1 := low32_eq (by decide)
  have hshl : shll i 0x01 = 2 ^ i := by
    rw [shll, Nat.mod_eq_of_lt hi, hone, Nat.one_shiftLeft]
    exact low32_eq (by rw [Nat.pow_succ] at hpow; omega)
  have hmask : leal ((2 ^ i : ℕ) + (2 ^ i : ℕ) - 0x01) = 2 ^ (i + 1) - 1 := by
    rw [Nat.pow_succ] at *
    exact leal_eq (by omega) (by omega)
  have hlow : low32 (2 ^ (i + 1) - 1) = 2 ^ (i + 1) - 1 := low32_eq (by omega)
  simp only [maskNull, hcarry, Bool.false_eq_true, if_false, htz, hshl, hmask, andl, hlow]
  rw [Nat.testBit_and, Nat.testBit_two_pow_sub_one, low32, Nat.testBit_mod_two_pow]
  congr 1
  exact decide_eq_decide.mpr Nat.lt_succ_iff

/-- The masks of the matches and of the null bytes among the `w` bytes at `o`; what the first
one says of other lanes does not matter. -/
structure BlockMasks (s : Space) (p rsi o w r8 r9 : ℕ) : Prop where
  char : ∀ i < w, r8.testBit i = decide (s.bytes (p + (o + i)) = UInt8.ofNat rsi)
  null : ∀ i, r9.testBit i = decide (i < w ∧ s.bytes (p + (o + i)) = 0)

theorem BlockMasks.null_lt (hb : BlockMasks s p rsi o w r8 r9) (hw : w ≤ 32) : r9 < 2 ^ 32 := by
  refine Nat.lt_pow_two_of_testBit r9 fun i hi => ?_
  rw [hb.null]
  exact decide_eq_false fun h => by omega

/-- The count of the mask of null bytes sets the carry flag if the string goes on. -/
theorem BlockMasks.cntCarry (hb : BlockMasks s p rsi o w r8 r9) (h : StringArea s p n) (hw : w ≤ 32)
    (ho : o ≤ n) : Avx2.cntCarry r9 = decide (o + w ≤ n) := by
  rw [cntCarry_eq (hb.null_lt hw)]
  refine decide_eq_decide.mpr (Iff.trans ?_ (h.goes_on ho))
  constructor
  · intro h0 i hi hz
    have hbit := hb.null i
    rw [h0, Nat.zero_testBit] at hbit
    exact absurd ⟨hi, hz⟩ (of_decide_eq_false hbit.symm)
  · intro hall
    refine Nat.eq_of_testBit_eq fun i => ?_
    rw [hb.null, Nat.zero_testBit]
    exact decide_eq_false fun hz => hall i hz.1 hz.2

/-- What is left of the mask of the matches: those up to the terminator. -/
theorem BlockMasks.masked (hb : BlockMasks s p rsi o w r8 r9) (h : StringArea s p n) (hw : w ≤ 32)
    (ho : o ≤ n) {i : ℕ} (hi : i < w) : (maskNull r8 r9).testBit i =
      decide (o + i < n + 1 ∧ s.bytes (p + (o + i)) = UInt8.ofNat rsi) := by
  have hcarry := hb.cntCarry h hw ho
  rw [cntCarry_eq (hb.null_lt hw)] at hcarry
  by_cases hgo : o + w ≤ n
  · have h0 : r9 = 0 := by
      rw [decide_eq_true hgo] at hcarry
      exact of_decide_eq_true hcarry
    rw [maskNull_none h0, hb.char i hi]
    exact decide_eq_decide.mpr ⟨fun hc => ⟨by omega, hc⟩, fun hc => hc.2⟩
  · have h0 : r9 ≠ 0 := by
      rw [decide_eq_false hgo] at hcarry
      exact of_decide_eq_false hcarry
    have htz : tzcntl r9 = n - o := by
      refine firstIdx_eq (by omega) ?_ fun j hj => ?_
      · rw [hb.null, show o + (n - o) = n by omega, h.terminator]
        exact decide_eq_true ⟨by omega, rfl⟩
      · rw [hb.null]
        exact decide_eq_false fun hz => h.nonzero _ (by omega) hz.2
    rw [testBit_maskNull (by omega) (hb.null_lt hw) h0 htz, hb.char i hi]
    simp only [show i < 32 by omega, decide_true, Bool.true_and]
    by_cases hin : i ≤ n - o
    · simp [hin, show o + i < n + 1 by omega]
    · simp [hin, show ¬ o + i < n + 1 by omega]

/-! ### The masks of a vector and of a short move -/

variable {v14 : Lanes} {m : ℕ}

/-- The matches among `m` bytes at the offset `o`, in a register of `w` lanes. -/
def charLanes (v14 : Lanes) (s : Space) (p w m o : ℕ) : Lanes :=
  vpcmpeqb w v14 (s.lanes m (p + o))

theorem charLanes_at (hc : ∀ i < 32, v14 i = UInt8.ofNat rsi) {i : ℕ} (hi : i < m) (hm : m ≤ w)
    (hw : w ≤ 32) : charLanes v14 s p w m o i =
      if s.bytes (p + (o + i)) = UInt8.ofNat rsi then 0xff else 0 := by
  rw [charLanes, vpcmpeqb, if_pos (by omega), lanes_of_lt hi, hc i (by omega), Nat.add_assoc]

/-- A lane of all ones or of zeros. -/
theorem lane_set {c : Prop} [Decidable c] :
    0x80 ≤ (if c then (0xff : UInt8) else 0).toNat ↔ c := by
  by_cases h : c
  · simp [h]
  · simp [h]

theorem blockMasks_vector (hc : ∀ i < 32, v14 i = UInt8.ofNat rsi) (hw : w ≤ 32) :
    BlockMasks s p rsi o w (vpmovmskb w (charLanes v14 s p w w o))
      (vpmovmskb w (nullLanes s p w w o)) where
  char := fun i hi => by
    rw [testBit_vpmovmskb, charLanes_at hc hi (Nat.le_refl w) hw]
    exact decide_eq_decide.mpr ((and_iff_right hi).trans lane_set)
  null := fun i => by
    rw [testBit_vpmovmskb]
    refine decide_eq_decide.mpr (and_congr_right fun hi => ?_)
    rw [nullLanes_at hi (Nat.le_refl w)]
    exact lane_set

theorem blockMasks_short (hc : ∀ i < 32, v14 i = UInt8.ofNat rsi) (hw : w ≤ 16) :
    BlockMasks s p rsi o w (vpmovmskb 16 (charLanes v14 s p 16 w o))
      (andl (2 ^ w - 1) (vpmovmskb 16 (nullLanes s p 16 w o))) where
  char := fun i hi => by
    rw [testBit_vpmovmskb, charLanes_at hc hi hw (by decide)]
    exact decide_eq_decide.mpr ((and_iff_right (by omega)).trans lane_set)
  null := fun i => by
    have hlow : low32 (2 ^ w - 1) = 2 ^ w - 1 := by
      have hpow : (2 : ℕ) ^ w ≤ 2 ^ 16 := Nat.pow_le_pow_right (by decide) hw
      exact low32_eq (by omega)
    rw [andl, hlow, Nat.testBit_and, Nat.testBit_two_pow_sub_one, low32, Nat.testBit_mod_two_pow,
      testBit_vpmovmskb]
    by_cases hi : i < w
    · rw [nullLanes_at hi hw]
      simp only [hi, show i < 32 by omega, show i < 16 by omega, decide_true, Bool.true_and,
        true_and]
      exact decide_eq_decide.mpr lane_set
    · simp [hi]

/-- The bytes from `o` on are compared as in a vector. -/
def VectorHits (s : Space) (p rsi : ℕ) (hit : ℕ → Prop) (o w : ℕ) : Prop :=
  ∀ i < w, hit (o + i) ↔ s.bytes (p + (o + i)) = UInt8.ofNat rsi

/-- Masks of 32 bytes need no shift. -/
theorem BlockMasks.matches_vector {e : ℕ} (hb : BlockMasks s p rsi o 32 r8 r9)
    (h : StringArea s p n) (ho : o ≤ n) (h8 : r8 < 2 ^ 32) (hv : VectorHits s p rsi hit o 32)
    (he : ∀ i < 32, o + i < e ↔ o + i < n + 1) : Matches hit o 32 e (maskNull r8 r9) where
  lt := by
    rw [maskNull]
    split
    · exact h8
    · exact lt_of_le_of_lt Nat.and_le_right (Nat.mod_lt _ (by decide))
  bit := fun j hj => by
    rw [hb.masked h (Nat.le_refl 32) ho hj, decide_eq_true_iff, Nat.add_sub_cancel, he j hj,
      hv j hj]
    exact (and_iff_right (by omega)).symm

/-- A shift brings the masks of fewer bytes to the top. -/
theorem BlockMasks.matches_shll {e sh : ℕ} (hb : BlockMasks s p rsi o w r8 r9)
    (h : StringArea s p n) (ho : o ≤ n) (hw : w + sh = 32) (h0 : 0 < w) (hv : VectorHits s p rsi hit o w)
    (he : ∀ i < w, o + i < e ↔ o + i < n + 1) :
    Matches hit o w e (shll sh (maskNull r8 r9)) where
  lt := shll_lt
  bit := fun j hj => by
    rw [testBit_shll (by omega)]
    by_cases hjw : 32 ≤ j + w
    · have hi : j - sh < w := by omega
      have heq : j + w - 32 = j - sh := by omega
      rw [hb.masked h (by omega) ho hi, heq, he _ hi, hv _ hi]
      simp [show sh ≤ j by omega, hj, hjw]
    · exact iff_of_false (by simp [show ¬ sh ≤ j by omega]) (by omega)

/-! ### Blocks of 32 bytes -/

/-- The last match was found among the bytes before an offset in the block of `w` bytes at `o`,
or at its end. -/
def Seen (p n : ℕ) (hit : ℕ → Prop) (o w rax : ℕ) : Prop :=
  ∃ k, o ≤ k ∧ k ≤ o + w ∧ k ≤ n ∧ Best p hit k rax

/-- The result of a block. -/
def Checked (p n : ℕ) (hit : ℕ → Prop) (o w : ℕ) : ℕ ⊕ ℕ → Prop
  | .inl rax => o + w ≤ n ∧ Best p hit (o + w) rax
  | .inr rax => Best p hit (n + 1) rax

/-- In a block with neither a match nor a null byte. -/
theorem Seen.nothing (hs : Seen p n hit o w rax) (hno : ∀ i < w, ¬ hit (o + i)) :
    Best p hit (o + w) rax := by
  obtain ⟨k, hok, hkw, -, hb⟩ := hs
  refine hb.extend hkw fun i hi hiw hhit => hno (i - o) (by omega) ?_
  rwa [show o + (i - o) = i by omega]

theorem vpmovmskb_lt {v : Lanes} (hw : w ≤ 32) : vpmovmskb w v < 2 ^ 32 :=
  lt_of_lt_of_le (Nat.ofBits_lt_two_pow _) (Nat.pow_le_pow_right (by decide) hw)

theorem vchk_checked (h : StringArea s p n) (hc : ∀ i < 32, v14 i = UInt8.ofNat rsi)
    (hv : VectorHits s p rsi hit o 32) (ho : o ≤ n) (hs : Seen p n hit o 32 rax) {off : ℤ}
    (hoff : rdx + off = o) :
    Checked p n hit o 32
      (vchk (charLanes v14 s p 32 32 o) (nullLanes s p 32 32 o) off p rdx rax) := by
  have hlt := h.lt
  obtain ⟨k, hok, hkw, hkn, hb⟩ := hs
  have hmasks := blockMasks_vector (s := s) (p := p) (o := o) hc (Nat.le_refl 32)
  -- the address is that of the last match in the block
  have hr : ∀ j < 32, 32 ≤ j + 32 → ∀ lz, lz = 31 - j →
      ea (p + ea (notq lz + rdx + 0x20) + off) = p + (o + (j + 32 - 32)) := by
    rintro j hj - lz rfl
    simp only [notq, ea]
    omega
  have hend : jnz (vptest ymm (nullLanes s p 32 32 o) (nullLanes s p 32 32 o)) =
      !decide (o + 32 ≤ n) := by
    rw [jnz_vptest, decide_eq_decide.mpr (h.allZero_nulls ho)]
  simp only [vchk, hend]
  by_cases hgo : o + 32 ≤ n
  · have hm := hmasks.matches_vector h ho (vpmovmskb_lt (Nat.le_refl 32)) hv
      (e := o + 32) fun i hi => by omega
    simp only [hgo, decide_true, Bool.not_true, Bool.false_eq_true, if_false]
    exact ⟨hgo, hm.best hb hok hkw (Nat.le_refl _) (Nat.le_refl 32)
      fun j hj h32 hlz => hr j hj h32 _ hlz⟩
  · have hm := hmasks.matches_vector h ho (vpmovmskb_lt (Nat.le_refl 32)) hv
      (e := n + 1) fun i hi => Iff.rfl
    simp only [hgo, decide_false, Bool.not_false, if_true]
    exact hm.best hb hok (by omega) (by omega) (Nat.le_refl 32)
      fun j hj h32 hlz => hr j hj h32 _ hlz

/-- Whether neither a match nor a null byte is in some lanes. -/
theorem allZero_found (hc : ∀ i < 32, v14 i = UInt8.ofNat rsi) (hm : m ≤ w) (hw : w ≤ 32) :
    AllZero m (vpor (charLanes v14 s p w m o) (nullLanes s p w m o)) ↔
      (∀ i < m, s.bytes (p + (o + i)) ≠ UInt8.ofNat rsi) ∧ ∀ i < m, s.bytes (p + (o + i)) ≠ 0 := by
  have hzero : ∀ (c : Prop) [Decidable c], (if c then (0xff : UInt8) else 0) = 0 ↔ ¬ c := by
    intro c _
    by_cases hcase : c
    · simp [hcase]
    · simp [hcase]
  rw [allZero_vpor]
  refine and_congr (forall₂_congr fun i hi => ?_) (forall₂_congr fun i hi => ?_)
  · rw [charLanes_at hc hi hm hw, hzero]
  · rw [nullLanes_at hi hm, hzero]

theorem vchkFound_checked (h : StringArea s p n) (hc : ∀ i < 32, v14 i = UInt8.ofNat rsi)
    (hv : VectorHits s p rsi hit o 32) (ho : o ≤ n) (hs : Seen p n hit o 32 rax) {off : ℤ}
    (hoff : rdx + off = o) : Checked p n hit o 32
      (vchkFound (vpor (charLanes v14 s p 32 32 o) (nullLanes s p 32 32 o))
        (charLanes v14 s p 32 32 o) (nullLanes s p 32 32 o) off p rdx rax) := by
  simp only [vchkFound, jz_vptest, decide_eq_true_eq, ymm,
    allZero_found hc (Nat.le_refl 32) (Nat.le_refl 32), h.goes_on ho]
  by_cases hno : (∀ i < 32, s.bytes (p + (o + i)) ≠ UInt8.ofNat rsi) ∧ o + 32 ≤ n
  · rw [if_pos hno]
    exact ⟨hno.2, hs.nothing fun i hi hhit => hno.1 i hi ((hv i hi).mp hhit)⟩
  · rw [if_neg hno]
    exact vchk_checked h hc hv ho hs hoff

/-- At the end of a block, the next one has just begun. -/
theorem Best.seen (hb : Best p hit o rax) (ho : o ≤ n) : Seen p n hit o w rax :=
  ⟨o, Nat.le_refl o, by omega, ho, hb⟩

/-! ### The aligned part -/

/-- The offsets whose byte is compared with all of `esi`: those before the page boundary, if
the string begins among the last three bytes of a page. -/
def Scalar (p i : ℕ) : Prop := pgsize - 3 ≤ p % pgsize ∧ p % pgsize + i < pgsize

instance (p i : ℕ) : Decidable (Scalar p i) := inferInstanceAs (Decidable (_ ∧ _))

/-- What the routine takes for a match. -/
def Hit (s : Space) (p rsi i : ℕ) : Prop :=
  if Scalar p i then (s.bytes (p + i)).toNat = low32 rsi
  else s.bytes (p + i) = UInt8.ofNat rsi

theorem vectorHits (hno : ∀ i, o ≤ i → ¬ Scalar p i) : VectorHits s p rsi (Hit s p rsi) o w := by
  intro i hi
  rw [Hit, if_neg (hno _ (by omega))]

/-- What holds at the offset `rdx` of the aligned part. -/
structure Ready (s : Space) (p n rsi rdx rax : ℕ) : Prop where
  le : rdx ≤ n
  aligned : (p + rdx) % 32 = 0
  vector : ∀ i, rdx ≤ i → ¬ Scalar p i
  seen : Seen p n (Hit s p rsi) rdx 32 rax

/-- What holds when a label is reached. -/
def StrrchrAt.Ready (s : Space) (p n rsi : ℕ) : StrrchrAt → Prop
  | .chk128bPrlg rdx rax => AvxStrrchr.Ready s p n rsi rdx rax
  | .chk128b rdx rax =>
    AvxStrrchr.Ready s p n rsi rdx rax ∧ (p + rdx) % pgsize + 128 ≤ pgsize
  | .pgx32b rdx rax => AvxStrrchr.Ready s p n rsi rdx rax

/-- How far the end is. -/
def StrrchrAt.left (n : ℕ) : StrrchrAt → ℕ
  | .chk128bPrlg rdx _ => 2 * (n - rdx) + 1
  | .chk128b rdx _ => 2 * (n - rdx)
  | .pgx32b rdx _ => 2 * (n - rdx)

/-- A step leads to the answer, or to a label nearer to the end. -/
def StrrchrStep (s : Space) (p n rsi limit : ℕ) (r : StrrchrAt ⊕ ℕ) (s' : Space) : Prop :=
  s' = s ∧ Sum.elim (fun label => label.Ready s p n rsi ∧ label.left n < limit)
    (fun rax => Best p (Hit s p rsi) (n + 1) rax) r

/-- The next block is reached. -/
theorem Ready.next {rax' : ℕ} (hr : Ready s p n rsi rdx rax) (hw : w % 32 = 0)
    (hle : rdx + w ≤ n) (hb : Best p (Hit s p rsi) (rdx + w) rax') :
    Ready s p n rsi (rdx + w) rax' := by
  have hal := hr.aligned
  exact ⟨hle, by omega, fun i hi => hr.vector i (by omega), hb.seen hle⟩

theorem wp_chk128bPrlg (h : StringArea s p n) (hr : Ready s p n rsi rdx rax) :
    wp (chk128bPrlg p rdx rax) (StrrchrStep s p n rsi (2 * (n - rdx) + 1)) s := by
  have hle : pgsize - 0x80 ≤ pgsize := by decide
  simp only [chk128bPrlg, h.page hr.le, ja_page hle, decide_eq_true_eq]
  by_cases hnear : pgsize - 0x80 < (p + rdx) % pgsize
  · rw [if_pos hnear, wp_pure]
    exact ⟨rfl, hr, Nat.lt_succ_self _⟩
  · rw [if_neg hnear, wp_pure]
    refine ⟨rfl, ⟨hr, ?_⟩, Nat.lt_succ_self _⟩
    simp only [pgsize] at *
    omega

theorem wp_pgx32b (h : StringArea s p n) (hc : ∀ i < 32, v14 i = UInt8.ofNat rsi)
    (hr : Ready s p n rsi rdx rax) :
    wp (pgx32b v14 vpxorSelf p rdx rax) (StrrchrStep s p n rsi (2 * (n - rdx))) s := by
  have hlt := h.lt
  have hle := hr.le
  have hal := hr.aligned
  have hchar : ∀ o, vpcmpeqb ymm v14 (s.lanes ymm (p + o)) = charLanes v14 s p 32 32 o :=
    fun _ => rfl
  have hchk := vchkFound_checked h hc (vectorHits hr.vector) hle hr.seen (Int.add_zero _)
  rw [pgx32b, wp_bind, wp_vmovdqa (a := p + rdx) (by omega) (by omega) hal
    (h.block hle (by simp only [pgsize]; omega))]
  simp only [hchar, nulls_eq]
  rcases hres : vchkFound _ _ _ _ p rdx rax with rax' | rax'
  · rw [hres] at hchk
    obtain ⟨hgo, hb⟩ := hchk
    have hrdx : ea (rdx + 0x20) = rdx + 32 := ea_eq (by omega) (by omega)
    have hnext := hr.next (by decide) hgo hb
    simp only [hrdx, h.page hgo, jz_page, decide_eq_true_eq]
    have hleft : 2 * (n - (rdx + 32)) < 2 * (n - rdx) := by omega
    by_cases hedge : (p + (rdx + 32)) % pgsize = 0
    · rw [if_pos hedge, wp_pure]
      exact ⟨rfl, ⟨hnext, by simp only [pgsize] at *; omega⟩, hleft⟩
    · rw [if_neg hedge, wp_pure]
      exact ⟨rfl, hnext, hleft⟩
  · rw [hres] at hchk
    exact ⟨_, _, rfl, rfl, hchk⟩

/-- Whether neither a match nor a null byte is in a block of four vectors. -/
theorem jz_block (h : StringArea s p n) (hc : ∀ i < 32, v14 i = UInt8.ofNat rsi)
    (ho : o ≤ n) {found : ℕ → Lanes}
    (hfound : ∀ o, found o = vpor (charLanes v14 s p 32 32 o) (nullLanes s p 32 32 o)) :
    jz (vptest ymm
      (vpor (found (o + 96)) (vpor (found (o + 64)) (vpor (found o) (found (o + 32)))))
      (vpor (found (o + 96)) (vpor (found (o + 64)) (vpor (found o) (found (o + 32)))))) = true ↔
      (∀ i < 128, s.bytes (p + (o + i)) ≠ UInt8.ofNat rsi) ∧ o + 128 ≤ n := by
  have hlanes : ∀ o, AllZero 32 (found o) ↔
      (∀ i < 32, s.bytes (p + (o + i)) ≠ UInt8.ofNat rsi) ∧ ∀ i < 32, s.bytes (p + (o + i)) ≠ 0 :=
    fun o => by rw [hfound, allZero_found hc (Nat.le_refl 32) (Nat.le_refl 32)]
  have hchars := forall_four (P := fun j => s.bytes (p + j) ≠ UInt8.ofNat rsi) (o := o)
  have hnulls := (forall_four (P := fun j => s.bytes (p + j) ≠ 0) (o := o)).trans (h.goes_on ho)
  rw [jz_vptest, decide_eq_true_iff, allZero_vpor, allZero_vpor, allZero_vpor, hlanes, hlanes,
    hlanes, hlanes, ← hchars, ← hnulls]
  constructor
  · rintro ⟨⟨hc3, hn3⟩, ⟨hc2, hn2⟩, ⟨hc0, hn0⟩, hc1, hn1⟩
    exact ⟨⟨⟨hc0, hc1⟩, hc2, hc3⟩, ⟨hn0, hn1⟩, hn2, hn3⟩
  · rintro ⟨⟨⟨hc0, hc1⟩, hc2, hc3⟩, ⟨hn0, hn1⟩, hn2, hn3⟩
    exact ⟨⟨hc3, hn3⟩, ⟨hc2, hn2⟩, ⟨hc0, hn0⟩, hc1, hn1⟩

theorem wp_chk128b (h : StringArea s p n) (hc : ∀ i < 32, v14 i = UInt8.ofNat rsi)
    (hr : Ready s p n rsi o rax) (hpage : (p + o) % pgsize + 128 ≤ pgsize) :
    wp (chk128b v14 vpxorSelf p o rax) (StrrchrStep s p n rsi (2 * (n - o))) s := by
  have hlt := h.lt
  have hle := hr.le
  have hal := hr.aligned
  have hblock : ∀ i, i ≤ 96 → s.Readable (p + (o + i)) 32 := fun i hi =>
    (h.block (w := 128) hle hpage).mono (by omega) (by omega)
  have hchar : ∀ o, vpcmpeqb ymm v14 (s.lanes ymm (p + o)) = charLanes v14 s p 32 32 o :=
    fun _ => rfl
  have hrdx : ea (o + 0x80) = o + 128 := ea_eq (by omega) (by omega)
  have hvec : ∀ i, VectorHits s p rsi (Hit s p rsi) (o + i) 32 := fun i =>
    vectorHits fun j hj => hr.vector j (by omega)
  have hjz := jz_block h hc hle
    fun o => Eq.refl (vpor (charLanes v14 s p 32 32 o) (nullLanes s p 32 32 o))
  have hleft : o + 128 ≤ n → 2 * (n - (o + 128)) + 1 < 2 * (n - o) := fun hgo => by omega
  rw [chk128b, wp_bind, wp_vmovdqa (a := p + (o + 0)) (by omega) (by omega) (by omega)
    (hblock 0 (by omega)), wp_bind, wp_vmovdqa (a := p + (o + 32)) (by omega) (by omega) (by omega)
    (hblock 32 (by omega)), wp_bind, wp_vmovdqa (a := p + (o + 64)) (by omega) (by omega) (by omega)
    (hblock 64 (by omega)), wp_bind, wp_vmovdqa (a := p + (o + 96)) (by omega) (by omega) (by omega)
    (hblock 96 (by omega))]
  simp only [hchar, nulls_eq, hrdx, Nat.add_zero, hjz]
  by_cases hno : (∀ i < 128, s.bytes (p + (o + i)) ≠ UInt8.ofNat rsi) ∧ o + 128 ≤ n
  · obtain ⟨k, hok, hko, hkn, hb⟩ := hr.seen
    have hseen : Seen p n (Hit s p rsi) o 128 rax := ⟨k, hok, by omega, hkn, hb⟩
    have hnext := hr.next (w := 128) (by decide) hno.2 (hseen.nothing fun i hi hhit =>
      hno.1 i hi ((vectorHits hr.vector (w := 128) i hi).mp hhit))
    rw [if_pos hno, wp_pure]
    exact ⟨rfl, hnext, hleft hno.2⟩
  rw [if_neg hno]
  -- the vectors one by one
  have hvchk : ∀ (i : ℕ) (off : ℤ) (rax' : ℕ), off = i - 128 → o + i ≤ n →
      Seen p n (Hit s p rsi) (o + i) 32 rax' → Checked p n (Hit s p rsi) (o + i) 32
        (vchkFound (vpor (charLanes v14 s p 32 32 (o + i)) (nullLanes s p 32 32 (o + i)))
          (charLanes v14 s p 32 32 (o + i)) (nullLanes s p 32 32 (o + i)) off p (o + 128) rax') :=
    fun i off rax' hoff hin hseen => vchkFound_checked h hc (hvec i) hin hseen (by omega)
  have hchk := hvchk 0 (-0x80) rax rfl hle hr.seen
  rcases hres : vchkFound _ _ _ (-0x80) p (o + 128) rax with rax₁ | rax₁
  swap
  · rw [Nat.add_zero, hres] at hchk
    exact ⟨_, _, rfl, rfl, hchk⟩
  rw [Nat.add_zero, hres] at hchk
  have hchk := hvchk 32 (-0x60) rax₁ rfl hchk.1 (hchk.2.seen hchk.1)
  simp only
  rcases hres : vchkFound _ _ _ (-0x60) p (o + 128) rax₁ with rax₂ | rax₂
  swap
  · rw [hres] at hchk
    exact ⟨_, _, rfl, rfl, hchk⟩
  rw [hres] at hchk
  have hchk := hvchk 64 (-0x40) rax₂ rfl hchk.1 (hchk.2.seen hchk.1)
  simp only
  rcases hres : vchkFound _ _ _ (-0x40) p (o + 128) rax₂ with rax₃ | rax₃
  swap
  · rw [hres] at hchk
    exact ⟨_, _, rfl, rfl, hchk⟩
  rw [hres] at hchk
  have hchk := hvchk 96 (-0x20) rax₃ rfl hchk.1 (hchk.2.seen hchk.1)
  simp only
  rcases hres : vchkFound _ _ _ (-0x20) p (o + 128) rax₃ with rax₄ | rax₄
  swap
  · rw [hres] at hchk
    exact ⟨_, _, rfl, rfl, hchk⟩
  rw [hres] at hchk
  exact ⟨_, _, rfl, rfl, hr.next (by decide) hchk.1 hchk.2, hleft hchk.1⟩

/-- Each step leads to the answer or to a label where what must hold holds. -/
theorem wp_strrchrStep (h : StringArea s p n) (hc : ∀ i < 32, v14 i = UInt8.ofNat rsi)
    {label : StrrchrAt} (hl : label.Ready s p n rsi) :
    wp (strrchrStep v14 vpxorSelf p label) (StrrchrStep s p n rsi (label.left n)) s := by
  cases label with
  | chk128bPrlg rdx rax => exact wp_chk128bPrlg h hl
  | chk128b rdx rax => exact wp_chk128b h hc hl.1 hl.2
  | pgx32b rdx rax => exact wp_pgx32b h hc hl

/-- From each label the terminator is found. -/
theorem total_strrchrLoop (h : StringArea s p n) (hc : ∀ i < 32, v14 i = UInt8.ofNat rsi)
    {label : StrrchrAt} (hl : label.Ready s p n rsi) :
    Total (fun fuel => fuelLoop (strrchrStep v14 vpxorSelf p) fuel label)
      (fun rax s' => Best p (Hit s p rsi) (n + 1) rax ∧ s' = s) s := by
  refine total_loop (f := fun _ => strrchrStep v14 vpxorSelf p)
    (I := fun left label s' => left = label.left n ∧ s' = s ∧ label.Ready s p n rsi) ?_
    (label.left n) label s ⟨rfl, rfl, hl⟩
  rintro left label s' ⟨rfl, rfl, hl⟩
  refine (Total.const (wp_strrchrStep h hc hl)).mono ?_
  rintro (label' | rax) s'' ⟨rfl, hr⟩
  · exact ⟨_, hr.2, rfl, rfl, hr.1⟩
  · exact ⟨hr, rfl⟩

/-! ### The bytes before a page boundary -/

/-- The steps before the aligned part lead to the answer or to a label. -/
def Entered (s : Space) (p n rsi : ℕ) (r : StrrchrAt ⊕ ℕ) (s' : Space) : Prop :=
  s' = s ∧ Sum.elim (fun label => label.Ready s p n rsi)
    (fun rax => Best p (Hit s p rsi) (n + 1) rax) r

/-- At a boundary, whole vectors stay on the page, and no byte behind it is compared alone. -/
theorem entered_boundary (hle : o ≤ n) (hedge : p % pgsize + o = pgsize)
    (hs : Seen p n (Hit s p rsi) o 32 rax) : Entered s p n rsi (.inl (.chk128b o rax)) s := by
  simp only [pgsize] at hedge
  have hpage : (p + o) % pgsize = 0 := by
    simp only [pgsize]
    omega
  refine ⟨rfl, ⟨hle, by omega, fun i hi hscalar => ?_, hs⟩, by rw [hpage]; decide⟩
  have hbefore := hscalar.2
  simp only [pgsize] at hbefore
  omega

/-- A byte on its own. -/
theorem Best.byte {c : Prop} [Decidable c] (hb : Best p hit k rax) (hc : c ↔ hit k) {r : ℕ}
    (hr : r = p + k) : Best p hit (k + 1) (if c then r else rax) := by
  by_cases h : c
  · rw [if_pos h]
    exact .inr ⟨k, Nat.lt_succ_self k, hc.mp h, hr, fun j hkj hj => absurd hj (by omega)⟩
  · rw [if_neg h]
    refine hb.extend (Nat.le_succ k) fun i hki hi hhit => ?_
    rw [show i = k by omega] at hhit
    exact h (hc.mpr hhit)

/-- The comparison of a byte with all of `esi`. -/
theorem je_cmpl_byte (b : UInt8) : je (cmpl rsi b.toNat) = decide (b.toNat = low32 rsi) := by
  have hb := b.toNat_lt
  rw [cmpl, low32_eq (a := b.toNat) (by omega), je_cmpq]

/-- A byte before the boundary is a match if it is all of `esi`. -/
theorem hit_scalar (hs : Scalar p o) :
    (decide ((s.bytes (p + o)).toNat = low32 rsi) = true) ↔ Hit s p rsi o := by
  rw [Hit, if_pos hs, decide_eq_true_iff]

theorem wp_pgx1b (h : StringArea s p n) (ho : o ≤ n) (hend : pgsize - 3 ≤ p % pgsize)
    (hnear : p % pgsize + o = pgsize - 1 ∨ p % pgsize + o = pgsize)
    (hb : Best p (Hit s p rsi) o rax) : wp (pgx1b p rsi o rax) (Entered s p n rsi) s := by
  have hlt := h.lt
  have hmod : (p + o) % pgsize = 0 ↔ p % pgsize + o = pgsize := by
    simp only [pgsize] at *
    omega
  simp only [pgx1b, h.page ho, jz_page, decide_eq_true_eq, hmod]
  by_cases hedge : p % pgsize + o = pgsize
  · rw [if_pos hedge, wp_pure]
    exact entered_boundary ho hedge (hb.seen ho)
  have hscalar : Scalar p o := ⟨hend, by simp only [pgsize] at *; omega⟩
  have hr : s.readable (p + o) = true := (h.readable _).mpr ⟨o, by omega, rfl⟩
  have hr9 : ea (p + o) = p + o := ea_eq (by omega) (by omega)
  have hrdx : ea (o + 0x01) = o + 1 := ea_eq (by omega) (by omega)
  have hnext := hb.byte (hit_scalar hscalar) (Eq.refl (p + o))
  rw [if_neg hedge, wp_bind, wp_movzxb (a := p + o) (by omega) (by omega) hr]
  simp only [je_cmpl_byte, jnz_testl_byte, hr9, hrdx]
  by_cases hlast : o = n
  · subst hlast
    simp only [h.terminator, ne_eq, not_true_eq_false, decide_false, Bool.false_eq_true, if_false]
    rw [h.terminator] at hnext
    exact ⟨_, _, rfl, rfl, hnext⟩
  · simp only [h.nonzero o (by omega), ne_eq, not_false_eq_true, decide_true, if_true]
    have hgo : o + 1 ≤ n := by omega
    exact (wp_pure _ _ _).mpr
      (entered_boundary hgo (by simp only [pgsize] at *; omega) (hnext.seen hgo))

theorem wp_pgx2b (h : StringArea s p n) (hnear : pgsize - 3 ≤ p % pgsize) :
    wp (pgx2b p rsi 0 0 (p % pgsize)) (Entered s p n rsi) s := by
  have hlt := h.lt
  have hle : pgsize - 0x02 ≤ pgsize := by decide
  have hmod : p % pgsize < pgsize := Nat.mod_lt _ (by decide)
  simp only [pgx2b, ja_page hle, decide_eq_true_eq]
  by_cases hlast : pgsize - 0x02 < p % pgsize
  · rw [if_pos hlast]
    exact wp_pgx1b h (Nat.zero_le n) hnear (by simp only [pgsize] at *; omega) best_zero
  have hroom : p % pgsize + 1 < pgsize := by
    simp only [pgsize] at *
    omega
  have hr : s.readable (p + 0) = true := (h.readable _).mpr ⟨0, by omega, rfl⟩
  have hscalar₀ : Scalar p 0 := ⟨hnear, by omega⟩
  have hfst : Best p (Hit s p rsi) (0 + 1) (if _ then p else 0) :=
    best_zero.byte (hit_scalar hscalar₀) rfl
  rw [if_neg hlast, wp_bind, wp_movzxb (a := p + 0) (by omega) (by omega) hr]
  simp only [je_cmpl_byte, jz_testl_byte]
  by_cases hend : 0 = n
  · subst hend
    simp only [h.terminator, decide_true, if_true]
    rw [h.terminator] at hfst
    exact ⟨_, _, rfl, rfl, hfst⟩
  simp only [h.nonzero 0 (by omega), decide_false, Bool.false_eq_true, if_false]
  have hr' : s.readable (p + 1) = true := (h.readable _).mpr ⟨1, by omega, rfl⟩
  have hr9 : ea (p + 0x01) = p + 1 := ea_eq (by omega) (by omega)
  have hrdx : ea ((0 : ℕ) + 0x02) = 2 := ea_eq (by omega) (by omega)
  have hscalar₁ : Scalar p 1 := ⟨hnear, hroom⟩
  have hsnd := hfst.byte (hit_scalar hscalar₁) (Eq.refl (p + 1))
  rw [wp_bind, wp_movzxb (a := p + 1) (by omega) (by omega) hr']
  simp only [je_cmpl_byte, jz_testl_byte, hr9, hrdx]
  by_cases hend' : 1 = n
  · subst hend'
    simp only [h.terminator, decide_true, if_true]
    rw [h.terminator] at hsnd
    exact ⟨_, _, rfl, rfl, hsnd⟩
  simp only [h.nonzero 1 (by omega), decide_false, Bool.false_eq_true, if_false]
  exact wp_pgx1b h (by omega) hnear (by simp only [pgsize] at *; omega) hsnd

/-! ### Shorter blocks before a page boundary -/

variable {size shift mshift mask d : ℕ}

/-- The last match in a block of fewer than 32 bytes, and up to the end if the end is there. -/
theorem best_shll (hb : BlockMasks s p rsi o w r8 r9) (h : StringArea s p n) (ho : o ≤ n)
    (hw : w + m = 32) (h0 : 0 < w) (hv : VectorHits s p rsi hit o w) (hs : Seen p n hit o w rax)
    {r : ℕ} (hr : ∀ j < 32, 32 ≤ j + w → lzcntl (shll m (maskNull r8 r9)) = 31 - j →
      r = p + (o + (j + w - 32))) :
    (o + w ≤ n → Best p hit (o + w) (if !cntCarry (shll m (maskNull r8 r9)) then r else rax)) ∧
      (n < o + w →
        Best p hit (n + 1) (if !cntCarry (shll m (maskNull r8 r9)) then r else rax)) := by
  obtain ⟨k, hok, hkw, hkn, hbest⟩ := hs
  constructor
  · intro hgo
    have hm : Matches hit o w (o + w) _ := hb.matches_shll h ho hw h0 hv fun i hi => by omega
    exact hm.best hbest hok hkw (Nat.le_refl _) (by omega) hr
  · intro hend
    have hm : Matches hit o w (n + 1) _ := hb.matches_shll h ho hw h0 hv fun i hi => Iff.rfl
    exact hm.best hbest hok (by omega) (by omega) (by omega) hr

/-- The end is in the block, or the code goes on behind it. -/
theorem wp_blockEnd {c : Bool} {next : Prog Space (StrrchrAt ⊕ ℕ)}
    (hc : c = !decide (o + w ≤ n)) (hb : (o + w ≤ n → Best p (Hit s p rsi) (o + w) rax) ∧
      (n < o + w → Best p (Hit s p rsi) (n + 1) rax))
    (hnext : o + w ≤ n → Best p (Hit s p rsi) (o + w) rax → wp next (Entered s p n rsi) s) :
    wp (if c then return .inr rax else next) (Entered s p n rsi) s := by
  subst hc
  by_cases hgo : o + w ≤ n
  · simp only [hgo, decide_true, Bool.not_true, Bool.false_eq_true, if_false]
    exact hnext hgo (hb.1 hgo)
  · simp only [hgo, decide_false, Bool.not_false, if_true]
    exact ⟨_, _, rfl, rfl, hb.2 (by omega)⟩

/-- No byte is compared alone, if four bytes fit on the page. -/
theorem not_scalar (hroom : p % pgsize + 4 ≤ pgsize) (i : ℕ) : ¬ Scalar p i := by
  rintro ⟨hend, -⟩
  simp only [pgsize] at *
  omega

/-- The check for the boundary. -/
theorem je_boundary (hedge : p % pgsize + d = pgsize ∨ p % pgsize + (d + size) = pgsize) :
    je (cmpl pgsize (leal ((p % pgsize : ℕ) + (d : ℕ)))) = decide (p % pgsize + d = pgsize) := by
  have hle : p % pgsize + d ≤ pgsize := by omega
  simp only [pgsize] at hle
  rw [leal_eq (a := p % pgsize + d) (by omega) (by simp only [pgsize]; omega),
    cmpl_eq (by decide) (by simp only [pgsize]; omega), je_cmpq]

/-- Whether neither a match nor a null byte is in the lanes of a short move. -/
theorem jz_short (h : StringArea s p n) (hc : ∀ i < 32, v14 i = UInt8.ofNat rsi)
    (hsize : size + shift = 16) (ho : o ≤ n) :
    jz (vptest xmm
      (vpslldq shift (vpor (charLanes v14 s p 16 size o) (nullLanes s p 16 size o)))
      (vpslldq shift (vpor (charLanes v14 s p 16 size o) (nullLanes s p 16 size o)))) = true ↔
      (∀ i < size, s.bytes (p + (o + i)) ≠ UInt8.ofNat rsi) ∧ o + size ≤ n := by
  rw [jz_vptest, decide_eq_true_iff, xmm, allZero_vpslldq hsize,
    allZero_found hc (by omega) (by decide), h.goes_on ho]

/-- The step of `size` bytes up to the boundary. -/
theorem wp_pgxShortAligned (h : StringArea s p n) (hc : ∀ i < 32, v14 i = UInt8.ofNat rsi)
    (hsize : size + shift = 16) (hmshift : size + mshift = 32) (hmask : mask = 2 ^ size - 1)
    (hfour : 4 ≤ size) (hroom : p % pgsize + 4 ≤ pgsize) (hd : d ≤ n)
    (hedge : p % pgsize + d = pgsize ∨ p % pgsize + (d + size) = pgsize)
    (hs : Seen p n (Hit s p rsi) d size rax) :
    wp (pgxShortAligned size shift mshift mask (Space.load size) v14 vpxorSelf p d rax (p % pgsize))
      (Entered s p n rsi) s := by
  have hlt := h.lt
  simp only [pgxShortAligned, je_boundary hedge, decide_eq_true_eq]
  by_cases hat : p % pgsize + d = pgsize
  · obtain ⟨k, hdk, hkd, hkn, hb⟩ := hs
    rw [if_pos hat, wp_pure]
    exact entered_boundary hd hat ⟨k, hdk, by omega, hkn, hb⟩
  have hend : p % pgsize + (d + size) = pgsize := hedge.resolve_left hat
  have hr : s.Readable (p + d) size := h.block hd (by simp only [pgsize] at *; omega)
  have hchar : vpcmpeqb xmm v14 (s.lanes size (p + d)) = charLanes v14 s p 16 size d := rfl
  have hnull : vpcmpeqb xmm vpxorSelf (s.lanes size (p + d)) = nullLanes s p 16 size d := rfl
  have hrdx : ea (d + size) = d + size := ea_eq (by omega) (by omega)
  have hvec : VectorHits s p rsi (Hit s p rsi) d size :=
    vectorHits fun i _ => not_scalar hroom i
  rw [if_neg hat, wp_bind, ea_eq (a := p + d) (by omega) (by omega), Space.wp_load hr]
  simp only [hchar, hnull, hrdx, jz_short h hc hsize hd]
  by_cases hno : (∀ i < size, s.bytes (p + (d + i)) ≠ UInt8.ofNat rsi) ∧ d + size ≤ n
  · have hb := hs.nothing fun i hi hhit => hno.1 i hi ((hvec i hi).mp hhit)
    rw [if_pos hno, wp_pure]
    exact entered_boundary hno.2 hend (hb.seen hno.2)
  rw [if_neg hno, hmask]
  have hmasks := blockMasks_short (s := s) (p := p) (o := d) hc (w := size) (by omega)
  refine wp_blockEnd (by rw [hmasks.cntCarry h (by omega) hd]) ?_ fun hgo hb =>
    (wp_pure _ _ _).mpr (entered_boundary hgo hend (hb.seen hgo))
  refine best_shll hmasks h hd hmshift (by omega) hvec hs fun j hj hjw hlz => ?_
  simp only [xmm] at *
  rw [hlz]
  simp only [notq, ea]
  omega

/-- The offset of the next multiple of a power of two. -/
theorem next_align {j : ℕ} (hsize : size = 2 ^ j) (hj : j < 6) (hp : p < 2 ^ 63) :
    subq p (andq (imm (-size)) (ea (p + size))) = (p + size) / size * size - p := by
  have hpow : 0 < 2 ^ j := Nat.two_pow_pos j
  have hle : 2 ^ j ≤ 2 ^ 5 := Nat.pow_le_pow_right (by decide) (by omega)
  have himm : imm (-size) = 2 ^ 64 - 2 ^ j := by
    simp only [imm, ea]
    omega
  have hdiv := Nat.div_mul_le_self (p + size) size
  have hmod := Nat.div_add_mod (p + size) size
  have hlt := Nat.mod_lt (p + size) (show size > 0 by omega)
  rw [Nat.mul_comm] at hmod
  rw [ea_eq (a := p + size) (by omega) (by omega), andq, himm, mask_align (by omega) (by omega),
    ← hsize, subq_eq (by omega) (by omega)]

/-- Behind the next multiple, at most as many bytes are left on the page. -/
theorem next_align_edge (hsize : size = 4 ∨ size = 8 ∨ size = 16)
    (hnear : pgsize - 2 * size < p % pgsize) (hroom : p % pgsize + size ≤ pgsize) :
    0 < (p + size) / size * size - p ∧ (p + size) / size * size - p ≤ size ∧
      (p % pgsize + ((p + size) / size * size - p) = pgsize ∨
        p % pgsize + ((p + size) / size * size - p + size) = pgsize) := by
  simp only [pgsize] at *
  rcases hsize with rfl | rfl | rfl
  · omega
  · omega
  · omega

/-- A block of `size` bytes at the beginning, and one up to the boundary. -/
theorem wp_pgxShort (h : StringArea s p n) (hc : ∀ i < 32, v14 i = UInt8.ofNat rsi)
    (hfour : size = 4 ∨ size = 8) (hsize : size + shift = 16) (hmshift : size + mshift = 32)
    (hmask : mask = 2 ^ size - 1) (hnear : pgsize - 2 * size < p % pgsize)
    {next : Prog Space (StrrchrAt ⊕ ℕ)}
    (hnext : pgsize - size < p % pgsize → wp next (Entered s p n rsi) s) :
    wp (pgxShort size shift mshift mask (Space.load size) next v14 vpxorSelf p 0 (p % pgsize))
      (Entered s p n rsi) s := by
  have hlt := h.lt
  have hpage : pgsize - size ≤ pgsize := Nat.sub_le _ _
  have hnextsize : subq p (andq (imm (-size)) (ea (p + size))) = (p + size) / size * size - p := by
    rcases hfour with rfl | rfl
    · exact next_align (j := 2) rfl (by decide) (by omega)
    · exact next_align (j := 3) rfl (by decide) (by omega)
  simp only [pgxShort, ja_page hpage, decide_eq_true_eq]
  by_cases hlast : pgsize - size < p % pgsize
  · rw [if_pos hlast]
    exact hnext hlast
  have hroom : p % pgsize + size ≤ pgsize := by omega
  have hr : s.Readable (p + 0) size := h.block (Nat.zero_le n) hroom
  have hchar : vpcmpeqb xmm v14 (s.lanes size (p + 0)) = charLanes v14 s p 16 size 0 := rfl
  have hnull : vpcmpeqb xmm vpxorSelf (s.lanes size (p + 0)) = nullLanes s p 16 size 0 := rfl
  have hr11 : low32 (p % pgsize) = p % pgsize := low32_eq (by simp only [pgsize]; omega)
  have hvec : VectorHits s p rsi (Hit s p rsi) 0 size :=
    vectorHits fun i _ => not_scalar (by omega) i
  rw [if_neg hlast, wp_bind, ea_eq (a := p + 0) (by omega) (by omega), Space.wp_load hr]
  simp only [hchar, hnull, hr11, hnextsize, jz_short h hc hsize (Nat.zero_le n)]
  -- what holds at the next multiple of `size`
  have haligned : ∀ rax', 0 + size ≤ n → Best p (Hit s p rsi) (0 + size) rax' →
      wp (pgxShortAligned size shift mshift mask (Space.load size) v14 vpxorSelf p
        ((p + size) / size * size - p) rax' (p % pgsize)) (Entered s p n rsi) s := by
    intro rax' hgo hb
    obtain ⟨hpos, hdle, hedge⟩ := next_align_edge (by omega) hnear hroom
    exact wp_pgxShortAligned h hc hsize hmshift hmask (by omega) (by omega) (by omega) hedge
      ⟨0 + size, by omega, by omega, hgo, hb⟩
  by_cases hno : (∀ i < size, s.bytes (p + (0 + i)) ≠ UInt8.ofNat rsi) ∧ 0 + size ≤ n
  · rw [if_pos hno]
    exact haligned 0 hno.2 (best_zero.extend (Nat.zero_le _) fun i _ hi hhit =>
      hno.1 i (by omega) ((hvec i (by omega)).mp (by rwa [Nat.zero_add])))
  rw [if_neg hno, hmask]
  have hmasks := blockMasks_short (s := s) (p := p) (o := 0) hc (w := size) (by omega)
  rw [hmask] at haligned
  refine wp_blockEnd (by rw [hmasks.cntCarry h (by omega) (Nat.zero_le n)]) ?_ fun hgo hb =>
    haligned _ hgo hb
  refine best_shll hmasks h (Nat.zero_le n) hmshift (by omega) hvec (best_zero.seen (Nat.zero_le n))
    fun j hj hjw hlz => ?_
  simp only [xmm] at *
  rw [hlz]
  simp only [notq, ea]
  omega

theorem wp_pgx4b (h : StringArea s p n) (hc : ∀ i < 32, v14 i = UInt8.ofNat rsi)
    (hnear : pgsize - 8 < p % pgsize) :
    wp (pgx4b v14 vpxorSelf p rsi 0 0 (p % pgsize)) (Entered s p n rsi) s :=
  wp_pgxShort h hc (.inl rfl) (by decide) (by decide) (by decide) hnear fun hlast =>
    wp_pgx2b h (by simp only [pgsize] at *; omega)

theorem wp_pgx8b (h : StringArea s p n) (hc : ∀ i < 32, v14 i = UInt8.ofNat rsi)
    (hnear : pgsize - 16 < p % pgsize) :
    wp (pgx8b v14 vpxorSelf p rsi 0 0 (p % pgsize)) (Entered s p n rsi) s :=
  wp_pgxShort h hc (.inr rfl) (by decide) (by decide) (by decide) hnear (wp_pgx4b h hc)

/-- The upper lanes are zero. -/
theorem allZero_upper : AllZero ymm (nullLanes s p 16 w o) ↔ AllZero 16 (nullLanes s p 16 w o) := by
  constructor
  · exact fun hall i hi => hall i (lt_of_lt_of_le hi (by decide))
  · intro hall i hi
    by_cases hlow : i < 16
    · exact hall i hlow
    · exact if_neg hlow

/-- The masks of a block of 16 bytes. -/
theorem blockMasks_xmm (hc : ∀ i < 32, v14 i = UInt8.ofNat rsi) :
    BlockMasks s p rsi o 16 (vpmovmskb xmm (charLanes v14 s p 16 16 o))
      (vpmovmskb xmm (nullLanes s p 16 16 o)) := blockMasks_vector hc (by decide)

theorem wp_pgx16bAligned (h : StringArea s p n) (hc : ∀ i < 32, v14 i = UInt8.ofNat rsi)
    (hroom : p % pgsize + 4 ≤ pgsize) (hd : d ≤ n)
    (hedge : p % pgsize + d = pgsize ∨ p % pgsize + (d + 16) = pgsize)
    (hs : Seen p n (Hit s p rsi) d 16 rax) :
    wp (pgx16bAligned v14 vpxorSelf p d rax (p % pgsize)) (Entered s p n rsi) s := by
  have hlt := h.lt
  simp only [pgx16bAligned, je_boundary hedge, decide_eq_true_eq]
  by_cases hat : p % pgsize + d = pgsize
  · obtain ⟨k, hdk, hkd, hkn, hb⟩ := hs
    rw [if_pos hat, wp_pure]
    exact entered_boundary hd hat ⟨k, hdk, by omega, hkn, hb⟩
  have hend : p % pgsize + (d + 16) = pgsize := hedge.resolve_left hat
  have hr : s.Readable (p + d) 16 := h.block hd (by simp only [pgsize] at *; omega)
  have hchar : vpcmpeqb xmm v14 (s.lanes xmm (p + d)) = charLanes v14 s p 16 16 d := rfl
  have hnull : vpcmpeqb xmm vpxorSelf (s.lanes xmm (p + d)) = nullLanes s p 16 16 d := rfl
  have hrdx : ea (d + 0x10) = d + 16 := ea_eq (by omega) (by omega)
  have hvec : VectorHits s p rsi (Hit s p rsi) d 16 := vectorHits fun i _ => not_scalar hroom i
  rw [if_neg hat, wp_bind, wp_vmovdqa (a := p + d) (by omega) (by omega)
    (by simp only [pgsize] at *; omega) hr]
  simp only [hchar, hnull, hrdx, jz_vptest, decide_eq_true_eq, xmm,
    allZero_found hc (Nat.le_refl 16) (by decide), h.goes_on hd]
  by_cases hno : (∀ i < 16, s.bytes (p + (d + i)) ≠ UInt8.ofNat rsi) ∧ d + 16 ≤ n
  · have hb := hs.nothing fun i hi hhit => hno.1 i hi ((hvec i hi).mp hhit)
    rw [if_pos hno, wp_pure]
    exact entered_boundary hno.2 hend (hb.seen hno.2)
  rw [if_neg hno]
  have hdone : jnz (vptest ymm (nullLanes s p 16 16 d) (nullLanes s p 16 16 d)) =
      !decide (d + 16 ≤ n) := by
    rw [jnz_vptest, decide_eq_decide.mpr (allZero_upper.trans (h.allZero_nulls hd))]
  refine wp_blockEnd hdone ?_ fun hgo hb =>
    (wp_pure _ _ _).mpr (entered_boundary hgo hend (hb.seen hgo))
  refine best_shll (blockMasks_xmm hc) h hd (by decide) (by decide) hvec hs fun j hj hjw hlz => ?_
  simp only [xmm] at *
  rw [hlz]
  simp only [notq, ea]
  omega

/-- Sixteen bytes at the beginning, and sixteen up to the boundary. -/
theorem wp_pgx16b (h : StringArea s p n) (hc : ∀ i < 32, v14 i = UInt8.ofNat rsi)
    (hnear : pgsize - 0x20 < p % pgsize) :
    wp (pgx16b v14 vpxorSelf p rsi 0 0 (p % pgsize)) (Entered s p n rsi) s := by
  have hlt := h.lt
  have hpage : pgsize - 0x10 ≤ pgsize := Nat.sub_le _ _
  simp only [pgx16b, ja_page hpage, decide_eq_true_eq]
  by_cases hlast : pgsize - 0x10 < p % pgsize
  · rw [if_pos hlast]
    exact wp_pgx8b h hc hlast
  have hroom : p % pgsize + 16 ≤ pgsize := by
    simp only [pgsize] at *
    omega
  have hr : s.Readable (p + 0) 16 := h.block (Nat.zero_le n) hroom
  have hchar : vpcmpeqb xmm v14 (s.lanes xmm (p + 0)) = charLanes v14 s p 16 16 0 := rfl
  have hnull : vpcmpeqb xmm vpxorSelf (s.lanes xmm (p + 0)) = nullLanes s p 16 16 0 := rfl
  have hr11 : low32 (p % pgsize) = p % pgsize := low32_eq (by simp only [pgsize]; omega)
  have hnextsize : subq p (andq (imm (-0x10)) (ea (p + 0x10))) = (p + 16) / 16 * 16 - p :=
    next_align (j := 4) rfl (by decide) (by omega)
  have hvec : VectorHits s p rsi (Hit s p rsi) 0 16 :=
    vectorHits fun i _ => not_scalar (by omega) i
  have hfound : AllZero 16 (vpor (nullLanes s p 16 16 0) (charLanes v14 s p 16 16 0)) ↔
      (∀ i < 16, s.bytes (p + (0 + i)) ≠ UInt8.ofNat rsi) ∧ 0 + 16 ≤ n := by
    rw [allZero_vpor, and_comm, ← allZero_vpor, allZero_found hc (Nat.le_refl 16) (by decide),
      h.goes_on (Nat.zero_le n)]
  rw [if_neg hlast, wp_bind, wp_vmovdqu (a := p + 0) (by omega) (by omega) hr]
  simp only [hchar, hnull, hr11, hnextsize, jz_vptest, decide_eq_true_eq, xmm, hfound]
  -- what holds at the next multiple of 16
  have haligned : ∀ rax', 0 + 16 ≤ n → Best p (Hit s p rsi) (0 + 16) rax' →
      wp (pgx16bAligned v14 vpxorSelf p ((p + 16) / 16 * 16 - p) rax' (p % pgsize))
        (Entered s p n rsi) s := by
    intro rax' hgo hb
    obtain ⟨hpos, hdle, hedge⟩ := next_align_edge (by omega) hnear hroom
    exact wp_pgx16bAligned h hc (by omega) (by omega) hedge ⟨0 + 16, by omega, by omega, hgo, hb⟩
  by_cases hno : (∀ i < 16, s.bytes (p + (0 + i)) ≠ UInt8.ofNat rsi) ∧ 0 + 16 ≤ n
  · rw [if_pos hno]
    exact haligned 0 hno.2 ((best_zero.seen (Nat.zero_le n)).nothing fun i hi hhit =>
      hno.1 i hi ((hvec i hi).mp hhit))
  rw [if_neg hno]
  have hdone : jnz (vptest 16 (nullLanes s p 16 16 0) (nullLanes s p 16 16 0)) =
      !decide (0 + 16 ≤ n) := by
    rw [jnz_vptest, decide_eq_decide.mpr (h.allZero_nulls (Nat.zero_le n))]
  refine wp_blockEnd hdone ?_ fun hgo hb => haligned _ hgo hb
  refine best_shll (blockMasks_xmm hc) h (Nat.zero_le n) (by decide) (by decide) hvec
    (best_zero.seen (Nat.zero_le n)) fun j hj hjw hlz => ?_
  simp only [xmm] at *
  rw [hlz]
  simp only [notq, ea]
  omega

theorem wp_strrchrEntry (h : StringArea s p n) (hc : ∀ i < 32, v14 i = UInt8.ofNat rsi) :
    wp (strrchrEntry v14 vpxorSelf p rsi) (Entered s p n rsi) s := by
  have hlt := h.lt
  have hpage : pgsize - 0x20 ≤ pgsize := Nat.sub_le _ _
  have hpos : andl (pgsize - 1) (low32 p) = p % pgsize := by
    rw [andl_page, low32]
    exact Nat.mod_mod_of_dvd p (by decide)
  simp only [strrchrEntry, hpos, ja_page hpage, decide_eq_true_eq]
  by_cases hnear : pgsize - 0x20 < p % pgsize
  · rw [if_pos hnear]
    exact wp_pgx16b h hc hnear
  have hroom : p % pgsize + 32 ≤ pgsize := by
    simp only [pgsize] at *
    omega
  have hr : s.Readable (p + 0) 32 := h.block (Nat.zero_le n) hroom
  have hchar : vpcmpeqb ymm v14 (s.lanes ymm (p + 0)) = charLanes v14 s p 32 32 0 := rfl
  have hchk := vchkFound_checked h hc (vectorHits fun i _ => not_scalar (by omega) i)
    (Nat.zero_le n) (best_zero.seen (Nat.zero_le n)) (Int.add_zero (0 : ℕ))
  rw [if_neg hnear, wp_bind, wp_vmovdqu (a := p + 0) (by omega) (by omega) hr]
  simp only [hchar, nulls_eq]
  rcases hres : vchkFound _ _ _ 0x00 p 0 0 with rax | rax
  · rw [hres] at hchk
    obtain ⟨hgo, hb⟩ := hchk
    have hrdx : subq p (andq (imm (-0x20)) (ea (p + 0x20))) = (p + 0x20) / 32 * 32 - p :=
      next_align (j := 5) rfl (by decide) (by omega)
    simp only [l32balign, hrdx]
    exact (wp_pure _ _ _).mpr ⟨rfl, by omega, by omega, fun i _ => not_scalar (by omega) i,
      0 + 32, by omega, by omega, hgo, hb⟩
  · rw [hres] at hchk
    exact ⟨_, _, rfl, rfl, hchk⟩

theorem total_avx2Strrchr (h : StringArea s p n) :
    Total (avx2Strrchr p rsi) (fun rax s' => Best p (Hit s p rsi) (n + 1) rax ∧ s' = s) s := by
  have hc : ∀ i < 32, vinserti128 (vpshufb xmm vpxorSelf (vmovdOf rsi))
      (vpshufb xmm vpxorSelf (vmovdOf rsi)) i = UInt8.ofNat rsi := fun i hi =>
    vinserti128_broadcast hi
  refine Total.wp_bind (wp_mono (wp_strrchrEntry h hc) ?_)
  rintro (label | rax) s' ⟨rfl, hr⟩
  · exact total_strrchrLoop h hc hr
  · exact Total.const ((wp_pure _ _ _).mpr ⟨hr, rfl⟩)

/-! ### The answer of `strrchr` -/

variable {c : ℤ} {i : ℕ}

/-- The byte at the offset `i` equals `(char)c`. -/
def IsChar (s : Space) (p : ℕ) (c : ℤ) (i : ℕ) : Prop := s.bytes (p + i) = UInt8.ofInt c

/-- The last byte of the string, terminator included, that equals `(char)c`. -/
structure LastChar (s : Space) (p n : ℕ) (c : ℤ) (i : ℕ) : Prop where
  le : i ≤ n
  char : IsChar s p c i
  last : ∀ j, i < j → j ≤ n → ¬ IsChar s p c j

/-- The answer of `strrchr`, which changes nothing. -/
def FindsLast (s : Space) (p n : ℕ) (c : ℤ) (rax : ℕ) (s' : Space) : Prop :=
  Best p (IsChar s p c) (n + 1) rax ∧ s' = s

/-- Behind a match, or there, is the last one. -/
theorem exists_lastChar {i : ℕ} (hi : i ≤ n) (hchar : IsChar s p c i) :
    ∃ j, LastChar s p n c j := by
  by_cases hlast : ∀ j, i < j → j ≤ n → ¬ IsChar s p c j
  · exact ⟨i, hi, hchar, hlast⟩
  · push Not at hlast
    obtain ⟨j, hij, hj, hchar'⟩ := hlast
    exact exists_lastChar hj hchar'
termination_by n - i

/-- What `esi` is for an `int`. -/
theorem low32_int (hrsi : int32 rsi = c) :
    ((low32 rsi : ℤ) = c ∧ 0 ≤ c) ∨ ((low32 rsi : ℤ) = c + 2 ^ 32 ∧ -2 ^ 31 ≤ c ∧ c < 0) := by
  have hlt : low32 rsi < 2 ^ 32 := Nat.mod_lt _ (by decide)
  rw [int32] at hrsi
  by_cases hpos : low32 rsi < 2 ^ 31
  · rw [if_pos hpos] at hrsi
    omega
  · rw [if_neg hpos] at hrsi
    omega

/-- The vectors compare with `(char)c`. -/
theorem ofNat_char (hrsi : int32 rsi = c) : UInt8.ofNat rsi = UInt8.ofInt c := by
  have hint := low32_int hrsi
  have hmod : rsi % 2 ^ 8 = (c % 2 ^ 8).toNat := by
    simp only [low32] at hint
    omega
  rw [UInt8.ofInt, ← hmod, UInt8.ofNat_mod_size]

/-- What the routine takes for a match is one. -/
theorem Hit.isChar (hrsi : int32 rsi = c) (hhit : Hit s p rsi i) : IsChar s p c i := by
  rw [IsChar, ← ofNat_char hrsi]
  by_cases hscalar : Scalar p i
  · rw [Hit, if_pos hscalar] at hhit
    have hlt := (s.bytes (p + i)).toNat_lt
    refine UInt8.toNat_inj.mp ?_
    rw [UInt8.toNat_ofNat']
    simp only [low32] at *
    omega
  · rwa [Hit, if_neg hscalar] at hhit

/-- In a vector no match is missed. -/
theorem IsChar.hit_vector (hrsi : int32 rsi = c) (hscalar : ¬ Scalar p i)
    (hchar : IsChar s p c i) : Hit s p rsi i := by
  rw [Hit, if_neg hscalar, ofNat_char hrsi]
  exact hchar

/-- On its own, a byte matches just if all of `esi` is a byte. -/
theorem IsChar.hit_scalar (hrsi : int32 rsi = c) (hscalar : Scalar p i) (hchar : IsChar s p c i) :
    Hit s p rsi i ↔ 0 ≤ c ∧ c < 256 := by
  have hint := low32_int hrsi
  have hbyte : (s.bytes (p + i)).toNat = rsi % 2 ^ 8 := by
    rw [IsChar, ← ofNat_char hrsi] at hchar
    rw [hchar, UInt8.toNat_ofNat']
  rw [Hit, if_pos hscalar, hbyte]
  simp only [low32] at hint ⊢
  omega

/-- The last match is found, if it is not missed. -/
theorem Best.findsLast (hrsi : int32 rsi = c) (hb : Best p (Hit s p rsi) (n + 1) rax)
    (hlast : ∀ i, LastChar s p n c i → Hit s p rsi i) : Best p (IsChar s p c) (n + 1) rax := by
  rcases hb with ⟨h0, hnone⟩ | ⟨i, hi, hhit, hrax, hbehind⟩
  · refine .inl ⟨h0, fun i hi hchar => ?_⟩
    obtain ⟨j, hj⟩ := exists_lastChar (Nat.lt_succ_iff.mp hi) hchar
    exact hnone j (Nat.lt_succ_of_le hj.le) (hlast j hj)
  · refine .inr ⟨i, hi, hhit.isChar hrsi, hrax, fun j hij hj hchar => ?_⟩
    obtain ⟨k, hk⟩ := exists_lastChar (Nat.lt_succ_iff.mp hj) hchar
    have hjk : j ≤ k := Nat.le_of_not_lt fun hkj => hk.last j hkj (by omega) hchar
    exact hbehind k (by omega) (Nat.lt_succ_of_le hk.le) (hlast k hk)

/-- A last match that is missed is not the answer. -/
theorem Best.not_findsLast (hb : Best p (Hit s p rsi) (n + 1) rax)
    (hi : LastChar s p n c i) (hmiss : ¬ Hit s p rsi i) (hp : 0 < p) :
    ¬ Best p (IsChar s p c) (n + 1) rax := by
  have hle := hi.le
  rintro (⟨h0, hnone⟩ | ⟨j, hj, hchar, hrax, hbehind⟩)
  · exact hnone i (by omega) hi.char
  -- the answer is the last match, which is no match for the routine
  have hij : j = i := by
    by_contra hne
    rcases Nat.lt_or_gt_of_ne hne with hlt | hgt
    · exact hbehind i hlt (by omega) hi.char
    · exact hi.last j hgt (by omega) hchar
  rcases hb with ⟨h0, hnone⟩ | ⟨k, hk, hhit, hrax', hbehind'⟩
  · omega
  · rw [show k = i by omega] at hhit
    exact hmiss hhit

/-! ### All strings and characters -/

/-- A byte that is compared on its own is missed if `c` is not a byte. -/
theorem not_findsLast_of_scalar (h : StringArea s p n) (hrsi : int32 rsi = c)
    (hwide : ¬ (0 ≤ c ∧ c < 256)) (hi : LastChar s p n c i) (hscalar : Scalar p i) :
    ¬ Total (avx2Strrchr p rsi) (FindsLast s p n c) s := by
  rintro ⟨rax, s', hret, hlast, -⟩
  obtain ⟨rax', s'', hret', hb, -⟩ : Total (avx2Strrchr p rsi) _ s := total_avx2Strrchr h
  obtain ⟨rfl, -⟩ := hret.unique hret'
  have hmiss : ¬ Hit s p rsi i := fun hhit =>
    hwide ((hi.char.hit_scalar hrsi hscalar).mp hhit)
  have hp : 0 < p := by
    have hend := hscalar.1
    simp only [pgsize] at hend
    omega
  exact hb.not_findsLast hi hmiss hp hlast

/-- `cldm_avx2_strrchr` returns the address of the last byte that equals `(char)c`, or null, if
and only if `c` is among 0 to 255 or that byte is not compared on its own. -/
theorem avx2_strrchr_correct (h : StringArea s p n) (hrsi : int32 rsi = c) :
    Total (avx2Strrchr p rsi) (FindsLast s p n c) s ↔
      (0 ≤ c ∧ c < 256) ∨ ∀ i, LastChar s p n c i → ¬ Scalar p i := by
  constructor
  · intro htotal
    by_contra hneither
    push Not at hneither
    obtain ⟨hwide, i, hi, hscalar⟩ := hneither
    exact not_findsLast_of_scalar h hrsi (by omega) hi hscalar htotal
  · intro hcond
    refine (total_avx2Strrchr h).mono ?_
    rintro rax s' ⟨hb, rfl⟩
    refine ⟨hb.findsLast hrsi fun i hi => ?_, rfl⟩
    by_cases hscalar : Scalar p i
    · have hbyte : 0 ≤ c ∧ c < 256 := hcond.resolve_right fun hno => hno i hi hscalar
      exact (hi.char.hit_scalar hrsi hscalar).mpr hbyte
    · exact hi.char.hit_vector hrsi hscalar

/-- The last 'b' of the string "ab" at the end of a page. -/
theorem avx2_strrchr_correct_b :
    Total (avx2Strrchr 0x1ffe 98) (FindsLast abAtEnd 0x1ffe 2 98) abAtEnd :=
  (avx2_strrchr_correct stringArea_abAtEnd (by decide)).mpr (.inl (by decide))

/-- The string of the one byte `0xe9`, the last of a page. -/
def latinAtEnd : Space where
  bytes := fun a => if a = 0x1fff then 0xe9 else 0
  readable := fun a => a / pgsize = 1 ∨ a / pgsize = 2
  writable := fun _ => false

theorem stringArea_latinAtEnd : StringArea latinAtEnd 0x1fff 1 where
  terminator := rfl
  nonzero := by decide
  readable := fun a => by
    rw [onPages_two (by decide) (by decide) (by decide) (by decide)]
    exact decide_eq_true_iff
  lt := by decide

/-- A `char` that is negative is not found there. -/
theorem avx2_strrchr_negative : StringArea latinAtEnd 0x1fff 1 ∧
    LastChar latinAtEnd 0x1fff 1 (-23) 0 ∧
    ¬ Total (avx2Strrchr 0x1fff (leal (-23))) (FindsLast latinAtEnd 0x1fff 1 (-23)) latinAtEnd := by
  have hlast : LastChar latinAtEnd 0x1fff 1 (-23) 0 := by
    refine ⟨by decide, rfl, fun j hj hj' hchar => ?_⟩
    obtain rfl : j = 1 := by omega
    exact absurd hchar (by rw [IsChar]; decide)
  exact ⟨stringArea_latinAtEnd, hlast, not_findsLast_of_scalar stringArea_latinAtEnd
    (int32_leal (by decide) (by decide)) (by decide) hlast (by decide)⟩

end AvxStrrchr

end Cldm
