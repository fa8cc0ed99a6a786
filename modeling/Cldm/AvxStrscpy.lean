/-
The AVX2 copy of strings to an area of bounded size.

`avx2Strscpy` is `cldm_avx2_strscpy`, with a definition for each label of the assembly
source.  Labels that do the same for another size are one definition with the size as
a parameter; the three labels that jump to each other are the states `StrscpyAt` of
one loop.

While no null byte has been met, the destination holds exactly the first bytes of the
string (`Space.copied`).  The vector with the terminator ends the copy (`CopyDone`);
behind the last whole vector the routine goes back, so that the final one ends with
the destination.

* `avx2_strscpy_correct` — for every string, destination size and alignment, the
  answer and the destination are as `StrscpyDone` says, and only pages with a byte of
  the string are read.
-/
import Cldm.Byteseq

namespace Cldm.AvxStrscpy

open Prog Space Avx2 Byteseq

/-! ### The end of the destination -/

/-- The macro `vecoffs` -/
def vecoffs (w : ℕ) (vecreg : Lanes) (baseoff : ℤ) (rax : ℕ) : ℕ :=
  let rcx := vpmovmskb w vecreg
  let r8 := tzcntl rcx
  ea (rax + r8 + baseoff)

/-- `.Lepi_ovfz` -/
def epiOvfz (rdi rdx : ℕ) : Prog Space ℕ := do
  let rax := imm (-7)
  movb 0x00 (ea (rdi + rdx - 0x01))
  return rax

/-- `.Lbufend1b` -/
def bufend1b (rdi rsi rax : ℕ) : Prog Space ℕ := do
  let r8 ← movzxb (ea (rsi + rax))
  movb 0x00 (ea (rdi + rax))
  let rcx := imm (-7)
  return if jnz (testl r8 r8) then rcx else rax

/-- `.Lbufend2b_final` -/
def bufend2bFinal (rdi rsi rdx rax : ℕ) : Prog Space ℕ :=
  let rax := leal (rax + 0x02)
  let fl := cmpl rax rdx
  if jna fl then epiOvfz rdi rdx else do
  let rdx ← movzxb (ea (rsi + rax))
  movb 0x00 (ea (rdi + rax))
  let rcx := imm (-7)
  return if jnz (testl rdx rdx) then rcx else rax

/-- `.Lbufend2b` -/
def bufend2b (rdi rsi rdx rax : ℕ) : Prog Space ℕ := do
  let r8 ← movzxb (ea (rsi + rax))
  movb r8 (ea (rdi + rax))
  let rcx ← movzxb (ea (rsi + rax + 0x01))
  movb rcx (ea (rdi + rax + 0x01))
  let r11 := 0
  let r10 := 0xff
  let r11 := if jnz (testl r8 r8) then r10 else r11
  if jnz (testl r11 rcx) then bufend2bFinal rdi rsi rdx rax else
  let r11 := andl 0x01 r11
  return leal (rax + r11)

/-- `.Lbufend4b_final` and `.Lbufend8b_final` -/
def bufendShortFinal (size : ℕ) (mov : ℕ → Prog Space Lanes) (movTo : Lanes → ℕ → Prog Space Unit)
    (xmm15 : Lanes) (rdi rsi rdx rax : ℕ) : Prog Space ℕ :=
  let r9 := leal (rax + size)
  let fl := cmpl r9 rdx
  if jna fl then epiOvfz rdi rdx else do
  let rax := low32 rdx
  let rax := subl size rax
  let xmm1 ← mov (ea (rsi + rax))
  let xmm5 := vpcmpeqb xmm xmm15 xmm1
  movTo xmm1 (ea (rdi + rax))
  let rcx := vpmovmskb xmm xmm5
  let r8 := tzcntl rcx
  let fl := cmpl size r8
  if jnb fl then epiOvfz rdi rdx else
  return leal (rax + r8)

/-- `.Lbufend4b` and `.Lbufend8b`: moves of `size` bytes. -/
def bufendShort (size : ℕ) (mov : ℕ → Prog Space Lanes) (movTo : Lanes → ℕ → Prog Space Unit)
    (xmm15 : Lanes) (rdi rsi rdx rax : ℕ) : Prog Space ℕ := do
  let xmm0 ← mov (ea (rsi + rax))
  let xmm4 := vpcmpeqb xmm xmm15 xmm0
  movTo xmm0 (ea (rdi + rax))
  let rcx := vpmovmskb xmm xmm4
  let r8 := tzcntl rcx
  let fl := cmpl size r8
  if jnb fl then bufendShortFinal size mov movTo xmm15 rdi rsi rdx rax else
  return leal (rax + r8)

def bufend4b : Lanes → ℕ → ℕ → ℕ → ℕ → Prog Space ℕ := bufendShort 0x04 vmovd vmovdTo

def bufend8b : Lanes → ℕ → ℕ → ℕ → ℕ → Prog Space ℕ := bufendShort 0x08 vmovq vmovqTo

/-- `.Lbufend16b_final` -/
def bufend16bFinal (xmm15 : Lanes) (rdi rsi rdx rax : ℕ) : Prog Space ℕ :=
  let r9 := leal (rax + 0x10)
  let fl := cmpl r9 rdx
  if jna fl then epiOvfz rdi rdx else do
  let rcx := 0x10
  let rax := low32 rdx
  let rax := subl rcx rax
  let xmm1 ← vmovdqu xmm (ea (rsi + rax))
  let xmm5 := vpcmpeqb xmm xmm15 xmm1
  vmovdquTo xmm xmm1 (ea (rdi + rax))
  if jz (vptest xmm xmm5 xmm5) then epiOvfz rdi rdx else
  let rcx := vpmovmskb xmm xmm5
  let rdx := tzcntl rcx
  return leal (rax + rdx)

/-- `.Lbufend16b` -/
def bufend16b (xmm15 : Lanes) (rdi rsi rdx rax : ℕ) : Prog Space ℕ := do
  let xmm0 ← vmovdqu xmm (ea (rsi + rax))
  let xmm4 := vpcmpeqb xmm xmm15 xmm0
  vmovdquTo xmm xmm0 (ea (rdi + rax))
  if jz (vptest xmm xmm4 xmm4) then bufend16bFinal xmm15 rdi rsi rdx rax else
  let rcx := vpmovmskb xmm xmm4
  let rdx := tzcntl rcx
  return leal (rax + rdx)

/-- `.Lbufendtbl` -/
def lbufendtbl (ymm15 : Lanes) (rdi rsi rdx rax : ℕ) : List (Prog Space ℕ) :=
  [bufend1b rdi rsi rax, bufend2b rdi rsi rdx rax, bufend4b ymm15 rdi rsi rdx rax,
    bufend8b ymm15 rdi rsi rdx rax, bufend16b ymm15 rdi rsi rdx rax]

/-- A jump to an entry of a table. -/
def jmpEntry (table : List (Prog Space ℕ)) (index : ℕ) : Prog Space ℕ :=
  (table[index]?).getD fun _ => none

/-- `.Lbufend_unaligned` -/
def bufendUnaligned (ymm15 : Lanes) (rdi rsi rdx rax : ℕ) : Prog Space ℕ :=
  let r9 := low32 rdx
  let r9 := subl rax r9
  let rcx := lzcntl r9
  let rcx := negq rcx
  jmpEntry (lbufendtbl ymm15 rdi rsi rdx rax) (ea (rcx + 0x1f))

/-- `.Lbufend32b`, `.Lbufend64b_final`, `.Lbufend96b_final` and `.Lbufend128b_final`: the last
vector, from `off` bytes on and `r10` back. -/
def bufendFinal (ymm15 : Lanes) (rdi rsi rdx r10 rax off : ℕ) : Prog Space ℕ := do
  let rax := ea (rax + off)
  let rax := subq r10 rax
  let ymm0 ← vmovdqu ymm (ea (rsi + rax))
  let ymm4 := vpcmpeqb ymm ymm15 ymm0
  vmovdquTo ymm ymm0 (ea (rdi + rax))
  if jz (vptest ymm ymm4 ymm4) then epiOvfz rdi rdx else
  return vecoffs ymm ymm4 0x00 rax

/-- `.Lbufend64b`, `.Lbufend96b` and `.Lbufend128b` with the labels `_mid`, `_second` and
`_third`: so many aligned vectors from `off` bytes on, then the last one. -/
def bufendVectors (ymm15 : Lanes) (rdi rsi rdx r10 rax off : ℕ) : ℕ → Prog Space ℕ
  | 0 => bufendFinal ymm15 rdi rsi rdx r10 rax off
  | vectors + 1 => do
    let ymm0 ← vmovdqa ymm (ea (rsi + rax + off))
    let ymm4 := vpcmpeqb ymm ymm15 ymm0
    vmovdquTo ymm ymm0 (ea (rdi + rax + off))
    if jz (vptest ymm ymm4 ymm4) then
      bufendVectors ymm15 rdi rsi rdx r10 rax (off + 0x20) vectors
    else return vecoffs ymm ymm4 off rax

attribute [grind =] bufendVectors

def bufend32b (ymm15 : Lanes) (rdi rsi rdx r10 rax : ℕ) : Prog Space ℕ :=
  bufendVectors ymm15 rdi rsi rdx r10 rax 0x00 0

def bufend64b (ymm15 : Lanes) (rdi rsi rdx r10 rax : ℕ) : Prog Space ℕ :=
  bufendVectors ymm15 rdi rsi rdx r10 rax 0x00 1

def bufend96b (ymm15 : Lanes) (rdi rsi rdx r10 rax : ℕ) : Prog Space ℕ :=
  bufendVectors ymm15 rdi rsi rdx r10 rax 0x00 2

def bufend128b (ymm15 : Lanes) (rdi rsi rdx r10 rax : ℕ) : Prog Space ℕ :=
  bufendVectors ymm15 rdi rsi rdx r10 rax 0x00 3

/-- `.Lendtbl` -/
def lendtbl (ymm15 : Lanes) (rdi rsi rdx r10 rax : ℕ) : List (Prog Space ℕ) :=
  [bufend32b ymm15 rdi rsi rdx r10 rax, bufend64b ymm15 rdi rsi rdx r10 rax,
    bufend96b ymm15 rdi rsi rdx r10 rax, bufend128b ymm15 rdi rsi rdx r10 rax]

/-- `.Lbufend_aligned` -/
def bufendAligned (ymm15 : Lanes) (rdi rsi rdx rax : ℕ) : Prog Space ℕ :=
  let rcx := subq rax rdx
  let r9 := low32 rcx
  let r9 := shrl 0x05 r9
  let rcx := andl 0x1f rcx
  let rcx := negl rcx
  let r10 := leal (rcx + 0x20)
  jmpEntry (lendtbl ymm15 rdi rsi rdx r10 rax) r9

/-- `.Lpgx32b_bufend` -/
def pgx32bBufend (ymm15 : Lanes) (rdi rsi rdx rax : ℕ) : Prog Space ℕ :=
  let rcx := rdx
  let rcx := subq rax rcx
  let rcx := negq rcx
  let r10 := ea (rcx + 0x20)
  bufend32b ymm15 rdi rsi rdx r10 rax

/-! ### Whole vectors -/

/-- The labels of the copy of aligned vectors, with the offset. -/
inductive StrscpyAt
  | cpy128bPrlg (rax : ℕ)
  | cpy128b (rax : ℕ)
  | pgx32b (rax : ℕ)

/-- `.Lcpy128b_prlg` -/
def cpy128bPrlg (rsi rax : ℕ) : Prog Space (StrscpyAt ⊕ ℕ) :=
  let rcx := ea (rsi + rax)
  let rcx := andl (pgsize - 1) rcx
  let fl := cmpl (pgsize - 0x80) rcx
  if ja fl then return .inl (.pgx32b rax) else return .inl (.cpy128b rax)

/-- `.Lnull64b` and `.Lnull32b` -/
def null64b (rdi rax : ℕ) (ymm1 ymm4 ymm5 : Lanes) : Prog Space ℕ :=
  if jnz (vptest ymm ymm4 ymm4) then return vecoffs ymm ymm4 0x00 rax else do
  vmovdquTo ymm ymm1 (ea (rdi + rax + 0x20))
  return vecoffs ymm ymm5 0x20 rax

/-- `.Lnull128b` and `.Lnull96b` -/
def null128b (rdi rax : ℕ) (ymm1 ymm2 ymm3 ymm4 ymm5 ymm6 ymm7 ymm8 : Lanes) : Prog Space ℕ :=
  if jnz (vptest ymm ymm8 ymm8) then null64b rdi rax ymm1 ymm4 ymm5 else do
  vmovdquTo ymm ymm1 (ea (rdi + rax + 0x20))
  vmovdquTo ymm ymm2 (ea (rdi + rax + 0x40))
  if jnz (vptest ymm ymm6 ymm6) then return vecoffs ymm ymm6 0x40 rax else do
  vmovdquTo ymm ymm3 (ea (rdi + rax + 0x60))
  return vecoffs ymm ymm7 0x60 rax

/-- `.Lcpy128b` -/
def cpy128b (ymm15 : Lanes) (rdi rsi rdx rax : ℕ) : Prog Space (StrscpyAt ⊕ ℕ) :=
  let rcx := ea (rax + 0x80)
  let fl := cmpq rdx rcx
  if ja fl then .inr <$> bufendAligned ymm15 rdi rsi rdx rax else do
  let ymm0 ← vmovdqa ymm (ea (rsi + rax))
  let ymm4 := vpcmpeqb ymm ymm15 ymm0
  let ymm1 ← vmovdqa ymm (ea (rsi + rax + 0x20))
  let ymm5 := vpcmpeqb ymm ymm15 ymm1
  let ymm2 ← vmovdqa ymm (ea (rsi + rax + 0x40))
  let ymm6 := vpcmpeqb ymm ymm15 ymm2
  let ymm3 ← vmovdqa ymm (ea (rsi + rax + 0x60))
  let ymm7 := vpcmpeqb ymm ymm15 ymm3
  let ymm8 := vpor ymm4 ymm5
  let ymm9 := vpor ymm6 ymm7
  let ymm10 := vpor ymm8 ymm9
  vmovdquTo ymm ymm0 (ea (rdi + rax))
  if jnz (vptest ymm ymm10 ymm10) then
    .inr <$> null128b rdi rax ymm1 ymm2 ymm3 ymm4 ymm5 ymm6 ymm7 ymm8
  else do
  vmovdquTo ymm ymm1 (ea (rdi + rax + 0x20))
  vmovdquTo ymm ymm2 (ea (rdi + rax + 0x40))
  vmovdquTo ymm ymm3 (ea (rdi + rax + 0x60))
  let rax := ea (rax + 0x80)
  return .inl (.cpy128bPrlg rax)

/-- `.Lpgx32b` and `.Lpgx32b_epi` -/
def pgx32b (ymm15 : Lanes) (rdi rsi rdx rax : ℕ) : Prog Space (StrscpyAt ⊕ ℕ) :=
  let rcx := ea (rax + 0x20)
  let fl := cmpq rdx rcx
  if ja fl then .inr <$> pgx32bBufend ymm15 rdi rsi rdx rax else do
  let ymm0 ← vmovdqa ymm (ea (rsi + rax))
  let ymm4 := vpcmpeqb ymm ymm15 ymm0
  vmovdquTo ymm ymm0 (ea (rdi + rax))
  let rax := ea (rax + 0x20)
  if jnz (vptest ymm ymm4 ymm4) then return .inr (vecoffs ymm ymm4 (-0x20) rax) else
  let rcx := ea (rsi + rax)
  let rcx := andl (pgsize - 1) rcx
  if jz (flagsOf rcx) then return .inl (.cpy128b rax) else return .inl (.pgx32b rax)

/-- The code at a label. -/
def strscpyStep (ymm15 : Lanes) (rdi rsi rdx : ℕ) : StrscpyAt → Prog Space (StrscpyAt ⊕ ℕ)
  | .cpy128bPrlg rax => cpy128bPrlg rsi rax
  | .cpy128b rax => cpy128b ymm15 rdi rsi rdx rax
  | .pgx32b rax => pgx32b ymm15 rdi rsi rdx rax

/-- The copy from a label on. -/
def strscpyFrom (ymm15 : Lanes) (rdi rsi rdx : ℕ) (label : StrscpyAt) (fuel : ℕ) : Prog Space ℕ :=
  fuelLoop (strscpyStep ymm15 rdi rsi rdx) fuel label

/-! ### The bytes before a page boundary -/

/-- `.Lpgx_bufchk` -/
def pgxBufchk (ymm15 : Lanes) (rdi rsi rdx rax fuel : ℕ) : Prog Space ℕ :=
  let rcx := leal (rax + 0x20)
  let fl := cmpq rcx rdx
  if jb fl then bufendUnaligned ymm15 rdi rsi rdx rax else do
  let ymm0 ← vmovdqa ymm (ea (rsi + rax))
  let ymm4 := vpcmpeqb ymm ymm15 ymm0
  vmovdquTo ymm ymm0 (ea (rdi + rax))
  if jz (vptest ymm ymm4 ymm4) then strscpyFrom ymm15 rdi rsi rdx (.cpy128b rax) fuel else
  return vecoffs ymm ymm4 0x00 rax

/-- `.Lpgx1b` -/
def pgx1b (ymm15 : Lanes) (rdi rsi rdx rax fuel : ℕ) : Prog Space ℕ := do
  let rcx ← movzxb (ea rsi)
  movb rcx (ea rdi)
  let fl := testl rcx rcx
  -- `setnzb`; the upper bytes of the register are zero
  let rax := if jnz fl then rax / 2 ^ 8 * 2 ^ 8 + 1 else rax / 2 ^ 8 * 2 ^ 8
  if jnz fl then pgxBufchk ymm15 rdi rsi rdx rax fuel else
  return rax

/-- `.Lpgx2b_final` -/
def pgx2bFinal (ymm15 : Lanes) (rdi rsi rdx r9 fuel : ℕ) : Prog Space ℕ :=
  let rax := 0x02
  let fl := cmpl rax r9
  if je fl then pgxBufchk ymm15 rdi rsi rdx rax fuel else do
  let rcx ← movzxb (ea (rsi + 0x02))
  movb rcx (ea (rdi + 0x02))
  let r9 := 0x03
  let fl := testl rcx rcx
  let rax := if jnz fl then r9 else rax
  if jnz fl then pgxBufchk ymm15 rdi rsi rdx rax fuel else
  return rax

/-- `.Lpgx2b` -/
def pgx2b (ymm15 : Lanes) (rdi rsi rdx r9 fuel : ℕ) : Prog Space ℕ := do
  let rax ← movzxb (ea rsi)
  movb rax (ea rdi)
  let rcx ← movzxb (ea (rsi + 0x01))
  movb rcx (ea (rdi + 0x01))
  let r11 := 0
  let r10 := 0xff
  let r11 := if jnz (testl rax rax) then r10 else r11
  if jnz (testl r11 rcx) then pgx2bFinal ymm15 rdi rsi rdx r9 fuel else
  let r10 := 0x01
  return if jnz (testl rax rax) then r10 else rax

/-- `.Lpgx4b_final` and `.Lpgx8b_final` -/
def pgxShortFinal (size : ℕ) (mov : ℕ → Prog Space Lanes) (movTo : Lanes → ℕ → Prog Space Unit)
    (xmm15 : Lanes) (rdi rsi rdx r9 fuel : ℕ) : Prog Space ℕ :=
  let rax := size
  let fl := cmpl rax r9
  if je fl then pgxBufchk xmm15 rdi rsi rdx rax fuel else do
  let rcx := low32 r9
  let rcx := subl rax rcx
  let rax := leal (rax + rcx - size)
  let xmm1 ← mov (ea (rsi + rax))
  let xmm5 := vpcmpeqb xmm xmm15 xmm1
  movTo xmm1 (ea (rdi + rax))
  let rcx := vpmovmskb xmm xmm5
  let r8 := tzcntl rcx
  let rax := leal (rax + r8)
  let fl := cmpl size r8
  if jnb fl then pgxBufchk xmm15 rdi rsi rdx rax fuel else
  return rax

/-- `.Lpgx4b` and `.Lpgx8b`: moves of `size` bytes. -/
def pgxShort (size : ℕ) (mov : ℕ → Prog Space Lanes) (movTo : Lanes → ℕ → Prog Space Unit)
    (xmm15 : Lanes) (rdi rsi rdx r9 fuel : ℕ) : Prog Space ℕ := do
  let xmm0 ← mov (ea rsi)
  let xmm4 := vpcmpeqb xmm xmm15 xmm0
  movTo xmm0 (ea rdi)
  let rcx := vpmovmskb xmm xmm4
  let rax := tzcntl rcx
  let fl := cmpl size rax
  if jnb fl then pgxShortFinal size mov movTo xmm15 rdi rsi rdx r9 fuel else
  return rax

def pgx4b : Lanes → ℕ → ℕ → ℕ → ℕ → ℕ → Prog Space ℕ := pgxShort 0x04 vmovd vmovdTo

def pgx8b : Lanes → ℕ → ℕ → ℕ → ℕ → ℕ → Prog Space ℕ := pgxShort 0x08 vmovq vmovqTo

/-- `.Lpgx16b_final` -/
def pgx16bFinal (ymm15 : Lanes) (rdi rsi rdx r9 fuel : ℕ) : Prog Space ℕ :=
  let rax := 0x10
  let fl := cmpl rax r9
  if je fl then pgxBufchk ymm15 rdi rsi rdx rax fuel else do
  let rcx := low32 r9
  let rcx := subl rax rcx
  let rax := leal (rax + rcx - 0x10)
  let xmm1 ← vmovdqu xmm (ea (rsi + rax))
  let xmm5 := vpcmpeqb xmm ymm15 xmm1
  vmovdquTo xmm xmm1 (ea (rdi + rax))
  let rax := leal (rax + 0x10)
  if jz (vptest xmm xmm5 xmm5) then pgxBufchk ymm15 rdi rsi rdx rax fuel else
  return vecoffs xmm xmm5 (-0x10) rax

/-- `.Lpgx16b` -/
def pgx16b (ymm15 : Lanes) (rdi rsi rdx r9 fuel : ℕ) : Prog Space ℕ := do
  let xmm0 ← vmovdqu xmm (ea rsi)
  let xmm4 := vpcmpeqb xmm ymm15 xmm0
  vmovdquTo xmm xmm0 (ea rdi)
  if jz (vptest xmm xmm4 xmm4) then pgx16bFinal ymm15 rdi rsi rdx r9 fuel else
  let rcx := vpmovmskb xmm xmm4
  return tzcntl rcx

/-- `.Lpgxtbl` -/
def lpgxtbl (ymm15 : Lanes) (rdi rsi rdx rax r9 fuel : ℕ) : List (Prog Space ℕ) :=
  [pgx1b ymm15 rdi rsi rdx rax fuel, pgx2b ymm15 rdi rsi rdx r9 fuel,
    pgx4b ymm15 rdi rsi rdx r9 fuel, pgx8b ymm15 rdi rsi rdx r9 fuel,
    pgx16b ymm15 rdi rsi rdx r9 fuel]

/-- `.Lpgx_unaligned` -/
def pgxUnaligned (ymm15 : Lanes) (rdi rsi rdx rax rcx fuel : ℕ) : Prog Space ℕ :=
  let rcx := negl rcx
  let r9 := leal (rcx + pgsize)
  let fl := cmpq rdx r9
  if jnb fl then bufendUnaligned ymm15 rdi rsi rdx rax else
  let rcx := lzcntl r9
  let rcx := negq rcx
  jmpEntry (lpgxtbl ymm15 rdi rsi rdx rax r9 fuel) (ea (rcx + 0x1f))

/-- `.L32balign` -/
def l32balign (ymm15 : Lanes) (rdi rsi rdx fuel : ℕ) : Prog Space ℕ :=
  let rax := ea (rsi + 0x20)
  let rax := andq (imm (-0x20)) rax
  let rax := subq rsi rax
  strscpyFrom ymm15 rdi rsi rdx (.cpy128bPrlg rax) fuel

/-- `cldm_avx2_strscpy`: `rdi` is the destination, `rsi` the string and `rdx` the size of the
destination. -/
def avx2Strscpy (rdi rsi rdx fuel : ℕ) : Prog Space ℕ :=
  if jz (testq rdx rdx) then return imm (-7) else
  let rax := 0
  let ymm15 := vpxorSelf
  let rcx := low32 rsi
  let rcx := andl (pgsize - 1) rcx
  let fl := cmpl (pgsize - 0x20) rcx
  if ja fl then pgxUnaligned ymm15 rdi rsi rdx rax rcx fuel else
  let fl := cmpq 0x20 rdx
  if jb fl then bufendUnaligned ymm15 rdi rsi rdx rax else do
  let ymm0 ← vmovdqu ymm (ea rsi)
  let ymm4 := vpcmpeqb ymm ymm15 ymm0
  vmovdquTo ymm ymm0 (ea rdi)
  if jz (vptest ymm ymm4 ymm4) then l32balign ymm15 rdi rsi rdx fuel else
  let rcx := vpmovmskb ymm ymm4
  return tzcntl rcx

/-! ### Copies of parts of a string -/

variable {s s' : Space} {dst src dstsize len o k n w : ℕ} {v : Lanes}

/-- A string and a destination; only pages with a byte of the string may be read. -/
structure StrscpyArea (s : Space) (dst src dstsize len : ℕ) : Prop
    extends CopyString s dst src dstsize len where
  readable : ∀ a, s.readable a = true ↔ OnPages pgsize src (len + 1) a

/-- The answer and the space at the end. -/
def Answer (s : Space) (dst src dstsize len rax : ℕ) (s' : Space) : Prop :=
  StrscpyDone s dst src dstsize len (int64 rax) s'

/-- The `n` lanes hold the string from the offset `o` on, up to its terminator. -/
structure Loaded (s : Space) (src len o n : ℕ) (v : Lanes) : Prop where
  string : ∀ i < n, o + i ≤ len → v i = s.bytes (src + (o + i))
  behind : ∀ i, n ≤ i → v i = 0

/-- The string with its terminator is in the destination. -/
structure CopyDone (s : Space) (dst src dstsize len : ℕ) (s' : Space) : Prop where
  string : ∀ i ≤ len, s'.bytes (dst + i) = s.bytes (src + i)
  kept : ∀ a, a < dst ∨ dst + dstsize ≤ a → s'.bytes a = s.bytes a
  readable : s'.readable = s.readable
  writable : s'.writable = s.writable

theorem StrscpyArea.dstsize_lt (h : StrscpyArea s dst src dstsize len) : dstsize < 2 ^ 64 := by
  have happart := h.apart
  have hsrc := h.src_lt
  have hdst := h.dst_le
  omega

theorem StrscpyArea.readable_block (h : StrscpyArea s dst src dstsize len) (ho : o ≤ len)
    (hpage : (src + o) % pgsize + n ≤ pgsize) : s.Readable (src + o) n := by
  intro i hi
  simp only [pgsize] at hpage
  exact (h.readable _).mpr ⟨o, by omega, by simp only [pgsize]; omega⟩

theorem Loaded.nonzero (hv : Loaded s src len o n v) (hs : StringIn s src len) {i : ℕ} (hi : i < n)
    (hlt : o + i < len) : v i ≠ 0 := by
  rw [hv.string i hi (by omega)]
  exact hs.nonzero _ hlt

theorem Loaded.zero (hv : Loaded s src len o n v) (hs : StringIn s src len) {i : ℕ} (hi : i < n)
    (heq : o + i = len) : v i = 0 := by
  rw [hv.string i hi (by omega), heq]
  exact hs.terminator

/-- What is copied does not change the string. -/
theorem StrscpyArea.loaded (h : StrscpyArea s dst src dstsize len) (hk : k ≤ dstsize) :
    Loaded s src len o n ((s.copied dst src k).lanes n (src + o)) where
  string := fun i hi hlen => by
    have hapart := h.apart
    rw [lanes_of_lt hi, Nat.add_assoc]
    exact write_outside (by omega)
  behind := fun i hi => if_neg (by omega)

theorem StrscpyArea.byte (h : StrscpyArea s dst src dstsize len) (hk : k ≤ dstsize)
    (ho : o ≤ len) : (s.copied dst src k).bytes (src + o) = s.bytes (src + o) := by
  have hapart := h.apart
  exact write_outside (by omega)

/-- With room for the terminator, the length is the answer. -/
theorem CopyDone.answer (hd : CopyDone s dst src dstsize len s') (hlen : len < 2 ^ 63)
    (hfit : len < dstsize) {rax : ℕ} (hrax : rax = len) :
    Answer s dst src dstsize len rax s' := by
  subst hrax
  refine ⟨fun _ => ⟨if_pos hlen, hd.string⟩, fun hlong => absurd hlong (by omega), hd.kept⟩

/-- The bytes before the last one are copied, and the last one is made a terminator. -/
theorem answer_overflow (hk : dstsize ≤ k + 1) (hkd : k ≤ dstsize) (h0 : 0 < dstsize)
    (hlong : dstsize ≤ len) : Answer s dst src dstsize len (imm (-7))
      ((s.copied dst src k).write 1 (dst + (dstsize - 1)) fun _ => 0) := by
  refine ⟨fun hfit => absurd hfit (by omega), fun _ => ⟨by decide, fun i hi => ?_, fun _ => ?_⟩,
    fun a ha => ?_⟩
  · rw [write_outside (by omega)]
    exact write_at (by omega)
  · exact write_at Nat.one_pos
  · rw [write_outside (by omega)]
    exact write_outside (by omega)

/-! ### Null bytes -/

theorem nulls_at {i : ℕ} (hi : i < w) :
    vpcmpeqb w vpxorSelf v i = if v i = 0 then 0xff else 0 := by
  rw [vpcmpeqb, if_pos hi]
  rfl

/-- The index of the first null byte. -/
theorem tzcntl_nulls {i : ℕ} (hw : w ≤ 32) (hi : i < w) (hz : v i = 0) (hlt : ∀ j < i, v j ≠ 0) :
    tzcntl (vpmovmskb w (vpcmpeqb w vpxorSelf v)) = i := by
  refine tzcntl_hit hw hi ?_ fun j hj => ?_
  · rw [nulls_at hi, if_pos hz]
    decide
  · rw [nulls_at (by omega), if_neg (hlt j hj)]
    decide

theorem Loaded.tzcntl_end (hv : Loaded s src len o n v) (hs : StringIn s src len) (hn : n ≤ w)
    (hw : w ≤ 32) (ho : o ≤ len) (hin : len < o + n) :
    tzcntl (vpmovmskb w (vpcmpeqb w vpxorSelf v)) = len - o :=
  tzcntl_nulls hw (by omega) (hv.zero hs (by omega) (by omega))
    fun j hj => hv.nonzero hs (by omega) (by omega)

/-- Without a null byte in fewer bytes than lanes, the first one is right behind them. -/
theorem Loaded.tzcntl_behind (hv : Loaded s src len o n v) (hs : StringIn s src len) (hn : n < w)
    (hw : w ≤ 32) (hin : o + n ≤ len) :
    tzcntl (vpmovmskb w (vpcmpeqb w vpxorSelf v)) = n :=
  tzcntl_nulls hw hn (hv.behind n (Nat.le_refl n)) fun j hj => hv.nonzero hs hj (by omega)

theorem Loaded.allZero (hv : Loaded s src len o n v) (hs : StringIn s src len) (ho : o ≤ len) :
    AllZero n (vpcmpeqb n vpxorSelf v) ↔ o + n ≤ len := by
  constructor
  · intro hall
    by_contra hin
    have hlast := hall (len - o) (by omega)
    rw [nulls_at (by omega), if_pos (hv.zero hs (by omega) (by omega))] at hlast
    exact absurd hlast (by decide)
  · intro hin i hi
    rw [nulls_at hi, if_neg (hv.nonzero hs hi (by omega))]

/-! ### Reads and writes -/

variable {γ : Type} {P : γ → Space → Prop}

/-- A read of the string. -/
theorem StrscpyArea.total_load (h : StrscpyArea s dst src dstsize len) {x : ℤ} (hx : x = src + o)
    (hlt : src + o < 2 ^ 64) (hr : s.Readable (src + o) n) (hk : k ≤ dstsize)
    {f : Lanes → ℕ → Prog Space γ}
    (hf : ∀ v, Loaded s src len o n v → Total (f v) P (s.copied dst src k)) :
    Total (fun fuel => Space.load n (ea x) >>= fun v => f v fuel) P (s.copied dst src k) := by
  rw [ea_eq (a := src + o) (by omega) hlt]
  exact Total.wp_bind ((Space.wp_load (s := s.copied dst src k) hr).mpr (hf _ (h.loaded hk)))

/-- A write of bytes that overlap those copied or follow at once. -/
theorem StrscpyArea.total_store (h : StrscpyArea s dst src dstsize len) {y : ℤ} (hy : y = dst + o)
    (hv : ∀ i < n, o + i ≤ len → v i = s.bytes (src + (o + i))) (hn : 0 < n) (ho : o ≤ k)
    (hk : k ≤ o + n) (hkl : k ≤ len) (hroom : o + n ≤ dstsize) {f : ℕ → Prog Space γ}
    (hmore : o + n ≤ len → Total f P (s.copied dst src (o + n)))
    (hdone : ∀ s', len < o + n → CopyDone s dst src dstsize len s' → Total f P s') :
    Total (fun fuel => Space.store n (ea y) v >>= fun _ => f fuel) P (s.copied dst src k) := by
  have hdst := h.dst_le
  have hw : (s.copied dst src k).Writable (dst + o) n := fun i hi =>
    (h.writable _).mpr ⟨by omega, by omega⟩
  rw [ea_eq (a := dst + o) (by omega) (by omega)]
  refine Total.wp_bind ((Space.wp_store hw).mpr ?_)
  by_cases hin : o + n ≤ len
  · rw [copied_write ho hk fun i hi => by rw [hv i hi (by omega), Nat.add_assoc]]
    exact hmore hin
  · refine hdone _ (by omega) ⟨fun i hi => ?_, fun a ha => ?_, rfl, rfl⟩
    · by_cases hio : i < o
      · rw [write_outside (by omega)]
        exact write_at (by omega)
      · have hat := write_at (s := s.copied dst src k) (p := dst + o) (v := v)
          (show i - o < n by omega)
        rw [show dst + o + (i - o) = dst + i by omega] at hat
        rw [hat, hv _ (by omega) (by omega), show o + (i - o) = i by omega]
    · rw [write_outside (by omega)]
      exact write_outside (by omega)

/-- Both. -/
theorem StrscpyArea.total_copy (h : StrscpyArea s dst src dstsize len) {x y : ℤ} (hx : x = src + o)
    (hy : y = dst + o) (hr : s.Readable (src + o) n) (hn : 0 < n) (ho : o ≤ k) (hk : k ≤ o + n)
    (hkl : k ≤ len) (hroom : o + n ≤ dstsize) {f : Lanes → ℕ → Prog Space γ}
    (hmore : ∀ v, Loaded s src len o n v → o + n ≤ len →
      Total (f v) P (s.copied dst src (o + n)))
    (hdone : ∀ v s', Loaded s src len o n v → len < o + n → CopyDone s dst src dstsize len s' →
      Total (f v) P s') :
    Total (fun fuel => Space.load n (ea x) >>= fun v => Space.store n (ea y) v >>= fun _ => f v fuel) P
      (s.copied dst src k) := by
  have hsrc := h.src_lt
  exact h.total_load hx (by omega) hr (by omega) fun v hv =>
    h.total_store hy hv.string hn ho hk hkl hroom (hmore v hv) fun s' hin hd => hdone v s' hv hin hd

/-- An aligned read. -/
theorem StrscpyArea.total_loadAligned (h : StrscpyArea s dst src dstsize len) {x : ℤ}
    (hx : x = src + o) (hlt : src + o < 2 ^ 64) (hal : (src + o) % n = 0)
    (hr : s.Readable (src + o) n) (hk : k ≤ dstsize) {f : Lanes → ℕ → Prog Space γ}
    (hf : ∀ v, Loaded s src len o n v → Total (f v) P (s.copied dst src k)) :
    Total (fun fuel => vmovdqa n (ea x) >>= fun v => f v fuel) P (s.copied dst src k) := by
  have hea : ea x = src + o := ea_eq (by omega) hlt
  simp only [vmovdqa, hea, hal, if_true]
  rw [← hea]
  exact h.total_load hx hlt hr hk hf

/-! ### The end of the destination is near -/

theorem StrscpyArea.total_epiOvfz (h : StrscpyArea s dst src dstsize len) (h0 : 0 < dstsize)
    (hlong : dstsize ≤ len) :
    Total (fun _ => epiOvfz dst dstsize) (Answer s dst src dstsize len)
      (s.copied dst src dstsize) := by
  have hdst := h.dst_le
  have hw : (s.copied dst src dstsize).Writable (dst + (dstsize - 1)) 1 := fun i hi =>
    (h.writable _).mpr ⟨by omega, by omega⟩
  refine Total.const ?_
  rw [epiOvfz, ea_eq (a := dst + (dstsize - 1)) (by omega) (by omega), wp_bind, movb,
    Space.wp_store hw, wp_pure]
  exact answer_overflow (by omega) (Nat.le_refl dstsize) h0 hlong

/-- The last byte of the destination. -/
theorem StrscpyArea.wp_last (h : StrscpyArea s dst src dstsize len) (hroom : dstsize = o + 1)
    (ho : o ≤ len) {x y : ℤ} (hx : x = src + o) (hy : y = dst + o) :
    wp (do
      let b ← movzxb (ea x)
      movb 0x00 (ea y)
      return if jnz (testl b b) then imm (-7) else o) (Answer s dst src dstsize len)
      (s.copied dst src o) := by
  have hsrc := h.src_lt
  have hdst := h.dst_le
  have hr : (s.copied dst src o).readable (src + o) = true :=
    (h.readable _).mpr ⟨o, by omega, rfl⟩
  have hw : (s.copied dst src o).Writable (dst + o) 1 := fun i hi =>
    (h.writable _).mpr ⟨by omega, by omega⟩
  rw [wp_bind, wp_movzxb (a := src + o) (by omega) (by omega) hr, wp_bind,
    ea_eq (a := dst + o) (by omega) (by omega), movb, Space.wp_store hw, wp_pure,
    h.byte (by omega) ho, jnz_testl_byte]
  by_cases hend : o = len
  · subst hend
    simp only [h.string.terminator, ne_eq, not_true_eq_false, decide_false, Bool.false_eq_true,
      if_false]
    have hdone : CopyDone s dst src dstsize o
        ((s.copied dst src o).write 1 (dst + o) fun _ => 0) := by
      refine ⟨fun i hi => ?_, fun a ha => ?_, rfl, rfl⟩
      · by_cases hio : i = o
        · rw [hio, h.string.terminator]
          exact write_at Nat.one_pos
        · rw [write_outside (by omega)]
          exact write_at (by omega)
      · rw [write_outside (by omega)]
        exact write_outside (by omega)
    exact hdone.answer (by omega) (by omega) rfl
  · have hne := h.string.nonzero o (by omega)
    simp only [hne, ne_eq, not_false_eq_true, decide_true, if_true]
    have hans : Answer s dst src dstsize len (imm (-7))
        ((s.copied dst src o).write 1 (dst + (dstsize - 1)) fun _ => 0) :=
      answer_overflow (by omega) (by omega) (by omega) (by omega)
    rwa [show dst + (dstsize - 1) = dst + o by omega] at hans

/-- A byte of the string. -/
theorem StrscpyArea.total_copyByte (h : StrscpyArea s dst src dstsize len) {x y : ℤ}
    (hx : x = src + o) (hy : y = dst + o) (ho : o ≤ len) (hroom : o < dstsize)
    {f : ℕ → ℕ → Prog Space γ}
    (hmore : o < len → Total (f (s.bytes (src + o)).toNat) P (s.copied dst src (o + 1)))
    (hdone : ∀ s', o = len → CopyDone s dst src dstsize len s' → Total (f 0) P s') :
    Total (fun fuel => do let b ← movzxb (ea x); movb b (ea y); f b fuel) P
      (s.copied dst src o) := by
  have hsrc := h.src_lt
  have hr : (s.copied dst src o).readable (src + o) = true :=
    (h.readable _).mpr ⟨o, by omega, rfl⟩
  refine Total.wp_bind ((wp_movzxb (a := src + o) (by omega) (by omega) hr).mpr ?_)
  rw [h.byte (by omega) ho]
  refine h.total_store (n := 1) hy (fun i hi _ => ?_) Nat.one_pos (Nat.le_refl o) (by omega) ho
    (by omega) (fun hin => hmore (by omega)) fun s' hin hd => ?_
  · rw [show o + i = o by omega]
    exact UInt8.ofNat_toNat
  · obtain rfl : o = len := by omega
    rw [h.string.terminator]
    exact hdone s' rfl hd

/-- A byte behind the terminator. -/
theorem StrscpyArea.total_copyBehind (h : StrscpyArea s dst src dstsize len) {x y : ℤ}
    (hx : x = src + o) (hy : y = dst + o) (hd : CopyDone s dst src dstsize len s')
    (ho : len < o) (hroom : o < dstsize) (hlt : src + o < 2 ^ 64)
    (hr : s.readable (src + o) = true) {f : ℕ → ℕ → Prog Space γ}
    (hdone : ∀ b s'', CopyDone s dst src dstsize len s'' → Total (f b) P s'') :
    Total (fun fuel => do let b ← movzxb (ea x); movb b (ea y); f b fuel) P s' := by
  have hdst := h.dst_le
  have hr' : s'.readable (src + o) = true := by rwa [hd.readable]
  have hw : s'.Writable (dst + o) 1 := fun i hi => by
    rw [hd.writable]
    exact (h.writable _).mpr ⟨by omega, by omega⟩
  refine Total.wp_bind ((wp_movzxb (a := src + o) (by omega) hlt hr').mpr ?_)
  rw [ea_eq (a := dst + o) (by omega) (by omega)]
  refine Total.wp_bind ((Space.wp_store hw).mpr (hdone _ _ ⟨fun i hi => ?_, fun a ha => ?_, ?_, ?_⟩))
  · rw [write_outside (by omega)]
    exact hd.string i hi
  · rw [write_outside (by omega)]
    exact hd.kept a ha
  · exact hd.readable
  · exact hd.writable

/-- The rest of the destination, fewer than 32 bytes, is on one page with a byte of the
string. -/
structure Rest (src dstsize len o : ℕ) : Prop where
  le : o ≤ len
  small : o ≤ 32
  room : o < dstsize
  short : dstsize < o + 32
  page : (src + o) % pgsize + (dstsize - o) ≤ pgsize

/-- Whether both bytes are not null. -/
theorem jnz_testl_both {a : UInt8} (b : UInt8) :
    jnz (testl (if jnz (testl a.toNat a.toNat) then 0xff else 0) b.toNat) =
      decide (a ≠ 0 ∧ b ≠ 0) := by
  have hb := b.toNat_lt
  rw [jnz_testl_byte]
  by_cases ha : a = 0
  · have hz : jnz (testl 0 b.toNat) = false := by simp [jnz, testl, low32]
    simp only [ha, ne_eq, not_true_eq_false, decide_false, Bool.false_eq_true, if_false, hz,
      false_and]
  · have hmask : testl 0xff b.toNat = testl b.toNat b.toNat := by
      simp only [testl, low32_eq (show b.toNat < 2 ^ 32 by omega), Nat.and_self]
      rw [low32_eq (by decide), Nat.and_comm, show 0xff = 2 ^ 8 - 1 from rfl,
        Nat.and_two_pow_sub_one_eq_mod, Nat.mod_eq_of_lt hb]
    simp only [ha, ne_eq, not_false_eq_true, decide_true, if_true, hmask, jnz_testl_byte, true_and]

theorem StrscpyArea.total_bufend2bFinal (h : StrscpyArea s dst src dstsize len)
    (hrest : Rest src dstsize len o) (h2 : o + 2 ≤ dstsize) (h3 : dstsize ≤ o + 3)
    (ho : o + 2 ≤ len) :
    Total (fun _ => bufend2bFinal dst src dstsize o) (Answer s dst src dstsize len)
      (s.copied dst src (o + 2)) := by
  have hsmall := hrest.small
  have hrax : leal (o + 0x02) = o + 2 := leal_eq (by omega) (by omega)
  have hcmp : jna (cmpl (o + 2) dstsize) = decide (dstsize ≤ o + 2) := by
    rw [cmpl_eq (by omega) (by omega), jna_cmpq]
  simp only [bufend2bFinal, hrax, hcmp, decide_eq_true_eq]
  by_cases hend : dstsize ≤ o + 2
  · simp only [if_pos hend]
    rw [show o + 2 = dstsize by omega]
    exact h.total_epiOvfz (by omega) (by omega)
  · simp only [if_neg hend]
    exact Total.const (h.wp_last (by omega) ho (by omega) (by omega))

theorem StrscpyArea.total_bufend2b (h : StrscpyArea s dst src dstsize len)
    (hrest : Rest src dstsize len o) (h2 : o + 2 ≤ dstsize) (h3 : dstsize ≤ o + 3) :
    Total (fun _ => bufend2b dst src dstsize o) (Answer s dst src dstsize len)
      (s.copied dst src o) := by
  have hsmall := hrest.small
  have hsrc := h.src_lt
  refine h.total_copyByte (o := o) (by omega) (by omega) hrest.le hrest.room ?_ ?_
  · intro hlt
    refine h.total_copyByte (o := o + 1) (by omega) (by omega) (by omega) (by omega) ?_ ?_
    · intro hin
      have h0 := h.string.nonzero o (by omega)
      have h1 := h.string.nonzero (o + 1) (by omega)
      simp only [jnz_testl_both, h0, h1, ne_eq, not_false_eq_true, and_self, decide_true, if_true]
      exact h.total_bufend2bFinal hrest h2 h3 (by omega)
    · intro s' heq hd
      have h0 := h.string.nonzero o (by omega)
      have hzero : jnz (testl 255 0) = false := by decide
      have hone : leal (o + (1 : ℕ)) = o + 1 := leal_eq (by omega) (by omega)
      simp only [jnz_testl_byte, h0, ne_eq, not_false_eq_true, decide_true, if_true, hzero,
        Bool.false_eq_true, if_false, show andl 1 255 = 1 by decide, hone]
      exact Total.const ((wp_pure _ _ _).mpr (hd.answer (by omega) (by omega) heq))
  · rintro s' rfl hd
    refine h.total_copyBehind (o := o + 1) (by omega) (by omega) hd (by omega) (by omega)
      (by omega) ?_ fun b s'' hd' => ?_
    · have hpage := hrest.page
      have hread := h.readable_block (n := 2) hrest.le (by omega) 1 (by decide)
      rwa [Nat.add_assoc] at hread
    · have hzero : ∀ x, jnz (testl 0 x) = false := fun x => by simp [jnz, testl, low32]
      have hsame : leal (o + (0 : ℕ)) = o := leal_eq (by omega) (by omega)
      simp only [hzero, Bool.false_eq_true, if_false, show andl 1 0 = 0 by decide, hsame]
      exact Total.const ((wp_pure _ _ _).mpr (hd'.answer (by omega) (by omega) rfl))

theorem Rest.readable (hrest : Rest src dstsize len o) (h : StrscpyArea s dst src dstsize len)
    (ho : o ≤ k) (hk : k + n ≤ dstsize) : s.Readable (src + k) n :=
  (h.readable_block hrest.le hrest.page).mono (by omega) (by omega)

/-- Whether a register of fewer bytes than lanes holds no null byte. -/
theorem Loaded.jnb_tzcntl (hv : Loaded s src len o n v) (hs : StringIn s src len) (hn : n < 16)
    (ho : o ≤ len) :
    jnb (cmpl n (tzcntl (vpmovmskb xmm (vpcmpeqb xmm vpxorSelf v)))) = decide (o + n ≤ len) := by
  by_cases hin : o + n ≤ len
  · rw [hv.tzcntl_behind hs hn (by decide) hin, cmpl_eq (by omega) (by omega), jnb_cmpq]
    simp [hin]
  · rw [hv.tzcntl_end hs (show n ≤ 16 by omega) (by decide) ho (by omega),
      cmpl_eq (by omega) (by omega), jnb_cmpq]
    exact decide_eq_decide.mpr (by omega)

theorem StrscpyArea.total_bufendShortFinal (h : StrscpyArea s dst src dstsize len)
    (hrest : Rest src dstsize len o) (hn : 0 < n) (hn16 : n < 16) (hlo : o + n ≤ dstsize)
    (hhi : dstsize < o + 2 * n) (ho : o + n ≤ len) :
    Total (fun _ => bufendShortFinal n (Space.load n) (fun v p => Space.store n p v) vpxorSelf dst src
      dstsize o) (Answer s dst src dstsize len) (s.copied dst src (o + n)) := by
  have hsmall := hrest.small
  have hshort := hrest.short
  have hsrc := h.src_lt
  have hr9 : leal (o + n) = o + n := leal_eq (by omega) (by omega)
  have hcmp : jna (cmpl (o + n) dstsize) = decide (dstsize ≤ o + n) := by
    rw [cmpl_eq (by omega) (by omega), jna_cmpq]
  have hrax : subl n (low32 dstsize) = dstsize - n := by
    rw [low32_eq (by omega)]
    exact leal_eq (by omega) (by omega)
  simp only [bufendShortFinal, hr9, hcmp, hrax, decide_eq_true_eq]
  by_cases hend : dstsize ≤ o + n
  · simp only [if_pos hend]
    rw [show o + n = dstsize by omega]
    exact h.total_epiOvfz (by omega) (by omega)
  simp only [if_neg hend]
  refine h.total_copy (o := dstsize - n) (by omega) (by omega)
    (hrest.readable h (by omega) (by omega)) hn (by omega) (by omega) ho (by omega) ?_ ?_
  · intro v hv hin
    simp only [hv.jnb_tzcntl h.string hn16 (by omega), hin, decide_true, if_true]
    rw [show dstsize - n + n = dstsize by omega]
    exact h.total_epiOvfz (by omega) (by omega)
  · intro v s' hv hin hd
    have htz := hv.tzcntl_end h.string (show n ≤ 16 by omega) (by decide) (by omega) hin
    have hlen : leal ((dstsize - n : ℕ) + (len - (dstsize - n) : ℕ)) = len :=
      leal_eq (by omega) (by omega)
    simp only [hv.jnb_tzcntl h.string hn16 (by omega), show ¬ dstsize - n + n ≤ len by omega,
      decide_false, Bool.false_eq_true, if_false]
    rw [htz, hlen]
    exact Total.const ((wp_pure _ _ _).mpr (hd.answer (by omega) (by omega) rfl))

theorem StrscpyArea.total_bufendShort (h : StrscpyArea s dst src dstsize len)
    (hrest : Rest src dstsize len o) (hn : 0 < n) (hn16 : n < 16) (hlo : o + n ≤ dstsize)
    (hhi : dstsize < o + 2 * n) :
    Total (fun _ => bufendShort n (Space.load n) (fun v p => Space.store n p v) vpxorSelf dst src dstsize o)
      (Answer s dst src dstsize len) (s.copied dst src o) := by
  have hsmall := hrest.small
  have hshort := hrest.short
  have hsrc := h.src_lt
  have ho := hrest.le
  refine h.total_copy (o := o) (by omega) (by omega) (hrest.readable h (Nat.le_refl o) hlo) hn
    (Nat.le_refl o) (by omega) ho hlo ?_ ?_
  · intro v hv hin
    simp only [hv.jnb_tzcntl h.string hn16 ho, hin, decide_true, if_true]
    exact h.total_bufendShortFinal hrest hn hn16 hlo hhi hin
  · intro v s' hv hin hd
    have htz := hv.tzcntl_end h.string (show n ≤ 16 by omega) (by decide) ho hin
    have hlen : leal (o + (len - o : ℕ)) = len := leal_eq (by omega) (by omega)
    simp only [hv.jnb_tzcntl h.string hn16 ho, show ¬ o + n ≤ len by omega, decide_false,
      Bool.false_eq_true, if_false]
    rw [htz, hlen]
    exact Total.const ((wp_pure _ _ _).mpr (hd.answer (by omega) (by omega) rfl))

theorem StrscpyArea.total_bufend16bFinal (h : StrscpyArea s dst src dstsize len)
    (hrest : Rest src dstsize len o) (hlo : o + 16 ≤ dstsize) (ho : o + 16 ≤ len) :
    Total (fun _ => bufend16bFinal vpxorSelf dst src dstsize o) (Answer s dst src dstsize len)
      (s.copied dst src (o + 16)) := by
  have hsmall := hrest.small
  have hshort := hrest.short
  have hsrc := h.src_lt
  have hr9 : leal (o + 0x10) = o + 16 := leal_eq (by omega) (by omega)
  have hcmp : jna (cmpl (o + 16) dstsize) = decide (dstsize ≤ o + 16) := by
    rw [cmpl_eq (by omega) (by omega), jna_cmpq]
  have hrax : subl 0x10 (low32 dstsize) = dstsize - 16 := by
    rw [low32_eq (by omega)]
    exact leal_eq (by omega) (by omega)
  simp only [bufend16bFinal, hr9, hcmp, hrax, decide_eq_true_eq]
  by_cases hend : dstsize ≤ o + 16
  · simp only [if_pos hend]
    rw [show o + 16 = dstsize by omega]
    exact h.total_epiOvfz (by omega) (by omega)
  simp only [if_neg hend]
  refine h.total_copy (o := dstsize - 16) (n := 16) (by omega) (by omega)
    (hrest.readable h (by omega) (by omega)) (by decide) (by omega) (by omega) ho (by omega) ?_ ?_
  · intro v hv hin
    simp only [jz_vptest, hv.allZero h.string (by omega), hin, decide_true, if_true]
    rw [show dstsize - 16 + 16 = dstsize by omega]
    exact h.total_epiOvfz (by omega) (by omega)
  · intro v s' hv hin hd
    have htz := hv.tzcntl_end h.string (Nat.le_refl 16) (by decide) (by omega) hin
    have hlen : leal ((dstsize - 16 : ℕ) + (len - (dstsize - 16) : ℕ)) = len :=
      leal_eq (by omega) (by omega)
    simp only [jz_vptest, hv.allZero h.string (show dstsize - 16 ≤ len by omega),
      show ¬ dstsize - 16 + 16 ≤ len by omega, decide_false, Bool.false_eq_true, if_false]
    rw [htz, hlen]
    exact Total.const ((wp_pure _ _ _).mpr (hd.answer (by omega) (by omega) rfl))

theorem StrscpyArea.total_bufend16b (h : StrscpyArea s dst src dstsize len)
    (hrest : Rest src dstsize len o) (hlo : o + 16 ≤ dstsize) :
    Total (fun _ => bufend16b vpxorSelf dst src dstsize o) (Answer s dst src dstsize len)
      (s.copied dst src o) := by
  have hsmall := hrest.small
  have hshort := hrest.short
  have hsrc := h.src_lt
  have ho := hrest.le
  refine h.total_copy (o := o) (n := 16) (by omega) (by omega)
    (hrest.readable h (Nat.le_refl o) hlo) (by decide) (Nat.le_refl o) (by omega) ho hlo ?_ ?_
  · intro v hv hin
    simp only [jz_vptest, hv.allZero h.string ho, hin, decide_true, if_true]
    exact h.total_bufend16bFinal hrest hlo hin
  · intro v s' hv hin hd
    have htz := hv.tzcntl_end h.string (Nat.le_refl 16) (by decide) ho hin
    have hlen : leal (o + (len - o : ℕ)) = len := leal_eq (by omega) (by omega)
    simp only [jz_vptest, hv.allZero h.string ho, show ¬ o + 16 ≤ len by omega, decide_false,
      Bool.false_eq_true, if_false]
    rw [htz, hlen]
    exact Total.const ((wp_pure _ _ _).mpr (hd.answer (by omega) (by omega) rfl))

/-- The index of a jump by the leading zero bits: the highest bit that is set. -/
theorem jmp_index {m j : ℕ} (hj : j < 32) (hlo : 2 ^ j ≤ m) (hhi : m < 2 ^ (j + 1)) :
    ea (negq (lzcntl m) + 0x1f) = j := by
  rw [lzcntl_eq hj hlo hhi]
  simp only [negq, ea]
  omega

/-- Fewer than 32 bytes of the destination are left. -/
theorem StrscpyArea.total_bufendUnaligned (h : StrscpyArea s dst src dstsize len)
    (hrest : Rest src dstsize len o) :
    Total (fun _ => bufendUnaligned vpxorSelf dst src dstsize o) (Answer s dst src dstsize len)
      (s.copied dst src o) := by
  have hsmall := hrest.small
  have hshort := hrest.short
  have hroom := hrest.room
  have hr9 : subl o (low32 dstsize) = dstsize - o := by
    rw [low32_eq (by omega)]
    exact leal_eq (by omega) (by omega)
  have hindex : ∀ j < 5, 2 ^ j ≤ dstsize - o → dstsize - o < 2 ^ (j + 1) →
      bufendUnaligned vpxorSelf dst src dstsize o =
        jmpEntry (lbufendtbl vpxorSelf dst src dstsize o) j := fun j hj hlo hhi => by
    simp only [bufendUnaligned, hr9, jmp_index (show j < 32 by omega) hlo hhi]
  rcases Nat.lt_or_ge (dstsize - o) 2 with h2 | h2
  · rw [hindex 0 (by decide) (by omega) (by omega)]
    exact Total.const (h.wp_last (by omega) hrest.le rfl rfl)
  rcases Nat.lt_or_ge (dstsize - o) 4 with h4 | h4
  · rw [hindex 1 (by decide) (by omega) (by omega)]
    exact h.total_bufend2b hrest (by omega) (by omega)
  rcases Nat.lt_or_ge (dstsize - o) 8 with h8 | h8
  · rw [hindex 2 (by decide) (by omega) (by omega)]
    exact h.total_bufendShort hrest (by decide) (by decide) (by omega) (by omega)
  rcases Nat.lt_or_ge (dstsize - o) 16 with h16 | h16
  · rw [hindex 3 (by decide) (by omega) (by omega)]
    exact h.total_bufendShort hrest (by decide) (by decide) (by omega) (by omega)
  · rw [hindex 4 (by decide) (by omega) (by omega)]
    exact h.total_bufend16b hrest (by omega)

/-- The offset of the first null byte. -/
theorem Loaded.vecoffs_end (hv : Loaded s src len o n v) (hs : StringIn s src len) (hn : n ≤ 32)
    (ho : o ≤ len) (hin : len < o + n) (hlen : len < 2 ^ 64) {baseoff : ℤ} {rax : ℕ}
    (hrax : rax + baseoff = o) : vecoffs n (vpcmpeqb n vpxorSelf v) baseoff rax = len := by
  rw [vecoffs, hv.tzcntl_end hs (Nat.le_refl n) hn ho hin]
  exact ea_eq (by omega) hlen

/-- The last vector of the destination. -/
theorem StrscpyArea.total_bufendFinal (h : StrscpyArea s dst src dstsize len) {rax off r10 : ℕ}
    (hrax : rax + off = o) (hr10 : r10 + dstsize = o + 32) (hal : (src + o) % 32 = 0) (hok : o ≤ k)
    (hkl : k ≤ len) (hkd : k ≤ dstsize) (h32 : 32 ≤ dstsize) (hlt : dstsize < o + 32) :
    Total (fun _ => bufendFinal vpxorSelf dst src dstsize r10 rax off)
      (Answer s dst src dstsize len) (s.copied dst src k) := by
  have hsrc := h.src_lt
  have hback : subq r10 (ea (rax + off)) = dstsize - 32 := by
    rw [ea_eq (a := o) (by omega) (by omega), subq_eq (by omega) (by omega)]
    omega
  -- behind the bytes before `o` the vector stays in an aligned block
  have hread : s.Readable (src + (dstsize - 32)) 32 := fun i hi => by
    by_cases hio : dstsize - 32 + i ≤ o
    · exact (h.readable _).mpr ⟨dstsize - 32 + i, by omega, by rw [Nat.add_assoc]⟩
    · exact (h.readable _).mpr ⟨o, by omega, by simp only [pgsize]; omega⟩
  simp only [bufendFinal, hback]
  refine h.total_copy (o := dstsize - 32) (n := 32) (by omega) (by omega) hread (by decide)
    (by omega) (by omega) hkl (by omega) ?_ ?_
  · intro v hv hin
    simp only [jz_vptest, hv.allZero h.string (by omega), hin, decide_true, if_true]
    rw [show dstsize - 32 + 32 = dstsize by omega]
    exact h.total_epiOvfz (by omega) (by omega)
  · intro v s' hv hin hd
    simp only [jz_vptest, hv.allZero h.string (show dstsize - 32 ≤ len by omega),
      show ¬ dstsize - 32 + 32 ≤ len by omega, decide_false, Bool.false_eq_true, if_false]
    rw [hv.vecoffs_end h.string (Nat.le_refl 32) (by omega) hin (by omega) (by omega)]
    exact Total.const ((wp_pure _ _ _).mpr (hd.answer (by omega) (by omega) rfl))

/-- The whole vectors of the rest, then the last one. -/
theorem StrscpyArea.total_bufendVectors (h : StrscpyArea s dst src dstsize len) {rax r10 : ℕ}
    (vectors : ℕ) {off : ℕ} (hrax : rax + off = o) (hal : (src + o) % 32 = 0) (hok : o ≤ k)
    (hk32 : k ≤ o + 32) (hkl : k ≤ len) (hkd : k ≤ dstsize) (h32 : 32 ≤ dstsize)
    (hlo : o + 32 * vectors ≤ dstsize) (hhi : dstsize < o + 32 * vectors + 32)
    (hr10 : r10 + dstsize = o + 32 * vectors + 32) :
    Total (fun _ => bufendVectors vpxorSelf dst src dstsize r10 rax off vectors)
      (Answer s dst src dstsize len) (s.copied dst src k) := by
  induction vectors generalizing o k off with
  | zero => exact h.total_bufendFinal hrax hr10 hal hok hkl hkd h32 hhi
  | succ vectors ih =>
    have hsrc := h.src_lt
    have hread : s.Readable (src + o) 32 :=
      h.readable_block (by omega) (by simp only [pgsize]; omega)
    have hea : ea (src + rax + off) = src + o := ea_eq (by omega) (by omega)
    simp only [bufendVectors, vmovdqa, hea, hal, if_true]
    rw [← hea]
    refine h.total_copy (o := o) (n := 32) (by omega) (by omega) hread (by decide) hok hk32 hkl
      (by omega) ?_ ?_
    · intro v hv hin
      simp only [jz_vptest, hv.allZero h.string (by omega), hin, decide_true, if_true]
      exact ih (by omega) (by omega) (Nat.le_refl _) (by omega) hin (by omega) (by omega)
        (by omega) (by omega)
    · intro v s' hv hin hd
      simp only [jz_vptest, hv.allZero h.string (show o ≤ len by omega),
        show ¬ o + 32 ≤ len by omega, decide_false, Bool.false_eq_true, if_false]
      rw [hv.vecoffs_end h.string (Nat.le_refl 32) (by omega) hin (by omega) (by omega)]
      exact Total.const ((wp_pure _ _ _).mpr (hd.answer (by omega) (by omega) rfl))

/-- Fewer than 128 bytes of the destination are left. -/
theorem StrscpyArea.total_bufendAligned (h : StrscpyArea s dst src dstsize len)
    (hal : (src + o) % 32 = 0) (hok : o ≤ k) (hk32 : k ≤ o + 32) (hkl : k ≤ len)
    (hkd : k ≤ dstsize) (h32 : 32 ≤ dstsize) (hlt : dstsize < o + 128) :
    Total (fun _ => bufendAligned vpxorSelf dst src dstsize o) (Answer s dst src dstsize len)
      (s.copied dst src k) := by
  have hsrc := h.src_lt
  have hdst := h.dstsize_lt
  have hrcx : subq o dstsize = dstsize - o := subq_eq (by omega) hdst
  have hr9 : shrl 0x05 (low32 (dstsize - o)) = (dstsize - o) / 32 := by
    rw [low32_eq (by omega), shrl, low32_eq (by omega), Nat.shiftRight_eq_div_pow]
  have hr10 : leal (negl (andl 0x1f (dstsize - o)) + 0x20) = 32 - (dstsize - o) % 32 := by
    rw [andl, low32_eq (by decide), low32_eq (by omega), Nat.and_comm,
      show 0x1f = 2 ^ 5 - 1 from rfl, Nat.and_two_pow_sub_one_eq_mod]
    simp only [negl, leal]
    omega
  have hjump : ∀ vectors < 4, jmpEntry (lendtbl vpxorSelf dst src dstsize
      (32 - (dstsize - o) % 32) o) vectors =
        bufendVectors vpxorSelf dst src dstsize (32 - (dstsize - o) % 32) o 0x00 vectors := by
    intro vectors hlt4
    obtain rfl | rfl | rfl | rfl : vectors = 0 ∨ vectors = 1 ∨ vectors = 2 ∨ vectors = 3 := by
      omega
    all_goals rfl
  simp only [bufendAligned, hrcx, hr9, hr10, hjump _ (show (dstsize - o) / 32 < 4 by omega)]
  exact h.total_bufendVectors _ (Nat.add_zero o) hal hok hk32 hkl hkd h32 (by omega) (by omega)
    (by omega)

theorem StrscpyArea.total_pgx32bBufend (h : StrscpyArea s dst src dstsize len)
    (hal : (src + o) % 32 = 0) (hok : o ≤ k) (hk32 : k ≤ o + 32) (hkl : k ≤ len)
    (hkd : k ≤ dstsize) (h32 : 32 ≤ dstsize) (hlt : dstsize < o + 32) :
    Total (fun _ => pgx32bBufend vpxorSelf dst src dstsize o) (Answer s dst src dstsize len)
      (s.copied dst src k) := by
  have hsrc := h.src_lt
  have hdst := h.dstsize_lt
  have hr10 : ea (negq (subq o dstsize) + 0x20) = o + 32 - dstsize := by
    rw [subq_eq (by omega) hdst]
    simp only [negq, ea]
    omega
  simp only [pgx32bBufend, hr10]
  exact h.total_bufendVectors 0 (Nat.add_zero o) hal hok hk32 hkl hkd h32 (by omega) (by omega)
    (by omega)

/-! ### The loop over aligned vectors -/

/-- The vectors from `rax` on are aligned, and `k` bytes are copied, some of which are those of
the first vector. -/
structure Aligned (src dstsize len rax k : ℕ) : Prop where
  start : rax ≤ k
  behind : k ≤ rax + 32
  le : k ≤ len
  room : k ≤ dstsize
  aligned : (src + rax) % 32 = 0

/-- What holds at a label when `k` bytes are copied. -/
def StrscpyAt.Ready (src dstsize len k : ℕ) : StrscpyAt → Prop
  | .cpy128bPrlg rax => Aligned src dstsize len rax k
  | .cpy128b rax => Aligned src dstsize len rax k ∧ (src + rax) % pgsize ≤ pgsize - 0x80
  | .pgx32b rax => Aligned src dstsize len rax k

/-- The labels are passed in turn while the offset does not grow. -/
def StrscpyAt.left (dstsize : ℕ) : StrscpyAt → ℕ
  | .cpy128bPrlg rax => 2 * (dstsize - rax) + 1
  | .cpy128b rax => 2 * (dstsize - rax)
  | .pgx32b rax => 2 * (dstsize - rax)

/-- What a step leads to. -/
def StrscpyStep (s : Space) (dst src dstsize len limit : ℕ) (r : StrscpyAt ⊕ ℕ) (s' : Space) :
    Prop :=
  Sum.elim (fun label => ∃ k, s' = s.copied dst src k ∧ label.Ready src dstsize len k ∧
    label.left dstsize < limit) (fun rax => Answer s dst src dstsize len rax s') r

theorem StrscpyArea.total_cpy128bPrlg (h : StrscpyArea s dst src dstsize len)
    (hk : Aligned src dstsize len o k) :
    Total (fun _ => cpy128bPrlg src o)
      (StrscpyStep s dst src dstsize len (2 * (dstsize - o) + 1)) (s.copied dst src k) := by
  have hsrc := h.src_lt
  have hol := hk.start.trans hk.le
  have hpos : andl (pgsize - 1) (ea (src + o)) = (src + o) % pgsize := by
    rw [andl_page, ea_eq (a := src + o) (by omega) (by omega)]
  have hcmp : ja (cmpl (pgsize - 0x80) ((src + o) % pgsize)) =
      decide (pgsize - 0x80 < (src + o) % pgsize) := by
    rw [cmpl_eq (by decide) (by simp only [pgsize]; omega), ja_cmpq]
  refine Total.const ?_
  simp only [cpy128bPrlg, hpos, hcmp, decide_eq_true_eq]
  by_cases hend : pgsize - 0x80 < (src + o) % pgsize
  · rw [if_pos hend, wp_pure]
    exact ⟨k, rfl, hk, by simp [StrscpyAt.left]⟩
  · rw [if_neg hend, wp_pure]
    exact ⟨k, rfl, ⟨hk, by omega⟩, by simp [StrscpyAt.left]⟩

theorem StrscpyArea.total_pgx32b (h : StrscpyArea s dst src dstsize len)
    (hk : Aligned src dstsize len o k) (h32 : 32 ≤ dstsize) :
    Total (fun _ => pgx32b vpxorSelf dst src dstsize o)
      (StrscpyStep s dst src dstsize len (2 * (dstsize - o))) (s.copied dst src k) := by
  have hsrc := h.src_lt
  obtain ⟨hok, hk32, hkl, hkd, hal⟩ := hk
  have hrax : ea (o + 0x20) = o + 32 := ea_eq (by omega) (by omega)
  simp only [pgx32b, hrax, ja_cmpq, decide_eq_true_eq]
  by_cases hend : dstsize < o + 32
  · simp only [if_pos hend]
    exact Total.map (h.total_pgx32bBufend hal hok hk32 hkl hkd h32 hend)
  simp only [if_neg hend]
  have hread : s.Readable (src + o) 32 :=
    h.readable_block (by omega) (by simp only [pgsize]; omega)
  refine h.total_loadAligned (o := o) (by omega) (by omega) hal hread hkd fun v hv => ?_
  refine h.total_store (o := o) (by omega) hv.string (by decide) hok hk32 hkl (by omega)
    (fun hin => ?_) fun s' hin hd => ?_
  · have hpos : andl (pgsize - 1) (ea (src + (o + 32 : ℕ))) = (src + (o + 32)) % pgsize := by
      rw [andl_page, ea_eq (a := src + (o + 32)) (by omega) (by omega)]
    have hnext : Aligned src dstsize len (o + 32) (o + 32) :=
      ⟨Nat.le_refl _, by omega, hin, by omega, by omega⟩
    simp only [ymm, jnz_vptest, hv.allZero h.string (show o ≤ len by omega), hin, decide_true,
      Bool.not_true, Bool.false_eq_true, if_false, hpos, jz, flagsOf, decide_eq_true_eq]
    refine Total.const ?_
    by_cases hpage : (src + (o + 32)) % pgsize = 0
    · rw [if_pos hpage, wp_pure]
      refine ⟨o + 32, rfl, ⟨hnext, by rw [hpage]; decide⟩, ?_⟩
      show 2 * (dstsize - (o + 32)) < 2 * (dstsize - o)
      omega
    · rw [if_neg hpage, wp_pure]
      refine ⟨o + 32, rfl, hnext, ?_⟩
      show 2 * (dstsize - (o + 32)) < 2 * (dstsize - o)
      omega
  · simp only [ymm, jnz_vptest, hv.allZero h.string (show o ≤ len by omega),
      show ¬ o + 32 ≤ len by omega, decide_false, Bool.not_false, if_true]
    rw [hv.vecoffs_end h.string (Nat.le_refl 32) (by omega) hin (by omega) (by omega)]
    exact Total.const ((wp_pure _ _ _).mpr (hd.answer (by omega) (by omega) rfl))

/-- After a store of the bytes up to `k`. -/
def Stored (s : Space) (dst src dstsize len k : ℕ) (s' : Space) : Prop :=
  (k ≤ len ∧ s' = s.copied dst src k) ∨ (len < k ∧ CopyDone s dst src dstsize len s')

/-- The terminator is in the first two of four vectors, of which the first is stored. -/
theorem StrscpyArea.total_null64b (h : StrscpyArea s dst src dstsize len)
    (hs : Stored s dst src dstsize len (o + 32) s') (ho : o ≤ len) (hin : len < o + 64)
    (hroom : o + 64 ≤ dstsize) {v0 v1 : Lanes} (hv0 : Loaded s src len o 32 v0)
    (hv1 : Loaded s src len (o + 32) 32 v1) :
    Total (fun _ => null64b dst o v1 (vpcmpeqb 32 vpxorSelf v0) (vpcmpeqb 32 vpxorSelf v1))
      (Answer s dst src dstsize len) s' := by
  have hsrc := h.src_lt
  simp only [null64b, jnz_vptest, hv0.allZero h.string ho]
  rcases hs with ⟨hin0, rfl⟩ | ⟨hin0, hd⟩
  · simp only [hin0, decide_true, Bool.not_true, Bool.false_eq_true, if_false]
    refine h.total_store (o := o + 32) (by omega) hv1.string (by decide) (Nat.le_refl _) (by omega)
      hin0 (by omega) (fun hno => absurd hno (by omega)) fun s' _ hd => ?_
    rw [hv1.vecoffs_end h.string (Nat.le_refl 32) hin0 (by omega) (by omega) (by omega)]
    exact Total.const ((wp_pure _ _ _).mpr (hd.answer (by omega) (by omega) rfl))
  · simp only [show ¬ o + 32 ≤ len by omega, decide_false, Bool.not_false, if_true]
    rw [hv0.vecoffs_end h.string (Nat.le_refl 32) ho hin0 (by omega) (by omega)]
    exact Total.const ((wp_pure _ _ _).mpr (hd.answer (by omega) (by omega) rfl))

/-- Two vectors next to each other hold no null byte. -/
theorem Loaded.allZero_both {v0 v1 : Lanes} (hv0 : Loaded s src len o 32 v0)
    (hv1 : Loaded s src len (o + 32) 32 v1) (hs : StringIn s src len) (ho : o ≤ len) :
    (AllZero 32 (vpcmpeqb 32 vpxorSelf v0) ∧ AllZero 32 (vpcmpeqb 32 vpxorSelf v1)) ↔
      o + 64 ≤ len := by
  rw [hv0.allZero hs ho]
  constructor
  · rintro ⟨hin0, hz⟩
    exact (hv1.allZero hs hin0).mp hz
  · exact fun hin => ⟨by omega, (hv1.allZero hs (by omega)).mpr (by omega)⟩

/-- The terminator is in one of four vectors, of which the first is stored. -/
theorem StrscpyArea.total_null128b (h : StrscpyArea s dst src dstsize len)
    (hs : Stored s dst src dstsize len (o + 32) s') (ho : o ≤ len) (hin : len < o + 128)
    (hroom : o + 128 ≤ dstsize) {v0 v1 v2 v3 : Lanes} (hv0 : Loaded s src len o 32 v0)
    (hv1 : Loaded s src len (o + 32) 32 v1) (hv2 : Loaded s src len (o + 64) 32 v2)
    (hv3 : Loaded s src len (o + 96) 32 v3) :
    Total (fun _ => null128b dst o v1 v2 v3 (vpcmpeqb 32 vpxorSelf v0)
      (vpcmpeqb 32 vpxorSelf v1) (vpcmpeqb 32 vpxorSelf v2) (vpcmpeqb 32 vpxorSelf v3)
      (vpor (vpcmpeqb 32 vpxorSelf v0) (vpcmpeqb 32 vpxorSelf v1)))
      (Answer s dst src dstsize len) s' := by
  have hsrc := h.src_lt
  simp only [null128b, jnz_vptest, ymm, allZero_vpor, hv0.allZero_both hv1 h.string ho]
  by_cases hlow : o + 64 ≤ len
  · have hs' : s' = s.copied dst src (o + 32) := hs.elim (fun hs => hs.2) fun hs => by omega
    subst hs'
    simp only [hlow, decide_true, Bool.not_true, Bool.false_eq_true, if_false]
    refine h.total_store (o := o + 32) (by omega) hv1.string (by decide) (Nat.le_refl _) (by omega)
      (by omega) (by omega) (fun _ => ?_) fun s' hno => absurd hno (by omega)
    refine h.total_store (o := o + 64) (by omega) hv2.string (by decide) (Nat.le_refl _) (by omega)
      hlow (by omega) (fun hmid => ?_) fun s' hmid hd => ?_
    · simp only [hv2.allZero h.string hlow, hmid, decide_true, Bool.not_true, Bool.false_eq_true,
        if_false]
      refine h.total_store (o := o + 96) (by omega) hv3.string (by decide) (Nat.le_refl _)
        (by omega) hmid (by omega) (fun hno => absurd hno (by omega)) fun s' _ hd => ?_
      rw [hv3.vecoffs_end h.string (Nat.le_refl 32) hmid (by omega) (by omega) (by omega)]
      exact Total.const ((wp_pure _ _ _).mpr (hd.answer (by omega) (by omega) rfl))
    · simp only [hv2.allZero h.string hlow, show ¬ o + 64 + 32 ≤ len by omega, decide_false,
        Bool.not_false, if_true]
      rw [hv2.vecoffs_end h.string (Nat.le_refl 32) hlow hmid (by omega) (by omega)]
      exact Total.const ((wp_pure _ _ _).mpr (hd.answer (by omega) (by omega) rfl))
  · simp only [hlow, decide_false, Bool.not_false, if_true]
    exact h.total_null64b hs ho (by omega) (by omega) hv0 hv1

theorem StrscpyArea.total_cpy128b (h : StrscpyArea s dst src dstsize len)
    (hk : Aligned src dstsize len o k) (hpage : (src + o) % pgsize ≤ pgsize - 0x80) (h32 : 32 ≤ dstsize) :
    Total (fun _ => cpy128b vpxorSelf dst src dstsize o)
      (StrscpyStep s dst src dstsize len (2 * (dstsize - o))) (s.copied dst src k) := by
  have hsrc := h.src_lt
  obtain ⟨hok, hk32, hkl, hkd, hal⟩ := hk
  have hrax : ea (o + 0x80) = o + 128 := ea_eq (by omega) (by omega)
  simp only [cpy128b, hrax, ja_cmpq, decide_eq_true_eq]
  by_cases hend : dstsize < o + 128
  · simp only [if_pos hend]
    exact Total.map (h.total_bufendAligned hal hok hk32 hkl hkd h32 hend)
  simp only [if_neg hend]
  have hread : s.Readable (src + o) 128 :=
    h.readable_block (by omega) (by simp only [pgsize] at *; omega)
  have hvector : ∀ j ≤ 96, s.Readable (src + (o + j)) 32 :=
    fun j hj => hread.mono (by omega) (by omega)
  refine h.total_loadAligned (o := o) (by omega) (by omega) hal (hvector 0 (by decide)) hkd
    fun v0 hv0 => ?_
  refine h.total_loadAligned (o := o + 32) (by omega) (by omega)
    (show (src + (o + 32)) % 32 = 0 by omega) (hvector 32 (by decide)) hkd
    fun v1 hv1 => ?_
  refine h.total_loadAligned (o := o + 64) (by omega) (by omega)
    (show (src + (o + 64)) % 32 = 0 by omega) (hvector 64 (by decide)) hkd
    fun v2 hv2 => ?_
  refine h.total_loadAligned (o := o + 96) (by omega) (by omega)
    (show (src + (o + 96)) % 32 = 0 by omega) (hvector 96 (by decide)) hkd
    fun v3 hv3 => ?_
  have hall : ((AllZero 32 (vpcmpeqb 32 vpxorSelf v0) ∧ AllZero 32 (vpcmpeqb 32 vpxorSelf v1)) ∧
      AllZero 32 (vpcmpeqb 32 vpxorSelf v2) ∧ AllZero 32 (vpcmpeqb 32 vpxorSelf v3)) ↔
      o + 128 ≤ len := by
    rw [hv0.allZero_both hv1 h.string (by omega)]
    constructor
    · rintro ⟨hlow, hhigh⟩
      exact (hv2.allZero_both hv3 h.string hlow).mp hhigh
    · exact fun hin => ⟨by omega, (hv2.allZero_both hv3 h.string (by omega)).mpr (by omega)⟩
  simp only [ymm, jnz_vptest, allZero_vpor, hall]
  refine h.total_store (o := o) (by omega) hv0.string (by decide) hok hk32 hkl (by omega)
    (fun hin0 => ?_) fun s' hin0 hd => ?_
  · by_cases hin : o + 128 ≤ len
    · simp only [hin, decide_true, Bool.not_true, Bool.false_eq_true, if_false]
      refine h.total_store (o := o + 32) (by omega) hv1.string (by decide) (Nat.le_refl _)
        (by omega) hin0 (by omega) (fun hin1 => ?_) fun s' hno => absurd hno (by omega)
      refine h.total_store (o := o + 64) (by omega) hv2.string (by decide) (Nat.le_refl _)
        (by omega) hin1 (by omega) (fun hin2 => ?_) fun s' hno => absurd hno (by omega)
      refine h.total_store (o := o + 96) (by omega) hv3.string (by decide) (Nat.le_refl _)
        (by omega) hin2 (by omega) (fun hin3 => ?_) fun s' hno => absurd hno (by omega)
      refine Total.const ((wp_pure _ _ _).mpr ⟨o + 128, rfl,
        ⟨Nat.le_refl _, by omega, hin, by omega, by omega⟩, ?_⟩)
      show 2 * (dstsize - (o + 128)) + 1 < 2 * (dstsize - o)
      omega
    · simp only [hin, decide_false, Bool.not_false, if_true]
      exact Total.map (h.total_null128b (.inl ⟨hin0, rfl⟩) (by omega) (by omega) (by omega)
        hv0 hv1 hv2 hv3)
  · simp only [show ¬ o + 128 ≤ len by omega, decide_false, Bool.not_false, if_true]
    exact Total.map (h.total_null128b (.inr ⟨hin0, hd⟩) (by omega) (by omega) (by omega)
      hv0 hv1 hv2 hv3)

/-- From each label the string is copied. -/
theorem StrscpyArea.total_strscpyFrom (h : StrscpyArea s dst src dstsize len)
    (h32 : 32 ≤ dstsize) {label : StrscpyAt} (hl : label.Ready src dstsize len k) :
    Total (strscpyFrom vpxorSelf dst src dstsize label) (Answer s dst src dstsize len)
      (s.copied dst src k) := by
  refine total_loop (f := fun _ => strscpyStep vpxorSelf dst src dstsize)
    (I := fun left label s' => ∃ k, left = label.left dstsize ∧ s' = s.copied dst src k ∧
      label.Ready src dstsize len k) ?_ (label.left dstsize) label _ ⟨k, rfl, rfl, hl⟩
  rintro left label s' ⟨k, rfl, rfl, hl⟩
  have hstep : Total (fun _ => strscpyStep vpxorSelf dst src dstsize label)
      (StrscpyStep s dst src dstsize len (label.left dstsize)) (s.copied dst src k) := by
    cases label with
    | cpy128bPrlg rax => exact h.total_cpy128bPrlg hl
    | cpy128b rax => exact h.total_cpy128b hl.1 hl.2 h32
    | pgx32b rax => exact h.total_pgx32b hl h32
  refine hstep.mono ?_
  rintro (label' | rax) s'' hr
  · obtain ⟨k', rfl, hl', hlt⟩ := hr
    exact ⟨_, hlt, k', rfl, rfl, hl'⟩
  · exact hr

/-! ### Before a page boundary -/

/-- The bytes up to a page boundary are copied. -/
theorem StrscpyArea.total_pgxBufchk (h : StrscpyArea s dst src dstsize len) (hol : o ≤ len)
    (ho32 : o ≤ 32) (hroom : o < dstsize) (hpage : (src + o) % pgsize = 0) :
    Total (pgxBufchk vpxorSelf dst src dstsize o) (Answer s dst src dstsize len)
      (s.copied dst src o) := by
  have hsrc := h.src_lt
  have hrcx : leal (o + 0x20) = o + 32 := leal_eq (by omega) (by omega)
  by_cases hend : dstsize < o + 32
  · have hrun : pgxBufchk vpxorSelf dst src dstsize o =
        fun _ => bufendUnaligned vpxorSelf dst src dstsize o := by
      funext fuel
      simp only [pgxBufchk, hrcx, jb_cmpq, hend, decide_true, if_true]
    rw [hrun]
    refine h.total_bufendUnaligned ⟨hol, ho32, hroom, hend, ?_⟩
    rw [hpage]
    simp only [pgsize]
    omega
  have hrun : pgxBufchk vpxorSelf dst src dstsize o = fun fuel => (do
      let ymm0 ← vmovdqa ymm (ea (src + o))
      vmovdquTo ymm ymm0 (ea (dst + o))
      let ymm4 := vpcmpeqb ymm vpxorSelf ymm0
      if jz (vptest ymm ymm4 ymm4) then strscpyFrom vpxorSelf dst src dstsize (.cpy128b o) fuel
      else return vecoffs ymm ymm4 0x00 o) := by
    funext fuel
    simp only [pgxBufchk, hrcx, jb_cmpq, hend, decide_false, Bool.false_eq_true, if_false]
  rw [hrun]
  simp only [pgsize] at hpage
  refine h.total_loadAligned (o := o) (by omega) (by omega) (show (src + o) % 32 = 0 by omega)
    (h.readable_block hol (by simp only [pgsize]; omega)) (by omega) fun v hv => ?_
  refine h.total_store (o := o) (by omega) hv.string (by decide) (Nat.le_refl o) (by omega) hol
    (by omega) (fun hin => ?_) fun s' hin hd => ?_
  · simp only [ymm, jz_vptest, hv.allZero h.string hol, hin, decide_true, if_true]
    exact h.total_strscpyFrom (by omega)
      ⟨⟨by omega, Nat.le_refl _, hin, by omega, by omega⟩, by simp only [pgsize]; omega⟩
  · simp only [ymm, jz_vptest, hv.allZero h.string hol, show ¬ o + 32 ≤ len by omega, decide_false,
      Bool.false_eq_true, if_false]
    rw [hv.vecoffs_end h.string (Nat.le_refl 32) hol hin (by omega) (by omega)]
    exact Total.const ((wp_pure _ _ _).mpr (hd.answer (by omega) (by omega) rfl))

variable {d : ℕ}

/-- A string that begins `d` bytes before a page boundary, fewer than 32, with a destination
that goes on behind them. -/
structure AtEdge (src dstsize d : ℕ) : Prop where
  edge : (src + d) % pgsize = 0
  pos : 0 < d
  short : d < 32
  room : d < dstsize

theorem AtEdge.readable (hd : AtEdge src dstsize d) (h : StrscpyArea s dst src dstsize len)
    (hk : k + n ≤ d) : s.Readable (src + k) n := by
  have hedge := hd.edge
  have hshort := hd.short
  have hpos := hd.pos
  have hread : s.Readable (src + 0) d :=
    h.readable_block (Nat.zero_le len) (by simp only [pgsize] at *; omega)
  exact hread.mono (by omega) (by omega)

/-- All bytes before the boundary are copied. -/
theorem AtEdge.total_pgxBufchk (hd : AtEdge src dstsize d) (h : StrscpyArea s dst src dstsize len)
    (hdl : d ≤ len) :
    Total (pgxBufchk vpxorSelf dst src dstsize d) (Answer s dst src dstsize len)
      (s.copied dst src d) :=
  h.total_pgxBufchk hdl (Nat.le_of_lt hd.short) hd.room hd.edge

theorem AtEdge.total_pgx1b (hd : AtEdge src dstsize d) (h : StrscpyArea s dst src dstsize len)
    (hone : d = 1) :
    Total (pgx1b vpxorSelf dst src dstsize 0) (Answer s dst src dstsize len)
      (s.copied dst src 0) := by
  have hsrc := h.src_lt
  have hroom := hd.room
  refine h.total_copyByte (o := 0) (by omega) (by omega) (Nat.zero_le len) (by omega) ?_ ?_
  · intro hlt
    have h0 : s.bytes (src + 0) ≠ 0 := h.string.nonzero 0 hlt
    simp only [jnz_testl_byte, h0, ne_eq, not_false_eq_true, decide_true, if_true]
    subst hone
    exact hd.total_pgxBufchk h hlt
  · intro s' hlen hdone
    exact Total.const ((wp_pure _ _ _).mpr (hdone.answer (by omega) (by omega) hlen))

theorem AtEdge.total_pgx2bFinal (hd : AtEdge src dstsize d) (h : StrscpyArea s dst src dstsize len)
    (h2 : 2 ≤ d) (h3 : d ≤ 3) (hin : 2 ≤ len) :
    Total (pgx2bFinal vpxorSelf dst src dstsize d) (Answer s dst src dstsize len)
      (s.copied dst src 2) := by
  have hsrc := h.src_lt
  have hroom := hd.room
  obtain rfl | rfl : d = 2 ∨ d = 3 := by omega
  · exact hd.total_pgxBufchk h hin
  refine h.total_copyByte (o := 2) (by omega) (by omega) hin (by omega) ?_ ?_
  · intro hlt
    have hne := h.string.nonzero 2 hlt
    simp only [jnz_testl_byte, hne, ne_eq, not_false_eq_true, decide_true, if_true]
    exact hd.total_pgxBufchk h hlt
  · intro s' hlen hdone
    exact Total.const ((wp_pure _ _ _).mpr (hdone.answer (by omega) (by omega) hlen))

theorem AtEdge.total_pgx2b (hd : AtEdge src dstsize d) (h : StrscpyArea s dst src dstsize len)
    (h2 : 2 ≤ d) (h3 : d ≤ 3) :
    Total (pgx2b vpxorSelf dst src dstsize d) (Answer s dst src dstsize len)
      (s.copied dst src 0) := by
  have hsrc := h.src_lt
  have hroom := hd.room
  refine h.total_copyByte (o := 0) (by omega) (by omega) (Nat.zero_le len) (by omega) ?_ ?_
  · intro hlt
    have h0 := h.string.nonzero 0 hlt
    refine h.total_copyByte (o := 1) (by omega) (by omega) hlt (by omega) ?_ ?_
    · intro hin
      have h1 := h.string.nonzero 1 hin
      simp only [jnz_testl_both, h0, h1, ne_eq, not_false_eq_true, and_self, decide_true, if_true]
      exact hd.total_pgx2bFinal h h2 h3 hin
    · intro s' hlen hdone
      have hzero : jnz (testl 255 0) = false := by decide
      simp only [jnz_testl_byte, h0, ne_eq, not_false_eq_true, decide_true, if_true, hzero,
        Bool.false_eq_true, if_false]
      exact Total.const ((wp_pure _ _ _).mpr (hdone.answer (by omega) (by omega) hlen))
  · intro s' hlen hdone
    refine h.total_copyBehind (o := 1) (by omega) (by omega) hdone (by omega) (by omega)
      (by omega) (hd.readable h (n := 1) (by omega) 0 (by decide)) fun b s'' hdone' => ?_
    have hzero : ∀ x, jnz (testl 0 x) = false := fun x => by simp [jnz, testl, low32]
    simp only [hzero, Bool.false_eq_true, if_false]
    exact Total.const ((wp_pure _ _ _).mpr (hdone'.answer (by omega) (by omega) hlen))

theorem AtEdge.total_pgxShortFinal (hd : AtEdge src dstsize d)
    (h : StrscpyArea s dst src dstsize len) (hn : 0 < n) (hn16 : n < 16) (hlo : n ≤ d)
    (hhi : d < 2 * n) (hin : n ≤ len) :
    Total (pgxShortFinal n (Space.load n) (fun v p => Space.store n p v) vpxorSelf dst src dstsize d)
      (Answer s dst src dstsize len) (s.copied dst src n) := by
  have hsrc := h.src_lt
  have hroom := hd.room
  have hcmp : je (cmpl n d) = decide (d = n) := by rw [cmpl_eq (by omega) (by omega), je_cmpq]
  by_cases hend : d = n
  · have hrun : pgxShortFinal n (Space.load n) (fun v p => Space.store n p v) vpxorSelf dst src dstsize d =
        pgxBufchk vpxorSelf dst src dstsize n := by
      funext fuel
      rw [pgxShortFinal, hcmp, if_pos (decide_eq_true hend)]
    rw [hrun, ← hend]
    exact hd.total_pgxBufchk h (by omega)
  have hrax : leal (n + (subl n (low32 d) : ℕ) - n) = d - n := by
    have hback : subl n (low32 d) = d - n := by
      rw [low32_eq (by omega)]
      exact leal_eq (by omega) (by omega)
    rw [hback]
    exact leal_eq (by omega) (by omega)
  have hrun : pgxShortFinal n (Space.load n) (fun v p => Space.store n p v) vpxorSelf dst src dstsize d =
      fun fuel => (do
        let xmm1 ← Space.load n (ea (src + (d - n : ℕ)))
        Space.store n (ea (dst + (d - n : ℕ))) xmm1
        let r8 := tzcntl (vpmovmskb xmm (vpcmpeqb xmm vpxorSelf xmm1))
        if jnb (cmpl n r8) then
          pgxBufchk vpxorSelf dst src dstsize (leal ((d - n : ℕ) + r8)) fuel
        else return leal ((d - n : ℕ) + r8)) := by
    funext fuel
    simp only [pgxShortFinal, hcmp, hend, decide_false, Bool.false_eq_true, if_false, hrax]
  rw [hrun]
  refine h.total_copy (o := d - n) (by omega) (by omega) (hd.readable h (by omega)) hn (by omega)
    (by omega) hin (by omega) ?_ ?_
  · intro v hv hmore
    have htz := hv.tzcntl_behind h.string hn16 (by decide) hmore
    have hsum : leal ((d - n : ℕ) + n) = d := leal_eq (by omega) (by omega)
    simp only [hv.jnb_tzcntl h.string hn16 (show d - n ≤ len by omega), hmore, decide_true, if_true]
    rw [htz, hsum, show d - n + n = d by omega]
    exact hd.total_pgxBufchk h (by omega)
  · intro v s' hv hlast hdone
    have htz := hv.tzcntl_end h.string (show n ≤ 16 by omega) (by decide) (by omega) hlast
    have hlen : leal ((d - n : ℕ) + (len - (d - n) : ℕ)) = len := leal_eq (by omega) (by omega)
    simp only [hv.jnb_tzcntl h.string hn16 (show d - n ≤ len by omega),
      show ¬ d - n + n ≤ len by omega, decide_false, Bool.false_eq_true, if_false]
    rw [htz, hlen]
    exact Total.const ((wp_pure _ _ _).mpr (hdone.answer (by omega) (by omega) rfl))

theorem AtEdge.total_pgxShort (hd : AtEdge src dstsize d)
    (h : StrscpyArea s dst src dstsize len) (hn : 0 < n) (hn16 : n < 16) (hlo : n ≤ d)
    (hhi : d < 2 * n) :
    Total (pgxShort n (Space.load n) (fun v p => Space.store n p v) vpxorSelf dst src dstsize d)
      (Answer s dst src dstsize len) (s.copied dst src 0) := by
  have hsrc := h.src_lt
  have hroom := hd.room
  refine h.total_copy (o := 0) (by omega) (by omega) (hd.readable h (by omega)) hn (by omega)
    (by omega) (Nat.zero_le len) (by omega) ?_ ?_
  · intro v hv hin
    simp only [hv.jnb_tzcntl h.string hn16 (Nat.zero_le len), hin, decide_true, if_true]
    rw [Nat.zero_add] at hin ⊢
    exact hd.total_pgxShortFinal h hn hn16 hlo hhi hin
  · intro v s' hv hlast hdone
    have htz := hv.tzcntl_end h.string (show n ≤ 16 by omega) (by decide) (Nat.zero_le len) hlast
    simp only [hv.jnb_tzcntl h.string hn16 (Nat.zero_le len), show ¬ 0 + n ≤ len by omega,
      decide_false, Bool.false_eq_true, if_false]
    rw [htz]
    exact Total.const ((wp_pure _ _ _).mpr (hdone.answer (by omega) (by omega) (Nat.sub_zero len)))

theorem AtEdge.total_pgx16bFinal (hd : AtEdge src dstsize d)
    (h : StrscpyArea s dst src dstsize len) (hlo : 16 ≤ d) (hin : 16 ≤ len) :
    Total (pgx16bFinal vpxorSelf dst src dstsize d) (Answer s dst src dstsize len)
      (s.copied dst src 16) := by
  have hsrc := h.src_lt
  have hroom := hd.room
  have hshort := hd.short
  have hcmp : je (cmpl 0x10 d) = decide (d = 16) := by rw [cmpl_eq (by omega) (by omega), je_cmpq]
  by_cases hend : d = 16
  · subst hend
    exact hd.total_pgxBufchk h hin
  have hrax : leal ((0x10 : ℕ) + (subl 0x10 (low32 d) : ℕ) - 0x10) = d - 16 := by
    have hback : subl 0x10 (low32 d) = d - 16 := by
      rw [low32_eq (by omega)]
      exact leal_eq (by omega) (by omega)
    rw [hback]
    exact leal_eq (by omega) (by omega)
  have hnext : leal ((d - 16 : ℕ) + 0x10) = d := leal_eq (by omega) (by omega)
  have hrun : pgx16bFinal vpxorSelf dst src dstsize d = fun fuel => (do
      let xmm1 ← vmovdqu xmm (ea (src + (d - 16 : ℕ)))
      vmovdquTo xmm xmm1 (ea (dst + (d - 16 : ℕ)))
      let xmm5 := vpcmpeqb xmm vpxorSelf xmm1
      if jz (vptest xmm xmm5 xmm5) then pgxBufchk vpxorSelf dst src dstsize d fuel
      else return vecoffs xmm xmm5 (-0x10) d) := by
    funext fuel
    simp only [pgx16bFinal, hcmp, hend, decide_false, Bool.false_eq_true, if_false, hrax, hnext]
  rw [hrun]
  refine h.total_copy (o := d - 16) (n := 16) (by omega) (by omega) (hd.readable h (by omega))
    (by decide) (by omega) (by omega) hin (by omega) ?_ ?_
  · intro v hv hmore
    simp only [xmm, jz_vptest, hv.allZero h.string (show d - 16 ≤ len by omega), hmore,
      decide_true, if_true]
    rw [show d - 16 + 16 = d by omega]
    exact hd.total_pgxBufchk h (by omega)
  · intro v s' hv hlast hdone
    simp only [xmm, jz_vptest, hv.allZero h.string (show d - 16 ≤ len by omega),
      show ¬ d - 16 + 16 ≤ len by omega, decide_false, Bool.false_eq_true, if_false]
    rw [hv.vecoffs_end h.string (by decide) (by omega) hlast (by omega) (by omega)]
    exact Total.const ((wp_pure _ _ _).mpr (hdone.answer (by omega) (by omega) rfl))

theorem AtEdge.total_pgx16b (hd : AtEdge src dstsize d) (h : StrscpyArea s dst src dstsize len)
    (hlo : 16 ≤ d) :
    Total (pgx16b vpxorSelf dst src dstsize d) (Answer s dst src dstsize len)
      (s.copied dst src 0) := by
  have hsrc := h.src_lt
  have hroom := hd.room
  refine h.total_copy (o := 0) (n := 16) (by omega) (by omega) (hd.readable h (by omega))
    (by decide) (by omega) (by omega) (Nat.zero_le len) (by omega) ?_ ?_
  · intro v hv hin
    simp only [xmm, jz_vptest, hv.allZero h.string (Nat.zero_le len), hin, decide_true, if_true]
    exact hd.total_pgx16bFinal h hlo (by omega)
  · intro v s' hv hlast hdone
    simp only [xmm, jz_vptest, hv.allZero h.string (Nat.zero_le len),
      show ¬ 0 + 16 ≤ len by omega, decide_false, Bool.false_eq_true, if_false]
    rw [hv.tzcntl_end h.string (Nat.le_refl 16) (by decide) (Nat.zero_le len) hlast]
    exact Total.const ((wp_pure _ _ _).mpr (hdone.answer (by omega) (by omega) (Nat.sub_zero len)))

/-- A string that begins fewer than 32 bytes before a page boundary. -/
theorem StrscpyArea.total_pgxUnaligned (h : StrscpyArea s dst src dstsize len) (h0 : 0 < dstsize)
    (hpage : pgsize - 0x20 < src % pgsize) :
    Total (pgxUnaligned vpxorSelf dst src dstsize 0 (src % pgsize)) (Answer s dst src dstsize len)
      (s.copied dst src 0) := by
  have hsrc := h.src_lt
  have hlt : src % pgsize < pgsize := Nat.mod_lt src (by decide)
  simp only [pgsize] at hpage hlt
  have hr9 : leal (negl (src % pgsize) + pgsize) = pgsize - src % pgsize := by
    simp only [negl, leal, pgsize]
    omega
  obtain ⟨d, hd⟩ : ∃ d, d = pgsize - src % pgsize := ⟨_, rfl⟩
  rw [← hd] at hr9
  simp only [pgsize] at hd
  by_cases hroom : dstsize ≤ d
  · have hrun : pgxUnaligned vpxorSelf dst src dstsize 0 (src % pgsize) =
        fun _ => bufendUnaligned vpxorSelf dst src dstsize 0 := by
      funext fuel
      simp only [pgxUnaligned, hr9, jnb_cmpq, hroom, decide_true, if_true]
    rw [hrun]
    exact h.total_bufendUnaligned ⟨Nat.zero_le len, by decide, h0, by omega,
      by simp only [pgsize]; omega⟩
  have hedge : AtEdge src dstsize d :=
    ⟨by simp only [pgsize]; omega, by omega, by omega, by omega⟩
  have hindex : ∀ j < 5, 2 ^ j ≤ d → d < 2 ^ (j + 1) →
      pgxUnaligned vpxorSelf dst src dstsize 0 (src % pgsize) =
        fun fuel => jmpEntry (lpgxtbl vpxorSelf dst src dstsize 0 d fuel) j := fun j hj hlo hhi => by
    funext fuel
    simp only [pgxUnaligned, hr9, jnb_cmpq, hroom, decide_false, Bool.false_eq_true, if_false,
      jmp_index (show j < 32 by omega) hlo hhi]
  rcases Nat.lt_or_ge d 2 with h2 | h2
  · rw [hindex 0 (by decide) (by omega) (by omega)]
    exact hedge.total_pgx1b h (by omega)
  rcases Nat.lt_or_ge d 4 with h4 | h4
  · rw [hindex 1 (by decide) (by omega) (by omega)]
    exact hedge.total_pgx2b h h2 (by omega)
  rcases Nat.lt_or_ge d 8 with h8 | h8
  · rw [hindex 2 (by decide) (by omega) (by omega)]
    exact hedge.total_pgxShort h (by decide) (by decide) h4 (by omega)
  rcases Nat.lt_or_ge d 16 with h16 | h16
  · rw [hindex 3 (by decide) (by omega) (by omega)]
    exact hedge.total_pgxShort h (by decide) (by decide) h8 (by omega)
  · rw [hindex 4 (by decide) (by omega) (by omega)]
    exact hedge.total_pgx16b h h16

/-! ### The whole copy -/

theorem StrscpyArea.total_l32balign (h : StrscpyArea s dst src dstsize len) (h32 : 32 ≤ dstsize)
    (hin : 32 ≤ len) :
    Total (l32balign vpxorSelf dst src dstsize) (Answer s dst src dstsize len)
      (s.copied dst src 32) := by
  have hsrc := h.src_lt
  have hrax : subq src (andq (imm (-0x20)) (ea (src + 0x20))) = (src + 32) / 32 * 32 - src := by
    rw [ea_eq (a := src + 32) (by omega) (by omega), andq_align (by omega),
      subq_eq (by omega) (by omega)]
  have hrun : l32balign vpxorSelf dst src dstsize =
      strscpyFrom vpxorSelf dst src dstsize (.cpy128bPrlg ((src + 32) / 32 * 32 - src)) := by
    funext fuel
    simp only [l32balign, hrax]
  rw [hrun]
  exact h.total_strscpyFrom h32 ⟨by omega, by omega, hin, h32, by omega⟩

theorem StrscpyArea.total_avx2Strscpy (h : StrscpyArea s dst src dstsize len) :
    Total (avx2Strscpy dst src dstsize) (Answer s dst src dstsize len) s := by
  have hsrc := h.src_lt
  by_cases h0 : dstsize = 0
  · subst h0
    refine Total.const ((wp_pure _ _ _).mpr ⟨fun hfit => absurd hfit (by omega),
      fun _ => ⟨by decide, fun i hi => absurd hi (by omega), fun hpos => absurd hpos (by omega)⟩,
      fun a _ => rfl⟩)
  have hpos : andl (pgsize - 1) (low32 src) = src % pgsize := by
    rw [andl_page, low32]
    exact Nat.mod_mod_of_dvd src (by decide)
  have hcmp : ja (cmpl (pgsize - 0x20) (src % pgsize)) =
      decide (pgsize - 0x20 < src % pgsize) := by
    rw [cmpl_eq (by decide) (by simp only [pgsize]; omega), ja_cmpq]
  suffices hrun : Total (avx2Strscpy dst src dstsize) (Answer s dst src dstsize len)
      (s.copied dst src 0) by rwa [copied_zero] at hrun
  by_cases hnear : pgsize - 0x20 < src % pgsize
  · have hrun : avx2Strscpy dst src dstsize =
        pgxUnaligned vpxorSelf dst src dstsize 0 (src % pgsize) := by
      funext fuel
      simp only [avx2Strscpy, jz_testq, h0, decide_false, Bool.false_eq_true, if_false, hpos, hcmp,
        hnear, decide_true, if_true]
    rw [hrun]
    exact h.total_pgxUnaligned (by omega) hnear
  by_cases h32 : dstsize < 32
  · have hrun : avx2Strscpy dst src dstsize =
        fun _ => bufendUnaligned vpxorSelf dst src dstsize 0 := by
      funext fuel
      simp only [avx2Strscpy, jz_testq, h0, decide_false, Bool.false_eq_true, if_false, hpos, hcmp,
        hnear, jb_cmpq, h32, decide_true, if_true]
    rw [hrun]
    exact h.total_bufendUnaligned ⟨Nat.zero_le len, by decide, by omega, by omega,
      by simp only [pgsize] at *; omega⟩
  have hrun : avx2Strscpy dst src dstsize = fun fuel => (do
      let ymm0 ← vmovdqu ymm (ea src)
      vmovdquTo ymm ymm0 (ea dst)
      let ymm4 := vpcmpeqb ymm vpxorSelf ymm0
      if jz (vptest ymm ymm4 ymm4) then l32balign vpxorSelf dst src dstsize fuel
      else return tzcntl (vpmovmskb ymm ymm4)) := by
    funext fuel
    simp only [avx2Strscpy, jz_testq, h0, decide_false, Bool.false_eq_true, if_false, hpos, hcmp,
      hnear, jb_cmpq, h32]
  rw [hrun]
  refine h.total_copy (o := 0) (n := 32) (by omega) (by omega)
    (h.readable_block (Nat.zero_le len) (by simp only [pgsize] at *; omega)) (by decide) (by omega)
    (by omega) (Nat.zero_le len) (by omega) ?_ ?_
  · intro v hv hin
    simp only [ymm, jz_vptest, hv.allZero h.string (Nat.zero_le len), hin, decide_true, if_true]
    exact h.total_l32balign (by omega) (by omega)
  · intro v s' hv hlast hdone
    simp only [ymm, jz_vptest, hv.allZero h.string (Nat.zero_le len),
      show ¬ 0 + 32 ≤ len by omega, decide_false, Bool.false_eq_true, if_false]
    rw [hv.tzcntl_end h.string (Nat.le_refl 32) (Nat.le_refl 32) (Nat.zero_le len) hlast]
    exact Total.const ((wp_pure _ _ _).mpr (hdone.answer (by omega) (by omega) (Nat.sub_zero len)))

/-- `cldm_avx2_strscpy` copies a string with its terminator and returns its length, or as much
as there is room for and returns -7; it writes just the destination and reads only pages with
a byte of the string. -/
theorem avx2_strscpy_correct (h : StrscpyArea s dst src dstsize len) :
    Total (avx2Strscpy dst src dstsize)
      (fun rax s' => StrscpyDone s dst src dstsize len (int64 rax) s') s :=
  h.total_avx2Strscpy

/-- The string "ab" across a page boundary, and a destination of two bytes. -/
def abSpace : Space where
  bytes := fun a => if a = 0x1ffe then 97 else if a = 0x1fff then 98 else 0
  readable := fun a => a / pgsize = 1 ∨ a / pgsize = 2
  writable := fun a => 0x4000 ≤ a ∧ a < 0x4002

/-- The copy of "ab" to two bytes. -/
theorem avx2_strscpy_correct_ab : StrscpyArea abSpace 0x4000 0x1ffe 2 2 ∧
    Total (avx2Strscpy 0x4000 0x1ffe 2)
      (fun rax s' => StrscpyDone abSpace 0x4000 0x1ffe 2 2 (int64 rax) s') abSpace := by
  have h : StrscpyArea abSpace 0x4000 0x1ffe 2 2 := by
    refine ⟨⟨⟨rfl, fun i hi => ?_⟩, fun a => decide_eq_true_iff, .inl (by decide), by decide,
      by decide⟩, fun a => ?_⟩
    · obtain rfl | rfl : i = 0 ∨ i = 1 := by omega
      · decide
      · decide
    · refine decide_eq_true_iff.trans ⟨?_, ?_⟩
      · rintro (h1 | h2)
        · exact ⟨0, by decide, h1⟩
        · exact ⟨2, by decide, h2⟩
      · rintro ⟨i, hi, heq⟩
        simp only [pgsize] at heq ⊢
        omega
  exact ⟨h, avx2_strscpy_correct h⟩

end Cldm.AvxStrscpy
