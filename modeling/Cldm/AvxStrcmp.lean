/-
The AVX2 comparison of strings.

`avx2Strcmp` is `cldm_avx2_strcmp`, with a definition for each label of the assembly
source.  The labels are the states `StrcmpAt` of one loop: the vectors go on to the
steps of one to 64 bytes near a page boundary of either string, and these choose the
next step by a jump table, whose index is the alignment that the two strings share.

* `avx2_strcmp_correct` — for strings at any addresses, the answer is the difference
  of the first different bytes, and zero just for equal strings; only pages with a
  byte of the strings up to there are read, each string's through its own pointer.
-/
import Cldm.AvxMemcmp

namespace Cldm

open Prog Space Avx2

/-! ### The routine -/

/-- The labels of the routine, with the offset. -/
inductive StrcmpAt
  | l32balign (rcx : ℕ)
  | cmp128b (rcx : ℕ)
  | pgxb (rcx : ℕ)
  | pgxw (rcx : ℕ)
  | pgxdw (rcx : ℕ)
  | pgxqw (rcx : ℕ)
  | pgxxw (rcx : ℕ)
  | pgxyw (rcx : ℕ)
  | pgxzw (rcx : ℕ)
  | pgxalign (rcx : ℕ)

/-- `.Laligntbl` -/
def laligntbl : List (ℕ → StrcmpAt) :=
  [.pgxb, .pgxw, .pgxdw, .pgxqw, .pgxxw, .pgxyw, .pgxzw, .pgxalign]

/-- The jump to an entry of the table. -/
def jmpTable (rdx rcx : ℕ) : Prog Space (StrcmpAt ⊕ ℕ) :=
  match laligntbl[rdx]? with
  | some label => return .inl (label rcx)
  | none => fun _ => none

/-- `.Lpgx` -/
def pgx (rcx rax : ℕ) : Prog Space (StrcmpAt ⊕ ℕ) :=
  let r9 := 0x07
  let rax := subl pgsize rax
  let rax := negl rax
  let rdx := tzcntl rax
  let fl := cmpl r9 rdx
  let rdx := if ja fl then r9 else rdx
  jmpTable rdx rcx

/-- The macro `pgjmp`; `r9` is still the one of `.Lpgx`. -/
def pgjmp (rdi rsi rcx : ℕ) : Prog Space (StrcmpAt ⊕ ℕ) :=
  let r9 := 0x07
  let rax := ea (rdi + rcx)
  let rdx := ea (rsi + rcx)
  let rax := orl rdx rax
  let rax := subl pgsize rax
  let rax := negl rax
  let rdx := tzcntl rax
  let fl := cmpl r9 rdx
  let rdx := if ja fl then r9 else rdx
  jmpTable rdx rcx

/-! The reads through `rdi` and those through `rsi` are kept apart: `first` and `second` are the
addresses that they may reach. -/

section Routine

variable (first second : ℕ → Bool)

/-- The difference of the bytes at an offset, with which most labels end. -/
def diffBytes (rdi rsi rcx : ℕ) : Prog Space ℕ := do
  let rax ← within first (movzxb (ea (rdi + rcx)))
  let rdx ← within second (movzxb (ea (rsi + rcx)))
  return subl rdx rax

/-- `.L32balign` -/
def l32balign (rdi rcx : ℕ) : Prog Space (StrcmpAt ⊕ ℕ) :=
  let rcx := ea (rdi + rcx + 0x20)
  let rcx := andq (imm (-0x20)) rcx
  let rcx := subq rdi rcx
  return .inl (.cmp128b rcx)

/-- The end of `.Ldiff128b` and `.Lpgxzwdiff`: the first different or null byte of a vector. -/
def diffYmmword (ymm15 : Lanes) (rdi rsi rcx : ℕ) : Prog Space ℕ := do
  let ymm0 ← within first (vmovdqa ymm (ea (rdi + rcx)))
  let ymm4 ← within second (vpcmpeqbMem ymm (ea (rsi + rcx)) ymm0)
  let ymm8 := vpcmpeqb ymm ymm15 ymm0
  let ymm12 := vpandn ymm4 ymm8
  let rdx := vpmovmskb ymm ymm12
  let rdx := notl rdx
  let rax := tzcntl rdx
  let rcx := ea (rcx + rax)
  diffBytes first second rdi rsi rcx

/-- The search for the first vector with a different or null byte. -/
def dmask (ymm14 : Lanes) : ℕ × ℕ → Lanes → ℕ × ℕ :=
  Avx2.search fun ymmword => jnc (vptest ymm ymm14 ymmword)

/-- `.Ldiff128b` -/
def diff128b (ymm14 ymm15 : Lanes) (rdi rsi rcx : ℕ)
    (ymm4 ymm5 ymm6 ymm9 ymm10 ymm11 : Lanes) : Prog Space ℕ :=
  let rax := 0x20
  let ymm4 := vpandn ymm4 ymm9
  let ymm5 := vpandn ymm5 ymm10
  let ymm6 := vpandn ymm6 ymm11
  diffYmmword first second ymm15 rdi rsi ([ymm4, ymm5, ymm6].foldl (dmask ymm14) (rcx, rax)).1

/-- `.Lcmp128b` -/
def cmp128b (ymm14 ymm15 : Lanes) (rdi rsi rcx : ℕ) : Prog Space (StrcmpAt ⊕ ℕ) :=
  let rax := ea (rdi + rcx)
  let rdx := ea (rsi + rcx)
  let rax := orl rdx rax
  let rax := andl (pgsize - 1) rax
  let fl := cmpl (pgsize - 0x80) rax
  if ja fl then pgx rcx rax else do
  let ymm0 ← within first (vmovdqa ymm (ea (rdi + rcx)))
  let ymm4 ← within second (vpcmpeqbMem ymm (ea (rsi + rcx)) ymm0)
  let ymm1 ← within first (vmovdqa ymm (ea (rdi + rcx + 0x20)))
  let ymm5 ← within second (vpcmpeqbMem ymm (ea (rsi + rcx + 0x20)) ymm1)
  let ymm2 ← within first (vmovdqa ymm (ea (rdi + rcx + 0x40)))
  let ymm6 ← within second (vpcmpeqbMem ymm (ea (rsi + rcx + 0x40)) ymm2)
  let ymm3 ← within first (vmovdqa ymm (ea (rdi + rcx + 0x60)))
  let ymm7 ← within second (vpcmpeqbMem ymm (ea (rsi + rcx + 0x60)) ymm3)
  let ymm8 := vpand ymm4 ymm5
  let ymm9 := vpand ymm6 ymm7
  let ymm13 := vpand ymm8 ymm9
  let ymm9 := vpcmpeqb ymm ymm15 ymm0
  let ymm10 := vpcmpeqb ymm ymm15 ymm1
  let ymm11 := vpcmpeqb ymm ymm15 ymm2
  let ymm12 := vpcmpeqb ymm ymm15 ymm3
  if jnc (vptest ymm ymm14 ymm13) then
    .inr <$> diff128b first second ymm14 ymm15 rdi rsi rcx ymm4 ymm5 ymm6 ymm9 ymm10 ymm11 else
  let ymm8 := vpor ymm9 ymm10
  let ymm13 := vpor ymm11 ymm12
  let ymm8 := vpor ymm8 ymm13
  let rcx := ea (rcx + 0x80)
  if jz (vptest ymm ymm8 ymm8) then return .inl (.cmp128b rcx) else
  return .inr 0

/-- A byte of each string: end at a difference or a null byte, else go on. -/
def cmpBytes (rdi rsi : ℕ) (next : Prog Space (StrcmpAt ⊕ ℕ)) : Prog Space (StrcmpAt ⊕ ℕ) := do
  let rax ← within first (movzxb rdi)
  let rdx ← within second (movzxb rsi)
  let rax := subl rdx rax
  if jnz (flagsOf rax) then return .inr rax else
  let rax := addl rdx rax
  if jz (flagsOf rax) then return .inr 0 else next

/-- `.Lpgxb` -/
def pgxb (rdi rsi rcx : ℕ) : Prog Space (StrcmpAt ⊕ ℕ) :=
  cmpBytes first second (ea (rdi + rcx)) (ea (rsi + rcx)) (pgjmp rdi rsi (ea (rcx + 0x01)))

/-- `.Lpgxw` -/
def pgxw (rdi rsi rcx : ℕ) : Prog Space (StrcmpAt ⊕ ℕ) :=
  cmpBytes first second (ea (rdi + rcx)) (ea (rsi + rcx))
    (cmpBytes first second (ea (rdi + rcx + 0x01)) (ea (rsi + rcx + 0x01))
      (pgjmp rdi rsi (ea (rcx + 0x02))))

/-- `.Lpgxdiff` -/
def pgxdiff (rdi rsi rcx : ℕ) (ymm2 ymm3 : Lanes) : Prog Space ℕ :=
  let rax := vpmovmskb ymm ymm2
  let rax := notl rax
  let rdx := tzcntl rax
  let rcx := ea (rcx + rdx)
  let rax := vpmovmskb ymm ymm3
  let r8 := tzcntl rax
  let fl := cmpl rdx r8
  if jb fl then return 0 else diffBytes first second rdi rsi rcx

/-- `.Lpgxdw` and `.Lpgxqw`: a move of `size` bytes. -/
def pgxShort (size : ℕ) (mov : ℕ → Prog Space Lanes) (xmm14 xmm15 : Lanes) (rdi rsi rcx : ℕ) :
    Prog Space (StrcmpAt ⊕ ℕ) := do
  let xmm0 ← within first (mov (ea (rdi + rcx)))
  let xmm1 ← within second (mov (ea (rsi + rcx)))
  let xmm2 := vpcmpeqb xmm xmm0 xmm1
  let xmm3 := vpcmpeqb xmm xmm15 xmm0
  if jnc (vptest xmm xmm14 xmm2) then .inr <$> pgxdiff first second rdi rsi rcx xmm2 xmm3 else
  let rax := vpmovmskb xmm xmm3
  let rdx := tzcntl rax
  let fl := cmpl size rdx
  if jb fl then return .inr 0 else
  let rcx := ea (rcx + size)
  pgjmp rdi rsi rcx

def pgxdw : Lanes → Lanes → ℕ → ℕ → ℕ → Prog Space (StrcmpAt ⊕ ℕ) :=
  pgxShort first second 0x04 vmovd

def pgxqw : Lanes → Lanes → ℕ → ℕ → ℕ → Prog Space (StrcmpAt ⊕ ℕ) :=
  pgxShort first second 0x08 vmovq

/-- `.Lpgxxw` and `.Lpgxyw`: a vector of `w` lanes. -/
def pgxVector (w : ℕ) (ymm14 ymm15 : Lanes) (rdi rsi rcx : ℕ) : Prog Space (StrcmpAt ⊕ ℕ) := do
  let ymm0 ← within first (vmovdqu w (ea (rdi + rcx)))
  let ymm2 ← within second (vpcmpeqbMem w (ea (rsi + rcx)) ymm0)
  let ymm3 := vpcmpeqb w ymm15 ymm0
  if jnc (vptest w ymm14 ymm2) then .inr <$> pgxdiff first second rdi rsi rcx ymm2 ymm3 else
  if jnz (vptest w ymm3 ymm3) then return .inr 0 else
  let rcx := ea (rcx + w)
  pgjmp rdi rsi rcx

def pgxxw : Lanes → Lanes → ℕ → ℕ → ℕ → Prog Space (StrcmpAt ⊕ ℕ) :=
  pgxVector first second xmm

def pgxyw : Lanes → Lanes → ℕ → ℕ → ℕ → Prog Space (StrcmpAt ⊕ ℕ) :=
  pgxVector first second ymm

/-- `.Lpgxzwdiff` -/
def pgxzwdiff (ymm14 ymm15 : Lanes) (rdi rsi rcx : ℕ) (ymm4 ymm5 ymm9 ymm10 : Lanes) :
    Prog Space ℕ :=
  let rax := 0x20
  let ymm4 := vpandn ymm4 ymm9
  let ymm5 := vpandn ymm5 ymm10
  diffYmmword first second ymm15 rdi rsi ([ymm4, ymm5].foldl (dmask ymm14) (rcx, rax)).1

/-- `.Lpgxzw` -/
def pgxzw (ymm14 ymm15 : Lanes) (rdi rsi rcx : ℕ) : Prog Space (StrcmpAt ⊕ ℕ) := do
  let ymm0 ← within first (vmovdqu ymm (ea (rdi + rcx)))
  let ymm4 ← within second (vpcmpeqbMem ymm (ea (rsi + rcx)) ymm0)
  let ymm1 ← within first (vmovdqu ymm (ea (rdi + rcx + 0x20)))
  let ymm5 ← within second (vpcmpeqbMem ymm (ea (rsi + rcx + 0x20)) ymm1)
  let ymm13 := vpand ymm4 ymm5
  let ymm9 := vpcmpeqb ymm ymm15 ymm0
  let ymm10 := vpcmpeqb ymm ymm15 ymm1
  if jnc (vptest ymm ymm14 ymm13) then
    .inr <$> pgxzwdiff first second ymm14 ymm15 rdi rsi rcx ymm4 ymm5 ymm9 ymm10 else
  let ymm8 := vpor ymm9 ymm10
  if jnz (vptest ymm ymm8 ymm8) then return .inr 0 else
  let rcx := ea (rcx + 0x40)
  pgjmp rdi rsi rcx

/-- `.Lpgxalign` -/
def pgxalign (ymm14 ymm15 : Lanes) (rdi rsi rcx : ℕ) : Prog Space (StrcmpAt ⊕ ℕ) := do
  let ymm0 ← within first (vmovdqu ymm (ea (rdi + rcx)))
  let ymm4 ← within second (vpcmpeqbMem ymm (ea (rsi + rcx)) ymm0)
  let ymm8 := vpcmpeqb ymm ymm15 ymm0
  let ymm12 := vpandn ymm4 ymm8
  if jc (vptest ymm ymm14 ymm12) then return .inl (.l32balign rcx) else
  let rdx := vpmovmskb ymm ymm12
  let rdx := notl rdx
  let rax := tzcntl rdx
  let rcx := ea (rcx + rax)
  .inr <$> diffBytes first second rdi rsi rcx

/-- The code at a label. -/
def strcmpStep (ymm14 ymm15 : Lanes) (rdi rsi : ℕ) : StrcmpAt → Prog Space (StrcmpAt ⊕ ℕ)
  | .l32balign rcx => l32balign rdi rcx
  | .cmp128b rcx => cmp128b first second ymm14 ymm15 rdi rsi rcx
  | .pgxb rcx => pgxb first second rdi rsi rcx
  | .pgxw rcx => pgxw first second rdi rsi rcx
  | .pgxdw rcx => pgxdw first second ymm14 ymm15 rdi rsi rcx
  | .pgxqw rcx => pgxqw first second ymm14 ymm15 rdi rsi rcx
  | .pgxxw rcx => pgxxw first second ymm14 ymm15 rdi rsi rcx
  | .pgxyw rcx => pgxyw first second ymm14 ymm15 rdi rsi rcx
  | .pgxzw rcx => pgxzw first second ymm14 ymm15 rdi rsi rcx
  | .pgxalign rcx => pgxalign first second ymm14 ymm15 rdi rsi rcx

/-- The code before the first label. -/
def strcmpEntry (ymm14 ymm15 : Lanes) (rdi rsi : ℕ) : Prog Space (StrcmpAt ⊕ ℕ) :=
  let rcx := 0
  let rax := low32 rdi
  let rax := orl rsi rax
  let rax := andl (pgsize - 0x01) rax
  let fl := cmpl (pgsize - 0x20) rax
  if ja fl then pgx rcx rax else do
  let ymm0 ← within first (vmovdqu ymm (ea rdi))
  let ymm4 ← within second (vpcmpeqbMem ymm (ea rsi) ymm0)
  let ymm8 := vpcmpeqb ymm ymm15 ymm0
  let ymm12 := vpandn ymm4 ymm8
  if jc (vptest ymm ymm14 ymm12) then return .inl (.l32balign rcx) else
  let rcx := vpmovmskb ymm ymm12
  let rcx := notl rcx
  let rdx := tzcntl rcx
  .inr <$> diffBytes first second rdi rsi rdx

/-- `cldm_avx2_strcmp`, with its reads confined. -/
def strcmpFrom (rdi rsi fuel : ℕ) : Prog Space ℕ := do
  let ymm14 := vpcmpeqbSelf
  let ymm15 := vpxorSelf
  match ← strcmpEntry first second ymm14 ymm15 rdi rsi with
  | .inl label => fuelLoop (strcmpStep first second ymm14 ymm15 rdi rsi) fuel label
  | .inr rax => return rax

end Routine

/-- `cldm_avx2_strcmp`: `rdi` and `rsi` are the strings. -/
def avx2Strcmp (rdi rsi fuel : ℕ) : Prog Space ℕ :=
  strcmpFrom (fun _ => true) (fun _ => true) rdi rsi fuel

/-! ### Strings -/

variable {s : Space} {first second : ℕ → Bool} {p q k o n w limit : ℕ}

/-- The first difference of two strings, or their common terminator, is at the offset `k`. -/
structure EndsAt (s : Space) (p q k : ℕ) : Prop where
  same : ∀ i < k, s.bytes (p + i) = s.bytes (q + i)
  nonzero : ∀ i < k, s.bytes (p + i) ≠ 0
  stop : s.bytes (p + k) ≠ s.bytes (q + k) ∨ s.bytes (p + k) = 0

/-- Strings in the lower half of the address space, whose pages up to the offset `k` may be
read through their own pointers. -/
structure StrcmpReads (s : Space) (first second : ℕ → Bool) (p q k : ℕ) : Prop
    extends EndsAt s p q k where
  left : ∀ a, OnPages pgsize p (k + 1) a → (s.narrow first).readable a = true
  right : ∀ a, OnPages pgsize q (k + 1) a → (s.narrow second).readable a = true
  left_lt : p + k < 2 ^ 63
  right_lt : q + k < 2 ^ 63

/-- Only pages with a byte of one of the strings up to its offset `k` may be read, and through
the pointer to a string only the pages of this string. -/
structure StrcmpArea (s : Space) (first second : ℕ → Bool) (p q k : ℕ) : Prop
    extends EndsAt s p q k where
  readable : ∀ a, s.readable a = true ↔
    OnPages pgsize p (k + 1) a ∨ OnPages pgsize q (k + 1) a
  left : ∀ a, first a = true ↔ OnPages pgsize p (k + 1) a
  right : ∀ a, second a = true ↔ OnPages pgsize q (k + 1) a
  left_lt : p + k < 2 ^ 63
  right_lt : q + k < 2 ^ 63

theorem StrcmpArea.reads (h : StrcmpArea s first second p q k) :
    StrcmpReads s first second p q k where
  toEndsAt := h.toEndsAt
  left := fun a ha => Bool.and_eq_true_iff.mpr ⟨(h.readable a).mpr (.inl ha), (h.left a).mpr ha⟩
  right := fun a ha => Bool.and_eq_true_iff.mpr ⟨(h.readable a).mpr (.inr ha), (h.right a).mpr ha⟩
  left_lt := h.left_lt
  right_lt := h.right_lt

theorem StrcmpArea.readsAll (h : StrcmpArea s first second p q k) :
    StrcmpReads s (fun _ => true) (fun _ => true) p q k where
  toEndsAt := h.toEndsAt
  left := fun a ha => Bool.and_eq_true_iff.mpr ⟨(h.readable a).mpr (.inl ha), rfl⟩
  right := fun a ha => Bool.and_eq_true_iff.mpr ⟨(h.readable a).mpr (.inr ha), rfl⟩
  left_lt := h.left_lt
  right_lt := h.right_lt

/-- The answer is the difference of the bytes at `k`. -/
def StrcmpDone (s : Space) (p q k r : ℕ) : Prop :=
  int32 r = (s.bytes (p + k)).toNat - (s.bytes (q + k)).toNat

/-- The null bytes among `n` bytes at the offset `o`. -/
def nullLanes (s : Space) (p w n o : ℕ) : Lanes := vpcmpeqb w vpxorSelf (s.lanes n (p + o))

/-- The comparison of `n` bytes at the offset `o`, in a register of `w` lanes. -/
def sameLanes (s : Space) (p q w n o : ℕ) : Lanes :=
  vpcmpeqb w (s.lanes n (q + o)) (s.lanes n (p + o))

theorem StrcmpReads.readable_block (h : StrcmpReads s first second p q k) (ho : o ≤ k)
    (hp : (p + o) % pgsize + n ≤ pgsize) (hq : (q + o) % pgsize + n ≤ pgsize) :
    (s.narrow first).Readable (p + o) n ∧ (s.narrow second).Readable (q + o) n := by
  simp only [pgsize] at hp hq
  exact ⟨fun i hi => h.left _ ⟨o, by omega, by simp only [pgsize]; omega⟩,
    fun i hi => h.right _ ⟨o, by omega, by simp only [pgsize]; omega⟩⟩

theorem nullLanes_at {i : ℕ} (hi : i < n) (hn : n ≤ w) :
    nullLanes s p w n o i = if s.bytes (p + (o + i)) = 0 then 0xff else 0 := by
  rw [nullLanes, vpcmpeqb, if_pos (by omega), lanes_of_lt hi, Nat.add_assoc]
  rfl

theorem sameLanes_at {i : ℕ} (hi : i < n) (hn : n ≤ w) : sameLanes s p q w n o i =
    if s.bytes (p + (o + i)) = s.bytes (q + (o + i)) then 0xff else 0 := by
  rw [sameLanes, vpcmpeqb, if_pos (by omega), lanes_of_lt hi, lanes_of_lt hi, Nat.add_assoc,
    Nat.add_assoc]

/-- The lanes behind the bytes are zero in both registers. -/
theorem sameLanes_behind {i : ℕ} (hi : n ≤ i) (hw : i < w) : sameLanes s p q w n o i = 0xff := by
  simp [sameLanes, vpcmpeqb, lanes, hw, show ¬ i < n by omega]

theorem allOnes_sameLanes (hn : n ≤ w) : AllOnes w (sameLanes s p q w n o) ↔
    ∀ i < n, s.bytes (p + (o + i)) = s.bytes (q + (o + i)) := by
  have hlane : ∀ i < n, (sameLanes s p q w n o i = 0xff ↔
      s.bytes (p + (o + i)) = s.bytes (q + (o + i))) := fun i hi => by
    rw [sameLanes_at hi hn]
    by_cases heq : s.bytes (p + (o + i)) = s.bytes (q + (o + i))
    · simp [heq]
    · simp [heq]
  constructor
  · exact fun h i hi => (hlane i hi).mp (h i (by omega))
  · intro h i hi
    by_cases hin : i < n
    · exact (hlane i hin).mpr (h i hin)
    · exact sameLanes_behind (by omega) hi

theorem allZero_nullLanes :
    AllZero n (nullLanes s p n n o) ↔ ∀ i < n, s.bytes (p + (o + i)) ≠ 0 := by
  refine forall₂_congr fun i hi => ?_
  rw [nullLanes_at hi (Nat.le_refl n)]
  by_cases h0 : s.bytes (p + (o + i)) = 0
  · simp [h0]
  · simp [h0]

/-! ### What a vector tells -/

/-- Whether the strings go on behind a vector. -/
theorem EndsAt.goes_on (h : EndsAt s p q k) (ho : o ≤ k) :
    ((∀ i < n, s.bytes (p + (o + i)) = s.bytes (q + (o + i))) ∧
      ∀ i < n, s.bytes (p + (o + i)) ≠ 0) ↔ o + n ≤ k := by
  constructor
  · rintro ⟨hsame, hnull⟩
    by_contra hin
    have hs := hsame (k - o) (by omega)
    have hn := hnull (k - o) (by omega)
    rw [show o + (k - o) = k by omega] at hs hn
    exact h.stop.elim (fun hd => hd hs) fun h0 => hn h0
  · exact fun hin => ⟨fun i hi => h.same _ (by omega), fun i hi => h.nonzero _ (by omega)⟩

theorem EndsAt.allOnes_both (h : EndsAt s p q k) (ho : o ≤ k) :
    AllOnes n (vpandn (sameLanes s p q n n o) (nullLanes s p n n o)) ↔ o + n ≤ k := by
  rw [allOnes_vpandn, allOnes_sameLanes (Nat.le_refl n), allZero_nullLanes, h.goes_on ho]

/-- The first different or null byte of a vector. -/
theorem EndsAt.tzcntl_both (h : EndsAt s p q k) (hn : n ≤ 32) (ho : o ≤ k) (hin : k < o + n) :
    tzcntl (notl (vpmovmskb n (vpandn (sameLanes s p q n n o) (nullLanes s p n n o)))) = k - o := by
  refine tzcntl_miss hn (by omega) ?_ fun j hj => ?_
  · rw [vpandn, sameLanes_at (by omega) (Nat.le_refl n), nullLanes_at (by omega) (Nat.le_refl n),
      show o + (k - o) = k by omega]
    rcases h.stop with hd | h0
    · rw [if_neg hd]
      simp
    · rw [if_pos h0]
      simp
  · rw [vpandn, sameLanes_at (by omega) (Nat.le_refl n), nullLanes_at (by omega) (Nat.le_refl n),
      if_pos (h.same _ (by omega)), if_neg (h.nonzero _ (by omega))]
    decide

/-- Without a difference in a vector that holds the end, the strings are equal. -/
theorem done_zero (ho : o ≤ k) (hin : k < o + n)
    (hsame : ∀ i < n, s.bytes (p + (o + i)) = s.bytes (q + (o + i))) : StrcmpDone s p q k 0 := by
  have heq := hsame (k - o) (by omega)
  rw [show o + (k - o) = k by omega] at heq
  rw [StrcmpDone, heq, sub_self]
  rfl

/-- Where `.Lpgxdiff` finds the difference, and the null byte. -/
theorem tzcntl_same (hn : n ≤ w) (hw : w ≤ 32)
    (hd : ¬ ∀ i < n, s.bytes (p + (o + i)) = s.bytes (q + (o + i))) :
    ∃ d < n, s.bytes (p + (o + d)) ≠ s.bytes (q + (o + d)) ∧
      (∀ i < d, s.bytes (p + (o + i)) = s.bytes (q + (o + i))) ∧
      tzcntl (notl (vpmovmskb ymm (sameLanes s p q w n o))) = d := by
  obtain ⟨d, hdn, hne, hlt⟩ := exists_first hd
  refine ⟨d, hdn, hne, hlt, tzcntl_miss (Nat.le_refl 32) (show d < 32 by omega) ?_
    fun j hj => ?_⟩
  · rw [sameLanes_at hdn hn, if_neg hne]
    decide
  · rw [sameLanes_at (by omega) hn, if_pos (hlt j hj)]
    decide

theorem tzcntl_null {d m : ℕ} (hn : n ≤ w) (hw : w ≤ m) (hm : m ≤ 32) (hd : d ≤ n) :
    tzcntl (vpmovmskb m (nullLanes s p w n o)) < d ↔ ∃ i < d, s.bytes (p + (o + i)) = 0 := by
  rw [tzcntl_lt (by omega)]
  refine exists_congr fun i => and_congr_right fun hi => ?_
  rw [testBit_vpmovmskb, nullLanes_at (by omega) hn]
  by_cases h0 : s.bytes (p + (o + i)) = 0
  · simp [h0, show i < m by omega]
  · simp [h0]

/-! ### Reading -/

theorem wp_within_movzxb {may : ℕ → Bool} {a : ℕ} {x : ℤ} (hx : x = a) (ha : a < 2 ^ 64)
    (hr : (s.narrow may).readable a = true) {Q : ℕ → Space → Prop} :
    wp (within may (movzxb (ea x))) Q s ↔ Q (s.bytes a).toNat s :=
  wp_within.trans (wp_movzxb hx ha hr)

/-- Reading and comparing the vectors at an offset. -/
theorem wp_compare {x y : ℤ} (hx : x = p + o) (hy : y = q + o) (hp : p + o < 2 ^ 64)
    (hq : q + o < 2 ^ 64)
    (hr : (s.narrow first).Readable (p + o) w ∧ (s.narrow second).Readable (q + o) w) {γ : Type}
    {f : Lanes → Lanes → Prog Space γ} {P : γ → Space → Prop}
    (hf : wp (f (s.lanes w (p + o)) (sameLanes s p q w w o)) P s) :
    wp (do
      let v ← within first (vmovdqu w (ea x))
      let u ← within second (vpcmpeqbMem w (ea y) v)
      f v u) P s := by
  rw [ea_eq (a := p + o) (by omega) (by omega), ea_eq (a := q + o) (by omega) (by omega)]
  simp only [vmovdqu, vpcmpeqbMem, wp_bind, wp_within, Space.wp_load hr.1]
  exact (Space.wp_load hr.2).mpr ((wp_pure _ _ _).mpr hf)

theorem wp_compareAligned {x y : ℤ} (hx : x = p + o) (hy : y = q + o) (hp : p + o < 2 ^ 64)
    (hq : q + o < 2 ^ 64) (hal : (p + o) % w = 0)
    (hr : (s.narrow first).Readable (p + o) w ∧ (s.narrow second).Readable (q + o) w) {γ : Type}
    {f : Lanes → Lanes → Prog Space γ} {P : γ → Space → Prop}
    (hf : wp (f (s.lanes w (p + o)) (sameLanes s p q w w o)) P s) :
    wp (do
      let v ← within first (vmovdqa w (ea x))
      let u ← within second (vpcmpeqbMem w (ea y) v)
      f v u) P s := by
  have hxo : ea x = p + o := ea_eq (by omega) (by omega)
  simp only [vmovdqa, hxo, hal, if_true]
  rw [← hxo]
  exact wp_compare hx hy hp hq hr hf

/-- The vectors of a block that stays on its pages. -/
theorem StrcmpReads.readable_vector (h : StrcmpReads s first second p q k) (ho : o ≤ k)
    (hp : (p + o) % pgsize + n ≤ pgsize) (hq : (q + o) % pgsize + n ≤ pgsize) {j : ℕ}
    (hj : j + 32 ≤ n) : (s.narrow first).Readable (p + (o + j)) 32 ∧
      (s.narrow second).Readable (q + (o + j)) 32 := by
  obtain ⟨hrp, hrq⟩ := h.readable_block ho hp hq
  exact ⟨hrp.mono (by omega) (by omega), hrq.mono (by omega) (by omega)⟩

theorem StrcmpReads.readable_byte (h : StrcmpReads s first second p q k) (ho : o ≤ k) :
    (s.narrow first).readable (p + o) = true ∧ (s.narrow second).readable (q + o) = true :=
  ⟨h.left _ ⟨o, by omega, rfl⟩, h.right _ ⟨o, by omega, rfl⟩⟩

/-- The difference of the bytes at the end. -/
theorem StrcmpReads.wp_diffBytes (h : StrcmpReads s first second p q k) (ho : o = k) :
    wp (diffBytes first second p q o) (fun r s' => StrcmpDone s p q k r ∧ s' = s) s := by
  subst ho
  have hleft := h.left_lt
  have hright := h.right_lt
  obtain ⟨hrp, hrq⟩ := h.readable_byte (Nat.le_refl o)
  rw [diffBytes, wp_bind, wp_within_movzxb (a := p + o) (by omega) (by omega) hrp, wp_bind,
    wp_within_movzxb (a := q + o) (by omega) (by omega) hrq, wp_pure]
  exact ⟨int32_subl _ _, rfl⟩

/-- The end of a step that has seen a difference. -/
theorem wp_pgxdiff (h : StrcmpReads s first second p q k) (ho : o ≤ k) (hn : n ≤ w)
    (hw : w ≤ 32) (hd : ¬ ∀ i < n, s.bytes (p + (o + i)) = s.bytes (q + (o + i))) :
    wp (pgxdiff first second p q o (sameLanes s p q w n o) (nullLanes s p w n o))
      (fun r s' => StrcmpDone s p q k r ∧ s' = s) s := by
  have hleft := h.left_lt
  obtain ⟨d, hdn, hne, hlt, hd⟩ := tzcntl_same hn hw hd
  have hrcx : ea (o + d) = o + d := ea_eq (by omega) (by omega)
  have hcmp : jb (cmpl d (tzcntl (vpmovmskb ymm (nullLanes s p w n o)))) =
      decide (tzcntl (vpmovmskb ymm (nullLanes s p w n o)) < d) := by
    have hle := tzcntl_le (vpmovmskb ymm (nullLanes s p w n o))
    rw [cmpl_eq (by omega) (by omega), jb_cmpq]
  simp only [pgxdiff, hd, hrcx, hcmp, decide_eq_true_eq, tzcntl_null hn hw (Nat.le_refl 32)
    (show d ≤ n by omega)]
  by_cases hnull : ∃ i < d, s.bytes (p + (o + i)) = 0
  · rw [if_pos hnull, wp_pure]
    obtain ⟨i, hi, h0⟩ := hnull
    -- the strings end at a null byte before the difference
    have hki : k ≤ o + i := by
      by_contra hlt'
      exact h.nonzero (o + i) (by omega) h0
    exact ⟨done_zero ho (by omega) hlt, rfl⟩
  · rw [if_neg hnull]
    refine h.wp_diffBytes ?_
    rcases Nat.lt_trichotomy (o + d) k with hbefore | heq | hbehind
    · exact absurd (h.same _ hbefore) hne
    · exact heq
    · have heq := hlt (k - o) (by omega)
      rw [show o + (k - o) = k by omega] at heq
      refine absurd ⟨k - o, by omega, ?_⟩ hnull
      rw [show o + (k - o) = k by omega]
      exact h.stop.resolve_left fun hd' => hd' heq

/-! ### The jump table -/

/-- The offset `o` is on the strings, and multiples of `n` are at it. -/
structure Joint (p q k n o : ℕ) : Prop where
  le : o ≤ k
  left : (p + o) % n = 0
  right : (q + o) % n = 0

/-- What holds at a label. -/
def StrcmpAt.Ready (p q k : ℕ) : StrcmpAt → Prop
  | .l32balign rcx => rcx + 32 ≤ k
  | .cmp128b rcx => rcx ≤ k ∧ (p + rcx) % 32 = 0
  | .pgxb rcx => Joint p q k 1 rcx
  | .pgxw rcx => Joint p q k 2 rcx
  | .pgxdw rcx => Joint p q k 4 rcx
  | .pgxqw rcx => Joint p q k 8 rcx
  | .pgxxw rcx => Joint p q k 16 rcx
  | .pgxyw rcx => Joint p q k 32 rcx
  | .pgxzw rcx => Joint p q k 64 rcx
  | .pgxalign rcx => Joint p q k 128 rcx

/-- The labels are passed in turn while the offset does not grow. -/
def StrcmpAt.left (k : ℕ) : StrcmpAt → ℕ
  | .l32balign rcx => 4 * (k - rcx) + 1
  | .cmp128b rcx => 4 * (k - rcx) + 3
  | .pgxb rcx => 4 * (k - rcx) + 2
  | .pgxw rcx => 4 * (k - rcx) + 2
  | .pgxdw rcx => 4 * (k - rcx) + 2
  | .pgxqw rcx => 4 * (k - rcx) + 2
  | .pgxxw rcx => 4 * (k - rcx) + 2
  | .pgxyw rcx => 4 * (k - rcx) + 2
  | .pgxzw rcx => 4 * (k - rcx) + 2
  | .pgxalign rcx => 4 * (k - rcx) + 2

/-- What a step leads to. -/
def StrcmpStep (s : Space) (p q k limit : ℕ) (r : StrcmpAt ⊕ ℕ) (s' : Space) : Prop :=
  s' = s ∧ Sum.elim (fun label => label.Ready p q k ∧ label.left k < limit) (StrcmpDone s p q k) r

theorem wp_jmpTable {j : ℕ} (hj : j ≤ 7) (h : Joint p q k (2 ^ j) o)
    (hl : 4 * (k - o) + 2 < limit) :
    wp (jmpTable j o) (StrcmpStep s p q k limit) s := by
  obtain rfl | rfl | rfl | rfl | rfl | rfl | rfl | rfl :
      j = 0 ∨ j = 1 ∨ j = 2 ∨ j = 3 ∨ j = 4 ∨ j = 5 ∨ j = 6 ∨ j = 7 := by omega
  all_goals exact (wp_pure _ _ _).mpr ⟨rfl, h, hl⟩

/-- The distance to a page boundary is as even as the position. -/
theorem mod_of_negl {x j : ℕ} (hj : j ≤ 7) (h : negl (subl pgsize x) % 2 ^ j = 0) :
    x % 2 ^ j = 0 := by
  simp only [negl, subl, leal, pgsize] at h
  obtain rfl | rfl | rfl | rfl | rfl | rfl | rfl | rfl :
      j = 0 ∨ j = 1 ∨ j = 2 ∨ j = 3 ∨ j = 4 ∨ j = 5 ∨ j = 6 ∨ j = 7 := by omega
  all_goals omega

/-- The jump leads to a step of the size that divides both addresses. -/
theorem wp_pgx {x : ℕ} (ho : o ≤ k) (hl : 4 * (k - o) + 2 < limit)
    (hx : ∀ j ≤ 7, x % 2 ^ j = 0 → (p + o) % 2 ^ j = 0 ∧ (q + o) % 2 ^ j = 0) :
    wp (pgx o x) (StrcmpStep s p q k limit) s := by
  have hle := tzcntl_le (negl (subl pgsize x))
  have hcmp : ja (cmpl 0x07 (tzcntl (negl (subl pgsize x)))) =
      decide (0x07 < tzcntl (negl (subl pgsize x))) := by
    rw [cmpl_eq (by omega) (by omega), ja_cmpq]
  simp only [pgx, hcmp, decide_eq_true_eq]
  have hjoint : ∀ j ≤ 7, j ≤ tzcntl (negl (subl pgsize x)) → Joint p q k (2 ^ j) o :=
    fun j hj hz => by
      obtain ⟨hleft, hright⟩ := hx j hj (mod_of_negl hj ((le_tzcntl (by omega)).mp hz))
      exact ⟨ho, hleft, hright⟩
  by_cases hclamp : 0x07 < tzcntl (negl (subl pgsize x))
  · rw [if_pos hclamp]
    exact wp_jmpTable (Nat.le_refl 7) (hjoint 7 (Nat.le_refl 7) (by omega)) hl
  · rw [if_neg hclamp]
    exact wp_jmpTable (by omega) (hjoint _ (by omega) (Nat.le_refl _)) hl

theorem StrcmpReads.wp_pgjmp (h : StrcmpReads s first second p q k) (ho : o ≤ k)
    (hl : 4 * (k - o) + 2 < limit) :
    wp (pgjmp p q o) (StrcmpStep s p q k limit) s := by
  have hleft := h.left_lt
  have hright := h.right_lt
  refine wp_pgx (x := orl (ea (q + o)) (ea (p + o))) ho hl fun j hj hmod => ?_
  rw [ea_eq (a := q + o) (by omega) (by omega), ea_eq (a := p + o) (by omega) (by omega),
    orl_mod (by omega)] at hmod
  exact ⟨hmod.2, hmod.1⟩

/-! ### The steps near a page boundary -/

theorem jnz_flagsOf_subl (a b : UInt8) :
    jnz (flagsOf (subl b.toNat a.toNat)) = decide (a ≠ b) := by
  by_cases heq : a = b
  · simp [jnz, flagsOf, heq, subl_self]
  · simp [jnz, flagsOf, heq, subl_ne_zero heq]

theorem StrcmpReads.wp_cmpBytes (h : StrcmpReads s first second p q k) {x y : ℤ}
    (hx : x = p + o) (hy : y = q + o)
    (ho : o ≤ k) {next : Prog Space (StrcmpAt ⊕ ℕ)}
    (hnext : o + 1 ≤ k → wp next (StrcmpStep s p q k limit) s) :
    wp (cmpBytes first second (ea x) (ea y) next) (StrcmpStep s p q k limit) s := by
  have hleft := h.left_lt
  have hright := h.right_lt
  obtain ⟨hrp, hrq⟩ := h.readable_byte ho
  rw [cmpBytes, wp_bind, wp_within_movzxb (a := p + o) (by omega) (by omega) hrp, wp_bind,
    wp_within_movzxb (a := q + o) (by omega) (by omega) hrq]
  simp only [jnz_flagsOf_subl, decide_eq_true_eq]
  -- the first different bytes are those at `k`
  by_cases hdiff : s.bytes (p + o) ≠ s.bytes (q + o)
  · rw [if_pos hdiff, wp_pure]
    obtain rfl : o = k := by
      by_contra hne
      exact hdiff (h.same o (by omega))
    exact ⟨rfl, int32_subl _ _⟩
  rw [if_neg hdiff]
  rw [not_not] at hdiff
  -- of equal bytes the difference is zero: the sum is the byte itself
  have hsum : jz (flagsOf (addl (s.bytes (q + o)).toNat (subl (s.bytes (q + o)).toNat
      (s.bytes (p + o)).toNat))) = decide (s.bytes (p + o) = 0) := by
    have hlt := (s.bytes (q + o)).toNat_lt
    have hadd : addl (s.bytes (q + o)).toNat 0 = (s.bytes (q + o)).toNat :=
      leal_eq (by omega) (by omega)
    rw [hdiff, subl_self, hadd]
    exact decide_eq_decide.mpr ⟨fun h0 => UInt8.toNat_inj.mp h0, fun h0 => by rw [h0]; rfl⟩
  simp only [hsum, decide_eq_true_eq]
  by_cases h0 : s.bytes (p + o) = 0
  · rw [if_pos h0, wp_pure]
    obtain rfl : o = k := by
      by_contra hne
      exact h.nonzero o (by omega) h0
    refine ⟨rfl, ?_⟩
    exact done_zero (n := 1) ho (by omega) fun i hi => by rwa [show o + i = o by omega]
  · rw [if_neg h0]
    refine hnext ?_
    by_contra hlast
    obtain rfl : o = k := by omega
    exact h.stop.elim (fun hd => hd hdiff) fun hz => h0 hz

theorem wp_pgxb (h : StrcmpReads s first second p q k) (ho : o ≤ k) (hl : 4 * (k - o) ≤ limit) :
    wp (pgxb first second p q o) (StrcmpStep s p q k limit) s := by
  have hleft := h.left_lt
  have hnext : ea (o + 0x01) = o + 1 := ea_eq (by omega) (by omega)
  refine h.wp_cmpBytes (o := o) (by omega) (by omega) ho fun hin => ?_
  rw [hnext]
  exact h.wp_pgjmp hin (by omega)

theorem wp_pgxw (h : StrcmpReads s first second p q k) (ho : o ≤ k) (hl : 4 * (k - o) ≤ limit) :
    wp (pgxw first second p q o) (StrcmpStep s p q k limit) s := by
  have hleft := h.left_lt
  have hnext : ea (o + 0x02) = o + 2 := ea_eq (by omega) (by omega)
  refine h.wp_cmpBytes (o := o) (by omega) (by omega) ho fun hin => ?_
  refine h.wp_cmpBytes (o := o + 1) (by omega) (by omega) hin fun hin' => ?_
  rw [hnext]
  exact h.wp_pgjmp hin' (by omega)

/-- An aligned block stays on its page. -/
theorem mod_add_le {a : ℕ} (hn : n ∣ pgsize) (ha : a % n = 0) : a % pgsize + n ≤ pgsize := by
  have hlt : a % pgsize < pgsize := Nat.mod_lt a (by decide)
  obtain ⟨i, hi⟩ : n ∣ a % pgsize := (Nat.dvd_mod_iff hn).mpr (Nat.dvd_of_mod_eq_zero ha)
  obtain ⟨j, hj⟩ := hn
  rw [hi, hj] at hlt ⊢
  calc n * i + n = n * (i + 1) := by rw [Nat.mul_succ]
    _ ≤ n * j := Nat.mul_le_mul_left n (Nat.lt_of_mul_lt_mul_left hlt)

theorem Joint.page (h : Joint p q k n o) (hn : n ∣ pgsize) :
    (p + o) % pgsize + n ≤ pgsize ∧ (q + o) % pgsize + n ≤ pgsize :=
  ⟨mod_add_le hn h.left, mod_add_le hn h.right⟩

theorem vpcmpeqb_comm (w : ℕ) (v u : Lanes) : vpcmpeqb w v u = vpcmpeqb w u v := by
  funext i
  simp only [vpcmpeqb, eq_comm]

/-- Four or eight bytes. -/
theorem wp_pgxShort (h : StrcmpReads s first second p q k) (hj : Joint p q k n o) (hn : n ∣ pgsize)
    (hn16 : n ≤ 16) (hn0 : 0 < n) (hl : 4 * (k - o) ≤ limit) :
    wp (pgxShort first second n (Space.load n) vpcmpeqbSelf vpxorSelf p q o)
      (StrcmpStep s p q k limit) s := by
  have hleft := h.left_lt
  have hright := h.right_lt
  have ho := hj.le
  obtain ⟨hpage, hpage'⟩ := hj.page hn
  obtain ⟨hrp, hrq⟩ := h.readable_block ho hpage hpage'
  have hrcx : ea (o + n) = o + n := ea_eq (by omega) (by omega)
  have hcmp : jb (cmpl n (tzcntl (vpmovmskb xmm (nullLanes s p 16 n o)))) =
      decide (tzcntl (vpmovmskb xmm (nullLanes s p 16 n o)) < n) := by
    have hle := tzcntl_le (vpmovmskb xmm (nullLanes s p 16 n o))
    rw [cmpl_eq (by omega) (by omega), jb_cmpq]
  have hlanes : vpcmpeqb xmm (s.lanes n (p + o)) (s.lanes n (q + o)) = sameLanes s p q 16 n o :=
    vpcmpeqb_comm _ _ _
  have hnull : vpcmpeqb xmm vpxorSelf (s.lanes n (p + o)) = nullLanes s p 16 n o := rfl
  rw [pgxShort, ea_eq (a := p + o) (by omega) (by omega), ea_eq (a := q + o) (by omega) (by omega),
    wp_bind, wp_within_load hrp, wp_bind, wp_within_load hrq]
  simp only [hlanes, hnull, hcmp, hrcx, jnc_vptest (show xmm ≤ ymm by decide),
    decide_eq_true_eq, tzcntl_null hn16 (Nat.le_refl 16) (show xmm ≤ 32 by decide) (Nat.le_refl n)]
  by_cases hsame : ∀ i < n, s.bytes (p + (o + i)) = s.bytes (q + (o + i))
  · -- all lanes are equal: the strings end in the block, or go on behind it
    have hall : AllOnes xmm (sameLanes s p q 16 n o) := (allOnes_sameLanes hn16).mpr hsame
    simp only [hall, decide_true, Bool.not_true, Bool.false_eq_true, if_false]
    by_cases hend : ∃ i < n, s.bytes (p + (o + i)) = 0
    · rw [if_pos hend, wp_pure]
      obtain ⟨i, hi, h0⟩ := hend
      have hki : k ≤ o + i := by
        by_contra hlt
        exact h.nonzero (o + i) (by omega) h0
      exact ⟨rfl, done_zero ho (by omega) hsame⟩
    · rw [if_neg hend]
      have hin : o + n ≤ k := (h.goes_on ho).mp ⟨hsame, fun i hi h0 => hend ⟨i, hi, h0⟩⟩
      exact h.wp_pgjmp hin (by omega)
  · have hall : ¬ AllOnes xmm (sameLanes s p q 16 n o) := fun hall =>
      hsame ((allOnes_sameLanes hn16).mp hall)
    simp only [hall, decide_false, Bool.not_false, if_true, wp_map]
    exact wp_mono (wp_pgxdiff h ho hn16 (by decide) hsame) fun r s' hr => ⟨hr.2, hr.1⟩

/-- The end of a step over a block of `n` bytes. -/
theorem StrcmpReads.wp_block (h : StrcmpReads s first second p q k) (ho : o ≤ k)
    {diff : Prog Space ℕ}
    {next : Prog Space (StrcmpAt ⊕ ℕ)}
    (hdiff : (¬ ∀ i < n, s.bytes (p + (o + i)) = s.bytes (q + (o + i))) → k < o + n →
      wp diff (fun r s' => StrcmpDone s p q k r ∧ s' = s) s)
    (hnext : o + n ≤ k → wp next (StrcmpStep s p q k limit) s) :
    wp (if ∀ i < n, s.bytes (p + (o + i)) = s.bytes (q + (o + i)) then
      if ∀ i < n, s.bytes (p + (o + i)) ≠ 0 then next else pure (.inr 0) else .inr <$> diff)
      (StrcmpStep s p q k limit) s := by
  by_cases hsame : ∀ i < n, s.bytes (p + (o + i)) = s.bytes (q + (o + i))
  · rw [if_pos hsame]
    by_cases hend : ∀ i < n, s.bytes (p + (o + i)) ≠ 0
    · rw [if_pos hend]
      exact hnext ((h.goes_on ho).mp ⟨hsame, hend⟩)
    · have hin : ¬ o + n ≤ k := fun hin => hend ((h.goes_on ho).mpr hin).2
      rw [if_neg hend, wp_pure]
      exact ⟨rfl, done_zero ho (by omega) hsame⟩
  · have hin : ¬ o + n ≤ k := fun hin => hsame ((h.goes_on ho).mpr hin).1
    rw [if_neg hsame, wp_map]
    exact wp_mono (hdiff hsame (by omega)) fun r s' hr => ⟨hr.2, hr.1⟩

/-- A vector. -/
theorem wp_pgxVector (h : StrcmpReads s first second p q k) (hj : Joint p q k w o) (hw : w ∣ pgsize)
    (hw32 : w ≤ 32) (hw0 : 0 < w) (hl : 4 * (k - o) ≤ limit) :
    wp (pgxVector first second w vpcmpeqbSelf vpxorSelf p q o) (StrcmpStep s p q k limit) s := by
  have hleft := h.left_lt
  have hright := h.right_lt
  have ho := hj.le
  obtain ⟨hpage, hpage'⟩ := hj.page hw
  refine wp_compare (o := o) (by omega) (by omega) (by omega) (by omega)
    (h.readable_block ho hpage hpage') ?_
  have hnull : vpcmpeqb w vpxorSelf (s.lanes w (p + o)) = nullLanes s p w w o := rfl
  have hrcx : ea (o + w) = o + w := ea_eq (by omega) (by omega)
  simp only [hnull, hrcx, jnc_vptest (show w ≤ ymm from hw32), jnz_vptest, Bool.not_eq_true',
    decide_eq_false_iff_not, ite_not, allOnes_sameLanes (Nat.le_refl w), allZero_nullLanes]
  refine h.wp_block ho (fun hsame _ => wp_pgxdiff h ho (Nat.le_refl w) hw32 hsame) fun hin => ?_
  exact h.wp_pgjmp hin (by omega)

/-! ### Blocks of vectors -/

/-- `vs` are the masks of the vectors from the offset `o` on. -/
def Masks (s : Space) (p q : ℕ) : ℕ → List Lanes → Prop
  | _, [] => True
  | o, v :: vs => v = vpandn (sameLanes s p q 32 32 o) (nullLanes s p 32 32 o) ∧
      Masks s p q (o + 32) vs

attribute [grind =] Masks

/-- The first vector found is the one with the end of the strings. -/
theorem EndsAt.findIdx (h : EndsAt s p q k) (vs : List Lanes) {o : ℕ} (hvs : Masks s p q o vs)
    (ho : o ≤ k) (hin : k < o + 32 * (vs.length + 1)) :
    o + 32 * vs.findIdx (fun v => jnc (vptest 32 vpcmpeqbSelf v)) ≤ k ∧
      k < o + 32 * vs.findIdx (fun v => jnc (vptest 32 vpcmpeqbSelf v)) + 32 := by
  induction vs generalizing o with
  | nil =>
    rw [List.findIdx_nil]
    rw [List.length_nil] at hin
    omega
  | cons v vs ih =>
    obtain ⟨rfl, hvs⟩ := hvs
    rw [List.length_cons] at hin
    rw [List.findIdx_cons, jnc_vptest (Nat.le_refl 32)]
    -- the end is behind this vector, or in it
    by_cases hgo : o + 32 ≤ k
    · have hall := (h.allOnes_both (n := 32) ho).mpr hgo
      have hrest := ih hvs hgo (by omega)
      simp only [hall, decide_true, Bool.not_true, cond_false]
      omega
    · have hall := mt (h.allOnes_both (n := 32) ho).mp hgo
      simp only [hall, decide_false, Bool.not_false, cond_true]
      omega

/-- The end of a block of vectors that has seen a difference. -/
theorem StrcmpReads.wp_diffYmmword (h : StrcmpReads s first second p q k) {vs : List Lanes}
    (hvs : Masks s p q o vs) (hlen : n ≤ 32 * (vs.length + 1)) (hn : n % 32 = 0)
    (h3 : vs.length ≤ 3) (ho : o ≤ k) (hin : k < o + n) (hal : (p + o) % 32 = 0)
    (hq : (q + o) % pgsize + n ≤ pgsize) :
    wp (diffYmmword first second vpxorSelf p q (vs.foldl (dmask vpcmpeqbSelf) (o, 0x20)).1)
      (fun r s' => StrcmpDone s p q k r ∧ s' = s) s := by
  have hleft := h.left_lt
  have hright := h.right_lt
  have hidx : vs.findIdx (fun v => jnc (vptest 32 vpcmpeqbSelf v)) ≤ vs.length :=
    List.findIdx_le_length
  obtain ⟨hle, hlt⟩ := h.findIdx vs hvs ho (by omega)
  rw [dmask, search_fold vs (by omega)]
  simp only [pgsize] at hq
  simp only [ymm]
  generalize vs.findIdx (fun v => jnc (vptest 32 vpcmpeqbSelf v)) = j at *
  refine wp_compareAligned (o := o + 32 * j) (w := 32) (by omega) (by omega) (by omega) (by omega)
    (by omega) (h.readable_block hle (by simp only [pgsize]; omega)
    (by simp only [pgsize]; omega)) ?_
  have hnull : vpcmpeqb ymm vpxorSelf (s.lanes 32 (p + (o + 32 * j))) =
    nullLanes s p 32 32 (o + 32 * j) := rfl
  have hrcx : ea ((o + 32 * j : ℕ) + (k - (o + 32 * j) : ℕ)) = k := ea_eq (by omega) (by omega)
  simp only [hnull, ymm, h.tzcntl_both (Nat.le_refl 32) hle hlt, hrcx]
  exact h.wp_diffBytes rfl

/-- What holds of two parts holds of the whole block. -/
theorem forall_block {P : ℕ → Prop} {m : ℕ} :
    ((∀ i < n, P (o + i)) ∧ ∀ i < m, P (o + n + i)) ↔ ∀ i < n + m, P (o + i) := by
  constructor
  · rintro ⟨hn, hm⟩ i hi
    by_cases hin : i < n
    · exact hn i hin
    · have hmi := hm (i - n) (by omega)
      rwa [show o + n + (i - n) = o + i by omega] at hmi
  · refine fun h => ⟨fun i hi => h i (by omega), fun i hi => ?_⟩
    rw [Nat.add_assoc]
    exact h (n + i) (by omega)

theorem forall_four {P : ℕ → Prop} :
    (((∀ i < 32, P (o + i)) ∧ ∀ i < 32, P (o + 32 + i)) ∧
      (∀ i < 32, P (o + 64 + i)) ∧ ∀ i < 32, P (o + 96 + i)) ↔ ∀ i < 128, P (o + i) := by
  have hleft := forall_block (P := P) (o := o) (n := 32) (m := 32)
  have hright : ((∀ i < 32, P (o + 64 + i)) ∧ ∀ i < 32, P (o + 96 + i)) ↔
      ∀ i < 64, P (o + 64 + i) := forall_block (n := 32) (m := 32)
  rw [hleft, hright]
  exact forall_block (n := 64) (m := 64)

theorem wp_pgxzw (h : StrcmpReads s first second p q k) (hj : Joint p q k 64 o)
    (hl : 4 * (k - o) ≤ limit) :
    wp (pgxzw first second vpcmpeqbSelf vpxorSelf p q o) (StrcmpStep s p q k limit) s := by
  have hleft := h.left_lt
  have hright := h.right_lt
  have ho := hj.le
  obtain ⟨hpage, hpage'⟩ := hj.page (by decide)
  have hal := hj.left
  have hrcx : ea (o + 0x40) = o + 64 := ea_eq (by omega) (by omega)
  refine wp_compare (o := o) (by omega) (by omega) (by omega) (by omega)
    (h.readable_vector (j := 0) ho hpage hpage' (by decide)) ?_
  refine wp_compare (o := o + 32) (by omega) (by omega) (by omega) (by omega)
    (h.readable_vector ho hpage hpage' (by decide)) ?_
  have hnull : ∀ o, vpcmpeqb ymm vpxorSelf (s.lanes ymm (p + o)) = nullLanes s p 32 32 o :=
    fun _ => rfl
  have hsame := forall_block (P := fun j => s.bytes (p + j) = s.bytes (q + j)) (o := o) (n := 32)
    (m := 32)
  have hend := forall_block (P := fun j => s.bytes (p + j) ≠ 0) (o := o) (n := 32) (m := 32)
  simp only [hnull, hrcx, jnc_vptest (Nat.le_refl ymm), jnz_vptest, Bool.not_eq_true',
    decide_eq_false_iff_not, ite_not, allOnes_vpand, allZero_vpor,
    allOnes_sameLanes (Nat.le_refl 32), allZero_nullLanes, hsame, hend]
  refine h.wp_block (n := 64) ho (fun _ hin => ?_) fun hin => h.wp_pgjmp hin (by omega)
  exact h.wp_diffYmmword (n := 64) ⟨rfl, rfl, trivial⟩ (by simp) (by decide) (by simp) ho hin
    (by omega) hpage'

theorem wp_pgxalign (h : StrcmpReads s first second p q k) (hj : Joint p q k 128 o)
    (hl : 4 * (k - o) + 1 < limit) :
    wp (pgxalign first second vpcmpeqbSelf vpxorSelf p q o) (StrcmpStep s p q k limit) s := by
  have hleft := h.left_lt
  have hright := h.right_lt
  have ho := hj.le
  obtain ⟨hpage, hpage'⟩ := hj.page (by decide)
  refine wp_compare (o := o) (by omega) (by omega) (by omega) (by omega)
    (h.readable_vector (j := 0) ho hpage hpage' (by decide)) ?_
  have hnull : vpcmpeqb ymm vpxorSelf (s.lanes ymm (p + o)) = nullLanes s p 32 32 o := rfl
  simp only [hnull, jc_vptest (Nat.le_refl ymm), decide_eq_true_eq, h.allOnes_both ho]
  by_cases hgo : o + 32 ≤ k
  · rw [if_pos hgo, wp_pure]
    exact ⟨rfl, hgo, hl⟩
  · have hrcx : ea (o + (k - o : ℕ)) = k := ea_eq (by omega) (by omega)
    rw [if_neg hgo, h.tzcntl_both (Nat.le_refl 32) ho (by omega), hrcx, wp_map]
    exact wp_mono (h.wp_diffBytes rfl) fun r s' hr => ⟨hr.2, hr.1⟩

/-! ### The other labels -/

theorem wp_l32balign (h : StrcmpReads s first second p q k) (ho : o + 32 ≤ k)
    (hl : 4 * (k - o) < limit) :
    wp (l32balign p o) (StrcmpStep s p q k limit) s := by
  have hleft := h.left_lt
  have hrcx : subq p (andq (imm (-0x20)) (ea (p + o + 0x20))) = (p + o + 32) / 32 * 32 - p := by
    rw [ea_eq (a := p + o + 32) (by omega) (by omega), andq_align (by omega),
      subq_eq (by omega) (by omega)]
  simp only [l32balign, hrcx, wp_pure]
  refine ⟨rfl, ⟨by omega, by omega⟩, ?_⟩
  show 4 * (k - ((p + o + 32) / 32 * 32 - p)) + 3 < limit
  omega

theorem wp_cmp128b (h : StrcmpReads s first second p q k) (ho : o ≤ k) (hal : (p + o) % 32 = 0)
    (hl : 4 * (k - o) + 2 < limit) :
    wp (cmp128b first second vpcmpeqbSelf vpxorSelf p q o) (StrcmpStep s p q k limit) s := by
  have hleft := h.left_lt
  have hright := h.right_lt
  have hpo : ea (p + o) = p + o := ea_eq (by omega) (by omega)
  have hqo : ea (q + o) = q + o := ea_eq (by omega) (by omega)
  have hcmp : ja (cmpl (pgsize - 0x80) (andl (pgsize - 1) (orl (ea (q + o)) (ea (p + o))))) =
      decide (pgsize - 0x80 < orl (q + o) (p + o) % pgsize) := by
    rw [hpo, hqo, andl_page, cmpl_eq (by decide) (by simp only [pgsize]; omega),
      ja_cmpq]
  simp only [cmp128b, hcmp, decide_eq_true_eq]
  -- near the end of a page the jump leads to a step of a smaller size
  by_cases hnear : pgsize - 0x80 < orl (q + o) (p + o) % pgsize
  · rw [if_pos hnear, hpo, hqo, andl_page]
    refine wp_pgx ho hl fun j hj hmod => ?_
    rw [Nat.mod_mod_of_dvd _ (show 2 ^ j ∣ pgsize from
      (Nat.pow_dvd_pow 2 (show j ≤ 12 by omega))), orl_mod (by omega)] at hmod
    exact ⟨hmod.2, hmod.1⟩
  rw [if_neg hnear]
  -- both blocks stay on their pages, as their offsets are at most those of the disjunction
  obtain ⟨hor, hor'⟩ := @orl_page (q + o) (p + o)
  have hpage : (p + o) % pgsize + 128 ≤ pgsize := by
    simp only [pgsize] at *
    omega
  have hpage' : (q + o) % pgsize + 128 ≤ pgsize := by
    simp only [pgsize] at *
    omega
  refine wp_compareAligned (o := o) (by omega) (by omega) (by omega) (by omega) hal
    (h.readable_vector (j := 0) ho hpage hpage' (by decide)) ?_
  refine wp_compareAligned (o := o + 32) (by omega) (by omega) (by omega) (by omega)
    (show (p + (o + 32)) % 32 = 0 by omega) (h.readable_vector ho hpage hpage' (by decide)) ?_
  refine wp_compareAligned (o := o + 64) (by omega) (by omega) (by omega) (by omega)
    (show (p + (o + 64)) % 32 = 0 by omega) (h.readable_vector ho hpage hpage' (by decide)) ?_
  refine wp_compareAligned (o := o + 96) (by omega) (by omega) (by omega) (by omega)
    (show (p + (o + 96)) % 32 = 0 by omega) (h.readable_vector ho hpage hpage' (by decide)) ?_
  have hnull : ∀ o, vpcmpeqb ymm vpxorSelf (s.lanes ymm (p + o)) = nullLanes s p 32 32 o :=
    fun _ => rfl
  have hrcx : ea (o + 0x80) = o + 128 := ea_eq (by omega) (by omega)
  have hsame := forall_four (P := fun j => s.bytes (p + j) = s.bytes (q + j)) (o := o)
  have hend := forall_four (P := fun j => s.bytes (p + j) ≠ 0) (o := o)
  simp only [hnull, hrcx, jnc_vptest (Nat.le_refl ymm), jz_vptest, Bool.not_eq_true',
    decide_eq_false_iff_not, ite_not, allOnes_vpand, allZero_vpor,
    allOnes_sameLanes (Nat.le_refl 32), decide_eq_true_eq, allZero_nullLanes, hsame, hend]
  refine h.wp_block (n := 128) ho (fun _ hin => ?_) fun hin => ?_
  · exact h.wp_diffYmmword (n := 128) ⟨rfl, rfl, rfl, trivial⟩ (by simp) (by decide) (by simp) ho
      hin hal hpage'
  · rw [wp_pure]
    refine ⟨rfl, ⟨hin, by omega⟩, ?_⟩
    show 4 * (k - (o + 128)) + 3 < limit
    omega

/-- The code before the first label. -/
theorem wp_strcmpEntry (h : StrcmpReads s first second p q k) :
    wp (strcmpEntry first second vpcmpeqbSelf vpxorSelf p q)
      (StrcmpStep s p q k (4 * k + 3)) s := by
  have hleft := h.left_lt
  have hright := h.right_lt
  have hlow : orl q (low32 p) = orl q p := by
    rw [orl, orl, low32_eq (a := low32 p) (Nat.mod_lt p (by decide))]
  have hcmp : ja (cmpl (pgsize - 0x20) (andl (pgsize - 0x01) (orl q (low32 p)))) =
      decide (pgsize - 0x20 < orl q p % pgsize) := by
    rw [hlow, andl_page, cmpl_eq (by decide) (by simp only [pgsize]; omega),
      ja_cmpq]
  simp only [strcmpEntry, hcmp, decide_eq_true_eq]
  -- as in `cmp128b`, with the first vector at the addresses themselves
  by_cases hnear : pgsize - 0x20 < orl q p % pgsize
  · rw [if_pos hnear, hlow, andl_page]
    refine wp_pgx (Nat.zero_le k) (by omega) fun j hj hmod => ?_
    rw [Nat.mod_mod_of_dvd _ (show 2 ^ j ∣ pgsize from
      (Nat.pow_dvd_pow 2 (show j ≤ 12 by omega))), orl_mod (by omega)] at hmod
    exact ⟨hmod.2, hmod.1⟩
  rw [if_neg hnear]
  obtain ⟨hor, hor'⟩ := @orl_page q p
  refine wp_compare (o := 0) (by omega) (by omega) (by omega) (by omega)
    (h.readable_block (n := 32) (Nat.zero_le k) (by simp only [pgsize] at *; omega)
    (by simp only [pgsize] at *; omega)) ?_
  have hnull : vpcmpeqb ymm vpxorSelf (s.lanes ymm (p + 0)) = nullLanes s p 32 32 0 := rfl
  simp only [hnull, jc_vptest (Nat.le_refl ymm), decide_eq_true_eq, h.allOnes_both (Nat.zero_le k)]
  by_cases hgo : 0 + 32 ≤ k
  · rw [if_pos hgo, wp_pure]
    exact ⟨rfl, hgo, show 4 * (k - 0) + 1 < 4 * k + 3 by omega⟩
  · rw [if_neg hgo, h.tzcntl_both (Nat.le_refl 32) (Nat.zero_le k) (by omega), wp_map]
    exact wp_mono (h.wp_diffBytes (Nat.sub_zero k)) fun r s' hr => ⟨hr.2, hr.1⟩

/-! ### The whole comparison -/

/-- Each step leads to the answer or to a label where what must hold holds. -/
theorem wp_strcmpStep (h : StrcmpReads s first second p q k) {label : StrcmpAt}
    (hl : label.Ready p q k) :
    wp (strcmpStep first second vpcmpeqbSelf vpxorSelf p q label)
      (StrcmpStep s p q k (label.left k)) s := by
  cases label with
  | l32balign rcx => exact wp_l32balign h hl (Nat.lt_succ_self _)
  | cmp128b rcx => exact wp_cmp128b h hl.1 hl.2 (Nat.lt_succ_self _)
  | pgxb rcx => exact wp_pgxb h hl.le (Nat.le_add_right _ _)
  | pgxw rcx => exact wp_pgxw h hl.le (Nat.le_add_right _ _)
  | pgxdw rcx =>
    exact wp_pgxShort h hl (by decide) (by decide) (by decide) (Nat.le_add_right _ _)
  | pgxqw rcx =>
    exact wp_pgxShort h hl (by decide) (by decide) (by decide) (Nat.le_add_right _ _)
  | pgxxw rcx =>
    exact wp_pgxVector h hl (by decide) (by decide) (by decide) (Nat.le_add_right _ _)
  | pgxyw rcx =>
    exact wp_pgxVector h hl (by decide) (by decide) (by decide) (Nat.le_add_right _ _)
  | pgxzw rcx => exact wp_pgxzw h hl (Nat.le_add_right _ _)
  | pgxalign rcx => exact wp_pgxalign h hl (Nat.lt_succ_self _)

/-- From each label the end of the strings is found. -/
theorem total_strcmpLoop (h : StrcmpReads s first second p q k) {label : StrcmpAt}
    (hl : label.Ready p q k) :
    Total (fun fuel => fuelLoop (strcmpStep first second vpcmpeqbSelf vpxorSelf p q) fuel label)
      (fun r s' => StrcmpDone s p q k r ∧ s' = s) s := by
  -- the measure of the labels falls with each step
  refine total_loop (f := fun _ => strcmpStep first second vpcmpeqbSelf vpxorSelf p q)
    (I := fun left label s' => left = label.left k ∧ s' = s ∧ label.Ready p q k) ?_
    (label.left k) label s ⟨rfl, rfl, hl⟩
  rintro left label s' ⟨rfl, rfl, hl⟩
  refine (Total.const (wp_strcmpStep h hl)).mono ?_
  rintro (label' | r) s'' ⟨rfl, hr⟩
  · exact ⟨_, hr.2, rfl, rfl, hr.1⟩
  · exact ⟨hr, rfl⟩

theorem total_strcmpFrom (h : StrcmpReads s first second p q k) :
    Total (strcmpFrom first second p q) (fun r s' => StrcmpDone s p q k r ∧ s' = s) s := by
  refine Total.wp_bind (wp_mono (wp_strcmpEntry h) ?_)
  rintro (label | r) s' ⟨rfl, hr⟩
  · exact total_strcmpLoop h hr.1
  · exact Total.const ((wp_pure _ _ _).mpr ⟨hr, rfl⟩)

variable {m r : ℕ}

/-- What a comparison of strings of the lengths `m` and `n` promises. -/
structure StrcmpContract (s : Space) (p q m n r : ℕ) : Prop where
  zero_iff : int32 r = 0 ↔ m = n ∧ ∀ i < m, s.bytes (p + i) = s.bytes (q + i)
  differ : ∀ k, k ≤ m → k ≤ n → DifferAt s p q k →
    int32 r = (s.bytes (p + k)).toNat - (s.bytes (q + k)).toNat

theorem StrcmpDone.contract (h : StrcmpDone s p q k r) (hk : EndsAt s p q k)
    (hp : StringIn s p m) (hq : StringIn s q n) : StrcmpContract s p q m n r := by
  -- the end is not behind a terminator
  have hkm : k ≤ m := by
    by_contra hlt
    exact hk.nonzero m (by omega) hp.terminator
  have hkn : k ≤ n := by
    by_contra hlt
    exact hk.nonzero n (by omega) ((hk.same n (by omega)).trans hq.terminator)
  refine ⟨?_, fun j hjm hjn hd => ?_⟩
  · constructor
    · intro h0
      have heq : s.bytes (p + k) = s.bytes (q + k) := by
        rw [StrcmpDone, h0] at h
        exact UInt8.toNat_inj.mp (by omega)
      have hz := hk.stop.resolve_left fun hd => hd heq
      obtain rfl : k = m := by
        by_contra hne
        exact hp.nonzero k (by omega) hz
      obtain rfl : k = n := by
        by_contra hne
        exact hq.nonzero k (by omega) (heq.symm.trans hz)
      exact ⟨rfl, hk.same⟩
    · rintro ⟨rfl, hall⟩
      have heq : s.bytes (p + k) = s.bytes (q + k) := by
        by_cases hlast : k = m
        · rw [hlast, hp.terminator, hq.terminator]
        · exact hall k (by omega)
      rw [StrcmpDone, heq, sub_self] at h
      exact h
  · obtain rfl : j = k := by
      rcases Nat.lt_trichotomy j k with hlt | heq | hgt
      · exact absurd (hk.same j hlt) hd.differ
      · exact heq
      · -- the strings end before they differ at `j`
        have hz := hk.stop.resolve_left fun hne => hne (hd.agree k hgt)
        exact absurd hz (hp.nonzero k (by omega))
    exact h

/-- `cldm_avx2_strcmp` returns zero just for equal strings and else the difference of the
first different bytes, and reads only pages with a byte of the strings up to there; it does
so as well when through the pointer to each string only this string's pages can be read. -/
theorem avx2_strcmp_correct (hp : StringIn s p m) (hq : StringIn s q n)
    (h : StrcmpArea s first second p q k) :
    Total (avx2Strcmp p q) (fun r s' => StrcmpContract s p q m n r ∧ s' = s) s ∧
    Total (strcmpFrom first second p q) (fun r s' => StrcmpContract s p q m n r ∧ s' = s) s := by
  refine ⟨(total_strcmpFrom h.readsAll).mono ?_, (total_strcmpFrom h.reads).mono ?_⟩
  · rintro r s' ⟨hr, rfl⟩
    exact ⟨hr.contract h.toEndsAt hp hq, rfl⟩
  · rintro r s' ⟨hr, rfl⟩
    exact ⟨hr.contract h.toEndsAt hp hq, rfl⟩

/-- The strings "a", at the end of a page, and "b". -/
def aAndB : Space where
  bytes := fun a => if a = 0x1fff then 97 else if a = 0x3000 then 98 else 0
  readable := fun a => a / pgsize = 1 ∨ a / pgsize = 3
  writable := fun _ => false

/-- Only the pages of the first bytes are read, each through its own pointer. -/
theorem avx2_strcmp_correct_a_b :
    Total (avx2Strcmp 0x1fff 0x3000)
      (fun r s' => StrcmpContract aAndB 0x1fff 0x3000 1 1 r ∧ s' = aAndB) aAndB ∧
    Total (strcmpFrom (fun a => a / pgsize = 1) (fun a => a / pgsize = 3) 0x1fff 0x3000)
      (fun r s' => StrcmpContract aAndB 0x1fff 0x3000 1 1 r ∧ s' = aAndB) aAndB := by
  have hbyte : ∀ i < 1, i = 0 := fun i hi => by omega
  have ha : StringIn aAndB 0x1fff 1 := ⟨rfl, fun i hi => by rw [hbyte i hi]; decide⟩
  have hb : StringIn aAndB 0x3000 1 := ⟨rfl, fun i hi => by rw [hbyte i hi]; decide⟩
  have hpage : ∀ p a, OnPages pgsize p (0 + 1) a ↔ a / pgsize = p / pgsize := fun p a =>
    ⟨fun ⟨i, hi, heq⟩ => by rwa [hbyte i hi] at heq, fun heq => ⟨0, Nat.one_pos, heq⟩⟩
  have harea : StrcmpArea aAndB (fun a => a / pgsize = 1) (fun a => a / pgsize = 3)
      0x1fff 0x3000 0 := by
    refine ⟨⟨fun i hi => absurd hi (by omega), fun i hi => absurd hi (by omega),
      .inl (by decide)⟩, fun a => ?_, fun a => ?_, fun a => ?_, by decide, by decide⟩
    · rw [hpage, hpage]
      exact decide_eq_true_iff
    · rw [hpage]
      exact decide_eq_true_iff
    · rw [hpage]
      exact decide_eq_true_iff
  exact avx2_strcmp_correct ha hb harea

end Cldm
