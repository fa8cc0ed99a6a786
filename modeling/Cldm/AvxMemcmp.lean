/-
The AVX2 comparison of memory areas.

`avx2Memcmp` is `cldm_avx2_memcmp`, with a definition for each label of the assembly
source.

A comparison proceeds from the start: at each label the first bytes of the two areas
agree (`Agree`) up to where the next vectors begin.  A block that shows a difference
is searched for the first vector with one (`cmask`), and that vector for the first
byte.

* `avx2_memcmp_correct` — for areas of every length at every address, the answer is
  the difference of the first different bytes, and zero if there is none; no byte
  outside the two areas is read.
-/
import Cldm.Avx2

namespace Cldm

open Prog Space Avx2

/-! ### The routine -/

/-- `.Lc1b`, once around -/
def c1bBody (rdi rsi r8 rdx : ℕ) : Prog Space (ℕ ⊕ ℕ) := do
  let rax ← movzxb (ea (rdi + rdx))
  let rcx ← movzxb (ea (rsi + rdx))
  let rax := subl rcx rax
  let rdx := if jnz (flagsOf rax) then r8 else rdx
  let rdx := addq 1 rdx
  if jnz (flagsOf rdx) then return .inl rdx else return .inr rax

/-- `.Lc8b` -/
def c8b (rdi rsi rdx r8 fuel : ℕ) : Prog Space ℕ :=
  let fl := cmpl r8 rdx
  if je fl then return 0 else
  let rdi := ea (rdi + rdx)
  let rsi := ea (rsi + rdx)
  let rdx := negq rdx
  let r8 := imm (-1)
  fuelLoop (c1bBody rdi rsi r8) fuel rdx

/-- `.Lc16b` -/
def c16b (ymm0 : Lanes) (rdi rsi rdx fuel : ℕ) : Prog Space ℕ :=
  let r8 := 0
  let fl := cmpl 0x10 rdx
  if jb fl then c8b rdi rsi rdx r8 fuel else do
  let xmm1 ← vmovdqu xmm (ea rdi)
  let xmm2 ← vpcmpeqbMem xmm (ea rsi) xmm1
  let r8 := leal (r8 + 0x10)
  let fl := vptest xmm ymm0 xmm2
  if jc fl then c8b rdi rsi rdx r8 fuel else do
  let rcx := vpmovmskb xmm xmm2
  let rcx := notl rcx
  let r8 := tzcntl rcx
  let rax ← movzxb (ea (rdi + r8))
  let rcx ← movzxb (ea (rsi + r8))
  return subl rcx rax

/-- `.Lc32bdiff_unaligned` -/
def c32bdiffUnaligned (rdi rsi : ℕ) (ymm2 : Lanes) : Prog Space ℕ := do
  let rcx := vpmovmskb ymm ymm2
  let rcx := notl rcx
  let rdx := tzcntl rcx
  let rax ← movzxb (ea (rdi + rdx))
  let rcx ← movzxb (ea (rsi + rdx))
  return subl rcx rax

/-- `.Lc32b_unaligned` -/
def c32bUnaligned (ymm0 : Lanes) (rdi rsi : ℕ) : Prog Space ℕ := do
  let ymm1 ← vmovdqu ymm (ea rdi)
  let ymm2 ← vpcmpeqbMem ymm (ea rsi) ymm1
  let fl := vptest ymm ymm0 ymm2
  if jnc fl then c32bdiffUnaligned rdi rsi ymm2 else
  return 0

/-- `.Lc32bdiff` -/
def c32bdiff (rdi rsi rcx : ℕ) (ymm2 : Lanes) : Prog Space ℕ := do
  let r8 := vpmovmskb ymm ymm2
  let r8 := notl r8
  let rdx := tzcntl r8
  let rcx := ea (rcx + rdx - 0x20)
  let rax ← movzxb (ea (rdi + rcx))
  let rdx ← movzxb (ea (rsi + rcx))
  return subl rdx rax

/-- The macro `cmask` -/
def cmask (ymm0 : Lanes) : ℕ × ℕ → Lanes → ℕ × ℕ :=
  Avx2.search fun ymmword => jnc (vptest ymm ymm0 ymmword)

/-- The macro `rvcomp` -/
def rvcomp (rdi rsi rcx : ℕ) : Prog Space ℕ := do
  let ymm1 ← vmovdqa ymm (ea (rdi + rcx))
  let ymm2 ← vpcmpeqbMem ymm (ea (rsi + rcx)) ymm1
  let r8 := vpmovmskb ymm ymm2
  let r8 := notl r8
  let rdx := tzcntl r8
  let rcx := ea (rcx + rdx)
  let rax ← movzxb (ea (rdi + rcx))
  let rdx ← movzxb (ea (rsi + rcx))
  return subl rdx rax

/-- `.Lc256bdiff`, `.Lc128bdiff` and `.Lc64bdiff`: a block of `offset` bytes, of whose
vectors but the last one `ymmwords` are the comparisons. -/
def blockDiff (ymm0 : Lanes) (rdi rsi rcx offset : ℕ) (ymmwords : List Lanes) : Prog Space ℕ :=
  let rcx := subq offset rcx
  let r8 := 0x20
  rvcomp rdi rsi (ymmwords.foldl (cmask ymm0) (rcx, r8)).1

/-- `.Lclast32b` -/
def clast32b (ymm0 : Lanes) (rdi rsi rdx : ℕ) : Prog Space ℕ := do
  let ymm1 ← vmovdqu ymm (ea (rdi + rdx - 0x20))
  let ymm2 ← vpcmpeqbMem ymm (ea (rsi + rdx - 0x20)) ymm1
  let fl := vptest ymm ymm0 ymm2
  if jc fl then return 0 else do
  let rcx := vpmovmskb ymm ymm2
  let rcx := notl rcx
  let r8 := tzcntl rcx
  let rdx := ea (rdx + r8 - 0x20)
  let rax ← movzxb (ea (rdi + rdx))
  let rcx ← movzxb (ea (rsi + rdx))
  return subl rcx rax

/-- `.Lc32b` -/
def c32b (ymm0 : Lanes) (rdi rsi rdx rcx : ℕ) : Prog Space ℕ :=
  let rcx := subq 0x20 rcx
  let fl := cmpq rcx rdx
  if jb fl then clast32b ymm0 rdi rsi rdx else do
  let ymm1 ← vmovdqa ymm (ea (rdi + rcx - 0x20))
  let ymm2 ← vpcmpeqbMem ymm (ea (rsi + rcx - 0x20)) ymm1
  let fl := vptest ymm ymm0 ymm2
  if jnc fl then c32bdiff rdi rsi rcx ymm2 else
  let fl := cmpq rcx rdx
  if jna fl then return 0 else
  clast32b ymm0 rdi rsi rdx

/-- `.Lc64b` -/
def c64b (ymm0 : Lanes) (rdi rsi rdx rcx : ℕ) : Prog Space ℕ :=
  let rcx := subq 0x40 rcx
  let fl := cmpq rcx rdx
  if jb fl then c32b ymm0 rdi rsi rdx rcx else do
  let ymm1 ← vmovdqa ymm (ea (rdi + rcx - 0x40))
  let ymm2 ← vpcmpeqbMem ymm (ea (rsi + rcx - 0x40)) ymm1
  let ymm1 ← vmovdqa ymm (ea (rdi + rcx - 0x20))
  let ymm3 ← vpcmpeqbMem ymm (ea (rsi + rcx - 0x20)) ymm1
  let ymm4 := vpand ymm2 ymm3
  let fl := vptest ymm ymm0 ymm4
  if jnc fl then blockDiff ymm0 rdi rsi rcx 0x40 [ymm2] else
  let fl := cmpq rcx rdx
  if jna fl then return 0 else
  let rcx := ea (rcx + 0x40)
  c32b ymm0 rdi rsi rdx rcx

/-- `.Lc128b` -/
def c128b (ymm0 : Lanes) (rdi rsi rdx rcx : ℕ) : Prog Space ℕ :=
  let rcx := subq 0x80 rcx
  let fl := cmpq rcx rdx
  if jb fl then c64b ymm0 rdi rsi rdx rcx else do
  let ymm1 ← vmovdqa ymm (ea (rdi + rcx - 0x80))
  let ymm2 ← vpcmpeqbMem ymm (ea (rsi + rcx - 0x80)) ymm1
  let ymm1 ← vmovdqa ymm (ea (rdi + rcx - 0x60))
  let ymm3 ← vpcmpeqbMem ymm (ea (rsi + rcx - 0x60)) ymm1
  let ymm1 ← vmovdqa ymm (ea (rdi + rcx - 0x40))
  let ymm4 ← vpcmpeqbMem ymm (ea (rsi + rcx - 0x40)) ymm1
  let ymm1 ← vmovdqa ymm (ea (rdi + rcx - 0x20))
  let ymm5 ← vpcmpeqbMem ymm (ea (rsi + rcx - 0x20)) ymm1
  let ymm6 := vpand ymm2 ymm3
  let ymm7 := vpand ymm4 ymm5
  let ymm8 := vpand ymm6 ymm7
  let fl := vptest ymm ymm0 ymm8
  if jnc fl then blockDiff ymm0 rdi rsi rcx 0x80 [ymm2, ymm3, ymm4] else
  let fl := cmpq rcx rdx
  if jna fl then return 0 else
  let rcx := ea (rcx + 0x80)
  c64b ymm0 rdi rsi rdx rcx

/-- `.Lc256b`, once around -/
def c256bBody (ymm0 : Lanes) (rdi rsi rdx rcx : ℕ) : Prog Space (ℕ ⊕ ℕ) :=
  let fl := cmpq rcx rdx
  if jb fl then .inr <$> c128b ymm0 rdi rsi rdx rcx else do
  let ymm1 ← vmovdqa ymm (ea (rdi + rcx - 0x100))
  let ymm2 ← vpcmpeqbMem ymm (ea (rsi + rcx - 0x100)) ymm1
  let ymm1 ← vmovdqa ymm (ea (rdi + rcx - 0xe0))
  let ymm3 ← vpcmpeqbMem ymm (ea (rsi + rcx - 0xe0)) ymm1
  let ymm1 ← vmovdqa ymm (ea (rdi + rcx - 0xc0))
  let ymm4 ← vpcmpeqbMem ymm (ea (rsi + rcx - 0xc0)) ymm1
  let ymm1 ← vmovdqa ymm (ea (rdi + rcx - 0xa0))
  let ymm5 ← vpcmpeqbMem ymm (ea (rsi + rcx - 0xa0)) ymm1
  let ymm1 ← vmovdqa ymm (ea (rdi + rcx - 0x80))
  let ymm6 ← vpcmpeqbMem ymm (ea (rsi + rcx - 0x80)) ymm1
  let ymm1 ← vmovdqa ymm (ea (rdi + rcx - 0x60))
  let ymm7 ← vpcmpeqbMem ymm (ea (rsi + rcx - 0x60)) ymm1
  let ymm1 ← vmovdqa ymm (ea (rdi + rcx - 0x40))
  let ymm8 ← vpcmpeqbMem ymm (ea (rsi + rcx - 0x40)) ymm1
  let ymm1 ← vmovdqa ymm (ea (rdi + rcx - 0x20))
  let ymm9 ← vpcmpeqbMem ymm (ea (rsi + rcx - 0x20)) ymm1
  let ymm10 := vpand ymm2 ymm3
  let ymm11 := vpand ymm4 ymm5
  let ymm12 := vpand ymm6 ymm7
  let ymm13 := vpand ymm8 ymm9
  let ymm14 := vpand ymm10 ymm11
  let ymm15 := vpand ymm12 ymm13
  let ymm15 := vpand ymm14 ymm15
  let fl := vptest ymm ymm0 ymm15
  if jnc fl then
    .inr <$> blockDiff ymm0 rdi rsi rcx 0x100 [ymm2, ymm3, ymm4, ymm5, ymm6, ymm7, ymm8] else
  let fl := cmpq rcx rdx
  let rcx := ea (rcx + 0x100)
  if ja fl then return .inl rcx else return .inr 0

/-- `.Lc256b_prlg` -/
def c256bPrlg (ymm0 : Lanes) (rdi rsi rdx rcx fuel : ℕ) : Prog Space ℕ :=
  let rcx := ea (rcx + 0xe0)
  fuelLoop (c256bBody ymm0 rdi rsi rdx) fuel rcx

/-- `cldm_avx2_memcmp`: `rdi` and `rsi` are the areas and `rdx` the number of bytes. -/
def avx2Memcmp (rdi rsi rdx fuel : ℕ) : Prog Space ℕ :=
  let ymm0 := vpcmpeqbSelf
  let fl := cmpq 0x20 rdx
  if jb fl then c16b ymm0 rdi rsi rdx fuel else
  if je fl then c32bUnaligned ymm0 rdi rsi else
  let rcx := 0x20
  let r8 := tzcntq rdi
  let fl := cmpl 0x05 r8
  if jnb fl then c256bPrlg ymm0 rdi rsi rdx rcx fuel else do
  let ymm1 ← vmovdqu ymm (ea rdi)
  let ymm2 ← vpcmpeqbMem ymm (ea rsi) ymm1
  let fl := vptest ymm ymm0 ymm2
  if jnc fl then c32bdiff rdi rsi rcx ymm2 else
  let rcx := ea (rdi + rcx + 0x20)
  let rcx := andq (imm (-0x20)) rcx
  let rcx := subq rdi rcx
  c256bPrlg ymm0 rdi rsi rdx rcx fuel

/-! ### Comparisons -/

variable {s : Space} {p q n k o w : ℕ} {vs : List Lanes} {r : ℕ}

/-- Two areas of `n` bytes in the lower half of the address space, the only ones that may
be read. -/
structure CmpArea (s : Space) (p q n : ℕ) : Prop where
  readable : ∀ a, s.readable a = true ↔ p ≤ a ∧ a < p + n ∨ q ≤ a ∧ a < q + n
  left_le : p + n ≤ 2 ^ 63
  right_le : q + n ≤ 2 ^ 63

/-- The first `k` bytes at `p` and `q` are the same. -/
def Agree (s : Space) (p q k : ℕ) : Prop := ∀ i < k, s.bytes (p + i) = s.bytes (q + i)

/-- The first difference is at the offset `k`. -/
structure DifferAt (s : Space) (p q k : ℕ) : Prop where
  agree : Agree s p q k
  differ : s.bytes (p + k) ≠ s.bytes (q + k)

/-- The answer for `n` bytes: the difference at the first different ones. -/
def CmpAnswer (s : Space) (p q n r : ℕ) : Prop :=
  (∃ k < n, DifferAt s p q k ∧ r = subl (s.bytes (q + k)).toNat (s.bytes (p + k)).toNat) ∨
    Agree s p q n ∧ r = 0

/-- The comparison of the vectors at the offset `o`. -/
def eqLanes (s : Space) (p q w o : ℕ) : Lanes :=
  vpcmpeqb w (s.lanes w (q + o)) (s.lanes w (p + o))

theorem Agree.mono (h : Agree s p q k) (ho : o ≤ k) : Agree s p q o :=
  fun i hi => h i (by omega)

theorem eqLanes_at {i : ℕ} (hi : i < w) : eqLanes s p q w o i =
    if s.bytes (p + (o + i)) = s.bytes (q + (o + i)) then 0xff else 0 := by
  rw [eqLanes, vpcmpeqb, if_pos hi, lanes_of_lt hi, lanes_of_lt hi, Nat.add_assoc, Nat.add_assoc]

theorem allOnes_eqLanes : AllOnes w (eqLanes s p q w o) ↔
    ∀ i < w, s.bytes (p + (o + i)) = s.bytes (q + (o + i)) := by
  refine forall₂_congr fun i hi => ?_
  rw [eqLanes_at hi]
  by_cases heq : s.bytes (p + (o + i)) = s.bytes (q + (o + i))
  · simp [heq]
  · simp [heq]

/-- Equal vectors where the bytes before them agree. -/
theorem Agree.append (h : Agree s p q o) (hv : AllOnes w (eqLanes s p q w o)) :
    Agree s p q (o + w) := by
  intro i hi
  by_cases hio : i < o
  · exact h i hio
  · have heq := allOnes_eqLanes.mp hv (i - o) (by omega)
    rwa [show o + (i - o) = i by omega] at heq

/-- The first difference within different vectors. -/
theorem Agree.first_differ (h : Agree s p q o) (hw : w ≤ 32)
    (hv : ¬ AllOnes w (eqLanes s p q w o)) : ∃ k < w, DifferAt s p q (o + k) ∧
      tzcntl (notl (vpmovmskb w (eqLanes s p q w o))) = k := by
  rw [allOnes_eqLanes] at hv
  obtain ⟨k, hk, hne, hlt⟩ := exists_first hv
  refine ⟨k, hk, ⟨fun i hi => ?_, hne⟩, tzcntl_miss hw hk ?_ fun j hj => ?_⟩
  · by_cases hio : i < o
    · exact h i hio
    · have heq := hlt (i - o) (by omega)
      rwa [show o + (i - o) = i by omega] at heq
  · rw [eqLanes_at hk, if_neg hne]
    decide
  · rw [eqLanes_at (by omega), if_pos (hlt j hj)]
    decide

/-- Reading and comparing the vectors at an offset. -/
theorem CmpArea.compare (h : CmpArea s p q n) {x y : ℤ} (hx : x = p + o) (hy : y = q + o)
    (hn : o + w ≤ n) {γ : Type} {f : Lanes → Prog Space γ} {P : γ → Space → Prop}
    (hf : wp (f (eqLanes s p q w o)) P s) :
    wp (do let v ← vmovdqu w (ea x); let u ← vpcmpeqbMem w (ea y) v; f u) P s := by
  have hp := h.left_le
  have hq := h.right_le
  have hread : s.Readable (p + o) w ∧ s.Readable (q + o) w :=
    ⟨fun i hi => (h.readable _).mpr (.inl ⟨by omega, by omega⟩),
      fun i hi => (h.readable _).mpr (.inr ⟨by omega, by omega⟩)⟩
  rw [ea_eq (a := p + o) (by omega) (by omega), ea_eq (a := q + o) (by omega) (by omega)]
  simp only [vmovdqu, vpcmpeqbMem, wp_bind, Space.wp_load hread.1, Space.wp_load hread.2, wp_pure]
  exact hf

theorem CmpArea.compareAligned (h : CmpArea s p q n) {x y : ℤ} (hx : x = p + o) (hy : y = q + o)
    (hal : (p + o) % w = 0) (hn : o + w ≤ n) {γ : Type} {f : Lanes → Prog Space γ}
    {P : γ → Space → Prop} (hf : wp (f (eqLanes s p q w o)) P s) :
    wp (do let v ← vmovdqa w (ea x); let u ← vpcmpeqbMem w (ea y) v; f u) P s := by
  have hp := h.left_le
  have hxo : ea x = p + o := ea_eq (by omega) (by omega)
  simp only [vmovdqa, hxo, hal, if_true]
  rw [← hxo]
  exact h.compare hx hy hn hf

/-- The same before a program that needs fuel. -/
theorem CmpArea.compareTotal (h : CmpArea s p q n) {x y : ℤ} (hx : x = p + o) (hy : y = q + o)
    (hn : o + w ≤ n) {γ : Type} {f : Lanes → ℕ → Prog Space γ} {P : γ → Space → Prop}
    (hf : Total (f (eqLanes s p q w o)) P s) :
    Total (fun fuel => do let v ← vmovdqu w (ea x); let u ← vpcmpeqbMem w (ea y) v; f u fuel)
      P s := by
  have hrun := h.compare (f := pure) (P := fun u s' => Total (f u) P s') hx hy hn
    ((wp_pure _ _ _).mpr hf)
  have htotal := Total.wp_bind hrun
  simpa only [bind_assoc, pure_bind] using htotal

/-- The difference of the first different bytes. -/
theorem CmpArea.differ (h : CmpArea s p q n) {x y : ℤ} (hx : x = p + k) (hy : y = q + k)
    (hk : k < n) (hd : DifferAt s p q k) :
    wp (do let a ← movzxb (ea x); let b ← movzxb (ea y); return subl b a)
      (fun r s' => CmpAnswer s p q n r ∧ s' = s) s := by
  have hp := h.left_le
  have hq := h.right_le
  have hread : s.Readable (p + k) 1 ∧ s.Readable (q + k) 1 :=
    ⟨fun i hi => (h.readable _).mpr (.inl ⟨by omega, by omega⟩),
      fun i hi => (h.readable _).mpr (.inr ⟨by omega, by omega⟩)⟩
  rw [ea_eq (a := p + k) (by omega) (by omega), ea_eq (a := q + k) (by omega) (by omega)]
  simp only [movzxb, wp_bind, Space.wp_load hread.1, Space.wp_load hread.2, wp_pure]
  exact ⟨.inl ⟨k, hk, hd, by rw [lanes_of_lt Nat.one_pos, lanes_of_lt Nat.one_pos]; rfl⟩, trivial⟩

theorem wp_rvcomp (h : CmpArea s p q n) (ha : Agree s p q o) (hn : o + 32 ≤ n)
    (hal : (p + o) % 32 = 0) (hv : ¬ AllOnes 32 (eqLanes s p q 32 o)) :
    wp (rvcomp p q o) (fun r s' => CmpAnswer s p q n r ∧ s' = s) s := by
  have hp := h.left_le
  obtain ⟨k, hk, hd, htz⟩ := ha.first_differ (Nat.le_refl _) hv
  refine h.compareAligned (o := o) (w := 32) (by omega) (by omega) hal hn ?_
  have hrcx : ea (o + k) = o + k := ea_eq (by omega) (by omega)
  simp only [ymm, htz, hrcx]
  exact h.differ (k := o + k) (by omega) (by omega) (by omega) hd

theorem wp_c32bdiff (h : CmpArea s p q n) (ha : Agree s p q o) (hn : o + 32 ≤ n)
    (hv : ¬ AllOnes 32 (eqLanes s p q 32 o)) :
    wp (c32bdiff p q (o + 32) (eqLanes s p q 32 o)) (fun r s' => CmpAnswer s p q n r ∧ s' = s)
      s := by
  have hp := h.left_le
  obtain ⟨k, hk, hd, htz⟩ := ha.first_differ (Nat.le_refl _) hv
  have hrcx : ea ((o + 32 : ℕ) + k - 0x20) = o + k := ea_eq (by omega) (by omega)
  simp only [c32bdiff, ymm, htz, hrcx]
  exact h.differ (k := o + k) (by omega) (by omega) (by omega) hd

/-! ### The first different vector -/

/-- `vs` are the comparisons of the vectors from the offset `o` on. -/
def Vectors (s : Space) (p q : ℕ) : ℕ → List Lanes → Prop
  | _, [] => True
  | o, v :: vs => v = eqLanes s p q 32 o ∧ Vectors s p q (o + 32) vs

attribute [grind =] Vectors

/-- The first vector with a difference, or the one behind `vs`, follows equal ones. -/
theorem Vectors.first (hv : Vectors s p q o vs) (ha : Agree s p q o) {j : ℕ}
    (hj : vs.findIdx (fun v => jnc (vptest ymm vpcmpeqbSelf v)) = j) :
    Agree s p q (o + 32 * j) ∧ (¬ AllOnes 32 (eqLanes s p q 32 (o + 32 * j)) ∨
      j = vs.length ∧ ∀ v ∈ vs, AllOnes 32 v) := by
  subst hj
  induction vs generalizing o with
  | nil => exact ⟨ha, .inr ⟨rfl, by simp⟩⟩
  | cons v vs ih =>
    obtain ⟨rfl, hv⟩ := hv
    rw [List.findIdx_cons, jnc_vptest (Nat.le_refl _)]
    by_cases heq : AllOnes 32 (eqLanes s p q 32 o)
    · obtain ⟨hagree, hres⟩ := ih hv (ha.append heq)
      simp only [heq, decide_true, Bool.not_true, cond_false, List.length_cons, Nat.mul_add,
        Nat.add_right_cancel_iff]
      rw [show ∀ x, o + (x + 32 * 1) = o + 32 + x by omega]
      refine ⟨hagree, hres.imp_right fun hall => ⟨hall.1, fun v hv => ?_⟩⟩
      rcases List.mem_cons.mp hv with rfl | hv
      · exact heq
      · exact hall.2 v hv
    · simp only [heq, decide_false, Bool.not_false, cond_true]
      exact ⟨ha, .inl heq⟩

/-- A block of vectors with a difference. -/
theorem wp_blockDiff (h : CmpArea s p q n) (ha : Agree s p q o) (hv : Vectors s p q o vs)
    {size : ℕ} (hsize : size = 32 * (vs.length + 1)) (hn : o + size ≤ n) (hal : (p + o) % 32 = 0)
    (hne : (∀ v ∈ vs, AllOnes 32 v) → ¬ AllOnes 32 (eqLanes s p q 32 (o + 32 * vs.length))) :
    wp (blockDiff vpcmpeqbSelf p q (o + size) size vs)
      (fun r s' => CmpAnswer s p q n r ∧ s' = s) s := by
  have hp := h.left_le
  subst hsize
  obtain ⟨j, hj⟩ : ∃ j, vs.findIdx (fun v => jnc (vptest ymm vpcmpeqbSelf v)) = j := ⟨_, rfl⟩
  have hle : j ≤ vs.length := hj ▸ List.findIdx_le_length
  obtain ⟨hagree, hres⟩ := hv.first ha hj
  have hrcx : subq (32 * (vs.length + 1)) (o + 32 * (vs.length + 1)) = o := by
    rw [subq_eq (by omega) (by omega)]
    omega
  simp only [blockDiff, hrcx, cmask]
  rw [search_fold vs (by omega), hj]
  refine wp_rvcomp h hagree (by omega) (by omega) ?_
  rcases hres with hdiff | ⟨rfl, hall⟩
  · exact hdiff
  · exact hne hall

/-! ### Blocks -/

theorem wp_clast32b (h : CmpArea s p q n) (ha : Agree s p q o) (h32 : 32 ≤ n) (hn : n ≤ o + 32) :
    wp (clast32b vpcmpeqbSelf p q n) (fun r s' => CmpAnswer s p q n r ∧ s' = s) s := by
  have hp := h.left_le
  have hlast : Agree s p q (n - 32) := ha.mono (by omega)
  refine h.compare (o := n - 32) (w := 32) (by omega) (by omega) (by omega) ?_
  simp only [jc_vptest (Nat.le_refl _), decide_eq_true_eq, ymm]
  by_cases hv : AllOnes 32 (eqLanes s p q 32 (n - 32))
  · have hall := hlast.append hv
    rw [show n - 32 + 32 = n by omega] at hall
    rw [if_pos hv, wp_pure]
    exact ⟨.inr ⟨hall, rfl⟩, rfl⟩
  · obtain ⟨k, hk, hd, htz⟩ := hlast.first_differ (Nat.le_refl _) hv
    have hrdx : ea (n + k - 0x20) = n - 32 + k := ea_eq (by omega) (by omega)
    simp only [if_neg hv, htz, hrdx]
    exact h.differ (k := n - 32 + k) (by omega) (by omega) (by omega) hd

theorem wp_c32b (h : CmpArea s p q n) (ha : Agree s p q o) (hon : o < n) (hn : n < o + 0x40)
    (hal : (p + o) % 32 = 0) (h32 : 32 ≤ n) :
    wp (c32b vpcmpeqbSelf p q n (o + 0x40)) (fun r s' => CmpAnswer s p q n r ∧ s' = s) s := by
  have hp := h.left_le
  have hrcx : subq 0x20 (o + 0x40) = o + 0x20 := by
    rw [subq_eq (by omega) (by omega)]
    omega
  simp only [c32b, hrcx, jb_cmpq, jna_cmpq, decide_eq_true_eq]
  by_cases hroom : n < o + 0x20
  · rw [if_pos hroom]
    exact wp_clast32b h ha h32 (by omega)
  rw [if_neg hroom]
  refine h.compareAligned (o := o) (w := 32) (by omega) (by omega) hal (by omega) ?_
  simp only [jnc_vptest (Nat.le_refl _), ymm]
  by_cases hv : AllOnes 32 (eqLanes s p q 32 o)
  · simp only [hv, decide_true, Bool.not_true, Bool.false_eq_true, if_false]
    by_cases hend : n ≤ o + 0x20
    · rw [if_pos hend, wp_pure]
      exact ⟨.inr ⟨(ha.append hv).mono hend, rfl⟩, rfl⟩
    · rw [if_neg hend]
      exact wp_clast32b h (ha.append hv) h32 (by omega)
  · simp only [hv, decide_false, Bool.not_false, if_true]
    exact wp_c32bdiff h ha (by omega) hv

theorem wp_c64b (h : CmpArea s p q n) (ha : Agree s p q o) (hon : o < n) (hn : n < o + 0x80)
    (hal : (p + o) % 32 = 0) (h32 : 32 ≤ n) :
    wp (c64b vpcmpeqbSelf p q n (o + 0x80)) (fun r s' => CmpAnswer s p q n r ∧ s' = s) s := by
  have hp := h.left_le
  have hrcx : subq 0x40 (o + 0x80) = o + 0x40 := by
    rw [subq_eq (by omega) (by omega)]
    omega
  simp only [c64b, hrcx, jb_cmpq, jna_cmpq, decide_eq_true_eq]
  by_cases hroom : n < o + 0x40
  · rw [if_pos hroom]
    exact wp_c32b h ha hon hroom hal h32
  rw [if_neg hroom]
  refine h.compareAligned (o := o) (w := 32) (by omega) (by omega) hal (by omega) ?_
  refine h.compareAligned (o := o + 32) (w := 32) (by omega) (by omega) (by omega) (by omega) ?_
  simp only [jnc_vptest (Nat.le_refl _), ymm, allOnes_vpand]
  by_cases hv : AllOnes 32 (eqLanes s p q 32 o) ∧ AllOnes 32 (eqLanes s p q 32 (o + 32))
  · have hall := (ha.append hv.1).append hv.2
    simp only [hv, and_self, decide_true, Bool.not_true, Bool.false_eq_true, if_false]
    by_cases hend : n ≤ o + 0x40
    · rw [if_pos hend, wp_pure]
      exact ⟨.inr ⟨hall.mono hend, rfl⟩, rfl⟩
    · rw [if_neg hend, ea_eq (a := o + 0x40 + 0x40) (by omega) (by omega)]
      exact wp_c32b h hall (by omega) (by omega) (by omega) h32
  · simp only [hv, decide_false, Bool.not_false, if_true]
    refine wp_blockDiff h ha ?_ rfl (by omega) hal ?_
    · exact ⟨rfl, trivial⟩
    · intro hall hlast
      exact hv ⟨hall _ (by simp), hlast⟩

theorem wp_c128b (h : CmpArea s p q n) (ha : Agree s p q o) (hon : o < n) (hn : n < o + 0x100)
    (hal : (p + o) % 32 = 0) (h32 : 32 ≤ n) :
    wp (c128b vpcmpeqbSelf p q n (o + 0x100)) (fun r s' => CmpAnswer s p q n r ∧ s' = s) s := by
  have hp := h.left_le
  have hrcx : subq 0x80 (o + 0x100) = o + 0x80 := by
    rw [subq_eq (by omega) (by omega)]
    omega
  simp only [c128b, hrcx, jb_cmpq, jna_cmpq, decide_eq_true_eq]
  by_cases hroom : n < o + 0x80
  · rw [if_pos hroom]
    exact wp_c64b h ha hon hroom hal h32
  rw [if_neg hroom]
  refine h.compareAligned (o := o) (w := 32) (by omega) (by omega) hal (by omega) ?_
  refine h.compareAligned (o := o + 32) (w := 32) (by omega) (by omega) (by omega) (by omega) ?_
  refine h.compareAligned (o := o + 64) (w := 32) (by omega) (by omega) (by omega) (by omega) ?_
  refine h.compareAligned (o := o + 96) (w := 32) (by omega) (by omega) (by omega) (by omega) ?_
  simp only [jnc_vptest (Nat.le_refl _), ymm, allOnes_vpand]
  by_cases hv : (AllOnes 32 (eqLanes s p q 32 o) ∧ AllOnes 32 (eqLanes s p q 32 (o + 32))) ∧
      AllOnes 32 (eqLanes s p q 32 (o + 64)) ∧ AllOnes 32 (eqLanes s p q 32 (o + 96))
  · have hall := (((ha.append hv.1.1).append hv.1.2).append hv.2.1).append hv.2.2
    simp only [hv, and_self, decide_true, Bool.not_true, Bool.false_eq_true, if_false]
    by_cases hend : n ≤ o + 0x80
    · rw [if_pos hend, wp_pure]
      exact ⟨.inr ⟨hall.mono hend, rfl⟩, rfl⟩
    · rw [if_neg hend, ea_eq (a := o + 0x80 + 0x80) (by omega) (by omega)]
      exact wp_c64b h hall (by omega) (by omega) (by omega) h32
  · simp only [hv, decide_false, Bool.not_false, if_true]
    refine wp_blockDiff h ha ?_ rfl (by omega) hal ?_
    · exact ⟨rfl, rfl, rfl, trivial⟩
    · intro hall hlast
      exact hv ⟨⟨hall _ (by simp), hall _ (by simp)⟩, hall _ (by simp), hlast⟩

/-- One turn of the loop gives the answer, or finds 256 more bytes the same. -/
theorem wp_c256bBody (h : CmpArea s p q n) (ha : Agree s p q o) (hon : o < n)
    (hal : (p + o) % 32 = 0) (h32 : 32 ≤ n) :
    wp (c256bBody vpcmpeqbSelf p q n (o + 0x100)) (fun r s' => Sum.elim
      (fun rcx => rcx = o + 0x100 + 0x100 ∧ s' = s ∧ Agree s p q (o + 0x100) ∧ o + 0x100 < n)
      (fun r => CmpAnswer s p q n r ∧ s' = s) r) s := by
  have hp := h.left_le
  simp only [c256bBody, jb_cmpq, ja_cmpq, decide_eq_true_eq]
  by_cases hroom : n < o + 0x100
  · rw [if_pos hroom, wp_map]
    exact wp_c128b h ha hon hroom hal h32
  rw [if_neg hroom]
  refine h.compareAligned (o := o) (w := 32) (by omega) (by omega) hal (by omega) ?_
  refine h.compareAligned (o := o + 32) (w := 32) (by omega) (by omega) (by omega) (by omega) ?_
  refine h.compareAligned (o := o + 64) (w := 32) (by omega) (by omega) (by omega) (by omega) ?_
  refine h.compareAligned (o := o + 96) (w := 32) (by omega) (by omega) (by omega) (by omega) ?_
  refine h.compareAligned (o := o + 128) (w := 32) (by omega) (by omega) (by omega) (by omega) ?_
  refine h.compareAligned (o := o + 160) (w := 32) (by omega) (by omega) (by omega) (by omega) ?_
  refine h.compareAligned (o := o + 192) (w := 32) (by omega) (by omega) (by omega) (by omega) ?_
  refine h.compareAligned (o := o + 224) (w := 32) (by omega) (by omega) (by omega) (by omega) ?_
  simp only [jnc_vptest (Nat.le_refl _), ymm]
  split_ifs with hv hmore
  · simp only [Bool.not_eq_true', decide_eq_false_iff_not, allOnes_vpand] at hv
    rw [wp_map]
    refine wp_blockDiff h ha ?_ rfl (by omega) hal ?_
    · exact ⟨rfl, rfl, rfl, rfl, rfl, rfl, rfl, trivial⟩
    · intro hall hlast
      simp only [List.forall_mem_cons] at hall
      obtain ⟨h0, h1, h2, h3, h4, h5, h6, -⟩ := hall
      exact hv ⟨⟨⟨h0, h1⟩, h2, h3⟩, ⟨h4, h5⟩, h6, hlast⟩
  all_goals
    simp only [Bool.not_eq_true', decide_eq_false_iff_not, not_not, allOnes_vpand] at hv
    obtain ⟨⟨⟨h0, h1⟩, h2, h3⟩, ⟨h4, h5⟩, h6, h7⟩ := hv
    have hall : Agree s p q (o + 0x100) := (((((((ha.append h0).append h1).append h2).append
      h3).append h4).append h5).append h6).append h7
    rw [wp_pure]
  · rw [ea_eq (a := o + 0x100 + 0x100) (by omega) (by omega)]
    exact ⟨rfl, rfl, hall, hmore⟩
  · exact ⟨.inr ⟨hall.mono (by omega), rfl⟩, rfl⟩

/-- The loop over blocks of 256 bytes. -/
theorem total_c256b (h : CmpArea s p q n) (ha : Agree s p q o) (hon : o < n)
    (hal : (p + o) % 32 = 0) (h32 : 32 ≤ n) :
    Total (fun fuel => fuelLoop (c256bBody vpcmpeqbSelf p q n) fuel (o + 0x100))
      (fun r s' => CmpAnswer s p q n r ∧ s' = s) s := by
  refine total_loop (f := fun _ => c256bBody vpcmpeqbSelf p q n)
    (I := fun left rcx s' => ∃ o, left = n - o ∧ rcx = o + 0x100 ∧ s' = s ∧ Agree s p q o ∧
      o < n ∧ (p + o) % 32 = 0) ?_ (n - o) _ _ ⟨o, rfl, rfl, rfl, ha, hon, hal⟩
  rintro left rcx s' ⟨o, rfl, rfl, rfl, ha, hon, hal⟩
  refine (Total.const (wp_c256bBody h ha hon hal h32)).mono ?_
  rintro (rcx' | r) s' hr
  · obtain ⟨rfl, rfl, hall, hmore⟩ := hr
    exact ⟨n - (o + 0x100), by omega, o + 0x100, rfl, rfl, rfl, hall, hmore, by omega⟩
  · exact hr

/-! ### Fewer than 32 bytes -/

theorem subl_self (a : ℕ) : subl a a = 0 := by
  rw [subl, sub_self]
  rfl

/-- The difference of two bytes is zero just for equal ones. -/
theorem subl_ne_zero {a b : UInt8} (h : a ≠ b) : subl b.toNat a.toNat ≠ 0 := by
  intro h0
  have hdiff := int32_subl a b
  rw [h0, show int32 0 = 0 from rfl] at hdiff
  exact h (UInt8.toNat_inj.mp (by omega))

/-- One turn of the loop over bytes, which counts up to zero. -/
theorem wp_c1bBody (h : CmpArea s p q n) (ha : Agree s p q o) (hon : o < n) :
    wp (c1bBody (p + n) (q + n) (imm (-1)) (negq (n - o))) (fun r s' => Sum.elim
      (fun rdx => rdx = negq (n - (o + 1)) ∧ s' = s ∧ Agree s p q (o + 1) ∧ o + 1 < n)
      (fun r => CmpAnswer s p q n r ∧ s' = s) r) s := by
  have hp := h.left_le
  have hq := h.right_le
  have hleft : ea ((p + n : ℕ) + (negq (n - o) : ℕ)) = p + o := by
    simp only [negq, ea]
    omega
  have hright : ea ((q + n : ℕ) + (negq (n - o) : ℕ)) = q + o := by
    simp only [negq, ea]
    omega
  have hread : s.Readable (p + o) 1 ∧ s.Readable (q + o) 1 :=
    ⟨fun i hi => (h.readable _).mpr (.inl ⟨by omega, by omega⟩),
      fun i hi => (h.readable _).mpr (.inr ⟨by omega, by omega⟩)⟩
  simp only [c1bBody, movzxb, hleft, hright, wp_bind, Space.wp_load hread.1, Space.wp_load hread.2, wp_pure,
    lanes_of_lt Nat.one_pos, Nat.add_zero, jnz, flagsOf]
  by_cases heq : s.bytes (p + o) = s.bytes (q + o)
  · have hall : Agree s p q (o + 1) := fun i hi => by
      by_cases hio : i < o
      · exact ha i hio
      · rwa [show i = o by omega]
    have hnext : addq 1 (negq (n - o)) = negq (n - (o + 1)) := by
      simp only [addq, negq, ea]
      omega
    simp only [heq, subl_self, decide_true, Bool.not_true, Bool.false_eq_true, if_false, hnext]
    by_cases hmore : o + 1 < n
    · have hne : negq (n - (o + 1)) ≠ 0 := by
        simp only [negq, ea]
        omega
      simp only [hne, decide_false, Bool.not_false, if_true, wp_pure]
      exact ⟨rfl, trivial, hall, hmore⟩
    · have hzero : negq (n - (o + 1)) = 0 := by
        simp only [negq, ea]
        omega
      simp only [hzero, decide_true, Bool.not_true, Bool.false_eq_true, if_false, wp_pure]
      exact ⟨.inr ⟨hall.mono (by omega), rfl⟩, trivial⟩
  · have hstop : addq 1 (imm (-1)) = 0 := by decide
    simp only [subl_ne_zero heq, decide_false, Bool.not_false, if_true, hstop, decide_true,
      Bool.not_true, Bool.false_eq_true, if_false, wp_pure]
    exact ⟨.inl ⟨o, hon, ⟨ha, heq⟩, rfl⟩, trivial⟩

theorem total_c8b (h : CmpArea s p q n) (ha : Agree s p q o) (hon : o ≤ n) (hn : n < 32) :
    Total (c8b p q n o) (fun r s' => CmpAnswer s p q n r ∧ s' = s) s := by
  have hp := h.left_le
  have hq := h.right_le
  have hcmp : cmpl o n = cmpq o n := by
    rw [cmpl_eq (by omega) (by omega)]
  by_cases hend : n = o
  · subst hend
    rw [show c8b p q n n = fun _ => pure 0 from funext fun fuel => by simp [c8b, cmpl]]
    exact Total.const ((wp_pure _ _ _).mpr ⟨.inr ⟨ha, rfl⟩, rfl⟩)
  have hrun : c8b p q n o = fun fuel =>
      fuelLoop (c1bBody (p + n) (q + n) (imm (-1))) fuel (negq (n - 0)) := by
    funext fuel
    have hleft : ea (p + n) = p + n := ea_eq (by omega) (by omega)
    have hright : ea (q + n) = q + n := ea_eq (by omega) (by omega)
    simp only [c8b, hcmp, je_cmpq, hend, decide_false, Bool.false_eq_true, if_false, hleft, hright,
      Nat.sub_zero]
  rw [hrun]
  refine total_loop (f := fun _ => c1bBody (p + n) (q + n) (imm (-1)))
    (I := fun left rdx s' => ∃ o, left = n - o ∧ rdx = negq (n - o) ∧ s' = s ∧ Agree s p q o ∧
      o < n) ?_ (n - 0) _ _ ⟨0, rfl, rfl, rfl, fun i hi => absurd hi (by omega), by omega⟩
  rintro left rdx s' ⟨o, rfl, rfl, rfl, ha, hon⟩
  refine (Total.const (wp_c1bBody h ha hon)).mono ?_
  rintro (rdx' | r) s' hr
  · obtain ⟨rfl, rfl, hall, hmore⟩ := hr
    exact ⟨n - (o + 1), by omega, o + 1, rfl, rfl, rfl, hall, hmore⟩
  · exact hr

theorem total_c16b (h : CmpArea s p q n) (hn : n < 32) :
    Total (c16b vpcmpeqbSelf p q n) (fun r s' => CmpAnswer s p q n r ∧ s' = s) s := by
  have hp := h.left_le
  have hnone : Agree s p q 0 := fun i hi => absurd hi (by omega)
  have hcmp : cmpl 0x10 n = cmpq 0x10 n := by
    rw [cmpl_eq (by omega) (by omega)]
  by_cases hroom : n < 16
  · rw [show c16b vpcmpeqbSelf p q n = c8b p q n 0 from funext fun fuel => by
      simp [c16b, hcmp, hroom]]
    exact total_c8b h hnone (Nat.zero_le n) hn
  have hrun : c16b vpcmpeqbSelf p q n = fun fuel => do
      let v ← vmovdqu xmm (ea p)
      let u ← vpcmpeqbMem xmm (ea q) v
      if jc (vptest xmm vpcmpeqbSelf u) then c8b p q n 16 fuel else
        let k := tzcntl (notl (vpmovmskb xmm u))
        let a ← movzxb (ea (p + k))
        let b ← movzxb (ea (q + k))
        return subl b a := by
    funext fuel
    have hr8 : leal ((0 : ℕ) + 0x10) = 16 := by decide
    simp only [c16b, hcmp, jb_cmpq, hroom, decide_false, Bool.false_eq_true, if_false, hr8]
  rw [hrun]
  refine h.compareTotal (o := 0) (w := 16) (by omega) (by omega) (by omega) ?_
  simp only [jc_vptest (show 16 ≤ ymm by decide), decide_eq_true_eq, xmm]
  by_cases hv : AllOnes 16 (eqLanes s p q 16 0)
  · simp only [if_pos hv]
    exact total_c8b h (hnone.append hv) (by omega) hn
  · obtain ⟨k, hk, hd, htz⟩ := hnone.first_differ (by decide) hv
    rw [Nat.zero_add] at hd
    simp only [if_neg hv, htz]
    exact Total.const (h.differ (k := k) (by omega) (by omega) (by omega) hd)

/-! ### All lengths -/

theorem total_c256bPrlg (h : CmpArea s p q n) (ha : Agree s p q o) (hon : o < n)
    (hal : (p + o) % 32 = 0) (h32 : 32 ≤ n) :
    Total (c256bPrlg vpcmpeqbSelf p q n (o + 0x20)) (fun r s' => CmpAnswer s p q n r ∧ s' = s)
      s := by
  have hp := h.left_le
  have hrcx : ea ((o + 0x20 : ℕ) + 0xe0) = o + 0x100 := ea_eq (by omega) (by omega)
  have hrun : c256bPrlg vpcmpeqbSelf p q n (o + 0x20) =
      fun fuel => fuelLoop (c256bBody vpcmpeqbSelf p q n) fuel (o + 0x100) := by
    funext fuel
    simp only [c256bPrlg, hrcx]
  rw [hrun]
  exact total_c256b h ha hon hal h32

theorem total_avx2Memcmp (h : CmpArea s p q n) :
    Total (avx2Memcmp p q n) (fun r s' => CmpAnswer s p q n r ∧ s' = s) s := by
  have hp := h.left_le
  have hnone : Agree s p q 0 := fun i hi => absurd hi (by omega)
  by_cases hshort : n < 32
  · rw [show avx2Memcmp p q n = c16b vpcmpeqbSelf p q n from funext fun fuel => by
      simp [avx2Memcmp, hshort]]
    exact total_c16b h hshort
  by_cases heq : n = 32
  · subst heq
    rw [show avx2Memcmp p q 32 = fun _ => c32bUnaligned vpcmpeqbSelf p q from
      funext fun fuel => by simp [avx2Memcmp]]
    refine Total.const (h.compare (o := 0) (w := 32) (by omega) (by omega) (by omega) ?_)
    simp only [jnc_vptest (Nat.le_refl _), ymm]
    by_cases hv : AllOnes 32 (eqLanes s p q 32 0)
    · simp only [hv, decide_true, Bool.not_true, Bool.false_eq_true, if_false, wp_pure]
      exact ⟨.inr ⟨hnone.append hv, rfl⟩, trivial⟩
    · obtain ⟨k, hk, hd, htz⟩ := hnone.first_differ (Nat.le_refl _) hv
      rw [Nat.zero_add] at hd
      simp only [hv, decide_false, Bool.not_false, if_true, c32bdiffUnaligned, ymm, htz]
      exact h.differ (k := k) (by omega) (by omega) (by omega) hd
  have hcmp : jnb (cmpl 0x05 (tzcntq p)) = decide (p % 32 = 0) := by
    have hle : tzcntq p ≤ 64 := by
      rcases firstIdx_cases (w := 64) (p := p.testBit) with ⟨heq, -⟩ | ⟨hlt, -⟩
      · exact Nat.le_of_eq heq
      · exact Nat.le_of_lt hlt
    rw [cmpl_eq (by omega) (by omega), jnb_cmpq]
    exact decide_eq_decide.mpr five_le_tzcntq
  by_cases hal : p % 32 = 0
  · rw [show avx2Memcmp p q n = c256bPrlg vpcmpeqbSelf p q n (0 + 0x20) from
      funext fun fuel => by simp [avx2Memcmp, hshort, heq, hcmp, hal]]
    exact total_c256bPrlg h hnone (by omega) (by omega) (by omega)
  have hrcx : subq p (andq (imm (-0x20)) (ea (p + 0x20 + 0x20))) =
      ((p + 64) / 32 * 32 - p - 32) + 0x20 := by
    rw [ea_eq (a := p + 64) (by omega) (by omega), andq_align (by omega),
      subq_eq (by omega) (by omega)]
    omega
  have hrun : avx2Memcmp p q n = fun fuel => (do
      let v ← vmovdqu ymm (ea p)
      let u ← vpcmpeqbMem ymm (ea q) v
      if jnc (vptest ymm vpcmpeqbSelf u) then c32bdiff p q (0 + 32) u else
        c256bPrlg vpcmpeqbSelf p q n (((p + 64) / 32 * 32 - p - 32) + 0x20) fuel) := by
    funext fuel
    simp [avx2Memcmp, hshort, heq, hcmp, hal, ← hrcx]
  rw [hrun]
  refine h.compareTotal (o := 0) (w := 32) (by omega) (by omega) (by omega) ?_
  simp only [jnc_vptest (Nat.le_refl _), ymm]
  by_cases hv : AllOnes 32 (eqLanes s p q 32 0)
  · have hhead := hnone.append hv
    simp only [hv, decide_true, Bool.not_true, Bool.false_eq_true, if_false]
    exact total_c256bPrlg h (hhead.mono (by omega)) (by omega) (by omega) (by omega)
  · simp only [hv, decide_false, Bool.not_false, if_true]
    exact Total.const (wp_c32bdiff h hnone (by omega) hv)

/-- The first difference is determined. -/
theorem DifferAt.unique {j : ℕ} (h : DifferAt s p q k) (h' : DifferAt s p q j) : k = j := by
  rcases Nat.lt_trichotomy k j with hlt | heq | hgt
  · exact absurd (h'.agree k hlt) h.differ
  · exact heq
  · exact absurd (h.agree j hgt) h'.differ

theorem CmpAnswer.zero_iff (h : CmpAnswer s p q n r) : int32 r = 0 ↔ Agree s p q n := by
  rcases h with ⟨k, hk, hd, rfl⟩ | ⟨hall, rfl⟩
  · refine iff_of_false (fun hzero => hd.differ (UInt8.toNat_inj.mp ?_)) fun hall =>
      hd.differ (hall k hk)
    rw [int32_subl] at hzero
    omega
  · exact iff_of_true rfl hall

theorem CmpAnswer.differ (h : CmpAnswer s p q n r) (hk : k < n) (hd : DifferAt s p q k) :
    int32 r = (s.bytes (p + k)).toNat - (s.bytes (q + k)).toNat := by
  rcases h with ⟨j, hj, hd', rfl⟩ | ⟨hall, rfl⟩
  · obtain rfl := hd.unique hd'
    exact int32_subl _ _
  · exact absurd (hall k hk) hd.differ

/-- `cldm_avx2_memcmp` returns zero just for equal areas and else the difference of the
first different bytes, and reads the two areas only. -/
theorem avx2_memcmp_correct (h : CmpArea s p q n) : Total (avx2Memcmp p q n) (fun r s' =>
    (int32 r = 0 ↔ ∀ i < n, s.bytes (p + i) = s.bytes (q + i)) ∧
    (∀ k < n, DifferAt s p q k →
      int32 r = (s.bytes (p + k)).toNat - (s.bytes (q + k)).toNat) ∧ s' = s) s := by
  refine (total_avx2Memcmp h).mono ?_
  rintro r s' ⟨hr, rfl⟩
  exact ⟨hr.zero_iff, fun k hk hd => hr.differ hk hd, rfl⟩

/-- The space of two areas, of given bytes, that grants reads of them. -/
def cmpSpace (bytes : ℕ → UInt8) (p q n : ℕ) : Space where
  bytes := bytes
  readable := fun a => (p ≤ a ∧ a < p + n) ∨ q ≤ a ∧ a < q + n
  writable := fun _ => false

theorem cmpArea_cmpSpace (bytes : ℕ → UInt8) (hp : p + n ≤ 2 ^ 63) (hq : q + n ≤ 2 ^ 63) :
    CmpArea (cmpSpace bytes p q n) p q n :=
  ⟨fun a => by simp [cmpSpace], hp, hq⟩

/-- Two areas of 40 bytes that differ in the last one. -/
def fortyBytes : Space := cmpSpace (fun a => if a = 0x102a then 7 else 0) 0x1003 0x2001 40

/-- The comparison of these areas. -/
theorem avx2_memcmp_correct_forty : DifferAt fortyBytes 0x1003 0x2001 39 ∧
    Total (avx2Memcmp 0x1003 0x2001 40) (fun r s' =>
      (int32 r = 0 ↔ ∀ i < 40, fortyBytes.bytes (0x1003 + i) = fortyBytes.bytes (0x2001 + i)) ∧
      (∀ k < 40, DifferAt fortyBytes 0x1003 0x2001 k →
        int32 r = (fortyBytes.bytes (0x1003 + k)).toNat - (fortyBytes.bytes (0x2001 + k)).toNat) ∧
      s' = fortyBytes) fortyBytes := by
  refine ⟨⟨?_, by decide⟩, avx2_memcmp_correct (cmpArea_cmpSpace _ (by decide) (by decide))⟩
  unfold Agree
  decide

end Cldm
