/-
The AVX2 scan for a byte below a sentinel.

`avx2ScanLt` is `cldm_avx2_scan_lt`, with a definition for each label of the assembly
source; the three labels that jump to each other are the states `ScanAt` of one loop.
A scan may read whole pages up to the one with the byte it looks for.

The vectors find the first lesser byte.  Before a page boundary, though, the last one
to three bytes of the page are left to steps over two bytes and one that compare
them the wrong way round:

* `avx2_scan_lt_correct` — the routine and the portable scan return the same index if
  and only if it fits an `unsigned` and these steps are not reached, or are right by
  chance (`ScanRight`).
-/
import Cldm.Byteseq

namespace Cldm

open Prog Space Avx2 Byteseq

/-! ### The routine -/

/-- The labels of the scan over aligned vectors, with the offset. -/
inductive ScanAt
  | prologue (rax : ℕ)
  | chk128b (rax : ℕ)
  | pgxAligned (rax : ℕ)

/-- The macro `cmask` -/
def scanMask : ℕ × ℕ → Lanes → ℕ × ℕ :=
  Avx2.search fun ymmword => jnz (vptest ymm ymmword ymmword)

/-- `.Lchk128b_prologue` -/
def chk128bPrologue (rdi rax : ℕ) : Prog Space (ScanAt ⊕ ℕ) :=
  let rcx := ea (rdi + rax)
  let rcx := andl (pgsize - 1) rcx
  let fl := cmpl (pgsize - 0x80) rcx
  if ja fl then return .inl (.pgxAligned rax) else return .inl (.chk128b rax)

/-- `.Lchk128b` -/
def chk128b (ymm15 : Lanes) (rdi rax : ℕ) : Prog Space (ScanAt ⊕ ℕ) := do
  let ymm0 ← vmovdqa ymm (ea (rdi + rax))
  let ymm4 := vpcmpgtb ymm ymm0 ymm15
  let ymm1 ← vmovdqa ymm (ea (rdi + rax + 0x20))
  let ymm5 := vpcmpgtb ymm ymm1 ymm15
  let ymm2 ← vmovdqa ymm (ea (rdi + rax + 0x40))
  let ymm6 := vpcmpgtb ymm ymm2 ymm15
  let ymm3 ← vmovdqa ymm (ea (rdi + rax + 0x60))
  let ymm7 := vpcmpgtb ymm ymm3 ymm15
  let ymm8 := vpor ymm4 ymm5
  let ymm9 := vpor ymm6 ymm7
  let ymm10 := vpor ymm8 ymm9
  let rax := ea (rax + 0x80)
  if jz (vptest ymm ymm10 ymm10) then return .inl (.prologue rax) else do
  let rax := subq 0x80 rax
  let rax := ([ymm4, ymm5, ymm6].foldl scanMask (rax, 0x20)).1
  let ymm0 ← vmovdqa ymm (ea (rdi + rax))
  let ymm4 := vpcmpgtb ymm ymm0 ymm15
  let rcx := vpmovmskb ymm ymm4
  let rdx := tzcntl rcx
  return .inr (ea (rax + rdx))

/-- `.Lpgx_aligned` -/
def pgxAligned (ymm15 : Lanes) (rdi rax : ℕ) : Prog Space (ScanAt ⊕ ℕ) := do
  let ymm0 ← vmovdqa ymm (ea (rdi + rax))
  let ymm4 := vpcmpgtb ymm ymm0 ymm15
  if jnz (vptest ymm ymm4 ymm4) then do
    let rcx := vpmovmskb ymm ymm4
    let rdx := tzcntl rcx
    return .inr (ea (rax + rdx))
  else
  let rax := ea (rax + 0x20)
  let rcx := ea (rdi + rax)
  let rcx := andl (pgsize - 1) rcx
  if jz (testl rcx rcx) then return .inl (.chk128b rax) else return .inl (.pgxAligned rax)

/-- The code at a label. -/
def scanStep (ymm15 : Lanes) (rdi : ℕ) : ScanAt → Prog Space (ScanAt ⊕ ℕ)
  | .prologue rax => chk128bPrologue rdi rax
  | .chk128b rax => chk128b ymm15 rdi rax
  | .pgxAligned rax => pgxAligned ymm15 rdi rax

/-- The scan from a label on. -/
def scanFrom (ymm15 : Lanes) (rdi : ℕ) (label : ScanAt) (fuel : ℕ) : Prog Space ℕ :=
  fuelLoop (scanStep ymm15 rdi) fuel label

/-- `.Lpgx1b` -/
def pgx1b (ymm15 : Lanes) (rdi rsi rax rcx fuel : ℕ) : Prog Space ℕ :=
  let fl := cmpl pgsize rcx
  if jz fl then scanFrom ymm15 rdi (.chk128b rax) fuel else do
  let rax := ea (rax + 0x01)
  let b ← loadByte (ea (rdi + rax))
  let fl := cmpb b rsi
  if jnb fl then scanFrom ymm15 rdi (.chk128b rax) fuel else
  let rax := subq 0x01 rax
  return rax

/-- `.Lpgx2b` -/
def pgx2b (ymm15 : Lanes) (rdi rsi rax rcx fuel : ℕ) : Prog Space ℕ :=
  let fl := cmpl pgsize rcx
  if je fl then scanFrom ymm15 rdi (.chk128b rax) fuel else
  let fl := cmpl (pgsize - 0x02) rcx
  if ja fl then pgx1b ymm15 rdi rsi rax rcx fuel else do
  let rdx ← movzxw (ea (rdi + rax))
  let r8 := low32 rdx
  let rdx := andl 0x0f rdx
  let r8 := shrl 0x08 r8
  let r9 := 0x01
  let r10 := 0
  -- `cmovbl` and `setbb` for the first byte
  let fl := cmpl rdx rsi
  let r9 := if jb fl then r10 else r9
  let rax := addq r9 rax
  -- and for the second; only the last `setbb` is read
  let fl := cmpl r8 rsi
  let r9 := if jb fl then r10 else r9
  let r11 := if jb fl then 1 else 0
  let rax := addq r9 rax
  let rax := ea (rax + 0x02)
  let rcx := leal (rcx + 0x02)
  if jz (testl r11 r11) then pgx1b ymm15 rdi rsi rax rcx fuel else
  return ea (rax - 0x02)

/-- `.Lpgx4b` -/
def pgx4b (ymm15 : Lanes) (rdi rsi rax rcx fuel : ℕ) : Prog Space ℕ :=
  let fl := cmpl pgsize rcx
  if je fl then scanFrom ymm15 rdi (.chk128b rax) fuel else
  let fl := cmpl (pgsize - 0x04) rcx
  if ja fl then pgx2b ymm15 rdi rsi rax rcx fuel else do
  let xmm0 ← vmovd (ea (rdi + rax))
  let xmm4 := vpcmpgtb xmm xmm0 ymm15
  let rdx := vpmovmskb xmm xmm4
  let rax := ea (rax + 0x04)
  let rcx := leal (rcx + 0x04)
  if jz (testl 0x0f rdx) then pgx2b ymm15 rdi rsi rax rcx fuel else
  let rsi := tzcntl rdx
  return ea (rax + rsi - 0x04)

/-- `.Lpgx8b` -/
def pgx8b (ymm15 : Lanes) (rdi rsi rax rcx fuel : ℕ) : Prog Space ℕ :=
  let fl := cmpl pgsize rcx
  if je fl then scanFrom ymm15 rdi (.chk128b rax) fuel else
  let fl := cmpl (pgsize - 0x08) rcx
  if ja fl then pgx4b ymm15 rdi rsi rax rcx fuel else do
  let xmm0 ← vmovq (ea (rdi + rax))
  let xmm4 := vpcmpgtb xmm xmm0 ymm15
  let rdx := vpmovmskb xmm xmm4
  let rax := ea (rax + 0x08)
  let rcx := leal (rcx + 0x08)
  if jz (testl 0xff rdx) then pgx4b ymm15 rdi rsi rax rcx fuel else
  let rsi := tzcntl rdx
  return ea (rax + rsi - 0x08)

/-- `.Lpgx16b` -/
def pgx16b (ymm15 : Lanes) (rdi rsi rax rcx fuel : ℕ) : Prog Space ℕ :=
  let fl := cmpl (pgsize - 0x10) rcx
  if ja fl then pgx8b ymm15 rdi rsi rax rcx fuel else do
  let xmm0 ← vmovdqu xmm (ea rdi)
  let xmm4 := vpcmpgtb xmm xmm0 ymm15
  let rax := ea (rax + 0x10)
  let rcx := leal (rcx + 0x10)
  if jz (vptest xmm xmm4 xmm4) then pgx8b ymm15 rdi rsi rax rcx fuel else
  let rsi := vpmovmskb xmm xmm4
  let rdx := tzcntl rsi
  return ea (rax + rdx - 0x10)

/-- `cldm_avx2_scan_lt`: `rdi` is the byte sequence and `rsi` the sentinel. -/
def avx2ScanLt (rdi rsi fuel : ℕ) : Prog Space ℕ :=
  let rax := 0
  let xmm2 := vpxorSelf
  let xmm1 := vmovdOf rsi
  let xmm0 := vpshufb xmm xmm2 xmm1
  let ymm15 := vinserti128 xmm0 xmm0
  let rcx := low32 rdi
  let rcx := andl (pgsize - 1) rcx
  let fl := cmpl (pgsize - 0x20) rcx
  if ja fl then pgx16b ymm15 rdi rsi rax rcx fuel else do
  let ymm0 ← vmovdqu ymm (ea rdi)
  let ymm4 := vpcmpgtb ymm ymm0 ymm15
  if jnz (vptest ymm ymm4 ymm4) then do
    let rcx := vpmovmskb ymm ymm4
    let rax := tzcntl rcx
    return rax
  else
  let rax := ea (rdi + 0x20)
  let rax := andq (imm (-0x20)) rax
  let rax := subq rdi rax
  scanFrom ymm15 rdi (.prologue rax) fuel

/-! ### More fuel -/

section Fuel

variable (ymm15 : Lanes) (rdi rsi rax rcx : ℕ)

theorem fuelMono_scanFrom (label : ScanAt) : FuelMono (scanFrom ymm15 rdi label) :=
  FuelMono.loop (fun label => FuelMono.const (scanStep ymm15 rdi label)) label

theorem fuelMono_pgx1b : FuelMono (pgx1b ymm15 rdi rsi rax rcx) :=
  .ite _ (fuelMono_scanFrom _ _ _)
    ((FuelMono.const _).bind fun _ => .ite _ (fuelMono_scanFrom _ _ _) (.const _))

theorem fuelMono_pgx2b : FuelMono (pgx2b ymm15 rdi rsi rax rcx) :=
  .ite _ (fuelMono_scanFrom _ _ _) (.ite _ (fuelMono_pgx1b _ _ _ _ _)
    ((FuelMono.const _).bind fun _ => .ite _ (fuelMono_pgx1b _ _ _ _ _) (.const _)))

theorem fuelMono_pgx4b : FuelMono (pgx4b ymm15 rdi rsi rax rcx) :=
  .ite _ (fuelMono_scanFrom _ _ _) (.ite _ (fuelMono_pgx2b _ _ _ _ _)
    ((FuelMono.const _).bind fun _ => .ite _ (fuelMono_pgx2b _ _ _ _ _) (.const _)))

theorem fuelMono_pgx8b : FuelMono (pgx8b ymm15 rdi rsi rax rcx) :=
  .ite _ (fuelMono_scanFrom _ _ _) (.ite _ (fuelMono_pgx4b _ _ _ _ _)
    ((FuelMono.const _).bind fun _ => .ite _ (fuelMono_pgx4b _ _ _ _ _) (.const _)))

theorem fuelMono_pgx16b : FuelMono (pgx16b ymm15 rdi rsi rax rcx) :=
  .ite _ (fuelMono_pgx8b _ _ _ _ _)
    ((FuelMono.const _).bind fun _ => .ite _ (fuelMono_pgx8b _ _ _ _ _) (.const _))

theorem fuelMono_avx2ScanLt : FuelMono (avx2ScanLt rdi rsi) :=
  .ite _ (fuelMono_pgx16b _ _ _ _ _)
    ((FuelMono.const _).bind fun _ => .ite _ (.const _) (fuelMono_scanFrom _ _ _))

end Fuel

/-! ### Scanning vectors -/

variable {s : Space} {p sentinel start stop index o n w rsi : ℕ} {ymm15 : Lanes}

/-- A byte sequence in the lower half of the address space whose first byte below the
sentinel is at `index`; only pages with a byte up to that one may be read. -/
structure ScanArea (s : Space) (p sentinel index : ℕ) : Prop
    extends FirstLess s p sentinel index where
  sentinel_pos : 0 < sentinel
  sentinel_le : sentinel ≤ 127
  readable : ∀ a, s.readable a = true ↔ OnPages pgsize p (index + 1) a
  index_lt : p + index < 2 ^ 63

/-- Memory in the lower half of the address space, page by page. -/
structure PageMapped (s : Space) : Prop where
  page : ∀ a b, a / pgsize = b / pgsize → s.readable a = s.readable b
  low : ∀ a, 2 ^ 63 ≤ a → s.readable a = false

/-- The bytes at the offsets from `start` up to `stop` can be read, and none of them is below
the sentinel. -/
structure NoLesser (s : Space) (p sentinel start stop : ℕ) : Prop where
  mapped : PageMapped s
  sentinel_le : sentinel ≤ 127
  before : ∀ i, start ≤ i → i < stop → (sentinel : ℤ) ≤ int8 (s.bytes (p + i))
  readable : ∀ i, start ≤ i → i < stop → s.readable (p + i) = true

/-- From the offset `start` on, the first byte below the sentinel is at `index`. -/
structure ScansTo (s : Space) (p sentinel start index : ℕ) : Prop
    extends NoLesser s p sentinel start index where
  le : start ≤ index
  less : int8 (s.bytes (p + index)) < sentinel
  last : s.readable (p + index) = true

/-- Every lane holds the sentinel. -/
def Sentinels (sentinel : ℕ) (ymm15 : Lanes) : Prop := ∀ i < 32, ymm15 i = UInt8.ofNat sentinel

theorem int8_ofNat {x : ℕ} (h : x ≤ 127) : int8 (UInt8.ofNat x) = x := by
  have hval : (UInt8.ofNat x).toNat = x := by
    rw [UInt8.toNat_ofNat']
    omega
  rw [int8, hval, if_pos (by omega)]

theorem PageMapped.lt (h : PageMapped s) {a : ℕ} (hr : s.readable a = true) : a < 2 ^ 63 := by
  by_contra hle
  exact absurd (hr.symm.trans (h.low a (by omega))) (by simp)

/-- A read that stays on the page of a byte that can be read. -/
theorem PageMapped.block (h : PageMapped s) (hr : s.readable (p + o) = true)
    (hpage : (p + o) % pgsize + n ≤ pgsize) : s.Readable (p + o) n := by
  intro i hi
  simp only [pgsize] at hpage
  exact (h.page (p + o + i) (p + o) (by simp only [pgsize]; omega)).trans hr

/-- The bytes behind a page boundary lie on one page. -/
theorem PageMapped.behind (h : PageMapped s) {d i : ℕ} (hd : (p + d) % pgsize = 0) (hi : d ≤ i)
    (hid : i < d + 32) : s.readable (p + i) = s.readable (p + d) :=
  h.page _ _ (by simp only [pgsize] at *; omega)

theorem ScansTo.lt (h : ScansTo s p sentinel start index) : p + index < 2 ^ 63 :=
  h.mapped.lt h.last

theorem ScansTo.readable_le (h : ScansTo s p sentinel start index) (hso : start ≤ o)
    (ho : o ≤ index) : s.readable (p + o) = true := by
  rcases Nat.lt_or_eq_of_le ho with hlt | rfl
  · exact h.readable o hso hlt
  · exact h.last

theorem ScansTo.block (h : ScansTo s p sentinel start index) (hso : start ≤ o) (ho : o ≤ index)
    (hpage : (p + o) % pgsize + n ≤ pgsize) : s.Readable (p + o) n :=
  h.mapped.block (h.readable_le hso ho) hpage

/-- The scan from a later offset on. -/
theorem ScansTo.from (h : ScansTo s p sentinel start index) (hso : start ≤ o) (ho : o ≤ index) :
    ScansTo s p sentinel o index where
  mapped := h.mapped
  sentinel_le := h.sentinel_le
  before := fun i hi => h.before i (hso.trans hi)
  readable := fun i hi => h.readable i (hso.trans hi)
  le := ho
  less := h.less
  last := h.last

/-- The bytes at the offset `o` that are below the sentinel. -/
theorem lane_eq (hs : sentinel ≤ 127) (hy : Sentinels sentinel ymm15) {i : ℕ}
    (hi : i < n) (hn : n ≤ w) (hw : w ≤ 32) :
    vpcmpgtb w (s.lanes n (p + o)) ymm15 i =
      if int8 (s.bytes (p + (o + i))) < sentinel then 0xff else 0 := by
  rw [vpcmpgtb, if_pos (by omega), lanes_of_lt hi, hy i (by omega), int8_ofNat hs, Nat.add_assoc]

theorem NoLesser.lane (h : NoLesser s p sentinel start stop) (hy : Sentinels sentinel ymm15)
    (hso : start ≤ o) {i : ℕ} (hi : i < n) (hn : n ≤ w) (hw : w ≤ 32) (hlt : o + i < stop) :
    vpcmpgtb w (s.lanes n (p + o)) ymm15 i = 0 := by
  have hle := h.before (o + i) (by omega) hlt
  rw [lane_eq h.sentinel_le hy hi hn hw, if_neg (by omega)]

theorem NoLesser.allZero (h : NoLesser s p sentinel start stop) (hy : Sentinels sentinel ymm15)
    (hso : start ≤ o) (hn : n ≤ 32) (hon : o + n ≤ stop) :
    AllZero n (vpcmpgtb n (s.lanes n (p + o)) ymm15) :=
  fun _ hi => h.lane hy hso hi (Nat.le_refl n) hn (by omega)

theorem ScansTo.lane_at (h : ScansTo s p sentinel start index) (hy : Sentinels sentinel ymm15)
    {i : ℕ} (hi : i < n) (hn : n ≤ w) (hw : w ≤ 32) (heq : o + i = index) :
    vpcmpgtb w (s.lanes n (p + o)) ymm15 i = 0xff := by
  rw [lane_eq h.sentinel_le hy hi hn hw, heq, if_pos h.less]

/-- Whether the first lesser byte is in a vector. -/
theorem ScansTo.allZero (h : ScansTo s p sentinel start index) (hy : Sentinels sentinel ymm15)
    (hso : start ≤ o) (hn : n ≤ 32) (ho : o ≤ index) :
    AllZero n (vpcmpgtb n (s.lanes n (p + o)) ymm15) ↔ o + n ≤ index := by
  constructor
  · intro hzero
    by_contra hin
    have hat := h.lane_at hy (n := n) (o := o) (i := index - o) (by omega) (Nat.le_refl n) hn
      (by omega)
    exact absurd ((hzero _ (by omega)).symm.trans hat) (by decide)
  · exact fun hin => h.toNoLesser.allZero hy hso hn hin

/-- The same by the bits of the mask, of which just `n` are looked at. -/
theorem ScansTo.mask_zero (h : ScansTo s p sentinel start index) (hy : Sentinels sentinel ymm15)
    (hso : start ≤ o) (hn : n ≤ w) (hw : w ≤ 32) (ho : o ≤ index) :
    (∀ i < n, (vpmovmskb w (vpcmpgtb w (s.lanes n (p + o)) ymm15)).testBit i = false) ↔
      o + n ≤ index := by
  constructor
  · intro hzero
    by_contra hin
    have hbit := hzero (index - o) (by omega)
    rw [testBit_vpmovmskb, h.lane_at hy (by omega) hn hw (by omega)] at hbit
    exact absurd hbit (by simp; omega)
  · intro hin i hi
    rw [testBit_vpmovmskb, h.lane hy hso hi hn hw (by omega)]
    simp

/-- Where in the vector it is. -/
theorem ScansTo.tzcntl_mask (h : ScansTo s p sentinel start index) (hy : Sentinels sentinel ymm15)
    (hso : start ≤ o) (hn : n ≤ w) (hw : w ≤ 32) (ho : o ≤ index) (hin : index < o + n) :
    tzcntl (vpmovmskb w (vpcmpgtb w (s.lanes n (p + o)) ymm15)) = index - o := by
  refine tzcntl_hit hw (by omega) ?_ fun j hj => ?_
  · rw [h.lane_at hy (by omega) hn hw (by omega)]
    decide
  · rw [h.lane hy hso (by omega) hn hw (by omega)]
    decide

/-! ### The loop -/

/-- What holds at a label: the vectors from the offset on are aligned, and a block of four
stays on its page. -/
def ScanAt.Ready (p start stop : ℕ) : ScanAt → Prop
  | .prologue rax => start ≤ rax ∧ rax ≤ stop ∧ (p + rax) % 32 = 0
  | .chk128b rax => start ≤ rax ∧ rax ≤ stop ∧ (p + rax) % 32 = 0 ∧
      (p + rax) % pgsize ≤ pgsize - 0x80
  | .pgxAligned rax => start ≤ rax ∧ rax ≤ stop ∧ (p + rax) % 32 = 0

/-- The labels are passed in turn while the offset does not grow. -/
def ScanAt.left (stop : ℕ) : ScanAt → ℕ
  | .prologue rax => 2 * (stop - rax) + 1
  | .chk128b rax => 2 * (stop - rax)
  | .pgxAligned rax => 2 * (stop - rax)

/-- What a step leads to: another label, or an answer that satisfies `Q`. -/
def ScanStep (s : Space) (p start stop left : ℕ) (Q : ℕ → Prop) (r : ScanAt ⊕ ℕ) (s' : Space) :
    Prop :=
  s' = s ∧ Sum.elim (fun label => label.Ready p start stop ∧ label.left stop < left) Q r

theorem wp_load_aligned (h : ScansTo s p sentinel start index) {x : ℤ} (hx : x = p + o)
    (hso : start ≤ o) (ho : o ≤ index) (hal : (p + o) % 32 = 0) {Q : Lanes → Space → Prop} :
    wp (vmovdqa ymm (ea x)) Q s ↔ Q (s.lanes 32 (p + o)) s := by
  have hlt := h.lt
  exact wp_vmovdqa (by omega) (by omega) hal (h.block hso ho (by simp only [pgsize]; omega))

variable {Q : ℕ → Prop}

theorem wp_chk128bPrologue (hlt : p + o < 2 ^ 64) (hso : start ≤ o) (ho : o ≤ stop)
    (hal : (p + o) % 32 = 0) :
    wp (chk128bPrologue p o) (ScanStep s p start stop (2 * (stop - o) + 1) Q) s := by
  have hpos : andl (pgsize - 1) (ea (p + o)) = (p + o) % pgsize := by
    rw [andl_page, ea_eq (a := p + o) (by omega) (by omega)]
  have hcmp : cmpl (pgsize - 0x80) ((p + o) % pgsize) =
      cmpq (pgsize - 0x80) ((p + o) % pgsize) := by
    rw [cmpl_eq (by decide) (by simp only [pgsize]; omega)]
  simp only [chk128bPrologue, hpos, hcmp, ja_cmpq, decide_eq_true_eq]
  by_cases hend : pgsize - 0x80 < (p + o) % pgsize
  · rw [if_pos hend, wp_pure]
    exact ⟨rfl, ⟨hso, ho, hal⟩, by simp [ScanAt.left]⟩
  · rw [if_neg hend, wp_pure]
    exact ⟨rfl, ⟨hso, ho, hal, by omega⟩, by simp [ScanAt.left]⟩

/-- A vector without a lesser byte. -/
theorem NoLesser.wp_pgxAligned (h : NoLesser s p sentinel start stop)
    (hy : Sentinels sentinel ymm15) (hso : start ≤ o) (hstop : o + 32 ≤ stop) (hal : (p + o) % 32 = 0) :
    wp (pgxAligned ymm15 p o) (ScanStep s p start stop (2 * (stop - o)) Q) s := by
  have hread := h.readable o hso (by omega)
  have hlt := h.mapped.lt (h.readable (stop - 1) (by omega) (by omega))
  rw [pgxAligned, wp_bind, wp_vmovdqa (a := p + o) (by omega) (by omega) hal
    (h.mapped.block hread (by simp only [pgsize]; omega))]
  have hnext : ea (o + 0x20) = o + 32 := ea_eq (by omega) (by omega)
  have hpos : andl (pgsize - 1) (ea (p + (o + 32 : ℕ))) = (p + (o + 32)) % pgsize := by
    rw [andl_page, ea_eq (a := p + (o + 32)) (by omega) (by omega)]
  have htest : ∀ x < pgsize, jz (testl x x) = decide (x = 0) := fun x hx => by
    simp only [pgsize] at hx
    rw [testl, low32_eq (by omega), Nat.and_self]
    rfl
  simp only [ymm, jnz_vptest, h.allZero hy hso (Nat.le_refl 32) hstop, decide_true, Bool.not_true,
    Bool.false_eq_true, if_false, hnext, hpos, htest _ (Nat.mod_lt _ (by decide)),
    decide_eq_true_eq]
  by_cases hend : (p + (o + 32)) % pgsize = 0
  · rw [if_pos hend, wp_pure]
    refine ⟨rfl, ⟨by omega, hstop, by omega, by rw [hend]; decide⟩, ?_⟩
    show 2 * (stop - (o + 32)) < 2 * (stop - o)
    omega
  · rw [if_neg hend, wp_pure]
    refine ⟨rfl, ⟨by omega, hstop, by omega⟩, ?_⟩
    show 2 * (stop - (o + 32)) < 2 * (stop - o)
    omega

theorem ScansTo.wp_pgxAligned (h : ScansTo s p sentinel start index)
    (hy : Sentinels sentinel ymm15) (hso : start ≤ o) (ho : o ≤ index) (hal : (p + o) % 32 = 0) :
    wp (pgxAligned ymm15 p o)
      (ScanStep s p start index (2 * (index - o)) (fun rax => rax = index)) s := by
  by_cases hin : o + 32 ≤ index
  · exact h.toNoLesser.wp_pgxAligned hy hso hin hal
  have hlt := h.lt
  rw [pgxAligned, wp_bind, wp_load_aligned h (o := o) (by omega) hso ho hal]
  simp only [ymm, jnz_vptest, h.allZero hy hso (Nat.le_refl 32) ho, hin, decide_false,
    Bool.not_false, if_true, wp_pure,
    h.tzcntl_mask hy hso (Nat.le_refl 32) (Nat.le_refl 32) ho (by omega)]
  rw [ea_eq (a := index) (by omega) (by omega)]
  exact ⟨rfl, rfl⟩

/-- The search among the first three of four vectors. -/
theorem ScansTo.search (h : ScansTo s p sentinel start index) (hy : Sentinels sentinel ymm15)
    (hso : start ≤ o) (ho : o ≤ index) (hin : index < o + 128) :
    ([vpcmpgtb 32 (s.lanes 32 (p + o)) ymm15, vpcmpgtb 32 (s.lanes 32 (p + (o + 32))) ymm15,
      vpcmpgtb 32 (s.lanes 32 (p + (o + 64))) ymm15].foldl scanMask (o, 0x20)).1 =
      o + (index - o) / 32 * 32 := by
  have hlt := h.lt
  rw [scanMask, search_fold _ (by simp; omega)]
  simp only [List.findIdx_cons, ymm, jnz_vptest, h.allZero hy hso (Nat.le_refl 32) ho]
  by_cases h0 : o + 32 ≤ index
  · simp only [h0, h.allZero hy (show start ≤ o + 32 by omega) (Nat.le_refl 32) h0]
    by_cases h1 : o + 32 + 32 ≤ index
    · simp only [h1, h.allZero hy (show start ≤ o + 64 by omega) (Nat.le_refl 32)
        (show o + 64 ≤ index by omega)]
      by_cases h2 : o + 64 + 32 ≤ index
      · simp only [h2, decide_true, Bool.not_true, cond_false, List.findIdx_nil]
        omega
      · simp only [h2, decide_true, decide_false, Bool.not_true, Bool.not_false, cond_false,
          cond_true]
        omega
    · simp only [h1, decide_true, decide_false, Bool.not_true, Bool.not_false, cond_false,
        cond_true]
      omega
  · simp only [h0, decide_false, Bool.not_false, cond_true]
    omega

/-- The four vectors of a block on one page. -/
theorem wp_vectors (hblock : s.Readable (p + o) 128) (hlt : p + o + 128 < 2 ^ 64)
    (hal : (p + o) % 32 = 0) {f : Lanes → Lanes → Lanes → Lanes → Prog Space (ScanAt ⊕ ℕ)}
    {R : ScanAt ⊕ ℕ → Space → Prop} :
    wp (do
      let ymm0 ← vmovdqa ymm (ea (p + o))
      let ymm1 ← vmovdqa ymm (ea (p + o + 0x20))
      let ymm2 ← vmovdqa ymm (ea (p + o + 0x40))
      let ymm3 ← vmovdqa ymm (ea (p + o + 0x60))
      f ymm0 ymm1 ymm2 ymm3) R s ↔
    wp (f (s.lanes 32 (p + o)) (s.lanes 32 (p + (o + 32))) (s.lanes 32 (p + (o + 64)))
      (s.lanes 32 (p + (o + 96)))) R s := by
  have hvector : ∀ j ≤ 96, j % 32 = 0 →
      (p + (o + j)) % 32 = 0 ∧ s.Readable (p + (o + j)) 32 :=
    fun j hj hmod => ⟨by omega, hblock.mono (by omega) (by omega)⟩
  obtain ⟨hal0, hr0⟩ := hvector 0 (by decide) (by decide)
  obtain ⟨hal1, hr1⟩ := hvector 32 (by decide) (by decide)
  obtain ⟨hal2, hr2⟩ := hvector 64 (by decide) (by decide)
  obtain ⟨hal3, hr3⟩ := hvector 96 (by decide) (by decide)
  rw [wp_bind, wp_vmovdqa (a := p + o) (by omega) (by omega) hal0 hr0,
    wp_bind, wp_vmovdqa (a := p + (o + 32)) (by omega) (by omega) hal1 hr1,
    wp_bind, wp_vmovdqa (a := p + (o + 64)) (by omega) (by omega) hal2 hr2,
    wp_bind, wp_vmovdqa (a := p + (o + 96)) (by omega) (by omega) hal3 hr3]

/-- A block without a lesser byte. -/
theorem NoLesser.wp_chk128b (h : NoLesser s p sentinel start stop) (hy : Sentinels sentinel ymm15)
    (hso : start ≤ o) (hstop : o + 128 ≤ stop) (hal : (p + o) % 32 = 0)
    (hpage : (p + o) % pgsize ≤ pgsize - 0x80) :
    wp (chk128b ymm15 p o) (ScanStep s p start stop (2 * (stop - o)) Q) s := by
  have hread := h.readable o hso (by omega)
  have hlt := h.mapped.lt (h.readable (stop - 1) (by omega) (by omega))
  have hblock : s.Readable (p + o) 128 := h.mapped.block hread (by simp only [pgsize] at *; omega)
  have hrax : ea (o + 0x80) = o + 128 := ea_eq (by omega) (by omega)
  have hall : ∀ j ≤ 96, AllZero 32 (vpcmpgtb 32 (s.lanes 32 (p + (o + j))) ymm15) :=
    fun j hj => h.allZero hy (by omega) (Nat.le_refl 32) (by omega)
  have h0 : AllZero 32 (vpcmpgtb 32 (s.lanes 32 (p + o)) ymm15) := hall 0 (by omega)
  refine (wp_vectors hblock (by omega) hal).mpr ?_
  simp only [ymm, jz_vptest, allZero_vpor, hrax, h0, hall 32 (by omega), hall 64 (by omega),
    hall 96 (by omega), and_self, decide_true, if_true, wp_pure]
  refine ⟨rfl, ⟨by omega, hstop, by omega⟩, ?_⟩
  show 2 * (stop - (o + 128)) + 1 < 2 * (stop - o)
  omega

theorem ScansTo.wp_chk128b (h : ScansTo s p sentinel start index) (hy : Sentinels sentinel ymm15)
    (hso : start ≤ o) (ho : o ≤ index) (hal : (p + o) % 32 = 0)
    (hpage : (p + o) % pgsize ≤ pgsize - 0x80) :
    wp (chk128b ymm15 p o)
      (ScanStep s p start index (2 * (index - o)) (fun rax => rax = index)) s := by
  by_cases hin : o + 128 ≤ index
  · exact h.toNoLesser.wp_chk128b hy hso hin hal hpage
  have hlt := h.lt
  have hblock : s.Readable (p + o) 128 := h.block hso ho (by simp only [pgsize] at *; omega)
  have hrax : ea (o + 0x80) = o + 128 := ea_eq (by omega) (by omega)
  have hback : subq 0x80 (o + 128) = o := by
    rw [subq_eq (by omega) (by omega)]
    omega
  have hsome : ¬ ((AllZero 32 (vpcmpgtb 32 (s.lanes 32 (p + o)) ymm15) ∧
      AllZero 32 (vpcmpgtb 32 (s.lanes 32 (p + (o + 32))) ymm15)) ∧
      AllZero 32 (vpcmpgtb 32 (s.lanes 32 (p + (o + 64))) ymm15) ∧
      AllZero 32 (vpcmpgtb 32 (s.lanes 32 (p + (o + 96))) ymm15)) := by
    rintro ⟨⟨h0, h1⟩, h2, h3⟩
    have hvec : ∀ j, o + j ≤ index →
        (AllZero 32 (vpcmpgtb 32 (s.lanes 32 (p + (o + j))) ymm15) ↔ o + j + 32 ≤ index) :=
      fun j hj => h.allZero hy (by omega) (Nat.le_refl 32) hj
    have h0' := (hvec 0 ho).mp h0
    have h1' := (hvec 32 h0').mp h1
    have h2' := (hvec 64 (by omega)).mp h2
    have h3' := (hvec 96 (by omega)).mp h3
    omega
  -- the vector with the byte is loaded again
  have hvec : o + (index - o) / 32 * 32 ≤ index ∧ index < o + (index - o) / 32 * 32 + 32 := by
    omega
  refine (wp_vectors hblock (by omega) hal).mpr ?_
  simp only [ymm, jz_vptest, allZero_vpor, hrax, hback, hsome, decide_false, Bool.false_eq_true,
    if_false, wp_bind, h.search hy hso ho (by omega)]
  rw [wp_load_aligned h (o := o + (index - o) / 32 * 32) (by omega) (by omega) hvec.1 (by omega),
    wp_pure, h.tzcntl_mask hy (by omega) (Nat.le_refl 32) (Nat.le_refl 32) hvec.1 hvec.2,
    ea_eq (a := index) (by omega) (by omega)]
  exact ⟨rfl, rfl⟩

/-- The scan from a label on finds the byte. -/
theorem returns_scanFrom (h : ScansTo s p sentinel start index) (hy : Sentinels sentinel ymm15)
    {label : ScanAt} (hl : label.Ready p start index) :
    Returns (scanFrom ymm15 p label) s index s := by
  have hrun : Total (scanFrom ymm15 p label) (fun rax s' => rax = index ∧ s' = s) s := by
    refine total_loop (f := fun _ => scanStep ymm15 p)
      (I := fun left label s' => left = label.left index ∧ s' = s ∧ label.Ready p start index) ?_
      (label.left index) label s ⟨rfl, rfl, hl⟩
    rintro left label s' ⟨rfl, rfl, hl⟩
    have hstep : wp (scanStep ymm15 p label)
        (ScanStep s' p start index (label.left index) (fun rax => rax = index)) s' := by
      have hlt := h.lt
      cases label with
      | prologue rax =>
        obtain ⟨hso, ho, hal⟩ := hl
        exact wp_chk128bPrologue (by omega) hso ho hal
      | chk128b rax => exact h.wp_chk128b hy hl.1 hl.2.1 hl.2.2.1 hl.2.2.2
      | pgxAligned rax => exact h.wp_pgxAligned hy hl.1 hl.2.1 hl.2.2
    refine (Total.const hstep).mono ?_
    rintro (label' | rax) s'' ⟨rfl, hr⟩
    · exact ⟨_, hr.2, rfl, rfl, hr.1⟩
    · exact ⟨hr, rfl⟩
  obtain ⟨rax, s', hret, rfl, rfl⟩ := hrun
  exact hret

/-- At a page boundary the scan goes on by vectors. -/
theorem answers_boundary (h : ScansTo s p sentinel start index) (hy : Sentinels sentinel ymm15)
    (hso : start ≤ o) (ho : o ≤ index) (hpage : (p + o) % pgsize = 0) :
    Answers (scanFrom ymm15 p (.chk128b o)) s (some index) :=
  returns_scanFrom h hy ⟨hso, ho, by simp only [pgsize] at hpage; omega, by rw [hpage]; decide⟩

theorem vmovdqa_fails {x : ℤ} {a : ℕ} (hx : x = a) (hlt : a < 2 ^ 64)
    (hbad : a % 32 ≠ 0 ∨ s.readable a = false) : vmovdqa ymm (ea x) s = none := by
  rw [ea_eq hx hlt, vmovdqa]
  by_cases hal : a % ymm = 0
  · rw [if_pos hal]
    refine load_fails fun hr => ?_
    have hr0 : s.readable a = true := hr 0 (by decide)
    exact absurd (hr0.symm.trans (hbad.resolve_left (not_not_intro hal))) (by simp)
  · rw [if_neg hal]

theorem chk128b_fails (hlt : p + o < 2 ^ 64)
    (hbad : (p + o) % 32 ≠ 0 ∨ s.readable (p + o) = false) : chk128b ymm15 p o s = none := by
  rw [chk128b, bind_apply, vmovdqa_fails (a := p + o) (by omega) hlt hbad]
  rfl

/-- A block that is not aligned, or not readable, stops the scan. -/
theorem answers_fault (hlt : p + o < 2 ^ 64)
    (hbad : (p + o) % 32 ≠ 0 ∨ s.readable (p + o) = false) :
    Answers (scanFrom ymm15 p (.chk128b o)) s none := by
  intro n
  cases n with
  | zero => rfl
  | succ n =>
    rw [scanFrom, fuelLoop_succ, scanStep, chk128b_fails hlt hbad]
    rfl

/-- Where memory ends before a lesser byte, the scan runs into its end. -/
theorem answers_unmapped (h : NoLesser s p sentinel start stop) (hy : Sentinels sentinel ymm15)
    (hpage : (p + stop) % pgsize = 0) (hend : s.readable (p + stop) = false)
    (hlt : p + stop < 2 ^ 64) {label : ScanAt} (hl : label.Ready p start stop) :
    Answers (scanFrom ymm15 p label) s none := by
  simp only [pgsize] at hpage
  intro n
  by_contra hsome
  obtain ⟨⟨rax, s'⟩, hrun⟩ := Option.ne_none_iff_exists'.mp hsome
  refine fuelLoop_partial (I := fun label s' => s' = s ∧ label.Ready p start stop)
    (Q := fun _ _ => False) ?_ n label s rax s' ⟨rfl, hl⟩ hrun
  rintro label s₁ r s₂ ⟨rfl, hl⟩ hstep
  -- a step at the end of memory fails, and one before it goes on
  have hnext : wp (scanStep ymm15 p label)
      (ScanStep s₁ p start stop (label.left stop) (fun _ => False)) s₁ := by
    cases label with
    | prologue rax =>
      obtain ⟨hso, ho, hal⟩ := hl
      exact wp_chk128bPrologue (by omega) hso ho hal
    | chk128b rax =>
      obtain ⟨hso, ho, hal, hblock⟩ := hl
      rcases Nat.lt_or_eq_of_le ho with hlt' | rfl
      · exact h.wp_chk128b hy hso (by simp only [pgsize] at hblock; omega) hal hblock
      · rw [scanStep, chk128b_fails hlt (.inr hend)] at hstep
        exact absurd hstep (by simp)
    | pgxAligned rax =>
      obtain ⟨hso, ho, hal⟩ := hl
      rcases Nat.lt_or_eq_of_le ho with hlt' | rfl
      · exact h.wp_pgxAligned hy hso (by omega) hal
      · rw [scanStep, pgxAligned, bind_apply,
          vmovdqa_fails (a := p + rax) (by omega) hlt (.inr hend)] at hstep
        exact absurd hstep (by simp)
  obtain ⟨rfl, hr⟩ := (wp_of_some hstep).mp hnext
  rcases r with label' | rax'
  · exact ⟨rfl, hr.1⟩
  · exact hr

/-- The offset of the first byte below the sentinel from `o` on, if all bytes up to it can be
read; `n` bounds the search. -/
def lessFrom (s : Space) (p sentinel : ℕ) : ℕ → ℕ → Option ℕ
  | 0, _ => none
  | n + 1, o =>
    if s.readable (p + o) = true then
      if int8 (s.bytes (p + o)) < sentinel then some o else lessFrom s p sentinel n (o + 1)
    else none

attribute [grind =] lessFrom

theorem lessFrom_some (h : lessFrom s p sentinel n o = some index) : o ≤ index ∧
    (∀ j, o ≤ j → j < index → s.readable (p + j) = true ∧
      (sentinel : ℤ) ≤ int8 (s.bytes (p + j))) ∧
    s.readable (p + index) = true ∧ int8 (s.bytes (p + index)) < sentinel := by
  induction n generalizing o with
  | zero => exact absurd h (by simp [lessFrom])
  | succ n ih =>
    rw [lessFrom] at h
    split_ifs at h with hr hb
    · obtain rfl := Option.some.inj h
      exact ⟨Nat.le_refl o, fun j hj hlt => absurd hlt (by omega), hr, hb⟩
    · obtain ⟨hle, hbefore, hlast⟩ := ih h
      refine ⟨by omega, fun j hj hlt => ?_, hlast⟩
      rcases Nat.lt_or_eq_of_le hj with hj | rfl
      · exact hbefore j hj hlt
      · exact ⟨hr, by omega⟩

theorem lessFrom_none (h : lessFrom s p sentinel n o = none) : ∃ stop, o ≤ stop ∧
    (∀ j, o ≤ j → j < stop → s.readable (p + j) = true ∧
      (sentinel : ℤ) ≤ int8 (s.bytes (p + j))) ∧
    (s.readable (p + stop) = false ∨ stop = o + n) := by
  induction n generalizing o with
  | zero => exact ⟨o, Nat.le_refl o, fun j hj hlt => absurd hlt (by omega), .inr rfl⟩
  | succ n ih =>
    rw [lessFrom] at h
    split_ifs at h with hr hb
    · obtain ⟨stop, hle, hbefore, hend⟩ := ih h
      refine ⟨stop, by omega, fun j hj hlt => ?_, hend.imp_right fun heq => by omega⟩
      rcases Nat.lt_or_eq_of_le hj with hj | rfl
      · exact hbefore j hj hlt
      · exact ⟨hr, by omega⟩
    · exact ⟨o, Nat.le_refl o, fun j hj hlt => absurd hlt (by omega),
        .inl (Bool.eq_false_iff.mpr hr)⟩

/-- The search finds what the scan is to find. -/
theorem ScansTo.lessFrom_eq (h : ScansTo s p sentinel o index) (hn : index < o + n) :
    lessFrom s p sentinel n o = some index := by
  induction n generalizing o with
  | zero => exact absurd h.le (by omega)
  | succ n ih =>
    rw [lessFrom, if_pos (h.readable_le (Nat.le_refl o) h.le)]
    rcases Nat.lt_or_eq_of_le h.le with hlt | rfl
    · have hb := h.before o (Nat.le_refl o) hlt
      rw [if_neg (by omega)]
      exact ih (h.from (by omega) hlt) (by omega)
    · rw [if_pos h.less]

/-- From a page boundary on, the vectors find what the search finds. -/
theorem answers_lessFrom {d : ℕ} (hm : PageMapped s) (hs : sentinel ≤ 127)
    (hy : Sentinels sentinel ymm15) (hd : (p + d) % pgsize = 0) (hlt : p + d ≤ 2 ^ 63) :
    Answers (scanFrom ymm15 p (.chk128b d)) s (lessFrom s p sentinel (2 ^ 63) d) := by
  cases hless : lessFrom s p sentinel (2 ^ 63) d with
  | some i =>
    obtain ⟨hle, hbefore, hr, hb⟩ := lessFrom_some hless
    have hscan : ScansTo s p sentinel d i :=
      ⟨⟨hm, hs, fun j hj hji => (hbefore j hj hji).2, fun j hj hji => (hbefore j hj hji).1⟩,
        hle, hb, hr⟩
    exact answers_boundary hscan hy (Nat.le_refl d) hle hd
  | none =>
    obtain ⟨stop, hle, hbefore, hend⟩ := lessFrom_none hless
    have hpasses : NoLesser s p sentinel d stop :=
      ⟨hm, hs, fun j hj hjs => (hbefore j hj hjs).2, fun j hj hjs => (hbefore j hj hjs).1⟩
    have hunread : s.readable (p + stop) = false := by
      rcases hend with hr | rfl
      · exact hr
      · exact hm.low _ (by omega)
    -- what cannot be read begins at a page boundary
    have hbound : (p + stop) % pgsize = 0 ∧ p + stop ≤ 2 ^ 63 := by
      rcases Nat.lt_or_eq_of_le hle with hds | rfl
      · have hr := (hbefore (stop - 1) (by omega) (by omega)).1
        have hlow := hm.lt hr
        refine ⟨?_, by omega⟩
        by_contra hno
        have hsame := hm.page (p + (stop - 1)) (p + stop) (by simp only [pgsize] at *; omega)
        exact absurd (hunread.symm.trans (hsame.symm.trans hr)) (by simp)
      · exact ⟨hd, hlt⟩
    refine answers_unmapped hpasses hy hbound.1 hunread (by omega) ⟨Nat.le_refl d, hle, ?_, ?_⟩
    · simp only [pgsize] at hd
      omega
    · rw [hd]
      exact Nat.zero_le _

/-! ### Before a page boundary -/

/-- What the scan answers for a sequence that begins `d` bytes before a page boundary, fewer
than 32, where a scan from the boundary on answers `next`. -/
def edgeAnswer (s : Space) (p sentinel index d : ℕ) (next : Option ℕ) : Option ℕ :=
  let o := d / 4 * 4
  let byte := fun i => (s.bytes (p + i)).toNat
  let behind := s.readable (p + d)
  if index < o then some index
  else if d % 4 = 0 then next
  else if d % 4 = 1 then
    if !behind then none else if byte d ≤ sentinel then next else some o
  else if sentinel < byte (o + 1) then some (if sentinel < byte o % 16 then o else o + 1)
  else if sentinel < byte o % 16 then
    if d % 4 = 2 then next
    else if !behind then none else if byte d ≤ sentinel then next else some (o + 2)
  else if d % 4 = 2 ∨ behind = false ∨ byte (d + 2) ≤ sentinel then none else some (d + 1)

variable {d : ℕ} {ans next : Option ℕ}

/-- The step over one byte, which looks at the byte behind it. -/
theorem answers_pgx1b (hs : sentinel ≤ 127) (hlt : p + (o + 1) < 2 ^ 64)
    (hfault : s.readable (p + (o + 1)) = false → ans = none)
    (hmore : s.readable (p + (o + 1)) = true → (s.bytes (p + (o + 1))).toNat ≤ sentinel →
      Answers (scanFrom ymm15 p (.chk128b (o + 1))) s ans)
    (hless : s.readable (p + (o + 1)) = true → sentinel < (s.bytes (p + (o + 1))).toNat →
      ans = some o) :
    Answers (pgx1b ymm15 p sentinel o (pgsize - 1)) s ans := by
  have hrun : pgx1b ymm15 p sentinel o (pgsize - 1) = fun fuel =>
      loadByte (ea (p + (o + 1 : ℕ))) >>= fun b =>
        if b.toNat ≤ sentinel then scanFrom ymm15 p (.chk128b (o + 1)) fuel else pure o := by
    funext fuel
    have hfl : jz (cmpl pgsize (pgsize - 1)) = false := by decide
    have hrax : ea (o + 0x01) = o + 1 := ea_eq (by omega) (by omega)
    have hback : subq 0x01 (o + 1) = o := by
      rw [subq_eq (by omega) (by omega)]
      omega
    simp only [pgx1b, hfl, Bool.false_eq_true, if_false, hrax, hback, cmpb, jnb_cmpq,
      decide_eq_true_eq, Nat.mod_eq_of_lt (show sentinel < 2 ^ 8 by omega)]
  have hea : ea (p + (o + 1 : ℕ)) = p + (o + 1) := ea_eq (by omega) (by omega)
  rw [hrun, hea]
  cases hr : s.readable (p + (o + 1)) with
  | false =>
    rw [hfault hr]
    exact Answers.bind_fails (loadByte_fails hr)
  | true =>
    refine Answers.bind (loadByte_eq hr) ?_
    by_cases hb : (s.bytes (p + (o + 1))).toNat ≤ sentinel
    · simp only [if_pos hb]
      exact hmore hr hb
    · simp only [if_neg hb, hless hr (by omega)]
      exact Answers.pure o s

/-- The word at the offset `o`, as the step over two bytes takes it apart. -/
theorem movzxw_eq (h : s.Readable (p + o) 2) (hlt : p + o < 2 ^ 64) :
    movzxw (ea (p + o)) s =
      some ((s.bytes (p + o)).toNat + 2 ^ 8 * (s.bytes (p + (o + 1))).toNat, s) := by
  rw [ea_eq (a := p + o) (by omega) hlt, movzxw, bind_some (load_eq h) rfl, pure_apply,
    lanes_of_lt (by decide), lanes_of_lt (by decide), Nat.add_zero, Nat.add_assoc]

theorem andl_nibble (a b : UInt8) : andl 0x0f (a.toNat + 2 ^ 8 * b.toNat) = a.toNat % 16 := by
  have ha := a.toNat_lt
  have hb := b.toNat_lt
  rw [andl, low32_eq (by decide), low32_eq (by omega), Nat.and_comm,
    show 0x0f = 2 ^ 4 - 1 from rfl, Nat.and_two_pow_sub_one_eq_mod]
  omega

theorem shrl_byte (a b : UInt8) : shrl 0x08 (low32 (a.toNat + 2 ^ 8 * b.toNat)) = b.toNat := by
  have ha := a.toNat_lt
  have hb := b.toNat_lt
  rw [shrl, low32_eq (a := low32 _) (Nat.mod_lt _ (by decide)), low32_eq (by omega),
    Nat.shiftRight_eq_div_pow]
  omega

/-- The step over two bytes, of which the second decides whether the scan ends. -/
theorem answers_word (h : ScansTo s p sentinel 0 index) (hd : (p + d) % pgsize = 0)
    (hod : o + 2 ≤ d) (hdo : d ≤ o + 3) (hoi : o ≤ index)
    (hfound : sentinel < (s.bytes (p + (o + 1))).toNat →
      ans = some (if sentinel < (s.bytes (p + o)).toNat % 16 then o else o + 1))
    (hnone : (s.bytes (p + (o + 1))).toNat ≤ sentinel →
      Answers (pgx1b ymm15 p sentinel
        (if sentinel < (s.bytes (p + o)).toNat % 16 then o + 2 else o + 4)
        (pgsize - (d - (o + 2)))) s ans) :
    Answers (pgx2b ymm15 p sentinel o (pgsize - (d - o))) s ans := by
  have hlt := h.lt
  have hsentinel := h.sentinel_le
  have hje : je (cmpl pgsize (pgsize - (d - o))) = false := by
    rw [cmpl_eq (by decide) (by simp only [pgsize]; omega), je_cmpq]
    exact decide_eq_false (by simp only [pgsize]; omega)
  have hja : ja (cmpl (pgsize - 0x02) (pgsize - (d - o))) = false := by
    rw [cmpl_eq (by decide) (by simp only [pgsize]; omega), ja_cmpq]
    exact decide_eq_false (by simp only [pgsize]; omega)
  have hrcx : leal ((pgsize - (d - o) : ℕ) + 0x02) = pgsize - (d - (o + 2)) := by
    refine leal_eq ?_ (by simp only [pgsize]; omega)
    simp only [pgsize]
    omega
  have hword := movzxw_eq
    (h.block (n := 2) (Nat.zero_le o) hoi (by simp only [pgsize] at *; omega)) (by omega)
  have hcmp : ∀ r8 : ℕ, jb (cmpl r8 sentinel) = decide (sentinel < low32 r8) := fun r8 => by
    rw [cmpl, low32_eq (a := sentinel) (by omega), jb_cmpq]
  have hrun : pgx2b ymm15 p sentinel o (pgsize - (d - o)) = fun fuel =>
      movzxw (ea (p + o)) >>= fun rdx =>
        let r9 := if sentinel < low32 (andl 0x0f rdx) then 0 else 1
        let found := sentinel < low32 (shrl 0x08 (low32 rdx))
        let rax := ea (addq (if found then 0 else r9) (addq r9 o) + 0x02)
        if found then pure (ea (rax - 0x02))
        else pgx1b ymm15 p sentinel rax (pgsize - (d - (o + 2))) fuel := by
    funext fuel
    simp only [pgx2b, hje, hja, hcmp, Bool.false_eq_true, if_false, hrcx, decide_eq_true_eq]
    refine congrArg _ (funext fun rdx => ?_)
    by_cases hless : sentinel < low32 (shrl 0x08 (low32 rdx))
    · simp only [hless, if_true, show jz (testl 1 1) = false from rfl, Bool.false_eq_true, if_false]
    · simp only [hless, if_false, show jz (testl 0 0) = true from rfl, if_true]
  rw [hrun]
  refine Answers.bind hword ?_
  have hb0 := (s.bytes (p + o)).toNat_lt
  have hb1 := (s.bytes (p + (o + 1))).toNat_lt
  simp only [andl_nibble, shrl_byte, low32_eq (show (s.bytes (p + o)).toNat % 16 < 2 ^ 32 by omega),
    low32_eq (show (s.bytes (p + (o + 1))).toNat < 2 ^ 32 by omega)]
  have hadd : ∀ r9 x : ℕ, r9 ≤ 1 → x ≤ o + 1 → addq r9 x = x + r9 :=
    fun r9 x h9 hx => ea_eq (by omega) (by omega)
  have hnext : ∀ x : ℕ, x ≤ o + 2 → ea (x + 0x02) = x + 2 := fun x hx => ea_eq (by omega) (by omega)
  have hback : ∀ x : ℕ, x ≤ o + 2 → ea ((x + 2 : ℕ) - 0x02) = x :=
    fun x hx => ea_eq (by omega) (by omega)
  by_cases hfirst : sentinel < (s.bytes (p + o)).toNat % 16
  · simp only [hfirst, if_true] at hfound hnone ⊢
    simp only [ite_self, hadd 0 o (by decide) (by omega), Nat.add_zero, hnext o (by omega),
      hback o (by omega)]
    by_cases hless : sentinel < (s.bytes (p + (o + 1))).toNat
    · simp only [hless, if_true, hfound hless]
      exact Answers.pure o s
    · simp only [hless, if_false]
      exact hnone (by omega)
  · simp only [hfirst, if_false] at hfound hnone ⊢
    by_cases hless : sentinel < (s.bytes (p + (o + 1))).toNat
    · simp only [hless, if_true, hfound hless, hadd 1 o (by decide) (by omega),
        hadd 0 (o + 1) (by decide) (by omega), Nat.add_zero, hnext (o + 1) (by omega),
        hback (o + 1) (by omega)]
      exact Answers.pure (o + 1) s
    · simp only [hless, if_false, hadd 1 o (by decide) (by omega),
        hadd 1 (o + 1) (by decide) (by omega), hnext (o + 1 + 1) (by omega)]
      exact hnone (by omega)

/-- The steps over the last bytes of a page, at most three. -/
theorem answers_pgx2b (h : ScansTo s p sentinel 0 index) (hd : (p + d) % pgsize = 0)
    (ho : o = d / 4 * 4) (hoi : o ≤ index)
    (hnext : Answers (scanFrom ymm15 p (.chk128b d)) s next) :
    Answers (pgx2b ymm15 p sentinel o (pgsize - (d - o))) s
      (edgeAnswer s p sentinel index d next) := by
  have hlt := h.lt
  have hsentinel := h.sentinel_le
  simp only [edgeAnswer, ← ho, show ¬ index < o by omega, if_false]
  -- the bytes behind the boundary are on one page
  have hbehind : ∀ i, d ≤ i → i < d + 32 → s.readable (p + i) = s.readable (p + d) :=
    fun i hi hid => h.mapped.behind hd hi hid
  -- behind the page an offset that is not aligned stops the scan
  have hfault : ∀ x, d < x → x ≤ d + 3 → Answers (scanFrom ymm15 p (.chk128b x)) s none :=
    fun x hx hx3 => answers_fault (by omega) (.inl (by simp only [pgsize] at hd; omega))
  by_cases h0 : d % 4 = 0
  · have hrun : pgx2b ymm15 p sentinel o (pgsize - (d - o)) =
        fun fuel => scanFrom ymm15 p (.chk128b o) fuel := by
      funext fuel
      rw [show d - o = 0 by omega]
      rfl
    rw [hrun, if_pos h0, show o = d by omega]
    exact hnext
  rw [if_neg h0]
  by_cases h1 : d % 4 = 1
  · have hrun : pgx2b ymm15 p sentinel o (pgsize - (d - o)) =
        fun fuel => pgx1b ymm15 p sentinel o (pgsize - 1) fuel := by
      funext fuel
      rw [show d - o = 1 by omega]
      rfl
    have hod : o + 1 = d := by omega
    rw [hrun, if_pos h1]
    refine answers_pgx1b hsentinel (by omega) ?_ ?_ ?_
    · rw [hod]
      intro hr
      rw [hr]
      rfl
    · rw [hod]
      intro hr hb
      rw [hr, if_pos hb]
      exact hnext
    · rw [hod]
      intro hr hb
      simp only [hr, Bool.not_true, Bool.false_eq_true, if_false]
      exact if_neg (by omega)
  rw [if_neg h1]
  refine answers_word h hd (by omega) (by omega) hoi (fun hless => if_pos hless) fun hmore => ?_
  rw [if_neg (show ¬ sentinel < (s.bytes (p + (o + 1))).toNat by omega)]
  by_cases hfirst : sentinel < (s.bytes (p + o)).toNat % 16
  · simp only [if_pos hfirst]
    by_cases h2 : d % 4 = 2
    · have hrun : pgx1b ymm15 p sentinel (o + 2) (pgsize - (d - (o + 2))) =
          fun fuel => scanFrom ymm15 p (.chk128b (o + 2)) fuel := by
        funext fuel
        rw [show d - (o + 2) = 0 by omega]
        rfl
      rw [hrun, if_pos h2, show o + 2 = d by omega]
      exact hnext
    · rw [show d - (o + 2) = 1 by omega, if_neg h2]
      have hod : o + 2 + 1 = d := by omega
      refine answers_pgx1b hsentinel (by omega) ?_ ?_ ?_
      · rw [hod]
        intro hr
        rw [hr]
        rfl
      · rw [hod]
        intro hr hb
        rw [hr, if_pos hb]
        exact hnext
      · rw [hod]
        intro hr hb
        simp only [hr, Bool.not_true, Bool.false_eq_true, if_false]
        exact if_neg (by omega)
  · simp only [if_neg hfirst]
    by_cases h2 : d % 4 = 2
    · have hrun : pgx1b ymm15 p sentinel (o + 4) (pgsize - (d - (o + 2))) =
          fun fuel => scanFrom ymm15 p (.chk128b (o + 4)) fuel := by
        funext fuel
        rw [show d - (o + 2) = 0 by omega]
        rfl
      rw [hrun, if_pos (.inl h2)]
      exact hfault (o + 4) (by omega) (by omega)
    · rw [show d - (o + 2) = 1 by omega]
      have hod : o + 4 + 1 = d + 2 := by omega
      refine answers_pgx1b hsentinel (by omega) ?_ ?_ ?_
      · rw [hod, hbehind (d + 2) (by omega) (by omega)]
        exact fun hr => if_pos (.inr (.inl hr))
      · rw [hod]
        intro hr hb
        rw [if_pos (.inr (.inr hb))]
        exact hfault (d + 2) (by omega) (by omega)
      · rw [hod, hbehind (d + 2) (by omega) (by omega)]
        intro hr hb
        rw [hr, if_neg (by simp; omega), show o + 4 = d + 1 by omega]

/-- A scan that ends before the last word of the page. -/
theorem edgeAnswer_early (h : index < d / 4 * 4) :
    edgeAnswer s p sentinel index d next = some index := if_pos h

/-- The step over four or eight bytes. -/
theorem answers_narrow {rest : ℕ → Prog Space ℕ} (h : ScansTo s p sentinel 0 index)
    (hy : Sentinels sentinel ymm15) (hd : (p + d) % pgsize = 0) (hd32 : d < 32) (hn : n ≤ 16)
    (hod : o + n ≤ d) (hoi : o ≤ index) (hfound : index < o + n → ans = some index)
    (hrest : o + n ≤ index → Answers rest s ans) :
    Answers (fun fuel => Space.load n (ea (p + o)) >>= fun xmm0 =>
      if jz (testl (2 ^ n - 1) (vpmovmskb xmm (vpcmpgtb xmm xmm0 ymm15))) = true then rest fuel
      else pure (ea ((o + n : ℕ) + tzcntl (vpmovmskb xmm (vpcmpgtb xmm xmm0 ymm15)) - n))) s
      ans := by
  have hlt := h.lt
  have hread : s.Readable (p + o) n :=
    h.block (Nat.zero_le o) hoi (by simp only [pgsize] at *; omega)
  rw [ea_eq (a := p + o) (by omega) (by omega)]
  refine Answers.bind (load_eq hread) ?_
  simp only [jz_testl (show n ≤ 32 by omega), decide_eq_true_eq,
    h.mask_zero hy (Nat.zero_le o) hn (show xmm ≤ 32 by decide) hoi]
  by_cases hin : o + n ≤ index
  · simp only [if_pos hin]
    exact hrest hin
  · simp only [if_neg hin, h.tzcntl_mask hy (Nat.zero_le o) hn (show xmm ≤ 32 by decide) hoi
      (by omega), hfound (by omega)]
    rw [ea_eq (a := index) (by omega) (by omega)]
    exact Answers.pure index s

/-- Whether a step would cross the page boundary. -/
theorem ja_cmpl_edge (hn : n ≤ 32) (hod : o ≤ d) :
    ja (cmpl (pgsize - n) (pgsize - (d - o))) = decide (d < o + n) := by
  rw [cmpl_eq (by simp only [pgsize]; omega) (by simp only [pgsize]; omega),
    ja_cmpq]
  exact decide_eq_decide.mpr (by simp only [pgsize]; omega)

theorem leal_edge (hd32 : d < 32) (hod : o + n ≤ d) :
    leal ((pgsize - (d - o) : ℕ) + (n : ℤ)) = pgsize - (d - (o + n)) := by
  refine leal_eq ?_ (by simp only [pgsize]; omega)
  simp only [pgsize]
  omega

theorem je_cmpl_edge (hod : o ≤ d) :
    je (cmpl pgsize (pgsize - (d - o))) = decide (d = o) := by
  rw [cmpl_eq (by decide) (by simp only [pgsize]; omega), je_cmpq]
  exact decide_eq_decide.mpr (by simp only [pgsize]; omega)

theorem answers_pgx4b (h : ScansTo s p sentinel 0 index) (hy : Sentinels sentinel ymm15)
    (hd : (p + d) % pgsize = 0) (hd32 : d < 32) (ho : o = d / 8 * 8) (hoi : o ≤ index)
    (hnext : Answers (scanFrom ymm15 p (.chk128b d)) s next) :
    Answers (pgx4b ymm15 p sentinel o (pgsize - (d - o))) s
      (edgeAnswer s p sentinel index d next) := by
  have hlt := h.lt
  by_cases h0 : d = o
  · have hrun : pgx4b ymm15 p sentinel o (pgsize - (d - o)) =
        fun fuel => scanFrom ymm15 p (.chk128b o) fuel := by
      funext fuel
      rw [pgx4b, je_cmpl_edge (by omega), if_pos (decide_eq_true h0)]
    have hedge : edgeAnswer s p sentinel index d next = next := by
      simp only [edgeAnswer, show ¬ index < d / 4 * 4 by omega, show d % 4 = 0 by omega, if_false,
        if_true]
    rw [hrun, hedge, ← h0]
    exact hnext
  by_cases h4 : d < o + 4
  · have hrun : pgx4b ymm15 p sentinel o (pgsize - (d - o)) =
        fun fuel => pgx2b ymm15 p sentinel o (pgsize - (d - o)) fuel := by
      funext fuel
      simp only [pgx4b, je_cmpl_edge (show o ≤ d by omega), h0, decide_false,
        Bool.false_eq_true, if_false, ja_cmpl_edge (show 0x04 ≤ 32 by decide)
        (show o ≤ d by omega), h4, decide_true, if_true]
    rw [hrun]
    exact answers_pgx2b h hd (by omega) hoi hnext
  · have hrun : pgx4b ymm15 p sentinel o (pgsize - (d - o)) = fun fuel =>
        Space.load 4 (ea (p + o)) >>= fun xmm0 =>
          if jz (testl (2 ^ 4 - 1) (vpmovmskb xmm (vpcmpgtb xmm xmm0 ymm15))) = true then
            pgx2b ymm15 p sentinel (o + 4) (pgsize - (d - (o + 4))) fuel
          else pure (ea ((o + 4 : ℕ) + tzcntl (vpmovmskb xmm (vpcmpgtb xmm xmm0 ymm15)) -
            (4 : ℕ))) := by
      funext fuel
      have hrax : ea (o + 0x04) = o + 4 := ea_eq (by omega) (by omega)
      have hrcx : leal ((pgsize - (d - o) : ℕ) + 0x04) = pgsize - (d - (o + 4)) :=
        leal_edge (n := 4) hd32 (by omega)
      simp only [pgx4b, je_cmpl_edge (show o ≤ d by omega), h0, decide_false,
        Bool.false_eq_true, if_false, ja_cmpl_edge (show 0x04 ≤ 32 by decide)
        (show o ≤ d by omega), h4, hrax, hrcx]
      rfl
    rw [hrun]
    exact answers_narrow h hy hd hd32 (by decide) (by omega) hoi
      (fun hin => edgeAnswer_early (by omega))
      fun hin => answers_pgx2b h hd (by omega) hin hnext

theorem answers_pgx8b (h : ScansTo s p sentinel 0 index) (hy : Sentinels sentinel ymm15)
    (hd : (p + d) % pgsize = 0) (hd32 : d < 32) (ho : o = d / 16 * 16) (hoi : o ≤ index)
    (hnext : Answers (scanFrom ymm15 p (.chk128b d)) s next) :
    Answers (pgx8b ymm15 p sentinel o (pgsize - (d - o))) s
      (edgeAnswer s p sentinel index d next) := by
  have hlt := h.lt
  by_cases h0 : d = o
  · have hrun : pgx8b ymm15 p sentinel o (pgsize - (d - o)) =
        fun fuel => scanFrom ymm15 p (.chk128b o) fuel := by
      funext fuel
      rw [pgx8b, je_cmpl_edge (by omega), if_pos (decide_eq_true h0)]
    have hedge : edgeAnswer s p sentinel index d next = next := by
      simp only [edgeAnswer, show ¬ index < d / 4 * 4 by omega, show d % 4 = 0 by omega, if_false,
        if_true]
    rw [hrun, hedge, ← h0]
    exact hnext
  by_cases h8 : d < o + 8
  · have hrun : pgx8b ymm15 p sentinel o (pgsize - (d - o)) =
        fun fuel => pgx4b ymm15 p sentinel o (pgsize - (d - o)) fuel := by
      funext fuel
      simp only [pgx8b, je_cmpl_edge (show o ≤ d by omega), h0, decide_false,
        Bool.false_eq_true, if_false, ja_cmpl_edge (show 0x08 ≤ 32 by decide)
        (show o ≤ d by omega), h8, decide_true, if_true]
    rw [hrun]
    exact answers_pgx4b h hy hd hd32 (by omega) hoi hnext
  · have hrun : pgx8b ymm15 p sentinel o (pgsize - (d - o)) = fun fuel =>
        Space.load 8 (ea (p + o)) >>= fun xmm0 =>
          if jz (testl (2 ^ 8 - 1) (vpmovmskb xmm (vpcmpgtb xmm xmm0 ymm15))) = true then
            pgx4b ymm15 p sentinel (o + 8) (pgsize - (d - (o + 8))) fuel
          else pure (ea ((o + 8 : ℕ) + tzcntl (vpmovmskb xmm (vpcmpgtb xmm xmm0 ymm15)) -
            (8 : ℕ))) := by
      funext fuel
      have hrax : ea (o + 0x08) = o + 8 := ea_eq (by omega) (by omega)
      have hrcx : leal ((pgsize - (d - o) : ℕ) + 0x08) = pgsize - (d - (o + 8)) :=
        leal_edge (n := 8) hd32 (by omega)
      simp only [pgx8b, je_cmpl_edge (show o ≤ d by omega), h0, decide_false,
        Bool.false_eq_true, if_false, ja_cmpl_edge (show 0x08 ≤ 32 by decide)
        (show o ≤ d by omega), h8, hrax, hrcx]
      rfl
    rw [hrun]
    exact answers_narrow h hy hd hd32 (by decide) (by omega) hoi
      (fun hin => edgeAnswer_early (by omega))
      fun hin => answers_pgx4b h hy hd hd32 (by omega) hin hnext

theorem answers_pgx16b (h : ScansTo s p sentinel 0 index) (hy : Sentinels sentinel ymm15)
    (hd : (p + d) % pgsize = 0) (hd32 : d < 32)
    (hnext : Answers (scanFrom ymm15 p (.chk128b d)) s next) :
    Answers (pgx16b ymm15 p sentinel 0 (pgsize - d)) s
      (edgeAnswer s p sentinel index d next) := by
  have hlt := h.lt
  have hja : ja (cmpl (pgsize - 0x10) (pgsize - d)) = decide (d < 16) := by
    have hedge := ja_cmpl_edge (o := 0) (n := 0x10) (by decide) (Nat.zero_le d)
    simpa only [Nat.sub_zero, Nat.zero_add] using hedge
  by_cases h16 : d < 16
  · have hrun : pgx16b ymm15 p sentinel 0 (pgsize - d) =
        fun fuel => pgx8b ymm15 p sentinel 0 (pgsize - (d - 0)) fuel := by
      funext fuel
      simp only [pgx16b, hja, h16, decide_true, if_true, Nat.sub_zero]
    rw [hrun]
    exact answers_pgx8b h hy hd hd32 (by omega) (Nat.zero_le index) hnext
  · have hrun : pgx16b ymm15 p sentinel 0 (pgsize - d) = fun fuel =>
        Space.load 16 (ea p) >>= fun xmm0 =>
          if jz (vptest xmm (vpcmpgtb xmm xmm0 ymm15) (vpcmpgtb xmm xmm0 ymm15)) = true then
            pgx8b ymm15 p sentinel 16 (pgsize - (d - 16)) fuel
          else pure (ea ((16 : ℕ) + tzcntl (vpmovmskb xmm (vpcmpgtb xmm xmm0 ymm15)) - 0x10)) := by
      funext fuel
      have hrax : ea ((0 : ℕ) + 0x10) = 16 := by decide
      have hrcx : leal ((pgsize - d : ℕ) + 0x10) = pgsize - (d - 16) := by
        have hedge : leal ((pgsize - (d - 0) : ℕ) + 0x10) = pgsize - (d - (0 + 16)) :=
          leal_edge (n := 16) hd32 (by omega)
        simpa only [Nat.sub_zero, Nat.zero_add] using hedge
      simp only [pgx16b, hja, h16, decide_false, Bool.false_eq_true, if_false, hrax, hrcx]
      rfl
    have hread : s.Readable p 16 :=
      h.block (o := 0) (Nat.le_refl 0) (Nat.zero_le index) (by simp only [pgsize] at *; omega)
    have hlanes : s.lanes 16 p = s.lanes 16 (p + 0) := rfl
    rw [hrun, ea_eq (a := p) (by omega) (by omega)]
    refine Answers.bind (load_eq hread) ?_
    simp only [jz_vptest, xmm, hlanes, h.allZero hy (Nat.le_refl 0) (show 16 ≤ 32 by decide)
      (Nat.zero_le index), decide_eq_true_eq]
    by_cases hin : 0 + 16 ≤ index
    · simp only [if_pos hin]
      exact answers_pgx8b h hy hd hd32 (by omega) (by omega) hnext
    · simp only [if_neg hin, h.tzcntl_mask hy (Nat.le_refl 0) (Nat.le_refl 16)
        (show 16 ≤ 32 by decide) (Nat.zero_le index) (show index < 0 + 16 by omega)]
      rw [edgeAnswer_early (by omega), ea_eq (a := index) (by omega) (by omega)]
      exact Answers.pure index s

/-! ### The whole scan -/

/-- How many bytes there are up to the next page boundary. -/
def toEdge (p : ℕ) : ℕ := pgsize - p % pgsize

/-- What the scan answers, where the first byte below the sentinel is at `index`. -/
def scanAnswer (s : Space) (p sentinel index : ℕ) : Option ℕ :=
  if 32 ≤ toEdge p then some index
  else edgeAnswer s p sentinel index (toEdge p) (lessFrom s p sentinel (2 ^ 63) (toEdge p))

theorem answers_avx2ScanLt (h : ScansTo s p sentinel 0 index) :
    Answers (avx2ScanLt p sentinel) s (scanAnswer s p sentinel index) := by
  have hlt := h.lt
  have hy : Sentinels sentinel
      (vinserti128 (vpshufb xmm vpxorSelf (vmovdOf sentinel))
        (vpshufb xmm vpxorSelf (vmovdOf sentinel))) := fun i hi => vinserti128_broadcast hi
  have hpos : andl (pgsize - 1) (low32 p) = p % pgsize := by
    rw [andl_page, low32]
    exact Nat.mod_mod_of_dvd p (by decide)
  have hja : ja (cmpl (pgsize - 0x20) (p % pgsize)) = decide (toEdge p < 32) := by
    rw [cmpl_eq (by decide) (by simp only [pgsize]; omega), ja_cmpq]
    exact decide_eq_decide.mpr (by simp only [toEdge, pgsize]; omega)
  by_cases hedge : toEdge p < 32
  · have hrun : avx2ScanLt p sentinel = fun fuel => pgx16b
        (vinserti128 (vpshufb xmm vpxorSelf (vmovdOf sentinel))
          (vpshufb xmm vpxorSelf (vmovdOf sentinel))) p sentinel 0 (pgsize - toEdge p) fuel := by
      funext fuel
      simp only [avx2ScanLt, hpos, hja, hedge, decide_true, if_true]
      rw [show pgsize - toEdge p = p % pgsize by simp only [toEdge, pgsize]; omega]
    rw [hrun, scanAnswer, if_neg (by omega)]
    have hd : (p + toEdge p) % pgsize = 0 := by
      simp only [toEdge, pgsize]
      omega
    have hbound : p + toEdge p ≤ 2 ^ 63 := by
      simp only [pgsize] at hd
      omega
    exact answers_pgx16b h hy hd hedge (answers_lessFrom h.mapped h.sentinel_le hy hd hbound)
  · have hrun : avx2ScanLt p sentinel = fun fuel => vmovdqu ymm (ea p) >>= fun ymm0 =>
        let ymm4 := vpcmpgtb ymm ymm0 (vinserti128 (vpshufb xmm vpxorSelf (vmovdOf sentinel))
          (vpshufb xmm vpxorSelf (vmovdOf sentinel)))
        if jnz (vptest ymm ymm4 ymm4) then pure (tzcntl (vpmovmskb ymm ymm4))
        else scanFrom (vinserti128 (vpshufb xmm vpxorSelf (vmovdOf sentinel))
          (vpshufb xmm vpxorSelf (vmovdOf sentinel))) p
          (.prologue (subq p (andq (imm (-0x20)) (ea (p + 0x20))))) fuel := by
      funext fuel
      simp only [avx2ScanLt, hpos, hja, hedge, decide_false, Bool.false_eq_true, if_false]
    have hread : s.Readable p 32 :=
      h.block (o := 0) (Nat.le_refl 0) (Nat.zero_le index)
        (by simp only [toEdge, pgsize] at *; omega)
    have hlanes : s.lanes 32 p = s.lanes 32 (p + 0) := rfl
    rw [hrun, scanAnswer, if_pos (by omega), ea_eq (a := p) (by omega) (by omega), vmovdqu]
    refine Answers.bind (load_eq hread) ?_
    simp only [jnz_vptest, ymm, hlanes, h.allZero hy (Nat.le_refl 0) (Nat.le_refl 32)
      (Nat.zero_le index)]
    by_cases hin : 0 + 32 ≤ index
    · have halign : subq p (andq (imm (-0x20)) (ea (p + 0x20))) = (p + 32) / 32 * 32 - p := by
        rw [ea_eq (a := p + 32) (by omega) (by omega), andq_align (by omega),
          subq_eq (by omega) (by omega)]
      simp only [hin, decide_true, Bool.not_true, Bool.false_eq_true, if_false, halign]
      exact returns_scanFrom h hy ⟨Nat.zero_le _, by omega, by omega⟩
    · simp only [hin, decide_false, Bool.not_false, if_true, h.tzcntl_mask hy (Nat.le_refl 0)
        (Nat.le_refl 32) (Nat.le_refl 32) (Nat.zero_le index) (show index < 0 + 32 by omega),
        Nat.sub_zero]
      exact Answers.pure index s

/-- When the scan is right: the sequence does not begin in the last 31 bytes of a page, or
the byte it looks for is before the last one to three bytes of the page, or there are none.
Else the wrong comparisons must lead past the boundary, or to the right byte. -/
def ScanRight (s : Space) (p sentinel index : ℕ) : Prop :=
  let d := toEdge p
  let o := d / 4 * 4
  let byte := fun i => (s.bytes (p + i)).toNat
  32 ≤ d ∨ index < o ∨ d % 4 = 0 ∨
  (d % 4 = 1 ∧ d ≤ index ∧ byte d ≤ sentinel) ∨
  (2 ≤ d % 4 ∧ sentinel < byte (o + 1) ∧ index = if sentinel < byte o % 16 then o else o + 1) ∨
  (2 ≤ d % 4 ∧ byte (o + 1) ≤ sentinel ∧ sentinel < byte o % 16 ∧ d ≤ index ∧
    (d % 4 = 3 → byte d ≤ sentinel)) ∨
  (d % 4 = 3 ∧ byte (o + 1) ≤ sentinel ∧ byte o % 16 ≤ sentinel ∧ index = d + 1 ∧
    sentinel < byte (d + 2))

theorem exists_mem_some {x : ℕ} (hx : x < 2 ^ 32) :
    (∃ rax ∈ some x, low32 rax = index) ↔ x = index := by
  simp only [Option.mem_def, Option.some.injEq, exists_eq_left', low32_eq hx]

theorem not_exists_mem_none : ¬ ∃ rax ∈ (none : Option ℕ), low32 rax = index := by simp

theorem ScanArea.mapped (h : ScanArea s p sentinel index) : PageMapped s where
  page := by
    intro a b hab
    rw [Bool.eq_iff_iff, h.readable, h.readable, OnPages, OnPages, hab]
  low := by
    intro a ha
    rw [Bool.eq_false_iff]
    intro hr
    obtain ⟨i, hi, heq⟩ := (h.readable a).mp hr
    have hlt := h.index_lt
    simp only [pgsize] at heq
    omega

theorem ScanArea.scansTo (h : ScanArea s p sentinel index) : ScansTo s p sentinel 0 index where
  mapped := h.mapped
  sentinel_le := h.sentinel_le
  before := fun i _ hi => h.before i hi
  readable := fun i _ hi => (h.readable _).mpr ⟨i, by omega, rfl⟩
  le := Nat.zero_le index
  less := h.less
  last := (h.readable _).mpr ⟨index, Nat.lt_succ_self index, rfl⟩

/-- Just a sequence that reaches behind the page boundary makes the page there readable. -/
theorem ScanArea.behind (h : ScanArea s p sentinel index) {d : ℕ} (hd : (p + d) % pgsize = 0) :
    s.readable (p + d) = decide (d ≤ index) := by
  rw [Bool.eq_iff_iff, decide_eq_true_eq, h.readable]
  simp only [pgsize] at hd ⊢
  constructor
  · rintro ⟨i, hi, heq⟩
    omega
  · exact fun hle => ⟨d, by omega, rfl⟩

theorem ScanArea.lessFrom_eq (h : ScanArea s p sentinel index) {d : ℕ}
    (hd : (p + d) % pgsize = 0) :
    lessFrom s p sentinel (2 ^ 63) d = if d ≤ index then some index else none := by
  have hlt := h.index_lt
  have hr := h.behind hd
  split_ifs with hin
  · exact (h.scansTo.from (Nat.zero_le d) hin).lessFrom_eq (by omega)
  · rw [decide_eq_false hin] at hr
    rw [show 2 ^ 63 = 2 ^ 63 - 1 + 1 from rfl, lessFrom, hr, if_neg Bool.false_ne_true]

theorem scanRight_iff (h : ScanArea s p sentinel index) (hindex : index < 2 ^ 32) :
    (∃ rax ∈ scanAnswer s p sentinel index, low32 rax = index) ↔ ScanRight s p sentinel index := by
  have hd : (p + toEdge p) % pgsize = 0 := by
    simp only [toEdge, pgsize]
    omega
  simp only [scanAnswer, ScanRight, edgeAnswer, h.lessFrom_eq hd, h.behind hd]
  generalize toEdge p = d
  generalize ho : d / 4 * 4 = o
  by_cases h32 : 32 ≤ d
  · rw [if_pos h32, exists_mem_some hindex]
    exact iff_of_true rfl (.inl h32)
  rw [if_neg h32]
  by_cases hearly : index < o
  · rw [if_pos hearly, exists_mem_some hindex]
    exact iff_of_true rfl (.inr (.inl hearly))
  rw [if_neg hearly]
  by_cases h0 : d % 4 = 0
  · rw [if_pos h0, if_pos (by omega), exists_mem_some hindex]
    exact iff_of_true rfl (.inr (.inr (.inl h0)))
  rw [if_neg h0]
  by_cases h1 : d % 4 = 1
  · rw [if_pos h1]
    by_cases hin : d ≤ index
    · rw [decide_eq_true hin, if_neg (by decide), if_pos hin]
      by_cases hb : (s.bytes (p + d)).toNat ≤ sentinel
      · rw [if_pos hb, exists_mem_some hindex]
        exact iff_of_true rfl (by omega)
      · rw [if_neg hb, exists_mem_some (by omega)]
        omega
    · rw [decide_eq_false hin, if_pos (by decide)]
      exact iff_of_false not_exists_mem_none (by omega)
  rw [if_neg h1]
  by_cases hless : sentinel < (s.bytes (p + (o + 1))).toNat
  · rw [if_pos hless, exists_mem_some (by split_ifs <;> omega), eq_comm]
    omega
  rw [if_neg hless]
  by_cases hfirst : sentinel < (s.bytes (p + o)).toNat % 16
  · rw [if_pos hfirst]
    by_cases hin : d ≤ index
    · rw [decide_eq_true hin, if_pos hin, if_neg (by decide : ¬ (!true) = true)]
      by_cases h2 : d % 4 = 2
      · rw [if_pos h2, exists_mem_some hindex]
        exact iff_of_true rfl (by omega)
      rw [if_neg h2]
      by_cases hb : (s.bytes (p + d)).toNat ≤ sentinel
      · rw [if_pos hb, exists_mem_some hindex]
        omega
      · rw [if_neg hb, exists_mem_some (by omega)]
        omega
    · rw [decide_eq_false hin, if_neg hin, if_pos (by decide : (!false) = true), ite_self]
      exact iff_of_false not_exists_mem_none (by omega)
  rw [if_neg hfirst]
  by_cases hmore : d % 4 = 2 ∨ decide (d ≤ index) = false ∨ (s.bytes (p + (d + 2))).toNat ≤ sentinel
  · rw [if_pos hmore]
    rw [decide_eq_false_iff_not] at hmore
    exact iff_of_false not_exists_mem_none (by omega)
  · rw [if_neg hmore, exists_mem_some (by omega)]
    rw [decide_eq_false_iff_not] at hmore
    omega

/-- The routine and the portable scan find the first byte below the sentinel, and read only
pages with a byte up to it, just when it is found by the vectors or by luck. -/
theorem avx2_scan_lt_correct (h : ScanArea s p sentinel index) :
    (Total (avx2ScanLt p sentinel) (fun rax s' => low32 rax = index ∧ s' = s) s ∧
      Total (scanLt p sentinel) (fun pos s' => pos = index ∧ s' = s) s) ↔
      index < 2 ^ 32 ∧ ScanRight s p sentinel index := by
  have hread : ∀ i ≤ index, s.readable (p + i) = true :=
    fun i hi => (h.readable _).mpr ⟨i, by omega, rfl⟩
  rw [(answers_avx2ScanLt h.scansTo).total_iff]
  constructor
  · rintro ⟨hans, hscan⟩
    have hindex : index < 2 ^ 32 := by
      by_contra hlarge
      obtain ⟨pos, s', ⟨k, hrun⟩, -⟩ := hscan
      have hnone := scanLt_wraps h.toFirstLess (by omega) hread k
      exact absurd (hnone.symm.trans (hrun k (Nat.le_refl k))) (by simp)
    exact ⟨hindex, (scanRight_iff h hindex).mp hans⟩
  · rintro ⟨hindex, hright⟩
    exact ⟨(scanRight_iff h hindex).mpr hright, total_scanLt h.toFirstLess hindex hread⟩

/-- A string of `len` letters at `p`, with the pages it is on. -/
def lettersAt (p len : ℕ) : Space where
  bytes := fun a => if p ≤ a ∧ a < p + len then 97 else 0
  readable := fun a => p / pgsize ≤ a / pgsize ∧ a / pgsize ≤ (p + len) / pgsize
  writable := fun _ => false

theorem scanArea_lettersAt {len : ℕ} (h : p + len < 2 ^ 63) (h0 : 0 < sentinel)
    (hle : sentinel ≤ 97) : ScanArea (lettersAt p len) p sentinel len where
  less := by
    simp only [lettersAt, show ¬ (p ≤ p + len ∧ p + len < p + len) by omega, if_false]
    exact Int.ofNat_lt.mpr h0
  before := fun i hi => by
    simp only [lettersAt, show p ≤ p + i ∧ p + i < p + len by omega, and_self, if_true]
    exact Int.ofNat_le.mpr hle
  sentinel_pos := h0
  sentinel_le := by omega
  readable := fun a => by
    simp only [lettersAt, decide_eq_true_eq, OnPages, pgsize]
    constructor
    · exact fun ha => ⟨max p (min a (p + len)) - p, by omega, by omega⟩
    · rintro ⟨i, hi, ha⟩
      omega
  index_lt := h

theorem stringIn_lettersAt {len : ℕ} : StringIn (lettersAt p len) p len where
  terminator := if_neg (by omega)
  nonzero := fun i hi => by
    simp only [lettersAt, show p ≤ p + i ∧ p + i < p + len by omega, and_self, if_true]
    decide

/-- Two letters at the beginning of a page. -/
theorem avx2_scan_lt_correct_two :
    Total (avx2ScanLt 0x1000 1) (fun rax s' => low32 rax = 2 ∧ s' = lettersAt 0x1000 2)
        (lettersAt 0x1000 2) ∧
      Total (scanLt 0x1000 1) (fun pos s' => pos = 2 ∧ s' = lettersAt 0x1000 2)
        (lettersAt 0x1000 2) := by
  have h : ScanArea (lettersAt 0x1000 2) 0x1000 1 2 :=
    scanArea_lettersAt (by decide) (by decide) (by decide)
  exact (avx2_scan_lt_correct h).mpr ⟨by decide, .inl (by decide)⟩

/-- The empty string in the last byte of a page: the scan reads the byte behind it. -/
theorem avx2_scan_lt_last_byte : StringIn (lettersAt 0x1fff 0) 0x1fff 0 ∧
    ScanArea (lettersAt 0x1fff 0) 0x1fff 1 0 ∧
    ¬ Total (avx2ScanLt 0x1fff 1) (fun rax s' => low32 rax = 0 ∧ s' = lettersAt 0x1fff 0)
      (lettersAt 0x1fff 0) := by
  have h : ScanArea (lettersAt 0x1fff 0) 0x1fff 1 0 :=
    scanArea_lettersAt (by decide) (by decide) (by decide)
  refine ⟨stringIn_lettersAt, h, ?_⟩
  rw [(answers_avx2ScanLt h.scansTo).total_iff]
  have hnone : scanAnswer (lettersAt 0x1fff 0) 0x1fff 1 0 = none := rfl
  rw [hnone]
  exact not_exists_mem_none

end Cldm
