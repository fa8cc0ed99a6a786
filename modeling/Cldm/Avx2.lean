/-
Instructions of x86-64 with AVX2, one definition a mnemonic.

General registers are naturals below `2 ^ 64`, an operation on 32 bits zeroes the
upper half.  A vector register is its lanes: `ymm` counts 32 of them and `xmm` 16,
and an operation on `xmm` zeroes the lanes above.  Operands stand in the order of
the assembly source (source operands first).  Accesses of memory are those of a
`Space`; the aligned moves fault at other addresses.

* `ea` — addresses and the results of `lea`, computed modulo `2 ^ 64`;
* `cmpq`, `cmpl`, `vptest` — the carry and zero flags, read by the jumps;
* the vector operations, with what each leaves in a lane.
-/
import Cldm.Space
import Mathlib.Data.Nat.Bitwise
import Mathlib.Data.Nat.Find
import Mathlib.Tactic.Common

namespace Avx2

open Prog Space

/-! ### General registers -/

/-- An effective address. -/
def ea (x : ℤ) : ℕ := (x % 2 ^ 64).toNat

/-- A sum of 32 bits. -/
def leal (x : ℤ) : ℕ := (x % 2 ^ 32).toNat

/-- The lower half of a register. -/
def low32 (x : ℕ) : ℕ := x % 2 ^ 32

def subq (a b : ℕ) : ℕ := ea (b - a)

def subl (a b : ℕ) : ℕ := leal (b - a)

def addq (a b : ℕ) : ℕ := ea (b + a)

def addl (a b : ℕ) : ℕ := leal (b + a)

def negq (a : ℕ) : ℕ := ea (-a)

def negl (a : ℕ) : ℕ := leal (-a)

def shrl (a b : ℕ) : ℕ := low32 b >>> a

def shll (a b : ℕ) : ℕ := low32 (low32 b <<< (a % 32))

def notq (a : ℕ) : ℕ := ea (-1 - a)

def andq (a b : ℕ) : ℕ := a &&& b

def andl (a b : ℕ) : ℕ := low32 a &&& low32 b

def orl (a b : ℕ) : ℕ := low32 a ||| low32 b

/-- The value of the lower half of a register as an `int`. -/
def int32 (x : ℕ) : ℤ := if low32 x < 2 ^ 31 then low32 x else low32 x - 2 ^ 32

/-- The value of a register as an `int64_t`. -/
def int64 (x : ℕ) : ℤ := if x < 2 ^ 63 then x else x - 2 ^ 64

/-- The immediate operand of 64 bits that extends a negative one. -/
def imm (x : ℤ) : ℕ := ea x

theorem ea_eq {x : ℤ} {a : ℕ} (h : x = a) (ha : a < 2 ^ 64) : ea x = a := by
  subst h
  simp only [ea]
  omega

theorem leal_eq {x : ℤ} {a : ℕ} (h : x = a) (ha : a < 2 ^ 32) : leal x = a := by
  subst h
  simp only [leal]
  omega

theorem int32_leal {x : ℤ} (hlo : -2 ^ 31 ≤ x) (hhi : x < 2 ^ 31) : int32 (leal x) = x := by
  have hval : ((x % 2 ^ 32).toNat : ℤ) = x % 2 ^ 32 :=
    Int.toNat_of_nonneg (Int.emod_nonneg x (by decide))
  by_cases hx : low32 (leal x) < 2 ^ 31
  · rw [int32, if_pos hx]
    simp only [low32, leal] at *
    omega
  · rw [int32, if_neg hx]
    simp only [low32, leal] at *
    omega

/-- The difference of two bytes. -/
theorem int32_subl (a b : UInt8) : int32 (subl b.toNat a.toNat) = a.toNat - b.toNat := by
  have ha := a.toNat_lt
  have hb := b.toNat_lt
  exact int32_leal (by omega) (by omega)

theorem subq_eq {a b : ℕ} (h : a ≤ b) (hb : b < 2 ^ 64) : subq a b = b - a :=
  ea_eq (by omega) (by omega)

theorem low32_eq {a : ℕ} (h : a < 2 ^ 32) : low32 a = a := Nat.mod_eq_of_lt h

/-- Rounding down to a multiple of 32. -/
theorem andq_align {x : ℕ} (h : x < 2 ^ 64) : andq (imm (-0x20)) x = x / 32 * 32 := by
  have himm : imm (-0x20) = 2 ^ 64 - 2 ^ 5 := by decide
  rw [andq, himm, mask_align h (by decide), show 2 ^ 5 = 32 from rfl]

/-- The page size. -/
abbrev pgsize : ℕ := 0x1000

/-- The position in a page, from an operation on 32 bits. -/
theorem andl_page {x : ℕ} : andl (pgsize - 1) x = x % pgsize := by
  rw [andl, Nat.and_comm, low32_eq (a := pgsize - 1) (by decide),
    show pgsize - 1 = 2 ^ 12 - 1 from rfl,
    Nat.and_two_pow_sub_one_eq_mod, low32]
  exact Nat.mod_mod_of_dvd x (by decide)

/-! ### Flags -/

/-- The flags of a comparison. -/
structure Flags where
  carry : Bool
  zero : Bool

def cmpq (a b : ℕ) : Flags := ⟨b < a, b = a⟩

def cmpl (a b : ℕ) : Flags := cmpq (low32 a) (low32 b)

def cmpb (a : UInt8) (b : ℕ) : Flags := cmpq a.toNat (b % 2 ^ 8)

def testq (a b : ℕ) : Flags := ⟨false, a &&& b = 0⟩

def testl (a b : ℕ) : Flags := ⟨false, low32 a &&& low32 b = 0⟩

/-- Below. -/
def jb (fl : Flags) : Bool := fl.carry

def jnb (fl : Flags) : Bool := !fl.carry

/-- Above. -/
def ja (fl : Flags) : Bool := !fl.carry && !fl.zero

def jna (fl : Flags) : Bool := fl.carry || fl.zero

def je (fl : Flags) : Bool := fl.zero

def jne (fl : Flags) : Bool := !fl.zero

def jc (fl : Flags) : Bool := fl.carry

def jnc (fl : Flags) : Bool := !fl.carry

def jz (fl : Flags) : Bool := fl.zero

def jnz (fl : Flags) : Bool := !fl.zero

/-- The zero flag that a result leaves. -/
def flagsOf (x : ℕ) : Flags := ⟨false, x = 0⟩

variable {a b : ℕ}

@[simp] theorem jb_cmpq : jb (cmpq a b) = decide (b < a) := rfl

@[simp] theorem jnb_cmpq : jnb (cmpq a b) = decide (a ≤ b) := by
  simp only [jnb, cmpq]
  grind

@[simp] theorem ja_cmpq : ja (cmpq a b) = decide (a < b) := by
  simp only [ja, cmpq]
  grind

@[simp] theorem jna_cmpq : jna (cmpq a b) = decide (b ≤ a) := by
  simp only [jna, cmpq]
  grind

@[simp] theorem je_cmpq : je (cmpq a b) = decide (b = a) := rfl

@[simp] theorem jne_cmpq : jne (cmpq a b) = decide (b ≠ a) := by simp [jne, cmpq]

theorem cmpl_eq (ha : a < 2 ^ 32) (hb : b < 2 ^ 32) : cmpl a b = cmpq a b := by
  rw [cmpl, low32_eq ha, low32_eq hb]

@[simp] theorem jz_testq : jz (testq a a) = decide (a = 0) := by simp [jz, testq]

@[simp] theorem jz_testl_self : jz (testl a a) = decide (low32 a = 0) := by simp [jz, testl]

@[simp] theorem jnz_testl_self : jnz (testl a a) = decide (low32 a ≠ 0) := by simp [jnz, testl]

/-- A byte is compared with zero by itself. -/
theorem jz_testl_byte (b : UInt8) : jz (testl b.toNat b.toNat) = decide (b = 0) := by
  have hb := b.toNat_lt
  rw [jz_testl_self, low32_eq (by omega)]
  exact decide_eq_decide.mpr ⟨fun h0 => UInt8.toNat_inj.mp h0, fun h0 => by rw [h0]; rfl⟩

theorem jnz_testl_byte (b : UInt8) : jnz (testl b.toNat b.toNat) = decide (b ≠ 0) := by
  rw [decide_not, ← jz_testl_byte]
  rfl

/-! ### Moves -/

/-- The lanes of the two kinds of vector registers. -/
abbrev ymm : ℕ := 32

abbrev xmm : ℕ := 16

/-- Unaligned moves from and to memory. -/
def vmovdqu (w p : ℕ) : Prog Space Lanes := load w p

def vmovdquTo (w : ℕ) (v : Lanes) (p : ℕ) : Prog Space Unit := store w p v

/-- Aligned moves from and to memory. -/
def vmovdqa (w p : ℕ) : Prog Space Lanes := if p % w = 0 then load w p else fun _ => none

def vmovdqaTo (w : ℕ) (v : Lanes) (p : ℕ) : Prog Space Unit :=
  if p % w = 0 then store w p v else fun _ => none

/-- Moves of eight and of four bytes. -/
def vmovq (p : ℕ) : Prog Space Lanes := load 8 p

def vmovqTo (v : Lanes) (p : ℕ) : Prog Space Unit := store 8 p v

def vmovd (p : ℕ) : Prog Space Lanes := load 4 p

def vmovdTo (v : Lanes) (p : ℕ) : Prog Space Unit := store 4 p v

/-- Moves of a byte from and to a general register. -/
def movzxb (p : ℕ) : Prog Space ℕ := do
  let v ← load 1 p
  return (v 0).toNat

def movzxw (p : ℕ) : Prog Space ℕ := do
  let v ← load 2 p
  return (v 0).toNat + 2 ^ 8 * (v 1).toNat

def movb (r p : ℕ) : Prog Space Unit := store 1 p fun _ => UInt8.ofNat r

theorem movzxb_eq_some {s s' : Space} {p r : ℕ} (h : movzxb p s = some (r, s')) :
    s.readable p = true ∧ r = (s.bytes p).toNat ∧ s' = s := by
  obtain ⟨v, s₁, hload, hv⟩ := bind_eq_some.mp h
  obtain ⟨hr, rfl, rfl⟩ := load_eq_some.mp hload
  rw [pure_apply, Option.some.injEq, Prod.mk.injEq] at hv
  exact ⟨hr 0 Nat.one_pos, hv.1.symm, hv.2.symm⟩

theorem movb_eq_some {s s' : Space} {p r : ℕ} {u : Unit} (h : movb r p s = some (u, s')) :
    s.writable p = true ∧ s' = s.write 1 p fun _ => UInt8.ofNat r := by
  obtain ⟨hw, rfl⟩ := store_eq_some.mp h
  exact ⟨hw 0 Nat.one_pos, rfl⟩

theorem vmovdqa_of_aligned {w p : ℕ} (h : p % w = 0) : vmovdqa w p = load w p := if_pos h

theorem vmovdqaTo_of_aligned {w p : ℕ} {v : Lanes} (h : p % w = 0) :
    vmovdqaTo w v p = store w p v := if_pos h

theorem wp_vmovdqu {s : Space} {w a : ℕ} {x : ℤ} (hx : x = a) (ha : a < 2 ^ 64)
    (hr : s.Readable a w) {Q : Lanes → Space → Prop} :
    wp (vmovdqu w (ea x)) Q s ↔ Q (s.lanes w a) s := by
  rw [ea_eq hx ha, vmovdqu, wp_load hr]

theorem wp_vmovdqa {s : Space} {w a : ℕ} {x : ℤ} (hx : x = a) (ha : a < 2 ^ 64) (hal : a % w = 0)
    (hr : s.Readable a w) {Q : Lanes → Space → Prop} :
    wp (vmovdqa w (ea x)) Q s ↔ Q (s.lanes w a) s := by
  rw [ea_eq hx ha, vmovdqa, if_pos hal, wp_load hr]

theorem wp_movzxb {s : Space} {a : ℕ} {x : ℤ} (hx : x = a) (ha : a < 2 ^ 64)
    (hr : s.readable a = true) {Q : ℕ → Space → Prop} :
    wp (movzxb (ea x)) Q s ↔ Q (s.bytes a).toNat s := by
  have hread : s.Readable a 1 := fun i hi => by rwa [show a + i = a by omega]
  rw [ea_eq hx ha, movzxb, wp_bind, wp_load hread, wp_pure, lanes_of_lt Nat.one_pos, Nat.add_zero]

/-- A double word moved from a general register. -/
def vmovdOf (r : ℕ) : Lanes := fun i => if i < 4 then UInt8.ofNat (r >>> (8 * i)) else 0

/-! ### Lanes -/

/-- A register xored with itself. -/
def vpxorSelf : Lanes := fun _ => 0

/-- The lanes of `b` that the mask `a` selects. -/
def vpshufb (w : ℕ) (a b : Lanes) : Lanes := fun i =>
  if i < w then if 0x80 ≤ (a i).toNat then 0 else b (i / 16 * 16 + (a i).toNat % 16) else 0

/-- The lower half of `b`, and `a` as the upper one. -/
def vinserti128 (a b : Lanes) : Lanes := fun i => if i < 16 then b i else a (i - 16)

/-- The low byte of a register in every lane. -/
theorem vpshufb_broadcast {i r : ℕ} (h : i < 16) :
    vpshufb xmm vpxorSelf (vmovdOf r) i = UInt8.ofNat r := by
  simp [vpshufb, vpxorSelf, vmovdOf, h, Nat.div_eq_of_lt h]

theorem vinserti128_broadcast {i r : ℕ} (h : i < 32) :
    vinserti128 (vpshufb xmm vpxorSelf (vmovdOf r)) (vpshufb xmm vpxorSelf (vmovdOf r)) i =
      UInt8.ofNat r := by
  by_cases hi : i < 16
  · rw [vinserti128, if_pos hi, vpshufb_broadcast hi]
  · rw [vinserti128, if_neg hi, vpshufb_broadcast (by omega)]

/-- All ones, from a register compared with itself. -/
def vpcmpeqbSelf : Lanes := fun i => if i < ymm then 0xff else 0

def vpcmpeqb (w : ℕ) (a b : Lanes) : Lanes := fun i =>
  if i < w then if b i = a i then 0xff else 0 else 0

/-- Comparison with memory. -/
def vpcmpeqbMem (w p : ℕ) (b : Lanes) : Prog Space Lanes := do
  let a ← load w p
  return vpcmpeqb w a b

/-- The value of a byte as a `signed char`. -/
def int8 (b : UInt8) : ℤ := if b.toNat < 2 ^ 7 then b.toNat else b.toNat - 2 ^ 8

/-- Signed comparison. -/
def vpcmpgtb (w : ℕ) (a b : Lanes) : Lanes := fun i =>
  if i < w then if int8 (a i) < int8 (b i) then 0xff else 0 else 0

/-- A shift of `xmm` by `n` lanes, up. -/
def vpslldq (n : ℕ) (v : Lanes) : Lanes := fun i => if i < n ∨ xmm ≤ i then 0 else v (i - n)

def vpor (a b : Lanes) : Lanes := fun i => a i ||| b i

def vpand (a b : Lanes) : Lanes := fun i => a i &&& b i

def vpandn (a b : Lanes) : Lanes := fun i => a i &&& ~~~ (b i)

/-- Carry: all bits of `a` are set in `b`; zero: none is. -/
def vptest (w : ℕ) (a b : Lanes) : Flags :=
  ⟨∀ i < w, a i &&& ~~~ (b i) = 0, ∀ i < w, a i &&& b i = 0⟩

/-- Every lane is all ones. -/
def AllOnes (w : ℕ) (v : Lanes) : Prop := ∀ i < w, v i = 0xff

instance (w : ℕ) (v : Lanes) : Decidable (AllOnes w v) :=
  inferInstanceAs (Decidable (∀ i < w, v i = 0xff))

theorem jc_vptest {w : ℕ} (hw : w ≤ ymm) (v : Lanes) :
    jc (vptest w vpcmpeqbSelf v) = decide (AllOnes w v) := by
  have hlane : ∀ x : UInt8, 0xff &&& ~~~ x = 0 ↔ x = 0xff := fun ⟨x⟩ => by
    revert x
    decide
  refine decide_eq_decide.mpr (forall₂_congr fun i hi => ?_)
  rw [vpcmpeqbSelf, if_pos (by omega), hlane]

theorem jnc_vptest {w : ℕ} (hw : w ≤ ymm) (v : Lanes) :
    jnc (vptest w vpcmpeqbSelf v) = !decide (AllOnes w v) := by
  rw [← jc_vptest hw]
  rfl

theorem allOnes_vpand {w : ℕ} {v u : Lanes} :
    AllOnes w (vpand v u) ↔ AllOnes w v ∧ AllOnes w u := by
  have hlane : ∀ x y : UInt8, x &&& y = 0xff ↔ x = 0xff ∧ y = 0xff :=
    fun x y => UInt8.and_eq_neg_one_iff
  simp only [AllOnes, vpand, hlane]
  exact ⟨fun h => ⟨fun i hi => (h i hi).1, fun i hi => (h i hi).2⟩,
    fun h i hi => ⟨h.1 i hi, h.2 i hi⟩⟩

/-- Every lane is zero. -/
def AllZero (w : ℕ) (v : Lanes) : Prop := ∀ i < w, v i = 0

instance (w : ℕ) (v : Lanes) : Decidable (AllZero w v) :=
  inferInstanceAs (Decidable (∀ i < w, v i = 0))

theorem jz_vptest (w : ℕ) (v : Lanes) : jz (vptest w v v) = decide (AllZero w v) := by
  refine decide_eq_decide.mpr (forall₂_congr fun i _ => ?_)
  rw [UInt8.and_self]

theorem jnz_vptest (w : ℕ) (v : Lanes) : jnz (vptest w v v) = !decide (AllZero w v) := by
  rw [← jz_vptest w v]
  rfl

theorem allZero_vpor {w : ℕ} {v u : Lanes} :
    AllZero w (vpor v u) ↔ AllZero w v ∧ AllZero w u := by
  simp only [AllZero, vpor, UInt8.or_eq_zero_iff]
  exact ⟨fun h => ⟨fun i hi => (h i hi).1, fun i hi => (h i hi).2⟩,
    fun h i hi => ⟨h.1 i hi, h.2 i hi⟩⟩

theorem allOnes_vpandn {w : ℕ} {v u : Lanes} :
    AllOnes w (vpandn v u) ↔ AllOnes w v ∧ AllZero w u := by
  have hlane : ∀ x y : UInt8, x &&& ~~~ y = 0xff ↔ x = 0xff ∧ y = 0 := fun x y => by
    rw [show (0xff : UInt8) = -1 from rfl, UInt8.and_eq_neg_one_iff, ← UInt8.not_zero,
      UInt8.not_inj]
  simp only [AllOnes, AllZero, vpandn, hlane]
  exact ⟨fun h => ⟨fun i hi => (h i hi).1, fun i hi => (h i hi).2⟩,
    fun h i hi => ⟨h.1 i hi, h.2 i hi⟩⟩

/-! ### Masks -/

/-- The least index below `w` with a property, or `w`. -/
def firstIdx (w : ℕ) (p : ℕ → Bool) : ℕ := ((List.range w).find? p).getD w

/-- The index of the lowest bit that is set. -/
def tzcntl (x : ℕ) : ℕ := firstIdx 32 x.testBit

def tzcntq (x : ℕ) : ℕ := firstIdx 64 x.testBit

def notl (x : ℕ) : ℕ := 2 ^ 32 - 1 - low32 x

/-- The number of leading zero bits. -/
def lzcntl (x : ℕ) : ℕ := if low32 x = 0 then 32 else 31 - Nat.log2 (low32 x)

/-- The carry flag that the counts of zero bits leave. -/
def cntCarry (x : ℕ) : Bool := low32 x = 0

/-- The upper bits of the lanes. -/
def vpmovmskb (w : ℕ) (v : Lanes) : ℕ := Nat.ofBits fun i : Fin w => decide (0x80 ≤ (v i).toNat)

section FirstIdx

variable {w i : ℕ} {p p' : ℕ → Bool}

theorem firstIdx_cases : (firstIdx w p = w ∧ ∀ i < w, p i = false) ∨
    (firstIdx w p < w ∧ p (firstIdx w p) = true ∧ ∀ i < firstIdx w p, p i = false) := by
  rcases hf : (List.range w).find? p with _ | k
  · refine .inl ⟨by rw [firstIdx, hf]; rfl, fun i hi => ?_⟩
    simpa using List.find?_range_eq_none.mp hf i hi
  · obtain ⟨hp, hk, hlt⟩ := List.find?_range_eq_some.mp hf
    have hidx : firstIdx w p = k := by rw [firstIdx, hf]; rfl
    rw [hidx]
    exact .inr ⟨List.mem_range.mp hk, hp, fun i hi => by simpa using hlt i hi⟩

theorem firstIdx_eq (hi : i < w) (hp : p i = true) (hlt : ∀ j < i, p j = false) :
    firstIdx w p = i := by
  rcases firstIdx_cases (w := w) (p := p) with ⟨-, hall⟩ | ⟨hk, hpk, hltk⟩
  · exact absurd ((hall i hi).symm.trans hp) (by simp)
  · rcases Nat.lt_trichotomy (firstIdx w p) i with hlt' | heq | hgt
    · exact absurd ((hlt _ hlt').symm.trans hpk) (by simp)
    · exact heq
    · exact absurd ((hltk i hgt).symm.trans hp) (by simp)

/-- The least index below `w` at which a property fails. -/
theorem exists_first {P : ℕ → Prop} (h : ¬ ∀ i < w, P i) : ∃ k < w, ¬ P k ∧ ∀ j < k, P j := by
  classical
  have hex : ∃ i, i < w ∧ ¬ P i := by
    by_contra hno
    exact h fun i hi => by_contra fun hp => hno ⟨i, hi, hp⟩
  obtain ⟨hk, hp⟩ := Nat.find_spec hex
  refine ⟨Nat.find hex, hk, hp, fun j hj => ?_⟩
  exact by_contra fun hpj => Nat.find_min hex hj ⟨by omega, hpj⟩

end FirstIdx

section Masks

variable {w k : ℕ} {v : Lanes}

theorem testBit_vpmovmskb (w : ℕ) (v : Lanes) (i : ℕ) :
    (vpmovmskb w v).testBit i = decide (i < w ∧ 0x80 ≤ (v i).toNat) := by
  rw [vpmovmskb, Nat.testBit_ofBits]
  by_cases hi : i < w
  · simp [hi]
  · simp [hi]

theorem testBit_notl {x i : ℕ} (hi : i < 32) : (notl x).testBit i = !x.testBit i := by
  have hlt : low32 x < 2 ^ 32 := Nat.mod_lt _ (by decide)
  rw [notl, show 2 ^ 32 - 1 - low32 x = 2 ^ 32 - (low32 x + 1) by omega,
    Nat.testBit_two_pow_sub_succ hlt, low32, Nat.testBit_mod_two_pow]
  simp [hi]

/-- The first lane that is set. -/
theorem tzcntl_hit (hw : w ≤ 32) (hk : k < w) (hv : 0x80 ≤ (v k).toNat)
    (hlt : ∀ j < k, (v j).toNat < 0x80) : tzcntl (vpmovmskb w v) = k := by
  refine firstIdx_eq (by omega) ?_ fun j hj => ?_
  · rw [testBit_vpmovmskb]
    simp [hk, hv]
  · rw [testBit_vpmovmskb]
    simp [hlt j hj]

/-- The first lane that is not set. -/
theorem tzcntl_miss (hw : w ≤ 32) (hk : k < w) (hv : (v k).toNat < 0x80)
    (hlt : ∀ j < k, 0x80 ≤ (v j).toNat) : tzcntl (notl (vpmovmskb w v)) = k := by
  refine firstIdx_eq (by omega) ?_ fun j hj => ?_
  · rw [testBit_notl (by omega), testBit_vpmovmskb]
    simp [hv]
  · rw [testBit_notl (by omega), testBit_vpmovmskb]
    simp [hlt j hj, show j < w by omega]

theorem mod_two_pow_eq_zero {x n : ℕ} : x % 2 ^ n = 0 ↔ ∀ i < n, x.testBit i = false := by
  constructor
  · intro h i hi
    have hmod := Nat.testBit_mod_two_pow x n i
    rw [h, Nat.zero_testBit, decide_eq_true hi, Bool.true_and] at hmod
    exact hmod.symm
  · intro h
    refine Nat.eq_of_testBit_eq fun i => ?_
    rw [Nat.testBit_mod_two_pow, Nat.zero_testBit]
    by_cases hi : i < n
    · simp [h i hi]
    · simp [hi]

/-- The lowest bits are not set up to the index of the first one. -/
theorem le_tzcntl {x n : ℕ} (hn : n ≤ 32) : n ≤ tzcntl x ↔ x % 2 ^ n = 0 := by
  rw [mod_two_pow_eq_zero, tzcntl]
  rcases firstIdx_cases (w := 32) (p := x.testBit) with ⟨heq, hall⟩ | ⟨-, hset, hlt⟩
  · exact iff_of_true (by omega) fun i hi => hall i (by omega)
  · constructor
    · exact fun h i hi => hlt i (by omega)
    · intro h
      by_contra hlow
      exact absurd ((h _ (by omega)).symm.trans hset) (by simp)

theorem tzcntl_le (x : ℕ) : tzcntl x ≤ 32 := by
  rcases firstIdx_cases (w := 32) (p := x.testBit) with ⟨heq, -⟩ | ⟨hlt, -⟩
  · exact Nat.le_of_eq heq
  · exact Nat.le_of_lt hlt

theorem tzcntl_lt {x n : ℕ} (hn : n ≤ 32) : tzcntl x < n ↔ ∃ i < n, x.testBit i = true := by
  rw [← Nat.not_le, le_tzcntl hn, mod_two_pow_eq_zero]
  simp

theorem lzcntl_eq {x j : ℕ} (hj : j < 32) (hlo : 2 ^ j ≤ x) (hhi : x < 2 ^ (j + 1)) :
    lzcntl x = 31 - j := by
  have hx : x < 2 ^ 32 := lt_of_lt_of_le hhi (Nat.pow_le_pow_right (by decide) (by omega))
  have h0 : x ≠ 0 := by
    have := Nat.two_pow_pos j
    omega
  rw [lzcntl, low32_eq hx, if_neg h0, (Nat.log2_eq_iff h0).mpr ⟨hlo, hhi⟩]

/-- Two addresses are multiples of a power of two if their disjunction is. -/
theorem orl_mod {a b n : ℕ} (hn : n ≤ 32) :
    orl a b % 2 ^ n = 0 ↔ a % 2 ^ n = 0 ∧ b % 2 ^ n = 0 := by
  simp only [mod_two_pow_eq_zero, orl, low32, Nat.testBit_or, Nat.testBit_mod_two_pow,
    Bool.or_eq_false_iff]
  constructor
  · intro h
    exact ⟨fun i hi => by simpa [show i < 32 by omega] using (h i hi).1,
      fun i hi => by simpa [show i < 32 by omega] using (h i hi).2⟩
  · exact fun h i hi => ⟨by simp [h.1 i hi], by simp [h.2 i hi]⟩

/-- A value that stays on its page does so for both of its parts. -/
theorem orl_page {a b : ℕ} : a % pgsize ≤ orl a b % pgsize ∧ b % pgsize ≤ orl a b % pgsize := by
  rw [orl, show pgsize = 2 ^ 12 from rfl, Nat.or_mod_two_pow, low32, low32,
    Nat.mod_mod_of_dvd a (by decide), Nat.mod_mod_of_dvd b (by decide)]
  exact ⟨Nat.left_le_or, Nat.right_le_or⟩

/-- Whether one of the lower bits is set. -/
theorem jz_testl {x n : ℕ} (hn : n ≤ 32) :
    jz (testl (2 ^ n - 1) x) = decide (∀ i < n, x.testBit i = false) := by
  have hlt : 2 ^ n - 1 < 2 ^ 32 := lt_of_lt_of_le (Nat.sub_lt (Nat.two_pow_pos n) Nat.one_pos)
    (Nat.pow_le_pow_right (by decide) hn)
  refine decide_eq_decide.mpr ?_
  rw [low32_eq hlt, Nat.and_comm, Nat.and_two_pow_sub_one_eq_mod, low32,
    Nat.mod_mod_of_dvd x (Nat.pow_dvd_pow 2 hn), mod_two_pow_eq_zero]

/-- Whether an address is aligned, by its lowest bit. -/
theorem five_le_tzcntq {x : ℕ} : 5 ≤ tzcntq x ↔ x % 32 = 0 := by
  rw [show 32 = 2 ^ 5 from rfl, mod_two_pow_eq_zero, tzcntq]
  rcases firstIdx_cases (w := 64) (p := x.testBit) with ⟨heq, hall⟩ | ⟨-, hset, hlt⟩
  · exact iff_of_true (by omega) fun i hi => hall i (by omega)
  · constructor
    · exact fun h i hi => hlt i (by omega)
    · intro h
      by_contra hlow
      exact absurd ((h _ (by omega)).symm.trans hset) (by simp)

end Masks

/-! ### The vector of a block -/

/-- One step of the search for a vector: the offset, and the size of a vector until one is
found and then zero. -/
def search (found : Lanes → Bool) (next : ℕ × ℕ) (v : Lanes) : ℕ × ℕ :=
  let step := if found v then 0 else low32 next.2
  (ea (next.1 + step), step)

theorem search_stuck {found : Lanes → Bool} {o : ℕ} (vs : List Lanes) (ho : o < 2 ^ 64) :
    vs.foldl (search found) (o, 0) = (o, 0) := by
  induction vs with
  | nil => rfl
  | cons v vs ih =>
    have hstep : search found (o, 0) v = (o, 0) := by
      simp only [search, low32, Nat.zero_mod, ite_self]
      rw [ea_eq (a := o) (by omega) ho]
    rw [List.foldl_cons, hstep, ih]

/-- The search ends at the first vector found, or behind them all. -/
theorem search_fold {found : Lanes → Bool} {o : ℕ} (vs : List Lanes)
    (ho : o + 32 * vs.length < 2 ^ 64) :
    (vs.foldl (search found) (o, 0x20)).1 = o + 32 * vs.findIdx found := by
  induction vs generalizing o with
  | nil => rfl
  | cons v vs ih =>
    rw [List.length_cons] at ho
    rw [List.foldl_cons, List.findIdx_cons]
    by_cases hv : found v = true
    · have hstep : search found (o, 0x20) v = (o, 0) := by
        simp only [search, hv, if_true]
        rw [ea_eq (a := o) (by omega) (by omega)]
      rw [hstep, search_stuck vs (by omega), hv]
      rfl
    · have hstep : search found (o, 0x20) v = (o + 32, 0x20) := by
        simp only [search, if_neg hv]
        rw [low32_eq (by decide), ea_eq (a := o + 32) (by omega) (by omega)]
      rw [Bool.not_eq_true] at hv
      rw [hstep, ih (by omega), hv, cond_false]
      omega

/-! ### Blocks of an area -/

/-- The first `k` of `n` bytes from `p` on are done, and the next block, of `size` bytes,
begins at an offset up to `k` and ends at the offset `rcx`, where the address is aligned. -/
structure NextBlock (p n size k rcx : ℕ) : Prop where
  left : k < n
  head : 32 ≤ k
  size_le : size ≤ rcx
  start : rcx ≤ k + size
  fresh : k + size ≤ rcx + 32
  aligned : (p + rcx) % 32 = 0

end Avx2
