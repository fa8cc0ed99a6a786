/-
Instructions of AArch64 with Advanced SIMD, one definition a mnemonic.

General registers are naturals below `2 ^ 64`.  What is just moved from one place in
memory to another (in vector registers, or in general ones) is kept as its bytes.
Accesses of memory are those of a `Space`, and need no alignment.

* `addX`, `subX` — arithmetic modulo `2 ^ 64`;
* `cmpX`, `tstX` — the flags, read by the conditions `bLo`, `bHi`, `bEq` (unsigned) and
  `bLe` (signed);
* `ld1`, `st1` — the registers listed in braces, one after the other.
-/
import Cldm.Space

namespace Advsimd

open Prog Space

/-! ### General registers -/

def addX (a b : ℕ) : ℕ := (a + b) % 2 ^ 64

def subX (a b : ℕ) : ℕ := (a + (2 ^ 64 - b)) % 2 ^ 64

def andImm (m a : ℕ) : ℕ := m &&& a

/-- The immediate operand that extends a negative one. -/
def neg (a : ℕ) : ℕ := 2 ^ 64 - a

/-- The value of a register as a signed number. -/
def signed (x : ℕ) : ℤ := if x < 2 ^ 63 then x else x - 2 ^ 64

variable {a b c : ℕ}

theorem addX_eq (h : a + b = c) (hc : c < 2 ^ 64) : addX a b = c := by
  rw [addX, h, Nat.mod_eq_of_lt hc]

theorem subX_eq (h : a = b + c) (ha : a < 2 ^ 64) : subX a b = c := by
  rw [subX]
  omega

/-- A difference below zero. -/
theorem subX_wrap (h : a < b) (hb : b ≤ 2 ^ 64) : subX a b = 2 ^ 64 + a - b := by
  rw [subX]
  omega

theorem andImm_align (h : a < 2 ^ 64) : andImm (neg 0x20) a = a / 32 * 32 := by
  rw [andImm, neg, show 0x20 = 2 ^ 5 from rfl, mask_align h (by decide)]

theorem signed_of_lt (h : a < 2 ^ 63) : signed a = a := if_pos h

theorem signed_of_le (h : 2 ^ 63 ≤ a) : signed a = a - 2 ^ 64 := if_neg (by omega)

/-! ### Flags -/

/-- The flags that the conditions read. -/
structure Flags where
  carry : Bool
  zero : Bool
  less : Bool

def cmpX (a b : ℕ) : Flags := ⟨b ≤ a, a = b, signed a < signed b⟩

def tstX (a b : ℕ) : Flags := ⟨false, a &&& b = 0, signed (a &&& b) < 0⟩

/-- Unsigned lower. -/
def bLo (fl : Flags) : Bool := !fl.carry

/-- Unsigned higher. -/
def bHi (fl : Flags) : Bool := fl.carry && !fl.zero

def bEq (fl : Flags) : Bool := fl.zero

/-- Signed less than or equal. -/
def bLe (fl : Flags) : Bool := fl.zero || fl.less

@[simp] theorem bLo_cmpX : bLo (cmpX a b) = decide (a < b) := by
  simp only [bLo, cmpX]
  grind

@[simp] theorem bHi_cmpX : bHi (cmpX a b) = decide (b < a) := by
  simp only [bHi, cmpX]
  grind

@[simp] theorem bEq_cmpX : bEq (cmpX a b) = decide (a = b) := rfl

@[simp] theorem bEq_tstX : bEq (tstX a a) = decide (a = 0) := by simp [bEq, tstX]

theorem bLe_cmpX (ha : a < 2 ^ 63) (hb : b < 2 ^ 63) : bLe (cmpX a b) = decide (a ≤ b) := by
  simp only [bLe, cmpX, signed_of_lt ha, signed_of_lt hb]
  grind

theorem bLe_cmpX_neg (ha : 2 ^ 63 ≤ a) (hmax : a < 2 ^ 64) (hb : b < 2 ^ 63) :
    bLe (cmpX a b) = true := by
  have hless : signed a < signed b := by
    rw [signed_of_le ha, signed_of_lt hb]
    omega
  simp only [bLe, cmpX, hless, decide_true, Bool.or_true]

/-! ### Moves -/

/-- Moves of vector registers, each of 16 bytes. -/
def ld1 (regs p : ℕ) : Prog Space Lanes := load (regs * 16) p

def st1 (regs : ℕ) (v : Lanes) (p : ℕ) : Prog Space Unit := store (regs * 16) p v

/-- Moves of eight and of four bytes. -/
def ldrX (p : ℕ) : Prog Space Lanes := load 8 p

def strX (v : Lanes) (p : ℕ) : Prog Space Unit := store 8 p v

def ldrW (p : ℕ) : Prog Space Lanes := load 4 p

def strW (v : Lanes) (p : ℕ) : Prog Space Unit := store 4 p v

/-- Moves of two bytes and of one. -/
def ldrh (p : ℕ) : Prog Space Lanes := load 2 p

def strh (v : Lanes) (p : ℕ) : Prog Space Unit := store 2 p v

def ldrb (p : ℕ) : Prog Space Lanes := load 1 p

def strb (v : Lanes) (p : ℕ) : Prog Space Unit := store 1 p v

end Advsimd
