/-
The integer types of C and their conversions.

The widths are those of LP64; whether a plain `char` is signed is left open.
Conversions to a signed type keep the low bits.

* `convert` — the conversion of a value to a type;
* `promote`, `common` — the integer promotions, and the type in which two
  operands meet;
* `relExpr` — what an expression such as `l < r` evaluates to;
* `common_has`, `common_has_of_nonneg` — the values that survive the conversion
  to the common type.
-/
import Mathlib.Tactic.Common
import Mathlib.Tactic.NormNum.Pow
import Mathlib.Data.Fintype.Basic

namespace CInt

/-- The integer types. -/
inductive IntType
  | bool | char | schar | uchar | short | ushort | int | uint | long | ulong | llong | ullong
  deriving DecidableEq

namespace IntType

instance : Fintype IntType where
  elems := {bool, char, schar, uchar, short, ushort, int, uint, long, ulong, llong, ullong}
  complete t := by cases t <;> decide

/-- The number of bits of a value, with the sign. -/
def bits : IntType → ℕ
  | bool => 1
  | char | schar | uchar => 8
  | short | ushort => 16
  | int | uint => 32
  | long | ulong | llong | ullong => 64

/-- The types with negative values. -/
def signed (charSigned : Bool) : IntType → Bool
  | char => charSigned
  | schar | short | int | long | llong => true
  | bool | uchar | ushort | uint | ulong | ullong => false

/-- The conversion rank. -/
def rank : IntType → ℕ
  | bool => 0
  | char | schar | uchar => 1
  | short | ushort => 2
  | int | uint => 3
  | long | ulong => 4
  | llong | ullong => 5

variable (cs : Bool)

/-- The least value. -/
def lo (t : IntType) : ℤ := if t.signed cs then -((2 ^ (t.bits - 1) : ℕ) : ℤ) else 0

/-- The greatest value. -/
def hi (t : IntType) : ℤ :=
  ((if t.signed cs then 2 ^ (t.bits - 1) - 1 else 2 ^ t.bits - 1 : ℕ) : ℤ)

/-- The type has the value `v`. -/
def Has (t : IntType) (v : ℤ) : Prop := t.lo cs ≤ v ∧ v ≤ t.hi cs

instance (t : IntType) (v : ℤ) : Decidable (t.Has cs v) := inferInstanceAs (Decidable (_ ∧ _))

/-- The values of a type. -/
abbrev Value (t : IntType) := {v : ℤ // t.Has cs v}

/-- The value of the type that `v` is converted to. -/
def convert (t : IntType) (v : ℤ) : ℤ :=
  if t = bool then if v = 0 then 0 else 1
  else if t.signed cs then v.bmod (2 ^ t.bits) else v % ((2 ^ t.bits : ℕ) : ℤ)

/-- The unsigned type that corresponds to a signed one. -/
def toUnsigned : IntType → IntType
  | char | schar => uchar
  | short => ushort
  | int => uint
  | long => ulong
  | llong => ullong
  | t => t

/-- The integer promotion. -/
def promote (t : IntType) : IntType :=
  if t.rank < int.rank then
    if int.lo cs ≤ t.lo cs ∧ t.hi cs ≤ int.hi cs then int else uint
  else t

/-- The common type of a signed type `s` and an unsigned type `u`. -/
def mixed (s u : IntType) : IntType :=
  if s.rank ≤ u.rank then u
  else if u.hi cs ≤ s.hi cs then s
  else s.toUnsigned

/-- The usual arithmetic conversions, for operands that have been promoted. -/
def balance (t u : IntType) : IntType :=
  if t = u then t
  else if t.signed cs = u.signed cs then if t.rank < u.rank then u else t
  else if t.signed cs then mixed cs t u
  else mixed cs u t

/-- The usual arithmetic conversions: the common type of two operands. -/
def common (t u : IntType) : IntType := balance cs (promote cs t) (promote cs u)

end IntType

open IntType

/-- The equality and relational operators. -/
inductive Rel
  | eq | ne | gt | ge | lt | le
  deriving DecidableEq

namespace Rel

/-- An operator on integers. -/
def eval : Rel → ℤ → ℤ → Bool
  | eq, a, b => a = b
  | ne, a, b => a ≠ b
  | gt, a, b => b < a
  | ge, a, b => b ≤ a
  | lt, a, b => a < b
  | le, a, b => a ≤ b

/-- `==` and `!=`. -/
def isEquality : Rel → Bool
  | eq | ne => true
  | gt | ge | lt | le => false

end Rel

/-- The value of the expression `l op r`. -/
def relExpr {cs : Bool} {t u : IntType} (op : Rel) (l : t.Value cs) (r : u.Value cs) : Bool :=
  op.eval ((common cs t u).convert cs l) ((common cs t u).convert cs r)

/-! ### Conversions -/

section Convert

variable {cs : Bool} {t : IntType} {v : ℤ}

/-- The values of a signed type. -/
theorem has_signed (hs : t.signed cs = true) :
    t.Has cs v ↔ -((2 ^ (t.bits - 1) : ℕ) : ℤ) ≤ v ∧ v < ((2 ^ (t.bits - 1) : ℕ) : ℤ) := by
  have hpos : 0 < 2 ^ (t.bits - 1) := Nat.two_pow_pos _
  rw [Has, lo, hi, if_pos hs, if_pos hs]
  omega

/-- The values of an unsigned type. -/
theorem has_unsigned (hs : t.signed cs = false) :
    t.Has cs v ↔ 0 ≤ v ∧ v < ((2 ^ t.bits : ℕ) : ℤ) := by
  have hpos : 0 < 2 ^ t.bits := Nat.two_pow_pos _
  have hne : ¬ t.signed cs = true := by
    rw [hs]
    exact Bool.false_ne_true
  rw [Has, lo, hi, if_neg hne, if_neg hne]
  omega

theorem two_pow_bits (t : IntType) : 2 ^ t.bits = 2 * 2 ^ (t.bits - 1) := by
  have hbits : t.bits = (t.bits - 1) + 1 := by
    cases t <;> rfl
  calc 2 ^ t.bits = 2 ^ ((t.bits - 1) + 1) := by rw [← hbits]
    _ = 2 * 2 ^ (t.bits - 1) := Nat.pow_succ'

theorem convert_signed (hs : t.signed cs = true) : t.convert cs v = v.bmod (2 ^ t.bits) := by
  have hne : t ≠ bool := by
    rintro rfl
    exact absurd hs (by simp [signed])
  rw [convert, if_neg hne, if_pos hs]

theorem convert_unsigned (hs : t.signed cs = false) (hne : t ≠ bool) :
    t.convert cs v = v % ((2 ^ t.bits : ℕ) : ℤ) := by
  rw [convert, if_neg hne, if_neg (by rw [hs]; exact Bool.false_ne_true)]

/-- The result of a conversion is a value of the type. -/
theorem has_convert (t : IntType) (v : ℤ) : t.Has cs (t.convert cs v) := by
  have htwo := two_pow_bits t
  have hpos : 0 < 2 ^ (t.bits - 1) := Nat.two_pow_pos _
  by_cases hb : t = bool
  · subst hb
    rw [convert, if_pos rfl]
    split_ifs <;> decide +revert
  cases hs : t.signed cs with
  | true =>
    rw [has_signed hs, convert_signed hs, htwo]
    have hlo := Int.le_bmod (x := v) (m := 2 * 2 ^ (t.bits - 1)) (by omega)
    have hhi := Int.bmod_lt (x := v) (m := 2 * 2 ^ (t.bits - 1)) (by omega)
    push_cast at hlo hhi ⊢
    omega
  | false =>
    rw [has_unsigned hs, convert_unsigned hs hb]
    exact ⟨Int.emod_nonneg _ (by omega), Int.emod_lt_of_pos _ (by omega)⟩

/-- The value of type `t` that `v` is converted to. -/
def cast (t : IntType) (v : ℤ) : t.Value cs := ⟨t.convert cs v, has_convert t v⟩

/-- A value of the type is converted to itself. -/
theorem convert_of_has (h : t.Has cs v) : t.convert cs v = v := by
  have htwo := two_pow_bits t
  by_cases hb : t = bool
  · subst hb
    have hbounds : 0 ≤ v ∧ v < ((2 ^ bool.bits : ℕ) : ℤ) := (has_unsigned rfl).mp h
    obtain ⟨hlo, hhi⟩ := hbounds
    rw [convert, if_pos rfl]
    simp only [bits] at hhi
    split_ifs <;> omega
  cases hs : t.signed cs with
  | true =>
    obtain ⟨hlo, hhi⟩ := (has_signed hs).mp h
    rw [convert_signed hs, htwo]
    exact Int.bmod_eq_of_le_mul_two (by push_cast at hlo ⊢; omega) (by push_cast at hhi ⊢; omega)
  | false =>
    obtain ⟨hlo, hhi⟩ := (has_unsigned hs).mp h
    rw [convert_unsigned hs hb, Int.emod_eq_of_lt hlo hhi]

/-- A negative value is converted to an unsigned type from above. -/
theorem convert_neg (hs : t.signed cs = false) (hne : t ≠ bool) (hneg : v < 0)
    (hlo : -((2 ^ t.bits : ℕ) : ℤ) ≤ v) : t.convert cs v = v + ((2 ^ t.bits : ℕ) : ℤ) := by
  rw [convert_unsigned hs hne, ← Int.add_emod_right]
  exact Int.emod_eq_of_lt (by omega) (by omega)

/-- A value that is too large for a signed type becomes negative. -/
theorem convert_nonneg (hs : t.signed cs = true) (h0 : 0 ≤ v) (hhi : v < ((2 ^ t.bits : ℕ) : ℤ)) :
    t.convert cs v =
      if v < ((2 ^ (t.bits - 1) : ℕ) : ℤ) then v else v - ((2 ^ t.bits : ℕ) : ℤ) := by
  have htwo := two_pow_bits t
  split_ifs with hsmall
  · exact convert_of_has ((has_signed hs).mpr ⟨by omega, hsmall⟩)
  · rw [convert_signed hs, ← Int.sub_bmod_right]
    rw [htwo] at hhi ⊢
    exact Int.bmod_eq_of_le_mul_two (by push_cast at *; omega) (by push_cast at *; omega)

theorem has_int : int.Has cs v ↔ -2 ^ 31 ≤ v ∧ v < 2 ^ 31 := by
  rw [has_signed rfl]
  norm_num [bits]

theorem has_llong : llong.Has cs v ↔ -2 ^ 63 ≤ v ∧ v < 2 ^ 63 := by
  rw [has_signed rfl]
  norm_num [bits]

theorem has_ullong : ullong.Has cs v ↔ 0 ≤ v ∧ v < 2 ^ 64 := by
  rw [has_unsigned rfl]
  norm_num [bits]

theorem convert_ullong_neg (hneg : v < 0) (hlo : -2 ^ 64 ≤ v) :
    ullong.convert cs v = v + 2 ^ 64 := by
  rw [convert_neg rfl (by decide) hneg (by norm_num [bits]; omega)]
  norm_num [bits]

theorem convert_llong_nonneg (h0 : 0 ≤ v) (hhi : v < 2 ^ 64) :
    llong.convert cs v = if v < 2 ^ 63 then v else v - 2 ^ 64 := by
  rw [convert_nonneg rfl h0 (by norm_num [bits]; omega)]
  norm_num [bits]

theorem convert_int_nonneg (h0 : 0 ≤ v) (hhi : v < 2 ^ 32) :
    int.convert cs v = if v < 2 ^ 31 then v else v - 2 ^ 32 := by
  rw [convert_nonneg rfl h0 (by norm_num [bits]; omega)]
  norm_num [bits]

end Convert

/-! ### The common type -/

section Common

variable {cs : Bool} {t u : IntType} {v : ℤ}

theorem common_comm (cs : Bool) (t u : IntType) : common cs t u = common cs u t := by
  decide +revert

/-- A signed common type has all values of both operands. -/
theorem common_has (hs : (common cs t u).signed cs = true) (h : t.Has cs v) :
    (common cs t u).Has cs v := by
  have hrange : ∀ cs t u, (common cs t u).signed cs = true →
      (common cs t u).lo cs ≤ t.lo cs ∧ t.hi cs ≤ (common cs t u).hi cs := by decide
  obtain ⟨hmin, hmax⟩ := hrange cs t u hs
  exact ⟨hmin.trans h.1, h.2.trans hmax⟩

/-- Every common type has all values of both operands that are not negative. -/
theorem common_has_of_nonneg (h : t.Has cs v) (hv : 0 ≤ v) : (common cs t u).Has cs v := by
  have hrange : ∀ cs t u, (common cs t u).lo cs ≤ 0 ∧
      t.hi cs ≤ (common cs t u).hi cs := by decide
  obtain ⟨hmin, hmax⟩ := hrange cs t u
  exact ⟨hmin.trans hv, h.2.trans hmax⟩

/-- No operand is wider than the common type. -/
theorem common_bounds (h : t.Has cs v) :
    -((2 ^ ((common cs t u).bits - 1) : ℕ) : ℤ) ≤ v ∧
      v < ((2 ^ (common cs t u).bits : ℕ) : ℤ) := by
  have hrange : ∀ cs t u, -((2 ^ ((common cs t u).bits - 1) : ℕ) : ℤ) ≤ t.lo cs ∧
      t.hi cs < ((2 ^ (common cs t u).bits : ℕ) : ℤ) := by decide
  obtain ⟨hmin, hmax⟩ := hrange cs t u
  exact ⟨hmin.trans h.1, h.2.trans_lt hmax⟩

/-- Operands of one type that is not promoted. -/
theorem common_self (h : int.rank ≤ t.rank) : common cs t t = t := by
  have hpromote : promote cs t = t := by
    rw [promote, if_neg (Nat.not_lt.mpr h)]
  rw [common, hpromote, balance, if_pos rfl]

theorem relExpr_self (h : int.rank ≤ t.rank) (op : Rel) (l r : t.Value cs) :
    relExpr op l r = op.eval l r := by
  rw [relExpr, common_self h, convert_of_has l.2, convert_of_has r.2]

theorem common_ne_bool (cs : Bool) (t u : IntType) : common cs t u ≠ bool := by
  decide +revert

theorem common_bits (cs : Bool) (t u : IntType) :
    (common cs t u).bits = 32 ∨ (common cs t u).bits = 64 := by
  decide +revert

end Common

/-! ### Comparisons -/

namespace Rel

variable {op : Rel} {a b a' b' : ℤ}

/-- Integers in the same order compare alike. -/
theorem eval_congr (hlt : a < b ↔ a' < b') (hgt : b < a ↔ b' < a') : op.eval a b = op.eval a' b' := by
  cases op <;> simp only [eval, decide_eq_decide] <;> omega

/-- Integers in opposite orders compare alike with `==` and `!=` only. -/
theorem eval_opposite (h : a < b ∧ b' < a' ∨ b < a ∧ a' < b') :
    op.eval a b = op.eval a' b' ↔ op.isEquality = true := by
  cases op <;> simp only [eval, isEquality, decide_eq_decide, iff_true, Bool.false_eq_true,
    iff_false] <;> omega

theorem eval_of_lt (h : a < b) : op.eval a b = op.eval 0 1 := eval_congr (by omega) (by omega)

theorem eval_of_gt (h : b < a) : op.eval a b = op.eval 1 0 := eval_congr (by omega) (by omega)

/-- The two ways to bring operands of different signs to one type of `2 * n` values:
`b` becomes negative if it is large, or `a` becomes large if it is negative. -/
theorem eval_wrap {n : ℤ} (ha : -n ≤ a ∧ a < n) (hb : 0 ≤ b ∧ b < 2 * n) :
    op.eval a (if b < n then b else b - 2 * n) = op.eval (if 0 ≤ a then a else a + 2 * n) b ↔
      op.isEquality = true ∨ (a < 0 ↔ n ≤ b) := by
  by_cases h0 : 0 ≤ a <;> by_cases hn : b < n
  · rw [if_pos h0, if_pos hn]
    exact iff_of_true rfl (.inr (by omega))
  · rw [if_pos h0, if_neg hn, eval_opposite (by omega)]
    exact (or_iff_left (by omega)).symm
  · rw [if_neg h0, if_pos hn, eval_opposite (by omega)]
    exact (or_iff_left (by omega)).symm
  · rw [if_neg h0, if_neg hn]
    exact iff_of_true (eval_congr (by omega) (by omega)) (.inr (by omega))

end Rel

end CInt
