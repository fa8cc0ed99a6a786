/-
The comparing assertions of `cldm_test.h` and `cldm_test.c`.

With `_Generic`, an assertion calls the function that the type of its left
operand selects, and both operands are converted to the type of that function's
parameters.  Without it, the operands meet in their common type.

* `assertGeneric`, `assertFallback` — the assertions of the two builds;
* `assert_builds_agree` — when they have the same outcome;
* `assert_builds_differ` — an equality that holds in one build only.

The texts of the messages are left out.
-/
import Cldm.CInt
import Cldm.TestLog

namespace Cldm

open CInt CInt.IntType

/-- The suffixes of `cldm_genassert_typelist`, but for the one of the pointers. -/
inductive GenSuffix
  | c | llu | lld
  deriving DecidableEq

/-- The type next to a suffix in `cldm_genassert_typelist`. -/
def GenSuffix.type : GenSuffix → IntType
  | c => .int
  | llu => .ullong
  | lld => .llong

/-- The suffix that `cldm_assert_generic` selects. -/
def genericSuffix : IntType → GenSuffix
  | .bool => .lld
  | .char => .c
  | .uchar => .llu
  | .ushort => .llu
  | .uint => .llu
  | .ulong => .llu
  | .ullong => .llu
  | .schar => .lld
  | .short => .lld
  | .int => .lld
  | .long => .lld
  | .llong => .lld

section Definitions

variable {cs : Bool} {t u : IntType}

/-- The functions that `cldm_genassert_defs` defines with `generic_cmp_assertion`:
`cldm_assert_eq_c` and the others.  `t` is the type of both parameters. -/
def genericCmpAssertion (realloc : ℕ → Bool) (op : Rel) (l r : t.Value cs)
    (msg : Option CStr → CStr) : TestState → Option TestState :=
  assertTrue realloc ⟨relExpr op l r, msg⟩

/-- `cldm_assert_generic`. -/
def assertGeneric (realloc : ℕ → Bool) (op : Rel) (l : t.Value cs) (r : u.Value cs)
    (msg : Option CStr → CStr) : TestState → Option TestState :=
  let param := (genericSuffix t).type
  genericCmpAssertion realloc op (cast param l : param.Value cs) (cast param r) msg

/-- `CLDM_ASSERT_EQ` and the others without `_Generic`. -/
def assertFallback (realloc : ℕ → Bool) (op : Rel) (l : t.Value cs) (r : u.Value cs)
    (msg : Option CStr → CStr) : TestState → Option TestState :=
  assertTrue realloc ⟨relExpr op l r, msg⟩

end Definitions

/-! ### The specification -/

/-- An assertion passes: it is counted, and nothing else is recorded. -/
def Passes (assertion : TestState → Option TestState) : Prop :=
  ∀ s, assertion s = some s.countAssertion

section Spec

variable {cs : Bool} {t u : IntType}

/-- When the two builds have the same outcome.  `op.eval 0 1` is the outcome for a
left operand that is less, `op.eval 1 0` for one that is greater. -/
def BuildsAgree (op : Rel) (l : t.Value cs) (r : u.Value cs) : Prop :=
  let c := common cs t u
  match genericSuffix t with
  | .lld =>
    if c.signed cs then True
    else if c.bits = 64 then op.isEquality = true ∨ (l.1 < 0 ↔ 2 ^ 63 ≤ r.1)
    else 0 ≤ l.1 ∨ op.eval (l.1 + 2 ^ 32) r = op.eval 0 1
  | .llu =>
    0 ≤ r.1 ∨
      if c.signed cs then op.isEquality = true
      else c.bits = 64 ∨ op.eval l (r.1 + 2 ^ 32) = op.eval 0 1
  | .c =>
    if c.bits = 32 then c.signed cs = true ∨ op.isEquality = true ∨ (l.1 < 0 ↔ 2 ^ 31 ≤ r.1)
    else if c.signed cs then
      -2 ^ 31 ≤ r.1 ∧ r.1 < 2 ^ 31 ∨ op.eval l (r.1.bmod (2 ^ 32)) = op.eval 0 r
    else if l.1 < 0 then
      2 ^ 64 - 2 ^ 31 ≤ r.1 ∨ op.eval l (r.1.bmod (2 ^ 32)) = op.eval 1 0
    else
      r.1 < 2 ^ 31 ∨ op.eval l (r.1.bmod (2 ^ 32)) = op.eval 0 1

end Spec

/-! ### What the assertions record -/

/-- An assertion passes iff it is true. -/
theorem passes_assertTrue {realloc : ℕ → Bool} {a : Assertion} :
    Passes (assertTrue realloc a) ↔ a.eval = true := by
  constructor
  · intro h
    have hcounters := (assertTrue_evaluates (h TestState.static)).counters
    have hfailed := congrArg Counters.failedAssertions hcounters
    cases heval : a.eval with
    | true => rfl
    | false =>
      rw [heval] at hfailed
      exact absurd hfailed (by decide)
  · intro h s
    rw [assertTrue, if_pos h]

/-! ### The two builds -/

section Builds

variable {cs : Bool} {t u : IntType} {op : Rel}

/-- The parameters of the assertion functions are not promoted. -/
theorem passes_assertGeneric {realloc : ℕ → Bool} {msg : Option CStr → CStr} (l : t.Value cs)
    (r : u.Value cs) :
    Passes (assertGeneric realloc op l r msg) ↔
      op.eval ((genericSuffix t).type.convert cs l) ((genericSuffix t).type.convert cs r) = true := by
  have hrank : ∀ x : GenSuffix, int.rank ≤ x.type.rank := by
    intro x
    cases x <;> decide
  rw [assertGeneric, genericCmpAssertion, passes_assertTrue, relExpr_self (hrank _)]
  rfl

/-- The common type is an unsigned one that the right operand fits. -/
theorem relExpr_of_unsigned (l : t.Value cs) (r : u.Value cs)
    (hs : (common cs t u).signed cs = false) (hr : 0 ≤ r.1) :
    relExpr op l r =
      op.eval (if 0 ≤ l.1 then l.1 else l.1 + ((2 ^ (common cs t u).bits : ℕ) : ℤ)) r := by
  have hcr : (common cs t u).convert cs r = r := by
    rw [common_comm]
    exact convert_of_has (common_has_of_nonneg r.2 hr)
  rw [relExpr, hcr]
  by_cases h0 : 0 ≤ l.1
  · rw [if_pos h0, convert_of_has (common_has_of_nonneg l.2 h0)]
  · have hlo := (common_bounds (u := u) l.2).1
    have htwo := two_pow_bits (common cs t u)
    rw [if_neg h0, convert_neg hs (common_ne_bool cs t u) (by omega) (by omega)]

/-- A signed common type has both operands. -/
theorem relExpr_of_signed (l : t.Value cs) (r : u.Value cs)
    (hs : (common cs t u).signed cs = true) : relExpr op l r = op.eval l r := by
  have hcr : (common cs t u).Has cs r := by
    rw [common_comm] at hs ⊢
    exact common_has hs r.2
  rw [relExpr, convert_of_has (common_has hs l.2), convert_of_has hcr]

/-- A left operand that is compared as a `long long`. -/
theorem builds_lld (ht : genericSuffix t = .lld) (l : t.Value cs) (r : u.Value cs) :
    op.eval (llong.convert cs l) (llong.convert cs r) = relExpr op l r ↔ BuildsAgree op l r := by
  have hfits : ∀ cs t, genericSuffix t = .lld → llong.lo cs ≤ t.lo cs ∧ t.hi cs ≤ llong.hi cs := by
    decide
  have hl : llong.convert cs l = l :=
    convert_of_has ⟨(hfits cs t ht).1.trans l.2.1, l.2.2.trans (hfits cs t ht).2⟩
  rw [BuildsAgree, ht, hl]
  dsimp only
  cases hs : (common cs t u).signed cs with
  | true =>
    have hwide : ∀ cs t u, (common cs t u).signed cs = true →
        llong.lo cs ≤ u.lo cs ∧ u.hi cs ≤ llong.hi cs := by decide
    have hr : llong.convert cs r = r :=
      convert_of_has ⟨(hwide cs t u hs).1.trans r.2.1, r.2.2.trans (hwide cs t u hs).2⟩
    rw [hr, relExpr_of_signed l r hs, if_pos rfl]
    exact iff_of_true rfl trivial
  | false =>
    have hsides : ∀ cs t u, genericSuffix t = .lld → (common cs t u).signed cs = false →
        0 ≤ u.lo cs ∧ t.hi cs < ((2 ^ ((common cs t u).bits - 1) : ℕ) : ℤ) := by decide
    have hr0 : 0 ≤ r.1 := (hsides cs t u ht hs).1.trans r.2.1
    have hlhi := l.2.2.trans_lt (hsides cs t u ht hs).2
    have hllo := (common_bounds (u := u) l.2).1
    have hrhi := (common_bounds (u := t) r.2).2
    rw [common_comm] at hrhi
    rw [relExpr_of_unsigned l r hs hr0, if_neg Bool.false_ne_true]
    rcases common_bits cs t u with hbits | hbits
    · -- the right operand fits a `long long`
      rw [hbits] at hllo hlhi hrhi ⊢
      rw [convert_of_has (has_llong.mpr ⟨by omega, by omega⟩),
        if_neg (show ¬ (32 : ℕ) = 64 by decide)]
      by_cases h0 : 0 ≤ l.1
      · rw [if_pos h0]
        exact iff_of_true rfl (.inl h0)
      · rw [if_neg h0, Rel.eval_of_lt (show l.1 < r.1 by omega), or_iff_right h0]
        exact eq_comm
    · rw [hbits] at hllo hlhi hrhi ⊢
      rw [if_pos rfl, convert_llong_nonneg hr0 (by omega)]
      exact Rel.eval_wrap (n := 2 ^ 63) ⟨by omega, by omega⟩ ⟨hr0, by omega⟩

/-- A left operand that is compared as an `unsigned long long`. -/
theorem builds_llu (ht : genericSuffix t = .llu) (l : t.Value cs) (r : u.Value cs) :
    op.eval (ullong.convert cs l) (ullong.convert cs r) = relExpr op l r ↔ BuildsAgree op l r := by
  have hfits : ∀ cs t, genericSuffix t = .llu → 0 ≤ t.lo cs ∧ t.hi cs ≤ ullong.hi cs := by decide
  have hl0 : 0 ≤ l.1 := (hfits cs t ht).1.trans l.2.1
  have hl : ullong.convert cs l = l := convert_of_has ⟨hl0, l.2.2.trans (hfits cs t ht).2⟩
  have hlhi := (common_bounds (u := u) l.2).2
  have hrlo := (common_bounds (u := t) r.2).1
  rw [common_comm] at hrlo
  have hbound : -(2 ^ 63 : ℤ) ≤ r.1 ∧ r.1 < 2 ^ 64 := by
    have hall : ∀ cs (u : IntType), -(2 ^ 63 : ℤ) ≤ u.lo cs ∧ u.hi cs < 2 ^ 64 := by decide
    exact ⟨(hall cs u).1.trans r.2.1, r.2.2.trans_lt (hall cs u).2⟩
  rw [BuildsAgree, ht, hl]
  dsimp only
  by_cases hr0 : 0 ≤ r.1
  · have hrel : relExpr op l r = op.eval l r := by
      cases hs : (common cs t u).signed cs with
      | true => exact relExpr_of_signed l r hs
      | false => rw [relExpr_of_unsigned l r hs hr0, if_pos hl0]
    rw [hrel, convert_of_has (has_ullong.mpr ⟨hr0, hbound.2⟩)]
    exact iff_of_true rfl (.inl hr0)
  · rw [convert_ullong_neg (by omega) (by omega), or_iff_right hr0]
    cases hs : (common cs t u).signed cs with
    | true =>
      have hsmall : l.1 < 2 ^ 63 := by
        have hc := ((has_signed hs).mp (common_has hs l.2)).2
        rcases common_bits cs t u with hbits | hbits
        · rw [hbits] at hc
          omega
        · rw [hbits] at hc
          omega
      rw [if_pos rfl, relExpr_of_signed l r hs]
      exact Rel.eval_opposite (by omega)
    | false =>
      have hcr : (common cs t u).convert cs r = r + ((2 ^ (common cs t u).bits : ℕ) : ℤ) := by
        have htwo := two_pow_bits (common cs t u)
        exact convert_neg hs (common_ne_bool cs t u) (by omega) (by omega)
      rw [if_neg Bool.false_ne_true, relExpr, convert_of_has (common_has_of_nonneg l.2 hl0), hcr]
      rcases common_bits cs t u with hbits | hbits
      · rw [hbits] at hlhi hrlo ⊢
        rw [Rel.eval_of_lt (by omega), or_iff_right (show ¬ (32 : ℕ) = 64 by decide)]
        exact eq_comm
      · rw [hbits]
        exact iff_of_true rfl (.inl rfl)

/-- A left operand that is compared as an `int`. -/
theorem builds_c (ht : genericSuffix t = .c) (l : t.Value cs) (r : u.Value cs) :
    op.eval (int.convert cs l) (int.convert cs r) = relExpr op l r ↔ BuildsAgree op l r := by
  obtain rfl : t = .char := by
    revert ht
    cases t <;> decide
  have hsmall : -2 ^ 7 ≤ l.1 ∧ l.1 < 2 ^ 8 := by
    have hall : ∀ cs, -2 ^ 7 ≤ char.lo cs ∧ char.hi cs < 2 ^ 8 := by decide
    exact ⟨(hall cs).1.trans l.2.1, l.2.2.trans_lt (hall cs).2⟩
  have hrlo := (common_bounds (u := .char) r.2).1
  have hrhi := (common_bounds (u := .char) r.2).2
  rw [common_comm] at hrlo hrhi
  rw [BuildsAgree, ht, convert_of_has (v := l.1) (has_int.mpr ⟨by omega, by omega⟩)]
  dsimp only
  have hconv : int.convert cs r = r.1.bmod (2 ^ 32) := convert_signed rfl
  cases hs : (common cs .char u).signed cs with
  | true =>
    rw [relExpr_of_signed l r hs]
    rcases common_bits cs .char u with hbits | hbits
    · have hcr : (common cs .char u).Has cs r := by
        rw [common_comm] at hs ⊢
        exact common_has hs r.2
      have hfits := (has_signed hs).mp hcr
      rw [hbits] at hfits ⊢
      rw [convert_of_has (v := r.1) (has_int.mpr ⟨by omega, by omega⟩)]
      exact iff_of_true rfl (.inl rfl)
    · rw [if_neg (by rw [hbits]; decide), if_pos rfl]
      by_cases hfits : -2 ^ 31 ≤ r.1 ∧ r.1 < 2 ^ 31
      · rw [convert_of_has (v := r.1) (has_int.mpr hfits)]
        exact iff_of_true rfl (.inl hfits)
      · -- the sign of a right operand that is no `int` decides
        have hout : op.eval l r = op.eval 0 r := Rel.eval_congr (by omega) (by omega)
        rw [hconv, or_iff_right hfits, hout]
  | false =>
    have hr0 : 0 ≤ r.1 := by
      have hside : ∀ cs (u : IntType), (common cs .char u).signed cs = false → 0 ≤ u.lo cs := by
        decide
      exact (hside cs u hs).trans r.2.1
    rw [relExpr_of_unsigned l r hs hr0, if_neg Bool.false_ne_true]
    rcases common_bits cs .char u with hbits | hbits
    · rw [hbits] at hrhi ⊢
      rw [if_pos rfl, convert_int_nonneg hr0 (by omega), or_iff_right Bool.false_ne_true]
      exact Rel.eval_wrap (n := 2 ^ 31) ⟨by omega, by omega⟩ ⟨hr0, by omega⟩
    · rw [hbits] at hrhi ⊢
      rw [if_neg (show ¬ (64 : ℕ) = 32 by decide)]
      by_cases h0 : 0 ≤ l.1
      · rw [if_pos h0, if_neg (show ¬ l.1 < 0 by omega)]
        by_cases hfits : r.1 < 2 ^ 31
        · rw [convert_of_has (v := r.1) (has_int.mpr ⟨by omega, hfits⟩)]
          exact iff_of_true rfl (.inl hfits)
        · rw [hconv, or_iff_right hfits, Rel.eval_of_lt (show l.1 < r.1 by omega)]
      · rw [if_neg h0, if_pos (show l.1 < 0 by omega)]
        by_cases hfits : 2 ^ 64 - 2 ^ 31 ≤ r.1
        · -- such a right operand is a small negative `int`
          have hr : int.convert cs r = r - 2 ^ 64 := by
            rw [hconv, ← Int.sub_mul_bmod_self_left r.1 (2 ^ 32) (2 ^ 32)]
            exact Int.bmod_eq_of_le_mul_two (by push_cast; omega) (by push_cast; omega)
          rw [hr]
          exact iff_of_true (Rel.eval_congr (by omega) (by omega)) (.inl hfits)
        · rw [hconv, or_iff_right hfits, Rel.eval_of_gt (show r.1 < l.1 + _ by omega)]

/-- The two builds agree exactly under `BuildsAgree`. -/
theorem assert_builds_agree (realloc : ℕ → Bool) (op : Rel) (l : t.Value cs) (r : u.Value cs)
    (msg msg' : Option CStr → CStr) :
    (Passes (assertFallback realloc op l r msg') ↔ relExpr op l r = true) ∧
    ((Passes (assertGeneric realloc op l r msg) ↔ relExpr op l r = true) ↔ BuildsAgree op l r) := by
  refine ⟨passes_assertTrue, ?_⟩
  rw [passes_assertGeneric, ← Bool.eq_iff_iff]
  cases ht : genericSuffix t with
  | c => exact builds_c ht l r
  | llu => exact builds_llu ht l r
  | lld => exact builds_lld ht l r

/-- A null character and `1LL << 32` are equal in the build with `_Generic` only. -/
theorem assert_builds_differ : ¬ ∀ (cs : Bool) (t u : IntType) (realloc : ℕ → Bool) (op : Rel)
    (l : t.Value cs) (r : u.Value cs) (msg : Option CStr → CStr),
    Passes (assertGeneric realloc op l r msg) ↔ relExpr op l r = true := by
  intro h
  let l : char.Value true := ⟨0, by decide⟩
  let r : llong.Value true := ⟨2 ^ 32, by decide⟩
  have heq := h true .char .llong (fun _ => true) .eq l r fun _ => []
  rw [passes_assertGeneric] at heq
  exact absurd heq (by decide)

end Builds

end Cldm
