/-
Test records (`cldm_testrec.h`).

* `StrPtr.basename` — `cldm_basename`, on pointers;
* `testrecCompare` — `cldm_testrec_compare`;
* `testrecCompare_strictTotal` — it orders records strictly by file and name;
* `testrecCompare_pos` — which is the lexicographic order of the pairs.
-/
import Cldm.CString
import Cldm.Rbtree
import Mathlib.Data.Prod.Lex

namespace Cldm

open Prog Bytes

/-- A pointer to a string, with the bytes up to its terminator. -/
structure StrPtr where
  addr : ℕ
  bytes : List UInt8
  nonzero : 0 ∉ bytes

/-- `'/'`. -/
def slash : UInt8 := 47

/-- The index of the last byte `c`, as `strrchr` finds it. -/
def strrchr (c : UInt8) : List UInt8 → Option ℕ
  | [] => none
  | b :: bs =>
    match strrchr c bs with
    | some i => some (i + 1)
    | none => if b = c then some 0 else none

attribute [grind =] strrchr

/-- The end of a string from its byte `i` on. -/
def StrPtr.drop (s : StrPtr) (i : ℕ) : StrPtr where
  addr := s.addr + i
  bytes := s.bytes.drop i
  nonzero := fun h => s.nonzero (List.mem_of_mem_drop h)

/-- `cldm_basename`, as pointer. -/
def StrPtr.basename (path : StrPtr) : StrPtr :=
  match strrchr slash path.bytes with
  | some p => path.drop (p + 1)
  | none => path

/-- The strings that a `struct cldm_testrec` points to. -/
structure TestrecStrings where
  name : StrPtr
  file : StrPtr

/-- `cldm_testrec_compare`, on the addresses of two records. -/
def testrecCompare (records : ℕ → TestrecStrings) (left right : ℕ) : ℤ :=
  let l := records left
  let r := records right
  let diff := strcmpOf l.file.bytes r.file.bytes
  (-1) * (diff + (if diff = 0 then 1 else 0) * strcmpOf l.name.bytes r.name.bytes)

/-! ### Strings in memory -/

/-- The string lies in memory. -/
def StrPtr.In (mem : Mem) (s : StrPtr) : Prop := StrAt mem s.addr s.bytes

theorem strrchr_none {c : UInt8} {bs : List UInt8} (h : strrchr c bs = none) : c ∉ bs := by
  induction bs with
  | nil => simp
  | cons b bs ih =>
    rw [strrchr] at h
    cases hrest : strrchr c bs with
    | some j =>
      rw [hrest] at h
      exact absurd h (by simp)
    | none =>
      rw [hrest] at h
      split_ifs at h with hb
      simp only [List.mem_cons, not_or]
      exact ⟨Ne.symm hb, ih hrest⟩

theorem strrchr_some {c : UInt8} {bs : List UInt8} {p : ℕ} (h : strrchr c bs = some p) :
    ∃ l r, bs = l ++ c :: r ∧ l.length = p ∧ c ∉ r := by
  induction bs generalizing p with
  | nil => exact absurd h (by simp [strrchr])
  | cons b bs ih =>
    rw [strrchr] at h
    cases hrest : strrchr c bs with
    | some j =>
      rw [hrest] at h
      obtain rfl := Option.some.inj h
      obtain ⟨l, r, rfl, hl, hr⟩ := ih hrest
      exact ⟨b :: l, r, rfl, by rw [List.length_cons, hl], hr⟩
    | none =>
      rw [hrest] at h
      split_ifs at h with hb
      obtain rfl := Option.some.inj h
      exact ⟨[], bs, by rw [hb]; rfl, rfl, strrchr_none hrest⟩

theorem StrPtr.In.basename {mem : Mem} {s : StrPtr} (h : s.In mem) : s.basename.In mem := by
  rw [StrPtr.basename]
  cases hp : strrchr slash s.bytes with
  | none => exact h
  | some p =>
    obtain ⟨l, r, hbytes, rfl, -⟩ := strrchr_some hp
    refine StrAt.drop h ?_
    rw [hbytes, List.length_append, List.length_cons]
    omega

/-! ### The order of the records -/

/-- The pair that the records are ordered by. -/
def TestrecStrings.key (r : TestrecStrings) : List UInt8 ×ₗ List UInt8 := toLex (r.file.bytes, r.name.bytes)

section Compare

variable {records : ℕ → TestrecStrings} {as bs : List UInt8}

theorem strcmpOf_neg (ha : 0 ∉ as) (hb : 0 ∉ bs) : strcmpOf as bs < 0 ↔ as < bs := by
  induction as generalizing bs with
  | nil =>
    cases bs with
    | nil => simp [strcmpOf]
    | cons b bs =>
      have hpos := toNat_pos (a := b) (by rintro rfl; simp at hb)
      refine iff_of_true ?_ (List.nil_lt_cons b bs)
      simp only [strcmpOf]
      omega
  | cons a as ih =>
    cases bs with
    | nil =>
      refine iff_of_false ?_ (List.not_lt_nil _)
      simp only [strcmpOf]
      omega
    | cons b bs =>
      simp only [List.mem_cons, not_or] at ha hb
      rw [List.cons_lt_cons_iff, strcmpOf]
      by_cases hab : a = b
      · subst hab
        rw [if_pos rfl, ih ha.2 hb.2]
        simp
      · rw [if_neg hab, or_iff_left (fun h => hab h.1), UInt8.lt_iff_toNat_lt]
        omega

/-- The comparison is positive when the second record comes after the first. -/
theorem testrecCompare_pos {l r : ℕ} :
    0 < testrecCompare records l r ↔ (records l).key < (records r).key := by
  have hfile := strcmpOf_neg (records l).file.nonzero (records r).file.nonzero
  have hname := strcmpOf_neg (records l).name.nonzero (records r).name.nonzero
  have hzero := strcmpOf_eq_zero (records l).file.nonzero (records r).file.nonzero
  rw [TestrecStrings.key, TestrecStrings.key, Prod.Lex.toLex_lt_toLex, ← hfile, ← hname, ← hzero]
  simp only [testrecCompare]
  by_cases hd : strcmpOf (records l).file.bytes (records r).file.bytes = 0
  · rw [if_pos hd, hd]
    omega
  · rw [if_neg hd]
    omega

theorem testrecCompare_swap (l r : ℕ) : testrecCompare records l r = -testrecCompare records r l := by
  have hfile := strcmpOf_swap (records l).file.bytes (records r).file.bytes
  have hname := strcmpOf_swap (records l).name.bytes (records r).name.bytes
  simp only [testrecCompare]
  rw [hfile, hname]
  by_cases hd : strcmpOf (records r).file.bytes (records l).file.bytes = 0
  · rw [if_pos (by omega), if_pos hd]
    omega
  · rw [if_neg (by omega), if_neg hd]
    omega

theorem testrecCompare_eq_zero {l r : ℕ} :
    testrecCompare records l r = 0 ↔ (records l).key = (records r).key := by
  have hfile := strcmpOf_eq_zero (records l).file.nonzero (records r).file.nonzero
  have hname := strcmpOf_eq_zero (records l).name.nonzero (records r).name.nonzero
  rw [TestrecStrings.key, TestrecStrings.key, toLex_inj, Prod.mk.injEq, ← hfile, ← hname]
  simp only [testrecCompare]
  by_cases hd : strcmpOf (records l).file.bytes (records r).file.bytes = 0
  · rw [if_pos hd, hd]
    omega
  · rw [if_neg hd]
    omega

theorem testrecCompare_nonneg {l r : ℕ} : 0 ≤ testrecCompare records l r ↔
    strcmpOf (records l).file.bytes (records r).file.bytes ≤ 0 ∧
      (strcmpOf (records l).file.bytes (records r).file.bytes = 0 →
        strcmpOf (records l).name.bytes (records r).name.bytes ≤ 0) := by
  simp only [testrecCompare]
  by_cases hd : strcmpOf (records l).file.bytes (records r).file.bytes = 0
  · rw [if_pos hd, hd]
    omega
  · rw [if_neg hd]
    omega

/-- The comparison orders the records strictly. -/
theorem testrecCompare_strictTotal : StrictTotal (testrecCompare records) := by
  constructor
  · intro a b
    rw [testrecCompare_swap]
    omega
  · intro a b c hab hbc
    rw [testrecCompare_nonneg] at hab hbc ⊢
    refine ⟨strcmpOf_trans (records a).file.nonzero (records b).file.nonzero
      (records c).file.nonzero hab.1 hbc.1, fun hac => ?_⟩
    -- the outer files are equal, so that the one between them is as well
    have heq := (strcmpOf_eq_zero (records a).file.nonzero (records c).file.nonzero).mp hac
    have hswap := strcmpOf_swap (records a).file.bytes (records b).file.bytes
    have hbc' := hbc.1
    rw [← heq] at hbc'
    have hab0 : strcmpOf (records a).file.bytes (records b).file.bytes = 0 := by
      have := hab.1
      omega
    have hbc0 : strcmpOf (records b).file.bytes (records c).file.bytes = 0 := by
      rw [← heq]
      omega
    exact strcmpOf_trans (records a).name.nonzero (records b).name.nonzero
      (records c).name.nonzero (hab.2 hab0) (hbc.2 hbc0)

end Compare

end Cldm
