/-
The portable routines on byte sequences.

These are the ones of a build without AVX2.  Two of them do not keep what their
AVX2 counterparts promise: the comparison never advances its pointers, and the copy
of a string terminates even an empty destination.  Two keep more: they copy and fill
areas without a byte.

* `memcmp_correct` — `cldm_memcmp` compares two areas if and only if there is no byte,
  the first ones differ, or all are the same;
* `strscpy_correct` — `cldm_strscpy` meets its contract if and only if the destination
  has room for a byte;
* `memcpy_builds_agree`, `memset_builds_agree` — `cldm_memcpy` and `cldm_memset` do what the
  AVX2 routines do, but for areas without a byte;
* `total_scanLt` — `cldm_scan_lt` finds the first byte below a sentinel, at an index that
  an `unsigned` holds; beyond that it scans for ever (`scanLt_wraps`).
-/
import Cldm.AvxMemcmp
import Cldm.AvxMemcpy
import Cldm.AvxMemset

namespace Cldm.Byteseq

open Prog Space Avx2

variable {s : Space} {p q n k : ℕ} {r : ℤ}

/-! ### `cldm_memcmp` -/

/-- Once around: `x` is the difference and the counter. -/
def memcmpBody (s0 s1 n : ℕ) (x : ℤ × ℕ) : Prog Space (ℤ × ℕ ⊕ ℤ) :=
  if x.1 = 0 ∧ x.2 < n then do
    let a ← loadByte s0
    let b ← loadByte s1
    return .inl ((a.toNat : ℤ) - b.toNat, x.2 + 1)
  else return .inr x.1

/-- `cldm_memcmp` -/
def memcmp (s0 s1 n fuel : ℕ) : Prog Space ℤ := fuelLoop (memcmpBody s0 s1 n) fuel (0, 0)

/-- Only the first bytes are compared, until they differ or `n` times. -/
theorem total_memcmp (h : CmpArea s p q n) : Total (memcmp p q n) (fun r s' =>
    r = (if n = 0 then 0 else ((s.bytes p).toNat : ℤ) - (s.bytes q).toNat) ∧ s' = s) s := by
  have hread : 0 < n → s.readable p = true ∧ s.readable q = true := fun hn =>
    ⟨(h.readable _).mpr (.inl ⟨by omega, by omega⟩), (h.readable _).mpr (.inr ⟨by omega, by omega⟩)⟩
  refine total_loop (f := fun _ => memcmpBody p q n)
    (I := fun left x s' => left = n - x.2 ∧ s' = s ∧ (x.2 = 0 ∧ x.1 = 0 ∨
      0 < x.2 ∧ x.2 ≤ n ∧ x.1 = ((s.bytes p).toNat : ℤ) - (s.bytes q).toNat)) ?_ n (0, 0) s
    ⟨rfl, rfl, .inl ⟨rfl, rfl⟩⟩
  rintro left ⟨diff, i⟩ s' ⟨rfl, rfl, hx⟩
  refine Total.const ?_
  by_cases hmore : diff = 0 ∧ i < n
  · obtain ⟨hp, hq⟩ := hread (by omega)
    simp only [memcmpBody, if_pos hmore, wp_bind, wp_loadByte hp, wp_loadByte hq, wp_pure]
    exact ⟨n - (i + 1), by omega, rfl, trivial, .inr ⟨by omega, hmore.2, rfl⟩⟩
  · simp only [memcmpBody, if_neg hmore, wp_pure]
    refine ⟨?_, trivial⟩
    dsimp only at hx
    rcases hx with ⟨hi, hdiff⟩ | ⟨hi, hin, hdiff⟩
    · rw [if_pos (by omega), hdiff]
    · rw [if_neg (by omega), hdiff]

/-- What a comparison promises: zero just for equal areas, else the sign of the first
difference, which is that of the AVX2 routine. -/
structure MemcmpContract (s : Space) (p q n : ℕ) (r : ℤ) : Prop where
  zero_iff : r = 0 ↔ ∀ i < n, s.bytes (p + i) = s.bytes (q + i)
  sign : ∀ k < n, DifferAt s p q k →
    r.sign = ((s.bytes (p + k)).toNat - (s.bytes (q + k)).toNat : ℤ).sign
  avx2 : Total (avx2Memcmp p q n) (fun r' _ => r.sign = (int32 r').sign) s

/-- `cldm_memcmp` compares the areas just when there is no byte, the first ones differ or
all are the same. -/
theorem memcmp_correct (h : CmpArea s p q n) :
    Total (memcmp p q n) (fun r s' => MemcmpContract s p q n r ∧ s' = s) s ↔
      n = 0 ∨ s.bytes p ≠ s.bytes q ∨ ∀ i < n, s.bytes (p + i) = s.bytes (q + i) := by
  constructor
  · intro hrun
    obtain ⟨r, s', hret, hcontract, -⟩ := hrun
    obtain ⟨rfl, rfl⟩ := (total_memcmp h).of_returns hret
    by_cases hn : n = 0
    · exact .inl hn
    by_cases hfirst : s'.bytes p = s'.bytes q
    · refine .inr (.inr (hcontract.zero_iff.mp ?_))
      rw [if_neg hn, hfirst, sub_self]
    · exact .inr (.inl hfirst)
  · intro hcond
    refine (total_memcmp h).mono ?_
    rintro r s' ⟨rfl, rfl⟩
    refine ⟨?_, rfl⟩
    by_cases hall : ∀ i < n, s'.bytes (p + i) = s'.bytes (q + i)
    · have hzero : (if n = 0 then 0 else ((s'.bytes p).toNat : ℤ) - (s'.bytes q).toNat) = 0 := by
        by_cases hn : n = 0
        · rw [if_pos hn]
        · have h0 : s'.bytes p = s'.bytes q := hall 0 (by omega)
          rw [if_neg hn, h0, sub_self]
      rw [hzero]
      refine ⟨iff_of_true rfl hall, fun k hk hd => absurd (hall k hk) hd.differ, ?_⟩
      refine (total_avx2Memcmp h).mono fun r' s'' hr' => ?_
      rw [hr'.1.zero_iff.mpr hall]
    · have hn : n ≠ 0 := by
        rintro rfl
        exact hall fun i hi => absurd hi (by omega)
      have hfirst : DifferAt s' p q 0 :=
        ⟨fun i hi => absurd hi (by omega), (hcond.resolve_left hn).resolve_right hall⟩
      rw [if_neg hn]
      refine ⟨iff_of_false ?_ hall, fun k hk hd => ?_, ?_⟩
      · intro h0
        exact hfirst.differ (show s'.bytes p = s'.bytes q from UInt8.toNat_inj.mp (by omega))
      · obtain rfl := hd.unique hfirst
        rfl
      · refine (total_avx2Memcmp h).mono fun r' s'' hr' => ?_
        rw [hr'.1.differ (by omega) hfirst]
        rfl

/-- Areas of three bytes, different in the first one and the last one. -/
def threeBytes : Space :=
  cmpSpace (fun a => if a = 0x1000 ∨ a = 0x2002 then 5 else 3) 0x1000 0x2000 3

theorem memcmp_correct_three : CmpArea threeBytes 0x1000 0x2000 3 ∧
    DifferAt threeBytes 0x1000 0x2000 0 ∧
    Total (memcmp 0x1000 0x2000 3)
      (fun r s' => MemcmpContract threeBytes 0x1000 0x2000 3 r ∧ s' = threeBytes) threeBytes := by
  have h : CmpArea threeBytes 0x1000 0x2000 3 := cmpArea_cmpSpace _ (by decide) (by decide)
  have hfirst : threeBytes.bytes 0x1000 ≠ threeBytes.bytes 0x2000 := by decide
  exact ⟨h, ⟨fun i hi => absurd hi (Nat.not_lt_zero i), hfirst⟩,
    (memcmp_correct h).mpr (.inr (.inl hfirst))⟩

/-- Areas of two bytes, different in the second one, that the comparison takes for equal. -/
def twoBytes : Space := cmpSpace (fun a => if a = 0x1001 then 1 else 0) 0x1000 0x2000 2

theorem memcmp_second_byte : CmpArea twoBytes 0x1000 0x2000 2 ∧ ¬ Total (memcmp 0x1000 0x2000 2)
    (fun r s' => MemcmpContract twoBytes 0x1000 0x2000 2 r ∧ s' = twoBytes) twoBytes := by
  have h : CmpArea twoBytes 0x1000 0x2000 2 := cmpArea_cmpSpace _ (by decide) (by decide)
  refine ⟨h, ?_⟩
  rintro ⟨r, s', hret, hcontract, -⟩
  obtain ⟨rfl, -⟩ := (total_memcmp h).of_returns hret
  exact absurd (hcontract.zero_iff.mp rfl 1 (by decide)) (by decide)

/-! ### `cldm_memcpy` and `cldm_memset` -/

section Areas

variable {dst src v : ℕ}

/-- Once around: `i` is the counter. -/
def memcpyBody (d s n i : ℕ) : Prog Space (ℕ ⊕ Unit) :=
  if i < n then do
    let b ← loadByte (s + i)
    storeByte (d + i) b
    return .inl (i + 1)
  else return .inr ()

/-- `cldm_memcpy` -/
def memcpy (dst src n fuel : ℕ) : Prog Space ℕ := do
  fuelLoop (memcpyBody dst src n) fuel 0
  return dst

/-- Once around: `i` is the counter. -/
def memsetBody (d v n i : ℕ) : Prog Space (ℕ ⊕ Unit) :=
  if i < n then do
    storeByte (d + i) (UInt8.ofNat v)
    return .inl (i + 1)
  else return .inr ()

/-- `cldm_memset` -/
def memset (dst v n fuel : ℕ) : Prog Space ℕ := do
  fuelLoop (memsetBody dst v n) fuel 0
  return dst

/-- A loop over an area of `n` bytes, after whose first `i` turns the space is `done i`. -/
theorem total_byteLoop (dst : ℕ) (done : ℕ → Space) {body : ℕ → Prog Space (ℕ ⊕ Unit)}
    (hturn : ∀ i < n, wp (body i) (fun r s' => r = .inl (i + 1) ∧ s' = done (i + 1)) (done i))
    (hend : wp (body n) (fun r s' => r = .inr () ∧ s' = done n) (done n)) :
    Total (fun fuel => do fuelLoop body fuel 0; return dst)
      (fun r s' => r = dst ∧ s' = done n) (done 0) := by
  have hloop : Total (fun fuel => fuelLoop body fuel 0) (fun _ s' => s' = done n) (done 0) := by
    refine total_loop (f := fun _ => body)
      (I := fun left i s' => left = n - i ∧ i ≤ n ∧ s' = done i) ?_ n 0 _
      ⟨rfl, Nat.zero_le n, rfl⟩
    rintro left i s' ⟨rfl, hi, rfl⟩
    refine Total.const ?_
    -- either a turn leaves one byte less to do, or the loop ends
    rcases Nat.lt_or_eq_of_le hi with hlt | rfl
    · refine wp_mono (hturn i hlt) ?_
      rintro r s' ⟨rfl, rfl⟩
      exact ⟨n - (i + 1), by omega, rfl, hlt, rfl⟩
    · refine wp_mono hend ?_
      rintro r s' ⟨rfl, rfl⟩
      rfl
  refine Total.bind (hloop.mono ?_)
  rintro ⟨⟩ s' rfl
  exact Total.const ((wp_pure ..).mpr ⟨rfl, rfl⟩)

theorem total_memcpy (h : CopyArea s dst src n) :
    Total (memcpy dst src n) (fun r s' => r = dst ∧ s' = s.copied dst src n) s := by
  have hapart := h.apart
  have hturn : ∀ i < n, wp (memcpyBody dst src n i)
      (fun r s' => r = .inl (i + 1) ∧ s' = s.copied dst src (i + 1)) (s.copied dst src i) := by
    intro i hi
    -- the source is apart from what has been copied
    have hb : (s.copied dst src i).bytes (src + i) = s.bytes (src + i) :=
      write_outside (by omega)
    have hr : (s.copied dst src i).readable (src + i) = true :=
      (h.readable _).mpr ⟨by omega, by omega⟩
    have hw : (s.copied dst src i).writable (dst + i) = true :=
      (h.writable _).mpr ⟨by omega, by omega⟩
    have hnext : (s.copied dst src i).write 1 (dst + i) (fun _ => s.bytes (src + i)) =
        s.copied dst src (i + 1) := copied_write (Nat.le_refl i) (by omega) fun j hj => by
      rw [show j = 0 by omega, Nat.add_zero]
    rw [memcpyBody, if_pos hi, wp_bind, wp_loadByte hr, wp_bind, wp_storeByte hw, hb, hnext,
      wp_pure]
    exact ⟨rfl, rfl⟩
  have hend : wp (memcpyBody dst src n n)
      (fun r s' => r = .inr () ∧ s' = s.copied dst src n) (s.copied dst src n) := by
    rw [memcpyBody, if_neg (Nat.lt_irrefl n), wp_pure]
    exact ⟨rfl, rfl⟩
  have hrun := total_byteLoop dst (s.copied dst src) hturn hend
  rwa [copied_zero] at hrun

theorem total_memset (h : FillArea s dst n) :
    Total (memset dst v n) (fun r s' => r = dst ∧ s' = s.filled dst (UInt8.ofNat v) n) s := by
  have hturn : ∀ i < n, wp (memsetBody dst v n i)
      (fun r s' => r = .inl (i + 1) ∧ s' = s.filled dst (UInt8.ofNat v) (i + 1))
      (s.filled dst (UInt8.ofNat v) i) := by
    intro i hi
    have hw : (s.filled dst (UInt8.ofNat v) i).writable (dst + i) = true :=
      (h.writable _).mpr ⟨by omega, by omega⟩
    rw [memsetBody, if_pos hi, wp_bind, wp_storeByte hw,
      filled_write (Nat.le_refl i) (by omega) fun j hj => rfl, wp_pure]
    exact ⟨rfl, rfl⟩
  have hend : wp (memsetBody dst v n n)
      (fun r s' => r = .inr () ∧ s' = s.filled dst (UInt8.ofNat v) n)
      (s.filled dst (UInt8.ofNat v) n) := by
    rw [memsetBody, if_neg (Nat.lt_irrefl n), wp_pure]
    exact ⟨rfl, rfl⟩
  have hrun := total_byteLoop dst (s.filled dst (UInt8.ofNat v)) hturn hend
  rwa [filled_zero] at hrun

/-- A routine that ends with `b` in `s'` where `P` holds, and else fails with any fuel. -/
theorem returns_iff {f : ℕ → Prog Space ℕ} {P : Prop} {b : ℕ} {s' : Space}
    (hrun : P → Total f (fun r s'' => r = b ∧ s'' = s') s) (hfail : ¬ P → ∀ fuel, f fuel s = none)
    (r : ℕ) (s'' : Space) : Returns f s r s'' ↔ P ∧ r = b ∧ s'' = s' := by
  constructor
  · intro hret
    by_cases hP : P
    · exact ⟨hP, (hrun hP).of_returns hret⟩
    · obtain ⟨fuel, hret⟩ := hret
      exact absurd ((hfail hP fuel).symm.trans (hret fuel (Nat.le_refl _))) (by simp)
  · rintro ⟨hP, rfl, rfl⟩
    obtain ⟨r, s', hret, rfl, rfl⟩ := hrun hP
    exact hret

/-- `cldm_memcpy` copies any number of bytes, and the AVX2 routine has its answer and leaves
its space, just when there is a byte to copy. -/
theorem memcpy_builds_agree (h : CopyArea s dst src n) :
    ∃ s', CopyDone s dst src n dst s' ∧ Returns (memcpy dst src n) s dst s' ∧
      ∀ r s'', Returns (avx2Memcpy dst src n) s r s'' ↔ n ≠ 0 ∧ r = dst ∧ s'' = s' := by
  obtain ⟨r, s', hret, rfl, rfl⟩ := total_memcpy h
  refine ⟨_, ⟨rfl, fun i hi => write_at hi, fun a ha => write_outside ha⟩, hret, ?_⟩
  refine returns_iff (total_avx2Memcpy h) fun hn => ?_
  obtain rfl := not_not.mp hn
  exact h.zero_fails

/-- Five bytes. -/
theorem memcpy_builds_agree_five : CopyArea (copySpace 0x1003 0x2001 5) 0x1003 0x2001 5 ∧
    ∃ s', CopyDone (copySpace 0x1003 0x2001 5) 0x1003 0x2001 5 0x1003 s' ∧
      Returns (memcpy 0x1003 0x2001 5) (copySpace 0x1003 0x2001 5) 0x1003 s' ∧
      ∀ r s'', Returns (avx2Memcpy 0x1003 0x2001 5) (copySpace 0x1003 0x2001 5) r s'' ↔
        5 ≠ 0 ∧ r = 0x1003 ∧ s'' = s' :=
  have h := copyArea_copySpace (.inr (by decide)) (by decide) (by decide)
  ⟨h, memcpy_builds_agree h⟩

/-- `cldm_memset` fills any number of bytes, and the AVX2 routine has its answer and leaves
its space, just when there is a byte to fill. -/
theorem memset_builds_agree (h : FillArea s dst n) :
    ∃ s', FillDone s dst v n dst s' ∧ Returns (memset dst v n) s dst s' ∧
      ∀ r s'', Returns (avx2Memset dst v n) s r s'' ↔ n ≠ 0 ∧ r = dst ∧ s'' = s' := by
  obtain ⟨r, s', hret, rfl, rfl⟩ := total_memset (v := v) h
  refine ⟨_, ⟨rfl, fun i hi => write_at hi, fun a ha => write_outside ha⟩, hret, ?_⟩
  refine returns_iff (total_avx2Memset h) fun hn => ?_
  obtain rfl := not_not.mp hn
  exact h.zero_fails

/-- Seven bytes set to the low byte of 258. -/
theorem memset_builds_agree_seven : FillArea (fillSpace 0x1003 7) 0x1003 7 ∧
    ∃ s', FillDone (fillSpace 0x1003 7) 0x1003 0x102 7 0x1003 s' ∧
      Returns (memset 0x1003 0x102 7) (fillSpace 0x1003 7) 0x1003 s' ∧
      ∀ r s'', Returns (avx2Memset 0x1003 0x102 7) (fillSpace 0x1003 7) r s'' ↔
        7 ≠ 0 ∧ r = 0x1003 ∧ s'' = s' :=
  have h := fillArea_fillSpace (by decide)
  ⟨h, memset_builds_agree h⟩

end Areas

/-! ### `cldm_strscpy` -/

/-- Once around: the length of a string. -/
def strlenBody (p i : ℕ) : Prog Space (ℕ ⊕ ℕ) := do
  let b ← loadByte (p + i)
  if b = 0 then return .inr i else return .inl (i + 1)

def strlen (p fuel : ℕ) : Prog Space ℕ := fuelLoop (strlenBody p) fuel 0

/-- Once around: `x` is the counter and how far the pointers moved. -/
def strscpyBody (dst src : ℕ) (x : ℕ × ℕ) : Prog Space (ℕ × ℕ ⊕ Unit) :=
  if x.1 = 0 then return .inr () else do
    let b ← loadByte (src + x.2)
    storeByte (dst + x.2) b
    if b = 0 then return .inr () else return .inl (x.1 - 1, x.2 + 1)

def e2big : ℤ := 7

/-- `cldm_strscpy` -/
def strscpy (dst src dstsize fuel : ℕ) : Prog Space ℤ := do
  let srclen ← strlen src fuel
  fuelLoop (strscpyBody dst src) fuel (dstsize, 0)
  if dstsize ≤ srclen then do
    storeByte ((dst + (dstsize + 2 ^ 64 - 1) % 2 ^ 64) % 2 ^ 64) 0
    return -e2big
  else return (srclen : ℤ).bmod (2 ^ 64)

variable {dst src dstsize len : ℕ}

/-- A string of length `len` in the lower half of the address space and an area of `dstsize`
bytes apart from it, the only one that may be written. -/
structure CopyString (s : Space) (dst src dstsize len : ℕ) : Prop where
  string : StringIn s src len
  writable : ∀ a, s.writable a = true ↔ dst ≤ a ∧ a < dst + dstsize
  apart : src + len < dst ∨ dst + dstsize ≤ src
  src_lt : src + len < 2 ^ 63
  dst_le : dst + dstsize ≤ 2 ^ 64

/-- The answer `r` and the space `s'` after the copy of a string of length `len`. -/
structure StrscpyDone (s : Space) (dst src dstsize len : ℕ) (r : ℤ) (s' : Space) : Prop where
  fits : len < dstsize → r = len ∧ ∀ i ≤ len, s'.bytes (dst + i) = s.bytes (src + i)
  overflow : dstsize ≤ len → r = -7 ∧
    (∀ i, i + 1 < dstsize → s'.bytes (dst + i) = s.bytes (src + i)) ∧
    (0 < dstsize → s'.bytes (dst + (dstsize - 1)) = 0)
  kept : ∀ a, a < dst ∨ dst + dstsize ≤ a → s'.bytes a = s.bytes a

theorem total_strlen (h : StringIn s p n) (hread : ∀ i ≤ n, s.readable (p + i) = true) :
    Total (strlen p) (fun len s' => len = n ∧ s' = s) s := by
  refine total_loop (f := fun _ => strlenBody p)
    (I := fun left i s' => left = n - i ∧ i ≤ n ∧ s' = s) ?_ n 0 s ⟨rfl, Nat.zero_le n, rfl⟩
  rintro left i s' ⟨rfl, hi, rfl⟩
  refine Total.const ?_
  rw [strlenBody, wp_bind, wp_loadByte (hread i hi)]
  by_cases hend : i = n
  · subst hend
    rw [if_pos h.terminator, wp_pure]
    exact ⟨rfl, rfl⟩
  · rw [if_neg (h.nonzero i (by omega)), wp_pure]
    exact ⟨n - (i + 1), by omega, rfl, by omega, rfl⟩

/-- The loop copies the string with its terminator, or as much as there is room for. -/
theorem total_strscpyLoop (h : CopyString s dst src dstsize len)
    (hread : ∀ i ≤ len, s.readable (src + i) = true) :
    Total (fun fuel => fuelLoop (strscpyBody dst src) fuel (dstsize, 0))
      (fun _ s' => s' = s.copied dst src (min dstsize (len + 1))) s := by
  refine total_loop (f := fun _ => strscpyBody dst src)
    (I := fun left x s' => left = x.1 ∧ x.1 + x.2 = dstsize ∧ x.2 ≤ len ∧
      s' = s.copied dst src x.2) ?_ dstsize (dstsize, 0) s
    ⟨rfl, rfl, Nat.zero_le len, copied_zero.symm⟩
  rintro left ⟨i, k⟩ s' ⟨rfl, hik, hk, rfl⟩
  dsimp only at hik hk ⊢
  refine Total.const ?_
  by_cases hroom : left = 0
  · rw [strscpyBody, if_pos hroom, wp_pure]
    show s.copied dst src k = _
    rw [show min dstsize (len + 1) = k by omega]
  have hapart := h.apart
  have hb : (s.copied dst src k).bytes (src + k) = s.bytes (src + k) := write_outside (by omega)
  have hnext : (s.copied dst src k).write 1 (dst + k) (fun _ => s.bytes (src + k)) =
      s.copied dst src (k + 1) := copied_write (Nat.le_refl k) (by omega) fun j hj => by
    rw [show j = 0 by omega, Nat.add_zero]
  have hr : (s.copied dst src k).readable (src + k) = true := hread k hk
  have hw : (s.copied dst src k).writable (dst + k) = true :=
    (h.writable _).mpr ⟨by omega, by omega⟩
  rw [strscpyBody, if_neg hroom]
  dsimp only
  rw [wp_bind, wp_loadByte hr, wp_bind, wp_storeByte hw, hb, hnext]
  by_cases hend : k = len
  · rw [if_pos (by rw [hend]; exact h.string.terminator), wp_pure]
    show s.copied dst src (k + 1) = _
    rw [show min dstsize (len + 1) = k + 1 by omega]
  · rw [if_neg (h.string.nonzero k (by omega)), wp_pure]
    exact ⟨left - 1, by omega, rfl, by omega, by omega, rfl⟩

theorem total_strscpy (h : CopyString s dst src dstsize len)
    (hread : ∀ i ≤ len, s.readable (src + i) = true) (h0 : dstsize ≠ 0) :
    Total (strscpy dst src dstsize) (StrscpyDone s dst src dstsize len) s := by
  have hsrc := h.src_lt
  have hdst := h.dst_le
  refine Total.bind ((total_strlen h.string hread).mono ?_)
  rintro _ _ ⟨rfl, rfl⟩
  refine Total.bind ((total_strscpyLoop h hread).mono ?_)
  rintro ⟨⟩ s' rfl
  refine Total.const ?_
  rename_i len s
  by_cases hlong : dstsize ≤ len
  · have hlast : (dst + (dstsize + 2 ^ 64 - 1) % 2 ^ 64) % 2 ^ 64 = dst + (dstsize - 1) := by omega
    have hw : (s.copied dst src (min dstsize (len + 1))).writable (dst + (dstsize - 1)) = true :=
      (h.writable _).mpr ⟨by omega, by omega⟩
    rw [if_pos hlong, wp_bind, hlast, wp_storeByte hw, wp_pure, Nat.min_eq_left (by omega)]
    refine ⟨fun hfit => absurd hlong (by omega), fun _ => ⟨rfl, fun i hi => ?_, fun _ => ?_⟩,
      fun a ha => ?_⟩
    · rw [write_outside (by omega)]
      exact write_at (by omega)
    · exact write_at Nat.one_pos
    · rw [write_outside (by omega)]
      exact write_outside ha
  · rw [if_neg hlong, wp_pure, Nat.min_eq_right (by omega)]
    refine ⟨fun _ => ⟨?_, fun i hi => write_at (by omega)⟩, fun hlong' => absurd hlong' hlong,
      fun a ha => write_outside (by omega)⟩
    rw [Int.bmod_def]
    omega

/-- An empty destination is terminated at the byte before it. -/
theorem strscpy_empty_fails (h : CopyString s dst src 0 len)
    (hread : ∀ i ≤ len, s.readable (src + i) = true) :
    ¬ Total (strscpy dst src 0) (StrscpyDone s dst src 0 len) s := by
  rintro ⟨r, s', ⟨k, hrun⟩, -⟩
  obtain ⟨l, s₁, ⟨j, hlen⟩, rfl, rfl⟩ := total_strlen h.string hread
  have hloop : fuelLoop (strscpyBody dst src) (max k j + 1) (0, 0) s₁ = some ((), s₁) :=
    fuelLoop_done rfl
  have hno : ¬ s₁.Writable ((dst + (0 + 2 ^ 64 - 1) % 2 ^ 64) % 2 ^ 64) 1 := fun hw => by
    have := (h.writable _).mp (hw 0 Nat.one_pos)
    omega
  have hfail : strscpy dst src 0 (max k j + 1) s₁ = none := by
    rw [strscpy, bind_some (hlen (max k j + 1) (by omega)) (bind_some hloop rfl),
      if_pos (Nat.zero_le l), bind_apply, storeByte, store_fails hno]
    rfl
  exact absurd (hfail.symm.trans (hrun _ (by omega))) (by simp)

/-- `cldm_strscpy` meets its contract just when the destination has room for a byte. -/
theorem strscpy_correct (h : CopyString s dst src dstsize len)
    (hread : ∀ i ≤ len, s.readable (src + i) = true) :
    Total (strscpy dst src dstsize) (StrscpyDone s dst src dstsize len) s ↔ dstsize ≠ 0 := by
  constructor
  · rintro hrun rfl
    exact strscpy_empty_fails h hread hrun
  · exact total_strscpy h hread

/-- The string "ab" at an address, with a destination that may be written. -/
def stringSpace (dst src dstsize : ℕ) : Space where
  bytes := fun a => if a = src then 97 else if a = src + 1 then 98 else 0
  readable := fun a => src ≤ a ∧ a ≤ src + 2
  writable := fun a => dst ≤ a ∧ a < dst + dstsize

theorem copyString_stringSpace {dst dstsize : ℕ} (hdst : dst + dstsize ≤ 0x2000) :
    CopyString (stringSpace dst 0x2000 dstsize) dst 0x2000 dstsize 2 :=
  ⟨⟨by simp [stringSpace], fun i hi => by
    obtain rfl | rfl : i = 0 ∨ i = 1 := by omega
    · simp [stringSpace]
    · simp [stringSpace]⟩, fun a => by simp [stringSpace], .inr hdst, by decide, by omega⟩

theorem readable_stringSpace {dst dstsize : ℕ} (i : ℕ) (hi : i ≤ 2) :
    (stringSpace dst 0x2000 dstsize).readable (0x2000 + i) = true :=
  decide_eq_true ⟨by omega, by omega⟩

/-- Two bytes hold the first byte of "ab" and a terminator. -/
theorem strscpy_correct_two : CopyString (stringSpace 0x1000 0x2000 2) 0x1000 0x2000 2 2 ∧
    Total (strscpy 0x1000 0x2000 2) (StrscpyDone (stringSpace 0x1000 0x2000 2) 0x1000 0x2000 2 2)
      (stringSpace 0x1000 0x2000 2) :=
  have h := copyString_stringSpace (by decide)
  ⟨h, (strscpy_correct h readable_stringSpace).mpr (by decide)⟩

/-- The copy of "ab" to an empty area. -/
theorem strscpy_empty : CopyString (stringSpace 0x1000 0x2000 0) 0x1000 0x2000 0 2 ∧
    ¬ Total (strscpy 0x1000 0x2000 0)
      (StrscpyDone (stringSpace 0x1000 0x2000 0) 0x1000 0x2000 0 2)
      (stringSpace 0x1000 0x2000 0) := by
  have h : CopyString (stringSpace 0x1000 0x2000 0) 0x1000 0x2000 0 2 :=
    copyString_stringSpace (by decide)
  exact ⟨h, strscpy_empty_fails h readable_stringSpace⟩

/-! ### `cldm_scan_lt` -/

variable {sentinel index : ℕ}

/-- Once around. -/
def scanLtBody (str sentinel pos : ℕ) : Prog Space (ℕ ⊕ ℕ) := do
  let b ← loadByte (str + pos)
  if (sentinel : ℤ) ≤ int8 b then return .inl (low32 (pos + 1)) else return .inr pos

/-- `cldm_scan_lt`, with an `unsigned` position. -/
def scanLt (str sentinel fuel : ℕ) : Prog Space ℕ := fuelLoop (scanLtBody str sentinel) fuel 0

/-- The first byte below the sentinel is the one at `index`. -/
structure FirstLess (s : Space) (p sentinel index : ℕ) : Prop where
  less : int8 (s.bytes (p + index)) < sentinel
  before : ∀ i < index, (sentinel : ℤ) ≤ int8 (s.bytes (p + i))

/-- The scan finds an index that an `unsigned` holds. -/
theorem total_scanLt (h : FirstLess s p sentinel index) (hindex : index < 2 ^ 32)
    (hread : ∀ i ≤ index, s.readable (p + i) = true) :
    Total (scanLt p sentinel) (fun pos s' => pos = index ∧ s' = s) s := by
  refine total_loop (f := fun _ => scanLtBody p sentinel)
    (I := fun left pos s' => left = index - pos ∧ pos ≤ index ∧ s' = s) ?_ index 0 s
    ⟨rfl, Nat.zero_le _, rfl⟩
  rintro left pos s' ⟨rfl, hpos, rfl⟩
  refine Total.const ?_
  rw [scanLtBody, wp_bind, wp_loadByte (hread pos hpos)]
  by_cases hend : pos = index
  · subst hend
    rw [if_neg (by have := h.less; omega), wp_pure]
    exact ⟨rfl, rfl⟩
  · rw [if_pos (h.before pos (by omega)), wp_pure, low32_eq (by omega)]
    exact ⟨index - (pos + 1), by omega, rfl, by omega, rfl⟩

/-- With a larger index the position wraps around, and the scan never ends. -/
theorem scanLt_wraps (h : FirstLess s p sentinel index) (hindex : 2 ^ 32 ≤ index)
    (hread : ∀ i ≤ index, s.readable (p + i) = true) (fuel : ℕ) : scanLt p sentinel fuel s = none := by
  refine fuelLoop_diverges (I := fun pos s' => pos < 2 ^ 32 ∧ s' = s) ?_ fuel 0 s ⟨by decide, rfl⟩
  rintro pos s' ⟨hpos, rfl⟩
  refine ⟨low32 (pos + 1), s', eq_some_of_wp ?_, Nat.mod_lt _ (by decide), rfl⟩
  rw [scanLtBody, wp_bind, wp_loadByte (hread pos (by omega)), if_pos (h.before pos (by omega)),
    wp_pure]
  exact ⟨rfl, rfl⟩

end Cldm.Byteseq
