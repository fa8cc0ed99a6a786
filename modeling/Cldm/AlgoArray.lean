/-
The algorithms of `cldm_algo.c` on arrays.

An element is the list of its bytes; a predicate and a comparison see elements only.
The loops count with an `unsigned`, the numbers of elements are of type `size_t`.

* `uniq_correct_iff` — `cldm_uniq` keeps the elements that `List.destutter` keeps, in
  place and out of place, up to `2 ^ 32` elements;
* `stable_partition_correct_iff` — `cldm_stable_partition` is a stable partition, below
  `2 ^ 32` elements.
-/
import Cldm.Algo
import Cldm.ElemArray
import Cldm.TestLog
import Mathlib.Data.List.Destutter

namespace Cldm

open Prog Bytes

/-! ### `cldm_uniq` -/

/-- The loop counter and the pointers of `cldm_uniq`. -/
structure UniqLocals where
  i : ℕ
  prev : ℕ
  curr : ℕ
  d : ℕ

/-- One turn of the loop of `cldm_uniq`. -/
def uniqBody (compare : List UInt8 → List UInt8 → ℤ) (elemsize nelems : ℕ) (v : UniqLocals) :
    Prog Mem (UniqLocals ⊕ ℕ) := do
  if v.i < (nelems + (sizeMod - 1)) % sizeMod then
    let mem ← get
    let prev ← readBytes mem v.prev elemsize
    let curr ← readBytes mem v.curr elemsize
    if compare prev curr ≠ 0 then
      copyBytes v.d v.curr elemsize
      return .inl ⟨(v.i + 1) % unsignedMod, v.curr, v.curr + elemsize, v.d + elemsize⟩
    else
      return .inl ⟨(v.i + 1) % unsignedMod, v.prev, v.curr + elemsize, v.d⟩
  else
    return .inr v.d

/-- `cldm_uniq`; the division by zero is undefined. -/
def uniq (compare : List UInt8 → List UInt8 → ℤ) (dst src elemsize nelems fuel : ℕ) :
    Prog Mem ℕ := do
  copyBytes dst src elemsize
  let d ← fuelLoop (uniqBody compare elemsize nelems) fuel
    ⟨0, src, src + elemsize, dst + elemsize⟩
  if elemsize = 0 then
    fun _ => none
  else
    return (d - dst) / elemsize

/-- The comparison tells the elements apart. -/
def Differs (compare : List UInt8 → List UInt8 → ℤ) (a b : List UInt8) : Prop := compare a b ≠ 0

instance (compare : List UInt8 → List UInt8 → ℤ) : DecidableRel (Differs compare) :=
  fun a b => inferInstanceAs (Decidable (compare a b ≠ 0))

/-- The elements that stay: the first, and each that differs from the one kept before it. -/
def uniqued (compare : List UInt8 → List UInt8 → ℤ) (xs : List (List UInt8)) :
    List (List UInt8) := xs.destutter (Differs compare)

variable {compare : List UInt8 → List UInt8 → ℤ} {mem mem₀ : Mem} {dst src elemsize nelems : ℕ}
  {x₀ x a : List UInt8} {xs ys zs ks : List (List UInt8)}

/-- An array of `xs`, and room for what is kept, in the array itself or apart from it. -/
structure UniqArgs (compare : List UInt8 → List UInt8 → ℤ) (mem : Mem) (dst src elemsize : ℕ)
    (xs : List (List UInt8)) : Prop where
  array : ArrayAt mem elemsize src xs
  room : Accessible mem dst ((uniqued compare xs).length * elemsize)
  apart : dst = src ∨ dst + (uniqued compare xs).length * elemsize ≤ src ∨
    src + xs.length * elemsize ≤ dst
  nonempty : 1 ≤ xs.length
  sizeT : xs.length < sizeMod

/-- The elements behind the first are `zs` from `curr` on, the last element kept is `a`, and `ks`
are all that have been kept. -/
structure UniqLoop (compare : List UInt8 → List UInt8 → ℤ) (mem₀ : Mem) (dst src elemsize : ℕ)
    (xs zs ks : List (List UInt8)) (a : List UInt8) (v : UniqLocals) (mem : Mem) : Prop where
  split : ∃ ys, xs = ys ++ zs ∧ ys.length = v.i + 1
  curr : v.curr = src + (v.i + 1) * elemsize
  d : v.d = dst + ks.length * elemsize
  behind : ks.length ≤ v.i + 1
  prev : bytesAt mem v.prev elemsize = some a
  rest : ArrayAt mem elemsize v.curr zs
  kept : ArrayAt mem elemsize dst ks
  result : uniqued compare xs = ks ++ (zs.destutter' (Differs compare) a).tail
  frame : ∀ b, b < dst ∨ v.d ≤ b → mem b = mem₀ b
  room : Accessible mem dst ((uniqued compare xs).length * elemsize)

/-- The element that is kept lies at the write cursor or behind it. -/
theorem uniq_cursor_apart {i m n total : ℕ} (hm : m ≤ i + 1) (ht : m < total)
    (hapart : dst = src ∨ dst + total * elemsize ≤ src ∨ src + n * elemsize ≤ dst) :
    (dst + m * elemsize = src + (i + 1) * elemsize) ∨
    (dst + m * elemsize + elemsize ≤ src + (i + 1) * elemsize) ∨
    (src + n * elemsize ≤ dst + m * elemsize) := by
  rcases hapart with rfl | hlow | hhigh
  · rcases Nat.lt_or_eq_of_le hm with hlt | rfl
    · have hmul := Nat.mul_le_mul_right elemsize hlt
      rw [Nat.succ_mul] at hmul
      omega
    · exact .inl rfl
  · have hmul := Nat.mul_le_mul_right elemsize ht
    rw [Nat.succ_mul] at hmul
    omega
  · omega

theorem destutter'_eq_cons (R : List UInt8 → List UInt8 → Prop) [DecidableRel R]
    (a : List UInt8) (zs : List (List UInt8)) :
    zs.destutter' R a = a :: (zs.destutter' R a).tail := by
  induction zs generalizing a with
  | nil => rfl
  | cons z zs ih =>
    by_cases h : R a z
    · rw [List.destutter'_cons_pos (h := h), List.tail_cons]
    · rw [List.destutter'_cons_neg (h := h)]
      exact ih a

/-- What is written at the write cursor leaves the elements to come, and is one of them or lies
apart from them. -/
theorem UniqLoop.keep {v : UniqLocals} (hargs : UniqArgs compare mem₀ dst src elemsize xs)
    (h : UniqLoop compare mem₀ dst src elemsize xs (x :: zs) ks a v mem)
    (hne : Differs compare a x) :
    UniqLoop compare mem₀ dst src elemsize xs zs (ks ++ [x]) x
      ⟨v.i + 1, v.curr, v.curr + elemsize, v.d + elemsize⟩ (Bytes.store mem v.d x) := by
  obtain ⟨ys, rfl, hys⟩ := h.split
  have hx : x.length = elemsize := length_bytesAt h.rest.1
  have hresult : uniqued compare (ys ++ x :: zs) =
      (ks ++ [x]) ++ (zs.destutter' (Differs compare) x).tail := by
    have htail := destutter'_eq_cons (Differs compare) x zs
    rw [h.result, List.destutter'_cons_pos (h := hne), List.tail_cons, List.append_assoc,
      List.singleton_append, ← htail]
  have htotal : ks.length < (uniqued compare (ys ++ x :: zs)).length := by
    rw [hresult, List.length_append, List.length_append, List.length_singleton]
    omega
  have hlen : (ys ++ x :: zs).length = v.i + 1 + (zs.length + 1) := by
    rw [List.length_append, hys, List.length_cons]
  have hmul : (ys ++ x :: zs).length * elemsize =
      (v.i + 1) * elemsize + elemsize + zs.length * elemsize := by
    rw [hlen, Nat.add_mul (v.i + 1), Nat.succ_mul zs.length]
    omega
  have hcases := uniq_cursor_apart h.behind htotal hargs.apart
  rw [hmul, ← h.d, ← h.curr] at hcases
  have hcurr := h.curr
  refine ⟨⟨ys ++ [x], by rw [List.append_assoc]; rfl, by rw [List.length_append, hys]; rfl⟩,
    ?_, ?_, ?_, ?_, ?_, ?_, hresult, ?_, h.room.store _ _⟩
  · show v.curr + elemsize = src + (v.i + 1 + 1) * elemsize
    rw [Nat.succ_mul (v.i + 1), hcurr]
    omega
  · show v.d + elemsize = dst + (ks ++ [x]).length * elemsize
    rw [List.length_append, List.length_singleton, Nat.succ_mul, h.d]
    omega
  · show (ks ++ [x]).length ≤ v.i + 1 + 1
    rw [List.length_append, List.length_singleton]
    exact Nat.succ_le_succ h.behind
  · show bytesAt (Bytes.store mem v.d x) v.curr elemsize = some x
    rcases hcases with heq | hapart
    · rw [← heq, ← hx]
      exact bytesAt_store mem v.d x
    · rw [bytesAt_store_of_disjoint (by omega)]
      exact h.rest.1
  · exact h.rest.2.congr fun b hb hb' => store_of_notMem (by omega)
  · refine arrayAt_append.mpr ⟨h.kept.congr fun b hb hb' => store_of_notMem ?_, ?_⟩
    · rw [h.d]
      omega
    · rw [← h.d, arrayAt_singleton, ← hx]
      exact bytesAt_store mem v.d x
  · intro b hb
    have hd := h.d
    dsimp only at hb
    rw [store_of_notMem (by omega)]
    exact h.frame b (by omega)

/-- An element that equals the last one kept is passed over. -/
theorem UniqLoop.skip {v : UniqLocals}
    (h : UniqLoop compare mem₀ dst src elemsize xs (x :: zs) ks a v mem)
    (heq : ¬ Differs compare a x) :
    UniqLoop compare mem₀ dst src elemsize xs zs ks a
      ⟨v.i + 1, v.prev, v.curr + elemsize, v.d⟩ mem := by
  obtain ⟨ys, rfl, hys⟩ := h.split
  refine ⟨⟨ys ++ [x], by rw [List.append_assoc]; rfl, by rw [List.length_append, hys]; rfl⟩,
    ?_, h.d, Nat.le_succ_of_le h.behind, h.prev, h.rest.2, h.kept, ?_, h.frame, h.room⟩
  · show v.curr + elemsize = src + (v.i + 1 + 1) * elemsize
    rw [Nat.succ_mul (v.i + 1), h.curr]
    omega
  · rw [h.result, List.destutter'_cons_neg (h := heq)]

/-- What `cldm_uniq` leaves behind. -/
structure UniqDone (compare : List UInt8 → List UInt8 → ℤ) (mem₀ : Mem) (dst elemsize : ℕ)
    (xs : List (List UInt8)) (r : ℕ) (mem : Mem) : Prop where
  count : r = (uniqued compare xs).length
  kept : ArrayAt mem elemsize dst (uniqued compare xs)
  frame : ∀ b, b < dst ∨ dst + (uniqued compare xs).length * elemsize ≤ b → mem b = mem₀ b

theorem total_uniqLoop (hargs : UniqArgs compare mem₀ dst src elemsize xs)
    (hlen : xs.length ≤ unsignedMod) {v : UniqLocals}
    (h : UniqLoop compare mem₀ dst src elemsize xs zs ks a v mem) :
    Total (fun fuel => fuelLoop (uniqBody compare elemsize xs.length) fuel v)
      (fun d mem' => ∃ ks a v', d = v'.d ∧
        UniqLoop compare mem₀ dst src elemsize xs [] ks a v' mem') mem := by
  have step : ∀ k (v : UniqLocals) mem, (∃ zs ks a, k = zs.length ∧
      UniqLoop compare mem₀ dst src elemsize xs zs ks a v mem) →
      Total (fun _ => uniqBody compare elemsize xs.length v)
        (fun r mem' => Sum.elim
          (fun v' => ∃ k' < k, ∃ zs ks a, k' = zs.length ∧
            UniqLoop compare mem₀ dst src elemsize xs zs ks a v' mem')
          (fun d => ∃ ks a v', d = v'.d ∧
            UniqLoop compare mem₀ dst src elemsize xs [] ks a v' mem') r) mem := by
    rintro k v mem ⟨zs, ks, a, rfl, hI⟩
    refine Total.const ?_
    obtain ⟨ys, hxs, hys⟩ := hI.split
    have hn := congrArg List.length hxs
    rw [List.length_append, hys] at hn
    have hsize := hargs.sizeT
    have hbound : (xs.length + (sizeMod - 1)) % sizeMod = xs.length - 1 := by
      simp only [sizeMod] at *
      omega
    rw [uniqBody, hbound]
    rcases zs with _ | ⟨x, zs⟩
    · rw [List.length_nil] at hn
      rw [if_neg (by omega), wp_pure]
      exact ⟨ks, a, v, rfl, hI⟩
    · rw [List.length_cons] at hn
      have hmod : (v.i + 1) % unsignedMod = v.i + 1 := Nat.mod_eq_of_lt (by omega)
      rw [if_pos (by omega), wp_bind, wp_get, wp_bind, wp_readBytes hI.prev, wp_bind,
        wp_readBytes hI.rest.1, hmod]
      by_cases hne : compare a x ≠ 0
      · have hkeep := hI.keep hargs hne
        have hd : Accessible mem v.d elemsize := by
          refine hI.room.mono (by rw [hI.d]; omega) ?_
          have htotal : ks.length + 1 ≤ (uniqued compare xs).length := by
            rw [hkeep.result, List.length_append, List.length_append, List.length_singleton]
            omega
          have hmul := Nat.mul_le_mul_right elemsize htotal
          rw [Nat.succ_mul] at hmul
          rw [hI.d]
          omega
        rw [if_pos hne, wp_bind, wp_copyBytes hI.rest.1 hd, wp_pure]
        exact ⟨zs.length, by rw [List.length_cons]; omega, zs, _, _, rfl, hkeep⟩
      · rw [if_neg hne, wp_pure]
        exact ⟨zs.length, by rw [List.length_cons]; omega, zs, _, _, rfl, hI.skip hne⟩
  exact total_loop step zs.length v mem ⟨zs, ks, a, rfl, h⟩

/-- The first element is kept before the loop. -/
theorem UniqArgs.start (hargs : UniqArgs compare mem dst src elemsize (x₀ :: zs)) :
    UniqLoop compare mem dst src elemsize (x₀ :: zs) zs [x₀] x₀
      ⟨0, src, src + elemsize, dst + elemsize⟩ (Bytes.store mem dst x₀) := by
  have hx : x₀.length = elemsize := length_bytesAt hargs.array.1
  have hresult : uniqued compare (x₀ :: zs) =
      [x₀] ++ (zs.destutter' (Differs compare) x₀).tail := by
    rw [uniqued, List.destutter_cons', destutter'_eq_cons]
    rfl
  have hpos : 1 ≤ (uniqued compare (x₀ :: zs)).length := by
    rw [hresult, List.length_append, List.length_singleton]
    omega
  have hone := Nat.mul_le_mul_right elemsize hpos
  have hapart := hargs.apart
  rw [List.length_cons, Nat.succ_mul] at hapart
  refine ⟨⟨[x₀], rfl, rfl⟩, ?_, ?_, le_refl 1, ?_, ?_, ?_, hresult, ?_, hargs.room.store _ _⟩
  · show src + elemsize = src + (0 + 1) * elemsize
    omega
  · show dst + elemsize = dst + 1 * elemsize
    omega
  · show bytesAt (Bytes.store mem dst x₀) src elemsize = some x₀
    by_cases heq : dst = src
    · rw [← heq, ← hx]
      exact bytesAt_store mem dst x₀
    · rw [bytesAt_store_of_disjoint (by omega)]
      exact hargs.array.1
  · exact hargs.array.2.congr fun b hb hb' => store_of_notMem (by omega)
  · rw [arrayAt_singleton, ← hx]
    exact bytesAt_store mem dst x₀
  · intro b hb
    dsimp only at hb
    exact store_of_notMem (by omega)

/-- `cldm_uniq` up to the division. -/
theorem total_uniq (hargs : UniqArgs compare mem dst src elemsize xs) (hsize : 0 < elemsize)
    (hlen : xs.length ≤ unsignedMod) :
    Total (uniq compare dst src elemsize xs.length)
      (fun r mem' => UniqDone compare mem dst elemsize xs r mem') mem := by
  obtain ⟨x₀, zs, rfl⟩ := List.exists_cons_of_length_pos hargs.nonempty
  have hpos : 1 * elemsize ≤ (uniqued compare (x₀ :: zs)).length * elemsize := by
    refine Nat.mul_le_mul_right elemsize ?_
    rw [uniqued, List.destutter_cons', destutter'_eq_cons, List.length_cons]
    omega
  have hdst : Accessible mem dst elemsize := hargs.room.mono (le_refl dst) (by omega)
  refine Total.wp_bind ((wp_copyBytes hargs.array.1 hdst).mpr (Total.bind ?_))
  refine (total_uniqLoop hargs hlen hargs.start).mono fun d mem' h => ?_
  obtain ⟨ks, a, v, rfl, hI⟩ := h
  have hresult : uniqued compare (x₀ :: zs) = ks := by
    rw [hI.result, List.destutter'_nil, List.tail_cons, List.append_nil]
  refine Total.const ?_
  rw [if_neg hsize.ne', wp_pure]
  refine ⟨?_, ?_, ?_⟩
  · rw [hI.d, hresult, Nat.add_sub_cancel_left, Nat.mul_div_cancel _ hsize]
  · rw [hresult]
    exact hI.kept
  · intro b hb
    refine hI.frame b ?_
    rw [hI.d, ← hresult]
    exact hb

/-- From `2 ^ 32 + 1` elements on, the loop counter never gets to the last one. -/
theorem uniqLoop_diverges (hlen : unsignedMod < nelems) (hsize : nelems < sizeMod) (fuel : ℕ)
    {v : UniqLocals} (hv : v.i < unsignedMod) (mem : Mem) :
    fuelLoop (uniqBody compare elemsize nelems) fuel v mem = none := by
  refine fuelLoop_never (I := fun v => v.i < unsignedMod) ?_ fuel v mem hv
  intro v mem r mem' hv hbody
  have hbound : (nelems + (sizeMod - 1)) % sizeMod = nelems - 1 := by
    simp only [sizeMod, unsignedMod] at *
    omega
  have hnext : (v.i + 1) % unsignedMod < unsignedMod := Nat.mod_lt _ (by decide)
  rw [uniqBody, hbound, if_pos (by omega)] at hbody
  obtain ⟨_, s₁, -, hbody⟩ := bind_eq_some.mp hbody
  obtain ⟨prev, s₂, -, hbody⟩ := bind_eq_some.mp hbody
  obtain ⟨curr, s₃, -, hbody⟩ := bind_eq_some.mp hbody
  split_ifs at hbody
  · obtain ⟨_, s₄, -, hbody⟩ := bind_eq_some.mp hbody
    obtain ⟨rfl, -⟩ := Prod.mk.inj (Option.some.inj hbody)
    exact ⟨_, rfl, hnext⟩
  · obtain ⟨rfl, -⟩ := Prod.mk.inj (Option.some.inj hbody)
    exact ⟨_, rfl, hnext⟩

theorem uniq_bounds (hargs : UniqArgs compare mem dst src elemsize xs)
    {Q : ℕ → Mem → Prop} (h : Total (uniq compare dst src elemsize xs.length) Q mem) :
    0 < elemsize ∧ xs.length ≤ unsignedMod := by
  obtain ⟨r, mem', ⟨k, hret⟩, -⟩ := h
  obtain ⟨_, mem₁, -, hrun⟩ := bind_eq_some.mp (hret k (le_refl k))
  obtain ⟨d, mem₂, hloop, hrun⟩ := bind_eq_some.mp hrun
  constructor
  · by_contra hzero
    rw [if_pos (by omega)] at hrun
    exact absurd hrun (by simp)
  · by_contra hlen
    have hzero : 0 < unsignedMod := by decide
    rw [uniqLoop_diverges (by omega) hargs.sizeT k hzero] at hloop
    exact absurd hloop (by simp)

/-- `cldm_uniq` keeps the first element and every one that differs from the last one kept,
in place and out of place, just where the elements have a size and there are at most `2 ^ 32`. -/
theorem uniq_correct_iff (hargs : UniqArgs compare mem dst src elemsize xs) :
    Total (uniq compare dst src elemsize xs.length)
      (fun r mem' => UniqDone compare mem dst elemsize xs r mem') mem ↔
    0 < elemsize ∧ xs.length ≤ unsignedMod :=
  ⟨uniq_bounds hargs, fun h => total_uniq hargs h.1 h.2⟩

/-- A memory of zeros. -/
def zeros : Mem := fun _ => some 0

theorem arrayAt_zeros (p n : ℕ) : ArrayAt zeros 1 p (List.replicate n [0]) := by
  induction n generalizing p with
  | zero => exact arrayAt_nil
  | succ n ih => exact ⟨rfl, ih (p + 1)⟩

theorem uniqArgs_zeros {n : ℕ} (hn : 1 ≤ n) (hsize : n < sizeMod) :
    UniqArgs compare zeros 0 0 1 (List.replicate n [0]) where
  array := arrayAt_zeros 0 n
  room := fun _ _ => rfl
  apart := .inl rfl
  nonempty := by rw [List.length_replicate]; exact hn
  sizeT := by rw [List.length_replicate]; exact hsize

/-- Two equal elements. -/
def twoZeros : List (List UInt8) := List.replicate 2 [0]

theorem uniq_correct_iff_two : UniqArgs (fun _ _ => 0) zeros 0 0 1 twoZeros ∧
    (Total (uniq (fun _ _ => 0) 0 0 1 twoZeros.length)
      (fun r mem' => UniqDone (fun _ _ => 0) zeros 0 1 twoZeros r mem') zeros ↔
    0 < 1 ∧ twoZeros.length ≤ unsignedMod) :=
  ⟨uniqArgs_zeros (by decide) (by decide),
    uniq_correct_iff (uniqArgs_zeros (by decide) (by decide))⟩

/-- With more elements, `cldm_uniq` does not return. -/
theorem not_total_uniq_zeros {n : ℕ} (hn : unsignedMod < n) (hsize : n < sizeMod)
    {Q : ℕ → Mem → Prop} : ¬ Total (uniq (fun _ _ => 0) 0 0 1 n) Q zeros := by
  intro h
  have hlen : (List.replicate n ([0] : List UInt8)).length = n := List.length_replicate
  have hbound := (uniq_bounds (uniqArgs_zeros (by omega) hsize) (hlen.symm ▸ h)).2
  omega

theorem uniq_too_many :
    UniqArgs (fun _ _ => 0) zeros 0 0 1 (List.replicate (2 ^ 32 + 1) [0]) ∧
    ¬ Total (uniq (fun _ _ => 0) 0 0 1 (2 ^ 32 + 1))
      (fun r mem' => UniqDone (fun _ _ => 0) zeros 0 1 (List.replicate (2 ^ 32 + 1) [0]) r mem')
      zeros :=
  ⟨uniqArgs_zeros (by decide) (by decide), not_total_uniq_zeros (by decide) (by decide)⟩

/-! ### `cldm_stable_partition` -/

/-- The counters of `cldm_stable_partition`. -/
structure PartitionLocals where
  i : ℕ
  st : ℕ
  ust : ℕ

/-- One turn of the loop of `cldm_stable_partition`. -/
def stablePartitionBody (predicate : List UInt8 → Bool) (data elemsize nelems arr : ℕ)
    (v : PartitionLocals) : Prog Mem (PartitionLocals ⊕ PartitionLocals) := do
  if v.i < nelems then
    let elem := data + v.i * elemsize
    if predicate (← readBytes (← get) elem elemsize) then
      copyBytes (arr + elemsize * v.st) elem elemsize
      return .inl ⟨(v.i + 1) % unsignedMod, (v.st + 1) % unsignedMod, v.ust⟩
    else
      copyBytes (arr + (nelems + v.ust) * elemsize) elem elemsize
      return .inl ⟨(v.i + 1) % unsignedMod, v.st, (v.ust + 1) % unsignedMod⟩
  else
    return .inr v

/-- `cldm_stable_partition`. -/
def stablePartition (predicate : List UInt8 → Bool) (ans : BlockAnswer)
    (data elemsize nelems fuel : ℕ) : Prog Mem ℤ := do
  match ← mallocBytes ans (2 * nelems * elemsize % sizeMod) with
  | none => return -1
  | some arr =>
    let v ← fuelLoop (stablePartitionBody predicate data elemsize nelems arr) fuel ⟨0, 0, 0⟩
    copyBytes data arr (v.st * elemsize)
    copyBytes (data + v.st * elemsize) (arr + nelems * elemsize) (v.ust * elemsize)
    freeBytes arr (2 * nelems * elemsize % sizeMod)
    return v.st

variable {predicate : List UInt8 → Bool} {data arr : ℕ} {ans : BlockAnswer}

/-- An array of `xs`, and the answer to the request for the scratch buffer. -/
structure PartitionArgs (mem : Mem) (data elemsize : ℕ) (xs : List (List UInt8))
    (ans : BlockAnswer) : Prop where
  array : ArrayAt mem elemsize data xs
  nonempty : 1 ≤ xs.length
  sizeT : xs.length < sizeMod
  fits : xs.length * elemsize < 2 ^ 63
  block : BlockOk mem (2 * xs.length * elemsize % sizeMod) ans

/-- The elements of the array, those of the kind first. -/
abbrev partitioned (predicate : List UInt8 → Bool) (xs : List (List UInt8)) :
    List (List UInt8) := xs.filter predicate ++ xs.filter fun x => !predicate x

/-- What `cldm_stable_partition` leaves behind. -/
structure PartitionDone (predicate : List UInt8 → Bool) (mem₀ : Mem) (data elemsize : ℕ)
    (xs : List (List UInt8)) (r : ℤ) (mem : Mem) : Prop where
  count : r = (xs.filter predicate).length
  array : ArrayAt mem elemsize data (partitioned predicate xs)
  frame : ∀ b, b < data ∨ data + xs.length * elemsize ≤ b → mem b = mem₀ b

/-- The elements `ys` have been copied to the two halves of the buffer, which lies apart from the
array. -/
structure PartitionLoop (predicate : List UInt8 → Bool) (mem₀ : Mem) (data elemsize arr : ℕ)
    (xs ys zs : List (List UInt8)) (v : PartitionLocals) (mem : Mem) : Prop where
  split : xs = ys ++ zs
  i : v.i = ys.length
  st : v.st = (ys.filter predicate).length
  ust : v.ust = (ys.filter fun x => !predicate x).length
  array : ArrayAt mem elemsize data xs
  lower : ArrayAt mem elemsize arr (ys.filter predicate)
  upper : ArrayAt mem elemsize (arr + xs.length * elemsize) (ys.filter fun x => !predicate x)
  frame : ∀ b, b < arr ∨ arr + 2 * (xs.length * elemsize) ≤ b → mem b = mem₀ b
  room : Accessible mem arr (2 * (xs.length * elemsize))
  apart : ∀ b, data ≤ b → b < data + xs.length * elemsize →
    b < arr ∨ arr + 2 * (xs.length * elemsize) ≤ b

theorem length_filters (predicate : List UInt8 → Bool) (ys : List (List UInt8)) :
    (ys.filter predicate).length + (ys.filter fun x => !predicate x).length = ys.length := by
  induction ys with
  | nil => rfl
  | cons y ys ih =>
    cases h : predicate y <;> simp [h] <;> omega

/-- A store into the buffer. -/
theorem PartitionLoop.store {v : PartitionLocals}
    (h : PartitionLoop predicate mem₀ data elemsize arr xs ys zs v mem) {q : ℕ}
    {bs : List UInt8} (hq : arr ≤ q) (hq' : q + bs.length ≤ arr + 2 * (xs.length * elemsize)) :
    ArrayAt (Bytes.store mem q bs) elemsize data xs ∧
    (∀ b, b < arr ∨ arr + 2 * (xs.length * elemsize) ≤ b → Bytes.store mem q bs b = mem₀ b) ∧
    Accessible (Bytes.store mem q bs) arr (2 * (xs.length * elemsize)) := by
  refine ⟨h.array.congr fun b hb hb' => store_of_notMem ?_, fun b hb => ?_, h.room.store _ _⟩
  · have hout := h.apart b hb hb'
    omega
  · rw [store_of_notMem (by omega)]
    exact h.frame b hb

/-- An element of the kind goes to the lower half. -/
theorem PartitionLoop.keep {v : PartitionLocals}
    (h : PartitionLoop predicate mem₀ data elemsize arr xs ys (x :: zs) v mem)
    (hx : predicate x = true) (hlen : x.length = elemsize) :
    PartitionLoop predicate mem₀ data elemsize arr xs (ys ++ [x]) zs
      ⟨v.i + 1, v.st + 1, v.ust⟩ (Bytes.store mem (arr + elemsize * v.st) x) := by
  have hn : xs.length = ys.length + (zs.length + 1) := by
    rw [h.split, List.length_append, List.length_cons]
  have hfilters := length_filters predicate ys
  have hst : v.st + 1 ≤ xs.length := by rw [h.st]; omega
  have hmul := Nat.mul_le_mul_right elemsize hst
  rw [Nat.succ_mul] at hmul
  rw [Nat.mul_comm elemsize v.st]
  have hroom' : arr + v.st * elemsize + x.length ≤ arr + 2 * (xs.length * elemsize) := by omega
  obtain ⟨harray, hframe, hroom⟩ := h.store (Nat.le_add_right _ _) hroom'
  have hpos : (ys ++ [x]).filter predicate = ys.filter predicate ++ [x] := by
    rw [List.filter_append, List.filter_cons_of_pos hx, List.filter_nil]
  have hneg : (ys ++ [x]).filter (fun x => !predicate x) = ys.filter fun x => !predicate x := by
    rw [List.filter_append, List.filter_cons_of_neg (by simp [hx]), List.filter_nil,
      List.append_nil]
  refine ⟨by rw [h.split, List.append_assoc]; rfl, ?_, ?_, ?_, harray, ?_, ?_, hframe, hroom,
    h.apart⟩
  · rw [List.length_append, ← h.i]
    rfl
  · rw [hpos, List.length_append, ← h.st]
    rfl
  · rw [hneg]
    exact h.ust
  · rw [hpos, arrayAt_append, ← h.st, arrayAt_singleton]
    refine ⟨h.lower.congr fun b hb hb' => store_of_notMem ?_, ?_⟩
    · rw [← h.st] at hb'
      omega
    · rw [← hlen]
      exact bytesAt_store mem _ x
  · rw [hneg]
    exact h.upper.congr fun b hb hb' => store_of_notMem (by omega)

/-- Any other element goes to the upper half. -/
theorem PartitionLoop.pass {v : PartitionLocals}
    (h : PartitionLoop predicate mem₀ data elemsize arr xs ys (x :: zs) v mem)
    (hx : predicate x = false) (hlen : x.length = elemsize) :
    PartitionLoop predicate mem₀ data elemsize arr xs (ys ++ [x]) zs
      ⟨v.i + 1, v.st, v.ust + 1⟩
      (Bytes.store mem (arr + (xs.length + v.ust) * elemsize) x) := by
  have hn : xs.length = ys.length + (zs.length + 1) := by
    rw [h.split, List.length_append, List.length_cons]
  have hfilters := length_filters predicate ys
  have hust : v.ust + 1 ≤ xs.length := by rw [h.ust]; omega
  have hmul := Nat.mul_le_mul_right elemsize hust
  rw [Nat.succ_mul] at hmul
  have haddr : arr + (xs.length + v.ust) * elemsize =
      arr + xs.length * elemsize + v.ust * elemsize := by
    rw [Nat.add_mul]
    omega
  rw [haddr]
  have hroom' : arr + xs.length * elemsize + v.ust * elemsize + x.length ≤
      arr + 2 * (xs.length * elemsize) := by omega
  obtain ⟨harray, hframe, hroom⟩ := h.store (by omega) hroom'
  have hpos : (ys ++ [x]).filter predicate = ys.filter predicate := by
    rw [List.filter_append, List.filter_cons_of_neg (by simp [hx]), List.filter_nil,
      List.append_nil]
  have hneg : (ys ++ [x]).filter (fun x => !predicate x) =
      (ys.filter fun x => !predicate x) ++ [x] := by
    rw [List.filter_append, List.filter_cons_of_pos (by simp [hx]), List.filter_nil]
  have hst : (ys.filter predicate).length ≤ xs.length := by omega
  have hmul' := Nat.mul_le_mul_right elemsize hst
  refine ⟨by rw [h.split, List.append_assoc]; rfl, ?_, ?_, ?_, harray, ?_, ?_, hframe, hroom,
    h.apart⟩
  · rw [List.length_append, ← h.i]
    rfl
  · rw [hpos]
    exact h.st
  · rw [hneg, List.length_append, ← h.ust]
    rfl
  · rw [hpos]
    exact h.lower.congr fun b hb hb' => store_of_notMem (by omega)
  · rw [hneg, arrayAt_append, ← h.ust, arrayAt_singleton]
    refine ⟨h.upper.congr fun b hb hb' => store_of_notMem ?_, ?_⟩
    · rw [← h.ust] at hb'
      omega
    · rw [← hlen]
      exact bytesAt_store mem _ x

theorem total_stablePartitionLoop (hlen : xs.length < unsignedMod) {v : PartitionLocals}
    (h : PartitionLoop predicate mem₀ data elemsize arr xs ys zs v mem) :
    Total (fun fuel => fuelLoop (stablePartitionBody predicate data elemsize xs.length arr) fuel v)
      (fun v' mem' => PartitionLoop predicate mem₀ data elemsize arr xs xs [] v' mem') mem := by
  have step : ∀ k (v : PartitionLocals) mem, (∃ ys zs, k = zs.length ∧
      PartitionLoop predicate mem₀ data elemsize arr xs ys zs v mem) →
      Total (fun _ => stablePartitionBody predicate data elemsize xs.length arr v)
        (fun r mem' => Sum.elim
          (fun v' => ∃ k' < k, ∃ ys zs, k' = zs.length ∧
            PartitionLoop predicate mem₀ data elemsize arr xs ys zs v' mem')
          (fun v' => PartitionLoop predicate mem₀ data elemsize arr xs xs [] v' mem') r) mem := by
    rintro k v mem ⟨ys, zs, rfl, hI⟩
    refine Total.const ?_
    have hn := congrArg List.length hI.split
    have hi := hI.i
    rw [List.length_append] at hn
    rw [stablePartitionBody]
    rcases zs with _ | ⟨x, zs⟩
    · rw [List.length_nil] at hn
      rw [if_neg (by omega), wp_pure]
      obtain rfl : xs = ys := hI.split.trans (List.append_nil ys)
      exact hI
    · rw [List.length_cons] at hn
      have harray := hI.array
      rw [hI.split] at harray
      have hx := harray.elem
      rw [← hi] at hx
      have hsize : x.length = elemsize := length_bytesAt hx
      have hfilters := length_filters predicate ys
      have hmod : (v.i + 1) % unsignedMod = v.i + 1 := Nat.mod_eq_of_lt (by omega)
      have hst := hI.st
      have hust := hI.ust
      rw [if_pos (by omega), wp_bind, wp_get, wp_bind, wp_readBytes hx, hmod]
      cases hpred : predicate x with
      | true =>
        have hmod' : (v.st + 1) % unsignedMod = v.st + 1 := Nat.mod_eq_of_lt (by omega)
        have hroom : Accessible mem (arr + elemsize * v.st) elemsize := by
          have hmul := Nat.mul_le_mul_right elemsize (show v.st + 1 ≤ xs.length by omega)
          rw [Nat.succ_mul] at hmul
          rw [Nat.mul_comm elemsize v.st]
          exact hI.room.mono (Nat.le_add_right _ _) (by omega)
        rw [if_pos rfl, wp_bind, wp_copyBytes hx hroom, wp_pure, hmod']
        exact ⟨zs.length, by rw [List.length_cons]; omega, _, zs, rfl, hI.keep hpred hsize⟩
      | false =>
        have hmod' : (v.ust + 1) % unsignedMod = v.ust + 1 := Nat.mod_eq_of_lt (by omega)
        have hroom : Accessible mem (arr + (xs.length + v.ust) * elemsize) elemsize := by
          have hmul := Nat.mul_le_mul_right elemsize (show v.ust + 1 ≤ xs.length by omega)
          rw [Nat.succ_mul] at hmul
          rw [Nat.add_mul]
          exact hI.room.mono (by omega) (by omega)
        rw [if_neg (by decide), wp_bind, wp_copyBytes hx hroom, wp_pure, hmod']
        exact ⟨zs.length, by rw [List.length_cons]; omega, _, zs, rfl, hI.pass hpred hsize⟩
  exact total_loop step zs.length v mem ⟨ys, zs, rfl, h⟩

/-- The two halves of the buffer are copied back side by side. -/
theorem PartitionLoop.wp_finish {v : PartitionLocals} {n : ℕ}
    (h : PartitionLoop predicate mem₀ data elemsize arr xs xs [] v mem)
    (hn : n = 2 * (xs.length * elemsize)) (hfresh : ∀ b, arr ≤ b → b < arr + n → mem₀ b = none) :
    wp (do
      copyBytes data arr (v.st * elemsize)
      copyBytes (data + v.st * elemsize) (arr + xs.length * elemsize) (v.ust * elemsize)
      freeBytes arr n
      return (v.st : ℤ)) (fun r mem' => PartitionDone predicate mem₀ data elemsize xs r mem')
      mem := by
  subst hn
  have hfilters := length_filters predicate xs
  have hsum : v.st + v.ust = xs.length := by rw [h.st, h.ust]; exact hfilters
  have hmul : xs.length * elemsize = v.st * elemsize + v.ust * elemsize := by
    rw [← Nat.add_mul, hsum]
  have hapart : ∀ b, arr ≤ b → b < arr + 2 * (xs.length * elemsize) →
      b < data ∨ data + xs.length * elemsize ≤ b := by
    intro b hb hb'
    by_contra hin
    have hout := h.apart b (by omega) (by omega)
    omega
  have hdata := h.array.accessible
  have hlower := h.lower.flatten
  have hlen := h.lower.length_flatten
  have hupper := h.upper.flatten
  have hlen' := h.upper.length_flatten
  rw [← h.st] at hlower hlen
  rw [← h.ust] at hupper hlen'
  rw [wp_bind, wp_copyBytes hlower (hdata.mono (le_refl data) (by omega)), wp_bind]
  -- the upper half has not been written to
  have hupper₁ : bytesAt (Bytes.store mem data (xs.filter predicate).flatten)
      (arr + xs.length * elemsize) (v.ust * elemsize) =
      some (xs.filter fun x => !predicate x).flatten := by
    rw [← hupper]
    refine bytesAt_congr fun i hi => store_of_notMem ?_
    have hout := hapart (arr + xs.length * elemsize + i) (by omega) (by omega)
    omega
  have hdata₁ : Accessible (Bytes.store mem data (xs.filter predicate).flatten)
      (data + v.st * elemsize) (v.ust * elemsize) :=
    (hdata.store _ _).mono (by omega) (by omega)
  rw [wp_copyBytes hupper₁ hdata₁, wp_bind, wp_freeBytes, wp_pure]
  set mem₁ := Bytes.store mem data (xs.filter predicate).flatten with hmem₁
  set mem₂ := Bytes.store mem₁ (data + v.st * elemsize)
    (xs.filter fun x => !predicate x).flatten with hmem₂
  have hfree : ∀ b, data ≤ b → b < data + xs.length * elemsize →
      (if arr ≤ b ∧ b < arr + 2 * (xs.length * elemsize) then none else mem₂ b) = mem₂ b := by
    intro b hb hb'
    have hout := h.apart b hb hb'
    rw [if_neg (by omega)]
  have hfirst : ArrayAt mem₁ elemsize data (xs.filter predicate) := by
    refine h.lower.of_flatten ?_
    rw [← h.lower.length_flatten]
    exact bytesAt_store mem data _
  have hsecond : ArrayAt mem₂ elemsize (data + v.st * elemsize)
      (xs.filter fun x => !predicate x) := by
    refine h.upper.of_flatten ?_
    rw [← h.upper.length_flatten]
    exact bytesAt_store mem₁ _ _
  refine ⟨by rw [h.st], ?_, ?_⟩
  · refine arrayAt_append.mpr ⟨hfirst.congr fun b hb hb' => ?_, ?_⟩
    · rw [← h.st] at hb'
      rw [hfree b hb (by omega)]
      exact store_of_notMem (by omega)
    · rw [← h.st]
      refine hsecond.congr fun b hb hb' => ?_
      rw [← h.ust] at hb'
      exact hfree b (by omega) (by omega)
  · intro b hb
    by_cases hin : arr ≤ b ∧ b < arr + 2 * (xs.length * elemsize)
    · rw [if_pos hin]
      exact (hfresh b hin.1 hin.2).symm
    · have hmem : mem₂ b = mem b := by
        rw [hmem₂, store_of_notMem (by omega), hmem₁, store_of_notMem (by omega)]
      rw [if_neg hin, hmem]
      exact h.frame b (by omega)

/-- What `cldm_stable_partition` is to do, for each answer of the allocator. -/
def PartitionResult (predicate : List UInt8 → Bool) (mem₀ : Mem) (data elemsize : ℕ)
    (xs : List (List UInt8)) (ans : BlockAnswer) (r : ℤ) (mem : Mem) : Prop :=
  match ans with
  | none => r = -1 ∧ mem = mem₀
  | some _ => PartitionDone predicate mem₀ data elemsize xs r mem

/-- The array lies apart from the new block, which is still empty. -/
theorem PartitionArgs.start (predicate : List UInt8 → Bool) {junk : ℕ → UInt8}
    (h : PartitionArgs mem data elemsize xs (some (arr, junk))) :
    PartitionLoop predicate mem data elemsize arr xs [] xs ⟨0, 0, 0⟩ (fun a =>
      if arr ≤ a ∧ a < arr + 2 * (xs.length * elemsize) then some (junk (a - arr)) else mem a) := by
  have hmod : 2 * xs.length * elemsize % sizeMod = 2 * (xs.length * elemsize) := by
    have hfits := h.fits
    rw [Nat.mul_assoc]
    exact Nat.mod_eq_of_lt (by simp only [sizeMod]; omega)
  have hblock := (h.block arr junk rfl).2
  rw [hmod] at hblock
  have hapart : ∀ b, data ≤ b → b < data + xs.length * elemsize →
      b < arr ∨ arr + 2 * (xs.length * elemsize) ≤ b := by
    intro b hb hb'
    by_contra hin
    have hsome := h.array.accessible (b - data) (by omega)
    rw [Nat.add_sub_cancel' hb, hblock b (by omega) (by omega)] at hsome
    exact absurd hsome (by simp)
  refine ⟨rfl, rfl, rfl, rfl, h.array.congr fun b hb hb' => ?_, arrayAt_nil, arrayAt_nil,
    fun b hb => if_neg (by omega), fun i hi => ?_, hapart⟩
  · have hout := hapart b hb hb'
    exact if_neg (by omega)
  · rw [if_pos (by omega), Option.isSome_some]

theorem total_stablePartition (h : PartitionArgs mem data elemsize xs ans)
    (hlen : ans = none ∨ xs.length < unsignedMod) :
    Total (stablePartition predicate ans data elemsize xs.length)
      (fun r mem' => PartitionResult predicate mem data elemsize xs ans r mem') mem := by
  have hmod : 2 * xs.length * elemsize % sizeMod = 2 * (xs.length * elemsize) := by
    have hfits := h.fits
    rw [Nat.mul_assoc]
    exact Nat.mod_eq_of_lt (by simp only [sizeMod]; omega)
  rcases ans with _ | ⟨arr, junk⟩
  · exact ⟨-1, mem, ⟨0, fun _ _ => rfl⟩, rfl, rfl⟩
  · have hlt : xs.length < unsignedMod := hlen.resolve_left (by simp)
    have hblock := (h.block arr junk rfl).2
    have hstart := h.start predicate
    rw [hmod] at hblock
    refine Total.wp_bind ⟨some arr, _, rfl, Total.bind ?_⟩
    rw [hmod]
    refine (total_stablePartitionLoop hlt hstart).mono fun v mem' hI => Total.const ?_
    exact hI.wp_finish rfl hblock

/-- From `2 ^ 32` elements on, the loop counter never gets behind the last one. -/
theorem stablePartitionLoop_diverges (hlen : unsignedMod ≤ nelems) (fuel : ℕ)
    {v : PartitionLocals} (hv : v.i < unsignedMod) (mem : Mem) :
    fuelLoop (stablePartitionBody predicate data elemsize nelems arr) fuel v mem = none := by
  refine fuelLoop_never (I := fun v => v.i < unsignedMod) ?_ fuel v mem hv
  intro v mem r mem' hv hbody
  have hnext : (v.i + 1) % unsignedMod < unsignedMod := Nat.mod_lt _ (by decide)
  rw [stablePartitionBody, if_pos (by omega)] at hbody
  obtain ⟨_, s₁, -, hbody⟩ := bind_eq_some.mp hbody
  obtain ⟨elem, s₂, -, hbody⟩ := bind_eq_some.mp hbody
  split_ifs at hbody
  · obtain ⟨_, s₃, -, hbody⟩ := bind_eq_some.mp hbody
    obtain ⟨rfl, -⟩ := Prod.mk.inj (Option.some.inj hbody)
    exact ⟨_, rfl, hnext⟩
  · obtain ⟨_, s₃, -, hbody⟩ := bind_eq_some.mp hbody
    obtain ⟨rfl, -⟩ := Prod.mk.inj (Option.some.inj hbody)
    exact ⟨_, rfl, hnext⟩

theorem stablePartition_bound {Q : ℤ → Mem → Prop}
    (h : Total (stablePartition predicate ans data elemsize nelems) Q mem) :
    ans = none ∨ nelems < unsignedMod := by
  rcases ans with _ | ⟨arr, junk⟩
  · exact .inl rfl
  · right
    by_contra hlen
    obtain ⟨r, mem', ⟨k, hret⟩, -⟩ := h
    obtain ⟨p, mem₁, hmalloc, hrun⟩ := bind_eq_some.mp (hret k (le_refl k))
    obtain ⟨rfl, -⟩ := Prod.mk.inj (Option.some.inj hmalloc)
    obtain ⟨v, mem₂, hloop, -⟩ := bind_eq_some.mp hrun
    have hzero : 0 < unsignedMod := by decide
    rw [stablePartitionLoop_diverges (by omega) k hzero] at hloop
    exact absurd hloop (by simp)

/-- `cldm_stable_partition` does what it is to do just where it gets no buffer or the array has
less than `2 ^ 32` elements. -/
theorem stable_partition_correct_iff (h : PartitionArgs mem data elemsize xs ans) :
    Total (stablePartition predicate ans data elemsize xs.length)
      (fun r mem' => PartitionResult predicate mem data elemsize xs ans r mem') mem ↔
    ans = none ∨ xs.length < unsignedMod :=
  ⟨stablePartition_bound, total_stablePartition h⟩

/-- `n` zeros, and nothing behind them. -/
def zerosBelow (n : ℕ) : Mem := fun a => if a < n then some 0 else none

theorem arrayAt_zerosBelow {n m p : ℕ} (h : p + m ≤ n) :
    ArrayAt (zerosBelow n) 1 p (List.replicate m [0]) := by
  induction m generalizing p with
  | zero => exact arrayAt_nil
  | succ m ih =>
    refine ⟨?_, ih (by omega)⟩
    have hp : zerosBelow n p = some 0 := if_pos (by omega)
    rw [bytesAt, bytesAt, hp]

/-- A buffer behind the array. -/
theorem partitionArgs_zerosBelow {n : ℕ} (hn : 1 ≤ n) (hsize : n < 2 ^ 62) :
    PartitionArgs (zerosBelow n) 0 1 (List.replicate n [0]) (some (n, fun _ => 0)) where
  array := arrayAt_zerosBelow (by omega)
  nonempty := by rw [List.length_replicate]; exact hn
  sizeT := by rw [List.length_replicate, sizeMod]; omega
  fits := by rw [List.length_replicate]; omega
  block := by
    intro p junk heq
    obtain ⟨rfl, -⟩ := Prod.mk.inj (Option.some.inj heq)
    rw [List.length_replicate, sizeMod]
    exact ⟨by omega, fun a ha _ => if_neg (by omega)⟩

theorem stable_partition_correct_iff_two :
    PartitionArgs (zerosBelow 2) 0 1 twoZeros (some (2, fun _ => 0)) ∧
    (Total (stablePartition (fun _ => true) (some (2, fun _ => 0)) 0 1 twoZeros.length)
      (fun r mem' => PartitionResult (fun _ => true) (zerosBelow 2) 0 1 twoZeros
        (some (2, fun _ => 0)) r mem') (zerosBelow 2) ↔
    (some (2, fun _ => 0) : BlockAnswer) = none ∨ twoZeros.length < unsignedMod) :=
  ⟨partitionArgs_zerosBelow (by decide) (by decide),
    stable_partition_correct_iff (partitionArgs_zerosBelow (by decide) (by decide))⟩

theorem not_total_stablePartition {n : ℕ} (hn : unsignedMod ≤ n) {Q : ℤ → Mem → Prop} :
    ¬ Total (stablePartition (fun _ => true) (some (n, fun _ => 0)) 0 1 n) Q (zerosBelow n) := by
  intro h
  have hbound := (stablePartition_bound h).resolve_left (by simp)
  omega

/-- With `2 ^ 32` elements, `cldm_stable_partition` does not return. -/
theorem stable_partition_too_many :
    PartitionArgs (zerosBelow (2 ^ 32)) 0 1 (List.replicate (2 ^ 32) [0])
      (some (2 ^ 32, fun _ => 0)) ∧
    ¬ Total (stablePartition (fun _ => true) (some (2 ^ 32, fun _ => 0)) 0 1 (2 ^ 32))
      (fun r mem' => PartitionResult (fun _ => true) (zerosBelow (2 ^ 32)) 0 1
        (List.replicate (2 ^ 32) [0]) (some (2 ^ 32, fun _ => 0)) r mem')
      (zerosBelow (2 ^ 32)) :=
  ⟨partitionArgs_zerosBelow (by decide) (by decide), not_total_stablePartition (by decide)⟩

end Cldm
