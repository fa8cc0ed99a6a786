/-
The operations of the hash table keep its invariant.

`cells mem s` reads the slots of a table as the cells of a table of byte strings
(`Probing`), so that `HtRep mem s K` says that `s` stores exactly the keys `K`.

* `htPlace_spec` — an insertion that does not grow the table;
* `HtInv.insert`, `HtInv.find`, `HtInv.remove`, `HtInv.clear` — what the
  operations answer, and the keys stored after them;
* `HtRep.expand` — a growth keeps the keys;
* `HtSafe.insert` — what is left of this when keys may be anything and
  allocations may fail.
-/
import Cldm.Hash

namespace Cldm

open Prog Probing Bytes

variable {env : HtEnv} {mem : Mem} {s : Ht} {e slot : HtEntry} {k : ℕ}
  {K : Set (List UInt8)}

/-- A slot as a cell of a table of byte strings. -/
def cellOf (mem : Mem) (slot : HtEntry) : Cell (List UInt8) :=
  if slot.status = 0 then .empty
  else if slot.status = htVacant then .removed
  else .full (keyOf mem slot)

/-- The cells of a table. -/
def cells (mem : Mem) (s : Ht) : ℕ → Cell (List UInt8) :=
  cellOf mem ∘ s.storage

theorem cellOf_unused (h : slot.status = 0) : cellOf mem slot = .empty := if_pos h

theorem cellOf_vacant (h : slot.status = htVacant) : cellOf mem slot = .removed := by
  rw [cellOf, if_neg (by rw [h]; exact Nat.one_ne_zero), if_pos h]

theorem cellOf_live (h : htVacant < slot.status) : cellOf mem slot = .full (keyOf mem slot) := by
  simp only [htVacant] at h
  rw [cellOf, if_neg (by omega), if_neg (by simp only [htVacant]; omega)]

/-- The three kinds of slot. -/
theorem status_cases (slot : HtEntry) :
    slot.status = 0 ∨ slot.status = htVacant ∨ htVacant < slot.status := by
  simp only [htVacant]
  omega

theorem live_of_cellOf {x : List UInt8} (h : cellOf mem slot = .full x) :
    htVacant < slot.status ∧ keyOf mem slot = x := by
  rcases status_cases slot with h0 | h1 | h2
  · rw [cellOf_unused h0] at h
    exact absurd h (by simp)
  · rw [cellOf_vacant h1] at h
    exact absurd h (by simp)
  · rw [cellOf_live h2, Cell.full.injEq] at h
    exact ⟨h2, h⟩

theorem isFull_cellOf : (cellOf mem slot).isFull = false ↔ slot.status ≤ htVacant := by
  rcases status_cases slot with h | h | h
  · rw [cellOf_unused h, h]
    simp [Cell.isFull]
  · rw [cellOf_vacant h, h]
    simp [Cell.isFull]
  · rw [cellOf_live h]
    simp only [Cell.isFull, Bool.true_eq_false, false_iff]
    omega

/-- `cldm_memcmp` tells the key `x` from those that a search for it comes to. -/
def Tells (memcmp : List UInt8 → List UInt8 → ℤ) (cap : ℕ) (cell : ℕ → Cell (List UInt8))
    (x : List UInt8) : Prop :=
  memcmp x x = 0 ∧
    ∀ y, Meets hashOf cap cell x y → y.length = x.length → memcmp y x = 0 → y = x

/-- The comparisons of a probe for `e` are right. -/
abbrev ProbeRight (env : HtEnv) (s : Ht) (e : HtEntry) : Prop :=
  Tells env.memcmp s.capacity (cells env.mem s) (keyOf env.mem e)

theorem MemcmpExact.tells (hexact : MemcmpExact env) (cap : ℕ) (cell : ℕ → Cell (List UInt8))
    (x : List UInt8) : Tells env.memcmp cap cell x :=
  ⟨(hexact x x rfl).mpr rfl, fun y _ hlen => (hexact y x hlen).mp⟩

/-- Where a comparison is right, slots match if their bytes are equal. -/
theorem matches_iff (hrefl : env.memcmp (keyOf env.mem e) (keyOf env.mem e) = 0)
    (hslot : Readable env.mem slot) (he : Readable env.mem e)
    (hright : (keyOf env.mem slot).length = (keyOf env.mem e).length →
      env.memcmp (keyOf env.mem slot) (keyOf env.mem e) = 0 →
        keyOf env.mem slot = keyOf env.mem e) :
    Matches env slot e ↔ keyOf env.mem slot = keyOf env.mem e := by
  constructor
  · rintro ⟨hsize, hcmp⟩
    refine hright ?_ hcmp
    rw [hslot.length_keyOf, he.length_keyOf, hsize]
  · intro heq
    have hsize : slot.size = e.size := by
      rw [← hslot.length_keyOf, ← he.length_keyOf, heq]
    exact ⟨hsize, by rw [heq, hrefl]⟩

/-- Where a comparison is right, `cldm_ht_probe` is a search for the bytes. -/
theorem probeStops_iff {reuse : Bool}
    (hrefl : env.memcmp (keyOf env.mem e) (keyOf env.mem e) = 0)
    (hslot : htVacant < slot.status → Readable env.mem slot) (he : Readable env.mem e)
    (hright : htVacant < slot.status → (keyOf env.mem slot).length = (keyOf env.mem e).length →
      env.memcmp (keyOf env.mem slot) (keyOf env.mem e) = 0 →
        keyOf env.mem slot = keyOf env.mem e) :
    ProbeStops env reuse e slot ↔ Stops reuse (keyOf env.mem e) (cellOf env.mem slot) := by
  rcases status_cases slot with h | h | h
  · rw [cellOf_unused h]
    exact iff_of_true (.inl h) trivial
  · rw [cellOf_vacant h]
    constructor
    · rintro (h0 | ⟨-, hr⟩ | ⟨hlt, -⟩)
      · exact absurd (h0.symm.trans h) (by simp)
      · exact hr
      · omega
    · exact fun hr => .inr (.inl ⟨h, hr⟩)
  · rw [cellOf_live h]
    constructor
    · rintro (h0 | ⟨h1, -⟩ | ⟨-, hm⟩)
      · omega
      · omega
      · exact (matches_iff hrefl (hslot h) he (hright h)).mp hm
    · exact fun heq => .inr (.inr ⟨h, (matches_iff hrefl (hslot h) he (hright h)).mpr heq⟩)

/-! ### An insertion that does not grow -/

/-- The table after storing `e` in slot `idx`. -/
def Ht.put (s : Ht) (idx : ℕ) (e : HtEntry) : Ht :=
  { s with storage := Function.update s.storage idx e, size := (s.size + 1) % sizeMod }

@[simp] theorem Ht.put_capacity (s : Ht) (idx : ℕ) (e : HtEntry) :
    (s.put idx e).capacity = s.capacity := rfl

theorem cells_put (mem : Mem) (s : Ht) (idx : ℕ) (e : HtEntry) :
    cells mem (s.put idx e) = Function.update (cells mem s) idx (cellOf mem e) :=
  Function.comp_update ..

theorem LiveReadable.put (h : LiveReadable mem s) (he : htVacant < e.status → Readable mem e)
    (idx : ℕ) : LiveReadable mem (s.put idx e) := by
  intro i hi hlive
  by_cases hii : i = idx
  · subst hii
    have hself : (s.put i e).storage i = e := Function.update_self ..
    rw [hself] at hlive ⊢
    exact he hlive
  · have hne : (s.put idx e).storage i = s.storage i := Function.update_of_ne hii ..
    rw [hne] at hlive ⊢
    exact h i hi hlive

theorem htPlace_spec (hcap : 0 < s.capacity) (hlive : LiveReadable env.mem s)
    (he : Readable env.mem e) (hk : StopsAt env true e s k) :
    Total (htPlace env e) (fun r s' =>
      (s.storage (htWay env.mem s e k)).status ≤ htVacant ∧
        r = some (htWay env.mem s e k) ∧ s' = s.put (htWay env.mem s e k) e ∨
      ¬ (s.storage (htWay env.mem s e k)).status ≤ htVacant ∧ r = none ∧ s' = s) s := by
  refine ((htProbe_spec hcap hlive he hk).mono ?_).bind
  rintro idx s₁ ⟨rfl, rfl⟩
  refine Total.const ((wp_bind ..).mpr ((wp_get ..).mpr ((wp_ite ..).mpr ?_)))
  by_cases hv : (s₁.storage (htWay env.mem s₁ e k)).status ≤ htVacant
  · rw [if_pos (htSlotVacant_iff.mpr hv)]
    exact (wp_bind ..).mpr ((wp_set ..).mpr ((wp_pure ..).mpr (.inl ⟨hv, rfl, rfl⟩)))
  · rw [if_neg (fun h => hv (htSlotVacant_iff.mp h))]
    exact (wp_pure ..).mpr (.inr ⟨hv, rfl, rfl⟩)

theorem htInsert_of_expand {calloc : ℕ → Bool} {n : ℕ} (h : htShouldExpand s = true) :
    htInsert env calloc (n + 1) e s =
      (htExpand (htInsert env calloc n) calloc n >>= fun b =>
        if b = true then htPlace env e n else pure none) s := by
  refine bind_get ?_
  rw [if_pos h]

theorem htInsert_of_not_expand {calloc : ℕ → Bool} {n : ℕ} (h : htShouldExpand s = false) :
    htInsert env calloc (n + 1) e s = htPlace env e n s := by
  refine bind_get ?_
  rw [if_neg (by rw [h]; exact Bool.false_ne_true)]

/-- An insertion into a table that does not have to grow. -/
theorem total_htInsert_of_not_expand {calloc : ℕ → Bool} {Q : Option ℕ → Ht → Prop}
    (h : htShouldExpand s = false) (hplace : Total (htPlace env e) Q s) :
    Total (fun n => htInsert env calloc n e) Q s := by
  refine Total.succ ?_
  obtain ⟨b, s', ⟨j, hret⟩, hQ⟩ := hplace
  exact ⟨b, s', ⟨j, fun n hn => (htInsert_of_not_expand h).trans (hret n hn)⟩, hQ⟩

/-! ### The invariant -/

/-- The table stores exactly the keys `K`. -/
structure HtRep (mem : Mem) (s : Ht) (K : Set (List UInt8)) : Prop where
  pos : 0 < s.capacity
  lt : s.capacity < 2 ^ 60
  live : LiveReadable mem s
  probed : Probed hashOf s.capacity (cells mem s)
  keys : keys s.capacity (cells mem s) = K
  size : s.size = K.ncard

/-- The invariant of the table. -/
structure HtInv (mem : Mem) (s : Ht) (K : Set (List UInt8)) : Prop
    extends HtRep mem s K where
  unused : HasUnused s

theorem HtRep.finite (h : HtRep mem s K) : K.Finite := by
  rw [← h.keys]
  exact (ncard_keys h.probed.unique).1

theorem HtRep.size_eq (h : HtRep mem s K) :
    s.size = count Cell.isFull s.capacity (cells mem s) := by
  rw [h.size, ← h.keys]
  exact (ncard_keys h.probed.unique).2

theorem HtRep.size_le (h : HtRep mem s K) : s.size ≤ s.capacity := by
  rw [h.size_eq]
  exact count_le ..

/-- No slot had its entry removed. -/
def NoVacant (s : Ht) : Prop := ∀ i < s.capacity, (s.storage i).status ≠ htVacant

theorem HtRep.hasUnused (h : HtRep mem s K) (hno : NoVacant s) (hsize : s.size < s.capacity) :
    HasUnused s := by
  rw [h.size_eq] at hsize
  obtain ⟨i, hi, hfree⟩ := exists_not_of_count_lt hsize
  have hle := isFull_cellOf.mp hfree
  have hne := hno i hi
  simp only [htVacant] at hle hne
  exact ⟨i, hi, by omega⟩

/-- The stop of a probe, among the cells. -/
theorem HtRep.firstAt (h : HtRep env.mem s K) (hright : ProbeRight env s e)
    (he : Readable env.mem e) {reuse : Bool}
    (hk : StopsAt env reuse e s k) :
    FirstAt (Stops reuse (keyOf env.mem e)) (cells env.mem s) s.capacity
      (hashOf (keyOf env.mem e)) k := by
  refine FirstAt.of_goesPast (fun j _ hpast => ?_) hk
  refine probeStops_iff hright.1 (h.live _ (slotAt_lt h.pos)) he fun hlive hlen hcmp => ?_
  exact hright.2 _ ⟨j, cellOf_live hlive, hpast⟩ hlen hcmp

/-- Storing a new key. -/
theorem HtRep.put (h : HtRep env.mem s K) (hright : ProbeRight env s e) (he : Readable env.mem e)
    (hkey : htVacant < e.key) (hx : keyOf env.mem e ∉ K)
    (hk : StopsAt env true e s k) :
    HtRep env.mem (s.put (htWay env.mem s e k) e)
      (insert (keyOf env.mem e) K) := by
  have hfirst := h.firstAt hright he hk
  have hx' : keyOf env.mem e ∉ Probing.keys s.capacity (cells env.mem s) := by
    rw [h.keys]
    exact hx
  have hcell : cellOf env.mem e = .full (keyOf env.mem e) := cellOf_live hkey
  have hsize : (s.size + 1) % sizeMod = s.size + 1 := by
    have := h.size_le
    have := h.lt
    refine Nat.mod_eq_of_lt ?_
    simp only [sizeMod]
    omega
  refine ⟨h.pos, h.lt, h.live.put (fun _ => he) _, ?_, ?_, ?_⟩
  · rw [cells_put, hcell]
    exact h.probed.insert h.pos hx' hfirst
  · rw [cells_put, hcell, Ht.put_capacity, keys_insert (slotAt_lt h.pos) (insert_miss h.pos hx' hfirst),
      h.keys]
  · show (s.size + 1) % sizeMod = _
    rw [hsize, Set.ncard_insert_of_notMem hx h.finite, h.size]

/-- An insertion of a new key that does not grow the table. -/
theorem HtRep.place_new (h : HtRep env.mem s K) (hright : ProbeRight env s e)
    (he : Readable env.mem e) (hkey : htVacant < e.key) (hun : HasUnused s)
    (hx : keyOf env.mem e ∉ K) :
    ∃ k, StopsAt env true e s k ∧
      Total (htPlace env e) (fun r s' =>
        r = some (htWay env.mem s e k) ∧
        s' = s.put (htWay env.mem s e k) e ∧
        HtRep env.mem s' (insert (keyOf env.mem e) K)) s := by
  obtain ⟨k, hk⟩ := hun.firstAt env true e
  have hfree := insert_miss h.pos (by rw [h.keys]; exact hx) (h.firstAt hright he hk)
  refine ⟨k, hk, (htPlace_spec h.pos h.live he hk).mono ?_⟩
  rintro r s' (⟨-, rfl, rfl⟩ | ⟨hv, -⟩)
  · exact ⟨rfl, rfl, h.put hright he hkey hx hk⟩
  · exact absurd (isFull_cellOf.mp hfree) hv

/-- An insertion of a stored key that does not grow the table. -/
theorem HtRep.place_stored (h : HtRep env.mem s K) (hright : ProbeRight env s e)
    (he : Readable env.mem e) (hx : keyOf env.mem e ∈ K)
    (hk : StopsAt env true e s k)
    (hmark : (s.storage (htWay env.mem s e k)).status ≠ htVacant) :
    Total (htPlace env e) (fun r s' => r = none ∧ s' = s) s := by
  have hfirst := h.firstAt hright he hk
  have hcell : cells env.mem s (htWay env.mem s e k) =
      .full (keyOf env.mem e) := by
    refine h.probed.insert_hit (by rw [h.keys]; exact hx) (fun hrem => hmark ?_) hfirst
    rcases status_cases (s.storage (htWay env.mem s e k)) with
      h0 | h1 | h2
    · exact absurd ((cellOf_unused h0).symm.trans hrem) (by simp)
    · exact h1
    · exact absurd ((cellOf_live h2).symm.trans hrem) (by simp)
  have hlive := (live_of_cellOf hcell).1
  refine (htPlace_spec h.pos h.live he hk).mono ?_
  rintro r s' (⟨hv, -⟩ | ⟨-, hr⟩)
  · omega
  · exact hr

/-! ### Growing -/

theorem htShouldExpand_iff (hsize : s.size < 2 ^ 60) :
    htShouldExpand s = true ↔ s.capacity < 2 * (s.size + 1) := by
  have hmod : (s.size + 1) % sizeMod = s.size + 1 := by
    refine Nat.mod_eq_of_lt ?_
    simp only [sizeMod]
    omega
  rw [htShouldExpand, hmod, decide_eq_true_eq, Nat.shiftRight_eq_div_pow]
  omega

theorem NoVacant.put (h : NoVacant s) (he : e.status ≠ htVacant) (idx : ℕ) :
    NoVacant (s.put idx e) := by
  intro i hi
  by_cases hii : i = idx
  · subst hii
    rw [show (s.put i e).storage i = e from Function.update_self ..]
    exact he
  · rw [show (s.put idx e).storage i = s.storage i from Function.update_of_ne hii ..]
    exact h i hi

/-- The table of `cldm_ht_expand` before the old entries are inserted. -/
def htFresh (cap : ℕ) : Ht := ⟨fun _ => ⟨0, 0⟩, 0, cap⟩

theorem htRep_of_unused (hpos : 0 < s.capacity) (hlt : s.capacity < 2 ^ 60) (hsize : s.size = 0)
    (h : ∀ i < s.capacity, (s.storage i).status = 0) : HtRep mem s ∅ := by
  have hempty : ∀ i < s.capacity, cells mem s i = .empty := fun i hi => cellOf_unused (h i hi)
  refine ⟨hpos, hlt, ?_, probed_empty hempty, keys_empty hempty, ?_⟩
  · intro i hi hlive
    rw [h i hi] at hlive
    exact absurd hlive (by simp)
  · rw [hsize, Set.ncard_empty]

/-- `cldm_memcmp` tells the keys `xs` apart while they are stored one after the other
in an empty table. -/
def RefillRight (memcmp : List UInt8 → List UInt8 → ℤ) (cap : ℕ) (xs : List (List UInt8)) : Prop :=
  ∀ ys x zs cell, xs = ys ++ x :: zs → Refilled hashOf cap ys cell → Tells memcmp cap cell x

section Rehash

variable {data : ℕ → HtEntry} {prev cap i : ℕ} {calloc : ℕ → Bool}

/-- The keys of the old slots below `i`. -/
abbrev dataKeys (mem : Mem) (data : ℕ → HtEntry) (i : ℕ) : Set (List UInt8) :=
  Probing.keys i (cellOf mem ∘ data)

/-- The same keys, in the order of the slots. -/
abbrev dataStored (mem : Mem) (data : ℕ → HtEntry) (i : ℕ) : List (List UInt8) :=
  stored (cellOf mem ∘ data) i

/-- An invariant of the turns of a rehash: a slot is inserted unless it is unused. -/
theorem total_htRehash (insert : ℕ → HtEntry → Prog Ht (Option ℕ)) (I : ℕ → Ht → Prop)
    (hprev : prev < 2 ^ 32)
    (skip : ∀ i < prev, ∀ s, I i s → (data i).status = 0 → I (i + 1) s)
    (step : ∀ i < prev, ∀ s, I i s → (data i).status ≠ 0 →
      Total (fun n => insert n (data i)) (fun _ s' => I (i + 1) s') s) (h : I 0 s) :
    Total (fun n => htRehash (insert n) data prev n) (fun _ s' => I prev s') s := by
  let J : ℕ → ℕ → Ht → Prop := fun b i s' => i ≤ prev ∧ b = prev - i ∧ I i s'
  have turn : ∀ b i s', J b i s' → Total (fun n => htRehashBody (insert n) data prev i)
      (fun r s'' => Sum.elim (fun i' => ∃ b' < b, J b' i' s'') (fun _ => I prev s'') r) s' := by
    rintro b i s' ⟨hi, rfl, hI⟩
    by_cases hlt : i < prev
    · have hmod : (i + 1) % 2 ^ 32 = i + 1 := Nat.mod_eq_of_lt (by omega)
      by_cases h0 : (data i).status = 0
      · have hbody : (fun n => htRehashBody (insert n) data prev i) =
            fun _ => pure (.inl (i + 1)) := by
          funext n
          rw [htRehashBody, if_pos hlt, if_neg (not_not_intro h0), hmod]
        rw [hbody]
        exact Total.const ((wp_pure ..).mpr
          ⟨prev - (i + 1), by omega, by omega, rfl, skip i hlt s' hI h0⟩)
      · have hbody : (fun n => htRehashBody (insert n) data prev i) =
            fun n => insert n (data i) >>= fun _ => pure (.inl (i + 1)) := by
          funext n
          rw [htRehashBody, if_pos hlt, if_pos h0, hmod]
        rw [hbody]
        refine ((step i hlt s' hI h0).mono ?_).bind
        intro r s'' hI'
        exact Total.const ((wp_pure ..).mpr ⟨prev - (i + 1), by omega, by omega, rfl, hI'⟩)
    · obtain rfl : i = prev := by omega
      have hbody : (fun n => htRehashBody (insert n) data i i) = fun _ => pure (.inr ()) := by
        funext n
        rw [htRehashBody, if_neg hlt]
      rw [hbody]
      exact Total.const ((wp_pure ..).mpr hI)
  exact total_loop turn prev 0 s ⟨Nat.zero_le _, rfl, h⟩

/-- In a table of `i` keys that a growth fills, there is room for another one. -/
theorem HtRep.room (h : HtRep mem s (dataKeys mem data i)) (hcap : 2 * prev < s.capacity)
    (hi : i < prev) (hno : NoVacant s) : htShouldExpand s = false ∧ HasUnused s := by
  have hsize : s.size ≤ i := by
    rw [h.size]
    exact (ncard_keys_le i (cellOf mem ∘ data)).2.trans (count_le ..)
  have hlt := h.lt
  constructor
  · rw [← Bool.not_eq_true, htShouldExpand_iff (by omega)]
    omega
  · exact h.hasUnused hno (by omega)

/-- A table of a growth after `i` turns, in which no old key is stored twice. -/
structure Rehashed (mem : Mem) (data : ℕ → HtEntry) (cap i : ℕ) (s : Ht) : Prop where
  rep : HtRep mem s (dataKeys mem data i)
  capacity : s.capacity = cap
  noVacant : NoVacant s
  refilled : Refilled hashOf cap (dataStored mem data i) (cells mem s)

theorem htFresh_rep (hpos : 0 < cap) (hcap : cap < 2 ^ 60) :
    HtRep mem (htFresh cap) (dataKeys mem data 0) := by
  rw [dataKeys, keys_empty fun i hi => absurd hi (Nat.not_lt_zero i)]
  exact htRep_of_unused hpos hcap rfl fun _ _ => rfl

/-- The rehash moves all slots. -/
theorem htRehash_spec (hright : RefillRight env.memcmp cap (dataStored env.mem data prev))
    (hprev : prev < 2 ^ 32) (hcap : 2 * prev < cap) (hcap' : cap < 2 ^ 60)
    (hread : ∀ j < prev, htVacant < (data j).status → Readable env.mem (data j))
    (hno : ∀ j < prev, (data j).status ≠ htVacant)
    (huniq : ∀ j < prev, ∀ l < prev, ∀ x, (cellOf env.mem ∘ data) j = .full x →
      (cellOf env.mem ∘ data) l = .full x → j = l) :
    Total (fun n => htRehash (htInsert env calloc n) data prev n)
      (fun _ s' => Rehashed env.mem data cap prev s') (htFresh cap) := by
  refine total_htRehash (htInsert env calloc) (Rehashed env.mem data cap) hprev ?_ ?_
    ⟨htFresh_rep (by omega) hcap', rfl, fun _ _ => Nat.zero_ne_one, ?_⟩
  · rintro i - s ⟨hrep, hscap, hsno, hrefill⟩ h0
    have hfree : ((cellOf env.mem ∘ data) i).isFull = false :=
      isFull_cellOf.mpr (by rw [h0]; exact Nat.zero_le _)
    have hkeys : dataKeys env.mem data (i + 1) = dataKeys env.mem data i := keys_succ_free hfree
    refine ⟨by rw [hkeys]; exact hrep, hscap, hsno, ?_⟩
    rw [dataStored, stored_succ_free hfree]
    exact hrefill
  · rintro i hi s ⟨hrep, hscap, hsno, hrefill⟩ h0
    have hlive : htVacant < (data i).status := by
      have := hno i hi
      simp only [htVacant] at this ⊢
      omega
    have hcell : (cellOf env.mem ∘ data) i = .full (keyOf env.mem (data i)) := cellOf_live hlive
    have hkeys : dataKeys env.mem data (i + 1) =
        insert (keyOf env.mem (data i)) (dataKeys env.mem data i) := keys_succ_full hcell
    have hnew : keyOf env.mem (data i) ∉ dataKeys env.mem data i := by
      rintro ⟨j, hj, hjx⟩
      have := huniq j (by omega) i hi _ hjx hcell
      omega
    obtain ⟨hexp, hun⟩ := hrep.room (by omega) hi hsno
    obtain ⟨zs, hsplit⟩ := stored_split hi hcell
    have htells : ProbeRight env s (data i) := by
      rw [ProbeRight, hscap]
      exact hright _ _ zs _ hsplit hrefill
    obtain ⟨k, hk, hplace⟩ := hrep.place_new htells (hread i hi hlive) hlive hun hnew
    have hfirst := hrep.firstAt htells (hread i hi hlive) hk
    rw [hscap] at hfirst
    refine (total_htInsert_of_not_expand hexp hplace).mono ?_
    rintro r s' ⟨-, rfl, hrep'⟩
    refine ⟨by rw [hkeys]; exact hrep', hscap, hsno.put (by omega) _, ?_⟩
    rw [cells_put, htWay, hscap, cellOf_live hlive, dataStored, stored_succ_full hcell]
    exact hrefill.snoc hfirst
  · have hcells : cells env.mem (htFresh cap) = fun _ => .empty := rfl
    rw [hcells]
    exact .nil

end Rehash

/-- The comparisons of a growth are right, and after it those of a probe for `x`. -/
def GrowthRight (env : HtEnv) (s : Ht) (x : List UInt8) : Prop :=
  ∀ cap, Returns (htSizeup s.capacity) s cap s →
    RefillRight env.memcmp cap (stored (cells env.mem s) s.capacity ++ [x])

theorem RefillRight.left {memcmp : List UInt8 → List UInt8 → ℤ} {cap : ℕ}
    {xs xs' : List (List UInt8)} (h : RefillRight memcmp cap (xs ++ xs')) :
    RefillRight memcmp cap xs := by
  rintro ys x zs cell rfl hcell
  exact h ys x (zs ++ xs') cell (by rw [List.append_assoc, List.cons_append]) hcell

/-- A growth whose allocation succeeds inserts the old entries into an empty storage. -/
theorem total_htExpand (insert : ℕ → HtEntry → Prog Ht (Option ℕ)) (calloc : ℕ → Bool)
    {Q : Ht → Prop} (hpos : 0 < s.capacity) (hprev : s.capacity < 2 ^ 32)
    (hcalloc : ∀ cap, Returns (htSizeup s.capacity) s cap s → calloc cap = true)
    (hre : ∀ cap, Returns (htSizeup s.capacity) s cap s → 2 * s.capacity < cap → cap < 2 ^ 60 →
      Total (fun n => htRehash (insert n) s.storage s.capacity n) (fun _ s' => Q s')
        (htFresh cap)) :
    Total (fun n => htExpand (insert n) calloc n) (fun b s' => b = true ∧ Q s') s := by
  refine Total.wp_bind ((wp_get ..).mpr
    (((htSizeup_spec hpos (by omega) s).with_returns.mono ?_).bind))
  rintro cap s₁ ⟨hret, rfl, hlo, hhi⟩
  have halloc : (cap * htEntrySize < sizeMod && calloc cap) = true := by
    rw [hcalloc cap hret, Bool.and_true, decide_eq_true_eq]
    simp only [htEntrySize, sizeMod]
    omega
  have hbody : (fun n => if (cap * htEntrySize < sizeMod && calloc cap) = true then do
        set (⟨fun _ => ⟨0, 0⟩, 0, cap⟩ : Ht)
        htRehash (insert n) s₁.storage s₁.capacity n
        return true
      else return false) = fun n => set (htFresh cap) >>= fun _ =>
        htRehash (insert n) s₁.storage s₁.capacity n >>= fun _ => pure true := by
    funext n
    rw [if_pos halloc]
    rfl
  rw [hbody]
  refine Total.wp_bind ((wp_set ..).mpr (((hre cap hret hlo (by omega)).mono ?_).bind))
  intro _ s' hQ
  exact Total.const ((wp_pure ..).mpr ⟨rfl, hQ⟩)

/-- A growth keeps the keys. -/
theorem HtRep.expand (h : HtRep env.mem s K) {x : List UInt8} (hright : GrowthRight env s x)
    (hprev : s.capacity < 2 ^ 32) (hno : NoVacant s) {calloc : ℕ → Bool}
    (hcalloc : ∀ n, calloc n = true) :
    Total (fun n => htExpand (htInsert env calloc n) calloc n) (fun b s' =>
      b = true ∧ HtRep env.mem s' K ∧ 2 * s.capacity < s'.capacity ∧ NoVacant s' ∧
        Tells env.memcmp s'.capacity (cells env.mem s') x) s := by
  refine total_htExpand (htInsert env calloc) calloc h.pos hprev (fun cap _ => hcalloc cap)
    fun cap hret hlo hhi => ?_
  refine (htRehash_spec (hright cap hret).left hprev hlo hhi h.live hno h.probed.unique).mono ?_
  rintro _ s' ⟨hrep, hcap, hno', hrefill⟩
  rw [dataKeys, show cellOf env.mem ∘ s.storage = cells env.mem s from rfl, h.keys] at hrep
  refine ⟨hrep, by rw [hcap]; exact hlo, hno', ?_⟩
  rw [hcap]
  exact hright cap hret _ x [] _ rfl hrefill

/-! ### What an insertion needs -/

/-- Two slots were never used. -/
def HasTwoUnused (s : Ht) : Prop :=
  ∃ i < s.capacity, ∃ j < s.capacity, i ≠ j ∧ (s.storage i).status = 0 ∧ (s.storage j).status = 0

/-- Storing `e` does not use up the last unused slot: there are two of them, or a
vacant slot or one that matches comes before the first, or `e` has no address. -/
def LeavesUnused (env : HtEnv) (s : Ht) (e : HtEntry) : Prop :=
  e.key = 0 ∨ HasTwoUnused s ∨
    ∃ k, ((s.storage (htWay env.mem s e k)).status = htVacant ∨
        htVacant < (s.storage (htWay env.mem s e k)).status ∧
          Matches env (s.storage (htWay env.mem s e k)) e) ∧
      ∀ j < k, (s.storage (htWay env.mem s e j)).status ≠ 0

/-- A live slot holds a key with the size and the bytes of that of `e`. -/
def Present (mem : Mem) (s : Ht) (e : HtEntry) : Prop :=
  ∃ i < s.capacity, htVacant < (s.storage i).status ∧ (s.storage i).size = e.size ∧
    keyOf mem (s.storage i) = keyOf mem e

/-- On the way of a probe for `e`, only live slots come before its key. -/
def KeyFirst (mem : Mem) (s : Ht) (e : HtEntry) : Prop :=
  ∃ k, (htVacant < (s.storage (htWay mem s e k)).status ∧
      keyOf mem (s.storage (htWay mem s e k)) = keyOf mem e) ∧
    ∀ j < k, htVacant < (s.storage (htWay mem s e j)).status

/-- What an insertion needs: a table that has to grow has no vacant slot and a
capacity that an `unsigned` can count to; in any other, an unused slot is left
and no vacant slot comes before the key if it is present. -/
def InsertSafe (env : HtEnv) (s : Ht) (e : HtEntry) : Prop :=
  if htShouldExpand s then s.capacity < 2 ^ 32 ∧ NoVacant s
  else LeavesUnused env s e ∧ (Present env.mem s e → KeyFirst env.mem s e)

theorem HtRep.present_iff (h : HtRep mem s K) (he : Readable mem e) :
    Present mem s e ↔ keyOf mem e ∈ K := by
  rw [← h.keys]
  constructor
  · rintro ⟨i, hi, hlive, -, hkey⟩
    exact ⟨i, hi, by rw [← hkey]; exact cellOf_live hlive⟩
  · rintro ⟨i, hi, hcell⟩
    obtain ⟨hlive, hkey⟩ := live_of_cellOf hcell
    refine ⟨i, hi, hlive, ?_, hkey⟩
    rw [← (h.live i hi hlive).length_keyOf, hkey, he.length_keyOf]

theorem HasUnused.put_of_ne (hun : HasUnused s) {idx : ℕ}
    (hidx : (s.storage idx).status ≠ 0) (e : HtEntry) : HasUnused (s.put idx e) := by
  obtain ⟨i, hi, h0⟩ := hun
  have hne : i ≠ idx := by
    rintro rfl
    exact hidx h0
  exact ⟨i, hi, by rw [← h0]; exact congrArg HtEntry.status (Function.update_of_ne hne ..)⟩

/-- Under its condition, an insertion leaves an unused slot. -/
theorem LeavesUnused.put (h : LeavesUnused env s e) (hun : HasUnused s)
    (hk : StopsAt env true e s k) (hfree : (s.storage (htWay env.mem s e k)).status ≤ htVacant) :
    HasUnused (s.put (htWay env.mem s e k) e) := by
  rcases h with hnull | ⟨i, hi, j, hj, hij, hi0, hj0⟩ | ⟨k', hk', hbefore⟩
  · refine ⟨htWay env.mem s e k, slotAt_lt hun.pos, ?_⟩
    rw [show (s.put (htWay env.mem s e k) e).storage (htWay env.mem s e k) = e from
      Function.update_self ..]
    exact hnull
  · by_cases hik : i = htWay env.mem s e k
    · have hjk : j ≠ htWay env.mem s e k := fun hjk => hij (hik.trans hjk.symm)
      exact ⟨j, hj, by rw [← hj0]; exact congrArg HtEntry.status (Function.update_of_ne hjk ..)⟩
    · exact ⟨i, hi, by rw [← hi0]; exact congrArg HtEntry.status (Function.update_of_ne hik ..)⟩
  · -- the probe stops at the latest where the condition says
    have hle : k ≤ k' := by
      by_contra hlt
      refine hk.2 k' (by omega) ?_
      rcases hk' with h1 | h2
      · exact .inr (.inl ⟨h1, rfl⟩)
      · exact .inr (.inr h2)
    refine hun.put_of_ne ?_ e
    rcases Nat.lt_or_ge k k' with hlt | hge
    · exact hbefore k hlt
    · obtain rfl : k = k' := by omega
      rcases hk' with h1 | ⟨h2, -⟩
      · rw [h1]
        exact Nat.one_ne_zero
      · omega

theorem KeyFirst.not_vacant (h : KeyFirst env.mem s e) (hright : ProbeRight env s e)
    (hcap : 0 < s.capacity) (hlive : LiveReadable env.mem s) (he : Readable env.mem e)
    (hk : StopsAt env true e s k) : (s.storage (htWay env.mem s e k)).status ≠ htVacant := by
  obtain ⟨k', ⟨hlive', hkey⟩, hbefore⟩ := h
  have hle : k ≤ k' := by
    by_contra hlt
    refine hk.2 k' (by omega) (.inr (.inr ⟨hlive', ?_⟩))
    exact (matches_iff hright.1 (hlive _ (slotAt_lt hcap) hlive') he fun _ _ => hkey).mpr hkey
  rcases Nat.lt_or_ge k k' with hlt | hge
  · have := hbefore k hlt
    omega
  · obtain rfl : k = k' := by omega
    omega

/-! ### The operations -/

theorem htInit_inv : HtInv mem htInit ∅ where
  toHtRep := htRep_of_unused (by decide) (by decide) rfl fun _ _ => rfl
  unused := ⟨0, by decide, rfl⟩

/-- An insertion into a table that has to grow. -/
theorem HtInv.insert_expand (h : HtInv env.mem s K) (hright : GrowthRight env s (keyOf env.mem e))
    (he : Readable env.mem e) (hkey : htVacant < e.key) (hexp : htShouldExpand s = true)
    (hprev : s.capacity < 2 ^ 32) (hno : NoVacant s) {calloc : ℕ → Bool}
    (hcalloc : ∀ n, calloc n = true) :
    Total (fun n => htInsert env calloc n e) (fun r s' =>
      (r = none ↔ keyOf env.mem e ∈ K) ∧ HtInv env.mem s' (insert (keyOf env.mem e) K)) s := by
  refine Total.succ ?_
  have hbody : Total (fun n => htExpand (htInsert env calloc n) calloc n >>= fun b =>
        if b = true then htPlace env e n else pure none)
      (fun r s' => (r = none ↔ keyOf env.mem e ∈ K) ∧
        HtInv env.mem s' (insert (keyOf env.mem e) K)) s := by
    refine ((h.toHtRep.expand hright hprev hno hcalloc).mono ?_).bind
    rintro b s₁ ⟨rfl, hrep, hgrown, hno₁, htells⟩
    have hsize : s₁.size ≤ s.capacity := by
      rw [hrep.size, ← h.size]
      exact h.size_le
    have hun := hrep.hasUnused hno₁ (by omega)
    simp only [if_true]
    by_cases hx : keyOf env.mem e ∈ K
    · obtain ⟨k, hk⟩ := hun.firstAt env true e
      refine (hrep.place_stored htells he hx hk (hno₁ _ (slotAt_lt hrep.pos))).mono ?_
      rintro r s' ⟨rfl, rfl⟩
      rw [Set.insert_eq_of_mem hx]
      exact ⟨iff_of_true rfl hx, hrep, hun⟩
    · obtain ⟨k, hk, hplace⟩ := hrep.place_new htells he hkey hun hx
      refine hplace.mono ?_
      rintro r s' ⟨rfl, rfl, hrep'⟩
      refine ⟨iff_of_false (by simp) hx, hrep', hrep'.hasUnused (hno₁.put (ne_of_gt hkey) _) ?_⟩
      rw [hrep'.size, Set.ncard_insert_of_notMem hx h.finite, ← hrep.size]
      have := h.pos
      simp only [Ht.put_capacity]
      omega
  obtain ⟨r, s', ⟨j, hret⟩, hQ⟩ := hbody
  exact ⟨r, s', ⟨j, fun n hn => (htInsert_of_expand hexp).trans (hret n hn)⟩, hQ⟩

/-- The comparisons of an insertion are right. -/
def InsertRight (env : HtEnv) (s : Ht) (e : HtEntry) : Prop :=
  if htShouldExpand s then GrowthRight env s (keyOf env.mem e) else ProbeRight env s e

theorem MemcmpExact.growthRight (hexact : MemcmpExact env) (s : Ht) (x : List UInt8) :
    GrowthRight env s x := fun cap _ _ y _ cell _ _ => hexact.tells cap cell y

/-- Whether the comparisons of an insertion are right depends on the bytes of the keys. -/
theorem InsertRight.congr {memcmp : List UInt8 → List UInt8 → ℤ} {mem' : Mem} {e' : HtEntry}
    (h : InsertRight ⟨mem, memcmp⟩ s e) (hcells : cells mem' s = cells mem s)
    (hkey : keyOf mem' e' = keyOf mem e) : InsertRight ⟨mem', memcmp⟩ s e' := by
  simp only [InsertRight, GrowthRight, ProbeRight, hcells, hkey] at h ⊢
  exact h

theorem MemcmpExact.insertRight (hexact : MemcmpExact env) (s : Ht) (e : HtEntry) :
    InsertRight env s e := by
  rw [InsertRight]
  split_ifs
  · exact hexact.growthRight s _
  · exact hexact.tells ..

/-- Under its condition, `cldm_ht_insert` returns null iff the key is stored, and
stores it. -/
theorem HtInv.insert (h : HtInv env.mem s K) (hright : InsertRight env s e)
    (he : Readable env.mem e) (hkey : htVacant < e.key) (hsafe : InsertSafe env s e)
    {calloc : ℕ → Bool} (hcalloc : ∀ n, calloc n = true) :
    Total (fun n => htInsert env calloc n e) (fun r s' =>
      (r = none ↔ keyOf env.mem e ∈ K) ∧ HtInv env.mem s' (insert (keyOf env.mem e) K)) s := by
  by_cases hexp : htShouldExpand s = true
  · rw [InsertSafe, if_pos hexp] at hsafe
    rw [InsertRight, if_pos hexp] at hright
    exact h.insert_expand hright he hkey hexp hsafe.1 hsafe.2 hcalloc
  · rw [InsertSafe, if_neg hexp] at hsafe
    rw [InsertRight, if_neg hexp] at hright
    obtain ⟨hleaves, hfirst⟩ := hsafe
    refine total_htInsert_of_not_expand (Bool.eq_false_iff.mpr hexp) ?_
    by_cases hx : keyOf env.mem e ∈ K
    · obtain ⟨k, hk⟩ := h.unused.firstAt env true e
      have hmark := (hfirst ((h.present_iff he).mpr hx)).not_vacant hright h.pos h.live he hk
      refine (h.place_stored hright he hx hk hmark).mono ?_
      rintro r s' ⟨rfl, rfl⟩
      rw [Set.insert_eq_of_mem hx]
      exact ⟨iff_of_true rfl hx, h⟩
    · obtain ⟨k, hk, hplace⟩ := h.place_new hright he hkey h.unused hx
      have hfree : (s.storage (htWay env.mem s e k)).status ≤ htVacant :=
        isFull_cellOf.mp (insert_miss h.pos (by rw [h.keys]; exact hx) (h.firstAt hright he hk))
      refine hplace.mono ?_
      rintro r s' ⟨rfl, rfl, hrep'⟩
      exact ⟨iff_of_false (by simp) hx, hrep', hleaves.put h.unused hk hfree⟩

/-- The slot that a search for `e` finds. -/
theorem HtRep.probe_status (h : HtRep env.mem s K) (hright : ProbeRight env s e)
    (he : Readable env.mem e) (hk : StopsAt env false e s k) :
    (keyOf env.mem e ∈ K → htVacant < (s.storage (htWay env.mem s e k)).status ∧
      keyOf env.mem (s.storage (htWay env.mem s e k)) = keyOf env.mem e) ∧
    (keyOf env.mem e ∉ K → (s.storage (htWay env.mem s e k)).status ≤ htVacant) := by
  have hfirst := h.firstAt hright he hk
  constructor
  · intro hx
    exact live_of_cellOf (h.probed.find_hit (by rw [h.keys]; exact hx) hfirst)
  · intro hx
    have hempty := find_miss h.pos (by rw [h.keys]; exact hx) hfirst
    refine isFull_cellOf.mp (?_ : (cellOf env.mem (s.storage (htWay env.mem s e k))).isFull = false)
    rw [show cellOf env.mem (s.storage (htWay env.mem s e k)) = .empty from hempty]
    rfl

/-- `cldm_ht_find` returns a slot with the key, or null iff it is not stored. -/
theorem HtInv.find (h : HtInv env.mem s K) (hright : ProbeRight env s e)
    (he : Readable env.mem e) :
    Total (htFind env e) (fun r s' => s' = s ∧ (r = none ↔ keyOf env.mem e ∉ K) ∧
      ∀ idx, r = some idx → idx < s.capacity ∧ htVacant < (s.storage idx).status ∧
        keyOf env.mem (s.storage idx) = keyOf env.mem e) s := by
  obtain ⟨k, hk⟩ := h.unused.firstAt env false e
  obtain ⟨hhit, hmiss⟩ := h.probe_status hright he hk
  refine ((htProbe_spec h.pos h.live he hk).mono ?_).bind
  rintro idx s' ⟨rfl, rfl⟩
  refine Total.const ((wp_bind ..).mpr ((wp_get ..).mpr ((wp_pure ..).mpr ⟨rfl, ?_⟩)))
  by_cases hx : keyOf env.mem e ∈ K
  · obtain ⟨hlive, hkey⟩ := hhit hx
    rw [if_neg (fun hv => absurd (htSlotVacant_iff.mp hv) (by omega))]
    refine ⟨iff_of_false (by simp) (not_not_intro hx), fun idx hidx => ?_⟩
    obtain rfl := Option.some.inj hidx
    exact ⟨slotAt_lt h.pos, hlive, hkey⟩
  · rw [if_pos (htSlotVacant_iff.mpr (hmiss hx))]
    exact ⟨iff_of_true rfl hx, fun idx hidx => absurd hidx (by simp)⟩

/-- The table after marking slot `idx` as vacant. -/
def Ht.drop (s : Ht) (idx : ℕ) : Ht :=
  { s with
    storage := Function.update s.storage idx { s.storage idx with key := htVacant }
    size := (s.size + (sizeMod - 1)) % sizeMod }

theorem htRemove_spec (hcap : 0 < s.capacity) (hlive : LiveReadable env.mem s)
    (he : Readable env.mem e) (hk : StopsAt env false e s k) :
    Total (htRemove env e) (fun b s' =>
      (s.storage (htWay env.mem s e k)).status ≤ htVacant ∧ b = false ∧ s' = s ∨
      ¬ (s.storage (htWay env.mem s e k)).status ≤ htVacant ∧
        b = true ∧ s' = s.drop (htWay env.mem s e k)) s := by
  refine ((htProbe_spec hcap hlive he hk).mono ?_).bind
  rintro idx s₁ ⟨rfl, rfl⟩
  refine Total.const ((wp_bind ..).mpr ((wp_get ..).mpr ((wp_ite ..).mpr ?_)))
  by_cases hv : (s₁.storage (htWay env.mem s₁ e k)).status ≤ htVacant
  · rw [if_pos (htSlotVacant_iff.mpr hv)]
    exact (wp_pure ..).mpr (.inl ⟨hv, rfl, rfl⟩)
  · rw [if_neg (fun h => hv (htSlotVacant_iff.mp h))]
    exact (wp_bind ..).mpr ((wp_set ..).mpr ((wp_pure ..).mpr (.inr ⟨hv, rfl, rfl⟩)))

theorem LiveReadable.drop (h : LiveReadable mem s) (idx : ℕ) : LiveReadable mem (s.drop idx) := by
  intro i hi hlive
  by_cases hii : i = idx
  · subst hii
    rw [show (s.drop i).storage i = { s.storage i with key := htVacant } from
      Function.update_self ..] at hlive
    exact absurd hlive (by simp [HtEntry.status])
  · rw [show (s.drop idx).storage i = s.storage i from Function.update_of_ne hii ..] at hlive ⊢
    exact h i hi hlive

theorem HasUnused.drop (hun : HasUnused s) {idx : ℕ}
    (hidx : htVacant < (s.storage idx).status) : HasUnused (s.drop idx) := by
  obtain ⟨i, hi, h0⟩ := hun
  have hne : i ≠ idx := by
    rintro rfl
    omega
  exact ⟨i, hi, by rw [← h0]; exact congrArg HtEntry.status (Function.update_of_ne hne ..)⟩

theorem HtRep.drop (h : HtRep mem s K) {idx : ℕ} (hidx : idx < s.capacity)
    (hlive : htVacant < (s.storage idx).status) :
    HtRep mem (s.drop idx) (K \ {keyOf mem (s.storage idx)}) := by
  have hcells : cells mem (s.drop idx) = Function.update (cells mem s) idx .removed := by
    have hmark : cellOf mem { s.storage idx with key := htVacant } = .removed := cellOf_vacant rfl
    rw [← hmark]
    exact Function.comp_update ..
  have hcell : cells mem s idx = .full (keyOf mem (s.storage idx)) := cellOf_live hlive
  have hmem : keyOf mem (s.storage idx) ∈ K := by
    rw [← h.keys]
    exact ⟨idx, hidx, hcell⟩
  refine ⟨h.pos, h.lt, h.live.drop idx, ?_, ?_, ?_⟩
  · rw [hcells]
    exact h.probed.remove idx
  · rw [hcells, ← h.keys]
    exact h.probed.keys_remove hidx hcell
  · have hcard := Set.ncard_sdiff_singleton_add_one hmem h.finite
    rw [← h.size] at hcard
    have := h.size_le
    have := h.lt
    show (s.size + (sizeMod - 1)) % sizeMod = _
    simp only [sizeMod]
    omega

/-- `cldm_ht_remove` returns true iff the key is stored, and removes it. -/
theorem HtInv.remove (h : HtInv env.mem s K) (hright : ProbeRight env s e)
    (he : Readable env.mem e) :
    Total (htRemove env e) (fun b s' =>
      (b = true ↔ keyOf env.mem e ∈ K) ∧ HtInv env.mem s' (K \ {keyOf env.mem e})) s := by
  obtain ⟨k, hk⟩ := h.unused.firstAt env false e
  obtain ⟨hhit, hmiss⟩ := h.probe_status hright he hk
  refine (htRemove_spec h.pos h.live he hk).mono ?_
  rintro b s' (⟨hv, rfl, rfl⟩ | ⟨hv, rfl, rfl⟩)
  · have hx : keyOf env.mem e ∉ K := by
      intro hx
      have := (hhit hx).1
      omega
    rw [Set.sdiff_singleton_eq_self hx]
    exact ⟨iff_of_false (by simp) hx, h⟩
  · have hx : keyOf env.mem e ∈ K := by
      by_contra hx
      exact hv (hmiss hx)
    obtain ⟨hlive, hkey⟩ := hhit hx
    have hrep := h.toHtRep.drop (slotAt_lt h.pos) hlive
    rw [hkey] at hrep
    exact ⟨iff_of_true rfl hx, hrep, h.unused.drop hlive⟩

/-- `cldm_ht_clear` removes all keys. -/
theorem HtInv.clear (h : HtInv mem s K) :
    wp htClear (fun _ s' => HtInv mem s' ∅) s := by
  refine (wp_bind ..).mpr ((wp_get ..).mpr ((wp_set ..).mpr ?_))
  have hzero : ∀ i < s.capacity,
      (if i < s.capacity then (⟨0, 0⟩ : HtEntry) else s.storage i).status = 0 := by
    intro i hi
    rw [if_pos hi]
    rfl
  exact ⟨htRep_of_unused h.pos h.lt rfl hzero, ⟨0, h.pos, hzero 0 h.pos⟩⟩

/-- A key lies in one live slot only. -/
theorem HtRep.unique (h : HtRep mem s K) {i j : ℕ} (hi : i < s.capacity) (hj : j < s.capacity)
    (hli : htVacant < (s.storage i).status) (hlj : htVacant < (s.storage j).status)
    (heq : keyOf mem (s.storage i) = keyOf mem (s.storage j)) : i = j := by
  refine h.probed.unique i hi j hj (keyOf mem (s.storage i)) (cellOf_live hli) ?_
  rw [heq]
  exact cellOf_live hlj

end Cldm
