/-
The hash table of `cldm_hash.h` and `cldm_hash.c`.

A slot is a `union cldm_ht_internal_entry`, whose `status` overlays the `key` of
its entry: 0 is a slot that was never used, 1 (`CLDM_HASH_VACANT`) one whose
entry was removed.  The inline and the heap storage are one function from
indices to slots, since a growth takes the old storage out of the union before
it installs the new one.  Reading through a bad key pointer is a fault.

* `htProbe`, `htExpand`, `htInsert`, `htFind`, `htRemove`, `htClear` — the
  functions of the source;
* `htProbe_spec` — a probe returns the first slot on its way that stops it;
* `htProbe_total` — a probe returns whenever some slot was never used;
* `htSizeup_spec` — a new capacity is more than twice the old one.
-/
import Cldm.Algo
import Cldm.Bytes
import Cldm.Probing
import Mathlib.NumberTheory.Bertrand

namespace Cldm

open Prog Probing Bytes

/-- `struct cldm_ht_entry`, and `union cldm_ht_internal_entry`. -/
structure HtEntry where
  key : ℕ
  size : ℕ
  deriving DecidableEq, Repr

/-- The other member of `union cldm_ht_internal_entry`. -/
def HtEntry.status (slot : HtEntry) : ℕ := slot.key

/-- `struct cldm_ht`. -/
structure Ht where
  storage : ℕ → HtEntry
  size : ℕ
  capacity : ℕ

/-- What the table uses of its surroundings: the memory behind the key pointers,
and `cldm_memcmp` on the bytes that it is given. -/
structure HtEnv where
  mem : Mem
  memcmp : List UInt8 → List UInt8 → ℤ

/-- `CLDM_HASH_VACANT`. -/
abbrev htVacant : ℕ := 1

/-- `CLDM_HASH_STATIC_SIZE`. -/
abbrev htStaticSize : ℕ := 31

/-- `sizeof(union cldm_ht_internal_entry)`. -/
abbrev htEntrySize : ℕ := 16

/-- `cldm_ht_init`. -/
def htInit : Ht := ⟨fun _ => ⟨0, 0⟩, 0, htStaticSize⟩

section Definitions

variable {σ : Type}

/-- One turn of the loop of `cldm_hash_fnv1a`. -/
def fnv1aStep (hash : ℕ) (b : UInt8) : ℕ :=
  (hash ^^^ b.toNat) * 0x100000001b3 % 2 ^ 64

/-- `cldm_hash_fnv1a`; `cldm_for_each` counts up to `(unsigned)size`. -/
def hashFnv1a (mem : Mem) (data size : ℕ) : Prog σ ℕ := do
  let bytes ← readBytes mem data (size % 2 ^ 32)
  return bytes.foldl fnv1aStep 0xcbf29ce484222325

/-- `cldm_hash_entry`. -/
def hashEntry (env : HtEnv) (entry : HtEntry) : Prog σ ℕ :=
  hashFnv1a env.mem entry.key entry.size

/-- `cldm_memcmp(s0, s1, n)`. -/
def cldmMemcmp (env : HtEnv) (s0 s1 n : ℕ) : Prog σ ℤ := do
  let b0 ← readBytes env.mem s0 n
  let b1 ← readBytes env.mem s1 n
  return env.memcmp b0 b1

/-- `cldm_ht_slot_vacant`. -/
def htSlotVacant (slot : HtEntry) : Bool := slot.status ≤ htVacant

/-- `cldm_ht_should_expand`. -/
def htShouldExpand (ht : Ht) : Bool := (ht.size + 1) % sizeMod > ht.capacity >>> 1

/-- The loop of `cldm_ht_sizeup`. -/
def htSizeupBody (fuel current : ℕ) : Prog σ (ℕ ⊕ ℕ) := do
  if ← isPrime current fuel then
    return .inr current
  else
    return .inl ((current + 2) % sizeMod)

/-- `cldm_ht_sizeup`. -/
def htSizeup (current fuel : ℕ) : Prog σ ℕ :=
  fuelLoop (htSizeupBody fuel) fuel ((current <<< 1) % sizeMod ||| 1)

/-- One turn of the loop of `cldm_ht_probe`. -/
def htProbeBody (env : HtEnv) (entry : HtEntry) (reuseVacant : Bool) (idx : ℕ) :
    Prog Ht (ℕ ⊕ ℕ) := do
  let ht ← get
  let slot := ht.storage idx
  let next := (idx + 1) % ht.capacity
  if slot.status = 0 then
    return .inr idx
  else if htSlotVacant slot then
    if reuseVacant then
      return .inr idx
    else
      return .inl next
  else if slot.size = entry.size then
    let diff ← cldmMemcmp env slot.key entry.key entry.size
    return if diff = 0 then .inr idx else .inl next
  else
    return .inl next

/-- `cldm_ht_probe`; the index of the slot. -/
def htProbe (env : HtEnv) (entry : HtEntry) (reuseVacant : Bool) (fuel : ℕ) : Prog Ht ℕ := do
  let ht ← get
  let hash ← hashEntry env entry
  fuelLoop (htProbeBody env entry reuseVacant) fuel (hash % ht.capacity)

/-- One turn of the loops of `cldm_ht_expand`, whose counter is an `unsigned`. -/
def htRehashBody (insert : HtEntry → Prog Ht (Option ℕ)) (data : ℕ → HtEntry)
    (prevCapacity i : ℕ) : Prog Ht (ℕ ⊕ Unit) :=
  if i < prevCapacity then
    if (data i).status ≠ 0 then do
      let _ ← insert (data i)
      return .inl ((i + 1) % 2 ^ 32)
    else
      return .inl ((i + 1) % 2 ^ 32)
  else
    return .inr ()

/-- The loops of `cldm_ht_expand`: insert the old entries into the new storage. -/
def htRehash (insert : HtEntry → Prog Ht (Option ℕ)) (data : ℕ → HtEntry)
    (prevCapacity fuel : ℕ) : Prog Ht Unit :=
  fuelLoop (htRehashBody insert data prevCapacity) fuel 0

/-- `cldm_ht_expand`.  `calloc` says which requests succeed; one whose size in
bytes overflows never does. -/
def htExpand (insert : HtEntry → Prog Ht (Option ℕ)) (calloc : ℕ → Bool) (fuel : ℕ) :
    Prog Ht Bool := do
  let ht ← get
  let newCapacity ← htSizeup ht.capacity fuel
  if newCapacity * htEntrySize < sizeMod && calloc newCapacity then
    set (⟨fun _ => ⟨0, 0⟩, 0, newCapacity⟩ : Ht)
    htRehash insert ht.storage ht.capacity fuel
    return true
  else
    return false

/-- The rest of `cldm_ht_insert`, after the table has grown if it had to. -/
def htPlace (env : HtEnv) (entry : HtEntry) (fuel : ℕ) : Prog Ht (Option ℕ) := do
  let idx ← htProbe env entry true fuel
  let ht ← get
  if htSlotVacant (ht.storage idx) then
    set { ht with
      storage := Function.update ht.storage idx entry
      size := (ht.size + 1) % sizeMod }
    return some idx
  else
    return none

/-- `cldm_ht_insert`; the index of the slot, or `none` for a null pointer. -/
def htInsert (env : HtEnv) (calloc : ℕ → Bool) : ℕ → HtEntry → Prog Ht (Option ℕ)
  | 0, _ => fun _ => none
  | fuel + 1, entry => do
    let ht ← get
    if htShouldExpand ht then
      if ← htExpand (htInsert env calloc fuel) calloc fuel then
        htPlace env entry fuel
      else
        return none
    else
      htPlace env entry fuel

/-- `cldm_ht_find`; the index of the slot, or `none` for a null pointer. -/
def htFind (env : HtEnv) (entry : HtEntry) (fuel : ℕ) : Prog Ht (Option ℕ) := do
  let found ← htProbe env entry false fuel
  let ht ← get
  return if htSlotVacant (ht.storage found) then none else some found

/-- `cldm_ht_remove`.  Storing the status overwrites the key. -/
def htRemove (env : HtEnv) (entry : HtEntry) (fuel : ℕ) : Prog Ht Bool := do
  let idx ← htProbe env entry false fuel
  let ht ← get
  if htSlotVacant (ht.storage idx) then
    return false
  else
    set { ht with
      storage := Function.update ht.storage idx { ht.storage idx with key := htVacant }
      size := (ht.size + (sizeMod - 1)) % sizeMod }
    return true

/-- `cldm_ht_clear`. -/
def htClear : Prog Ht Unit := do
  let ht ← get
  set { ht with
    storage := fun i => if i < ht.capacity then ⟨0, 0⟩ else ht.storage i
    size := 0 }

end Definitions

/-! ### Memory -/

section Memory

variable {σ : Type} {mem : Mem}

/-- All bytes of the key can be read. -/
def Readable (mem : Mem) (e : HtEntry) : Prop :=
  ∃ bs, bytesAt mem e.key e.size = some bs

/-- The bytes of the key. -/
def keyOf (mem : Mem) (e : HtEntry) : List UInt8 :=
  (bytesAt mem e.key e.size).getD []

theorem Readable.bytesAt {e : HtEntry} (h : Readable mem e) :
    bytesAt mem e.key e.size = some (keyOf mem e) := by
  obtain ⟨bs, hbs⟩ := h
  rw [keyOf, hbs, Option.getD_some]

theorem Readable.length_keyOf {e : HtEntry} (h : Readable mem e) :
    (keyOf mem e).length = e.size := length_bytesAt h.bytesAt

/-- `cldm_hash_fnv1a` of a key, by its bytes. -/
def hashOf (x : List UInt8) : ℕ :=
  (x.take (x.length % 2 ^ 32)).foldl fnv1aStep 0xcbf29ce484222325

theorem hashEntry_eq {env : HtEnv} {e : HtEntry} (h : Readable env.mem e) (s : σ) :
    (hashEntry env e : Prog σ ℕ) s = some (hashOf (keyOf env.mem e), s) := by
  have htake := bytesAt_take h.bytesAt (Nat.mod_le e.size (2 ^ 32))
  have hlen := h.length_keyOf
  rw [hashEntry, hashFnv1a]
  refine bind_some (readBytes_eq htake s) ?_
  rw [pure_apply, hashOf, hlen]

/-- `cldm_memcmp` decides equality of areas of one length. -/
def MemcmpExact (env : HtEnv) : Prop :=
  ∀ a b : List UInt8, a.length = b.length → (env.memcmp a b = 0 ↔ a = b)

end Memory

/-! ### Probes -/

section Probe

variable {env : HtEnv} {entry slot : HtEntry} {reuse : Bool} {s : Ht} {k : ℕ}

/-- The comparison of `cldm_ht_probe`. -/
def Matches (env : HtEnv) (slot entry : HtEntry) : Prop :=
  slot.size = entry.size ∧ env.memcmp (keyOf env.mem slot) (keyOf env.mem entry) = 0

instance : Decidable (Matches env slot entry) := inferInstanceAs (Decidable (_ ∧ _))

/-- Where `cldm_ht_probe` stops. -/
def ProbeStops (env : HtEnv) (reuse : Bool) (entry slot : HtEntry) : Prop :=
  slot.status = 0 ∨ slot.status = htVacant ∧ reuse = true ∨
    htVacant < slot.status ∧ Matches env slot entry

/-- The keys of all live slots can be read. -/
def LiveReadable (mem : Mem) (s : Ht) : Prop :=
  ∀ i < s.capacity, htVacant < (s.storage i).status → Readable mem (s.storage i)

/-- The slot that a probe for `entry` visits at step `k`. -/
abbrev htWay (mem : Mem) (s : Ht) (entry : HtEntry) (k : ℕ) : ℕ :=
  slotAt s.capacity (hashOf (keyOf mem entry)) k

/-- A probe for `entry` stops at step `k`. -/
abbrev StopsAt (env : HtEnv) (reuse : Bool) (entry : HtEntry) (s : Ht) (k : ℕ) : Prop :=
  FirstAt (ProbeStops env reuse entry) s.storage s.capacity (hashOf (keyOf env.mem entry)) k

theorem cldmMemcmp_eq (hslot : Readable env.mem slot) (hentry : Readable env.mem entry)
    (hsize : slot.size = entry.size) (s : Ht) :
    (cldmMemcmp env slot.key entry.key entry.size : Prog Ht ℤ) s =
      some (env.memcmp (keyOf env.mem slot) (keyOf env.mem entry), s) := by
  have hbytes := hslot.bytesAt
  rw [hsize] at hbytes
  exact bind_some (readBytes_eq hbytes s) (bind_some (readBytes_eq hentry.bytesAt s) rfl)

theorem htSlotVacant_iff : htSlotVacant slot = true ↔ slot.status ≤ htVacant := by
  rw [htSlotVacant, decide_eq_true_eq]

/-- A turn of the probe stops at its slot or goes on to the next one. -/
theorem htProbeBody_spec (hlive : LiveReadable env.mem s) (hentry : Readable env.mem entry)
    {idx : ℕ} (hidx : idx < s.capacity) :
    wp (htProbeBody env entry reuse idx) (fun r s' => s' = s ∧
      (ProbeStops env reuse entry (s.storage idx) ∧ r = .inr idx ∨
        ¬ ProbeStops env reuse entry (s.storage idx) ∧ r = .inl ((idx + 1) % s.capacity))) s := by
  rw [htProbeBody, wp_bind, wp_get, wp_ite]
  by_cases h0 : (s.storage idx).status = 0
  · rw [if_pos h0, wp_pure]
    exact ⟨rfl, .inl ⟨.inl h0, rfl⟩⟩
  rw [if_neg h0, wp_ite]
  by_cases h1 : (s.storage idx).status ≤ htVacant
  · have hst : (s.storage idx).status = htVacant := by
      have : (s.storage idx).status ≠ 0 := h0
      simp only [htVacant] at h1 ⊢
      omega
    rw [if_pos (htSlotVacant_iff.mpr h1), wp_ite]
    by_cases hr : reuse = true
    · rw [if_pos hr, wp_pure]
      exact ⟨rfl, .inl ⟨.inr (.inl ⟨hst, hr⟩), rfl⟩⟩
    · rw [if_neg hr, wp_pure]
      refine ⟨rfl, .inr ⟨?_, rfl⟩⟩
      rintro (h | ⟨-, h⟩ | ⟨h, -⟩)
      · exact h0 h
      · exact hr h
      · omega
  have hgt : htVacant < (s.storage idx).status := by omega
  rw [if_neg (fun h => h1 (htSlotVacant_iff.mp h)), wp_ite]
  by_cases hsize : (s.storage idx).size = entry.size
  · rw [if_pos hsize, wp_bind,
      wp_of_some (cldmMemcmp_eq (hlive idx hidx hgt) hentry hsize s), wp_pure]
    by_cases hcmp : env.memcmp (keyOf env.mem (s.storage idx)) (keyOf env.mem entry) = 0
    · rw [if_pos hcmp]
      exact ⟨rfl, .inl ⟨.inr (.inr ⟨hgt, hsize, hcmp⟩), rfl⟩⟩
    · rw [if_neg hcmp]
      refine ⟨rfl, .inr ⟨?_, rfl⟩⟩
      rintro (h | ⟨h, -⟩ | ⟨-, -, h⟩)
      · exact h0 h
      · omega
      · exact hcmp h
  · rw [if_neg hsize, wp_pure]
    refine ⟨rfl, .inr ⟨?_, rfl⟩⟩
    rintro (h | ⟨h, -⟩ | ⟨-, h, -⟩)
    · exact h0 h
    · omega
    · exact hsize h

/-- A probe returns the first slot on its way that stops it. -/
theorem htProbe_spec (hcap : 0 < s.capacity) (hlive : LiveReadable env.mem s)
    (hentry : Readable env.mem entry)
    (hk : StopsAt env reuse entry s k) :
    Total (htProbe env entry reuse) (fun idx s' => idx = htWay env.mem s entry k ∧ s' = s) s := by
  refine Total.wp_bind ((wp_get ..).mpr (Total.wp_bind ?_))
  refine (wp_of_some (hashEntry_eq hentry s)).mpr ?_
  -- after `i` turns the probe stands at slot `i` of its way
  let I : ℕ → ℕ → Ht → Prop := fun b idx s' => s' = s ∧
    ∃ i ≤ k, idx = htWay env.mem s entry i ∧ b = k - i
  have step : ∀ b idx s', I b idx s' → Total (fun _ => htProbeBody env entry reuse idx)
      (fun r s'' => Sum.elim (fun idx' => ∃ b' < b, I b' idx' s'')
        (fun idx' => idx' = htWay env.mem s entry k ∧ s'' = s) r) s' := by
    rintro b idx _ ⟨rfl, i, hik, rfl, rfl⟩
    refine Total.const (wp_mono (htProbeBody_spec hlive hentry (slotAt_lt hcap)) ?_)
    rintro r _ ⟨rfl, ⟨hstop, rfl⟩ | ⟨hgo, rfl⟩⟩
    · have hi : i = k := by
        by_contra hne
        exact hk.2 i (by omega) hstop
      exact ⟨by rw [hi], rfl⟩
    · have hi : i ≠ k := by
        rintro rfl
        exact hgo hk.1
      exact ⟨k - (i + 1), by omega, rfl, i + 1, by omega, slotAt_succ, rfl⟩
  exact total_loop step k _ s ⟨rfl, 0, Nat.zero_le k, rfl, rfl⟩

/-- Some slot of the table was never used. -/
def HasUnused (s : Ht) : Prop := ∃ i < s.capacity, (s.storage i).status = 0

theorem HasUnused.pos (h : HasUnused s) : 0 < s.capacity := by
  obtain ⟨i, hi, -⟩ := h
  omega

theorem HasUnused.firstAt (h : HasUnused s) (env : HtEnv) (reuse : Bool) (entry : HtEntry) :
    ∃ k, StopsAt env reuse entry s k := by
  obtain ⟨i, hi, h0⟩ := h
  obtain ⟨k, -, hk⟩ := exists_firstAt (P := ProbeStops env reuse entry) hi (.inl h0)
    (hashOf (keyOf env.mem entry))
  exact ⟨k, hk⟩

/-- A probe returns whenever some slot was never used. -/
theorem htProbe_total (hun : HasUnused s) (hlive : LiveReadable env.mem s)
    (hentry : Readable env.mem entry) (reuse : Bool) :
    ∃ idx, Returns (htProbe env entry reuse) s idx s := by
  obtain ⟨k, hk⟩ := hun.firstAt env reuse entry
  obtain ⟨idx, s', hret, rfl, rfl⟩ := htProbe_spec hun.pos hlive hentry hk
  exact ⟨_, hret⟩

theorem cldmMemcmp_partial {s0 s1 n : ℕ} {diff : ℤ} {s' : Ht}
    (h : (cldmMemcmp env s0 s1 n : Prog Ht ℤ) s = some (diff, s')) : s' = s := by
  obtain ⟨b0, s₁, h₁, h⟩ := bind_eq_some.mp h
  obtain ⟨b1, s₂, h₂, h⟩ := bind_eq_some.mp h
  rw [← (readBytes_some h₁).2, ← (readBytes_some h₂).2]
  exact (Prod.mk.inj (Option.some.inj h)).2.symm

theorem htProbeBody_partial {idx : ℕ} {r : ℕ ⊕ ℕ} {s' : Ht}
    (h : htProbeBody env entry reuse idx s = some (r, s')) :
    s' = s ∧ (r = .inr idx ∨ r = .inl ((idx + 1) % s.capacity)) := by
  have hpure : ∀ {x : ℕ ⊕ ℕ}, (pure x : Prog Ht (ℕ ⊕ ℕ)) s = some (r, s') → s' = s ∧ r = x := by
    intro x hx
    obtain ⟨h1, h2⟩ := Prod.mk.inj (Option.some.inj hx)
    exact ⟨h2.symm, h1.symm⟩
  obtain ⟨ht, s₁, hget, h⟩ := bind_eq_some.mp h
  obtain ⟨rfl, rfl⟩ := Prod.mk.inj (Option.some.inj hget)
  split_ifs at h with h0 h1 hr hsize
  · exact (hpure h).imp_right .inl
  · exact (hpure h).imp_right .inl
  · exact (hpure h).imp_right .inr
  · obtain ⟨diff, s₂, hcmp, h⟩ := bind_eq_some.mp h
    obtain rfl := cldmMemcmp_partial hcmp
    have := hpure h
    split_ifs at this with hdiff
    · exact this.imp_right .inl
    · exact this.imp_right .inr
  · exact (hpure h).imp_right .inr

/-- Whatever a probe returns is the index of a slot, and nothing has changed. -/
theorem htProbe_partial {n idx : ℕ} {s' : Ht} (hcap : 0 < s.capacity)
    (h : htProbe env entry reuse n s = some (idx, s')) : s' = s ∧ idx < s.capacity := by
  obtain ⟨ht, s₁, hget, h⟩ := bind_eq_some.mp h
  obtain ⟨rfl, rfl⟩ := Prod.mk.inj (Option.some.inj hget)
  obtain ⟨hash, s₂, hhash, h⟩ := bind_eq_some.mp h
  have hs₂ : s = s₂ := by
    obtain ⟨bs, s₃, hread, hpure⟩ := bind_eq_some.mp hhash
    rw [← (readBytes_some hread).2]
    exact (Prod.mk.inj (Option.some.inj hpure)).2
  subst hs₂
  refine fuelLoop_partial (I := fun idx s' => s' = s ∧ idx < s.capacity)
    (Q := fun idx s' => s' = s ∧ idx < s.capacity) ?_ n _ s idx s'
    ⟨rfl, Nat.mod_lt _ hcap⟩ h
  rintro i s₁ r s₃ ⟨rfl, hi⟩ hbody
  obtain ⟨rfl, rfl | rfl⟩ := htProbeBody_partial hbody
  · exact ⟨rfl, hi⟩
  · exact ⟨rfl, Nat.mod_lt _ hcap⟩

end Probe

/-! ### Sizes -/

/-- A new capacity is more than twice the old one. -/
theorem htSizeup_spec {σ : Type} {cap : ℕ} (hpos : 0 < cap) (hcap : cap < 2 ^ 60) (s : σ) :
    Total (htSizeup cap) (fun c s' => s' = s ∧ 2 * cap < c ∧ c ≤ 4 * cap + 2) s := by
  have hstart : (cap <<< 1) % sizeMod ||| 1 = 2 * cap + 1 := by
    have hshift : cap <<< 1 = 2 * cap := by
      rw [Nat.shiftLeft_eq]
      omega
    have hor : 2 * cap + 1 = 2 * cap ||| 1 :=
      Nat.two_pow_add_eq_or_of_lt (i := 1) (by omega) cap
    rw [hshift, Nat.mod_eq_of_lt (by simp only [sizeMod]; omega), ← hor]
  -- there is a prime ahead, and the loop steps over odd numbers only
  obtain ⟨p, hp, hlo, hhi⟩ := Nat.exists_prime_lt_and_le_two_mul (2 * cap + 1) (by omega)
  have hodd : p % 2 = 1 := by
    rcases hp.eq_two_or_odd with h2 | h2
    · omega
    · exact h2
  let I : ℕ → ℕ → σ → Prop := fun b c s' =>
    s' = s ∧ 2 * cap < c ∧ c ≤ p ∧ c % 2 = 1 ∧ b = p - c
  have step : ∀ b c s', I b c s' → Total (fun n => htSizeupBody n c)
      (fun r s'' => Sum.elim (fun c' => ∃ b' < b, I b' c' s'')
        (fun c' => s'' = s ∧ 2 * cap < c' ∧ c' ≤ 4 * cap + 2) r) s' := by
    rintro b c s₁ ⟨rfl, hc, hcp, hc2, rfl⟩
    refine ((isPrime_spec (by omega) s₁).mono ?_).bind
    rintro found s₂ ⟨rfl, hprime⟩
    refine Total.const ?_
    by_cases hf : found = true
    · rw [if_pos hf, wp_pure]
      exact ⟨rfl, hc, by omega⟩
    · rw [if_neg hf, wp_pure]
      have hne : c ≠ p := by
        rintro rfl
        exact hf (hprime hp)
      have hmod : (c + 2) % sizeMod = c + 2 := by
        refine Nat.mod_eq_of_lt ?_
        simp only [sizeMod]
        omega
      rw [hmod]
      exact ⟨p - (c + 2), by omega, rfl, by omega, by omega, by omega, rfl⟩
  have hloop := total_loop step (p - (2 * cap + 1)) (2 * cap + 1) s
    ⟨rfl, by omega, by omega, by omega, rfl⟩
  rw [← hstart] at hloop
  exact hloop

end Cldm
