/-
The symbol cache of `cldm_dl.c`.

A cache keeps its entries in a union of an inline array with a pointer to a
block on the heap, so that they are modelled as bytes of memory: the pointer
lies over the first bytes of the name in the first inline entry.  The keys of
the hash table are the addresses of the names.

* `dllookupEnsureCapacity` — growing a cache, as the source does it;
* `dllookupEnsureCapacity_inline`, `dllookupEnsureCapacity_heap` — a growth
  returns true iff its allocation succeeds, and leaves one key in the hash table;
* `dllookup_growth_fails` — no cache survives a growth;
* `dllookup_growth_loses_names` — a cache of 32 names is lost.
-/
import Cldm.HashRun

namespace Cldm

open Prog Probing Bytes

/-- `struct cldm_dllookup` in memory: the union of its entries lies at the address
`unEntries`. -/
structure Dllookup where
  mem : Mem
  ht : Ht
  unEntries : ℕ
  capacity : ℕ

/-- `struct cldm_dlentry`, with the name up to its terminator. -/
structure DlEntry where
  symname : List UInt8
  addr : ℕ
  loadidx : ℕ
  resolved : Bool

/-- `CLDM_STATIC_LOOKUP_SIZE`. -/
abbrev dlStaticSize : ℕ := 32

/-- `CLDM_MAX_SYMNAME_SIZE`. -/
abbrev dlMaxSymname : ℕ := 128

/-- `sizeof(struct cldm_dlentry)`: a name, a pointer, an `unsigned`, a `bool` and
the padding. -/
abbrev dlentrySize : ℕ := dlMaxSymname + 8 + 4 + 4

/-- The allocator: `malloc(n)`, and `realloc(p, n)` of a block of `m` bytes.  Both
return the address of the new block and the memory after the call. -/
structure DlAlloc where
  malloc : Mem → ℕ → Option (ℕ × Mem)
  realloc : Mem → ℕ → ℕ → ℕ → Option (ℕ × Mem)

section Definitions

variable {β : Type}

/-- The entry at address `p`. -/
def dlentryAt (mem : Mem) (p : ℕ) : Option DlEntry :=
  (bytesAt mem p dlentrySize).map fun bs =>
    { symname := (bs.take dlMaxSymname).takeWhile (· ≠ 0)
      addr := ofLe ((bs.drop dlMaxSymname).take 8)
      loadidx := ofLe ((bs.drop (dlMaxSymname + 8)).take 4)
      resolved := bs.getD (dlMaxSymname + 12) 0 ≠ (0 : UInt8) }

/-- The address of the entries: `un_entries.stat`, or the pointer `un_entries.dyn`. -/
def Dllookup.entries (s : Dllookup) : Option ℕ :=
  if s.capacity = dlStaticSize then some s.unEntries
  else (bytesAt s.mem s.unEntries 8).map ofLe

/-- `cldm_dllookup_entry`. -/
def dllookupEntry : Prog Dllookup ℕ := fun s => s.entries.map fun p => (p, s)

/-- An operation on the hash table of the cache. -/
def onHt (x : Prog Ht β) : Prog Dllookup β :=
  fun s => (x s.ht).map fun r => (r.1, { s with ht := r.2 })

instance (mem : Mem) (p n : ℕ) : Decidable (Accessible mem p n) :=
  inferInstanceAs (Decidable (∀ i < n, _))

/-- Write memory; a fault where it cannot be accessed. -/
def dlWrite (p : ℕ) (bs : List UInt8) : Prog Dllookup Unit :=
  fun s => if Accessible s.mem p bs.length then some ((), { s with mem := store s.mem p bs })
    else none

/-- One turn of the loop of `cldm_dllookup_ensure_capacity`.  The source takes the
name of the first entry in every turn. -/
def dlReindexBody (memcmp : List UInt8 → List UInt8 → ℤ) (calloc : ℕ → Bool) (fuel i : ℕ) :
    Prog Dllookup (ℕ ⊕ Unit) := do
  let s ← get
  if i < s.capacity then
    let symname ← dllookupEntry
    let size ← strlen s.mem symname fuel
    let _ ← onHt (htInsert ⟨s.mem, memcmp⟩ calloc fuel ⟨symname, size⟩)
    return .inl ((i + 1) % 2 ^ 32)
  else
    return .inr ()

/-- `cldm_dllookup_ensure_capacity`, after the entries have been copied to `addr`. -/
def dllookupMove (memcmp : List UInt8 → List UInt8 → ℤ) (calloc : ℕ → Bool) (addr fuel : ℕ) :
    Prog Dllookup Bool := do
  let s ← get
  dlWrite s.unEntries (leBytes 8 addr)
  onHt htClear
  fuelLoop (dlReindexBody memcmp calloc fuel) fuel 0
  let s ← get
  set { s with capacity := 2 * s.capacity % sizeMod }
  return true

/-- `cldm_dllookup_ensure_capacity`. -/
def dllookupEnsureCapacity (memcmp : List UInt8 → List UInt8 → ℤ) (alloc : DlAlloc)
    (calloc : ℕ → Bool) (fuel : ℕ) : Prog Dllookup Bool := do
  let s ← get
  if s.ht.size < s.capacity then
    return true
  else if s.capacity = dlStaticSize then
    match alloc.malloc s.mem (2 * s.capacity * dlentrySize % sizeMod) with
    | none => return false
    | some (addr, mem) =>
      set { s with mem := mem }
      let stat ← readBytes mem s.unEntries (dlStaticSize * dlentrySize)
      dlWrite addr stat
      dllookupMove memcmp calloc addr fuel
  else do
    let dyn ← dllookupEntry
    match alloc.realloc s.mem dyn (s.capacity * dlentrySize)
      (2 * s.capacity * dlentrySize % sizeMod) with
    | none => return false
    | some (addr, mem) =>
      set { s with mem := mem }
      dllookupMove memcmp calloc addr fuel

end Definitions

/-! ### The specification -/

/-- A lookup of the string `q` finds the entry at address `p`. -/
def DlFinds (memcmp : List UInt8 → List UInt8 → ℤ) (s : Dllookup) (q : HtEntry) (p : ℕ) : Prop :=
  Readable s.mem q ∧ ∃ idx, Returns (htFind ⟨s.mem, memcmp⟩ q) s.ht (some idx) s.ht ∧
    (s.ht.storage idx).key = p

/-- What a growth ought to keep: every cached name is still found, at an entry with
the same fields; the hash table has the same size; and the entry that the next
`cldm_dlsym_next` hands out is not in use. -/
structure GrowthKeeps (memcmp : List UInt8 → List UInt8 → ℤ) (s s' : Dllookup) : Prop where
  found : ∀ q p e, DlFinds memcmp s q p → dlentryAt s.mem p = some e →
    ∀ q', Readable s'.mem q' → keyOf s'.mem q' = keyOf s.mem q →
      ∃ p', DlFinds memcmp s' q' p' ∧ dlentryAt s'.mem p' = some e
  size : s'.ht.size = s.ht.size
  next : ∀ q p, DlFinds memcmp s' q p →
    s'.entries.map (fun entries => entries + s'.ht.size * dlentrySize) ≠ some p

/-- What the C library promises of a new block of `n` bytes at address `p`. -/
structure NewBlock (mem : Mem) (p n : ℕ) : Prop where
  aligned : 16 ≤ p
  lt : p + n ≤ 2 ^ 64
  accessible : Accessible mem p n

/-- What the C library promises of `malloc` and `realloc`. -/
structure AllocSpec (alloc : DlAlloc) : Prop where
  malloc_block : ∀ mem n p mem', alloc.malloc mem n = some (p, mem') → NewBlock mem' p n
  malloc_fresh : ∀ mem n p mem', alloc.malloc mem n = some (p, mem') →
    ∀ a, p ≤ a → a < p + n → mem a = none
  malloc_frame : ∀ mem n p mem', alloc.malloc mem n = some (p, mem') →
    ∀ a, a < p ∨ p + n ≤ a → mem' a = mem a
  realloc_block : ∀ mem q m n p mem', alloc.realloc mem q m n = some (p, mem') →
    NewBlock mem' p n
  realloc_copy : ∀ mem q m n p mem', alloc.realloc mem q m n = some (p, mem') →
    ∀ i, i < m → i < n → mem' (p + i) = mem (q + i)
  realloc_fresh : ∀ mem q m n p mem', alloc.realloc mem q m n = some (p, mem') →
    ∀ a, p ≤ a → a < p + n → mem a = none ∨ q ≤ a ∧ a < q + m
  realloc_frame : ∀ mem q m n p mem', alloc.realloc mem q m n = some (p, mem') →
    ∀ a, a < p ∨ p + n ≤ a → a < q ∨ q + m ≤ a → mem' a = mem a

/-- A cache as `cldm_dllookup_init` and `cldm_dlsym_next` leave it: its entries can
be accessed, those on the heap lie outside of the union, and the first name is
terminated in its array. -/
structure DllookupWf (s : Dllookup) : Prop where
  capacity_le : dlStaticSize ≤ s.capacity
  capacity_lt : s.capacity * dlentrySize < 2 ^ 63
  ht_le : htStaticSize ≤ s.ht.capacity
  ht_lt : s.ht.capacity < 2 ^ 60
  union_pos : htVacant < s.unEntries
  union : Accessible s.mem s.unEntries (dlStaticSize * dlentrySize)
  heap : s.capacity ≠ dlStaticSize → ∃ p, s.entries = some p ∧
    Accessible s.mem p (s.capacity * dlentrySize) ∧
    (p + s.capacity * dlentrySize ≤ s.unEntries ∨
      s.unEntries + dlStaticSize * dlentrySize ≤ p)
  terminated : ∀ p, s.entries = some p → s.mem (p + (dlMaxSymname - 1)) = some 0

/-! ### Inserting one key over and over -/

section Insert

variable {env : HtEnv} {ht : Ht} {e : HtEntry} {calloc : ℕ → Bool}

/-- An insertion into an empty table uses the home slot. -/
theorem htInsert_empty (hcap : htStaticSize ≤ ht.capacity) (hsize : ht.size = 0)
    (hzero : ∀ i < ht.capacity, (ht.storage i).status = 0) (he : Readable env.mem e) :
    Total (fun n => htInsert env calloc n e) (fun _ ht' =>
      ht' = ht.put (htWay env.mem ht e 0) e) ht := by
  have hpos : 0 < ht.capacity := by
    simp only [htStaticSize] at hcap
    omega
  have hexp : htShouldExpand ht = false := by
    simp only [htStaticSize] at hcap
    rw [← Bool.not_eq_true, htShouldExpand_iff (by omega)]
    omega
  have hunused : (ht.storage (htWay env.mem ht e 0)).status = 0 := hzero _ (slotAt_lt hpos)
  have hlive : LiveReadable env.mem ht := by
    intro i hi hlive
    rw [hzero i hi] at hlive
    exact absurd hlive (Nat.not_lt_zero _)
  have hk : StopsAt env true e ht 0 := ⟨.inl hunused, fun j hj => absurd hj (Nat.not_lt_zero j)⟩
  refine total_htInsert_of_not_expand hexp ((htPlace_spec hpos hlive he hk).mono ?_)
  rintro r ht' (⟨-, -, rfl⟩ | ⟨hfull, -⟩)
  · rfl
  · rw [hunused] at hfull
    exact absurd (Nat.zero_le _) hfull

/-- An insertion of a key that is in its home slot changes nothing. -/
theorem htInsert_again (hrefl : ∀ a, env.memcmp a a = 0) (hcap : htStaticSize ≤ ht.capacity)
    (hsize : ht.size = 1) (hlive : LiveReadable env.mem ht) (he : Readable env.mem e)
    (hkey : htVacant < e.key) (hhome : ht.storage (htWay env.mem ht e 0) = e) :
    Total (fun n => htInsert env calloc n e) (fun _ ht' => ht' = ht) ht := by
  have hpos : 0 < ht.capacity := by
    simp only [htStaticSize] at hcap
    omega
  have hexp : htShouldExpand ht = false := by
    simp only [htStaticSize] at hcap
    rw [← Bool.not_eq_true, htShouldExpand_iff (by omega)]
    omega
  have hk : StopsAt env true e ht 0 := by
    refine ⟨.inr (.inr ?_), fun j hj => absurd hj (Nat.not_lt_zero j)⟩
    rw [hhome]
    exact ⟨hkey, rfl, hrefl _⟩
  refine total_htInsert_of_not_expand hexp ((htPlace_spec hpos hlive he hk).mono ?_)
  rintro r ht' (⟨hfree, -⟩ | ⟨-, -, rfl⟩)
  · rw [hhome] at hfree
    exact absurd hkey (Nat.not_lt.mpr hfree)
  · rfl

end Insert

/-! ### Growing -/

section Growth

variable {memcmp : List UInt8 → List UInt8 → ℤ} {alloc : DlAlloc} {calloc : ℕ → Bool}
  {s s' : Dllookup} {β : Type}

theorem total_onHt {f : ℕ → Prog Ht β} {Q : β → Ht → Prop} (h : Total f Q s.ht) :
    Total (fun n => onHt (f n)) (fun b s' => ∃ ht, s' = { s with ht := ht } ∧ Q b ht) s := by
  obtain ⟨b, ht, ⟨k, hret⟩, hQ⟩ := h
  refine ⟨b, { s with ht := ht }, ⟨k, fun n hn => ?_⟩, ht, rfl, hQ⟩
  show (f n s.ht).map _ = _
  rw [hret n hn]
  rfl

theorem dlWrite_eq {p : ℕ} {bs : List UInt8} (h : Accessible s.mem p bs.length) :
    dlWrite p bs s = some ((), { s with mem := store s.mem p bs }) := if_pos h

/-- A turn of the loop, which changes the hash table only. -/
theorem dlReindexBody_spec {i p len : ℕ} {Q : Ht → Prop} (hi : i < s.capacity)
    (hi32 : i + 1 < 2 ^ 32) (hp : s.entries = some p) (hlen : StringAt s.mem p len)
    (hins : Total (fun n => htInsert ⟨s.mem, memcmp⟩ calloc n ⟨p, len⟩) (fun _ ht => Q ht) s.ht) :
    Total (fun n => dlReindexBody memcmp calloc n i) (fun r s' =>
      r = .inl (i + 1) ∧ ∃ ht, s' = { s with ht := ht } ∧ Q ht) s := by
  have hentry : dllookupEntry s = some (p, s) := by
    rw [dllookupEntry, hp]
    rfl
  have hbody : ∀ n, dlReindexBody memcmp calloc n i s =
      (strlen s.mem p n >>= fun size =>
        onHt (htInsert ⟨s.mem, memcmp⟩ calloc n ⟨p, size⟩) >>= fun _ =>
          (pure (.inl ((i + 1) % 2 ^ 32)) : Prog Dllookup (ℕ ⊕ Unit))) s := by
    intro n
    refine bind_get ?_
    rw [if_pos hi]
    exact bind_some hentry rfl
  have hrun : Total (fun n => strlen s.mem p n >>= fun size =>
        onHt (htInsert ⟨s.mem, memcmp⟩ calloc n ⟨p, size⟩) >>= fun _ =>
          (pure (.inl ((i + 1) % 2 ^ 32)) : Prog Dllookup (ℕ ⊕ Unit)))
      (fun r s' => r = .inl (i + 1) ∧ ∃ ht, s' = { s with ht := ht } ∧ Q ht) s := by
    refine ((strlen_spec hlen s).mono ?_).bind
    rintro size _ ⟨rfl, rfl⟩
    refine ((total_onHt hins).mono ?_).bind
    rintro r s₁ hs₁
    refine Total.const ((wp_pure ..).mpr ⟨?_, hs₁⟩)
    rw [Nat.mod_eq_of_lt hi32]
  obtain ⟨r, s', ⟨k, hret⟩, hQ⟩ := hrun
  exact ⟨r, s', ⟨k, fun n hn => (hbody n).trans (hret n hn)⟩, hQ⟩

/-- The loop inserts one key: the name of the first entry. -/
theorem dlReindex_spec (hrefl : ∀ a, memcmp a a = 0) {p len : ℕ}
    (hcap : dlStaticSize ≤ s.capacity) (hcap' : s.capacity < 2 ^ 32)
    (hht : htStaticSize ≤ s.ht.capacity) (hsize : s.ht.size = 0)
    (hzero : ∀ i < s.ht.capacity, (s.ht.storage i).status = 0)
    (hp : s.entries = some p) (hpos : htVacant < p) (hlen : StringAt s.mem p len) :
    Total (fun n => fuelLoop (dlReindexBody memcmp calloc n) n 0) (fun _ s' =>
      s'.ht.size = 1 ∧ s'.capacity = s.capacity) s := by
  have he : Readable s.mem ⟨p, len⟩ := hlen.accessible.bytesAt
  let ht₁ := s.ht.put (htWay s.mem s.ht ⟨p, len⟩ 0) ⟨p, len⟩
  have hlive : LiveReadable s.mem s.ht := by
    intro i hi hlive
    rw [hzero i hi] at hlive
    exact absurd hlive (Nat.not_lt_zero _)
  have hsize₁ : ht₁.size = 1 := by
    show (s.ht.size + 1) % sizeMod = 1
    rw [hsize]
    rfl
  have hhome : ht₁.storage (htWay s.mem ht₁ ⟨p, len⟩ 0) = ⟨p, len⟩ := Function.update_self ..
  let I : ℕ → ℕ → Dllookup → Prop := fun b i s' => i ≤ s.capacity ∧ b = s.capacity - i ∧
    s' = { s with ht := if i = 0 then s.ht else ht₁ }
  have step : ∀ b i s', I b i s' → Total (fun n => dlReindexBody memcmp calloc n i)
      (fun r s'' => Sum.elim (fun i' => ∃ b' < b, I b' i' s'')
        (fun _ => s''.ht.size = 1 ∧ s''.capacity = s.capacity) r) s' := by
    rintro b i s' ⟨hi, rfl, rfl⟩
    by_cases hlt : i < s.capacity
    · have hins : Total (fun n => htInsert ⟨s.mem, memcmp⟩ calloc n ⟨p, len⟩)
          (fun _ ht => ht = ht₁) (if i = 0 then s.ht else ht₁) := by
        by_cases h0 : i = 0
        · rw [if_pos h0]
          exact htInsert_empty hht hsize hzero he
        · rw [if_neg h0]
          exact htInsert_again hrefl hht hsize₁
            (hlive.put (fun _ => he) _) he hpos hhome
      refine (dlReindexBody_spec (s := { s with ht := if i = 0 then s.ht else ht₁ }) hlt
        (by omega) hp hlen hins).mono ?_
      rintro r s'' ⟨rfl, ht, rfl, rfl⟩
      refine ⟨s.capacity - (i + 1), by omega, hlt, rfl, ?_⟩
      rw [if_neg (Nat.succ_ne_zero i)]
    · have h0 : i ≠ 0 := by
        simp only [dlStaticSize] at hcap
        omega
      rw [if_neg h0]
      refine ⟨.inr (), { s with ht := ht₁ }, ⟨0, fun n _ => ?_⟩, hsize₁, rfl⟩
      refine bind_get ?_
      rw [if_neg hlt]
      rfl
  exact total_loop step s.capacity 0 s ⟨Nat.zero_le _, rfl, rfl⟩

/-- Once the entries have been copied, one key ends up in the hash table. -/
theorem dllookupMove_spec (hrefl : ∀ a, memcmp a a = 0) {addr p len : ℕ}
    (hcap : dlStaticSize ≤ s.capacity) (hcap' : s.capacity < 2 ^ 32)
    (hht : htStaticSize ≤ s.ht.capacity) (hunion : Accessible s.mem s.unEntries 8)
    (hp : { s with mem := store s.mem s.unEntries (leBytes 8 addr) }.entries = some p)
    (hpos : htVacant < p)
    (hlen : StringAt (store s.mem s.unEntries (leBytes 8 addr)) p len) :
    Total (dllookupMove memcmp calloc addr) (fun b s' => b = true ∧ s'.ht.size = 1) s := by
  let s₁ : Dllookup := { s with mem := store s.mem s.unEntries (leBytes 8 addr) }
  let s₂ : Dllookup := { s₁ with
    ht := { s.ht with
      storage := fun i => if i < s.ht.capacity then ⟨0, 0⟩ else s.ht.storage i
      size := 0 } }
  have hwrite : dlWrite s.unEntries (leBytes 8 addr) s = some ((), s₁) := by
    refine dlWrite_eq ?_
    rw [length_leBytes]
    exact hunion
  have hclear : onHt htClear s₁ = some ((), s₂) := rfl
  have hzero : ∀ i < s₂.ht.capacity, (s₂.ht.storage i).status = 0 := by
    intro i hi
    show (if i < s.ht.capacity then (⟨0, 0⟩ : HtEntry) else s.ht.storage i).status = 0
    rw [if_pos hi]
    rfl
  have hreindex : Total (fun n => fuelLoop (dlReindexBody memcmp calloc n) n 0)
      (fun _ s' => s'.ht.size = 1 ∧ s'.capacity = s₂.capacity) s₂ :=
    dlReindex_spec hrefl hcap hcap' hht rfl hzero hp hpos hlen
  obtain ⟨u, s₃, ⟨k, hloop⟩, hsize, hscap⟩ := hreindex
  refine ⟨true, { s₃ with capacity := 2 * s₃.capacity % sizeMod }, ⟨k, fun n hn => ?_⟩, rfl, hsize⟩
  refine bind_get ?_
  exact bind_some hwrite (bind_some hclear (bind_some (hloop n hn) rfl))

/-- A growth from the inline storage. -/
theorem dllookupEnsureCapacity_inline (hrefl : ∀ a, memcmp a a = 0) (halloc : AllocSpec alloc)
    (hwf : DllookupWf s) (hgrow : s.capacity ≤ s.ht.size) (hinline : s.capacity = dlStaticSize) :
    Total (dllookupEnsureCapacity memcmp alloc calloc) (fun b s' =>
      b = (alloc.malloc s.mem (2 * s.capacity * dlentrySize % sizeMod)).isSome ∧
        (b = true → s'.ht.size = 1)) s := by
  have hstart : ∀ n, dllookupEnsureCapacity memcmp alloc calloc n s =
      (match alloc.malloc s.mem (2 * s.capacity * dlentrySize % sizeMod) with
      | none => pure false
      | some (addr, mem) => do
        set { s with mem := mem }
        let stat ← readBytes mem s.unEntries (dlStaticSize * dlentrySize)
        dlWrite addr stat
        dllookupMove memcmp calloc addr n) s := by
    intro n
    refine bind_get ?_
    rw [if_neg (Nat.not_lt.mpr hgrow), if_pos hinline]
  have hnbytes : 2 * s.capacity * dlentrySize % sizeMod = 2 * (dlStaticSize * dlentrySize) := by
    rw [hinline]
    rfl
  cases hmalloc : alloc.malloc s.mem (2 * s.capacity * dlentrySize % sizeMod) with
  | none =>
    refine ⟨false, s, ⟨0, fun n _ => ?_⟩, rfl, fun h => absurd h (by simp)⟩
    rw [hstart, hmalloc]
    rfl
  | some r =>
    obtain ⟨addr, mem⟩ := r
    have hblock := halloc.malloc_block _ _ _ _ hmalloc
    have hfresh := halloc.malloc_fresh _ _ _ _ hmalloc
    have hframe := halloc.malloc_frame _ _ _ _ hmalloc
    rw [hnbytes] at hblock hfresh hframe
    -- the union lies outside of the new block
    have hout : ∀ i < dlStaticSize * dlentrySize, s.unEntries + i < addr ∨
        addr + 2 * (dlStaticSize * dlentrySize) ≤ s.unEntries + i := by
      intro i hi
      by_contra hin
      have hsome := hwf.union i hi
      rw [hfresh (s.unEntries + i) (by omega) (by omega)] at hsome
      exact absurd hsome (by simp)
    have hunion : Accessible mem s.unEntries (dlStaticSize * dlentrySize) := by
      intro i hi
      rw [hframe _ (hout i hi)]
      exact hwf.union i hi
    obtain ⟨stat, hstat⟩ := hunion.bytesAt
    have hlen := length_bytesAt hstat
    have hwrite : dlWrite addr stat { s with mem := mem } =
        some ((), { s with mem := store mem addr stat }) := by
      refine dlWrite_eq (hblock.accessible.mono (Nat.le_refl addr) ?_)
      omega
    have hptr : s.unEntries + (leBytes 8 addr).length ≤ s.unEntries + (dlMaxSymname - 1) := by
      rw [length_leBytes]
      exact Nat.add_le_add_left (by decide) _
    -- the name that starts with the bytes of the pointer is still terminated
    have hterm : store (store mem addr stat) s.unEntries (leBytes 8 addr)
        (s.unEntries + (dlMaxSymname - 1)) = some 0 := by
      have hi : dlMaxSymname - 1 < dlStaticSize * dlentrySize := by decide
      have := hout _ hi
      rw [store_of_notMem (.inr hptr), store_of_notMem (by omega), hframe _ this]
      exact hwf.terminated _ (if_pos hinline)
    have hacc : Accessible (store mem addr stat) s.unEntries (dlStaticSize * dlentrySize) :=
      hunion.store addr stat
    obtain ⟨len, -, hstr⟩ := exists_stringAt (((hacc.store s.unEntries (leBytes 8 addr)).mono
      (Nat.le_refl s.unEntries) (Nat.add_le_add_left (by decide) _))) hterm
    have hcap : s.capacity < 2 ^ 32 := by
      rw [hinline]
      decide
    have hmoved : Total (dllookupMove memcmp calloc addr) (fun b s' => b = true ∧ s'.ht.size = 1)
        { s with mem := store mem addr stat } :=
      dllookupMove_spec hrefl hwf.capacity_le hcap hwf.ht_le
        (hacc.mono (Nat.le_refl s.unEntries) (Nat.add_le_add_left (by decide) _))
        (if_pos hinline) hwf.union_pos hstr
    obtain ⟨b, s', ⟨k, hmove⟩, rfl, hsize⟩ := hmoved
    refine ⟨true, s', ⟨k, fun n hn => ?_⟩, rfl, fun _ => hsize⟩
    rw [hstart, hmalloc]
    exact bind_some (b := ()) rfl (bind_some (readBytes_eq hstat _)
      (bind_some hwrite (hmove n hn)))

/-- A growth of the heap storage. -/
theorem dllookupEnsureCapacity_heap (hrefl : ∀ a, memcmp a a = 0) (halloc : AllocSpec alloc)
    (hwf : DllookupWf s) (hgrow : s.capacity ≤ s.ht.size) (hheap : s.capacity ≠ dlStaticSize)
    (hcap : s.capacity < 2 ^ 32) :
    Total (dllookupEnsureCapacity memcmp alloc calloc) (fun b s' =>
      b = ((s.entries.bind fun dyn => alloc.realloc s.mem dyn (s.capacity * dlentrySize)
        (2 * s.capacity * dlentrySize % sizeMod)).isSome) ∧ (b = true → s'.ht.size = 1)) s := by
  obtain ⟨dyn, hdyn, hdynacc, hdisj⟩ := hwf.heap hheap
  have hentry : dllookupEntry s = some (dyn, s) := by
    rw [dllookupEntry, hdyn]
    rfl
  have hstart : ∀ n, dllookupEnsureCapacity memcmp alloc calloc n s =
      (match alloc.realloc s.mem dyn (s.capacity * dlentrySize)
        (2 * s.capacity * dlentrySize % sizeMod) with
      | none => pure false
      | some (addr, mem) => do
        set { s with mem := mem }
        dllookupMove memcmp calloc addr n) s := by
    intro n
    refine bind_get ?_
    rw [if_neg (Nat.not_lt.mpr hgrow), if_neg hheap]
    exact bind_some hentry rfl
  have hnbytes : 2 * s.capacity * dlentrySize % sizeMod = 2 * (s.capacity * dlentrySize) := by
    have := hwf.capacity_lt
    rw [Nat.mul_assoc]
    refine Nat.mod_eq_of_lt ?_
    simp only [sizeMod]
    omega
  rw [hdyn, Option.bind_some]
  cases hrealloc : alloc.realloc s.mem dyn (s.capacity * dlentrySize)
      (2 * s.capacity * dlentrySize % sizeMod) with
  | none =>
    refine ⟨false, s, ⟨0, fun n _ => ?_⟩, rfl, fun h => absurd h (by simp)⟩
    rw [hstart, hrealloc]
    rfl
  | some r =>
    obtain ⟨addr, mem⟩ := r
    have hblock := halloc.realloc_block _ _ _ _ _ _ hrealloc
    have hcopy := halloc.realloc_copy _ _ _ _ _ _ hrealloc
    have hfresh := halloc.realloc_fresh _ _ _ _ _ _ hrealloc
    have hframe := halloc.realloc_frame _ _ _ _ _ _ hrealloc
    rw [hnbytes] at hblock hcopy hfresh hframe
    have hlow : dlStaticSize * dlentrySize ≤ s.capacity * dlentrySize :=
      Nat.mul_le_mul_right _ hwf.capacity_le
    have hname : dlMaxSymname < dlStaticSize * dlentrySize := by decide
    have hword : 8 ≤ dlStaticSize * dlentrySize := by decide
    -- the union lies outside of both blocks
    have hout : ∀ i < dlStaticSize * dlentrySize, s.unEntries + i < addr ∨
        addr + 2 * (s.capacity * dlentrySize) ≤ s.unEntries + i := by
      intro i hi
      by_contra hin
      have hsome := hwf.union i hi
      rcases hfresh (s.unEntries + i) (by omega) (by omega) with hnone | hold
      · rw [hnone] at hsome
        exact absurd hsome (by simp)
      · omega
    have hunion : Accessible mem s.unEntries (dlStaticSize * dlentrySize) := by
      intro i hi
      rw [hframe _ (hout i hi) (by omega)]
      exact hwf.union i hi
    have hlt : addr < 256 ^ 8 := by
      have := hblock.lt
      omega
    have hentries : ({ s with mem := store mem s.unEntries (leBytes 8 addr) } : Dllookup).entries =
        some addr := by
      have hbytes : bytesAt (store mem s.unEntries (leBytes 8 addr)) s.unEntries 8 =
          some (leBytes 8 addr) := by
        have := bytesAt_store mem s.unEntries (leBytes 8 addr)
        rwa [length_leBytes] at this
      rw [Dllookup.entries, if_neg hheap, hbytes, Option.map_some, ofLe_leBytes hlt]
    -- the first name was copied, and the pointer does not lie over it
    have hterm : store mem s.unEntries (leBytes 8 addr) (addr + (dlMaxSymname - 1)) = some 0 := by
      have hsep : addr + (dlMaxSymname - 1) < s.unEntries ∨
          s.unEntries + (leBytes 8 addr).length ≤ addr + (dlMaxSymname - 1) := by
        rw [length_leBytes]
        by_contra hin
        have := hout (addr + (dlMaxSymname - 1) - s.unEntries) (by omega)
        omega
      rw [store_of_notMem hsep, hcopy (dlMaxSymname - 1) (by omega) (by omega)]
      exact hwf.terminated _ hdyn
    have hacc : Accessible (store mem s.unEntries (leBytes 8 addr)) addr (dlMaxSymname - 1) :=
      (hblock.accessible.mono (Nat.le_refl addr) (by omega)).store _ _
    obtain ⟨len, -, hstr⟩ := exists_stringAt hacc hterm
    have hpos : htVacant < addr := by
      have := hblock.aligned
      simp only [htVacant]
      omega
    have hmoved : Total (dllookupMove memcmp calloc addr) (fun b s' => b = true ∧ s'.ht.size = 1)
        { s with mem := mem } :=
      dllookupMove_spec hrefl hwf.capacity_le hcap hwf.ht_le
        (hunion.mono (Nat.le_refl s.unEntries) (Nat.add_le_add_left (by decide) _))
        hentries hpos hstr
    obtain ⟨b, s', ⟨k, hmove⟩, rfl, hsize⟩ := hmoved
    refine ⟨true, s', ⟨k, fun n hn => ?_⟩, rfl, fun _ => hsize⟩
    rw [hstart, hrealloc]
    exact bind_some (b := ()) rfl (hmove n hn)

theorem onHt_some {x : Prog Ht β} {b : β} (h : onHt x s = some (b, s')) :
    s'.capacity = s.capacity := by
  obtain ⟨r, -, hr⟩ := Option.map_eq_some_iff.mp h
  rw [← (Prod.mk.inj hr).2]

/-- The loop over an `unsigned` counter does not end in a cache of `2 ^ 32` entries. -/
theorem dlReindex_diverges {n m : ℕ} (hcap : 2 ^ 32 ≤ s.capacity)
    (h : fuelLoop (dlReindexBody memcmp calloc m) n 0 s = some ((), s')) : False := by
  refine fuelLoop_partial (I := fun i s => i < 2 ^ 32 ∧ 2 ^ 32 ≤ s.capacity)
    (Q := fun _ _ => False) ?_ n 0 s () s' ⟨by omega, hcap⟩ h
  rintro i s₁ r s₂ ⟨hi, hcap₁⟩ hbody
  obtain ⟨ht, s₃, hget, hbody⟩ := bind_eq_some.mp hbody
  obtain ⟨rfl, rfl⟩ := Prod.mk.inj (Option.some.inj hget)
  rw [if_pos (show i < s₁.capacity by omega)] at hbody
  obtain ⟨p, s₄, hentry, hbody⟩ := bind_eq_some.mp hbody
  obtain ⟨p', -, hp'⟩ := Option.map_eq_some_iff.mp hentry
  obtain ⟨rfl, rfl⟩ := Prod.mk.inj hp'
  obtain ⟨len, s₅, hlen, hbody⟩ := bind_eq_some.mp hbody
  obtain rfl := strlen_partial hlen
  obtain ⟨r', s₆, hins, hpure⟩ := bind_eq_some.mp hbody
  obtain ⟨rfl, rfl⟩ := Prod.mk.inj (Option.some.inj hpure)
  refine ⟨Nat.mod_lt _ (by omega), ?_⟩
  rw [onHt_some hins]
  exact hcap₁

theorem dllookupEnsureCapacity_diverges {n : ℕ} (hgrow : s.capacity ≤ s.ht.size)
    (hcap : 2 ^ 32 ≤ s.capacity)
    (h : dllookupEnsureCapacity memcmp alloc calloc n s = some (true, s')) : False := by
  obtain ⟨s₁, s₂, hget, h⟩ := bind_eq_some.mp h
  obtain ⟨rfl, rfl⟩ := Prod.mk.inj (Option.some.inj hget)
  have hheap : s.capacity ≠ dlStaticSize := by
    simp only [dlStaticSize]
    omega
  rw [if_neg (Nat.not_lt.mpr hgrow), if_neg hheap] at h
  obtain ⟨dyn, s₃, hentry, h⟩ := bind_eq_some.mp h
  obtain ⟨p', -, hp'⟩ := Option.map_eq_some_iff.mp hentry
  obtain ⟨rfl, rfl⟩ := Prod.mk.inj hp'
  cases hrealloc : alloc.realloc s.mem p' (s.capacity * dlentrySize)
      (2 * s.capacity * dlentrySize % sizeMod) with
  | none =>
    rw [hrealloc] at h
    exact absurd (Prod.mk.inj (Option.some.inj h)).1 (by simp)
  | some r =>
    rw [hrealloc] at h
    obtain ⟨u, s₄, hset, h⟩ := bind_eq_some.mp h
    obtain ⟨-, rfl⟩ := Prod.mk.inj (Option.some.inj hset)
    obtain ⟨s₅, s₆, hget, h⟩ := bind_eq_some.mp h
    obtain ⟨rfl, rfl⟩ := Prod.mk.inj (Option.some.inj hget)
    obtain ⟨u, s₇, hwrite, h⟩ := bind_eq_some.mp h
    have hcap₇ : s₇.capacity = s.capacity := by
      rw [dlWrite] at hwrite
      split_ifs at hwrite with hacc
      rw [← (Prod.mk.inj (Option.some.inj hwrite)).2]
    obtain ⟨u, s₈, hclear, h⟩ := bind_eq_some.mp h
    obtain ⟨u, s₉, hloop, -⟩ := bind_eq_some.mp h
    refine dlReindex_diverges ?_ hloop
    rw [onHt_some hclear, hcap₇]
    exact hcap

/-- Whenever a growth succeeds, one entry is left in the hash table. -/
theorem size_of_growth (hrefl : ∀ a, memcmp a a = 0) (halloc : AllocSpec alloc)
    (hwf : DllookupWf s) (hgrow : s.capacity ≤ s.ht.size)
    (hret : Returns (dllookupEnsureCapacity memcmp alloc calloc) s true s') :
    s'.ht.size = 1 := by
  by_cases hcap : s.capacity < 2 ^ 32
  · by_cases hinline : s.capacity = dlStaticSize
    · exact ((dllookupEnsureCapacity_inline hrefl halloc hwf hgrow hinline).of_returns hret).2 rfl
    · exact ((dllookupEnsureCapacity_heap hrefl halloc hwf hgrow hinline hcap).of_returns hret).2
        rfl
  · obtain ⟨k, hk⟩ := hret
    exact (dllookupEnsureCapacity_diverges hgrow (by omega) (hk k (Nat.le_refl k))).elim

/-- No growth that succeeds keeps a cache: at least 32 names were cached, and one
key is left. -/
theorem dllookup_growth_fails (hrefl : ∀ a, memcmp a a = 0) (halloc : AllocSpec alloc)
    (hwf : DllookupWf s) (hgrow : s.capacity ≤ s.ht.size)
    (hret : Returns (dllookupEnsureCapacity memcmp alloc calloc) s true s') :
    ¬ GrowthKeeps memcmp s s' := by
  intro hkeeps
  have hone := size_of_growth hrefl halloc hwf hgrow hret
  have hsize := hkeeps.size
  have hcap := hwf.capacity_le
  simp only [dlStaticSize] at hcap
  omega

end Growth

/-! ### A full cache -/

/-- The memory of a cache at address 4096 whose 32 names are one byte long. -/
def dlMem : Mem := fun a =>
  if 4096 ≤ a ∧ a < 4096 + dlStaticSize * dlentrySize then
    if (a - 4096) % dlentrySize = 0 then some (UInt8.ofNat ((a - 4096) / dlentrySize + 1))
    else some 0
  else none

/-- The key of the name with number `i`. -/
def dlKey (i : ℕ) : HtEntry := ⟨4096 + i * dlentrySize, 1⟩

/-- The index of the names. -/
def dlIndex : Option Ht :=
  (List.range dlStaticSize).foldlM
    (fun ht i => (htInsert ⟨dlMem, bytesDiff⟩ (fun _ => true) 40 (dlKey i) ht).map Prod.snd) htInit

/-- An allocator with one place for a block. -/
def oneBlock : DlAlloc where
  malloc mem n :=
    if n ≤ 2 ^ 32 ∧ ∀ i < n, mem (2 ^ 16 + i) = none then
      some (2 ^ 16, fun a => if 2 ^ 16 ≤ a ∧ a < 2 ^ 16 + n then some 0 else mem a)
    else none
  realloc _ _ _ _ := none

theorem oneBlock_spec : AllocSpec oneBlock := by
  have hmalloc : ∀ mem n p mem', oneBlock.malloc mem n = some (p, mem') →
      n ≤ 2 ^ 32 ∧ (∀ i < n, mem (2 ^ 16 + i) = none) ∧ p = 2 ^ 16 ∧
        mem' = fun a => if 2 ^ 16 ≤ a ∧ a < 2 ^ 16 + n then some 0 else mem a := by
    intro mem n p mem' h
    simp only [oneBlock] at h
    split_ifs at h with hc
    obtain ⟨rfl, rfl⟩ := Prod.mk.inj (Option.some.inj h)
    exact ⟨hc.1, hc.2, rfl, rfl⟩
  constructor
  case malloc_block =>
    intro mem n p mem' h
    obtain ⟨hn, -, rfl, rfl⟩ := hmalloc _ _ _ _ h
    refine ⟨by decide, by omega, fun i hi => ?_⟩
    rw [if_pos ⟨by omega, by omega⟩]
    rfl
  case malloc_fresh =>
    intro mem n p mem' h a hlo hhi
    obtain ⟨-, hnone, rfl, -⟩ := hmalloc _ _ _ _ h
    have := hnone (a - 2 ^ 16) (by omega)
    rwa [show 2 ^ 16 + (a - 2 ^ 16) = a by omega] at this
  case malloc_frame =>
    intro mem n p mem' h a ha
    obtain ⟨-, -, rfl, rfl⟩ := hmalloc _ _ _ _ h
    exact if_neg (by omega)
  all_goals exact fun _ _ _ _ _ _ h => absurd h (by simp [oneBlock])

theorem htFind_partial {env : HtEnv} {e : HtEntry} {ht ht' : Ht} {n : ℕ} {r : Option ℕ}
    (hcap : 0 < ht.capacity) (h : htFind env e n ht = some (r, ht')) : ht' = ht := by
  obtain ⟨idx, ht₁, hprobe, hrest⟩ := bind_eq_some.mp h
  obtain ⟨rfl, -⟩ := htProbe_partial hcap hprobe
  obtain ⟨ht₂, ht₃, hget, hpure⟩ := bind_eq_some.mp hrest
  obtain ⟨rfl, rfl⟩ := Prod.mk.inj (Option.some.inj hget)
  exact (Prod.mk.inj (Option.some.inj hpure)).2.symm

/-- A cache of 32 names, and what it becomes when it grows. -/
theorem exists_full_cache : ∃ s s', DllookupWf s ∧ s.capacity ≤ s.ht.size ∧
    (∀ i < dlStaticSize, DlFinds bytesDiff s (dlKey i) (dlKey i).key) ∧
    Returns (dllookupEnsureCapacity bytesDiff oneBlock fun _ => true) s true s' := by
  have hsome : dlIndex.isSome = true := by decide +kernel
  obtain ⟨ht, hht⟩ := Option.isSome_iff_exists.mp hsome
  have hfacts : dlIndex.map (fun ht => (ht.capacity, ht.size,
      (List.range dlStaticSize).all fun i =>
        (htFind ⟨dlMem, bytesDiff⟩ (dlKey i) 40 ht).any fun r =>
          r.1.any fun idx => (ht.storage idx).key = (dlKey i).key)) = some (67, 32, true) := by
    decide +kernel
  rw [hht] at hfacts
  simp only [Option.map_some, Option.some.injEq, Prod.mk.injEq, List.all_eq_true, List.mem_range]
    at hfacts
  obtain ⟨hcap, hsize, hfind⟩ := hfacts
  have hacc : Accessible dlMem 4096 (dlStaticSize * dlentrySize) := by
    intro i hi
    rw [dlMem, if_pos ⟨by omega, by omega⟩]
    split_ifs <;> rfl
  let s : Dllookup := ⟨dlMem, ht, 4096, dlStaticSize⟩
  have hwf : DllookupWf s := by
    have hbytes : dlStaticSize * dlentrySize < 2 ^ 63 := by decide
    have hpos : htVacant < 4096 := by decide
    refine ⟨Nat.le_refl _, hbytes, ?_, ?_, hpos, hacc, fun h => absurd rfl h, ?_⟩
    · show htStaticSize ≤ ht.capacity
      rw [hcap]
      decide
    · show ht.capacity < 2 ^ 60
      rw [hcap]
      decide
    · intro p hp
      obtain rfl : 4096 = p := Option.some.inj hp
      rfl
  have hgrow : s.capacity ≤ s.ht.size := by
    show dlStaticSize ≤ ht.size
    rw [hsize]
  have hmalloc : (oneBlock.malloc s.mem (2 * s.capacity * dlentrySize % sizeMod)).isSome = true := by
    have hfree : 2 * s.capacity * dlentrySize % sizeMod ≤ 2 ^ 32 ∧
        ∀ i < 2 * s.capacity * dlentrySize % sizeMod, s.mem (2 ^ 16 + i) = none := by
      have hbytes : 2 * dlStaticSize * dlentrySize % sizeMod ≤ 2 ^ 32 := by decide
      refine ⟨hbytes, fun i _ => if_neg ?_⟩
      simp only [dlStaticSize, dlentrySize, dlMaxSymname]
      omega
    simp only [oneBlock]
    rw [if_pos hfree]
    rfl
  have hrefl : ∀ a, bytesDiff a a = 0 := fun a => (byteEnv_exact a a rfl).mpr rfl
  have hgrown : Total (dllookupEnsureCapacity bytesDiff oneBlock fun _ => true)
      (fun b _ => b = true) s := by
    refine (dllookupEnsureCapacity_inline hrefl oneBlock_spec hwf hgrow rfl).mono ?_
    rintro b s' ⟨hb, -⟩
    exact hb.trans hmalloc
  obtain ⟨b, s', hret, rfl⟩ := hgrown
  refine ⟨s, s', hwf, hgrow, fun i hi => ?_, hret⟩
  have hi' := hfind i hi
  simp only [Option.any_eq_true, decide_eq_true_eq] at hi'
  obtain ⟨⟨r, ht'⟩, hrun, idx, rfl, hkey⟩ := hi'
  obtain rfl := htFind_partial (by omega) hrun
  have hread : Accessible dlMem (dlKey i).key (dlKey i).size := by
    refine hacc.mono (Nat.le_add_right _ _) ?_
    simp only [dlKey, dlStaticSize, dlentrySize, dlMaxSymname] at hi ⊢
    omega
  exact ⟨hread.bytesAt, idx, fuelMono_htFind.returns hrun, hkey⟩

/-- After the 33rd name the cache of 32 names is lost. -/
theorem dllookup_growth_loses_names : AllocSpec oneBlock ∧ ∃ s s', DllookupWf s ∧
    (∀ i < dlStaticSize, DlFinds bytesDiff s (dlKey i) (dlKey i).key) ∧
    Returns (dllookupEnsureCapacity bytesDiff oneBlock fun _ => true) s true s' ∧
    s.ht.size ≠ s'.ht.size ∧ ¬ GrowthKeeps bytesDiff s s' := by
  obtain ⟨s, s', hwf, hgrow, hfinds, hret⟩ := exists_full_cache
  have hrefl : ∀ a, bytesDiff a a = 0 := fun a => (byteEnv_exact a a rfl).mpr rfl
  have hone := size_of_growth hrefl oneBlock_spec hwf hgrow hret
  have hne : s.ht.size ≠ s'.ht.size := by
    have hcap := hwf.capacity_le
    simp only [dlStaticSize] at hcap
    omega
  exact ⟨oneBlock_spec, s, s', hwf, hfinds, hret, hne, fun hkeeps => hne hkeeps.size.symm⟩

theorem dllookup_growth_fails_run : ∃ s s', DllookupWf s ∧
    Returns (dllookupEnsureCapacity bytesDiff oneBlock fun _ => true) s true s' ∧
    ¬ GrowthKeeps bytesDiff s s' := by
  obtain ⟨s, s', hwf, hgrow, -, hret⟩ := exists_full_cache
  have hrefl : ∀ a, bytesDiff a a = 0 := fun a => (byteEnv_exact a a rfl).mpr rfl
  exact ⟨s, s', hwf, hret, dllookup_growth_fails hrefl oneBlock_spec hwf hgrow hret⟩

end Cldm
