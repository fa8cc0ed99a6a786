/-
Runs of the hash table.

A run calls the operations on a table made by `cldm_ht_init`, and keeps, from
what they answer, the set of the keys that ought to be stored.

* `ht_keys_unique` — in every run whose insertions are safe, no key is stored
  twice and the operations answer as on that set;
* `ht_stores_key_twice` — an insertion that reuses the slot of a removed entry
  stores a key that is present;
* `ht_probes_end` — in every run whose insertions leave an unused slot, every
  probe ends;
* `ht_probe_diverges` — insertions and removals can use up all slots, and then
  a search does not end.
-/
import Cldm.HashFill

namespace Cldm

open Prog Probing Bytes

/-- A call of an operation.  An insertion may allocate. -/
inductive HtCall where
  | insert (entry : HtEntry) (calloc : ℕ → Bool)
  | find (entry : HtEntry)
  | remove (entry : HtEntry)
  | clear

/-- A run of calls with readable keys that `ok` allows, to a table and the keys
that ought to be stored in it. -/
inductive HtRun (env : HtEnv) (ok : HtCall → Ht → Prop) : Ht → Set (List UInt8) → Prop
  | init : HtRun env ok htInit ∅
  | insert {s s' : Ht} {K : Set (List UInt8)} {e : HtEntry} {calloc : ℕ → Bool} {r : Option ℕ} :
      HtRun env ok s K → Readable env.mem e → ok (.insert e calloc) s →
      Returns (fun n => htInsert env calloc n e) s r s' →
      HtRun env ok s' (if r.isSome then insert (keyOf env.mem e) K else K)
  | find {s s' : Ht} {K : Set (List UInt8)} {e : HtEntry} {r : Option ℕ} :
      HtRun env ok s K → Readable env.mem e → ok (.find e) s →
      Returns (htFind env e) s r s' → HtRun env ok s' K
  | remove {s s' : Ht} {K : Set (List UInt8)} {e : HtEntry} {b : Bool} :
      HtRun env ok s K → Readable env.mem e → ok (.remove e) s →
      Returns (htRemove env e) s b s' →
      HtRun env ok s' (if b then K \ {keyOf env.mem e} else K)
  | clear {s s' : Ht} {K : Set (List UInt8)} :
      HtRun env ok s K → ok .clear s → htClear s = some ((), s') → HtRun env ok s' ∅

section Runs

variable {env : HtEnv} {s s' : Ht} {K : Set (List UInt8)} {e : HtEntry}

/-- What every operation keeps holds of the table of every run. -/
theorem HtRun.keeps {ok : HtCall → Ht → Prop} {I : Ht → Prop} {E : HtEntry → Prop}
    (hinit : I htInit) (hread : ∀ e, Readable env.mem e → E e)
    (hput : ∀ s idx e, I s → E e → I (s.put idx e))
    (hslot : ∀ s i, I s → i < s.capacity → (s.storage i).status ≠ 0 → E (s.storage i))
    (hfresh : ∀ s cap n, I s → htSizeup s.capacity n s = some (cap, s) →
      cap * htEntrySize < sizeMod → I (htFresh cap))
    (hdrop : ∀ s idx, I s → I (s.drop idx))
    (hclear : ∀ s s', I s → htClear s = some ((), s') → I s')
    (h : HtRun env ok s K) : I s := by
  induction h with
  | init => exact hinit
  | insert _ he _ hret ih =>
    obtain ⟨n, hn⟩ := hret
    exact htInsert_keeps hput hslot hfresh ih (fun _ => hread _ he) (hn n (Nat.le_refl n))
  | find _ _ _ hret ih =>
    obtain ⟨n, hn⟩ := hret
    rw [htFind_unchanged (hn n (Nat.le_refl n))]
    exact ih
  | remove _ _ _ hret ih =>
    obtain ⟨n, hn⟩ := hret
    obtain ⟨idx, -, ⟨-, -, rfl⟩ | ⟨-, -, rfl⟩⟩ := htRemove_cases (hn n (Nat.le_refl n))
    · exact ih
    · exact hdrop _ idx ih
  | clear _ _ hret ih => exact hclear _ _ ih hret

/-! ### No key is stored twice -/

/-- Insertions store addresses above the status values, and allocations succeed. -/
def Allocates : HtCall → Ht → Prop
  | .insert e calloc, _ => htVacant < e.key ∧ ∀ n, calloc n = true
  | _, _ => True

/-- An insertion is safe as well. -/
def SafeCall (env : HtEnv) : HtCall → Ht → Prop
  | .insert e calloc, s => Allocates (.insert e calloc) s ∧ InsertSafe env s e
  | _, _ => True

theorem HtRun.inv (hexact : MemcmpExact env) (h : HtRun env (SafeCall env) s K) :
    HtInv env.mem s K := by
  induction h with
  | init => exact htInit_inv
  | @insert s s' K e calloc r _ he hok hret ih =>
    obtain ⟨⟨hkey, hcalloc⟩, hsafe⟩ := hok
    obtain ⟨hr, hinv⟩ := (ih.insert (hexact.insertRight _ _) he hkey hsafe hcalloc).of_returns hret
    cases r with
    | none =>
      rw [Set.insert_eq_of_mem (hr.mp rfl)] at hinv
      exact hinv
    | some idx => exact hinv
  | find _ he _ hret ih =>
    obtain ⟨rfl, -⟩ := (ih.find (hexact.tells ..) he).of_returns hret
    exact ih
  | @remove s s' K e b _ he _ hret ih =>
    obtain ⟨hb, hinv⟩ := (ih.remove (hexact.tells ..) he).of_returns hret
    cases b with
    | false =>
      have hx : keyOf env.mem e ∉ K := fun hx => absurd (hb.mpr hx) (by simp)
      rw [Set.sdiff_singleton_eq_self hx] at hinv
      exact hinv
    | true => exact hinv
  | clear _ _ hret ih => exact (wp_of_some hret).mp ih.clear

/-- No key occupies two live slots, and the next call, whichever it is, answers
as on the set `K` of the keys that ought to be stored. -/
structure KeysUnique (env : HtEnv) (ok : HtCall → Ht → Prop) (s : Ht)
    (K : Set (List UInt8)) : Prop where
  unique : ∀ i < s.capacity, ∀ j < s.capacity, htVacant < (s.storage i).status →
    htVacant < (s.storage j).status → (s.storage i).size = (s.storage j).size →
    keyOf env.mem (s.storage i) = keyOf env.mem (s.storage j) → i = j
  present : ∀ e, Readable env.mem e → (Present env.mem s e ↔ keyOf env.mem e ∈ K)
  insert : ∀ e calloc, Readable env.mem e → ok (.insert e calloc) s →
    Total (fun n => htInsert env calloc n e) (fun r s' => (r = none ↔ Present env.mem s e) ∧
      Present env.mem s' e) s
  find : ∀ e, Readable env.mem e → Total (htFind env e) (fun r s' => s' = s ∧
    (r = none ↔ keyOf env.mem e ∉ K)) s
  remove : ∀ e, Readable env.mem e → Total (htRemove env e) (fun b s' =>
    (b = true ↔ Present env.mem s e) ∧ ¬ Present env.mem s' e) s

/-- In every run whose insertions are safe, no key is stored twice. -/
theorem ht_keys_unique (hexact : MemcmpExact env) (h : HtRun env (SafeCall env) s K) :
    KeysUnique env (SafeCall env) s K := by
  have hinv := h.inv hexact
  constructor
  case unique => exact fun i hi j hj hli hlj _ heq => hinv.unique hi hj hli hlj heq
  case present => exact fun e he => hinv.present_iff he
  case insert =>
    rintro e calloc he ⟨⟨hkey, hcalloc⟩, hsafe⟩
    refine (hinv.insert (hexact.insertRight _ _) he hkey hsafe hcalloc).mono ?_
    rintro r s' ⟨hr, hinv'⟩
    exact ⟨hr.trans (hinv.present_iff he).symm,
      (hinv'.present_iff he).mpr (Set.mem_insert _ _)⟩
  case find =>
    intro e he
    refine (hinv.find (hexact.tells ..) he).mono ?_
    rintro r s' ⟨hs, hr, -⟩
    exact ⟨hs, hr⟩
  case remove =>
    intro e he
    refine (hinv.remove (hexact.tells ..) he).mono ?_
    rintro b s' ⟨hb, hinv'⟩
    refine ⟨hb.trans (hinv.present_iff he).symm, fun hp => ?_⟩
    exact ((hinv'.present_iff he).mp hp).2 rfl

/-! ### Probes end -/

/-- An insertion that does not make the table grow leaves an unused slot. -/
def LeavesUnusedCall (env : HtEnv) : HtCall → Ht → Prop
  | .insert e _, s => htShouldExpand s = true ∨ LeavesUnused env s e
  | _, _ => True

/-- The part of the invariant that holds for any keys and any comparison. -/
structure HtSafe (mem : Mem) (s : Ht) : Prop where
  lt : s.capacity < 2 ^ 60
  live : LiveReadable mem s
  unused : HasUnused s

/-- The number of slots that were ever used. -/
def usedCount (s : Ht) : ℕ :=
  count (fun slot : HtEntry => decide (slot.status ≠ 0)) s.capacity s.storage

theorem hasUnused_of_usedCount (h : usedCount s < s.capacity) : HasUnused s := by
  obtain ⟨i, hi, h0⟩ := exists_not_of_count_lt h
  exact ⟨i, hi, by simpa using h0⟩

theorem usedCount_put {idx : ℕ} (hidx : idx < s.capacity) (e : HtEntry) :
    usedCount (s.put idx e) ≤ usedCount s + 1 := by
  let p : HtEntry → Bool := fun slot => decide (slot.status ≠ 0)
  have h : usedCount (s.put idx e) + (if p (s.storage idx) then 1 else 0) =
      usedCount s + (if p e then 1 else 0) := count_update hidx e
  have hle : (if p e then 1 else 0) ≤ 1 := by
    split_ifs <;> omega
  omega

theorem htPlace_partial {n : ℕ} {r : Option ℕ} (hcap : 0 < s.capacity)
    (h : htPlace env e n s = some (r, s')) : s' = s ∨ ∃ idx < s.capacity, s' = s.put idx e := by
  obtain ⟨idx, hprobe, ⟨-, -, rfl⟩ | ⟨-, -, rfl⟩⟩ := htPlace_cases h
  · have hidx := htProbe_partial hcap hprobe
    exact .inr ⟨idx, hidx.2, rfl⟩
  · exact .inl rfl

/-- A table of a growth after `i` turns. -/
structure Grown (mem : Mem) (cap i : ℕ) (s : Ht) : Prop where
  capacity : s.capacity = cap
  live : LiveReadable mem s
  used : usedCount s ≤ i
  size : s.size ≤ i

theorem Grown.mono {mem : Mem} {cap i j : ℕ} (h : Grown mem cap i s) (hij : i ≤ j) :
    Grown mem cap j s := ⟨h.capacity, h.live, h.used.trans hij, h.size.trans hij⟩

theorem Grown.hasUnused {mem : Mem} {cap i : ℕ} (h : Grown mem cap i s)
    (hi : i < cap) : HasUnused s := by
  have := h.used
  have := h.capacity
  exact hasUnused_of_usedCount (by omega)

theorem Grown.put {mem : Mem} {cap i idx : ℕ} (h : Grown mem cap i s)
    (hidx : idx < s.capacity) (he : htVacant < e.status → Readable mem e) :
    Grown mem cap (i + 1) (s.put idx e) := by
  refine ⟨h.capacity, h.live.put he idx, (usedCount_put hidx e).trans ?_, ?_⟩
  · have := h.used
    omega
  · have := h.size
    have hmod : (s.size + 1) % sizeMod ≤ s.size + 1 := Nat.mod_le ..
    show (s.size + 1) % sizeMod ≤ i + 1
    omega

theorem grown_fresh (mem : Mem) (cap : ℕ) : Grown mem cap 0 (htFresh cap) := by
  refine ⟨rfl, fun i _ hlive => ?_, ?_, Nat.le_refl 0⟩
  · exact absurd hlive (Nat.not_lt_zero 1)
  · exact (count_const _ rfl).le

/-- The first `j` turns of a rehash use at most `j` slots. -/
theorem htRehash_partial {data : ℕ → HtEntry} {prev cap j m n : ℕ} {calloc : ℕ → Bool}
    (hcap : 2 * prev < cap) (hj : j ≤ prev)
    (hread : ∀ i < prev, htVacant < (data i).status → Readable env.mem (data i))
    (h : htRehash (htInsert env calloc m) data j n (htFresh cap) = some ((), s')) :
    Grown env.mem cap j s' := by
  -- the counter stays below `2 ^ 32`, so that the loop only ends if `j` is
  refine fuelLoop_partial
    (I := fun i s => i < 2 ^ 32 ∧ (j < 2 ^ 32 → i ≤ j ∧ Grown env.mem cap i s))
    (Q := fun _ s => Grown env.mem cap j s) ?_ n 0 _ () s'
    ⟨by omega, fun _ => ⟨Nat.zero_le j, grown_fresh env.mem cap⟩⟩ h
  rintro i s r s₁ ⟨hi, hgrown⟩ hbody
  have hmod : (i + 1) % 2 ^ 32 < 2 ^ 32 := Nat.mod_lt _ (by omega)
  obtain ⟨hge, rfl, rfl⟩ | ⟨hlt, rfl, hturn⟩ := htRehashBody_cases hbody
  · obtain ⟨hle, hg⟩ := hgrown (by omega)
    obtain rfl : i = j := by omega
    exact hg
  refine ⟨hmod, fun hj32 => ?_⟩
  obtain ⟨-, hg⟩ := hgrown hj32
  rw [Nat.mod_eq_of_lt (by omega : i + 1 < 2 ^ 32)]
  refine ⟨hlt, ?_⟩
  obtain ⟨-, rfl⟩ | ⟨-, r', hins⟩ := hturn
  · exact hg.mono (Nat.le_succ i)
  · have hexp : htShouldExpand s = false := by
      have := hg.size
      have := hg.capacity
      rw [← Bool.not_eq_true, htShouldExpand_iff (by omega)]
      omega
    cases m with
    | zero => exact absurd hins (by simp [htInsert])
    | succ m =>
      rw [htInsert_of_not_expand hexp] at hins
      have hpos : 0 < s.capacity := by
        have := hg.capacity
        omega
      rcases htPlace_partial hpos hins with rfl | ⟨idx, hidx, rfl⟩
      · exact hg.mono (Nat.le_succ i)
      · exact hg.put hidx (hread i (by omega))

/-- Every probe of the table ends: some slot was never used. -/
def ProbesEnd (env : HtEnv) (s : Ht) : Prop :=
  HasUnused s ∧ ∀ e, Readable env.mem e → ∀ reuse, ∃ idx, Returns (htProbe env e reuse) s idx s

theorem probesEnd_of_unused (hun : HasUnused s) (hlive : LiveReadable env.mem s) :
    ProbesEnd env s :=
  ⟨hun, fun _ he reuse => htProbe_total hun hlive he reuse⟩

/-! ### More fuel -/

theorem fuelMono_htSizeup {σ : Type} (cap : ℕ) : FuelMono (htSizeup cap : ℕ → Prog σ ℕ) :=
  .loop (fun c => (fuelMono_isPrime c).bind fun _ => .ite _ (.const _) (.const _)) _

theorem fuelMono_htProbe (reuse : Bool) : FuelMono (htProbe env e reuse) :=
  (FuelMono.const _).bind fun _ => (FuelMono.const _).bind fun _ =>
    .loop (fun idx => .const (htProbeBody env e reuse idx)) _

theorem fuelMono_htPlace : FuelMono (htPlace env e) :=
  (fuelMono_htProbe true).bind fun _ => .const _

theorem fuelMono_htFind : FuelMono (htFind env e) :=
  (fuelMono_htProbe false).bind fun _ => .const _

theorem fuelMono_htRemove : FuelMono (htRemove env e) :=
  (fuelMono_htProbe false).bind fun _ => .const _

theorem le_htExpand {ins ins' : HtEntry → Prog Ht (Option ℕ)} (hins : ∀ e, Le (ins e) (ins' e))
    (calloc : ℕ → Bool) {n m : ℕ} (hnm : n ≤ m) :
    Le (htExpand ins calloc n) (htExpand ins' calloc m) := by
  refine (Le.refl _).bind fun ht => ((fuelMono_htSizeup _).le hnm).bind fun cap => ?_
  refine .ite _ ((Le.refl _).bind fun _ => Le.bind ?_ fun _ => .refl _) (.refl _)
  refine .loop (fun i => ?_) hnm 0
  exact .ite _ (.ite _ ((hins _).bind fun _ => .refl _) (.refl _)) (.refl _)

theorem fuelMono_htInsert (calloc : ℕ → Bool) (e : HtEntry) :
    FuelMono fun n => htInsert env calloc n e := by
  intro n
  induction n generalizing e with
  | zero => exact fun s r h => absurd h (by simp [htInsert])
  | succ n ih =>
    refine (Le.refl _).bind fun ht => .ite _ ?_ (fuelMono_htPlace n)
    exact (le_htExpand ih calloc (Nat.le_succ n)).bind fun b => .ite _ (fuelMono_htPlace n) (.refl _)

/-! ### Insertions that may grow -/

/-- A growth that returns leaves the table alone or uses few of the new slots. -/
theorem htExpand_partial {calloc : ℕ → Bool} {m n : ℕ} {b : Bool} (h : HtSafe env.mem s)
    (hret : htExpand (htInsert env calloc m) calloc n s = some (b, s')) :
    b = false ∧ s' = s ∨ ∃ cap, 2 * s.capacity < cap ∧ cap ≤ 4 * s.capacity + 2 ∧ cap < 2 ^ 60 ∧
      Grown env.mem cap s.capacity s' := by
  obtain ⟨cap, hsize, ⟨hb, hs, -⟩ | ⟨-, hcap, -, hre⟩⟩ := htExpand_cases hret
  · exact .inl ⟨hb, hs⟩
  · obtain ⟨-, hlo, hhi⟩ := (htSizeup_spec h.unused.pos h.lt s).of_returns
      ((fuelMono_htSizeup _).returns hsize)
    simp only [htEntrySize, sizeMod] at hcap
    exact .inr ⟨cap, hlo, hhi, by omega, htRehash_partial hlo (Nat.le_refl _) h.live hre⟩

theorem HtSafe.put (h : HtSafe env.mem s) (he : Readable env.mem e) {idx : ℕ}
    (hun : HasUnused (s.put idx e)) : HtSafe env.mem (s.put idx e) :=
  ⟨h.lt, h.live.put (fun _ => he) idx, hun⟩

/-- Under its condition, an insertion leaves an unused slot. -/
theorem HtSafe.insert (h : HtSafe env.mem s) (he : Readable env.mem e) {calloc : ℕ → Bool}
    (hok : LeavesUnusedCall env (.insert e calloc) s) {r : Option ℕ}
    (hret : Returns (fun n => htInsert env calloc n e) s r s') : HtSafe env.mem s' := by
  by_cases hexp : htShouldExpand s = true
  · obtain ⟨n, hn⟩ := hret
    have hrun := hn (n + 1) (Nat.le_succ n)
    dsimp only at hrun
    rw [htInsert_of_expand hexp] at hrun
    obtain ⟨b, s₁, hexpand, hrest⟩ := bind_eq_some.mp hrun
    have hpos := h.unused.pos
    rcases htExpand_partial h hexpand with ⟨rfl, rfl⟩ | ⟨cap, hlo, -, hhi, hg⟩
    · obtain ⟨-, rfl⟩ := Prod.mk.inj (Option.some.inj hrest)
      exact h
    · -- the new storage has more than twice the slots
      have hcap := hg.capacity
      have hsafe : HtSafe env.mem s₁ := ⟨by omega, hg.live, hg.hasUnused (by omega)⟩
      split_ifs at hrest with hb
      · rcases htPlace_partial (by omega) hrest with rfl | ⟨idx, hidx, rfl⟩
        · exact hsafe
        · exact hsafe.put he ((hg.put hidx fun _ => he).hasUnused (by omega))
      · obtain ⟨-, rfl⟩ := Prod.mk.inj (Option.some.inj hrest)
        exact hsafe
  · have hleaves : LeavesUnused env s e := hok.resolve_left hexp
    obtain ⟨k, hk⟩ := h.unused.firstAt env true e
    have hplace := htPlace_spec h.unused.pos h.live he hk
    rcases (total_htInsert_of_not_expand (Bool.eq_false_iff.mpr hexp) hplace).of_returns hret with ⟨hfree, -, rfl⟩ | ⟨-, -, rfl⟩
    · exact h.put he (hleaves.put h.unused hk hfree)
    · exact h

theorem HtSafe.remove (h : HtSafe env.mem s) (he : Readable env.mem e) {b : Bool}
    (hret : Returns (htRemove env e) s b s') : HtSafe env.mem s' := by
  obtain ⟨k, hk⟩ := h.unused.firstAt env false e
  rcases (htRemove_spec h.unused.pos h.live he hk).of_returns hret with
    ⟨-, -, rfl⟩ | ⟨hlive, -, rfl⟩
  · exact h
  · exact ⟨h.lt, h.live.drop _, h.unused.drop (by omega)⟩

theorem HtSafe.find (h : HtSafe env.mem s) (he : Readable env.mem e) {r : Option ℕ}
    (hret : Returns (htFind env e) s r s') : s' = s := by
  obtain ⟨k, hk⟩ := h.unused.firstAt env false e
  have hfind : Total (htFind env e) (fun _ s' => s' = s) s := by
    refine ((htProbe_spec h.unused.pos h.live he hk).mono ?_).bind
    rintro idx _ ⟨rfl, rfl⟩
    exact Total.const ((wp_bind ..).mpr ((wp_get ..).mpr ((wp_pure ..).mpr rfl)))
  exact hfind.of_returns hret

theorem HtSafe.clear (h : HtSafe env.mem s) (hret : htClear s = some ((), s')) :
    HtSafe env.mem s' := by
  obtain ⟨-, rfl⟩ := Prod.mk.inj (Option.some.inj hret)
  have hzero : ∀ i < s.capacity,
      (if i < s.capacity then (⟨0, 0⟩ : HtEntry) else s.storage i).status = 0 := by
    intro i hi
    rw [if_pos hi]
    rfl
  refine ⟨h.lt, fun i hi hlive => ?_, 0, h.unused.pos, hzero 0 h.unused.pos⟩
  have : htVacant < (if i < s.capacity then (⟨0, 0⟩ : HtEntry) else s.storage i).status := hlive
  rw [hzero i hi] at this
  exact absurd this (by decide)

theorem HtRun.safe (h : HtRun env (LeavesUnusedCall env) s K) : HtSafe env.mem s := by
  induction h with
  | init =>
    have hinit : HtInv env.mem htInit ∅ := htInit_inv
    exact ⟨hinit.lt, hinit.live, hinit.unused⟩
  | insert _ he hok hret ih => exact ih.insert he hok hret
  | find _ he _ hret ih =>
    rw [ih.find he hret]
    exact ih
  | remove _ he _ hret ih => exact ih.remove he hret
  | clear _ _ hret ih => exact ih.clear hret

/-- In every run whose insertions leave an unused slot, every probe ends: those
of the next call, and those that a growth makes in the new storage. -/
theorem ht_probes_end (h : HtRun env (LeavesUnusedCall env) s K) :
    ProbesEnd env s ∧ ∀ calloc cap, Returns (htSizeup s.capacity) s cap s →
      ∀ j ≤ s.capacity, ∀ m n s',
        htRehash (htInsert env calloc m) s.storage j n (htFresh cap) = some ((), s') →
        ProbesEnd env s' := by
  have hsafe := h.safe
  refine ⟨probesEnd_of_unused hsafe.unused hsafe.live, ?_⟩
  intro calloc cap hsize j hj m n s' hre
  obtain ⟨-, hlo, -⟩ := (htSizeup_spec hsafe.unused.pos hsafe.lt s).of_returns hsize
  have hg := htRehash_partial hlo hj hsafe.live hre
  have hpos := hsafe.unused.pos
  exact probesEnd_of_unused (hg.hasUnused (by omega)) hg.live

end Runs

/-! ### Runs on one-byte keys -/

/-- `memcmp`. -/
def bytesDiff : List UInt8 → List UInt8 → ℤ
  | a :: as, b :: bs => if a = b then bytesDiff as bs else (a.toNat : ℤ) - b.toNat
  | _, _ => 0

attribute [grind =] bytesDiff

/-- Every byte `b` lies at address `256 + b`. -/
def byteEnv : HtEnv where
  mem a := if 256 ≤ a ∧ a < 512 then some (UInt8.ofNat (a - 256)) else none
  memcmp := bytesDiff

/-- The key that consists of the byte `b`. -/
def byteKey (b : ℕ) : HtEntry := ⟨256 + b, 1⟩

theorem byteEnv_exact : MemcmpExact byteEnv := by
  intro a
  induction a with
  | nil =>
    intro b hlen
    obtain rfl : b = [] := List.length_eq_zero_iff.mp hlen.symm
    exact iff_of_true rfl rfl
  | cons x as ih =>
    intro b hlen
    cases b with
    | nil => exact absurd hlen (by simp)
    | cons y bs =>
      have hlen' : as.length = bs.length := by simpa using hlen
      show (if x = y then bytesDiff as bs else (x.toNat : ℤ) - y.toNat) = 0 ↔ x :: as = y :: bs
      by_cases hxy : x = y
      · subst hxy
        rw [if_pos rfl, List.cons_inj_right]
        exact ih bs hlen'
      · rw [if_neg hxy]
        have hne : x.toNat ≠ y.toNat := fun h => hxy (UInt8.toNat_inj.mp h)
        refine iff_of_false (by omega) fun h => hxy (List.cons.inj h).1

theorem bytesAt_byteKey {b : ℕ} (hb : b < 256) :
    bytesAt byteEnv.mem (byteKey b).key (byteKey b).size = some [UInt8.ofNat b] := by
  have hmem : byteEnv.mem (256 + b) = some (UInt8.ofNat b) := by
    show (if 256 ≤ 256 + b ∧ 256 + b < 512 then some (UInt8.ofNat (256 + b - 256)) else none) = _
    rw [if_pos ⟨by omega, by omega⟩, Nat.add_sub_cancel_left]
  exact bytesAt_succ.mpr ⟨_, [], rfl, hmem, rfl⟩

theorem readable_byteKey {b : ℕ} (hb : b < 256) : Readable byteEnv.mem (byteKey b) :=
  ⟨_, bytesAt_byteKey hb⟩

/-- The entry of a call. -/
def HtCall.entry : HtCall → Option HtEntry
  | insert e _ | find e | remove e => some e
  | clear => none

/-- Run a call. -/
def HtCall.run (fuel : ℕ) : HtCall → Ht → Option Ht
  | insert e calloc, s => (htInsert byteEnv calloc fuel e s).map Prod.snd
  | find e, s => (htFind byteEnv e fuel s).map Prod.snd
  | remove e, s => (htRemove byteEnv e fuel s).map Prod.snd
  | clear, s => (htClear s).map Prod.snd

theorem HtCall.run_htRun {ok : HtCall → Ht → Prop} {fuel : ℕ} {c : HtCall} {s s' : Ht}
    {K : Set (List UInt8)} (h : HtRun byteEnv ok s K) (hr : c.run fuel s = some s')
    (hread : ∀ e ∈ c.entry, Readable byteEnv.mem e) (hok : ok c s) :
    ∃ K', HtRun byteEnv ok s' K' := by
  cases c with
  | insert e calloc =>
    obtain ⟨⟨r, _⟩, hret, rfl⟩ := Option.map_eq_some_iff.mp hr
    exact ⟨_, h.insert (hread e rfl) hok ((fuelMono_htInsert calloc e).returns hret)⟩
  | find e =>
    obtain ⟨⟨r, _⟩, hret, rfl⟩ := Option.map_eq_some_iff.mp hr
    exact ⟨_, h.find (hread e rfl) hok (fuelMono_htFind.returns hret)⟩
  | remove e =>
    obtain ⟨⟨b, _⟩, hret, rfl⟩ := Option.map_eq_some_iff.mp hr
    exact ⟨_, h.remove (hread e rfl) hok (fuelMono_htRemove.returns hret)⟩
  | clear =>
    rw [HtCall.run, Option.map_eq_some_iff] at hr
    obtain ⟨⟨_, _⟩, hret, rfl⟩ := hr
    exact ⟨_, h.clear hok hret⟩

/-- Run calls on a fresh table. -/
def htScript (fuel : ℕ) (cs : List HtCall) : Option Ht :=
  cs.foldlM (fun s c => c.run fuel s) htInit

theorem htScript_htRun {ok : HtCall → Ht → Prop} {fuel : ℕ} {cs : List HtCall} {s : Ht}
    (hr : htScript fuel cs = some s)
    (hcs : ∀ c ∈ cs, (∀ e ∈ c.entry, Readable byteEnv.mem e) ∧ ∀ s, ok c s) :
    ∃ K, HtRun byteEnv ok s K := by
  suffices h : ∀ s₀ K₀, HtRun byteEnv ok s₀ K₀ →
      cs.foldlM (fun s c => c.run fuel s) s₀ = some s → ∃ K, HtRun byteEnv ok s K from
    h _ _ .init hr
  clear hr
  induction cs with
  | nil =>
    rintro s₀ K₀ h hr
    obtain rfl := Option.some.inj hr
    exact ⟨K₀, h⟩
  | cons c cs ih =>
    intro s₀ K₀ h hr
    rw [List.foldlM_cons] at hr
    obtain ⟨s₁, hc, hr⟩ := Option.bind_eq_some_iff.mp hr
    obtain ⟨hread, hok⟩ := hcs c (List.mem_cons_self ..)
    obtain ⟨K₁, h₁⟩ := HtCall.run_htRun h hc hread (hok s₀)
    exact ih (fun c' hc' => hcs c' (List.mem_cons_of_mem _ hc')) s₁ K₁ h₁ hr

/-- The insertion of a byte, with all allocations succeeding. -/
def insertByte (b : ℕ) : HtCall := .insert (byteKey b) fun _ => true

/-- The removal of a byte. -/
def removeByte (b : ℕ) : HtCall := .remove (byteKey b)

theorem insertByte_allocates {b : ℕ} (hb : b < 256) :
    (∀ e ∈ (insertByte b).entry, Readable byteEnv.mem e) ∧ ∀ s, Allocates (insertByte b) s := by
  refine ⟨?_, fun _ => ⟨?_, fun _ => rfl⟩⟩
  · rintro _ ⟨⟩
    exact readable_byteKey hb
  · show htVacant < 256 + b
    simp only [htVacant]
    omega

theorem removeByte_allocates {b : ℕ} (hb : b < 256) :
    (∀ e ∈ (removeByte b).entry, Readable byteEnv.mem e) ∧ ∀ s, Allocates (removeByte b) s := by
  refine ⟨?_, fun _ => trivial⟩
  rintro _ ⟨⟩
  exact readable_byteKey hb

/-- Two keys share a home; the first one is removed, and the second one inserted
again: it takes the slot of the first although it is present. -/
theorem ht_stores_key_twice : MemcmpExact byteEnv ∧ ∃ s K, HtRun byteEnv Allocates s K ∧
    (∃ idx s', Present byteEnv.mem s (byteKey 37) ∧
      Returns (fun n => htInsert byteEnv (fun _ => true) n (byteKey 37)) s (some idx) s') ∧
    ¬ KeysUnique byteEnv Allocates s K := by
  have hsome : (htScript 4 [insertByte 27, insertByte 37, removeByte 27]).isSome = true := by
    decide +kernel
  obtain ⟨s, hs⟩ := Option.isSome_iff_exists.mp hsome
  have hfacts : (htScript 4 [insertByte 27, insertByte 37, removeByte 27]).map (fun s =>
      (s.capacity, s.storage 1,
        (htInsert byteEnv (fun _ => true) 4 (byteKey 37) s).map Prod.fst)) =
      some (31, byteKey 37, some (some 0)) := by
    decide +kernel
  rw [hs] at hfacts
  simp only [Option.map_some, Option.some.injEq, Prod.mk.injEq, Option.map_eq_some_iff] at hfacts
  obtain ⟨hcap, hslot, ⟨_, s'⟩, hins, rfl⟩ := hfacts
  have hret := (fuelMono_htInsert (fun _ => true) (byteKey 37)).returns hins
  -- slot 0, which the removal has made vacant, comes before slot 1 with the key
  have hpresent : Present byteEnv.mem s (byteKey 37) := by
    refine ⟨1, by omega, ?_⟩
    rw [hslot]
    exact ⟨by decide, rfl, rfl⟩
  have hcalls : ∀ c ∈ [insertByte 27, insertByte 37, removeByte 27],
      (∀ e ∈ c.entry, Readable byteEnv.mem e) ∧ ∀ s, Allocates c s := by
    intro c hc
    simp only [List.mem_cons, List.not_mem_nil, or_false] at hc
    rcases hc with rfl | rfl | rfl
    · exact insertByte_allocates (by omega)
    · exact insertByte_allocates (by omega)
    · exact removeByte_allocates (by omega)
  obtain ⟨K, hrun⟩ := htScript_htRun hs hcalls
  -- unique keys would make the insertion answer null
  refine ⟨byteEnv_exact, s, K, hrun, ⟨0, s', hpresent, hret⟩, fun h => ?_⟩
  have hnone := ((h.insert (byteKey 37) (fun _ => true) (readable_byteKey (by omega))
    ⟨by decide, fun _ => rfl⟩).of_returns hret).1.mpr hpresent
  exact absurd hnone (by simp)

/-- The keys of the bytes below `n`. -/
def byteKeys (n : ℕ) : Set (List UInt8) := {x | ∃ b < n, x = [UInt8.ofNat b]}

theorem keyOf_byteKey {b : ℕ} (hb : b < 256) : keyOf byteEnv.mem (byteKey b) = [UInt8.ofNat b] := by
  rw [keyOf, bytesAt_byteKey hb, Option.getD_some]

theorem byteKeys_succ (n : ℕ) : byteKeys (n + 1) = insert [UInt8.ofNat n] (byteKeys n) := by
  ext x
  constructor
  · rintro ⟨b, hb, rfl⟩
    rcases Nat.lt_succ_iff_lt_or_eq.mp hb with hlt | rfl
    · exact .inr ⟨b, hlt, rfl⟩
    · exact .inl rfl
  · rintro (rfl | ⟨b, hb, rfl⟩)
    · exact ⟨n, Nat.lt_succ_self n, rfl⟩
    · exact ⟨b, Nat.lt_succ_of_lt hb, rfl⟩

theorem notMem_byteKeys {n : ℕ} (hn : n < 256) : [UInt8.ofNat n] ∉ byteKeys n := by
  rintro ⟨b, hb, heq⟩
  have hbyte : (UInt8.ofNat n).toNat = (UInt8.ofNat b).toNat := by
    rw [(List.cons.inj heq).1]
  rw [UInt8.toNat_ofNat_of_lt' hn, UInt8.toNat_ofNat_of_lt' (hb.trans hn)] at hbyte
  omega

/-- Inserting the bytes one after the other: every insertion stores a new key. -/
theorem exists_bytes_run (ok : HtCall → Ht → Prop)
    (hok : ∀ b < 256, ∀ s, HtFilled byteEnv.mem (fun _ => True) s (byteKeys b) → s.size = b →
      ok (insertByte b) s) (n : ℕ) (hn : n ≤ 256) :
    ∃ s, HtRun byteEnv ok s (byteKeys n) ∧
      HtFilled byteEnv.mem (fun _ => True) s (byteKeys n) ∧ s.size = n := by
  induction n with
  | zero =>
    have hzero : byteKeys 0 = ∅ := Set.eq_empty_of_forall_notMem fun x hx => by
      obtain ⟨b, hb, -⟩ := hx
      exact absurd hb (Nat.not_lt_zero b)
    rw [hzero]
    exact ⟨htInit, .init, htInit_filled _ _, rfl⟩
  | succ n ih =>
    obtain ⟨s, hrun, hfill, hsize⟩ := ih (by omega)
    have hlt : n < 256 := hn
    have hread := readable_byteKey hlt
    have hkey := keyOf_byteKey hlt
    have hnew : keyOf byteEnv.mem (byteKey n) ∉ byteKeys n := by
      rw [hkey]
      exact notMem_byteKeys hlt
    have hcard : (byteKeys n).ncard = n := hfill.size.symm.trans hsize
    -- whether the table grows or not, the insertion stores a new key
    have hins := hfill.insert (byteEnv_exact.insertRight s (byteKey n)) hread
      (((insertByte_allocates hlt).2 s).1) (by omega) (fun _ => trivial) fun _ => rfl
    obtain ⟨r, s', hret, hr, hfill'⟩ := hins
    have hsome : r.isSome = true := by
      cases r with
      | none => exact absurd (hr.mp rfl) hnew
      | some idx => rfl
    have hrun' := hrun.insert hread (hok n hlt s hfill hsize) hret
    rw [if_pos hsome] at hrun'
    refine ⟨s', ?_, ?_, ?_⟩
    · rwa [byteKeys_succ, ← hkey]
    · rwa [byteKeys_succ, ← hkey]
    · rw [hfill'.size, Set.ncard_insert_of_notMem hnew hfill.finite, hcard]

theorem ht_keys_unique_run : ∃ s, HtRun byteEnv (SafeCall byteEnv) s (byteKeys 40 \ {[27]}) ∧
    31 < s.capacity ∧ KeysUnique byteEnv (SafeCall byteEnv) s (byteKeys 40 \ {[27]}) := by
  obtain ⟨s, hrun, hfill, hsize⟩ := exists_bytes_run (SafeCall byteEnv)
    (fun b hb s hfill hsize => ⟨(insertByte_allocates hb).2 s,
      hfill.insertSafe (by rw [← hfill.size]; omega)⟩) 40 (by omega)
  have hread : Readable byteEnv.mem (byteKey 27) := readable_byteKey (by omega)
  have hkey : keyOf byteEnv.mem (byteKey 27) = [27] := keyOf_byteKey (by omega)
  have hmem : keyOf byteEnv.mem (byteKey 27) ∈ byteKeys 40 := ⟨27, by omega, hkey⟩
  obtain ⟨b, s', hret, hb, -⟩ := hfill.toHtInv.remove (byteEnv_exact.tells ..) hread
  have hrun' := hrun.remove hread trivial hret
  rw [if_pos (hb.mpr hmem), hkey] at hrun'
  have hcap : s'.capacity = s.capacity := by
    obtain ⟨n, hn⟩ := hret
    obtain ⟨idx, -, ⟨-, -, rfl⟩ | ⟨-, -, rfl⟩⟩ := htRemove_cases (hn n (Nat.le_refl n))
    · rfl
    · rfl
  -- the inline slots do not hold forty keys
  have hle := hfill.size_le
  exact ⟨s', hrun', by omega, ht_keys_unique byteEnv_exact hrun'⟩

/-- When all slots are vacant, a search never ends. -/
theorem htProbe_diverges {env : HtEnv} {s : Ht} {e : HtEntry} (hcap : 0 < s.capacity)
    (he : Readable env.mem e) (h : ∀ i < s.capacity, (s.storage i).status = htVacant) (n : ℕ) :
    htProbe env e false n s = none := by
  have hloop : fuelLoop (htProbeBody env e false) n (hashOf (keyOf env.mem e) % s.capacity) s =
      none := by
    refine fuelLoop_diverges (I := fun i s' => s' = s ∧ i < s.capacity) ?_ n _ s
      ⟨rfl, Nat.mod_lt _ hcap⟩
    rintro i s' ⟨rfl, hi⟩
    refine ⟨(i + 1) % s'.capacity, s', eq_some_of_wp ?_, rfl, Nat.mod_lt _ hcap⟩
    have hst := h i hi
    have hvac : htSlotVacant (s'.storage i) = true := htSlotVacant_iff.mpr hst.le
    have h0 : (s'.storage i).status ≠ 0 := by
      rw [hst]
      exact Nat.one_ne_zero
    simp [htProbeBody, h0, hvac]
  exact bind_get (bind_some (hashEntry_eq he s) hloop)

/-- Inserting and removing one key for each home makes all slots vacant: a search
for any key does not end. -/
theorem ht_probe_diverges : ∃ s K, HtRun byteEnv (fun _ _ => True) s K ∧ ¬ HasUnused s ∧
    (∀ e, Readable byteEnv.mem e → ∀ n, htProbe byteEnv e false n s = none) ∧
    ¬ ProbesEnd byteEnv s := by
  let cs := ((List.range 32).filter (· ≠ 26)).flatMap fun b => [insertByte b, removeByte b]
  have hsome : (htScript 3 cs).isSome = true := by decide +kernel
  obtain ⟨s, hs⟩ := Option.isSome_iff_exists.mp hsome
  have hfacts : (htScript 3 cs).map (fun s =>
      (s.capacity, (List.range 31).all fun i => (s.storage i).status = htVacant)) =
      some (31, true) := by
    decide +kernel
  rw [hs] at hfacts
  simp only [Option.map_some, Option.some.injEq, Prod.mk.injEq, List.all_eq_true, List.mem_range,
    decide_eq_true_eq] at hfacts
  obtain ⟨hcap, hvacant⟩ := hfacts
  rw [← hcap] at hvacant
  have hnot : ¬ HasUnused s := by
    rintro ⟨i, hi, h0⟩
    exact absurd ((hvacant i hi).symm.trans h0) Nat.one_ne_zero
  have hcalls : ∀ c ∈ cs, (∀ e ∈ c.entry, Readable byteEnv.mem e) ∧
      ∀ s, (fun _ _ => True : HtCall → Ht → Prop) c s := by
    intro c hc
    obtain ⟨b, hb, hcb⟩ := List.mem_flatMap.mp hc
    have hb' : b < 32 := List.mem_range.mp (List.mem_filter.mp hb).1
    refine ⟨fun e he => ?_, fun _ => trivial⟩
    have hentry : c.entry = some (byteKey b) := by
      simp only [List.mem_cons, List.not_mem_nil, or_false] at hcb
      rcases hcb with rfl | rfl <;> rfl
    rw [hentry] at he
    obtain rfl : byteKey b = e := Option.some.inj he
    exact readable_byteKey (by omega)
  obtain ⟨K, hrun⟩ := htScript_htRun hs hcalls
  exact ⟨s, K, hrun, hnot, fun e he n => htProbe_diverges (by omega) he hvacant n,
    fun hends => hnot hends.1⟩

theorem ht_probes_end_run : ∃ s, HtRun byteEnv (LeavesUnusedCall byteEnv) s (byteKeys 40) ∧
    31 < s.capacity ∧ ProbesEnd byteEnv s := by
  obtain ⟨s, hrun, hfill, hsize⟩ := exists_bytes_run (LeavesUnusedCall byteEnv)
    (fun b hb s hfill _ => or_iff_not_imp_left.mpr fun hexp =>
      .inr (.inl (hfill.hasTwoUnused hexp)))
    40 (by omega)
  have hle := hfill.size_le
  exact ⟨s, hrun, by omega, (ht_probes_end hrun).1⟩

end Cldm
