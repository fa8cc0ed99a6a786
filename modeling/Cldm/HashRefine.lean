/-
Without removals, the table is a finite set of keys.

A call that removes nothing leaves no vacant slot, so that the table is at most half
full and every insertion is safe, as long as no growth starts from more slots than an
`unsigned` can count.

* `HtHalf` — the invariant, `HtHalf.insert` — an insertion keeps it;
* `ht_refines_set` — in every run whose growths start below `2 ^ 32` slots, the
  operations answer as on the set of the keys inserted since the last clear;
* `ht_growth_diverges` — an insertion that makes a larger table grow does not return.
-/
import Cldm.HashRun

namespace Cldm

open Prog Probing Bytes

variable {env : HtEnv} {mem : Mem} {s s' : Ht} {K : Set (List UInt8)} {e : HtEntry}

/-! ### The invariant -/

/-- The table stores exactly the keys `K`, has no vacant slot and is at most half full. -/
structure HtHalf (mem : Mem) (s : Ht) (K : Set (List UInt8)) : Prop extends HtRep mem s K where
  noVacant : NoVacant s
  half : 2 * s.size ≤ s.capacity

theorem HtHalf.hasUnused (h : HtHalf mem s K) : HasUnused s := by
  refine h.toHtRep.hasUnused h.noVacant ?_
  have := h.half
  have := h.pos
  omega

theorem HtHalf.toHtInv (h : HtHalf mem s K) : HtInv mem s K := ⟨h.toHtRep, h.hasUnused⟩

theorem HtHalf.usedCount_eq (h : HtHalf mem s K) : usedCount s = s.size := by
  rw [h.toHtRep.size_eq]
  refine count_congr fun i hi => ?_
  have hne := h.noVacant i hi
  by_cases h0 : (s.storage i).status = 0
  · rw [show cells mem s i = .empty from cellOf_unused h0]
    simp [h0, Cell.isFull]
  · have hlive : htVacant < (s.storage i).status := by
      simp only [htVacant] at hne ⊢
      omega
    rw [show cells mem s i = .full _ from cellOf_live hlive]
    simp [h0, Cell.isFull]

/-- What an insertion answers, and the table after it. -/
def Inserted (env : HtEnv) (K : Set (List UInt8)) (e : HtEntry) (r : Option ℕ) (s' : Ht) : Prop :=
  (r = none ↔ keyOf env.mem e ∈ K) ∧ HtHalf env.mem s' (insert (keyOf env.mem e) K) ∧
    ∀ idx, r = some idx → idx < s'.capacity ∧ s'.storage idx = e

/-- Storing an entry where there is room for it. -/
theorem HtHalf.place (h : HtHalf env.mem s K) (hexact : MemcmpExact env) (he : Readable env.mem e)
    (hkey : htVacant < e.key) (hroom : 2 * (s.size + 1) ≤ s.capacity) :
    Total (htPlace env e) (Inserted env K e) s := by
  have hun := h.hasUnused
  by_cases hx : keyOf env.mem e ∈ K
  · obtain ⟨k, hk⟩ := hun.firstAt env true e
    refine (h.place_stored (hexact.tells ..) he hx hk (h.noVacant _ (slotAt_lt h.pos))).mono ?_
    rintro r s' ⟨rfl, rfl⟩
    rw [Inserted, Set.insert_eq_of_mem hx]
    exact ⟨iff_of_true rfl hx, h, fun idx hidx => absurd hidx (by simp)⟩
  · obtain ⟨k, hk, hplace⟩ := h.place_new (hexact.tells ..) he hkey hun hx
    refine hplace.mono ?_
    rintro r s' ⟨rfl, rfl, hrep⟩
    refine ⟨iff_of_false (by simp) hx, ⟨hrep, h.noVacant.put (ne_of_gt hkey) _, ?_⟩, ?_⟩
    · rw [hrep.size, Set.ncard_insert_of_notMem hx h.finite, ← h.size]
      exact hroom
    · intro idx hidx
      obtain rfl := Option.some.inj hidx
      exact ⟨slotAt_lt h.pos, Function.update_self ..⟩

/-- An insertion into a table that has to grow: the entry is stored afterwards. -/
theorem total_htInsert_of_expand {calloc : ℕ → Bool} {Q : Option ℕ → Ht → Prop}
    (h : htShouldExpand s = true)
    (hexpand : Total (fun n => htExpand (htInsert env calloc n) calloc n)
      (fun b s' => b = true ∧ Total (htPlace env e) Q s') s) :
    Total (fun n => htInsert env calloc n e) Q s := by
  refine Total.succ ?_
  have hbody : Total (fun n => htExpand (htInsert env calloc n) calloc n >>= fun b =>
      if b = true then htPlace env e n else pure none) Q s := by
    refine (hexpand.mono ?_).bind
    rintro b s₁ ⟨rfl, hplace⟩
    exact hplace
  obtain ⟨r, s', ⟨j, hret⟩, hQ⟩ := hbody
  exact ⟨r, s', ⟨j, fun n hn => (htInsert_of_expand h).trans (hret n hn)⟩, hQ⟩

/-- An insertion that does not make a table of `2 ^ 32` or more slots grow. -/
theorem HtHalf.insert (h : HtHalf env.mem s K) (hexact : MemcmpExact env) (he : Readable env.mem e)
    (hkey : htVacant < e.key) {calloc : ℕ → Bool} (hcalloc : ∀ n, calloc n = true)
    (hgrow : htShouldExpand s = true → s.capacity < 2 ^ 32) :
    Total (fun n => htInsert env calloc n e) (Inserted env K e) s := by
  have hlt : s.size < 2 ^ 60 := h.size_le.trans_lt h.lt
  by_cases hexp : htShouldExpand s = true
  · refine total_htInsert_of_expand hexp ?_
    refine (h.expand (x := keyOf env.mem e) (hexact.growthRight s _) (hgrow hexp) h.noVacant
      hcalloc).mono ?_
    rintro b s₁ ⟨rfl, hrep, hgrown, hno, -⟩
    -- the new storage has more than twice the slots of a table that was half full
    have hsize : s₁.size = s.size := by rw [hrep.size, h.size]
    have := h.half
    have := h.pos
    have hhalf : HtHalf env.mem s₁ K := ⟨hrep, hno, by omega⟩
    exact ⟨rfl, hhalf.place hexact he hkey (by omega)⟩
  · refine total_htInsert_of_not_expand (Bool.eq_false_iff.mpr hexp) ?_
    rw [htShouldExpand_iff hlt] at hexp
    exact h.place hexact he hkey (by omega)

theorem htInit_half : HtHalf mem htInit ∅ where
  toHtRep := htInit_inv.toHtRep
  noVacant := fun _ _ h => absurd h.symm Nat.one_ne_zero
  half := Nat.zero_le _

theorem HtHalf.clear (h : HtHalf mem s K) (hret : htClear s = some ((), s')) : HtHalf mem s' ∅ := by
  have hinv : HtInv mem s' ∅ := (wp_of_some hret).mp h.toHtInv.clear
  obtain ⟨-, rfl⟩ := Prod.mk.inj (Option.some.inj hret)
  refine ⟨hinv.toHtRep, fun i hi hst => ?_, Nat.zero_le _⟩
  have hzero : (if i < s.capacity then (⟨0, 0⟩ : HtEntry) else s.storage i).status = htVacant := hst
  rw [if_pos hi] at hzero
  exact absurd hzero.symm Nat.one_ne_zero

/-! ### Runs -/

/-- No removals; allocations succeed. -/
def Keeps : HtCall → Ht → Prop
  | .remove _, _ => False
  | c, s => Allocates c s

/-- A growth starts from fewer than `2 ^ 32` slots. -/
def KeepsSmall : HtCall → Ht → Prop
  | .insert e calloc, s => Keeps (.insert e calloc) s ∧
      (htShouldExpand s = true → s.capacity < 2 ^ 32)
  | c, s => Keeps c s

theorem HtRun.half (hexact : MemcmpExact env) (h : HtRun env KeepsSmall s K) :
    HtHalf env.mem s K := by
  induction h with
  | init => exact htInit_half
  | @insert s s' K e calloc r _ he hok hret ih =>
    obtain ⟨⟨hkey, hcalloc⟩, hgrow⟩ := hok
    obtain ⟨hr, hhalf, -⟩ := (ih.insert hexact he hkey hcalloc hgrow).of_returns hret
    cases r with
    | none =>
      rw [Set.insert_eq_of_mem (hr.mp rfl)] at hhalf
      exact hhalf
    | some idx => exact hhalf
  | find _ he _ hret ih =>
    obtain ⟨rfl, -⟩ := (ih.toHtInv.find (hexact.tells ..) he).of_returns hret
    exact ih
  | remove _ _ hok _ _ => exact hok.elim
  | clear _ _ hret ih => exact ih.clear hret

/-- The table is the set `K`, and the next call answers as on it. -/
structure HtRefines (env : HtEnv) (ok : HtCall → Ht → Prop) (s : Ht) (K : Set (List UInt8)) :
    Prop where
  insert : ∀ e calloc, Readable env.mem e → ok (.insert e calloc) s →
    Total (fun n => htInsert env calloc n e) (fun r s' => (r = none ↔ keyOf env.mem e ∈ K) ∧
      ∀ idx, r = some idx → idx < s'.capacity ∧ s'.storage idx = e) s
  find : ∀ e, Readable env.mem e → Total (htFind env e) (fun r s' => s' = s ∧
    (r = none ↔ keyOf env.mem e ∉ K) ∧ ∀ idx, r = some idx → idx < s.capacity ∧
      htVacant < (s.storage idx).status ∧ keyOf env.mem (s.storage idx) = keyOf env.mem e) s
  finite : K.Finite
  size : s.size = K.ncard
  half : 2 * usedCount s ≤ s.capacity
  probes : ProbesEnd env s

/-- In every run without removals whose growths start below `2 ^ 32` slots, the table
refines the set of the keys that were inserted since it was last cleared. -/
theorem ht_refines_set (hexact : MemcmpExact env) (h : HtRun env KeepsSmall s K) :
    HtRefines env KeepsSmall s K := by
  have hhalf := h.half hexact
  constructor
  case insert =>
    rintro e calloc he ⟨⟨hkey, hcalloc⟩, hgrow⟩
    refine (hhalf.insert hexact he hkey hcalloc hgrow).mono ?_
    rintro r s' ⟨hr, -, hidx⟩
    exact ⟨hr, hidx⟩
  case find => exact fun e he => hhalf.toHtInv.find (hexact.tells ..) he
  case finite => exact hhalf.finite
  case size => exact hhalf.size
  case half =>
    rw [hhalf.usedCount_eq]
    exact hhalf.half
  case probes => exact probesEnd_of_unused hhalf.hasUnused hhalf.live

/-- A run that inserts the bytes below 40. -/
theorem exists_keepsSmall_run : ∃ s, HtRun byteEnv KeepsSmall s (byteKeys 40) ∧ s.size = 40 := by
  obtain ⟨s, hrun, -, hsize⟩ := exists_bytes_run KeepsSmall (fun b hb s hfill hsize => by
    refine ⟨(insertByte_allocates hb).2 s, fun hexp => ?_⟩
    rw [htShouldExpand_iff (by omega)] at hexp
    omega) 40 (by omega)
  exact ⟨s, hrun, hsize⟩

theorem ht_refines_set_run : ∃ s, HtRun byteEnv KeepsSmall s (byteKeys 40) ∧ 31 < s.capacity ∧
    HtRefines byteEnv KeepsSmall s (byteKeys 40) := by
  obtain ⟨s, hrun, hsize⟩ := exists_keepsSmall_run
  have hle := (hrun.half byteEnv_exact).size_le
  exact ⟨s, hrun, by omega, ht_refines_set byteEnv_exact hrun⟩

/-! ### A growth that does not end -/

/-- The counter of `cldm_ht_expand` wraps before it reaches `2 ^ 32` slots. -/
theorem htInsert_diverges {calloc : ℕ → Bool} (hcalloc : ∀ n, calloc n = true)
    (hpos : 0 < s.capacity) (hbound : s.capacity < 2 ^ 50) (hlarge : 2 ^ 32 ≤ s.capacity)
    (hexp : htShouldExpand s = true) (n : ℕ) : htInsert env calloc n e s = none := by
  cases n with
  | zero => rfl
  | succ n =>
    rw [htInsert_of_expand hexp]
    by_contra hne
    obtain ⟨⟨r, s'⟩, hret⟩ := Option.ne_none_iff_exists'.mp hne
    obtain ⟨b, s₁, hexpand, -⟩ := bind_eq_some.mp hret
    obtain ⟨cap, hsize, ⟨-, -, hfail⟩ | ⟨-, -, -, hre⟩⟩ := htExpand_cases hexpand
    · obtain ⟨-, -, hhi⟩ := (htSizeup_spec hpos (by omega) s).of_returns
        ((fuelMono_htSizeup _).returns hsize)
      refine hfail ?_
      rw [hcalloc, Bool.and_true, decide_eq_true_eq]
      simp only [htEntrySize, sizeMod]
      omega
    · rw [htRehash_diverges hlarge] at hre
      exact absurd hre (by simp)

/-- A memory of zero bytes. -/
def zeroEnv : HtEnv where
  mem := fun _ => some 0
  memcmp := bytesDiff

/-- The key of `n` zero bytes. -/
def zeroKey (n : ℕ) : HtEntry := ⟨256, n⟩

theorem readable_zeroKey (n : ℕ) : Readable zeroEnv.mem (zeroKey n) := by
  have haccess : Accessible zeroEnv.mem 256 n := fun _ _ => rfl
  exact haccess.bytesAt

theorem zeroKey_injective {n m : ℕ} (h : keyOf zeroEnv.mem (zeroKey n) = keyOf zeroEnv.mem (zeroKey m)) :
    n = m := by
  have hn := (readable_zeroKey n).length_keyOf
  rw [h, (readable_zeroKey m).length_keyOf] at hn
  exact hn.symm

/-- A table that has to grow from `2 ^ 32` or more slots. -/
def Overgrown (s : Ht) : Prop :=
  0 < s.capacity ∧ s.capacity < 2 ^ 50 ∧ 2 ^ 32 ≤ s.capacity ∧ htShouldExpand s = true

/-- An insertion grows a table to at most a little more than four times its slots. -/
theorem htInsert_capacity {calloc : ℕ → Bool} {n : ℕ} {r : Option ℕ} (h : HtSafe env.mem s)
    (hret : htInsert env calloc n e s = some (r, s')) :
    s'.capacity = s.capacity ∨ htShouldExpand s = true ∧ s'.capacity ≤ 4 * s.capacity + 2 := by
  have hplace : ∀ {n s₁}, 0 < s₁.capacity → htPlace env e n s₁ = some (r, s') →
      s'.capacity = s₁.capacity := by
    intro n s₁ hpos hplace
    rcases htPlace_partial hpos hplace with rfl | ⟨idx, -, rfl⟩
    · rfl
    · rfl
  have hpos := h.unused.pos
  cases n with
  | zero => exact absurd hret (by simp [htInsert])
  | succ n =>
    by_cases hexp : htShouldExpand s = true
    · rw [htInsert_of_expand hexp] at hret
      obtain ⟨b, s₁, hexpand, hrest⟩ := bind_eq_some.mp hret
      rcases htExpand_partial h hexpand with ⟨rfl, rfl⟩ | ⟨cap, hlo, hhi, -, hg⟩
      · obtain ⟨-, rfl⟩ := Prod.mk.inj (Option.some.inj hrest)
        exact .inl rfl
      · have hcap := hg.capacity
        refine .inr ⟨hexp, ?_⟩
        split_ifs at hrest
        · rw [hplace (by omega) hrest, hcap]
          exact hhi
        · obtain ⟨-, rfl⟩ := Prod.mk.inj (Option.some.inj hrest)
          rw [hcap]
          exact hhi
    · rw [htInsert_of_not_expand (Bool.eq_false_iff.mpr hexp)] at hret
      exact .inl (hplace hpos hret)

/-- Insert the keys of `0, 1, 2, …` zero bytes, until the table is overgrown. -/
theorem exists_overgrown_or_run (n : ℕ) : (∃ s K, HtRun zeroEnv Keeps s K ∧ Overgrown s) ∨
    ∃ s K, HtRun zeroEnv Keeps s K ∧ HtHalf zeroEnv.mem s K ∧ K.ncard = n ∧
      s.capacity ≤ 2 ^ 35 ∧ ∀ m, n ≤ m → keyOf zeroEnv.mem (zeroKey m) ∉ K := by
  induction n with
  | zero =>
    exact .inr ⟨htInit, ∅, .init, htInit_half, Set.ncard_empty _, by decide, fun m _ => id⟩
  | succ n ih =>
    rcases ih with ih | ⟨s, K, hrun, hhalf, hcard, hcap, hnew⟩
    · exact .inl ih
    have hpos := hhalf.pos
    by_cases hover : Overgrown s
    · exact .inl ⟨s, K, hrun, hover⟩
    right
    have hgrow : htShouldExpand s = true → s.capacity < 2 ^ 32 := by
      intro hexp
      by_contra hge
      exact hover ⟨hpos, by omega, by omega, hexp⟩
    have hread := readable_zeroKey n
    have hx := hnew n (Nat.le_refl n)
    have hinsert : Total (fun k => htInsert zeroEnv (fun _ => true) k (zeroKey n))
        (Inserted zeroEnv K (zeroKey n)) s :=
      hhalf.insert byteEnv_exact hread (show htVacant < 256 by decide) (fun _ => rfl) hgrow
    obtain ⟨r, s', hret, hr, hhalf', -⟩ := hinsert
    obtain ⟨k, hk⟩ := hret
    have hsafe : HtSafe zeroEnv.mem s := ⟨hhalf.lt, hhalf.live, hhalf.hasUnused⟩
    have hcap' := htInsert_capacity hsafe (hk k (Nat.le_refl k))
    have hsome : r.isSome = true := by
      cases r with
      | none => exact absurd (hr.mp rfl) hx
      | some idx => rfl
    have hok : Keeps (.insert (zeroKey n) fun _ => true) s :=
      ⟨show htVacant < 256 by decide, fun _ => rfl⟩
    have hrun' := hrun.insert hread hok ⟨k, hk⟩
    rw [if_pos hsome] at hrun'
    refine ⟨s', _, hrun', hhalf', ?_, ?_, fun m hm hmem => ?_⟩
    · rw [Set.ncard_insert_of_notMem hx hhalf.finite, hcard]
    · rcases hcap' with hsame | ⟨hexp, hle⟩
      · omega
      · have := hgrow hexp
        omega
    · rcases Set.mem_insert_iff.mp hmem with heq | hmem
      · have := zeroKey_injective heq
        omega
      · exact hnew m (by omega) hmem

/-- With enough keys the table becomes overgrown, and then an insertion does not
return. -/
theorem ht_growth_diverges : MemcmpExact zeroEnv ∧ ∃ s K, HtRun zeroEnv Keeps s K ∧
    ¬ HtRefines zeroEnv Keeps s K := by
  refine ⟨byteEnv_exact, ?_⟩
  obtain ⟨s, K, hrun, hpos, hbound, hlarge, hexp⟩ : ∃ s K, HtRun zeroEnv Keeps s K ∧ Overgrown s := by
    refine (exists_overgrown_or_run (2 ^ 35)).resolve_right ?_
    rintro ⟨s, K, -, hhalf, hcard, hcap, -⟩
    have hsize := hhalf.size
    have := hhalf.half
    omega
  refine ⟨s, K, hrun, fun href => ?_⟩
  have hok : Keeps (.insert (zeroKey 0) fun _ => true) s := ⟨by decide, fun _ => rfl⟩
  obtain ⟨r, s', ⟨k, hk⟩, -⟩ := href.insert _ _ (readable_zeroKey 0) hok
  have hnone : htInsert zeroEnv (fun _ => true) k (zeroKey 0) s = none :=
    htInsert_diverges (fun _ => rfl) hpos hbound hlarge hexp k
  exact absurd ((hk k (Nat.le_refl k)).symm.trans hnone) (by simp)

end Cldm
