/-
What a call of the hash table can do.

For each operation, the tables that it can end with, whatever they hold: the lemmas
of this file take no invariant, and the facts about runs that any table has follow
from them.

* `htPlace_cases`, `htExpand_cases`, `htRehashBody_cases`, `htRemove_cases` — one call
  or one turn;
* `htInsert_keeps` — what storing an entry and starting on an empty storage keep, an
  insertion keeps, through all the insertions that its growth makes;
* `htRehash_diverges` — the counter of a growth wraps before it reaches `2 ^ 32`.
-/
import Cldm.HashInv

namespace Cldm

open Prog Probing Bytes

variable {env : HtEnv} {s s' : Ht} {e : HtEntry} {n : ℕ}

theorem htProbe_unchanged {reuse : Bool} {idx : ℕ} (h : htProbe env e reuse n s = some (idx, s')) :
    s' = s := by
  obtain ⟨ht, s₁, hget, h⟩ := bind_eq_some.mp h
  obtain ⟨rfl, rfl⟩ := Prod.mk.inj (Option.some.inj hget)
  obtain ⟨hash, s₂, hhash, h⟩ := bind_eq_some.mp h
  obtain ⟨bs, s₃, hread, hpure⟩ := bind_eq_some.mp hhash
  obtain ⟨-, rfl⟩ := readBytes_some hread
  obtain ⟨-, rfl⟩ := Prod.mk.inj (Option.some.inj hpure)
  refine fuelLoop_partial (I := fun _ s' => s' = s₃) (Q := fun _ s' => s' = s₃) ?_ n _ s₃ idx s'
    rfl h
  rintro i s₁ r s₂ rfl hbody
  obtain ⟨rfl, rfl | rfl⟩ := htProbeBody_partial hbody
  · rfl
  · rfl

theorem isPrime_unchanged {num : ℕ} {b : Bool} (h : isPrime num n s = some (b, s')) :
    s' = s := by
  rw [isPrime] at h
  generalize (decide ((if num = 0 then 1 else 0) % 2 ≠ 0) || decide (num % 3 = 0)) = small at h
  split at h
  · exact (Prod.mk.inj (Option.some.inj h)).2.symm
  split at h
  · exact (Prod.mk.inj (Option.some.inj h)).2.symm
  · refine fuelLoop_partial (I := fun _ s' => s' = s) (Q := fun _ s' => s' = s) ?_ n 6 s b s' rfl h
    rintro i s₁ r s₂ rfl hbody
    rw [isPrimeBody] at hbody
    split_ifs at hbody
    all_goals
      obtain ⟨rfl, rfl⟩ := Prod.mk.inj (Option.some.inj hbody)
      rfl

theorem htSizeup_unchanged {cap c : ℕ} (h : htSizeup cap n s = some (c, s')) : s' = s := by
  refine fuelLoop_partial (I := fun _ s' => s' = s) (Q := fun _ s' => s' = s) ?_ n _ s c s' rfl h
  rintro i s₁ r s₂ rfl hbody
  obtain ⟨b, s₃, hprime, hrest⟩ := bind_eq_some.mp hbody
  obtain rfl := isPrime_unchanged hprime
  split_ifs at hrest
  all_goals
    obtain ⟨rfl, rfl⟩ := Prod.mk.inj (Option.some.inj hrest)
    rfl

/-- An insertion stores its entry in the slot that the probe returned, or leaves the
table alone. -/
theorem htPlace_cases {r : Option ℕ} (h : htPlace env e n s = some (r, s')) :
    ∃ idx, htProbe env e true n s = some (idx, s) ∧
      ((s.storage idx).status ≤ htVacant ∧ r = some idx ∧ s' = s.put idx e ∨
        htVacant < (s.storage idx).status ∧ r = none ∧ s' = s) := by
  obtain ⟨idx, s₁, hprobe, hrest⟩ := bind_eq_some.mp h
  obtain rfl := htProbe_unchanged hprobe
  refine ⟨idx, hprobe, ?_⟩
  obtain ⟨ht, s₂, hget, hrest⟩ := bind_eq_some.mp hrest
  obtain ⟨rfl, rfl⟩ := Prod.mk.inj (Option.some.inj hget)
  split_ifs at hrest with hv
  · obtain ⟨u, s₃, hset, hpure⟩ := bind_eq_some.mp hrest
    obtain ⟨-, rfl⟩ := Prod.mk.inj (Option.some.inj hset)
    obtain ⟨rfl, rfl⟩ := Prod.mk.inj (Option.some.inj hpure)
    exact .inl ⟨htSlotVacant_iff.mp hv, rfl, rfl⟩
  · obtain ⟨rfl, rfl⟩ := Prod.mk.inj (Option.some.inj hrest)
    rw [htSlotVacant_iff, Nat.not_le] at hv
    exact .inr ⟨hv, rfl, rfl⟩

/-- A growth fails and leaves the table alone, or inserts the old entries into an
empty storage. -/
theorem htExpand_cases {insert : HtEntry → Prog Ht (Option ℕ)} {calloc : ℕ → Bool} {b : Bool}
    (h : htExpand insert calloc n s = some (b, s')) :
    ∃ cap, htSizeup s.capacity n s = some (cap, s) ∧
      (b = false ∧ s' = s ∧ ¬ (cap * htEntrySize < sizeMod && calloc cap) = true ∨
        b = true ∧ cap * htEntrySize < sizeMod ∧ calloc cap = true ∧
          htRehash insert s.storage s.capacity n (htFresh cap) = some ((), s')) := by
  obtain ⟨ht, s₁, hget, h⟩ := bind_eq_some.mp h
  obtain ⟨rfl, rfl⟩ := Prod.mk.inj (Option.some.inj hget)
  obtain ⟨cap, s₂, hsize, h⟩ := bind_eq_some.mp h
  obtain rfl := htSizeup_unchanged hsize
  refine ⟨cap, hsize, ?_⟩
  split_ifs at h with halloc
  · obtain ⟨u, s₃, hset, h⟩ := bind_eq_some.mp h
    obtain ⟨-, rfl⟩ := Prod.mk.inj (Option.some.inj hset)
    obtain ⟨u', s₄, hre, hpure⟩ := bind_eq_some.mp h
    obtain ⟨rfl, rfl⟩ := Prod.mk.inj (Option.some.inj hpure)
    rw [Bool.and_eq_true, decide_eq_true_eq] at halloc
    exact .inr ⟨rfl, halloc.1, halloc.2, hre⟩
  · obtain ⟨rfl, rfl⟩ := Prod.mk.inj (Option.some.inj h)
    exact .inl ⟨rfl, rfl, halloc⟩

/-- A turn of a rehash leaves the loop at the last slot, passes over an unused slot or
inserts the entry of a slot. -/
theorem htRehashBody_cases {insert : HtEntry → Prog Ht (Option ℕ)} {data : ℕ → HtEntry}
    {prev i : ℕ} {r : ℕ ⊕ Unit} (h : htRehashBody insert data prev i s = some (r, s')) :
    prev ≤ i ∧ r = .inr () ∧ s' = s ∨
      i < prev ∧ r = .inl ((i + 1) % 2 ^ 32) ∧
        ((data i).status = 0 ∧ s' = s ∨
          (data i).status ≠ 0 ∧ ∃ slot, insert (data i) s = some (slot, s')) := by
  simp only [htRehashBody] at h
  split_ifs at h with hi h0
  · obtain ⟨slot, s₁, hins, hpure⟩ := bind_eq_some.mp h
    obtain ⟨rfl, rfl⟩ := Prod.mk.inj (Option.some.inj hpure)
    exact .inr ⟨hi, rfl, .inr ⟨h0, slot, hins⟩⟩
  · obtain ⟨rfl, rfl⟩ := Prod.mk.inj (Option.some.inj h)
    exact .inr ⟨hi, rfl, .inl ⟨not_not.mp h0, rfl⟩⟩
  · obtain ⟨rfl, rfl⟩ := Prod.mk.inj (Option.some.inj h)
    exact .inl ⟨Nat.not_lt.mp hi, rfl, rfl⟩

/-- A removal marks the slot that the probe returned, or leaves the table alone. -/
theorem htRemove_cases {b : Bool} (h : htRemove env e n s = some (b, s')) :
    ∃ idx, htProbe env e false n s = some (idx, s) ∧
      ((s.storage idx).status ≤ htVacant ∧ b = false ∧ s' = s ∨
        htVacant < (s.storage idx).status ∧ b = true ∧ s' = s.drop idx) := by
  obtain ⟨idx, s₁, hprobe, hrest⟩ := bind_eq_some.mp h
  obtain rfl := htProbe_unchanged hprobe
  refine ⟨idx, hprobe, ?_⟩
  obtain ⟨ht, s₂, hget, hrest⟩ := bind_eq_some.mp hrest
  obtain ⟨rfl, rfl⟩ := Prod.mk.inj (Option.some.inj hget)
  split_ifs at hrest with hv
  · obtain ⟨rfl, rfl⟩ := Prod.mk.inj (Option.some.inj hrest)
    exact .inl ⟨htSlotVacant_iff.mp hv, rfl, rfl⟩
  · obtain ⟨u, s₃, hset, hpure⟩ := bind_eq_some.mp hrest
    obtain ⟨-, rfl⟩ := Prod.mk.inj (Option.some.inj hset)
    obtain ⟨rfl, rfl⟩ := Prod.mk.inj (Option.some.inj hpure)
    rw [htSlotVacant_iff, Nat.not_le] at hv
    exact .inr ⟨hv, rfl, rfl⟩

theorem htFind_unchanged {r : Option ℕ} (h : htFind env e n s = some (r, s')) : s' = s := by
  obtain ⟨idx, s₁, hprobe, hrest⟩ := bind_eq_some.mp h
  obtain rfl := htProbe_unchanged hprobe
  obtain ⟨ht, s₂, hget, hpure⟩ := bind_eq_some.mp hrest
  obtain ⟨rfl, rfl⟩ := Prod.mk.inj (Option.some.inj hget)
  exact (Prod.mk.inj (Option.some.inj hpure)).2.symm

/-! ### What an insertion keeps -/

section Keeps

variable {I : Ht → Prop} {E : HtEntry → Prop}

theorem htPlace_keeps {r : Option ℕ} (hput : ∀ idx, r = some idx → I (s.put idx e)) (hs : I s)
    (h : htPlace env e n s = some (r, s')) : I s' := by
  obtain ⟨idx, -, ⟨-, rfl, rfl⟩ | ⟨-, -, rfl⟩⟩ := htPlace_cases h
  · exact hput idx rfl
  · exact hs

/-- A property `I` of tables is kept by insertions if it is kept by storing entries with
the property `E`, as all entries of such tables have it, and holds of the empty storage
of a growth. -/
theorem htInsert_keeps (hput : ∀ s idx e, I s → E e → I (s.put idx e))
    (hslot : ∀ s i, I s → i < s.capacity → (s.storage i).status ≠ 0 → E (s.storage i))
    (hfresh : ∀ s cap n, I s → htSizeup s.capacity n s = some (cap, s) →
      cap * htEntrySize < sizeMod → I (htFresh cap))
    {calloc : ℕ → Bool} {r : Option ℕ} (hs : I s) (he : r.isSome = true → E e)
    (h : htInsert env calloc n e s = some (r, s')) : I s' := by
  induction n generalizing e s r s' with
  | zero => exact absurd h (by simp [htInsert])
  | succ n ih =>
    by_cases hexp : htShouldExpand s = true
    · rw [htInsert_of_expand hexp] at h
      obtain ⟨b, s₁, hexpand, hrest⟩ := bind_eq_some.mp h
      obtain ⟨cap, hsize, ⟨rfl, rfl, -⟩ | ⟨rfl, hcap, -, hre⟩⟩ := htExpand_cases hexpand
      · obtain ⟨-, rfl⟩ := Prod.mk.inj (Option.some.inj hrest)
        exact hs
      · -- the growth inserts the entries of the old storage again
        have hgrown : I s₁ := by
          refine fuelLoop_partial (I := fun _ t => I t) (Q := fun _ t => I t) ?_ n 0 _ _ _
            (hfresh s cap n hs hsize hcap) hre
          intro i t r' t' ht hbody
          obtain ⟨-, rfl, rfl⟩ | ⟨hi, rfl, ⟨-, rfl⟩ | ⟨h0, slot, hins⟩⟩ :=
            htRehashBody_cases hbody
          · exact ht
          · exact ht
          · exact ih ht (fun _ => hslot s i hs hi h0) hins
        rw [if_pos rfl] at hrest
        refine htPlace_keeps (fun idx hidx => hput s₁ idx e hgrown (he ?_)) hgrown hrest
        rw [hidx]
        rfl
    · rw [htInsert_of_not_expand (Bool.eq_false_iff.mpr hexp)] at h
      refine htPlace_keeps (fun idx hidx => hput s idx e hs (he ?_)) hs h
      rw [hidx]
      rfl

end Keeps

/-- The counter of `cldm_ht_expand` wraps before it reaches `2 ^ 32` slots. -/
theorem htRehash_diverges {insert : HtEntry → Prog Ht (Option ℕ)} {data : ℕ → HtEntry} {prev : ℕ}
    (hprev : 2 ^ 32 ≤ prev) (s : Ht) : htRehash insert data prev n s = none := by
  by_contra hne
  obtain ⟨⟨_, s'⟩, hre⟩ := Option.ne_none_iff_exists'.mp hne
  refine fuelLoop_partial (I := fun i _ => i < 2 ^ 32) (Q := fun _ _ => False) ?_ n 0 _ _ _
    (by omega) hre
  intro i t r t' hi hbody
  obtain ⟨hle, -⟩ | ⟨-, rfl, -⟩ := htRehashBody_cases hbody
  · omega
  · exact Nat.mod_lt _ (by omega)

end Cldm
