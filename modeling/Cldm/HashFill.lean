/-
Tables that nothing is removed from.

Without removals there are no vacant slots: every insertion is then safe, and the
table stays at most half full.  The entries that it stores are those that an
insertion has answered with a slot.

* `SlotsIn`, `htInsert_slots` — what holds of all entries that were stored;
* `HtFilled.insert` — an insertion into such a table;
* `HtFilled.insertRight` — its comparisons are right if the keys are told apart;
* `HtFilled.congr` — a change of memory that leaves the keys alone.
-/
import Cldm.HashStep

namespace Cldm

open Prog Probing Bytes

variable {env : HtEnv} {mem mem' : Mem} {s s' : Ht} {K : Set (List UInt8)} {e : HtEntry}
  {P : HtEntry → Prop}

/-! ### The stored entries -/

/-- All entries of the table have the property `P`. -/
def SlotsIn (P : HtEntry → Prop) (s : Ht) : Prop := ∀ i, (s.storage i).status ≠ 0 → P (s.storage i)

theorem SlotsIn.put (h : SlotsIn P s) (he : P e) (idx : ℕ) : SlotsIn P (s.put idx e) := by
  intro i hi
  by_cases hii : i = idx
  · subst hii
    rwa [show (s.put i e).storage i = e from Function.update_self ..]
  · rw [show (s.put idx e).storage i = s.storage i from Function.update_of_ne hii ..] at hi ⊢
    exact h i hi

theorem slotsIn_fresh (P : HtEntry → Prop) (cap : ℕ) : SlotsIn P (htFresh cap) :=
  fun _ h => absurd rfl h

/-- An insertion stores no other entry than its own. -/
theorem htInsert_slots {calloc : ℕ → Bool} {n : ℕ} {r : Option ℕ} (hs : SlotsIn P s)
    (he : r.isSome = true → P e) (h : htInsert env calloc n e s = some (r, s')) :
    SlotsIn P s' :=
  htInsert_keeps (fun _ idx _ hs he => hs.put he idx) (fun _ i hs _ h0 => hs i h0)
    (fun _ cap _ _ _ _ => slotsIn_fresh P cap) hs he h

/-! ### Insertions -/

/-- The table stores exactly the keys `K`, in entries with the property `P`, and has
no vacant slot. -/
structure HtFilled (mem : Mem) (P : HtEntry → Prop) (s : Ht) (K : Set (List UInt8)) : Prop
    extends HtInv mem s K where
  slots : SlotsIn (fun e => e.status ≠ htVacant ∧ P e) s

theorem htInit_filled (mem : Mem) (P : HtEntry → Prop) : HtFilled mem P htInit ∅ :=
  { htInit_inv with slots := slotsIn_fresh _ _ }

theorem HtFilled.noVacant (h : HtFilled mem P s K) : NoVacant s := by
  intro i _ hst
  refine (h.slots i ?_).1 hst
  rw [hst]
  exact Nat.one_ne_zero

/-- A table that is at most half full has two unused slots. -/
theorem HtFilled.hasTwoUnused (h : HtFilled mem P s K) (hexp : ¬ htShouldExpand s = true) :
    HasTwoUnused s := by
  have hlt : s.size < 2 ^ 60 := h.size_le.trans_lt h.lt
  rw [htShouldExpand_iff hlt] at hexp
  have hsize := h.size_eq
  -- a slot is unused if it is not live, as none is vacant
  have hunused : ∀ i < s.capacity, (cells mem s i).isFull = false → (s.storage i).status = 0 := by
    intro i hi hfree
    have hle := isFull_cellOf.mp hfree
    have hne := h.noVacant i hi
    simp only [htVacant] at hle hne
    omega
  obtain ⟨i, hi, hfree⟩ : ∃ i < s.capacity, (cells mem s i).isFull = false :=
    exists_not_of_count_lt (by omega)
  -- with slot `i` filled, another one is still free
  have hcount : count Cell.isFull s.capacity (Function.update (cells mem s) i (.full [])) + _ = _ :=
    count_update hi _
  have hfull : (Cell.full ([] : List UInt8)).isFull = true := rfl
  rw [hfree, hfull, ← hsize] at hcount
  simp only [Bool.false_eq_true, if_false, if_true] at hcount
  obtain ⟨j, hj, hfree'⟩ : ∃ j < s.capacity,
      (Function.update (cells mem s) i (.full []) j).isFull = false :=
    exists_not_of_count_lt (by omega)
  have hij : i ≠ j := by
    rintro rfl
    rw [Function.update_self] at hfree'
    exact absurd hfree' (by simp [hfull])
  rw [Function.update_of_ne hij.symm] at hfree'
  exact ⟨i, hi, j, hj, hij, hunused i hi hfree, hunused j hj hfree'⟩

theorem HtFilled.keyFirst (h : HtFilled mem P s K) (hp : Present mem s e) : KeyFirst mem s e := by
  obtain ⟨i, hi, hlive, -, hkey⟩ := hp
  have hcell : cells mem s i = .full (keyOf mem e) := by
    rw [← hkey]
    exact cellOf_live hlive
  obtain ⟨k, rfl, hbefore⟩ := h.probed.path i hi _ hcell
  refine ⟨k, ⟨hlive, hkey⟩, fun j hj => ?_⟩
  have hne := hbefore j hj
  have hno := h.noVacant _ (slotAt_lt h.pos (h := hashOf (keyOf mem e)) (k := j))
  -- the slots before that of the key are neither unused nor vacant
  rcases status_cases (s.storage (htWay mem s e j)) with h0 | h1 | h2
  · exact absurd (cellOf_unused h0) hne
  · exact absurd h1 hno
  · exact h2

/-- Every insertion is safe, unless the table holds too many keys to grow. -/
theorem HtFilled.insertSafe (h : HtFilled env.mem P s K) (hK : K.ncard < 2 ^ 31 - 1) :
    InsertSafe env s e := by
  rw [InsertSafe]
  split_ifs with hexp
  · have hlt : s.size < 2 ^ 60 := h.size_le.trans_lt h.lt
    rw [htShouldExpand_iff hlt, h.size] at hexp
    exact ⟨by omega, h.noVacant⟩
  · exact ⟨.inr (.inl (h.hasTwoUnused hexp)), h.keyFirst⟩

/-- An insertion into a table that nothing is removed from. -/
theorem HtFilled.insert (h : HtFilled env.mem P s K) (hright : InsertRight env s e)
    (he : Readable env.mem e) (hkey : htVacant < e.key) (hK : K.ncard < 2 ^ 31 - 1)
    (hP : keyOf env.mem e ∉ K → P e) {calloc : ℕ → Bool} (hcalloc : ∀ n, calloc n = true) :
    Total (fun n => htInsert env calloc n e) (fun r s' => (r = none ↔ keyOf env.mem e ∈ K) ∧
      HtFilled env.mem P s' (insert (keyOf env.mem e) K)) s := by
  obtain ⟨r, s', hret, hr, hinv⟩ := h.toHtInv.insert hright he hkey (h.insertSafe hK) hcalloc
  refine ⟨r, s', hret, hr, hinv, ?_⟩
  obtain ⟨n, hn⟩ := hret
  refine htInsert_slots h.slots (fun hsome => ?_) (hn n (Nat.le_refl n))
  have hx : keyOf env.mem e ∉ K := by
    intro hx
    rw [hr.mpr hx] at hsome
    exact absurd hsome (by simp)
  exact ⟨ne_of_gt hkey, hP hx⟩

/-- `cldm_memcmp` tells the words `W` apart. -/
def TellsApart (memcmp : List UInt8 → List UInt8 → ℤ) (W : Set (List UInt8)) : Prop :=
  ∀ x ∈ W, ∀ y ∈ W, x.length = y.length → (memcmp x y = 0 ↔ x = y)

theorem MemcmpExact.tellsApart (h : MemcmpExact env) (W : Set (List UInt8)) :
    TellsApart env.memcmp W := fun x _ y _ hlen => h x y hlen

theorem TellsApart.tells {memcmp : List UInt8 → List UInt8 → ℤ} {W : Set (List UInt8)}
    {x : List UInt8} {cap : ℕ} {cell : ℕ → Cell (List UInt8)} (h : TellsApart memcmp W)
    (hx : x ∈ W) (hcell : ∀ k y, cell (slotAt cap (hashOf x) k) = .full y → y ∈ W) :
    Tells memcmp cap cell x := by
  refine ⟨(h x hx x hx rfl).mpr rfl, ?_⟩
  rintro y ⟨k, hy, -⟩ hlen
  exact (h y (hcell k y hy) x hx hlen).mp

/-- Comparisons of words that are told apart are right. -/
theorem HtFilled.probeRight {W : Set (List UInt8)} (h : HtFilled env.mem P s K)
    (hW : TellsApart env.memcmp W) (hK : K ⊆ W) (he : keyOf env.mem e ∈ W) :
    ProbeRight env s e := by
  refine hW.tells he fun k y hy => hK ?_
  rw [← h.keys]
  exact ⟨_, slotAt_lt h.pos, hy⟩

theorem HtFilled.insertRight {W : Set (List UInt8)} (h : HtFilled env.mem P s K)
    (hW : TellsApart env.memcmp W) (hK : K ⊆ W) (he : keyOf env.mem e ∈ W) :
    InsertRight env s e := by
  rw [InsertRight]
  split_ifs
  · -- a growth inserts the stored keys once more
    rintro cap - ys x zs cell hsplit hcell
    have hsub : ∀ z ∈ ys ++ x :: zs, z ∈ W := by
      intro z hz
      rw [← hsplit] at hz
      rcases List.mem_append.mp hz with hz | hz
      · obtain ⟨i, hi, hcz⟩ := exists_of_mem_stored hz
        refine hK ?_
        rw [← h.keys]
        exact ⟨i, hi, hcz⟩
      · rwa [List.mem_singleton.mp hz]
    refine hW.tells (hsub x (by simp)) fun k y hy => ?_
    exact hsub y (List.mem_append_left _ (hcell.mem hy))
  · exact h.probeRight hW hK he

/-- A search in a table that nothing is removed from. -/
theorem HtFilled.find (h : HtFilled env.mem P s K) (hright : ProbeRight env s e)
    (he : Readable env.mem e) :
    Total (htFind env e) (fun r s' => s' = s ∧ (r = none ↔ keyOf env.mem e ∉ K) ∧
      ∀ idx, r = some idx → P (s.storage idx) ∧
        keyOf env.mem (s.storage idx) = keyOf env.mem e) s := by
  refine (h.toHtInv.find hright he).mono ?_
  rintro r s' ⟨rfl, hr, hidx⟩
  refine ⟨rfl, hr, fun idx hsome => ?_⟩
  obtain ⟨-, hlive, hkey⟩ := hidx idx hsome
  refine ⟨(h.slots idx ?_).2, hkey⟩
  have : htVacant < (s'.storage idx).status := hlive
  omega

/-- The cells look at the bytes of the keys only. -/
theorem SlotsIn.cells_congr (h : SlotsIn P s)
    (hmem : ∀ e, P e → bytesAt mem' e.key e.size = bytesAt mem e.key e.size) :
    cells mem' s = cells mem s := by
  funext i
  show cellOf mem' (s.storage i) = cellOf mem (s.storage i)
  rcases status_cases (s.storage i) with h0 | h1 | h2
  · rw [cellOf_unused h0, cellOf_unused h0]
  · rw [cellOf_vacant h1, cellOf_vacant h1]
  · rw [cellOf_live h2, cellOf_live h2, keyOf, keyOf, hmem _ (h i (by omega))]

/-- A change of memory that leaves the bytes of the keys alone. -/
theorem HtFilled.congr (h : HtFilled mem P s K)
    (hmem : ∀ e, P e → bytesAt mem' e.key e.size = bytesAt mem e.key e.size) :
    HtFilled mem' P s K := by
  have hcells : cells mem' s = cells mem s := h.slots.cells_congr fun e he => hmem e he.2
  refine { pos := h.pos, lt := h.lt, live := fun i hi hlive => ?_, probed := ?_, keys := ?_,
           size := h.size, unused := h.unused, slots := h.slots }
  · obtain ⟨bs, hbs⟩ := h.live i hi hlive
    exact ⟨bs, (hmem _ (h.slots i (by omega)).2).trans hbs⟩
  · rw [hcells]
    exact h.probed
  · rw [hcells]
    exact h.keys

theorem HtFilled.imp {P' : HtEntry → Prop} (h : HtFilled mem P s K) (hP : ∀ e, P e → P' e) :
    HtFilled mem P' s K :=
  { h with slots := fun i hi => ⟨(h.slots i hi).1, hP _ (h.slots i hi).2⟩ }

end Cldm
