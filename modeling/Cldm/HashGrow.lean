/-
What a growth of the hash table reads and moves.

The loops of `cldm_ht_expand` insert every slot whose `status` is not 0, and so also
the slots of removed entries.  `liveMem` is the part of memory that holds the keys of
the live entries, and `liveOnly` an insertion that may store live entries only: a
growth is as it ought to be if it does the same with these two.

* `htInsert_part` — what an insertion returns in a part of memory, it returns in all
  of it;
* `HtRun.sound` — what holds of the table of any run;
* `htRehash_moves` — a rehash of a table without vacant slots;
* `ht_growth_moves_live` — in every run, a growth moves exactly the live entries iff
  no slot is vacant and no key is stored twice;
* `ht_growth_carries_vacant` — after a removal a growth stores the vacant slot.
-/
import Cldm.CString
import Cldm.HashRefine

namespace Cldm

open Prog Probing Bytes

variable {env : HtEnv} {mem mem' : Mem} {s s' : Ht} {K : Set (List UInt8)} {e : HtEntry}

/-! ### Parts of memory -/

section Parts

variable {memcmp : List UInt8 → List UInt8 → ℤ}

theorem htProbe_part (h : Part mem mem') (e : HtEntry) (reuse : Bool) (n : ℕ) :
    Le (htProbe ⟨mem, memcmp⟩ e reuse n) (htProbe ⟨mem', memcmp⟩ e reuse n) := by
  refine (Le.refl _).bind fun ht => Le.bind ?_ fun hash => .loop (fun idx => ?_) (Nat.le_refl n) _
  · exact (h.readBytes _ _).bind fun _ => .refl _
  · refine (Le.refl _).bind fun ht => .ite _ (.refl _) (.ite _ (.refl _) (.ite _ ?_ (.refl _)))
    refine Le.bind ?_ fun _ => .refl _
    exact (h.readBytes _ _).bind fun _ => (h.readBytes _ _).bind fun _ => .refl _

theorem htPlace_part (h : Part mem mem') (e : HtEntry) (n : ℕ) :
    Le (htPlace ⟨mem, memcmp⟩ e n) (htPlace ⟨mem', memcmp⟩ e n) :=
  (htProbe_part h e true n).bind fun _ => .refl _

/-- What an insertion returns in a part of memory, it returns in all of it. -/
theorem htInsert_part (h : Part mem mem') (calloc : ℕ → Bool) (n : ℕ) (e : HtEntry) :
    Le (htInsert ⟨mem, memcmp⟩ calloc n e) (htInsert ⟨mem', memcmp⟩ calloc n e) := by
  induction n generalizing e with
  | zero => exact Le.refl _
  | succ n ih =>
    refine (Le.refl _).bind fun ht => .ite _ ?_ (htPlace_part h e n)
    exact (le_htExpand ih calloc (Nat.le_refl n)).bind fun b => .ite _ (htPlace_part h e n) (.refl _)

/-- A memory in which everything can be read. -/
def fullMem (mem : Mem) : Mem := fun a => some ((mem a).getD 0)

theorem part_fullMem (mem : Mem) : Part mem (fullMem mem) := by
  intro a b hab
  rw [fullMem, hab, Option.getD_some]

theorem readable_fullMem (mem : Mem) (e : HtEntry) : Readable (fullMem mem) e := by
  have haccess : Accessible (fullMem mem) e.key e.size := fun _ _ => rfl
  exact haccess.bytesAt

end Parts

/-! ### What a growth ought to do -/

/-- The part of memory that holds the keys of the live entries. -/
def liveMem (mem : Mem) (s : Ht) : Mem := fun a =>
  if ∃ i < s.capacity, htVacant < (s.storage i).status ∧ (s.storage i).key ≤ a ∧
      a < (s.storage i).key + (s.storage i).size then mem a else none

/-- An insertion that may store live entries only. -/
def liveOnly (insert : HtEntry → Prog Ht (Option ℕ)) (entry : HtEntry) : Prog Ht (Option ℕ) :=
  if htVacant < entry.status then insert entry else fun _ => none

/-- How many slots hold the entry `e`. -/
def slotsWith (cap : ℕ) (storage : ℕ → HtEntry) (e : HtEntry) : ℕ :=
  count (fun slot => decide (slot = e)) cap storage

/-- The number of live slots. -/
def liveCount (s : Ht) : ℕ := count (fun slot => decide (htVacant < slot.status)) s.capacity s.storage

/-- The new table `s'` holds exactly the live entries of `s`. -/
structure LiveMoved (s s' : Ht) : Prop where
  entries : ∀ e, htVacant < e.status →
    slotsWith s'.capacity s'.storage e = slotsWith s.capacity s.storage e
  size : s'.size = liveCount s
  noVacant : NoVacant s'

/-- A growth that succeeds moves exactly the live entries, whatever memory holds besides
their keys: it could do with the part of memory that holds these, and inserts no other
slot. -/
def MovesLive (env : HtEnv) (s : Ht) : Prop :=
  ∀ mem' calloc s', Part (liveMem env.mem s) mem' →
    Returns (fun n => htExpand (htInsert ⟨mem', env.memcmp⟩ calloc n) calloc n) s true s' →
    Returns (fun n => htExpand (liveOnly (htInsert ⟨liveMem env.mem s, env.memcmp⟩ calloc n))
      calloc n) s true s' ∧ LiveMoved s s'

/-- No two live slots hold the same key. -/
def KeysDistinct (mem : Mem) (s : Ht) : Prop :=
  ∀ i < s.capacity, ∀ j < s.capacity, htVacant < (s.storage i).status →
    htVacant < (s.storage j).status → keyOf mem (s.storage i) = keyOf mem (s.storage j) → i = j

theorem part_liveMem (mem : Mem) (s : Ht) : Part (liveMem mem s) mem := by
  intro a b hab
  rw [liveMem] at hab
  split_ifs at hab with ha
  exact hab

theorem bytesAt_liveMem {i : ℕ} (hi : i < s.capacity) (hlive : htVacant < (s.storage i).status) :
    bytesAt (liveMem mem s) (s.storage i).key (s.storage i).size =
      bytesAt mem (s.storage i).key (s.storage i).size := by
  refine bytesAt_congr fun j hj => ?_
  rw [liveMem, if_pos ⟨i, hi, hlive, by omega, by omega⟩]

theorem keyOf_liveMem {i : ℕ} (hi : i < s.capacity) (hlive : htVacant < (s.storage i).status) :
    keyOf (liveMem mem s) (s.storage i) = keyOf mem (s.storage i) := by
  rw [keyOf, keyOf, bytesAt_liveMem hi hlive]

theorem LiveReadable.liveMem (h : LiveReadable mem s) : LiveReadable (liveMem mem s) s := by
  intro i hi hlive
  obtain ⟨bs, hbs⟩ := h i hi hlive
  exact ⟨bs, (bytesAt_liveMem hi hlive).trans hbs⟩

theorem liveOnly_of_live {insert : HtEntry → Prog Ht (Option ℕ)} (h : htVacant < e.status) :
    liveOnly insert e = insert e := if_pos h

theorem le_liveOnly (insert : HtEntry → Prog Ht (Option ℕ)) (e : HtEntry) :
    Le (liveOnly insert e) (insert e) := by
  intro s r h
  rw [liveOnly] at h
  split_ifs at h
  exact h

/-! ### Any run -/

/-- What holds of the table of any run. -/
structure HtSound (mem : Mem) (s : Ht) : Prop where
  pos : 0 < s.capacity
  lt : s.capacity < 2 ^ 60
  live : LiveReadable mem s

theorem HtRun.sound {ok : HtCall → Ht → Prop} (h : HtRun env ok s K) : HtSound env.mem s := by
  refine h.keeps (I := HtSound env.mem) (E := fun e => htVacant < e.status → Readable env.mem e)
    ?_ (fun e he _ => he) ?_ ?_ ?_ ?_ ?_
  · exact ⟨by decide, by decide, fun i _ hlive => absurd hlive (by simp [htInit, HtEntry.status])⟩
  · exact fun s idx e hs he => ⟨hs.pos, hs.lt, hs.live.put he idx⟩
  · exact fun s i hs hi _ hlive => hs.live i hi hlive
  · intro s cap n hs hsize hbytes
    obtain ⟨-, hlo, -⟩ := (htSizeup_spec hs.pos hs.lt s).of_returns
      ((fuelMono_htSizeup _).returns hsize)
    have hpos := hs.pos
    simp only [htEntrySize, sizeMod] at hbytes
    exact ⟨show 0 < cap by omega, show cap < 2 ^ 60 by omega, (grown_fresh env.mem cap).live⟩
  · exact fun s idx hs => ⟨hs.pos, hs.lt, hs.live.drop idx⟩
  · intro s s' hs hclear
    obtain ⟨-, rfl⟩ := Prod.mk.inj (Option.some.inj hclear)
    refine ⟨hs.pos, hs.lt, fun i hi hlive => ?_⟩
    have hi' : i < s.capacity := hi
    simp only [if_pos hi', HtEntry.status] at hlive
    exact absurd hlive (Nat.not_lt_zero _)

/-! ### A growth without vacant slots -/

section Moves

variable {data : ℕ → HtEntry} {prev cap i : ℕ} {calloc : ℕ → Bool}

/-- The old slots below `i` have no key in common. -/
def DataDistinct (mem : Mem) (data : ℕ → HtEntry) (i : ℕ) : Prop :=
  ∀ j < i, ∀ l < i, ∀ x, (cellOf mem ∘ data) j = .full x → (cellOf mem ∘ data) l = .full x → j = l

/-- The table of a growth after `i` turns. -/
structure Moved (mem : Mem) (data : ℕ → HtEntry) (cap i : ℕ) (s : Ht) : Prop where
  rep : HtRep mem s (dataKeys mem data i)
  capacity : s.capacity = cap
  noVacant : NoVacant s
  entries : DataDistinct mem data i → ∀ e, htVacant < e.status →
    slotsWith s.capacity s.storage e = slotsWith i data e

theorem slotsWith_succ (e : HtEntry) :
    slotsWith (i + 1) data e = slotsWith i data e + if data i = e then 1 else 0 := by
  have hsucc : slotsWith (i + 1) data e =
      slotsWith i data e + if decide (data i = e) = true then 1 else 0 := Nat.count_succ _ i
  simpa only [decide_eq_true_eq] using hsucc

theorem slotsWith_put {idx : ℕ} {e' : HtEntry} (hidx : idx < s.capacity)
    (hfree : s.storage idx ≠ e') :
    slotsWith s.capacity (s.put idx e).storage e' =
      slotsWith s.capacity s.storage e' + if e = e' then 1 else 0 := by
  have hcount : slotsWith s.capacity (s.put idx e).storage e' +
      (if decide (s.storage idx = e') = true then 1 else 0) =
      slotsWith s.capacity s.storage e' + if decide (e = e') = true then 1 else 0 :=
    count_update hidx e
  simpa only [decide_eq_true_eq, if_neg hfree, Nat.add_zero] using hcount

/-- A rehash of a table without vacant slots inserts live entries only and keeps them. -/
theorem htRehash_moves (hexact : MemcmpExact env) (hprev : prev < 2 ^ 32) (hcap : 2 * prev < cap)
    (hcap' : cap < 2 ^ 60)
    (hread : ∀ j < prev, htVacant < (data j).status → Readable env.mem (data j))
    (hno : ∀ j < prev, (data j).status ≠ htVacant) :
    Total (fun n => htRehash (liveOnly (htInsert env calloc n)) data prev n)
      (fun _ s' => Moved env.mem data cap prev s') (htFresh cap) := by
  refine total_htRehash (fun n => liveOnly (htInsert env calloc n))
    (Moved env.mem data cap) hprev ?_ ?_
    ⟨htFresh_rep (by omega) hcap', rfl, fun _ _ => Nat.zero_ne_one, ?_⟩
  · rintro i - s ⟨hrep, hscap, hsno, hentries⟩ h0
    have hfree : ((cellOf env.mem ∘ data) i).isFull = false :=
      isFull_cellOf.mpr (by rw [h0]; exact Nat.zero_le _)
    have hkeys : dataKeys env.mem data (i + 1) = dataKeys env.mem data i := keys_succ_free hfree
    refine ⟨by rw [hkeys]; exact hrep, hscap, hsno, fun hdist e he => ?_⟩
    have hne : data i ≠ e := by
      rintro rfl
      omega
    rw [slotsWith_succ, if_neg hne]
    exact hentries (fun j hj l hl => hdist j (by omega) l (by omega)) e he
  · rintro i hi s ⟨hrep, hscap, hsno, hentries⟩ h0
    have hlive : htVacant < (data i).status := by
      have := hno i hi
      simp only [htVacant] at this ⊢
      omega
    have hcell : (cellOf env.mem ∘ data) i = .full (keyOf env.mem (data i)) := cellOf_live hlive
    have hkeys : dataKeys env.mem data (i + 1) =
        insert (keyOf env.mem (data i)) (dataKeys env.mem data i) := keys_succ_full hcell
    obtain ⟨hexp, hun⟩ := hrep.room (by omega) hi hsno
    have htells : ProbeRight env s (data i) := hexact.tells ..
    have he := hread i hi hlive
    have hguard : (fun n => liveOnly (htInsert env calloc n) (data i)) =
        fun n => htInsert env calloc n (data i) := funext fun n => liveOnly_of_live hlive
    rw [hguard]
    by_cases hx : keyOf env.mem (data i) ∈ dataKeys env.mem data i
    · -- the key is there already
      obtain ⟨k, hk⟩ := hun.firstAt env true (data i)
      refine (total_htInsert_of_not_expand hexp (hrep.place_stored htells he hx hk
        (hsno _ (slotAt_lt hrep.pos)))).mono ?_
      rintro r s' ⟨-, rfl⟩
      refine ⟨by rw [hkeys, Set.insert_eq_of_mem hx]; exact hrep, hscap, hsno, fun hdist => ?_⟩
      obtain ⟨j, hj, hjx⟩ := hx
      have := hdist j (by omega) i (Nat.lt_succ_self i) _ hjx hcell
      omega
    · obtain ⟨k, hk, hplace⟩ := hrep.place_new htells he hlive hun hx
      have hfree : (s.storage (htWay env.mem s (data i) k)).status ≤ htVacant :=
        isFull_cellOf.mp (insert_miss hrep.pos (by rw [hrep.keys]; exact hx)
          (hrep.firstAt htells he hk))
      refine (total_htInsert_of_not_expand hexp hplace).mono ?_
      rintro r s' ⟨-, rfl, hrep'⟩
      refine ⟨by rw [hkeys]; exact hrep', hscap, hsno.put (by omega) _, fun hdist e' he' => ?_⟩
      have hne : s.storage (htWay env.mem s (data i) k) ≠ e' := by
        rintro rfl
        omega
      rw [slotsWith_succ, ← hentries (fun j hj l hl => hdist j (by omega) l (by omega)) e' he']
      exact slotsWith_put (slotAt_lt hrep.pos) hne
  · intro _ e he
    have hne : (⟨0, 0⟩ : HtEntry) ≠ e := by
      rintro rfl
      exact absurd he (Nat.not_lt_zero 1)
    exact count_const _ (decide_eq_false hne)

/-- An insertion that may store live entries only does not get past a vacant slot. -/
theorem noVacant_of_htRehash {insert : HtEntry → Prog Ht (Option ℕ)} {n : ℕ}
    (h : htRehash (liveOnly insert) data prev n s = some ((), s')) :
    ∀ j < prev, (data j).status ≠ htVacant := by
  intro j hj hvacant
  refine fuelLoop_partial (I := fun i _ => i ≤ j) (Q := fun _ _ => False) ?_ n 0 _ _ _
    (Nat.zero_le j) h
  intro i t r t' hi hbody
  have hmod : (i + 1) % 2 ^ 32 ≤ i + 1 := Nat.mod_le ..
  obtain ⟨hle, -⟩ | ⟨-, rfl, hturn⟩ := htRehashBody_cases hbody
  · omega
  rcases Nat.lt_or_eq_of_le hi with hlt | rfl
  · exact hmod.trans hlt
  · obtain ⟨h0, -⟩ | ⟨-, slot, hins⟩ := hturn
    · exact absurd (h0.symm.trans hvacant) Nat.zero_ne_one
    · rw [liveOnly, if_neg (by omega)] at hins
      exact absurd hins (by simp)

/-- Where everything can be read, a rehash returns. -/
theorem htRehash_returns (hread : ∀ e, Readable env.mem e) (hprev : prev < 2 ^ 32)
    (hcap : 2 * prev < cap) :
    Total (fun n => htRehash (htInsert env calloc n) data prev n) (fun _ _ => True)
      (htFresh cap) := by
  refine (total_htRehash (htInsert env calloc) (Grown env.mem cap) hprev ?_ ?_
    (grown_fresh env.mem cap)).mono fun _ _ _ => trivial
  · exact fun i _ s hg _ => hg.mono (Nat.le_succ i)
  · intro i hi s hg _
    have hsize := hg.size
    have hscap := hg.capacity
    have hexp : htShouldExpand s = false := by
      rw [← Bool.not_eq_true, htShouldExpand_iff (by omega)]
      omega
    have hun : HasUnused s := hg.hasUnused (by omega)
    obtain ⟨k, hk⟩ := hun.firstAt env true (data i)
    refine (total_htInsert_of_not_expand hexp
      (htPlace_spec hun.pos hg.live (hread (data i)) hk)).mono ?_
    rintro r s' (⟨-, -, rfl⟩ | ⟨-, -, rfl⟩)
    · exact hg.put (slotAt_lt hun.pos) fun _ => hread (data i)
    · exact hg.mono (Nat.le_succ i)

end Moves

/-! ### Growths in a run -/

section Growths

variable {ok : HtCall → Ht → Prop} {calloc : ℕ → Bool}

/-- A growth that succeeds starts from a number of slots that an `unsigned` can count,
and its allocation succeeds. -/
theorem htExpand_true {insert : ℕ → HtEntry → Prog Ht (Option ℕ)}
    (h : Returns (fun n => htExpand (insert n) calloc n) s true s') :
    s.capacity < 2 ^ 32 ∧ ∃ cap n, Returns (htSizeup s.capacity) s cap s ∧ calloc cap = true ∧
      htRehash (insert n) s.storage s.capacity n (htFresh cap) = some ((), s') := by
  obtain ⟨n, hn⟩ := h
  obtain ⟨cap, hsize, ⟨hfalse, -⟩ | ⟨-, -, hcalloc, hre⟩⟩ := htExpand_cases (hn n (Nat.le_refl n))
  · exact absurd hfalse (by simp)
  refine ⟨?_, cap, n, (fuelMono_htSizeup _).returns hsize, hcalloc, hre⟩
  by_contra hge
  rw [htRehash_diverges (Nat.not_lt.mp hge)] at hre
  exact absurd hre (by simp)

theorem dataDistinct_iff : DataDistinct (liveMem mem s) s.storage s.capacity ↔ KeysDistinct mem s := by
  constructor
  · intro h i hi j hj hli hlj heq
    refine h i hi j hj (keyOf mem (s.storage i)) ?_ ?_
    · rw [← keyOf_liveMem hi hli]
      exact cellOf_live hli
    · rw [heq, ← keyOf_liveMem hj hlj]
      exact cellOf_live hlj
  · intro h i hi j hj x hix hjx
    obtain ⟨hli, hki⟩ := live_of_cellOf hix
    obtain ⟨hlj, hkj⟩ := live_of_cellOf hjx
    rw [keyOf_liveMem hi hli] at hki
    rw [keyOf_liveMem hj hlj] at hkj
    exact h i hi j hj hli hlj (hki.trans hkj.symm)

theorem liveCount_eq (mem : Mem) (s : Ht) :
    liveCount s = count Cell.isFull s.capacity (cellOf mem ∘ s.storage) := by
  refine count_congr fun i _ => ?_
  rw [Bool.eq_iff_iff, decide_eq_true_eq, ← not_iff_not, Bool.not_eq_true, Function.comp_apply,
    isFull_cellOf, Nat.not_lt]

/-- A growth of a table without vacant slots, with only the keys of the live entries in
memory. -/
theorem HtSound.expand_live (h : HtSound env.mem s) (hexact : MemcmpExact env)
    (hprev : s.capacity < 2 ^ 32) (hno : NoVacant s)
    (hcalloc : ∀ cap, Returns (htSizeup s.capacity) s cap s → calloc cap = true) :
    Total (fun n => htExpand (liveOnly (htInsert ⟨liveMem env.mem s, env.memcmp⟩ calloc n)) calloc n)
      (fun b s' => b = true ∧ ∃ cap, Moved (liveMem env.mem s) s.storage cap s.capacity s') s := by
  let live : HtEnv := ⟨liveMem env.mem s, env.memcmp⟩
  refine total_htExpand (fun n => liveOnly (htInsert live calloc n)) calloc h.pos hprev hcalloc
    fun cap _ hlo hhi => ?_
  have hlive : MemcmpExact live := hexact
  have hmoves : Total (fun n => htRehash (liveOnly (htInsert live calloc n)) s.storage s.capacity n)
      (fun _ s' => Moved live.mem s.storage cap s.capacity s') (htFresh cap) :=
    htRehash_moves hlive hprev hlo hhi h.live.liveMem hno
  exact hmoves.mono fun _ s' hs' => ⟨cap, hs'⟩

theorem Moved.liveMoved {cap : ℕ}
    (h : Moved (liveMem mem s) s.storage cap s.capacity s') (hdist : KeysDistinct mem s) :
    LiveMoved s s' := by
  have hdata := dataDistinct_iff.mpr hdist
  refine ⟨h.entries hdata, ?_, h.noVacant⟩
  rw [h.rep.size, (ncard_keys hdata).2, liveCount_eq (liveMem mem s)]

/-- A growth that inserts live entries only returns the same in any memory. -/
theorem returns_of_liveOnly {memcmp : List UInt8 → List UInt8 → ℤ} {b : Bool}
    (hpart : Part mem mem')
    (h : Returns (fun n => htExpand (liveOnly (htInsert ⟨mem, memcmp⟩ calloc n)) calloc n) s b s') :
    Returns (fun n => htExpand (htInsert ⟨mem', memcmp⟩ calloc n) calloc n) s b s' := by
  refine h.of_le fun n => le_htExpand (fun e => ?_) calloc (Nat.le_refl n)
  exact fun t r hr => htInsert_part hpart calloc n e t r (le_liveOnly _ e t r hr)

theorem HtSound.movesLive (h : HtSound env.mem s) (hexact : MemcmpExact env) (hno : NoVacant s)
    (hdist : KeysDistinct env.mem s) : MovesLive env s := by
  intro mem' calloc s' hpart hret
  obtain ⟨hprev, cap, n, hsize, hcalloc, -⟩ := htExpand_true hret
  have halloc : ∀ cap', Returns (htSizeup s.capacity) s cap' s → calloc cap' = true := by
    intro cap' hsize'
    rw [(hsize'.unique hsize).1]
    exact hcalloc
  obtain ⟨b, s'', hlive, rfl, cap', hmoved⟩ := h.expand_live hexact hprev hno halloc
  obtain ⟨-, rfl⟩ := hret.unique (returns_of_liveOnly hpart hlive)
  exact ⟨hlive, hmoved.liveMoved hdist⟩

/-- Where everything can be read, a growth succeeds. -/
theorem HtSound.expand_full (h : HtSound env.mem s) (hprev : s.capacity < 2 ^ 32) :
    ∃ s', Returns (fun n => htExpand (htInsert ⟨fullMem env.mem, env.memcmp⟩ (fun _ => true) n)
      (fun _ => true) n) s true s' := by
  have hread := readable_fullMem env.mem
  let full : HtEnv := ⟨fullMem env.mem, env.memcmp⟩
  obtain ⟨b, s', hret, rfl, -⟩ := total_htExpand (htInsert full fun _ => true) (fun _ => true)
    h.pos hprev (fun _ _ => rfl) fun cap _ hlo _ => htRehash_returns hread hprev hlo
  exact ⟨s', hret⟩

theorem HtSound.of_movesLive (h : HtSound env.mem s) (hexact : MemcmpExact env)
    (hprev : s.capacity < 2 ^ 32) (hmoves : MovesLive env s) :
    NoVacant s ∧ KeysDistinct env.mem s := by
  obtain ⟨s', hret⟩ := h.expand_full hprev
  have hpart := (part_liveMem env.mem s).trans (part_fullMem env.mem)
  obtain ⟨hlive, hmoved⟩ := hmoves _ _ s' hpart hret
  obtain ⟨-, cap, n, -, -, hre⟩ := htExpand_true hlive
  have hno : NoVacant s := noVacant_of_htRehash hre
  refine ⟨hno, ?_⟩
  -- the size tells whether a key was stored twice
  obtain ⟨-, cap', hm⟩ := (h.expand_live hexact hprev hno fun _ _ => rfl).of_returns hlive
  have hcard := hm.rep.size
  rw [hmoved.size, liveCount_eq (liveMem env.mem s)] at hcard
  exact dataDistinct_iff.mp (unique_of_ncard_keys hcard.symm)

/-- In every run, a growth that succeeds moves exactly the live entries, and reads no
other key, iff no slot is vacant and no key is stored twice. -/
theorem ht_growth_moves_live (hexact : MemcmpExact env) (h : HtRun env ok s K) :
    MovesLive env s ↔ 2 ^ 32 ≤ s.capacity ∨ NoVacant s ∧ KeysDistinct env.mem s := by
  have hsound := h.sound
  constructor
  · intro hmoves
    rcases Nat.lt_or_ge s.capacity (2 ^ 32) with hprev | hge
    · exact .inr (hsound.of_movesLive hexact hprev hmoves)
    · exact .inl hge
  · rintro (hge | ⟨hno, hdist⟩)
    · -- the counter of the growth wraps
      intro mem' calloc s' _ hret
      have hprev := (htExpand_true hret).1
      omega
    · exact hsound.movesLive hexact hno hdist

theorem ht_growth_moves_live_run : ∃ s, HtRun byteEnv KeepsSmall s (byteKeys 40) ∧
    liveCount s = 40 ∧ MovesLive byteEnv s := by
  obtain ⟨s, hrun, hsize⟩ := exists_keepsSmall_run
  have hhalf := hrun.half byteEnv_exact
  have hdist : KeysDistinct byteEnv.mem s := fun i hi j hj hli hlj heq =>
    hhalf.unique hi hj hli hlj heq
  refine ⟨s, hrun, ?_, ?_⟩
  · rw [liveCount_eq byteEnv.mem, ← hsize]
    exact hhalf.toHtRep.size_eq.symm
  · exact (ht_growth_moves_live byteEnv_exact hrun).mpr (.inr ⟨hhalf.noVacant, hdist⟩)

/-- A key is inserted and removed, and fifteen others are inserted: the growth that the
next insertion starts stores the vacant slot and counts it. -/
theorem ht_growth_carries_vacant : MemcmpExact byteEnv ∧ ∃ s K, HtRun byteEnv Allocates s K ∧
    htShouldExpand s = true ∧ liveCount s = 15 ∧
    (∃ s', s'.size = 16 ∧ Returns (fun n => htExpand (htInsert ⟨fullMem byteEnv.mem, bytesDiff⟩
      (fun _ => true) n) (fun _ => true) n) s true s') ∧
    ¬ MovesLive byteEnv s := by
  let cs := [insertByte 27, removeByte 27] ++ (List.range 15).map insertByte
  have hfacts : (htScript 4 cs).bind (fun s =>
      (htExpand (htInsert ⟨fullMem byteEnv.mem, bytesDiff⟩ (fun _ => true) 40) (fun _ => true) 40
        s).map fun r => (htShouldExpand s, liveCount s, r.1, r.2.size)) =
      some (true, 15, true, 16) := by
    decide +kernel
  obtain ⟨s, hs, hgrow⟩ := Option.bind_eq_some_iff.mp hfacts
  obtain ⟨⟨b, s'⟩, hexpand, hvalues⟩ := Option.map_eq_some_iff.mp hgrow
  simp only [Prod.mk.injEq] at hvalues
  obtain ⟨hexp, hlive, rfl, hsize⟩ := hvalues
  have hcalls : ∀ c ∈ cs, (∀ e ∈ c.entry, Readable byteEnv.mem e) ∧ ∀ s, Allocates c s := by
    intro c hc
    simp only [cs, List.mem_append, List.mem_cons, List.not_mem_nil, or_false, List.mem_map,
      List.mem_range] at hc
    obtain (rfl | rfl) | ⟨b, hb, rfl⟩ := hc
    · exact insertByte_allocates (by omega)
    · exact removeByte_allocates (by omega)
    · exact insertByte_allocates (by omega)
  obtain ⟨K, hrun⟩ := htScript_htRun hs hcalls
  have hmono : FuelMono fun n => htExpand (htInsert ⟨fullMem byteEnv.mem, bytesDiff⟩
      (fun _ => true) n) (fun _ => true) n := fun n =>
    le_htExpand (fun e => fuelMono_htInsert _ e n) _ (Nat.le_succ n)
  have hret := hmono.returns hexpand
  refine ⟨byteEnv_exact, s, K, hrun, hexp, hlive, ⟨s', hsize, hret⟩, fun hmoves => ?_⟩
  have hpart := (part_liveMem byteEnv.mem s).trans (part_fullMem byteEnv.mem)
  have hmoved := (hmoves _ _ s' hpart hret).2
  have := hmoved.size
  omega

end Growths

end Cldm
