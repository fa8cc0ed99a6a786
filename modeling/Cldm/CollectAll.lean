/-
Collecting all tests: `cldm_collect`.

* `collect_spec` — the tree holds, for each file and name, the first record that
  the walk over the string table looks up;
* `collect_sorted` — the tests are iterated in lexicographic order of file and
  name, whatever the order of the string table is;
* `collect_complete` — every test of the symbol table is collected exactly if its
  record is that of a whole string of the table;
* `collect_misses_suffix` — a test whose name is stored as the end of another
  string is left out.
-/
import Cldm.Collect
import Cldm.ElfBytes
import Cldm.HashRun

namespace Cldm

open Prog Bytes

variable {env env' : CollectEnv} {c c' : ElfContents} {s s' : CollectState}

/-! ### The walk -/

theorem fuelMono_insertRecord (r : ℕ) : FuelMono fun n => insertRecord env n r :=
  (FuelMono.onTree (fuelMono_insert r)).bind fun _ => .const _

theorem insertRecord_spec {rs : List ℕ} (h : TreeOf (testrecCompare env.records) rs s.tree) (r : ℕ) :
    Total (fun n => insertRecord env n r) (fun _ s' => s'.mem = s.mem ∧ s'.ht = s.ht ∧
      TreeOf (testrecCompare env.records) (rs ++ [r]) s'.tree) s := by
  refine Total.bind (Total.onTree ((h.insert testrecCompare_strictTotal r).mono ?_))
  intro b tree htree
  exact Total.const ((wp_pure ..).mpr ⟨rfl, rfl, htree⟩)

/-- `cldm_collect` stores the records of the table, or fails if one is not found. -/
theorem collect_spec (h : ProgramAt env s.mem c) :
    Total (collect env) (fun n s' =>
      (∀ r ∈ recordsOf env.map c, r ≠ 0) ∧ n = s'.tree.size ∧
          TreeOf (testrecCompare env.records) (recordsOf env.map c) s'.tree ∨
        n = -1 ∧ 0 ∈ recordsOf env.map c) s := by
  let I : List ℕ → CollectState → Prop := fun rs s' =>
    s'.mem = s.mem ∧ TreeOf (testrecCompare env.records) rs s'.tree
  have hwalk := strtabLoop_spec (F := False) h.image fuelMono_insertRecord (I := I)
    (s := { s with tree := rbtreeInit s.tree.mem })
    (fun _ s' hI => hI.1 ▸ part_readOnly env.writable s.mem)
    (fun done r _ s' _ _ hI => by
      refine Total.settles ((insertRecord_spec hI.2 r).mono ?_)
      rintro _ s'' ⟨hmem, -, htree⟩
      exact ⟨hmem.trans hI.1, htree⟩)
    ⟨rfl, treeOf_init _⟩
  refine Total.wp_bind ?_
  simp only [initTree, wp_bind, wp_get, wp_set]
  refine Total.bind ((hwalk.total id).mono ?_)
  rintro ok s' (⟨rfl, hne, -, htree⟩ | ⟨rfl, hzero⟩)
  · simp only [if_true]
    refine Total.const ?_
    rw [wp_bind]
    exact ⟨_, s', rfl, (wp_pure ..).mpr (.inl ⟨hne, rfl, htree⟩)⟩
  · simp only [Bool.false_eq_true, if_false]
    exact Total.const ((wp_pure ..).mpr (.inr ⟨rfl, hzero⟩))

/-! ### The order of the tests -/

/-- A list in order is known by its members. -/
theorem ordered_unique {cmp : ℕ → ℕ → ℤ} (hc : StrictTotal cmp) {l l' : List ℕ}
    (hord : Ordered cmp l) (hord' : Ordered cmp l') (hmem : ∀ a, a ∈ l ↔ a ∈ l') : l = l' := by
  have hperm : l.Perm l' :=
    (List.perm_ext_iff_of_nodup (hord.nodup hc) (hord'.nodup hc)).mpr hmem
  refine hperm.eq_of_pairwise ?_ hord hord'
  intro a b _ _ hab hba
  have := (hc.swap a b).mp hab
  omega

/-- Collecting gives the tests `l` in the order in which they run: strictly
increasing by file and name, one of the records `rs` for each file and name. -/
structure CollectsInOrder (env : CollectEnv) (s : CollectState) (rs l : List ℕ) : Prop where
  collected : Total (collect env) (fun n s' => n = l.length ∧
    Returns rbtreeForEach s'.tree (l.map .obj) s'.tree) s
  increasing : l.Pairwise fun a b => (env.records a).key < (env.records b).key
  mem : ∀ a ∈ l, a ∈ rs
  complete : ∀ r ∈ rs, ∃ a ∈ l, (env.records a).key = (env.records r).key

theorem exists_collectsInOrder (h : ProgramAt env s.mem c)
    (hfound : ∀ r ∈ recordsOf env.map c, r ≠ 0) :
    ∃ l, CollectsInOrder env s (recordsOf env.map c) l := by
  have hc : StrictTotal (testrecCompare env.records) := testrecCompare_strictTotal
  obtain ⟨n, s', hret, ⟨-, hn, htree⟩ | ⟨-, hzero⟩⟩ := collect_spec h
  · obtain ⟨l, hiter, hord, hmem, hsize, -⟩ := htree.forEach hc
    refine ⟨l, ⟨n, s', hret, ?_, hiter⟩, hord.imp testrecCompare_pos.mp, fun a ha => ?_,
      fun r hr => ?_⟩
    · rw [hn, hsize]
    · exact mem_of_mem_firsts ((hmem a).mp ha)
    · obtain ⟨a, ha, har⟩ := exists_mem_firsts hc hr
      exact ⟨a, (hmem a).mpr ha, testrecCompare_eq_zero.mp har⟩
  · exact absurd rfl (hfound 0 hzero)

/-- Tests are iterated in lexicographic order of file and name, and in the same
order by every collection whose string table leads to the same records. -/
theorem collect_sorted (h : ProgramAt env s.mem c) (hfound : ∀ r ∈ recordsOf env.map c, r ≠ 0) :
    ∃ l, CollectsInOrder env s (recordsOf env.map c) l ∧
      ∀ (env' : CollectEnv) (c' : ElfContents) (s' : CollectState), ProgramAt env' s'.mem c' →
        env'.records = env.records →
        (∀ r, r ∈ recordsOf env'.map c' ↔ r ∈ recordsOf env.map c) →
        ∃ l', CollectsInOrder env' s' (recordsOf env'.map c') l' ∧
          l'.map (fun r => (env.records r).key) = l.map (fun r => (env.records r).key) ∧
          ((∀ a ∈ l, ∀ b ∈ recordsOf env.map c,
            (env.records a).key = (env.records b).key → a = b) → l' = l) := by
  obtain ⟨l, hl⟩ := exists_collectsInOrder h hfound
  refine ⟨l, hl, fun env' c' s' h' hrec hsame => ?_⟩
  obtain ⟨l', hl'⟩ := exists_collectsInOrder h' fun r hr => hfound r ((hsame r).mp hr)
  have hc : StrictTotal (testrecCompare env.records) := testrecCompare_strictTotal
  have hord : Ordered (testrecCompare env.records) l :=
    hl.increasing.imp testrecCompare_pos.mpr
  have hord' : Ordered (testrecCompare env.records) l' := by
    have := hl'.increasing
    rw [hrec] at this
    exact this.imp testrecCompare_pos.mpr
  have hsub : ∀ a ∈ l', ∃ b ∈ l, testrecCompare env.records a b = 0 := by
    intro a ha
    obtain ⟨b, hb, hab⟩ := hl.complete a ((hsame a).mp (hl'.mem a ha))
    exact ⟨b, hb, testrecCompare_eq_zero.mpr hab.symm⟩
  have hsub' : ∀ b ∈ l, ∃ a ∈ l', testrecCompare env.records a b = 0 := by
    intro b hb
    obtain ⟨a, ha, hab⟩ := hl'.complete b ((hsame b).mpr (hl.mem b hb))
    rw [hrec] at hab
    exact ⟨a, ha, testrecCompare_eq_zero.mpr hab⟩
  refine ⟨l', hl', hord'.map_eq hc testrecCompare_eq_zero.mp hord hsub hsub', fun hkeyed => ?_⟩
  -- with one record for each key, the lists themselves agree
  have hid : ∀ a ∈ l', ∃ b ∈ l, a = b := by
    intro a ha
    obtain ⟨b, hb, hab⟩ := hsub a ha
    exact ⟨b, hb, (hkeyed b hb a ((hsame a).mp (hl'.mem a ha))
      (testrecCompare_eq_zero.mp hab).symm).symm⟩
  refine ordered_unique hc hord' hord fun a => ⟨fun ha => ?_, fun ha => ?_⟩
  · obtain ⟨b, hb, rfl⟩ := hid a ha
    exact hb
  · obtain ⟨b, hb, hba⟩ := hsub' a ha
    rwa [hkeyed a ha b ((hsame b).mp (hl'.mem b hb)) (testrecCompare_eq_zero.mp hba).symm]

/-! ### Tests that are left out -/

/-- Every test of the symbol table is collected. -/
def CollectsAll (env : CollectEnv) (c : ElfContents) (s : CollectState) : Prop :=
  Total (collect env) (fun n s' => 0 ≤ n ∧ ∀ sym ∈ c.syms, sym.stShndx ≠ shnUndef →
    testrecMark <+: c.nameOf sym → symaddrOf env.map sym ∈ s'.tree.stored) s

/-- All strings of the table with the prefix are names of defined symbols, and every
test is the first with its file and name whose record such a string leads to. -/
structure NamesListed (env : CollectEnv) (c : ElfContents) : Prop where
  found : ∀ str ∈ testStrings c, lookupOf env.map c str ≠ 0
  listed : ∀ sym ∈ c.syms, sym.stShndx ≠ shnUndef → testrecMark <+: c.nameOf sym →
    symaddrOf env.map sym ∈ firsts (testrecCompare env.records) (recordsOf env.map c)

theorem collect_complete (h : ProgramAt env s.mem c) : CollectsAll env c s ↔ NamesListed env c := by
  have hc : StrictTotal (testrecCompare env.records) := testrecCompare_strictTotal
  have hzero : (∀ r ∈ recordsOf env.map c, r ≠ 0) ↔
      ∀ str ∈ testStrings c, lookupOf env.map c str ≠ 0 := by
    rw [recordsOf]
    exact List.forall_mem_map
  obtain ⟨n, s', hret, hspec⟩ := collect_spec h
  constructor
  · intro hall
    obtain ⟨hn, hstored⟩ := hall.of_returns hret
    rcases hspec with ⟨hne, -, htree⟩ | ⟨rfl, -⟩
    · obtain ⟨l, -, -, hmem, -, hst⟩ := htree.forEach hc
      refine ⟨hzero.mp hne, fun sym hsym hdef hname => (hmem _).mp ?_⟩
      have := hstored sym hsym hdef hname
      rwa [hst] at this
    · exact absurd hn (by decide)
  · rintro ⟨hfound, hlisted⟩
    rcases hspec with ⟨-, rfl, htree⟩ | ⟨-, hmem⟩
    · obtain ⟨l, -, -, hmem, -, hst⟩ := htree.forEach hc
      refine ⟨_, s', hret, Int.natCast_nonneg _, fun sym hsym hdef hname => ?_⟩
      rw [hst]
      exact (hmem _).mpr (hlisted sym hsym hdef hname)
    · exact absurd rfl (hzero.mpr hfound 0 hmem)

/-! ### A program with two tests -/

/-- `cldm_testrec_a` and `cldm_testrec_b`. -/
def twoTable : List UInt8 := 0 :: testrecMark ++ [97, 0] ++ testrecMark ++ [98, 0]

/-- The symbols of two tests. -/
def twoSyms : List ElfSym := [⟨0, 0, 0⟩, ⟨1, 1, 0x100⟩, ⟨16, 1, 0x200⟩]

/-- The image of two tests, and the strings of their records: `t.c`, `a` and `b`. -/
def twoBytes : List UInt8 := imageBytes twoSyms twoTable ++ [116, 46, 99, 0, 97, 0, 98, 0]

/-- The records of the two tests of `t.c`. -/
def twoRecords (r : ℕ) : TestrecStrings where
  file := ⟨4096 + 295, [116, 46, 99], by decide⟩
  name := if r = 0x10100 then ⟨4096 + 299, [97], by decide⟩ else ⟨4096 + 301, [98], by decide⟩

/-- Nodes that have not been used. -/
def blankNodes : RbState ℕ := rbtreeInit fun _ => ⟨.null, .null, .black, 0⟩

/-- The two tests, with memory that can be written from address 8192 on. -/
def twoEnv : CollectEnv where
  build := .avx2
  map := imageMap 4096 twoSyms twoTable
  records := twoRecords
  writable := fun a => 8192 ≤ a
  memcmp := byteEnv.memcmp
  calloc := fun _ => true

/-- A page with the image, and behind it one with the bytes `args`. -/
def twoMem (args : List UInt8) : Mem := fun a =>
  if a < 4096 then none
  else if a < 8192 then some (twoBytes.getD (a - 4096) 0)
  else if a < 12288 then some (args.getD (a - 8192) 0)
  else none

theorem part_twoMem (args : List UInt8) :
    Bytes.Part (memOf 4096 twoBytes) (readOnly twoEnv.writable (twoMem args)) := by
  intro a b hb
  rw [memOf] at hb
  split_ifs at hb with hlow
  obtain ⟨hlt, rfl⟩ := List.getElem?_eq_some_iff.mp hb
  have hlen : twoBytes.length = 303 := by decide +kernel
  have hwritable : ¬ twoEnv.writable a = true := by
    rw [show twoEnv.writable a = decide (8192 ≤ a) from rfl, decide_eq_true_eq]
    omega
  rw [readOnly, if_neg hwritable, twoMem, if_neg (by omega), if_pos (by omega),
    List.getD_eq_getElem]

theorem two_records : recordsOf twoEnv.map (imageContents twoSyms twoTable) =
    [0x10100, 0x10200] := by decide +kernel

theorem two_programAt (args : List UInt8) :
    ProgramAt twoEnv (twoMem args) (imageContents twoSyms twoTable) := by
  have hpart := part_twoMem args
  refine ⟨?_, fun r _ _ => ?_, fun r hr _ => ?_⟩
  · exact (elfImage_of_bytes (by decide) (by decide +kernel) (by decide +kernel)
      (by decide +kernel) (by decide +kernel) (by decide +kernel) (by decide +kernel)
      (by decide +kernel) (by decide +kernel)).part hpart
  · have hfile : bytesAt (memOf 4096 twoBytes) (4096 + 295) 4 = some [116, 46, 99, 0] := by
      decide +kernel
    exact ⟨hpart.bytesAt hfile, (twoRecords r).file.nonzero⟩
  · have hname : bytesAt (memOf 4096 twoBytes) (4096 + 299) 2 = some [97, 0] ∧
        bytesAt (memOf 4096 twoBytes) (4096 + 301) 2 = some [98, 0] := by decide +kernel
    rw [two_records] at hr
    simp only [List.mem_cons, List.not_mem_nil, or_false] at hr
    rcases hr with rfl | rfl
    · exact ⟨hpart.bytesAt hname.1, (twoRecords 0x10100).name.nonzero⟩
    · exact ⟨hpart.bytesAt hname.2, (twoRecords 0x10200).name.nonzero⟩

/-- A collection of the two tests starts in this state. -/
def twoState (args : List UInt8) : CollectState where
  mem := twoMem args
  ht := htInit
  tree := blankNodes

/-- The order of the two tests. -/
theorem two_inOrder {l : List ℕ}
    (h : CollectsInOrder twoEnv (twoState []) [0x10100, 0x10200] l) : l = [0x10100, 0x10200] := by
  have hmem : ∀ a, a ∈ l ↔ a = 0x10100 ∨ a = 0x10200 := by
    intro a
    refine ⟨fun ha => by simpa using h.mem a ha, fun ha => ?_⟩
    have hkeys : (twoRecords 0x10100).key ≠ (twoRecords 0x10200).key := by decide
    obtain ⟨b, hb, hkey⟩ := h.complete a (by simpa using ha)
    have hb' : b = 0x10100 ∨ b = 0x10200 := by simpa using h.mem b hb
    rcases ha with rfl | rfl
    · rcases hb' with rfl | rfl
      · exact hb
      · exact absurd hkey.symm hkeys
    · rcases hb' with rfl | rfl
      · exact absurd hkey hkeys
      · exact hb
  have hord : Ordered (testrecCompare twoRecords) l := h.increasing.imp testrecCompare_pos.mpr
  have hord' : Ordered (testrecCompare twoRecords) [0x10100, 0x10200] := by
    rw [Ordered]
    decide
  refine ordered_unique testrecCompare_strictTotal hord hord' fun a => ?_
  rw [hmem]
  simp

theorem two_found : ∀ r ∈ recordsOf twoEnv.map (imageContents twoSyms twoTable), r ≠ 0 := by
  rw [two_records]
  decide

theorem collect_sorted_two : CollectsInOrder twoEnv (twoState [])
      (recordsOf twoEnv.map (imageContents twoSyms twoTable)) [0x10100, 0x10200] ∧
    ∀ (env' : CollectEnv) (c' : ElfContents) (s' : CollectState), ProgramAt env' s'.mem c' →
      env'.records = twoRecords → (∀ r, r ∈ recordsOf env'.map c' ↔ r ∈ [0x10100, 0x10200]) →
      CollectsInOrder env' s' (recordsOf env'.map c') [0x10100, 0x10200] := by
  obtain ⟨l, hl, hother⟩ := collect_sorted (s := twoState []) (two_programAt []) two_found
  rw [two_records] at hl hother
  obtain rfl := two_inOrder hl
  refine ⟨by rw [two_records]; exact hl, fun env' c' s' h' hrec hsame => ?_⟩
  obtain ⟨l', hl', -, heq⟩ := hother env' c' s' h' hrec hsame
  rw [heq (by decide)] at hl'
  exact hl'

theorem collect_complete_two : CollectsAll twoEnv (imageContents twoSyms twoTable) (twoState []) :=
  (collect_complete (s := twoState []) (two_programAt [])).mpr
    ⟨by decide +kernel, by decide +kernel⟩

/-- `xcldm_testrec_a`. -/
def suffixTable : List UInt8 := 0 :: 120 :: testrecMark ++ [97, 0]

/-- The symbols `xcldm_testrec_a` and `cldm_testrec_a`, the name of which is the end
of the other one. -/
def suffixSyms : List ElfSym := [⟨0, 0, 0⟩, ⟨1, 1, 0x300⟩, ⟨2, 1, 0x100⟩]

/-- A program in which the name of the test is stored as the end of another. -/
def suffixEnv : CollectEnv where
  build := .portable
  map := imageMap 4096 suffixSyms suffixTable
  records := twoRecords
  writable := fun _ => false
  memcmp := byteEnv.memcmp
  calloc := fun _ => true

/-- A test whose name is stored as the end of another string is left out. -/
theorem collect_misses_suffix : ∃ env c s, ProgramAt env s.mem c ∧ ¬ CollectsAll env c s := by
  let c := imageContents suffixSyms suffixTable
  let s : CollectState := ⟨memOf 4096 (imageBytes suffixSyms suffixTable), htInit, blankNodes⟩
  have hrecords : recordsOf suffixEnv.map c = [] := by decide +kernel
  have hprog : ProgramAt suffixEnv s.mem c := by
    refine ⟨?_, ?_, ?_⟩
    · rw [show readOnly suffixEnv.writable s.mem = memOf 4096 (imageBytes suffixSyms suffixTable) from
        rfl]
      exact elfImage_of_bytes (by decide) (by decide +kernel) (by decide +kernel)
        (by decide +kernel) (by decide +kernel) (by decide +kernel) (by decide +kernel)
        (by decide +kernel) (by decide +kernel)
    · intro r hr
      rw [hrecords] at hr
      exact absurd hr (by simp)
    · intro r hr
      rw [hrecords] at hr
      exact absurd hr (by simp)
  refine ⟨suffixEnv, c, s, hprog, fun hall => ?_⟩
  obtain ⟨n, s', hret, hspec⟩ := collect_spec hprog
  obtain ⟨-, hstored⟩ := hall.of_returns hret
  rw [hrecords] at hspec
  rcases hspec with ⟨-, -, htree⟩ | ⟨-, hzero⟩
  · obtain ⟨l, -, -, hmem, -, hst⟩ := htree.forEach testrecCompare_strictTotal
    have ha := hstored ⟨2, 1, 0x100⟩ (by simp [c, imageContents, suffixSyms]) (by decide)
      (by decide +kernel)
    rw [hst] at ha
    exact absurd ((hmem _).mp ha) (by simp [firsts])
  · exact absurd hzero (by simp)

end Cldm
