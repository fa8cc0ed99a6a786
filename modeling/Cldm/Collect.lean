/-
Collecting tests (`cldm_collect.c`).

Both functions walk over the string table of the executable, look up a record for
every string with the prefix of test records, and store records in a tree.
`cldm_collect_from` keeps the identifiers of the command line in a hash table, and
notes in memory which of them are valid: it overwrites their terminators, and reads
them back with the `cldm_scan_lt` of the build.  Memory that is not writable (the
image, string constants) faults when written.

* `collect`, `collectFrom` — the functions of the source;
* `readOnly` — the part of memory that they cannot change;
* `strtabLoop_spec` — the walk over the string table;
* `TreeOf` — a tree of the records that were inserted.
-/
import Cldm.AvxScanLt
import Cldm.Elf
import Cldm.HashFill
import Cldm.RbtreeRun
import Cldm.Testrec

namespace Cldm

open Prog Bytes ColorTree

/-- What a collection works on. -/
structure CollectState where
  mem : Mem
  ht : Ht
  tree : RbState ℕ

/-- The builds that `cldm_byteseq.h` tells apart. -/
inductive Build
  | portable
  | avx2
  deriving DecidableEq

/-- What it uses: the build, the mapped image, the records by address, which memory can
be written, `cldm_memcmp`, and the allocations that succeed. -/
structure CollectEnv where
  build : Build
  map : Elfmap
  records : ℕ → TestrecStrings
  writable : ℕ → Bool
  memcmp : List UInt8 → List UInt8 → ℤ
  calloc : ℕ → Bool

/-- `"cldm_testrec_"`. -/
def testrecMark : List UInt8 := [99, 108, 100, 109, 95, 116, 101, 115, 116, 114, 101, 99, 95]

section Definitions

variable {β : Type} (env : CollectEnv)

/-- An operation on the hash table. -/
def onTable (x : Prog Ht β) : Prog CollectState β :=
  fun s => (x s.ht).map fun r => (r.1, { s with ht := r.2 })

/-- An operation on the tree. -/
def onTree (x : Prog (RbState ℕ) β) : Prog CollectState β :=
  fun s => (x s.tree).map fun r => (r.1, { s with tree := r.2 })

/-- Write a byte; a fault where memory cannot be written. -/
def writeByte (p : ℕ) (b : UInt8) : Prog CollectState Unit :=
  fun s => if env.writable p = true ∧ (s.mem p).isSome = true then
    some ((), { s with mem := Bytes.store s.mem p [b] }) else none

/-- `str[strlen(str)] = 1`. -/
def markTerminator (str fuel : ℕ) : Prog CollectState Unit := do
  let s ← get
  let n ← strlen s.mem str fuel
  writeByte env (str + n) 1

/-- `cldm_rbtree_insert(tree, &record->rbnode, cldm_testrec_compare)`. -/
def insertRecord (fuel record : ℕ) : Prog CollectState Unit := do
  let _ ← onTree (rbtreeInsert (testrecCompare env.records) record fuel)

/-- Look up the record of a string and do `take` with it; false if there is none. -/
def takeRecord (take : ℕ → ℕ → Prog CollectState Unit) (str fuel : ℕ) : Prog CollectState Bool := do
  let s ← get
  let record ← elfSymlookup s.mem env.map str fuel
  if record = 0 then
    return false
  else
    take fuel record
    return true

/-- One turn of the loops over the string table; it leaves the loop with false if
a record could not be looked up. -/
def strtabBody (take : ℕ → ℕ → Prog CollectState Unit) (fuel i : ℕ) :
    Prog CollectState (ℕ ⊕ Bool) := do
  if i < env.map.strtab.size then
    let s ← get
    let str := env.map.strtab.addr + i
    let diff ← strncmp s.mem testrecMark str
    let ok ← if diff = 0 then takeRecord env take str fuel else pure true
    if ok then
      let s ← get
      let n ← strlen s.mem str fuel
      return .inl ((i + (n + 1)) % 2 ^ 64)
    else
      return .inr false
  else
    return .inr true

/-- The loops over the string table. -/
def strtabLoop (take : ℕ → ℕ → Prog CollectState Unit) (fuel : ℕ) : Prog CollectState Bool :=
  fuelLoop (strtabBody env take fuel) fuel 0

/-- `*tree = cldm_rbtree_init()`. -/
def initTree : Prog CollectState Unit := do
  let s ← get
  set { s with tree := rbtreeInit s.tree.mem }

/-- `cldm_collect`. -/
def collect (fuel : ℕ) : Prog CollectState ℤ := do
  initTree
  let ok ← strtabLoop env (insertRecord env) fuel
  if ok then
    let size ← onTree rbtreeSize
    return (size : ℤ)
  else
    return -1

/-- One turn of the loop of `cldm_collect_from` that stores the identifiers. -/
def registerBody (idents : List ℕ) (fuel i : ℕ) : Prog CollectState (ℕ ⊕ Unit) :=
  match idents[i]? with
  | some ident => do
    let s ← get
    let size ← strlen s.mem ident fuel
    let entry ← onTable (htInsert ⟨s.mem, env.memcmp⟩ env.calloc fuel ⟨ident, size⟩)
    if entry.isNone then
      -- exempt from validity check
      markTerminator env ident fuel
    return .inl ((i + 1) % 2 ^ 32)
  | none => return .inr ()

/-- The loop over `identifiers`: the first one that the table stores is marked, and
the record is inserted. -/
def matchIdentifiers (fuel record : ℕ) : List StrPtr → Prog CollectState Unit
  | [] => return ()
  | ident :: identifiers => do
    let s ← get
    let size ← strlen s.mem ident.addr fuel
    let entry ← onTable (htFind ⟨s.mem, env.memcmp⟩ ⟨ident.addr, size⟩ fuel)
    match entry with
    | some idx =>
      markTerminator env (s.ht.storage idx).key fuel
      insertRecord env fuel record
    | none => matchIdentifiers fuel record identifiers

attribute [grind =] matchIdentifiers

/-- What `cldm_collect_from` does with a record. -/
def matchRecord (fuel record : ℕ) : Prog CollectState Unit :=
  let r := env.records record
  matchIdentifiers env fuel record [r.file.basename, r.name]

/-- Memory, as the byte sequence routines read it. -/
def spaceOf (mem : Mem) : Space where
  bytes := fun a => (mem a).getD 0
  readable := fun a => (mem a).isSome
  writable := fun _ => false

/-- A byte sequence routine that only reads memory. -/
def onBytes (x : Prog Space β) : Prog CollectState β :=
  fun s => (x (spaceOf s.mem)).map fun r => (r.1, s)

/-- `cldm_scan_lt`. -/
def cldmScanLt (build : Build) (str sentinel fuel : ℕ) : Prog Space ℕ :=
  match build with
  | .portable => Byteseq.scanLt str sentinel fuel
  | .avx2 => do
    let rax ← avx2ScanLt str sentinel fuel
    return Avx2.low32 rax

/-- One turn of the loop of `cldm_collect_from` that checks the identifiers. -/
def checkBody (idents : List ℕ) (fuel i : ℕ) : Prog CollectState (ℕ ⊕ Bool) :=
  match idents[i]? with
  | some ident => do
    let pos ← onBytes (cldmScanLt env.build ident 2 fuel)
    let s ← get
    let b ← readByte s.mem (ident + pos)
    return if b = 0 then .inr false else .inl ((i + 1) % 2 ^ 32)
  | none => return .inr true

/-- `cldm_collect_from` before the check of the identifiers. -/
def markTests (idents : List ℕ) (fuel : ℕ) : Prog CollectState Bool := do
  initTree
  let s ← get
  set { s with ht := htInit }
  fuelLoop (registerBody env idents fuel) fuel 0
  strtabLoop env (matchRecord env) fuel

/-- `cldm_collect_from`. -/
def collectFrom (idents : List ℕ) (fuel : ℕ) : Prog CollectState ℤ := do
  let found ← markTests env idents fuel
  if found then
    let success ← fuelLoop (checkBody env idents fuel) fuel 0
    if success then
      let size ← onTree rbtreeSize
      return (size : ℤ)
    else
      return -1
  else
    return -1

end Definitions

/-! ### Memory -/

/-- The strings of the table that are names of test records. -/
def testStrings (c : ElfContents) : List (List UInt8) :=
  (tableStrings c.table).filter fun s => testrecMark.isPrefixOf s

/-- The records that the walk over the string table looks up, in order. -/
def recordsOf (map : Elfmap) (c : ElfContents) : List ℕ := (testStrings c).map (lookupOf map c)

/-- The program: its image cannot be written, and neither can the strings of the
records that the lookups find. -/
structure ProgramAt (env : CollectEnv) (mem : Mem) (c : ElfContents) : Prop where
  image : ElfImage (readOnly env.writable mem) env.map c
  file : ∀ r ∈ recordsOf env.map c, r ≠ 0 → (env.records r).file.In (readOnly env.writable mem)
  name : ∀ r ∈ recordsOf env.map c, r ≠ 0 → (env.records r).name.In (readOnly env.writable mem)

section Walk

variable {β : Type} {env : CollectEnv} {ro mem : Mem} {c : ElfContents}

theorem Total.onTable {f : ℕ → Prog Ht β} {Q : β → CollectState → Prop} {s : CollectState}
    (h : Total f (fun b ht => Q b { s with ht := ht }) s.ht) :
    Total (fun n => onTable (f n)) Q s := by
  obtain ⟨b, ht, ⟨k, hf⟩, hQ⟩ := h
  refine ⟨b, _, ⟨k, fun n hn => ?_⟩, hQ⟩
  show (f n s.ht).map _ = _
  rw [hf n hn]
  rfl

theorem Total.onTree {f : ℕ → Prog (RbState ℕ) β} {Q : β → CollectState → Prop} {s : CollectState}
    (h : Total f (fun b tree => Q b { s with tree := tree }) s.tree) :
    Total (fun n => onTree (f n)) Q s := by
  obtain ⟨b, tree, ⟨k, hf⟩, hQ⟩ := h
  refine ⟨b, _, ⟨k, fun n hn => ?_⟩, hQ⟩
  show (f n s.tree).map _ = _
  rw [hf n hn]
  rfl

theorem FuelMono.onBytes {f : ℕ → Prog Space β} (h : FuelMono f) :
    FuelMono fun n => onBytes (f n) := by
  intro n s r hr
  obtain ⟨⟨b, s'⟩, hx, rfl⟩ := Option.map_eq_some_iff.mp hr
  exact Option.map_eq_some_iff.mpr ⟨_, h n _ _ hx, rfl⟩

theorem FuelMono.onTable {f : ℕ → Prog Ht β} (h : FuelMono f) :
    FuelMono fun n => onTable (f n) := by
  intro n s r hr
  obtain ⟨⟨b, ht⟩, hx, rfl⟩ := Option.map_eq_some_iff.mp hr
  exact Option.map_eq_some_iff.mpr ⟨_, h n _ _ hx, rfl⟩

theorem FuelMono.onTree {f : ℕ → Prog (RbState ℕ) β} (h : FuelMono f) :
    FuelMono fun n => onTree (f n) := by
  intro n s r hr
  obtain ⟨⟨b, tree⟩, hx, rfl⟩ := Option.map_eq_some_iff.mp hr
  exact Option.map_eq_some_iff.mpr ⟨_, h n _ _ hx, rfl⟩

theorem length_tableBytes_append (strs strs' : List (List UInt8)) :
    (tableBytes (strs ++ strs')).length = (tableBytes strs).length + (tableBytes strs').length := by
  simp [tableBytes]

theorem length_tableBytes_cons (str : List UInt8) (strs : List (List UInt8)) :
    (tableBytes (str :: strs)).length = str.length + 1 + (tableBytes strs).length := by
  show ((str ++ [0]) ++ tableBytes strs).length = _
  rw [List.length_append, List.length_append, List.length_singleton]

theorem fuelMono_takeRecord {take : ℕ → ℕ → Prog CollectState Unit}
    (htake : ∀ r, FuelMono fun n => take n r) (str : ℕ) : FuelMono (takeRecord env take str) := by
  refine (FuelMono.const _).bind fun s => FuelMono.bind (fuelMono_elfSymlookup _ _ _) fun r => ?_
  exact .ite _ (.const _) ((htake r).bind fun _ => .const _)

theorem fuelMono_strtabBody {take : ℕ → ℕ → Prog CollectState Unit}
    (htake : ∀ r, FuelMono fun n => take n r) (i : ℕ) :
    FuelMono fun n => strtabBody env take n i := by
  refine .ite _ ?_ (.const _)
  have hnext : FuelMono fun n => (do
      let s ← get
      let len ← strlen s.mem (env.map.strtab.addr + i) n
      return .inl ((i + (len + 1)) % 2 ^ 64) : Prog CollectState (ℕ ⊕ Bool)) :=
    (FuelMono.const _).bind fun s => FuelMono.bind (fuelMono_strlen _ _) fun _ => .const _
  refine (FuelMono.const _).bind fun s => (FuelMono.const _).bind fun diff => ?_
  refine .ite _ ?_ ?_
  · exact (fuelMono_takeRecord htake _).bind fun ok => .ite (ok = true) hnext (.const _)
  · exact (FuelMono.const _).bind fun ok => .ite (ok = true) hnext (.const _)

/-- The walk over the string table: `take` is called with the record of every
string with the prefix, in order, as long as all of them are found. -/
theorem strtabLoop_spec (himage : ElfImage ro env.map c) {take : ℕ → ℕ → Prog CollectState Unit}
    (htake : ∀ r, FuelMono fun n => take n r) {I : List ℕ → CollectState → Prop} {F : Prop}
    (hro : ∀ done s, I done s → Bytes.Part ro s.mem)
    (step : ∀ done r rest s, recordsOf env.map c = done ++ r :: rest → r ≠ 0 → I done s →
      Settles (fun n => take n r) (fun _ s' => I (done ++ [r]) s') F s)
    {s : CollectState} (h : I [] s) :
    Settles (strtabLoop env take) (fun ok s' =>
      ok = true ∧ (∀ r ∈ recordsOf env.map c, r ≠ 0) ∧ I (recordsOf env.map c) s' ∨
        ok = false ∧ 0 ∈ recordsOf env.map c) F s := by
  obtain ⟨-, hsize, htable⟩ := himage.strtab_eq
  have hbytes := tableBytes_tableStrings himage.terminated
  have hlt : c.table.length < 2 ^ 64 := by
    obtain ⟨i, hi, -⟩ := himage.strtab
    obtain ⟨bs, -, heq⟩ := himage.shdrs i _ hi
    rw [length_bytesAt himage.table, heq]
    exact field_lt bs 32 8
  -- the records of the strings `strs`
  let recs : List (List UInt8) → List ℕ := fun strs =>
    (strs.filter fun s => testrecMark.isPrefixOf s).map (lookupOf env.map c)
  have hrecs : recordsOf env.map c = recs (tableStrings c.table) := rfl
  have hrecs_append : ∀ l l', recs (l ++ l') = recs l ++ recs l' := fun l l' => by
    simp only [recs, List.filter_append, List.map_append]
  have hrecs_cons : ∀ str l, recs (str :: l) =
      if testrecMark <+: str then lookupOf env.map c str :: recs l else recs l := fun str l => by
    simp only [recs, List.filter_cons, List.isPrefixOf_iff_prefix]
    split_ifs <;> rfl
  let J : ℕ → ℕ → CollectState → Prop := fun b i s' => ∃ done rest,
    tableStrings c.table = done ++ rest ∧ i = (tableBytes done).length ∧ b = rest.length ∧
      (∀ r ∈ recs done, r ≠ 0) ∧ I (recs done) s'
  refine settles_loop (I := J) (fuelMono_strtabBody htake) ?_ (tableStrings c.table).length 0 s
    ⟨[], _, rfl, rfl, rfl, by simp [recs], h⟩
  rintro b i s' ⟨done, rest, hsplit, rfl, rfl, hne, hI⟩
  have htotal : c.table.length = (tableBytes done).length + (tableBytes rest).length := by
    rw [← length_tableBytes_append, ← hsplit, hbytes]
  have hpart := hro _ _ hI
  rw [hrecs, hsplit, hrecs_append] at step ⊢
  by_cases hi : (tableBytes done).length < env.map.strtab.size
  · rcases rest with _ | ⟨str, rest⟩
    · rw [show (tableBytes []).length = 0 from rfl] at htotal
      omega
    rw [length_tableBytes_cons] at htotal
    have htable' : bytesAt ro env.map.strtab.addr (tableBytes (done ++ str :: rest)).length =
        some (tableBytes (done ++ str :: rest)) := by
      rw [← hsplit, hbytes]
      exact htable
    have hmem : str ∈ tableStrings c.table := by
      rw [hsplit]
      simp
    have hstr : StrAt ro (env.map.strtab.addr + (tableBytes done).length) str :=
      .of_table htable' (zero_notMem_tableStrings hmem)
    -- how the turn ends when the string has been dealt with
    have hnext : ∀ s'' : CollectState, (∀ r ∈ recs (done ++ [str]), r ≠ 0) →
        I (recs (done ++ [str])) s'' →
        Settles (fun n => do
          let s ← get
          let len ← strlen s.mem (env.map.strtab.addr + (tableBytes done).length) n
          return .inl (((tableBytes done).length + (len + 1)) % 2 ^ 64))
          (fun r s' => Sum.elim (fun i' => ∃ b' < (str :: rest).length, J b' i' s') (fun ok =>
            ok = true ∧ (∀ r ∈ recs done ++ recs (str :: rest), r ≠ 0) ∧
              I (recs done ++ recs (str :: rest)) s' ∨
            ok = false ∧ 0 ∈ recs done ++ recs (str :: rest)) r) F s'' := by
      intro s'' hne' hI'
      have hstr' := (hro _ _ hI').strAt hstr
      refine .wp_bind ((wp_get ..).mpr (Total.settles (Total.bind ?_)))
      refine (strlen_spec hstr'.stringAt s'').mono ?_
      rintro len _ ⟨rfl, rfl⟩
      refine Total.const ((wp_pure ..).mpr ⟨rest.length, Nat.lt_succ_self _, done ++ [str], rest,
        by rw [hsplit]; simp, ?_, rfl, hne', hI'⟩)
      rw [length_tableBytes_append, length_tableBytes_cons, Nat.mod_eq_of_lt (by omega)]
      rfl
    simp only [strtabBody, if_pos hi]
    refine .wp_bind ((wp_get ..).mpr (.wp_bind ?_))
    refine wp_mono (strncmp_spec (by decide) (hpart.strAt hstr) s') ?_
    rintro d s₁ ⟨hd, rfl⟩
    by_cases hmark : testrecMark <+: str
    · have hone : recs (done ++ [str]) = recs done ++ [lookupOf env.map c str] := by
        rw [hrecs_append, hrecs_cons, if_pos hmark]
        rfl
      rw [hrecs_cons, if_pos hmark] at step ⊢
      simp only [if_pos (hd.mpr hmark)]
      refine .bind (fuelMono_takeRecord htake _) ?_
      refine .wp_bind ((wp_get ..).mpr (.bind (fuelMono_elfSymlookup _ _ _) (Total.settles ?_)))
      refine ((himage.part hpart).symlookup (hpart.strAt hstr) s₁).mono ?_
      rintro r s₂ ⟨rfl, rfl⟩
      by_cases hr : lookupOf env.map c str = 0
      · simp only [if_pos hr]
        refine .const (.inl ((wp_pure ..).mpr ?_))
        simp only [Bool.false_eq_true, if_false]
        exact .const (.inl ((wp_pure ..).mpr (.inr ⟨rfl, by simp [hr]⟩)))
      · simp only [if_neg hr]
        refine .bind (htake _) ((step _ _ _ _ rfl hr hI).mono ?_)
        intro _ s₃ hI'
        refine .const (.inl ((wp_pure ..).mpr ?_))
        simp only [if_true]
        have := hnext s₃ ?_ ?_
        · rw [hrecs_cons, if_pos hmark] at this
          exact this
        · rw [hone]
          intro r hr'
          rcases List.mem_append.mp hr' with hr' | hr'
          · exact hne r hr'
          · rw [List.mem_singleton.mp hr']
            exact hr
        · rw [hone]
          exact hI'
    · have hone : recs (done ++ [str]) = recs done := by
        rw [hrecs_append, hrecs_cons, if_neg hmark]
        exact List.append_nil _
      simp only [if_neg (fun h => hmark (hd.mp h))]
      refine .wp_bind ((wp_pure ..).mpr ?_)
      simp only [if_true]
      refine hnext s₁ ?_ ?_
      · rwa [hone]
      · rwa [hone]
  · -- only an empty string can be left
    have hrest : recs rest = [] := by
      rcases rest with _ | ⟨str, rest⟩
      · rfl
      rw [length_tableBytes_cons] at htotal
      obtain rfl : str = [] := List.length_eq_zero_iff.mp (by omega)
      obtain rfl : rest = [] := by
        rcases rest with _ | ⟨str', rest⟩
        · rfl
        · rw [length_tableBytes_cons] at htotal
          omega
      rfl
    simp only [strtabBody, if_neg hi]
    rw [hrest, List.append_nil]
    exact .const (.inl ((wp_pure ..).mpr (.inl ⟨rfl, hne, hI⟩)))

end Walk

end Cldm
