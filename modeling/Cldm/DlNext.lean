/-
`cldm_dlsym_next` and `cldm_dlresolve` of `cldm_dl.c`.

* `dlsymNext`, `dlresolve` — the functions of the source;
* `EntryAt` — an entry in memory, with what the functions read and write of it;
* `DlRep` — a cache that holds a list of entries;
* `dlsymProbe_spec` — the loop over the libraries.
-/
import Cldm.CString
import Cldm.Dl
import Cldm.HashFill

namespace Cldm

open Prog Probing Bytes

/-- `CLDM_MAX_SODEPS`. -/
abbrev maxSodeps : ℕ := 32

/-- What the lookups use besides the cache: `cldm_memcmp`, the allocators, and `dlsym`
by the index of the library.  `none` is a failure that `dlerror` reports. -/
structure DlEnv where
  memcmp : List UInt8 → List UInt8 → ℤ
  alloc : DlAlloc
  calloc : ℕ → Bool
  ndlhandles : ℕ
  dlsym : ℕ → List UInt8 → Option ℕ
  ndlhandles_le : ndlhandles ≤ maxSodeps
  dlsym_lt : ∀ i name addr, dlsym i name = some addr → addr < 2 ^ 64

section Definitions

variable {σ : Type}

/-- `cldm_dllookup_init`. -/
def dllookupInit : Prog Dllookup Unit :=
  modify fun s => { s with ht := htInit, capacity := dlStaticSize }

/-- `cldm_strscpy`; it returns the length or `-E2BIG`. -/
def strscpy (dst src dstsize fuel : ℕ) : Prog Dllookup ℤ := do
  let s ← get
  let srclen ← strlen s.mem src fuel
  if srclen < dstsize then
    let bytes ← readBytes s.mem src (srclen + 1)
    dlWrite dst bytes
    return srclen
  else
    let bytes ← readBytes s.mem src dstsize
    dlWrite dst bytes
    dlWrite (dst + dstsize - 1) [0]
    return -7

/-- The entry at address `p`. -/
def readEntry (p : ℕ) : Prog Dllookup DlEntry :=
  fun s => (dlentryAt s.mem p).map fun e => (e, s)

/-- One turn of the loop of `cldm_dlsym_next`, with `probeidx` and `sym`. -/
def dlsymProbeBody (env : DlEnv) (name : List UInt8) : ℕ × ℕ → Prog σ ((ℕ × ℕ) ⊕ (ℕ × ℕ))
  | (probeidx, sym) =>
    if probeidx < env.ndlhandles then
      match env.dlsym probeidx name with
      | some addr => return .inr (probeidx, addr)
      | none => return .inl ((probeidx + 1) % 2 ^ 32, 0)
    else
      return .inr (probeidx, sym)

/-- The loop of `cldm_dlsym_next`. -/
def dlsymProbe (env : DlEnv) (name : List UInt8) (probeidx fuel : ℕ) : Prog σ (ℕ × ℕ) :=
  fuelLoop (dlsymProbeBody env name) fuel (probeidx, 0)

/-- The two stores behind the loop. -/
def writeEntry (dlentry sym probeidx : ℕ) : Prog Dllookup Unit := do
  dlWrite (dlentry + dlMaxSymname) (leBytes 8 sym)
  dlWrite (dlentry + (dlMaxSymname + 8)) (leBytes 4 probeidx)

/-- `cldm_dlsym_next` for a name with the entry at address `dlentry`. -/
def dlsymAgain (env : DlEnv) (name : List UInt8) (dlentry fuel : ℕ) : Prog Dllookup ℕ := do
  let entry ← readEntry dlentry
  if entry.resolved then
    return entry.addr
  else
    let (probeidx, sym) ← dlsymProbe env name ((entry.loadidx + 1) % 2 ^ 32) fuel
    writeEntry dlentry sym probeidx
    return sym

/-- `cldm_dlsym_next` for a name without an entry, which gets one; 0 is a null pointer. -/
def dlsymFirst (env : DlEnv) (symname : ℕ) (name : List UInt8) (fuel : ℕ) : Prog Dllookup ℕ := do
  let (probeidx, sym) ← dlsymProbe env name 0 fuel
  if ← dllookupEnsureCapacity env.memcmp env.alloc env.calloc fuel then
    let s ← get
    let entries ← dllookupEntry
    let dlentry := entries + s.ht.size * dlentrySize
    let status ← strscpy dlentry symname dlMaxSymname fuel
    if status < 0 then
      return 0
    else
      writeEntry dlentry sym probeidx
      dlWrite (dlentry + (dlMaxSymname + 12)) [0]
      let s ← get
      let size ← strlen s.mem dlentry fuel
      let slot ← onHt (htInsert ⟨s.mem, env.memcmp⟩ env.calloc fuel ⟨dlentry, size⟩)
      return if slot = none then 0 else sym
  else
    return 0

/-- `cldm_dlsym_next`. -/
def dlsymNext (env : DlEnv) (symname fuel : ℕ) : Prog Dllookup ℕ := do
  let s ← get
  (if s.capacity = 0 then dllookupInit else pure ())
  let s ← get
  let size ← strlen s.mem symname fuel
  let name ← readBytes s.mem symname size
  let htentry ← onHt (htFind ⟨s.mem, env.memcmp⟩ ⟨symname, size⟩ fuel)
  match htentry with
  | some idx => dlsymAgain env name (s.ht.storage idx).key fuel
  | none => dlsymFirst env symname name fuel

/-- `cldm_dlresolve`; the assertion on the result of the search ends the program. -/
def dlresolve (env : DlEnv) (symname fuel : ℕ) : Prog Dllookup Unit := do
  let s ← get
  let size ← strlen s.mem symname fuel
  let htentry ← onHt (htFind ⟨s.mem, env.memcmp⟩ ⟨symname, size⟩ fuel)
  match htentry with
  | some idx => dlWrite ((s.ht.storage idx).key + (dlMaxSymname + 12)) [1]
  | none => fun _ => none

end Definitions

/-! ### Entries in memory -/

section Entry

variable {mem mem' : Mem} {p : ℕ} {e : DlEntry} {name : List UInt8} {sym probeidx : ℕ}

/-- The entry `e` lies at address `p`. -/
structure EntryAt (mem : Mem) (p : ℕ) (e : DlEntry) : Prop where
  accessible : Accessible mem p dlentrySize
  symname : StrAt mem p e.symname
  short : e.symname.length < dlMaxSymname
  addr : bytesAt mem (p + dlMaxSymname) 8 = some (leBytes 8 e.addr)
  addr_lt : e.addr < 2 ^ 64
  loadidx : bytesAt mem (p + (dlMaxSymname + 8)) 4 = some (leBytes 4 e.loadidx)
  loadidx_lt : e.loadidx < 2 ^ 32
  resolved : bytesAt mem (p + (dlMaxSymname + 12)) 1 = some [if e.resolved then 1 else 0]

theorem takeWhile_name {rest : List UInt8} (h : 0 ∉ name) :
    (name ++ 0 :: rest).takeWhile (· ≠ 0) = name := by
  have hne : ∀ b ∈ name, b ≠ 0 := by
    rintro b hb rfl
    exact h hb
  rw [List.takeWhile_append_of_pos (by simpa using hne)]
  simp

theorem EntryAt.dlentryAt (h : EntryAt mem p e) : dlentryAt mem p = some e := by
  obtain ⟨bs, hbs⟩ := h.accessible.bytesAt
  have hshort := h.short
  have hname : (bs.take dlMaxSymname).takeWhile (· ≠ 0) = e.symname := by
    -- the first bytes are the name and its terminator
    have hfront := bytesAt_take hbs (show e.symname.length + 1 ≤ dlentrySize by
      simp only [dlentrySize]
      omega)
    rw [h.symname.bytes] at hfront
    have hsplit : bs.take dlMaxSymname =
        e.symname ++ 0 :: (bs.take dlMaxSymname).drop (e.symname.length + 1) := by
      rw [← List.take_append_drop (e.symname.length + 1) (bs.take dlMaxSymname), List.take_take,
        min_eq_left (by omega), ← Option.some.inj hfront]
      simp
    rw [hsplit, takeWhile_name h.symname.nonzero]
  have haddr := h.addr
  rw [bytesAt_drop hbs (by decide)] at haddr
  have hidx := h.loadidx
  rw [bytesAt_drop hbs (by decide)] at hidx
  have hres := h.resolved
  rw [bytesAt_drop hbs (by decide)] at hres
  have hbit : bs.getD (dlMaxSymname + 12) 0 = if e.resolved then 1 else 0 := by
    have hget := congrArg (fun x => x.getD 0 0) (Option.some.inj hres)
    simpa [List.getD_eq_getElem?_getD] using hget
  rw [Cldm.dlentryAt, hbs, Option.map_some, hname, Option.some.inj haddr, Option.some.inj hidx,
    ofLe_leBytes h.addr_lt, ofLe_leBytes h.loadidx_lt, hbit]
  cases e with
  | mk symname addr loadidx resolved => cases resolved <;> rfl

theorem EntryAt.congr (h : EntryAt mem p e)
    (hmem : ∀ i < dlentrySize, mem' (p + i) = mem (p + i)) : EntryAt mem' p e := by
  have hpart : ∀ off n, off + n ≤ dlentrySize →
      bytesAt mem' (p + off) n = bytesAt mem (p + off) n := by
    intro off n hle
    refine bytesAt_congr fun i hi => ?_
    rw [Nat.add_assoc]
    exact hmem _ (by omega)
  have hshort := h.short
  refine ⟨fun i hi => ?_, h.symname.congr fun i hi => hmem i ?_, h.short, ?_, h.addr_lt, ?_,
    h.loadidx_lt, ?_⟩
  · rw [hmem i hi]
    exact h.accessible i hi
  · simp only [dlentrySize]
    omega
  · rw [hpart _ _ (by decide)]
    exact h.addr
  · rw [hpart _ _ (by decide)]
    exact h.loadidx
  · rw [hpart _ _ (by decide)]
    exact h.resolved

/-- The memory after `writeEntry`. -/
def putEntry (mem : Mem) (p sym probeidx : ℕ) : Mem :=
  store (store mem (p + dlMaxSymname) (leBytes 8 sym)) (p + (dlMaxSymname + 8)) (leBytes 4 probeidx)

theorem putEntry_name {a : ℕ} (ha : a < p + dlMaxSymname) : putEntry mem p sym probeidx a = mem a := by
  rw [putEntry, store_of_notMem (by omega), store_of_notMem (.inl ha)]

theorem putEntry_addr : bytesAt (putEntry mem p sym probeidx) (p + dlMaxSymname) 8 =
    some (leBytes 8 sym) := by
  have hstore := bytesAt_store mem (p + dlMaxSymname) (leBytes 8 sym)
  rw [length_leBytes] at hstore
  rw [putEntry, bytesAt_store_of_disjoint (by omega), hstore]

theorem putEntry_loadidx : bytesAt (putEntry mem p sym probeidx) (p + (dlMaxSymname + 8)) 4 =
    some (leBytes 4 probeidx) := by
  have hstore := bytesAt_store (store mem (p + dlMaxSymname) (leBytes 8 sym))
    (p + (dlMaxSymname + 8)) (leBytes 4 probeidx)
  rwa [length_leBytes] at hstore

theorem putEntry_of_ge {a : ℕ} (ha : p + (dlMaxSymname + 12) ≤ a) :
    putEntry mem p sym probeidx a = mem a := by
  rw [putEntry, store_of_notMem (by rw [length_leBytes]; omega),
    store_of_notMem (by rw [length_leBytes]; omega)]

theorem accessible_putEntry {q n : ℕ} (h : Accessible mem q n) :
    Accessible (putEntry mem p sym probeidx) q n := (h.store _ _).store _ _

/-- `writeEntry` replaces two fields of an entry. -/
theorem EntryAt.put (h : EntryAt mem p e) (hsym : sym < 2 ^ 64) (hidx : probeidx < 2 ^ 32) :
    EntryAt (putEntry mem p sym probeidx) p { e with addr := sym, loadidx := probeidx } := by
  have hshort := h.short
  refine ⟨accessible_putEntry h.accessible, h.symname.congr fun i hi => putEntry_name (by omega), h.short,
    putEntry_addr, hsym, putEntry_loadidx, hidx, ?_⟩
  rw [bytesAt_congr fun i _ => putEntry_of_ge (by omega)]
  exact h.resolved

/-- `dlentry->resolved = true`. -/
theorem EntryAt.resolve (h : EntryAt mem p e) :
    EntryAt (store mem (p + (dlMaxSymname + 12)) [1]) p { e with resolved := true } := by
  have hshort := h.short
  refine ⟨h.accessible.store _ _, h.symname.congr fun i hi => store_of_notMem (by omega), h.short,
    ?_, h.addr_lt, ?_, h.loadidx_lt, bytesAt_store mem _ [1]⟩
  · rw [bytesAt_store_of_disjoint (by omega)]
    exact h.addr
  · rw [bytesAt_store_of_disjoint (by omega)]
    exact h.loadidx

/-- The memory after a new entry was written. -/
def newEntry (mem : Mem) (p : ℕ) (name : List UInt8) (sym probeidx : ℕ) : Mem :=
  store (putEntry (store mem p (name ++ [0])) p sym probeidx) (p + (dlMaxSymname + 12)) [0]

/-- A string that was written. -/
theorem strAt_store (h : 0 ∉ name) : StrAt (store mem p (name ++ [0])) p name := by
  refine ⟨?_, h⟩
  have hstore := bytesAt_store mem p (name ++ [0])
  rwa [List.length_append, List.length_singleton] at hstore

theorem entryAt_new (hacc : Accessible mem p dlentrySize) (hname : 0 ∉ name)
    (hshort : name.length < dlMaxSymname) (hsym : sym < 2 ^ 64) (hidx : probeidx < 2 ^ 32) :
    EntryAt (newEntry mem p name sym probeidx) p ⟨name, sym, probeidx, false⟩ := by
  have hstr : StrAt (store mem p (name ++ [0])) p name := strAt_store hname
  refine ⟨(accessible_putEntry (hacc.store _ _)).store _ _, hstr.congr fun i hi => ?_, hshort, ?_, hsym, ?_,
    hidx, bytesAt_store _ _ [0]⟩
  · rw [newEntry, store_of_notMem (by omega), putEntry_name (by omega)]
  · rw [newEntry, bytesAt_store_of_disjoint (by omega)]
    exact putEntry_addr
  · rw [newEntry, bytesAt_store_of_disjoint (by omega)]
    exact putEntry_loadidx

/-- A new entry is written within its slot. -/
theorem newEntry_of_notMem {a : ℕ} (hshort : name.length < dlMaxSymname)
    (ha : a < p ∨ p + dlentrySize ≤ a) : newEntry mem p name sym probeidx a = mem a := by
  have hsize : dlentrySize = dlMaxSymname + 16 := rfl
  have hlen : (name ++ [(0 : UInt8)]).length = name.length + 1 := by simp
  rw [newEntry, store_of_notMem (by simp only [List.length_singleton]; omega), putEntry,
    store_of_notMem (by rw [length_leBytes]; omega), store_of_notMem (by rw [length_leBytes]; omega),
    store_of_notMem (by omega)]

theorem putEntry_of_notMem {a : ℕ} (ha : a < p ∨ p + dlentrySize ≤ a) :
    putEntry mem p sym probeidx a = mem a := by
  rcases ha with hlt | hge
  · exact putEntry_name (by omega)
  · exact putEntry_of_ge (by simp only [dlentrySize] at hge; omega)

end Entry

/-! ### The search in the libraries -/

section Search

variable {σ : Type} {env : DlEnv} {name : List UInt8}

/-- The first of `n` libraries from number `i` on that defines `name`, with the address
there; the number behind them and a null pointer if there is none. -/
def searchFrom (env : DlEnv) (name : List UInt8) : ℕ → ℕ → ℕ × ℕ
  | 0, i => (i, 0)
  | n + 1, i =>
    match env.dlsym i name with
    | some addr => (i, addr)
    | none => searchFrom env name n (i + 1)

attribute [grind =] searchFrom

/-- The first library from number `i` on that defines `name`. -/
def search (env : DlEnv) (name : List UInt8) (i : ℕ) : ℕ × ℕ :=
  searchFrom env name (env.ndlhandles - i) i

theorem searchFrom_lt (n i : ℕ) : (searchFrom env name n i).2 < 2 ^ 64 := by
  induction n generalizing i with
  | zero => exact Nat.two_pow_pos 64
  | succ n ih =>
    rw [searchFrom]
    cases h : env.dlsym i name with
    | some addr => exact env.dlsym_lt i name addr h
    | none => exact ih (i + 1)

theorem searchFrom_le (n i : ℕ) : (searchFrom env name n i).1 ≤ i + n := by
  induction n generalizing i with
  | zero => exact Nat.le_refl i
  | succ n ih =>
    rw [searchFrom]
    cases h : env.dlsym i name with
    | some addr => exact Nat.le_add_right i _
    | none => exact (ih (i + 1)).trans (by omega)

/-- The loop of `cldm_dlsym_next`. -/
theorem dlsymProbe_spec {i : ℕ} (hi : i < 2 ^ 32) (s : σ) :
    Total (dlsymProbe env name i) (fun r s' => r = search env name i ∧ s' = s) s := by
  have hle := env.ndlhandles_le
  simp only [maxSodeps] at hle
  let I : ℕ → ℕ × ℕ → σ → Prop := fun n r s' => s' = s ∧ r.2 = 0 ∧ r.1 < 2 ^ 32 ∧
    n = env.ndlhandles - r.1 ∧ searchFrom env name n r.1 = search env name i
  have step : ∀ n r s', I n r s' → Total (fun _ => dlsymProbeBody env name r)
      (fun r' s'' => Sum.elim (fun r' => ∃ m < n, I m r' s'')
        (fun r' => r' = search env name i ∧ s'' = s) r') s' := by
    rintro n ⟨j, sym⟩ s' ⟨rfl, rfl, hj, rfl, hsearch⟩
    refine Total.const ?_
    simp only at hj hsearch
    by_cases hlt : j < env.ndlhandles
    · obtain ⟨n, hn⟩ : ∃ n, env.ndlhandles - j = n + 1 := ⟨env.ndlhandles - j - 1, by omega⟩
      rw [hn, searchFrom] at hsearch
      rw [dlsymProbeBody, wp_ite, if_pos hlt]
      cases h : env.dlsym j name with
      | some addr =>
        rw [h] at hsearch
        exact (wp_pure ..).mpr ⟨hsearch, rfl⟩
      | none =>
        rw [h] at hsearch
        have hmod : (j + 1) % 2 ^ 32 = j + 1 := Nat.mod_eq_of_lt (by omega)
        refine (wp_pure ..).mpr ?_
        rw [hmod]
        exact ⟨n, by omega, rfl, rfl, by omega, by omega, hsearch⟩
    · rw [dlsymProbeBody, wp_ite, if_neg hlt]
      rw [show env.ndlhandles - j = 0 by omega, searchFrom] at hsearch
      exact (wp_pure ..).mpr ⟨hsearch, rfl⟩
  exact total_loop step _ (i, 0) s ⟨rfl, rfl, hi, rfl, rfl⟩

end Search

/-! ### Caches -/

section Rep

variable {s : Dllookup} {es : List DlEntry} {e e' : DlEntry} {x : List UInt8} {i p : ℕ}

/-- The address of the entry with number `i`. -/
abbrev dlSlot (s : Dllookup) (i : ℕ) : ℕ := s.unEntries + i * dlentrySize

/-- The entry of the name `x`. -/
def findEntry (es : List DlEntry) (x : List UInt8) : Option DlEntry :=
  es.find? fun e => e.symname = x

/-- The key of the name of an entry. -/
def IsName (s : Dllookup) (es : List DlEntry) (k : HtEntry) : Prop :=
  ∃ i e, es[i]? = some e ∧ k.key = dlSlot s i ∧ k.size = e.symname.length

/-- The cache holds the entries `es` in its inline array, and its hash table their names. -/
structure DlRep (s : Dllookup) (es : List DlEntry) : Prop where
  capacity : s.capacity = dlStaticSize
  union_pos : htVacant < s.unEntries
  union : Accessible s.mem s.unEntries (dlStaticSize * dlentrySize)
  entries : ∀ i e, es[i]? = some e → EntryAt s.mem (dlSlot s i) e
  nodup : (es.map DlEntry.symname).Nodup
  length_le : es.length ≤ dlStaticSize
  filled : HtFilled s.mem (IsName s es) s.ht {x | x ∈ es.map DlEntry.symname}

theorem findEntry_of_getElem (hnodup : (es.map DlEntry.symname).Nodup) (h : es[i]? = some e) :
    findEntry es e.symname = some e := by
  obtain ⟨hi, rfl⟩ := List.getElem?_eq_some_iff.mp h
  rw [findEntry, List.find?_eq_some_iff_getElem]
  refine ⟨by simp, i, hi, rfl, fun j hj => ?_⟩
  simp only [Bool.not_eq_true', decide_eq_false_iff_not]
  intro heq
  have hi' : i < (es.map DlEntry.symname).length := by simpa using hi
  have hj' : j < (es.map DlEntry.symname).length := hj.trans hi'
  have hget : (es.map DlEntry.symname)[j] = (es.map DlEntry.symname)[i] := by simpa using heq
  have := (List.Nodup.getElem_inj_iff hnodup).mp hget
  omega

theorem findEntry_eq_none : findEntry es x = none ↔ x ∉ es.map DlEntry.symname := by
  simp [findEntry]

theorem names_set (h : es[i]? = some e) (hname : e'.symname = e.symname) :
    (es.set i e').map DlEntry.symname = es.map DlEntry.symname := by
  obtain ⟨hi, rfl⟩ := List.getElem?_eq_some_iff.mp h
  rw [List.map_set, hname]
  have hi' : i < (es.map DlEntry.symname).length := by simpa using hi
  have hget : (es.map DlEntry.symname)[i] = es[i].symname := by simp
  rw [← hget, List.set_getElem_self]

theorem findEntry_set_of_ne (h : es[i]? = some e) (he : e.symname ≠ x) (he' : e'.symname ≠ x) :
    findEntry (es.set i e') x = findEntry es x := by
  induction es generalizing i with
  | nil => exact absurd h (by simp)
  | cons f fs ih =>
    cases i with
    | zero =>
      obtain rfl : f = e := Option.some.inj h
      simp [findEntry, he, he']
    | succ i =>
      have hrest := ih (i := i) (by simpa using h)
      simp only [findEntry, List.set_cons_succ, List.find?_cons] at hrest ⊢
      rw [hrest]

/-- An entry is replaced. -/
theorem findEntry_set (hnodup : (es.map DlEntry.symname).Nodup) (h : es[i]? = some e)
    (hname : e'.symname = e.symname) :
    findEntry (es.set i e') = Function.update (findEntry es) e.symname (some e') := by
  have hi := (List.getElem?_eq_some_iff.mp h).1
  funext y
  by_cases hy : y = e.symname
  · subst hy
    rw [Function.update_self, ← hname]
    refine findEntry_of_getElem (i := i) ?_ (List.getElem?_set_self hi)
    rw [names_set h hname]
    exact hnodup
  · rw [Function.update_of_ne hy]
    refine findEntry_set_of_ne h (Ne.symm hy) ?_
    rw [hname]
    exact Ne.symm hy

/-- An entry is added. -/
theorem findEntry_snoc (h : e.symname ∉ es.map DlEntry.symname) :
    findEntry (es ++ [e]) = Function.update (findEntry es) e.symname (some e) := by
  funext y
  rw [findEntry, List.find?_append]
  by_cases hy : y = e.symname
  · subst hy
    rw [Function.update_self, show es.find? _ = none from findEntry_eq_none.mpr h, Option.none_or]
    simp
  · rw [Function.update_of_ne hy]
    have hmiss : ([e] : List DlEntry).find? (fun f => f.symname = y) = none := by
      simpa using Ne.symm hy
    rw [hmiss, Option.or_none]
    rfl

/-- The bytes of a key of the cache are the name of its entry. -/
theorem DlRep.bytesAt_key (h : DlRep s es) {k : HtEntry} (hk : k.key = dlSlot s i)
    (hsize : k.size = e.symname.length) (he : es[i]? = some e) :
    bytesAt s.mem k.key k.size = some e.symname := by
  rw [hk, hsize]
  exact (h.entries i e he).symname.bytesAt

/-- Two slots do not overlap. -/
theorem dlSlot_disjoint {j k : ℕ} (hij : i ≠ j) (hk : k < dlentrySize) :
    dlSlot s j + k < dlSlot s i ∨ dlSlot s i + dlentrySize ≤ dlSlot s j + k := by
  simp only [dlSlot]
  rcases Nat.lt_or_gt_of_ne hij with hlt | hgt
  · have := Nat.mul_le_mul_right dlentrySize (show i + 1 ≤ j from hlt)
    rw [Nat.succ_mul] at this
    omega
  · have := Nat.mul_le_mul_right dlentrySize (show j + 1 ≤ i from hgt)
    rw [Nat.succ_mul] at this
    omega

/-- A change of the memory of one entry. -/
theorem DlRep.set (h : DlRep s es) (he : es[i]? = some e) (hname : e'.symname = e.symname)
    {mem : Mem} (hat : EntryAt mem (dlSlot s i) e')
    (hframe : ∀ a, a < dlSlot s i ∨ dlSlot s i + dlentrySize ≤ a → mem a = s.mem a) :
    DlRep { s with mem := mem } (es.set i e') := by
  have hi := (List.getElem?_eq_some_iff.mp he).1
  have hother : ∀ j, i ≠ j → ∀ k < dlentrySize, mem (dlSlot s j + k) = s.mem (dlSlot s j + k) :=
    fun j hij k hk => hframe _ (dlSlot_disjoint hij hk)
  have hslots : ∀ k, IsName s es k → IsName { s with mem := mem } (es.set i e') k := by
    rintro k ⟨j, f, hf, hkey, hsize⟩
    by_cases hij : i = j
    · subst hij
      obtain rfl : e = f := Option.some.inj (he.symm.trans hf)
      exact ⟨i, e', List.getElem?_set_self hi, hkey, by rw [hsize, hname]⟩
    · exact ⟨j, f, by rw [List.getElem?_set_ne hij, hf], hkey, hsize⟩
  refine ⟨h.capacity, h.union_pos, fun k hk => ?_, fun j f hf => ?_, ?_, ?_, ?_⟩
  · by_cases hin : s.unEntries + k < dlSlot s i ∨ dlSlot s i + dlentrySize ≤ s.unEntries + k
    · show (mem _).isSome = true
      rw [hframe _ hin]
      exact h.union k hk
    · have hk' := hat.accessible (s.unEntries + k - dlSlot s i) (by omega)
      rwa [show dlSlot s i + (s.unEntries + k - dlSlot s i) = s.unEntries + k by omega] at hk'
  · by_cases hij : i = j
    · subst hij
      rw [List.getElem?_set_self hi] at hf
      obtain rfl := Option.some.inj hf
      exact hat
    · rw [List.getElem?_set_ne hij] at hf
      exact (h.entries j f hf).congr (hother j hij)
  · rw [names_set he hname]
    exact h.nodup
  · rw [List.length_set]
    exact h.length_le
  · rw [names_set he hname]
    refine (h.filled.congr ?_).imp hslots
    rintro k ⟨j, f, hf, hkey, hsize⟩
    have hold := h.bytesAt_key hkey hsize hf
    rw [hold]
    by_cases hij : i = j
    · subst hij
      obtain rfl : e = f := Option.some.inj (he.symm.trans hf)
      rw [hkey, hsize, ← hname]
      exact hat.symname.bytesAt
    · rw [← hold]
      have hshort := (h.entries j f hf).short
      refine bytesAt_congr fun m hm => ?_
      rw [hkey]
      refine hother j hij m ?_
      simp only [dlentrySize]
      omega

/-- A search for the name `x` finds its entry. -/
theorem DlRep.find (h : DlRep s es) {memcmp : List UInt8 → List UInt8 → ℤ}
    (hp : StrAt s.mem p x) (hright : ProbeRight ⟨s.mem, memcmp⟩ s.ht ⟨p, x.length⟩) :
    Total (fun n => onHt (htFind ⟨s.mem, memcmp⟩ ⟨p, x.length⟩ n)) (fun r s' => s' = s ∧
      (r = none ↔ findEntry es x = none) ∧ ∀ idx, r = some idx →
        ∃ i e, es[i]? = some e ∧ e.symname = x ∧ (s.ht.storage idx).key = dlSlot s i) s := by
  have hkey : keyOf s.mem ⟨p, x.length⟩ = x := by
    rw [keyOf, hp.bytesAt, Option.getD_some]
  let htEnv : HtEnv := ⟨s.mem, memcmp⟩
  have hread : Readable htEnv.mem ⟨p, x.length⟩ := ⟨x, hp.bytesAt⟩
  refine (total_onHt (HtFilled.find h.filled hright hread)).mono ?_
  rintro r _ ⟨_, rfl, rfl, hr, hidx⟩
  rw [hkey] at hr
  refine ⟨rfl, hr.trans findEntry_eq_none.symm, fun idx hsome => ?_⟩
  obtain ⟨⟨i, e, he, hslot, hsize⟩, hname⟩ := hidx idx hsome
  refine ⟨i, e, he, ?_, hslot⟩
  rw [hkey, keyOf, h.bytesAt_key hslot hsize he, Option.getD_some] at hname
  exact hname

/-- A new entry is added, and its name to the hash table. -/
theorem DlRep.add (h : DlRep s es) (hlt : es.length < dlStaticSize)
    (hx : findEntry es e.symname = none) {mem : Mem} {ht : Ht}
    (hat : EntryAt mem (dlSlot s es.length) e)
    (hframe : ∀ a, a < dlSlot s es.length ∨ dlSlot s es.length + dlentrySize ≤ a →
      mem a = s.mem a)
    (hfilled : HtFilled mem (IsName s (es ++ [e])) ht
      (insert e.symname {x | x ∈ es.map DlEntry.symname})) :
    DlRep { s with mem := mem, ht := ht } (es ++ [e]) := by
  refine ⟨h.capacity, h.union_pos, fun k hk => ?_, fun j f hf => ?_, ?_, ?_, ?_⟩
  · by_cases hin : s.unEntries + k < dlSlot s es.length ∨
        dlSlot s es.length + dlentrySize ≤ s.unEntries + k
    · show (mem _).isSome = true
      rw [hframe _ hin]
      exact h.union k hk
    · have hk' := hat.accessible (s.unEntries + k - dlSlot s es.length) (by omega)
      rwa [show dlSlot s es.length + (s.unEntries + k - dlSlot s es.length) = s.unEntries + k by
        omega] at hk'
  · rcases Nat.lt_or_ge j es.length with hj | hj
    · rw [List.getElem?_append_left hj] at hf
      exact (h.entries j f hf).congr fun k hk =>
        hframe _ (dlSlot_disjoint (Nat.ne_of_gt hj) hk)
    · rw [List.getElem?_append_right hj] at hf
      obtain ⟨hj0, rfl⟩ : j - es.length = 0 ∧ e = f := by
        rcases Nat.eq_zero_or_pos (j - es.length) with h0 | hpos
        · rw [h0] at hf
          exact ⟨h0, Option.some.inj hf⟩
        · rw [List.getElem?_eq_none (by simp only [List.length_singleton]; omega)] at hf
          exact absurd hf (by simp)
      obtain rfl : j = es.length := by omega
      exact hat
  · rw [List.map_append, List.map_singleton]
    refine List.Nodup.append h.nodup (List.nodup_singleton _) ?_
    rw [List.disjoint_singleton]
    exact findEntry_eq_none.mp hx
  · rw [List.length_append, List.length_singleton]
    exact hlt
  · have hset : {x | x ∈ (es ++ [e]).map DlEntry.symname} =
        insert e.symname {x | x ∈ es.map DlEntry.symname} := by
      ext y
      rw [Set.mem_insert_iff, Set.mem_ofPred_eq, Set.mem_ofPred_eq, List.map_append,
        List.mem_append, List.map_singleton, List.mem_singleton, or_comm]
    rw [hset]
    exact hfilled

theorem DlRep.ht_size (h : DlRep s es) : s.ht.size = es.length := by
  have hset : {x | x ∈ es.map DlEntry.symname} = ((es.map DlEntry.symname).toFinset : Set _) := by
    ext y
    simp
  rw [h.filled.size, hset, Set.ncard_coe_finset, List.toFinset_card_of_nodup h.nodup,
    List.length_map]

end Rep

/-! ### Lookups -/

section Lookup

variable {env : DlEnv} {s : Dllookup} {es : List DlEntry} {e : DlEntry} {x : List UInt8} {i p : ℕ}

/-- What a lookup of the name `x` answers for its entry, and the entry after it. -/
def recordNext (env : DlEnv) (x : List UInt8) : Option DlEntry → ℕ × DlEntry
  | none =>
    let r := search env x 0
    (r.2, ⟨x, r.2, r.1, false⟩)
  | some e =>
    if e.resolved then (e.addr, e)
    else
      let r := search env x ((e.loadidx + 1) % 2 ^ 32)
      (r.2, { e with addr := r.2, loadidx := r.1 })

/-- A lookup of `x` in a cache with the entries `es` has answered `sym`. -/
structure LookedUp (env : DlEnv) (s : Dllookup) (es : List DlEntry) (x : List UInt8) (sym : ℕ)
    (s' : Dllookup) : Prop where
  sym_eq : sym = (recordNext env x (findEntry es x)).1
  unEntries : s'.unEntries = s.unEntries
  rep : ∃ es', DlRep s' es' ∧
    findEntry es' = Function.update (findEntry es) x (some (recordNext env x (findEntry es x)).2)

theorem writeEntry_eq {sym probeidx : ℕ} (h : Accessible s.mem p dlentrySize) :
    writeEntry p sym probeidx s = some ((), { s with mem := putEntry s.mem p sym probeidx }) := by
  have haddr : Accessible s.mem (p + dlMaxSymname) (leBytes 8 sym).length := by
    rw [length_leBytes]
    exact h.mono (by omega) (by simp only [dlentrySize]; omega)
  have hidx : Accessible (store s.mem (p + dlMaxSymname) (leBytes 8 sym))
      (p + (dlMaxSymname + 8)) (leBytes 4 probeidx).length := by
    rw [length_leBytes]
    exact (h.store _ _).mono (by omega) (by simp only [dlentrySize]; omega)
  exact bind_some (dlWrite_eq haddr) (dlWrite_eq hidx)

/-- The number of the library that a search answers with is an `unsigned`. -/
theorem search_fst_lt (x : List UInt8) {i : ℕ} (hi : i < 2 ^ 32) : (search env x i).1 < 2 ^ 32 := by
  have hle : (searchFrom env x (env.ndlhandles - i) i).1 ≤ _ := searchFrom_le ..
  have hnd := env.ndlhandles_le
  simp only [maxSodeps] at hnd
  rw [search]
  omega

theorem search_snd_lt (x : List UInt8) (i : ℕ) : (search env x i).2 < 2 ^ 64 := searchFrom_lt ..

/-- A lookup of a name with an entry. -/
theorem dlsymAgain_spec (h : DlRep s es) (he : es[i]? = some e) :
    Total (dlsymAgain env e.symname (dlSlot s i)) (LookedUp env s es e.symname) s := by
  have hat := h.entries i e he
  have hfind := findEntry_of_getElem h.nodup he
  have hread : readEntry (dlSlot s i) s = some (e, s) := by
    rw [readEntry, hat.dlentryAt]
    rfl
  refine Total.wp_bind ((wp_of_some hread).mpr ?_)
  by_cases hres : e.resolved = true
  · simp only [if_pos hres]
    have hrec : recordNext env e.symname (some e) = (e.addr, e) := by
      rw [recordNext, if_pos hres]
    refine Total.const ((wp_pure ..).mpr ⟨?_, rfl, es, h, ?_⟩)
    · rw [hfind, hrec]
    · rw [hfind, hrec, ← hfind, Function.update_eq_self]
  · simp only [if_neg hres]
    have hmod : (e.loadidx + 1) % 2 ^ 32 < 2 ^ 32 := Nat.mod_lt _ (by omega)
    have hfst : (search env e.symname ((e.loadidx + 1) % 2 ^ 32)).1 < 2 ^ 32 :=
      search_fst_lt e.symname hmod
    have hsnd : (search env e.symname ((e.loadidx + 1) % 2 ^ 32)).2 < 2 ^ 64 := search_snd_lt ..
    have hrec : recordNext env e.symname (some e) =
        ((search env e.symname ((e.loadidx + 1) % 2 ^ 32)).2,
          { e with
            addr := (search env e.symname ((e.loadidx + 1) % 2 ^ 32)).2
            loadidx := (search env e.symname ((e.loadidx + 1) % 2 ^ 32)).1 }) := by
      rw [recordNext, if_neg hres]
    refine ((dlsymProbe_spec hmod s).mono ?_).bind
    rintro r _ ⟨hr, rfl⟩
    rw [← hr] at hfst hsnd hrec
    refine Total.wp_bind ((wp_of_some (writeEntry_eq hat.accessible)).mpr ?_)
    refine Total.const ((wp_pure ..).mpr ⟨?_, rfl, es.set i { e with addr := r.2, loadidx := r.1 },
      ?_, ?_⟩)
    · rw [hfind, hrec]
    · have hput := hat.put hsnd hfst
      exact h.set he (by rfl) hput fun a ha => putEntry_of_notMem ha
    · rw [hfind, hrec]
      exact findEntry_set h.nodup he rfl

/-- A name that fits is copied with its terminator. -/
theorem strscpy_spec {dst src dstsize : ℕ} (h : StrAt s.mem src x) (hfits : x.length < dstsize)
    (hacc : Accessible s.mem dst (x.length + 1)) :
    Total (strscpy dst src dstsize) (fun r s' => r = x.length ∧
      s' = { s with mem := store s.mem dst (x ++ [0]) }) s := by
  refine Total.wp_bind ((wp_get ..).mpr (((strlen_spec h.stringAt s).mono ?_).bind))
  rintro len _ ⟨rfl, rfl⟩
  simp only [if_pos hfits]
  have hlen : (x ++ [(0 : UInt8)]).length = x.length + 1 := by simp
  refine Total.wp_bind ((wp_of_some (readBytes_eq h.bytes _)).mpr ?_)
  refine Total.wp_bind ((wp_of_some (dlWrite_eq (by rw [hlen]; exact hacc))).mpr ?_)
  exact Total.const ((wp_pure ..).mpr ⟨rfl, rfl⟩)

/-- A lookup of a name without an entry, while there is room for one. -/
theorem dlsymFirst_spec (h : DlRep s es) (hlt : es.length < dlStaticSize)
    (hx : findEntry es x = none) (hp : StrAt s.mem p x) (hshort : x.length < dlMaxSymname)
    (hright : InsertRight ⟨s.mem, env.memcmp⟩ s.ht ⟨p, x.length⟩)
    (hcalloc : ∀ n, env.calloc n = true) :
    Total (dlsymFirst env p x) (LookedUp env s es x) s := by
  have hfst : (search env x 0).1 < 2 ^ 32 := search_fst_lt x (by omega)
  have hsnd : (search env x 0).2 < 2 ^ 64 := search_snd_lt x 0
  have hrec : recordNext env x none =
      ((search env x 0).2, ⟨x, (search env x 0).2, (search env x 0).1, false⟩) := rfl
  refine ((dlsymProbe_spec (by omega) s).mono ?_).bind
  rintro r s ⟨hr, rfl⟩
  rw [← hr] at hfst hsnd hrec
  -- the cache has room
  have hroom : ∀ n, dllookupEnsureCapacity env.memcmp env.alloc env.calloc n s = some (true, s) := by
    intro n
    refine bind_get ?_
    rw [if_pos (by rw [h.ht_size, h.capacity]; exact hlt)]
    rfl
  refine Total.bind ⟨true, s, ⟨0, fun n _ => hroom n⟩, ?_⟩
  simp only [if_true]
  have hentries : dllookupEntry s = some (s.unEntries, s) := by
    rw [dllookupEntry, Dllookup.entries, if_pos h.capacity]
    rfl
  refine Total.wp_bind ((wp_get ..).mpr (Total.wp_bind ((wp_of_some hentries).mpr ?_)))
  rw [h.ht_size]
  -- the slot of the new entry lies in the array
  have hslot : Accessible s.mem (dlSlot s es.length) dlentrySize := by
    have hmul := Nat.mul_le_mul_right dlentrySize (show es.length + 1 ≤ dlStaticSize from hlt)
    rw [Nat.succ_mul] at hmul
    refine h.union.mono (Nat.le_add_right _ _) ?_
    simp only [dlSlot]
    omega
  refine ((strscpy_spec hp hshort (hslot.mono (Nat.le_refl _) ?_)).mono ?_).bind
  · simp only [dlentrySize]
    omega
  rintro status _ ⟨rfl, rfl⟩
  simp only [if_neg (show ¬ (x.length : ℤ) < 0 by omega)]
  refine Total.wp_bind ((wp_of_some (writeEntry_eq (hslot.store _ _))).mpr ?_)
  have hlast : Accessible (putEntry (store s.mem (dlSlot s es.length) (x ++ [0]))
      (dlSlot s es.length) r.2 r.1) (dlSlot s es.length + (dlMaxSymname + 12)) ([0] : List UInt8).length :=
    (accessible_putEntry (hslot.store _ _)).mono (by omega) (by
      simp only [dlentrySize, List.length_singleton]
      omega)
  let s₁ : Dllookup := { s with mem := newEntry s.mem (dlSlot s es.length) x r.2 r.1 }
  refine Total.wp_bind ((wp_of_some (dlWrite_eq hlast)).mpr ?_)
  refine Total.wp_bind ((wp_get ..).mpr ?_)
  -- the name is inserted into the hash table
  have hat : EntryAt (newEntry s.mem (dlSlot s es.length) x r.2 r.1) (dlSlot s es.length)
      ⟨x, r.2, r.1, false⟩ := entryAt_new hslot hp.nonzero hshort hsnd hfst
  have hframe : ∀ a, a < dlSlot s es.length ∨ dlSlot s es.length + dlentrySize ≤ a →
      newEntry s.mem (dlSlot s es.length) x r.2 r.1 a = s.mem a :=
    fun a ha => newEntry_of_notMem hshort ha
  have hslots : ∀ k, IsName s es k → IsName s (es ++ [⟨x, r.2, r.1, false⟩]) k := by
    rintro k ⟨j, f, hf, hkey⟩
    have hj := (List.getElem?_eq_some_iff.mp hf).1
    exact ⟨j, f, by rw [List.getElem?_append_left hj, hf], hkey⟩
  have hkeys : ∀ k, IsName s es k →
      bytesAt (newEntry s.mem (dlSlot s es.length) x r.2 r.1) k.key k.size =
        bytesAt s.mem k.key k.size := by
    rintro k ⟨j, f, hf, hkey, hsize⟩
    have hj := (List.getElem?_eq_some_iff.mp hf).1
    have hfshort := (h.entries j f hf).short
    refine bytesAt_congr fun m hm => ?_
    rw [hkey]
    refine hframe _ (dlSlot_disjoint (Nat.ne_of_gt hj) ?_)
    simp only [dlentrySize]
    omega
  have hbytes := hat.symname.bytesAt
  have hkey : keyOf (newEntry s.mem (dlSlot s es.length) x r.2 r.1)
      ⟨dlSlot s es.length, x.length⟩ = x := by
    rw [keyOf, hbytes, Option.getD_some]
  have hkey₀ : keyOf s.mem ⟨p, x.length⟩ = x := by
    rw [keyOf, hp.bytesAt, Option.getD_some]
  have hcard : Set.ncard {y | y ∈ es.map DlEntry.symname} < 2 ^ 31 - 1 := by
    have hsize := h.filled.size
    have hle := h.length_le
    rw [h.ht_size] at hsize
    simp only [dlStaticSize] at hle
    omega
  have hnew := findEntry_eq_none.mp hx
  have hpos := h.union_pos
  let htEnv : HtEnv := ⟨newEntry s.mem (dlSlot s es.length) x r.2 r.1, env.memcmp⟩
  have hfilled : HtFilled htEnv.mem (IsName s (es ++ [⟨x, r.2, r.1, false⟩])) s.ht
      {y | y ∈ es.map DlEntry.symname} := (h.filled.congr hkeys).imp hslots
  have hins := hfilled.insert
    (hright.congr (h.filled.slots.cells_congr fun k hk => hkeys k hk.2) (hkey.trans hkey₀.symm))
    ⟨x, hbytes⟩ (Nat.lt_of_lt_of_le hpos (Nat.le_add_right _ _)) hcard
    (fun _ => ⟨es.length, ⟨x, r.2, r.1, false⟩, by simp, rfl, rfl⟩) hcalloc
  refine ((strlen_spec hat.symname.stringAt s₁).mono ?_).bind
  rintro size _ ⟨rfl, rfl⟩
  refine ((total_onHt (s := s₁) hins).mono ?_).bind
  rintro slot _ ⟨ht, rfl, hnone, hinserted⟩
  rw [hkey] at hnone hinserted
  have hstored : slot ≠ none := fun h0 => hnew (hnone.mp h0)
  refine Total.const ((wp_pure ..).mpr ⟨?_, rfl, es ++ [⟨x, r.2, r.1, false⟩], ?_, ?_⟩)
  · rw [if_neg hstored, hx, hrec]
  · exact h.add hlt hx hat hframe hinserted
  · rw [hx, hrec]
    exact findEntry_snoc hnew

/-- A cache after `cldm_dllookup_init`, if that is still to be called. -/
def dlReady (s : Dllookup) : Dllookup :=
  if s.capacity = 0 then { s with ht := htInit, capacity := dlStaticSize } else s

@[simp] theorem dlReady_mem (s : Dllookup) : (dlReady s).mem = s.mem := by
  rw [dlReady]
  split_ifs <;> rfl

@[simp] theorem dlReady_unEntries (s : Dllookup) : (dlReady s).unEntries = s.unEntries := by
  rw [dlReady]
  split_ifs <;> rfl

theorem DlRep.dlReady_eq (h : DlRep s es) : dlReady s = s := by
  refine if_neg ?_
  rw [h.capacity]
  decide

/-- An empty cache. -/
theorem dlRep_nil (hpos : htVacant < s.unEntries)
    (hunion : Accessible s.mem s.unEntries (dlStaticSize * dlentrySize)) (hcap : s.capacity = 0) :
    DlRep (dlReady s) [] := by
  rw [dlReady, if_pos hcap]
  refine ⟨rfl, hpos, hunion, fun i e h => absurd h (by simp), List.nodup_nil, Nat.zero_le _, ?_⟩
  have hset : {x | x ∈ ([] : List DlEntry).map DlEntry.symname} = ∅ := by
    ext y
    simp
  rw [hset]
  exact htInit_filled _ _

/-- `cldm_dlsym_next` answers from the entry of the name, and changes no other. -/
theorem dlsymNext_spec (h : DlRep (dlReady s) es) (hp : StrAt s.mem p x)
    (hshort : x.length < dlMaxSymname)
    (hprobe : ProbeRight ⟨s.mem, env.memcmp⟩ (dlReady s).ht ⟨p, x.length⟩)
    (hnew : findEntry es x = none → es.length < dlStaticSize ∧
      InsertRight ⟨s.mem, env.memcmp⟩ (dlReady s).ht ⟨p, x.length⟩)
    (hcalloc : ∀ n, env.calloc n = true) :
    Total (dlsymNext env p) (LookedUp env (dlReady s) es x) s := by
  have hinit : (if s.capacity = 0 then dllookupInit else pure () : Prog Dllookup Unit) s =
      some ((), dlReady s) := by
    rw [dlReady]
    split_ifs <;> rfl
  refine Total.wp_bind ((wp_get ..).mpr (Total.wp_bind ((wp_of_some hinit).mpr ?_)))
  rw [← dlReady_mem] at hp hprobe hnew
  generalize dlReady s = s at h hp hprobe hnew ⊢
  refine Total.wp_bind ((wp_get ..).mpr (((strlen_spec hp.stringAt s).mono ?_).bind))
  rintro size s ⟨rfl, rfl⟩
  refine Total.wp_bind ((wp_of_some (readBytes_eq hp.bytesAt s)).mpr ?_)
  refine ((h.find hp hprobe).mono ?_).bind
  rintro r s ⟨rfl, hnone, hidx⟩
  cases r with
  | none =>
    have hx := hnone.mp rfl
    obtain ⟨hlt, hright⟩ := hnew hx
    exact dlsymFirst_spec h hlt hx hp hshort hright hcalloc
  | some idx =>
    obtain ⟨i, e, he, rfl, hkey⟩ := hidx idx rfl
    simp only [hkey]
    exact dlsymAgain_spec h he

/-- `cldm_dlresolve` marks the entry of the name. -/
theorem dlresolve_spec (h : DlRep s es) (hp : StrAt s.mem p x)
    (hprobe : ProbeRight ⟨s.mem, env.memcmp⟩ s.ht ⟨p, x.length⟩) (hx : findEntry es x = some e) :
    Total (dlresolve env p) (fun _ s' => s'.unEntries = s.unEntries ∧ ∃ es', DlRep s' es' ∧
      findEntry es' = Function.update (findEntry es) x (some { e with resolved := true })) s := by
  refine Total.wp_bind ((wp_get ..).mpr (((strlen_spec hp.stringAt s).mono ?_).bind))
  rintro size s ⟨rfl, rfl⟩
  refine ((h.find hp hprobe).mono ?_).bind
  rintro r s ⟨rfl, hnone, hidx⟩
  cases r with
  | none => exact absurd (hnone.mp rfl) (by rw [hx]; simp)
  | some idx =>
    obtain ⟨i, f, hf, rfl, hkey⟩ := hidx idx rfl
    obtain rfl : f = e := Option.some.inj ((findEntry_of_getElem h.nodup hf).symm.trans hx)
    have hat := h.entries i f hf
    have hmem : Accessible s.mem (dlSlot s i + (dlMaxSymname + 12)) ([1] : List UInt8).length :=
      hat.accessible.mono (by omega) (by simp only [dlentrySize, List.length_singleton]; omega)
    simp only [hkey]
    have hres := hat.resolve
    refine Total.const ((wp_of_some (dlWrite_eq hmem)).mpr
      ⟨rfl, es.set i { f with resolved := true }, h.set hf (by rfl) hres fun a ha => ?_,
        findEntry_set h.nodup hf rfl⟩)
    refine store_of_notMem ?_
    simp only [List.length_singleton, dlentrySize] at ha ⊢
    omega

end Lookup

end Cldm
