/-
Runs of `cldm_dlsym_next` and `cldm_dlresolve` on the cache of one thread.

Between the calls, other code may change all memory outside of the cache.

* `DlRun` — the runs, with their histories;
* `KeepsRight` — the comparisons of the hash table are right, and no index wraps;
* `Looking` — what the entry of a name knows of the calls for it;
* `dlsym_next_cycles` — in every run that keeps right, the lookups of a name cycle
  through the libraries that define it, whatever other names are looked up;
* `dlsym_next_conflates` — with the portable `cldm_memcmp` they do not.
-/
import Cldm.Cursor
import Cldm.DlNext

namespace Cldm

open Prog Probing Bytes

/-! ### Histories -/

/-- A call, with its answer. -/
inductive DlCall where
  | next (name : List UInt8) (sym : ℕ)
  | resolve (name : List UInt8)

/-- The name that is looked up or resolved. -/
def DlCall.name : DlCall → List UInt8
  | next name _ => name
  | resolve name => name

/-- The names of a history. -/
def namesOf (H : List DlCall) : Finset (List UInt8) := (H.map DlCall.name).toFinset

/-- The calls for the name `x`. -/
def own (x : List UInt8) (H : List DlCall) : List (Cursor.Call ℕ) :=
  H.filterMap fun
    | .next name sym => if name = x then some (.next sym) else none
    | .resolve name => if name = x then some .stay else none

/-- The addresses of `x` in the libraries from number `i` on. -/
def definersFrom (env : DlEnv) (x : List UInt8) (i : ℕ) : List ℕ :=
  (List.range' i (env.ndlhandles - i)).filterMap fun i => env.dlsym i x

/-- The addresses of `x` in the loaded libraries that define it, in load order. -/
def definers (env : DlEnv) (x : List UInt8) : List ℕ :=
  (List.range env.ndlhandles).filterMap fun i => env.dlsym i x

/-! ### Runs -/

/-- A call that is about to be made, with the address of the name. -/
inductive DlAsk where
  | next (symname : ℕ) (name : List UInt8)
  | resolve (symname : ℕ) (name : List UInt8)

/-- The address lies outside of the inline array of the cache. -/
def Outside (s : Dllookup) (a : ℕ) : Prop :=
  a < s.unEntries ∨ s.unEntries + dlStaticSize * dlentrySize ≤ a

/-- A string of the caller. -/
structure UserString (s : Dllookup) (symname : ℕ) (name : List UInt8) : Prop where
  strAt : StrAt s.mem symname name
  outside : ∀ i ≤ name.length, Outside s (symname + i)

/-- The calls of the documented pattern: short names, no more of them than the inline
array holds, and none is resolved before it was looked up. -/
def Allowed (s : Dllookup) (H : List DlCall) : DlAsk → Prop
  | .next symname name => UserString s symname name ∧ name.length < dlMaxSymname ∧
      (insert name (namesOf H)).card ≤ dlStaticSize
  | .resolve symname name => UserString s symname name ∧ ∃ sym, .next name sym ∈ H

/-- A run of calls that `ok` allows, to a cache and the history. -/
inductive DlRun (env : DlEnv) (ok : Dllookup → List DlCall → DlAsk → Prop) :
    Dllookup → List DlCall → Prop
  | start {s : Dllookup} : s.capacity = 0 → htVacant < s.unEntries →
      Accessible s.mem s.unEntries (dlStaticSize * dlentrySize) → DlRun env ok s []
  | outside {s : Dllookup} {H : List DlCall} {mem : Mem} :
      DlRun env ok s H → (∀ a, ¬ Outside s a → mem a = s.mem a) →
      DlRun env ok { s with mem := mem } H
  | next {s s' : Dllookup} {H : List DlCall} {symname sym : ℕ} {name : List UInt8} :
      DlRun env ok s H → Allowed s H (.next symname name) → ok s H (.next symname name) →
      Returns (dlsymNext env symname) s sym s' → DlRun env ok s' (H ++ [.next name sym])
  | resolve {s s' : Dllookup} {H : List DlCall} {symname : ℕ} {name : List UInt8} :
      DlRun env ok s H → Allowed s H (.resolve symname name) → ok s H (.resolve symname name) →
      Returns (dlresolve env symname) s () s' → DlRun env ok s' (H ++ [.resolve name])

/-- The index of a name that is not resolved does not wrap around in the next lookup. -/
def NoWrap (env : DlEnv) (x : List UInt8) (o : List (Cursor.Call ℕ)) : Prop :=
  .stay ∉ o → definers env x = [] ∨ o.length < 2 ^ 32 + (definers env x).length - env.ndlhandles

/-- The comparisons that the call makes in the hash table are right, and the index of a
name that is not resolved has not wrapped around. -/
def KeepsRight (env : DlEnv) (s : Dllookup) (H : List DlCall) : DlAsk → Prop
  | .next symname name =>
    ProbeRight ⟨s.mem, env.memcmp⟩ (dlReady s).ht ⟨symname, name.length⟩ ∧
    (name ∉ namesOf H →
      InsertRight ⟨s.mem, env.memcmp⟩ (dlReady s).ht ⟨symname, name.length⟩) ∧
    NoWrap env name (own name H)
  | .resolve symname name =>
    ProbeRight ⟨s.mem, env.memcmp⟩ (dlReady s).ht ⟨symname, name.length⟩

/-- The lookups of every name cycle through its definers until it is resolved, and then
stay; and the next call returns. -/
structure DlCycles (env : DlEnv) (ok : Dllookup → List DlCall → DlAsk → Prop) (s : Dllookup)
    (H : List DlCall) : Prop where
  cycles : ∀ x, Cursor.Cycles (definers env x) 0 (own x H)
  next : ∀ symname name, Allowed s H (.next symname name) → ok s H (.next symname name) →
    ∃ sym s', Returns (dlsymNext env symname) s sym s'
  resolve : ∀ symname name, Allowed s H (.resolve symname name) →
    ok s H (.resolve symname name) → ∃ s', Returns (dlresolve env symname) s () s'

/-! ### The libraries that define a name -/

section Definers

variable {env : DlEnv} {x : List UInt8} {i k : ℕ}

theorem definersFrom_zero : definersFrom env x 0 = definers env x := by
  rw [definersFrom, definers, List.range_eq_range', Nat.sub_zero]

theorem definersFrom_of_le (h : env.ndlhandles ≤ i) : definersFrom env x i = [] := by
  rw [definersFrom, Nat.sub_eq_zero_of_le h]
  rfl

theorem definersFrom_succ (h : i < env.ndlhandles) :
    definersFrom env x i = (env.dlsym i x).toList ++ definersFrom env x (i + 1) := by
  obtain ⟨n, hn⟩ : ∃ n, env.ndlhandles - i = n + 1 := ⟨env.ndlhandles - i - 1, by omega⟩
  rw [definersFrom, definersFrom, hn, show env.ndlhandles - (i + 1) = n by omega,
    List.range'_succ, List.filterMap_cons]
  cases env.dlsym i x <;> rfl

/-- A search finds the first definer that is left, or none. -/
theorem search_spec (env : DlEnv) (x : List UInt8) (i : ℕ) :
    (definersFrom env x i = (search env x i).2 :: definersFrom env x ((search env x i).1 + 1) ∧
      (search env x i).1 < env.ndlhandles) ∨
    (definersFrom env x i = [] ∧ search env x i = (max i env.ndlhandles, 0)) := by
  rw [search]
  generalize hn : env.ndlhandles - i = n
  induction n generalizing i with
  | zero =>
    refine .inr ⟨definersFrom_of_le (by omega), ?_⟩
    rw [searchFrom, max_eq_left (by omega)]
  | succ n ih =>
    have hlt : i < env.ndlhandles := by omega
    rw [definersFrom_succ hlt, searchFrom]
    cases h : env.dlsym i x with
    | some addr => exact .inl ⟨rfl, hlt⟩
    | none =>
      have hmax : max i env.ndlhandles = max (i + 1) env.ndlhandles := by omega
      rw [hmax]
      exact ih (i + 1) (by omega)

theorem definersFrom_sublist (env : DlEnv) (x : List UInt8) (i : ℕ) :
    (definersFrom env x i).Sublist (definers env x) := by
  rcases Nat.le_total i env.ndlhandles with hle | hle
  · have hdrop : List.range' i (env.ndlhandles - i) = (List.range env.ndlhandles).drop i := by
      rw [List.range_eq_range', List.drop_range']
      simp
    rw [definersFrom, hdrop]
    exact (List.drop_sublist i _).filterMap _
  · rw [definersFrom_of_le hle]
    exact List.nil_sublist _

/-- A name that no library defines is found nowhere. -/
theorem search_of_definers_eq_nil (h : definers env x = []) (i : ℕ) : (search env x i).2 = 0 := by
  rcases search_spec env x i with ⟨hfound, -⟩ | ⟨-, hnone⟩
  · have hsub := definersFrom_sublist env x i
    rw [h, hfound] at hsub
    exact absurd (List.eq_nil_of_sublist_nil hsub) (by simp)
  · rw [hnone]

/-- After `k` lookups of `x` the next one starts with library number `i`. -/
structure Position (env : DlEnv) (x : List UInt8) (k i : ℕ) : Prop where
  left : definersFrom env x i = (definers env x).drop k
  le : i ≤ env.ndlhandles + (k - (definers env x).length)

theorem position_zero (env : DlEnv) (x : List UInt8) : Position env x 0 0 :=
  ⟨definersFrom_zero, Nat.zero_le _⟩

/-- A lookup moves on by one definer. -/
theorem Position.search (h : Position env x k i) :
    (search env x i).2 = (definers env x)[k]?.getD 0 ∧
      Position env x (k + 1) ((search env x i).1 + 1) := by
  have hle := h.le
  rcases search_spec env x i with ⟨hfound, hlt⟩ | ⟨hnil, hnone⟩
  · have hdrop : (definers env x).drop k =
        (Cldm.search env x i).2 :: definersFrom env x ((Cldm.search env x i).1 + 1) :=
      h.left.symm.trans hfound
    have hget : (definers env x)[k]? = some (Cldm.search env x i).2 := by
      rw [← List.head?_drop, hdrop, List.head?_cons]
    have hrest : definersFrom env x ((Cldm.search env x i).1 + 1) =
        (definers env x).drop (k + 1) := by
      rw [← List.tail_drop, hdrop, List.tail_cons]
    refine ⟨by rw [hget, Option.getD_some], hrest, ?_⟩
    omega
  · -- no definer is left, and the index moves on behind the last library
    have hdrop : (definers env x).drop k = [] := h.left.symm.trans hnil
    have hlen := List.drop_eq_nil_iff.mp hdrop
    rw [hnone]
    refine ⟨by rw [List.getElem?_eq_none hlen, Option.getD_none], ?_, ?_⟩
    · rw [definersFrom_of_le (by omega), List.drop_eq_nil_of_le (by omega)]
    · simp only
      omega

end Definers

/-! ### Entries and histories -/

section Looking

variable {env : DlEnv} {x : List UInt8} {o : List (Cursor.Call ℕ)} {e : DlEntry}
  {r : Option DlEntry}

/-- What the entry `e` of the name `x` knows of the calls `o` for it. -/
structure Looking (env : DlEnv) (x : List UInt8) (o : List (Cursor.Call ℕ)) (e : DlEntry) :
    Prop where
  last : Cursor.lastAnswer o = some e.addr
  resolved : e.resolved = true ↔ .stay ∈ o
  staysAt : Cursor.StaysAt o e.addr
  position : .stay ∉ o → definers env x = [] ∨ Position env x o.length (e.loadidx + 1)

/-- A name without an entry was not looked up. -/
def Knows (env : DlEnv) (x : List UInt8) (o : List (Cursor.Call ℕ)) : Option DlEntry → Prop
  | none => o = []
  | some e => Looking env x o e

/-- The entry after a search of an unresolved name. -/
theorem looking_search {i : ℕ} (e' : DlEntry) (hstay : .stay ∉ o)
    (hpos : definers env x = [] ∨ Position env x o.length i)
    (haddr : e'.addr = (search env x i).2) (hidx : e'.loadidx = (search env x i).1)
    (hres : e'.resolved = false) :
    e'.addr = (definers env x)[o.length]?.getD 0 ∧
      Looking env x (o ++ [.next e'.addr]) e' := by
  have hmem : .stay ∉ o ++ [.next e'.addr] := by
    simpa using hstay
  have hfound : e'.addr = (definers env x)[o.length]?.getD 0 ∧
      (definers env x = [] ∨ Position env x (o.length + 1) (e'.loadidx + 1)) := by
    rw [haddr, hidx]
    rcases hpos with hnil | hpos
    · rw [search_of_definers_eq_nil hnil]
      exact ⟨by rw [hnil]; rfl, .inl hnil⟩
    · exact ⟨hpos.search.1, .inr hpos.search.2⟩
  refine ⟨hfound.1, Cursor.lastAnswer_next, ?_, Cursor.staysAt_of_notMem hmem, fun _ => ?_⟩
  · rw [hres]
    exact ⟨fun h => absurd h (by decide), fun h => absurd h hmem⟩
  · rw [List.length_append, List.length_singleton]
    exact hfound.2

/-- A lookup of `x` answers with the next definer, or again with the last one. -/
theorem Knows.next (h : Knows env x o r) (hcycles : Cursor.Cycles (definers env x) 0 o)
    (hwrap : NoWrap env x o) :
    Looking env x (o ++ [.next (recordNext env x r).1]) (recordNext env x r).2 ∧
      Cursor.Cycles (definers env x) 0 (o ++ [.next (recordNext env x r).1]) := by
  cases r with
  | none =>
    obtain rfl : o = [] := h
    have hstay : Cursor.Call.stay ∉ ([] : List (Cursor.Call ℕ)) := List.not_mem_nil
    obtain ⟨haddr, hlooking⟩ := looking_search (recordNext env x none).2 hstay
      (.inr (position_zero env x)) rfl rfl rfl
    refine ⟨hlooking, ?_⟩
    have hnext := hcycles.next hstay
    rw [← haddr] at hnext
    exact hnext
  | some e =>
    by_cases hres : e.resolved = true
    · have hrec : recordNext env x (some e) = (e.addr, e) := by
        rw [recordNext, if_pos hres]
      rw [hrec]
      have hstay := h.resolved.mp hres
      refine ⟨⟨Cursor.lastAnswer_next, ?_, h.staysAt.next, ?_⟩, hcycles.again hstay h.staysAt⟩
      · exact ⟨fun _ => List.mem_append_left _ hstay, fun _ => hres⟩
      · exact fun hnot => absurd (List.mem_append_left _ hstay) hnot
    · have hstay : .stay ∉ o := fun hin => hres (h.resolved.mpr hin)
      have hrec : recordNext env x (some e) =
          ((search env x ((e.loadidx + 1) % 2 ^ 32)).2,
            { e with
              addr := (search env x ((e.loadidx + 1) % 2 ^ 32)).2
              loadidx := (search env x ((e.loadidx + 1) % 2 ^ 32)).1 }) := by
        rw [recordNext, if_neg hres]
      have hpos : definers env x = [] ∨ Position env x o.length ((e.loadidx + 1) % 2 ^ 32) := by
        rcases hwrap hstay with hnil | hlt
        · exact .inl hnil
        · refine (h.position hstay).imp_right fun hpos => ?_
          have hle := hpos.le
          have hnd := env.ndlhandles_le
          simp only [maxSodeps] at hnd
          rwa [Nat.mod_eq_of_lt (by omega)]
      obtain ⟨haddr, hlooking⟩ := looking_search (recordNext env x (some e)).2 hstay hpos
        (by rw [hrec]) (by rw [hrec]) (by rw [hrec]; exact Bool.eq_false_iff.mpr hres)
      have hsym : (recordNext env x (some e)).1 = (recordNext env x (some e)).2.addr := by
        rw [hrec]
      rw [hsym]
      refine ⟨hlooking, ?_⟩
      rw [haddr]
      exact hcycles.next hstay

/-- `x` is resolved. -/
theorem Looking.resolve (h : Looking env x o e) :
    Looking env x (o ++ [.stay]) { e with resolved := true } := by
  have hmem : Cursor.Call.stay ∈ o ++ [.stay] := List.mem_append_right _ List.mem_cons_self
  refine ⟨?_, ⟨fun _ => hmem, fun _ => rfl⟩, h.staysAt.stay h.last, fun hnot => absurd hmem hnot⟩
  rw [Cursor.lastAnswer_stay]
  exact h.last

end Looking

/-! ### The histories of one name -/

section Own

variable {x name : List UInt8} {sym : ℕ} {H : List DlCall}

theorem own_next_self : own x (H ++ [.next x sym]) = own x H ++ [.next sym] := by
  simp [own]

theorem own_resolve_self : own x (H ++ [.resolve x]) = own x H ++ [.stay] := by
  simp [own]

/-- A call for another name is none for `x`. -/
theorem own_of_ne {c : DlCall} (h : c.name ≠ x) : own x (H ++ [c]) = own x H := by
  cases c with
  | next name sym => simp [own, show name ≠ x from h]
  | resolve name => simp [own, show name ≠ x from h]

theorem mem_namesOf_snoc {c : DlCall} : x ∈ namesOf (H ++ [c]) ↔ x = c.name ∨ x ∈ namesOf H := by
  simp [namesOf, eq_comm]

theorem mem_namesOf_of_mem (h : .next name sym ∈ H) : name ∈ namesOf H := by
  rw [namesOf, List.mem_toFinset, List.mem_map]
  exact ⟨_, h, rfl⟩

end Own

/-! ### What every run keeps -/

section Run

variable {env : DlEnv} {s s' : Dllookup} {H : List DlCall} {es : List DlEntry} {e : DlEntry}
  {x : List UInt8} {symname sym : ℕ}

/-- The entries `es` of a cache agree with the history. -/
structure Caches (env : DlEnv) (s : Dllookup) (H : List DlCall) (es : List DlEntry) : Prop where
  rep : DlRep (dlReady s) es
  ready : H ≠ [] → dlReady s = s
  names : ∀ x, x ∈ namesOf H ↔ x ∈ es.map DlEntry.symname
  knows : ∀ x, Knows env x (own x H) (findEntry es x)
  cycles : ∀ x, Cursor.Cycles (definers env x) 0 (own x H)

/-- Memory outside of the cache changes. -/
theorem DlRep.outside (h : DlRep s es) {mem : Mem} (hmem : ∀ a, ¬ Outside s a → mem a = s.mem a) :
    DlRep { s with mem := mem } es := by
  have hin : ∀ k < dlStaticSize * dlentrySize, mem (s.unEntries + k) = s.mem (s.unEntries + k) := by
    intro k hk
    refine hmem _ ?_
    rintro (hlt | hge)
    · omega
    · omega
  have hslot : ∀ i e, es[i]? = some e → ∀ k < dlentrySize,
      mem (dlSlot s i + k) = s.mem (dlSlot s i + k) := by
    intro i e he k hk
    have hi := (List.getElem?_eq_some_iff.mp he).1
    have hmul := Nat.mul_le_mul_right dlentrySize (hi.trans_le h.length_le)
    rw [Nat.succ_mul] at hmul
    rw [dlSlot, Nat.add_assoc]
    exact hin _ (by omega)
  refine ⟨h.capacity, h.union_pos, fun k hk => ?_, fun i e he => ?_, h.nodup, h.length_le, ?_⟩
  · show (mem _).isSome = true
    rw [hin k hk]
    exact h.union k hk
  · exact (h.entries i e he).congr (hslot i e he)
  · refine h.filled.congr ?_
    rintro k ⟨i, e, he, hkey, hsize⟩
    have hshort := (h.entries i e he).short
    refine bytesAt_congr fun m hm => ?_
    rw [hkey]
    refine hslot i e he m ?_
    simp only [dlentrySize]
    omega

/-- There is one entry for each name. -/
theorem Caches.card (h : Caches env s H es) : (namesOf H).card = es.length := by
  have hnames : namesOf H = (es.map DlEntry.symname).toFinset := by
    ext y
    rw [h.names, List.mem_toFinset]
  rw [hnames, List.toFinset_card_of_nodup h.rep.nodup, List.length_map]

/-- A name without an entry fits into the cache. -/
theorem Caches.room (h : Caches env s H es) (hx : findEntry es x = none)
    (hle : (insert x (namesOf H)).card ≤ dlStaticSize) :
    x ∉ namesOf H ∧ es.length < dlStaticSize := by
  have hnew : x ∉ namesOf H := by
    rw [h.names]
    exact findEntry_eq_none.mp hx
  rw [Finset.card_insert_of_notMem hnew, h.card] at hle
  exact ⟨hnew, hle⟩

/-- A call for `x` changes the entry of `x` only. -/
theorem Caches.call {c : DlCall} {es' : List DlEntry} (h : Caches env s H es) (hname : c.name = x)
    (hrep : DlRep s' es')
    (hfind : findEntry es' = Function.update (findEntry es) x (some e))
    (hlooking : Looking env x (own x (H ++ [c])) e)
    (hcycles : Cursor.Cycles (definers env x) 0 (own x (H ++ [c]))) :
    Caches env s' (H ++ [c]) es' := by
  have hready := hrep.dlReady_eq
  refine ⟨by rw [hready]; exact hrep, fun _ => hready, fun y => ?_, fun y => ?_, fun y => ?_⟩
  all_goals by_cases hy : y = x
  · subst hy
    rw [mem_namesOf_snoc]
    have hsome : findEntry es' y ≠ none := by
      rw [hfind, Function.update_self]
      simp
    rw [ne_eq, findEntry_eq_none, not_not] at hsome
    exact ⟨fun _ => hsome, fun _ => .inl hname.symm⟩
  · have hkeep : findEntry es' y = findEntry es y := by rw [hfind, Function.update_of_ne hy]
    have hmem : y ∈ es'.map DlEntry.symname ↔ y ∈ es.map DlEntry.symname := by
      rw [← not_iff_not, ← findEntry_eq_none, hkeep, findEntry_eq_none]
    rw [mem_namesOf_snoc, hname, hmem, h.names, or_iff_right hy]
  · subst hy
    rw [hfind, Function.update_self]
    exact hlooking
  · rw [own_of_ne (by rw [hname]; exact Ne.symm hy), hfind, Function.update_of_ne hy]
    exact h.knows y
  · subst hy
    exact hcycles
  · rw [own_of_ne (by rw [hname]; exact Ne.symm hy)]
    exact h.cycles y

/-- A lookup returns. -/
theorem Caches.total_next (h : Caches env s H es) (hcalloc : ∀ n, env.calloc n = true)
    (hallowed : Allowed s H (.next symname x)) (hok : KeepsRight env s H (.next symname x)) :
    Total (dlsymNext env symname) (fun sym s' => ∃ es', Caches env s' (H ++ [.next x sym]) es') s := by
  obtain ⟨hstring, hshort, hcard⟩ := hallowed
  obtain ⟨hprobe, hinsert, hwrap⟩ := hok
  have hnew : findEntry es x = none → es.length < dlStaticSize ∧
      InsertRight ⟨s.mem, env.memcmp⟩ (dlReady s).ht ⟨symname, x.length⟩ := by
    intro hx
    obtain ⟨hnotMem, hlt⟩ := h.room hx hcard
    exact ⟨hlt, hinsert hnotMem⟩
  refine (dlsymNext_spec h.rep hstring.strAt hshort hprobe hnew hcalloc).mono ?_
  rintro sym s' ⟨rfl, -, es', hrep, hfind⟩
  obtain ⟨hlooking, hcycles⟩ := (h.knows x).next (h.cycles x) hwrap
  rw [← own_next_self] at hlooking hcycles
  exact ⟨es', h.call rfl hrep hfind hlooking hcycles⟩

/-- A resolution returns. -/
theorem Caches.total_resolve (h : Caches env s H es) (hallowed : Allowed s H (.resolve symname x))
    (hok : KeepsRight env s H (.resolve symname x)) :
    Total (dlresolve env symname) (fun _ s' => ∃ es', Caches env s' (H ++ [.resolve x]) es') s := by
  obtain ⟨hstring, sym, hmem⟩ := hallowed
  have hready := h.ready (List.ne_nil_of_mem hmem)
  have hrep := h.rep
  rw [KeepsRight, hready] at hok
  rw [hready] at hrep
  -- the name was looked up, and has an entry
  obtain ⟨e, hx⟩ : ∃ e, findEntry es x = some e := by
    rw [← Option.ne_none_iff_exists', ne_eq, findEntry_eq_none, not_not, ← h.names]
    exact mem_namesOf_of_mem hmem
  have hlooking := h.knows x
  rw [hx] at hlooking
  refine (dlresolve_spec hrep hstring.strAt hok hx).mono ?_
  rintro _ s' ⟨-, es', hrep', hfind⟩
  have hresolved := Looking.resolve hlooking
  have hcycles := (h.cycles x).stay
  rw [← own_resolve_self] at hresolved hcycles
  exact ⟨es', h.call rfl hrep' hfind hresolved hcycles⟩

/-- Every run that keeps right. -/
theorem DlRun.caches (hcalloc : ∀ n, env.calloc n = true) (h : DlRun env (KeepsRight env) s H) :
    ∃ es, Caches env s H es := by
  induction h with
  | start hcap hpos hunion =>
    refine ⟨[], dlRep_nil hpos hunion hcap, fun hne => absurd rfl hne, fun x => by simp [namesOf],
      fun x => rfl, fun x => Cursor.cycles_nil⟩
  | @outside s H mem _ hmem ih =>
    obtain ⟨es, hes⟩ := ih
    have hready : dlReady { s with mem := mem } = { dlReady s with mem := mem } := by
      rw [dlReady, dlReady]
      split_ifs <;> rfl
    refine ⟨es, ?_, fun hne => ?_, hes.names, hes.knows, hes.cycles⟩
    · rw [hready]
      refine hes.rep.outside fun a ha => ?_
      rw [dlReady_mem]
      refine hmem a fun hout => ha ?_
      rwa [Outside, dlReady_unEntries]
    · rw [hready, hes.ready hne]
  | next _ hallowed hok hret ih =>
    obtain ⟨es, hes⟩ := ih
    exact (hes.total_next hcalloc hallowed hok).of_returns hret
  | resolve _ hallowed hok hret ih =>
    obtain ⟨es, hes⟩ := ih
    exact (hes.total_resolve hallowed hok).of_returns hret

/-- In every run whose calls keep right, the lookups of each name cycle through the
libraries that define it until it is resolved, and then stay, and all calls return; what
a lookup answers depends on the calls for the same name only. -/
theorem dlsym_next_cycles (hcalloc : ∀ n, env.calloc n = true)
    (h : DlRun env (KeepsRight env) s H) :
    DlCycles env (KeepsRight env) s H ∧ ∀ s' H', DlRun env (KeepsRight env) s' H' →
      ∀ x, Cursor.kinds (own x H) = Cursor.kinds (own x H') → own x H = own x H' := by
  obtain ⟨es, hes⟩ := h.caches hcalloc
  refine ⟨⟨hes.cycles, fun symname name hallowed hok => ?_, fun symname name hallowed hok => ?_⟩,
    fun s' H' h' x hkinds => ?_⟩
  · obtain ⟨sym, s', hret, -⟩ := hes.total_next hcalloc hallowed hok
    exact ⟨sym, s', hret⟩
  · obtain ⟨_, s', hret, -⟩ := hes.total_resolve hallowed hok
    exact ⟨s', hret⟩
  · obtain ⟨es', hes'⟩ := h'.caches hcalloc
    exact (hes.cycles x).eq_of_kinds (hes'.cycles x) hkinds

/-- Where `cldm_memcmp` is exact, any run goes on with any lookup. -/
theorem DlRun.exists_next (hcalloc : ∀ n, env.calloc n = true)
    (hexact : ∀ mem, MemcmpExact ⟨mem, env.memcmp⟩) (h : DlRun env (KeepsRight env) s H)
    (hnonzero : 0 ∉ x) (hshort : x.length < dlMaxSymname)
    (hcard : (insert x (namesOf H)).card ≤ dlStaticSize) (hwrap : NoWrap env x (own x H)) :
    ∃ sym s', DlRun env (KeepsRight env) s' (H ++ [.next x sym]) := by
  -- the caller writes the name behind the cache
  let symname := s.unEntries + dlStaticSize * dlentrySize
  let mem : Mem := store s.mem symname (x ++ [0])
  have hframe : ∀ a, ¬ Outside s a → mem a = s.mem a := by
    intro a ha
    rw [Outside, not_or] at ha
    exact store_of_notMem (by omega)
  have hrun : DlRun env (KeepsRight env) { s with mem := mem } H := h.outside hframe
  have hallowed : Allowed { s with mem := mem } H (.next symname x) :=
    ⟨⟨strAt_store hnonzero, fun i _ => .inr (Nat.le_add_right _ _)⟩, hshort, hcard⟩
  have hok : KeepsRight env { s with mem := mem } H (.next symname x) :=
    ⟨(hexact mem).tells .., fun _ => (hexact mem).insertRight .., hwrap⟩
  obtain ⟨es, hes⟩ := hrun.caches hcalloc
  obtain ⟨sym, s', hret, -⟩ := hes.total_next hcalloc hallowed hok
  exact ⟨sym, s', hrun.next hallowed hok hret⟩

end Run

/-! ### Two lookups of one name -/

/-- Two libraries that define the name `f`. -/
def twoLibs : DlEnv where
  memcmp := bytesDiff
  alloc := oneBlock
  calloc _ := true
  ndlhandles := 2
  dlsym i name := if i < 2 ∧ name = [102] then some (1000 * (i + 1)) else none
  ndlhandles_le := by decide
  dlsym_lt := by
    intro i name addr h
    split_ifs at h with hi
    obtain rfl := Option.some.inj h
    omega

/-- An empty cache in zeroed memory, before its first use. -/
def dlStart : Dllookup where
  mem a := if 4096 ≤ a ∧ a < 4096 + dlStaticSize * dlentrySize then some 0 else none
  ht := htInit
  unEntries := 4096
  capacity := 0

theorem dlRun_dlStart (env : DlEnv) (ok : Dllookup → List DlCall → DlAsk → Prop) :
    DlRun env ok dlStart [] := by
  have hpos : htVacant < dlStart.unEntries := by decide
  refine .start rfl hpos fun i hi => ?_
  show (if _ then _ else _ : Option UInt8).isSome = true
  rw [if_pos ⟨Nat.le_add_right _ _, Nat.add_lt_add_left hi _⟩]
  rfl

theorem dlsym_next_cycles_run : ∃ s, DlCycles twoLibs (KeepsRight twoLibs) s
    [.next [102] 1000, .next [102] 2000] := by
  have hdefs : definers twoLibs [102] = [1000, 2000] := by decide
  have hexact : ∀ mem, MemcmpExact ⟨mem, twoLibs.memcmp⟩ := fun _ => byteEnv_exact
  have hstart := dlRun_dlStart twoLibs (KeepsRight twoLibs)
  obtain ⟨a, s₁, h₁⟩ := hstart.exists_next (x := [102]) (fun _ => rfl) hexact (by decide) (by decide)
    (by decide) fun _ => .inr (by decide)
  obtain ⟨b, s₂, h₂⟩ := h₁.exists_next (x := [102]) (fun _ => rfl) hexact (by decide) (by decide)
    (by simp [namesOf, DlCall.name]) fun _ => .inr (by rw [hdefs]; simp [own, twoLibs])
  have hcycles := (dlsym_next_cycles (fun _ => rfl) h₂).1
  have hmoves := (hcycles.cycles [102]).moves
  rw [hdefs] at hmoves
  obtain rfl : a = 1000 := hmoves [] a [.next b] rfl List.not_mem_nil
  obtain rfl : b = 2000 := hmoves [.next 1000] b [] rfl (by simp)
  exact ⟨s₂, hcycles⟩

/-! ### The portable `cldm_memcmp` -/

/-- The loop of the portable `cldm_memcmp`, which never moves its pointers on: `diff` is
the difference of the first bytes in every turn. -/
def memcmpLoop (a b : UInt8) : ℕ → ℤ → ℤ
  | 0, diff => diff
  | n + 1, diff => if diff = 0 then memcmpLoop a b n (a.toNat - b.toNat) else diff

attribute [grind =] memcmpLoop

/-- `cldm_memcmp` of the builds without AVX2. -/
def portableMemcmp (s0 s1 : List UInt8) : ℤ :=
  memcmpLoop (s0.headD 0) (s1.headD 0) s0.length 0

section Fuel

variable {env : DlEnv} {σ : Type}

theorem FuelMono.onHt {β : Type} {f : ℕ → Prog Ht β} (h : FuelMono f) :
    FuelMono fun n => onHt (f n) := by
  intro n s r hr
  obtain ⟨⟨b, ht⟩, hx, rfl⟩ := Option.map_eq_some_iff.mp hr
  exact Option.map_eq_some_iff.mpr ⟨_, h n _ _ hx, rfl⟩

theorem fuelMono_dlsymProbe (name : List UInt8) (probeidx : ℕ) :
    FuelMono (dlsymProbe env name probeidx : ℕ → Prog σ (ℕ × ℕ)) :=
  .loop (fun r => .const (dlsymProbeBody env name r)) _

theorem fuelMono_strscpy (dst src dstsize : ℕ) : FuelMono (strscpy dst src dstsize) :=
  (FuelMono.const _).bind fun _ => (fuelMono_strlen _ _).bind fun _ => .const _

theorem fuelMono_dllookupMove (addr : ℕ) :
    FuelMono (dllookupMove env.memcmp env.calloc addr) := by
  have hbody : ∀ i, FuelMono fun n => dlReindexBody env.memcmp env.calloc n i := fun i =>
    (FuelMono.const _).bind fun _ => .ite _ ((FuelMono.const _).bind fun _ =>
      (fuelMono_strlen _ _).bind fun _ =>
        (FuelMono.onHt (fuelMono_htInsert _ _)).bind fun _ => .const _) (.const _)
  exact (FuelMono.const _).bind fun _ => (FuelMono.const _).bind fun _ =>
    (FuelMono.const _).bind fun _ => (FuelMono.loop hbody 0).bind fun _ => .const _

theorem fuelMono_dllookupEnsureCapacity :
    FuelMono (dllookupEnsureCapacity env.memcmp env.alloc env.calloc) := by
  refine (FuelMono.const _).bind fun s => .ite _ (.const _) (.ite _ ?_ ?_)
  · cases env.alloc.malloc s.mem (2 * s.capacity * dlentrySize % sizeMod) with
    | none => exact .const _
    | some r =>
      exact (FuelMono.const _).bind fun _ => (FuelMono.const _).bind fun _ =>
        (FuelMono.const _).bind fun _ => fuelMono_dllookupMove _
  · refine (FuelMono.const _).bind fun dyn => ?_
    cases env.alloc.realloc s.mem dyn (s.capacity * dlentrySize)
        (2 * s.capacity * dlentrySize % sizeMod) with
    | none => exact .const _
    | some r => exact (FuelMono.const _).bind fun _ => fuelMono_dllookupMove _

theorem fuelMono_dlsymNext (symname : ℕ) : FuelMono (dlsymNext env symname) := by
  have hagain : ∀ name dlentry, FuelMono (dlsymAgain env name dlentry) := fun name dlentry =>
    (FuelMono.const _).bind fun _ => .ite _ (.const _)
      ((fuelMono_dlsymProbe _ _).bind fun _ => .const _)
  have hfirst : ∀ name, FuelMono (dlsymFirst env symname name) := fun name =>
    (fuelMono_dlsymProbe _ _).bind fun _ => fuelMono_dllookupEnsureCapacity.bind fun _ =>
      .ite _ ((FuelMono.const _).bind fun _ => (FuelMono.const _).bind fun _ =>
        (fuelMono_strscpy _ _ _).bind fun _ => .ite _ (.const _)
          ((FuelMono.const _).bind fun _ => (FuelMono.const _).bind fun _ =>
            (FuelMono.const _).bind fun _ => (fuelMono_strlen _ _).bind fun _ =>
              (FuelMono.onHt (fuelMono_htInsert _ _)).bind fun _ => .const _)) (.const _)
  refine (FuelMono.const _).bind fun s => (FuelMono.const _).bind fun _ =>
    (FuelMono.const _).bind fun s => (fuelMono_strlen _ _).bind fun _ =>
      (FuelMono.const _).bind fun name => (FuelMono.onHt fuelMono_htFind).bind fun r => ?_
  cases r with
  | none => exact hfirst name
  | some idx => exact hagain name _

end Fuel

/-- A library that defines `free` and `fork`, and the portable `cldm_memcmp`. -/
def forkLib : DlEnv where
  memcmp := portableMemcmp
  alloc := oneBlock
  calloc _ := true
  ndlhandles := 1
  dlsym i name :=
    if name = [102, 114, 101, 101] then some 1000
    else if name = [102, 111, 114, 107] then some 2000 else none
  ndlhandles_le := by decide
  dlsym_lt := by
    intro i name addr h
    split_ifs at h
    all_goals
      obtain rfl := Option.some.inj h
      decide

/-- An unused cache, `free` at address 64 and `fork` at address 128. -/
def forkStart : Dllookup :=
  { dlStart with
    mem := store (store dlStart.mem 64 [102, 114, 101, 101, 0]) 128 [102, 111, 114, 107, 0] }

/-- The lookup of `free` answers with its address; the lookup of `fork` then comes to the
entry of `free`, whose first byte and length are the same, and moves that one on. -/
theorem forkStart_lookups : (dlsymNext forkLib 64 40 forkStart).map (fun r =>
    (r.1, r.2.unEntries, bytesAt r.2.mem 128 5, (dlsymNext forkLib 128 40 r.2).map Prod.fst)) =
      some (1000, 4096, some [102, 111, 114, 107, 0], some 0) := by
  decide +kernel

/-- With the portable `cldm_memcmp`, a name may get the answers of another one. -/
theorem dlsym_next_conflates : ¬ ∀ env s H,
    (env.memcmp = bytesDiff ∨ env.memcmp = portableMemcmp) → (∀ n, env.calloc n = true) →
      DlRun env (fun _ _ _ => True) s H → DlCycles env (fun _ _ _ => True) s H := by
  intro hclaim
  have hlookups := forkStart_lookups
  rw [Option.map_eq_some_iff] at hlookups
  obtain ⟨⟨a, s₁⟩, hfree, hfacts⟩ := hlookups
  simp only [Prod.mk.injEq, Option.map_eq_some_iff] at hfacts
  obtain ⟨rfl, hunion, hname, ⟨b, s₂⟩, hfork, rfl⟩ := hfacts
  have hframe : ∀ a, ¬ Outside dlStart a → forkStart.mem a = dlStart.mem a := by
    intro a ha
    rw [Outside, not_or] at ha
    have hpos : dlStart.unEntries = 4096 := rfl
    rw [hpos] at ha
    exact (store_of_notMem (.inr (by simp only [List.length_cons, List.length_nil]; omega))).trans
      (store_of_notMem (.inr (by simp only [List.length_cons, List.length_nil]; omega)))
  have hrun₀ : DlRun forkLib (fun _ _ _ => True) forkStart [] :=
    (dlRun_dlStart forkLib fun _ _ _ => True).outside hframe
  have hallowed₀ : Allowed forkStart [] (.next 64 [102, 114, 101, 101]) := by
    refine ⟨⟨⟨by decide, by decide⟩, fun i hi => .inl ?_⟩, by decide, by decide⟩
    have hi' : i ≤ 4 := hi
    show 64 + i < 4096
    omega
  have hrun₁ := hrun₀.next hallowed₀ trivial ((fuelMono_dlsymNext 64).returns hfree)
  have hallowed₁ : Allowed s₁ [.next [102, 114, 101, 101] 1000] (.next 128 [102, 111, 114, 107]) := by
    refine ⟨⟨⟨hname, by decide⟩, fun i hi => .inl ?_⟩, by decide, by decide⟩
    have hi' : i ≤ 4 := hi
    rw [hunion]
    omega
  have hrun₂ := hrun₁.next hallowed₁ trivial ((fuelMono_dlsymNext 128).returns hfork)
  have hcycles := (hclaim forkLib s₂ _ (.inr rfl) (fun _ => rfl) hrun₂).cycles [102, 111, 114, 107]
  have hsym := hcycles.moves [] 0 [] rfl List.not_mem_nil
  exact absurd hsym (by decide)

end Cldm
