/-
Collecting the tests that are given on the command line: `cldm_collect_from`.

Whether an identifier is valid is noted in its terminator.  A mark goes to the first
zero byte from the identifier on, so that marks behave like cars that park: an
identifier that is marked twice marks a byte behind it.

* `markTerminator_spec` — where a mark is made;
* `register_spec`, `matchRecord_spec`, `check_spec` — the three loops;
* `collectFrom_spec` — what a call does, by the marks that it makes and by what the
  scan of the build finds of them.
-/
import Cldm.CollectAll
import Cldm.Parking

namespace Cldm

open Prog Bytes Parking Space Avx2 Byteseq

variable {env : CollectEnv} {mem mem₀ : Mem} {c : ElfContents} {s s' : CollectState}
  {args : List StrPtr} {T : Finset ℕ} {W : Set (List UInt8)}

/-! ### Marks -/

/-- Zero bytes are spots for marks; a mark cannot pass one that cannot be written,
nor an address without memory. -/
def street (writable : ℕ → Bool) (mem : Mem) : Street where
  Spot a := mem a = some 0 ∧ writable a = true
  Wall a := mem a = none ∨ mem a = some 0 ∧ writable a = false
  not_both := by
    rintro a ⟨h₁, h₂⟩ (h | ⟨-, h⟩)
    · rw [h₁] at h
      exact absurd h (by simp)
    · rw [h₂] at h
      exact absurd h (by simp)

/-- The memory with marks at the addresses `T`. -/
def marked (mem : Mem) (T : Finset ℕ) : Mem := fun a => if a ∈ T then some 1 else mem a

theorem marked_empty (mem : Mem) : marked mem ∅ = mem := by
  funext a
  rw [marked, if_neg (Finset.notMem_empty a)]

theorem store_marked {q : ℕ} : Bytes.store (marked mem T) q [1] = marked mem (insert q T) := by
  funext a
  by_cases ha : a = q
  · subst ha
    rw [store_of_mem (by simp), Nat.sub_self, marked, if_pos (Finset.mem_insert_self ..)]
    rfl
  · rw [store_of_notMem (by simp only [List.length_singleton]; omega), marked, marked]
    simp only [Finset.mem_insert, ha, false_or]

/-- Marks leave everything but zero bytes alone. -/
theorem marked_of_ne {a : ℕ} (hT : ∀ t ∈ T, mem t = some 0) (ha : mem a ≠ some 0) :
    marked mem T a = mem a := by
  rw [marked, if_neg]
  exact fun h => ha (hT a h)

theorem bytesAt_marked {p n : ℕ} {bs : List UInt8} (hT : ∀ t ∈ T, mem t = some 0)
    (h : bytesAt mem p n = some bs) (hbs : 0 ∉ bs) : bytesAt (marked mem T) p n = some bs := by
  obtain ⟨hlen, hget⟩ := bytesAt_eq_iff.mp h
  refine bytesAt_eq_iff.mpr ⟨hlen, fun i hi => ?_⟩
  rw [marked_of_ne hT, hget i hi]
  rw [hget i hi, List.getElem?_eq_getElem (by omega)]
  intro h0
  exact hbs (Option.some.inj h0 ▸ List.getElem_mem _)

theorem part_marked {writable : ℕ → Bool} (hT : ∀ t ∈ T, writable t = true) :
    Bytes.Part (readOnly writable mem) (marked mem T) := by
  intro a b h
  rw [readOnly] at h
  split_ifs at h with hw
  rw [marked, if_neg]
  · exact h
  · exact fun ha => hw (hT a ha)

/-- The string from `p` on ends at the first free spot. -/
theorem stringAt_marked {writable : ℕ → Bool} {p q : ℕ} (hT : ∀ t ∈ T, (street writable mem).Spot t)
    (hq : FirstFree (street writable mem) T p q) : StringAt (marked mem T) p (q - p) := by
  have hle := hq.le
  constructor
  · rw [show p + (q - p) = q by omega, marked, if_neg hq.free]
    exact hq.spot.1
  · intro i hi
    obtain ⟨hwall, hspot⟩ := hq.between (p + i) (by omega) (by omega)
    cases hb : mem (p + i) with
    | none => exact absurd (.inl hb) hwall
    | some b =>
      by_cases h0 : b = 0
      · subst h0
        have hw : writable (p + i) = true := by
          by_contra hw
          exact hwall (.inr ⟨hb, Bool.eq_false_iff.mpr hw⟩)
        exact ⟨1, by rw [marked, if_pos (hspot ⟨hb, hw⟩)], by decide⟩
      · refine ⟨b, ?_, h0⟩
        rw [marked_of_ne (fun t ht => (hT t ht).1), hb]
        rw [hb]
        exact fun h => h0 (Option.some.inj h)

theorem fuelMono_markTerminator (p : ℕ) : FuelMono (markTerminator env p) :=
  (FuelMono.const _).bind fun _ => FuelMono.bind (fuelMono_strlen _ _) fun _ => .const _

/-- A mark is made at the first free spot, or not at all. -/
theorem markTerminator_spec (hT : ∀ t ∈ T, (street env.writable mem).Spot t)
    (hmem : s.mem = marked mem T) {p : ℕ} {F : Prop}
    (hF : (¬ ∃ q, FirstFree (street env.writable mem) T p q) → F) :
    Settles (markTerminator env p) (fun _ s' => ∃ q,
      FirstFree (street env.writable mem) T p q ∧
        s' = { s with mem := marked mem (insert q T) }) F s := by
  by_cases hex : ∃ q, FirstFree (street env.writable mem) T p q
  · obtain ⟨q, hq⟩ := hex
    have hle := hq.le
    have hstr : StringAt s.mem p (q - p) := by
      rw [hmem]
      exact stringAt_marked hT hq
    refine .inl (Total.wp_bind ((wp_get ..).mpr (Total.bind ((strlen_spec hstr s).mono ?_))))
    rintro n _ ⟨rfl, rfl⟩
    refine Total.const ⟨(), _, ?_, q, hq, rfl⟩
    rw [writeByte, show p + (q - p) = q by omega, if_pos, hmem, store_marked]
    refine ⟨hq.spot.2, ?_⟩
    rw [hmem, marked, if_neg hq.free, hq.spot.1]
    rfl
  · refine .inr ⟨hF hex, fun n => ?_⟩
    by_contra hne
    obtain ⟨⟨u, s''⟩, hret⟩ := Option.ne_none_iff_exists'.mp hne
    obtain ⟨s₀, s₁, hget, hret⟩ := bind_eq_some.mp hret
    obtain ⟨rfl, rfl⟩ := Prod.mk.inj (Option.some.inj hget)
    obtain ⟨len, s₂, hlen, hwrite⟩ := bind_eq_some.mp hret
    have hstr := stringAt_of_strlen hlen
    rw [writeByte] at hwrite
    split_ifs at hwrite with hw
    rw [hmem] at hstr
    -- the byte that is written is the first free spot
    have hfree : p + len ∉ T ∧ mem (p + len) = some 0 := by
      have h0 := hstr.1
      rw [marked] at h0
      split_ifs at h0 with hin
      · exact absurd (Option.some.inj h0) (by decide)
      · exact ⟨hin, h0⟩
    refine hex ⟨p + len, by omega, ⟨hfree.2, hw.1⟩, hfree.1, fun a h₁ h₂ => ?_⟩
    obtain ⟨b, hb, hne⟩ := hstr.2 (a - p) (by omega)
    rw [show p + (a - p) = a by omega, marked] at hb
    split_ifs at hb with hin
    · refine ⟨?_, fun _ => hin⟩
      exact (street env.writable mem).not_both a (hT a hin)
    · refine ⟨?_, ?_⟩
      · rintro (h | ⟨h, -⟩)
        · rw [h] at hb
          exact absurd hb (by simp)
        · rw [h] at hb
          exact hne (Option.some.inj hb).symm
      · rintro ⟨h, -⟩
        rw [h] at hb
        exact absurd (Option.some.inj hb).symm hne

/-! ### Identifiers -/

/-- The address of the terminator. -/
def StrPtr.term (a : StrPtr) : ℕ := a.addr + a.bytes.length

/-- The identifiers lie in memory as the arguments of a program: they can be written,
they do not overlap, and an `int` counts them. -/
structure ArgsAt (env : CollectEnv) (mem : Mem) (args : List StrPtr) : Prop where
  strAt : ∀ a ∈ args, a.In mem
  writable : ∀ a ∈ args, ∀ i ≤ a.bytes.length, env.writable (a.addr + i) = true
  addr : ∀ a ∈ args, htVacant < a.addr
  apart : args.Pairwise fun a b => a.term < b.addr ∨ b.term < a.addr
  few : args.length < 2 ^ 31
  short : ∀ a ∈ args, a.bytes.length < 2 ^ 32

/-- The identifiers that repeat one of `seen` or an earlier one. -/
def repeatsFrom (seen : List (List UInt8)) : List StrPtr → List StrPtr
  | [] => []
  | a :: args =>
    if a.bytes ∈ seen then a :: repeatsFrom seen args
    else repeatsFrom (a.bytes :: seen) args

attribute [grind =] repeatsFrom

/-- The identifiers that repeat an earlier one. -/
def repeats (args : List StrPtr) : List StrPtr := repeatsFrom [] args

/-- The first identifier with the bytes `w`. -/
def firstWith (args : List StrPtr) (w : List UInt8) : Option StrPtr :=
  args.find? fun a => a.bytes = w

/-- The identifier that a record is matched with: that of its file, or else that of
its name. -/
def hitOf (env : CollectEnv) (args : List StrPtr) (r : ℕ) : Option StrPtr :=
  [(env.records r).file.basename, (env.records r).name].findSome? fun s => firstWith args s.bytes

/-- The identifiers that are marked, in order: the repeated ones, and one for each
record that is matched. -/
def marks (env : CollectEnv) (args : List StrPtr) (rs : List ℕ) : List StrPtr :=
  repeats args ++ rs.filterMap (hitOf env args)

theorem repeatsFrom_append (seen : List (List UInt8)) (args : List StrPtr) (a : StrPtr) :
    repeatsFrom seen (args ++ [a]) = repeatsFrom seen args ++
      if a.bytes ∈ seen ∨ ∃ b ∈ args, b.bytes = a.bytes then [a] else [] := by
  induction args generalizing seen with
  | nil => simp [repeatsFrom]
  | cons b args ih =>
    rw [List.cons_append, repeatsFrom, repeatsFrom]
    by_cases hb : b.bytes ∈ seen
    · rw [if_pos hb, if_pos hb, ih, List.cons_append]
      congr 2
      simp only [List.mem_cons, exists_eq_or_imp]
      by_cases hba : b.bytes = a.bytes
      · simp [← hba, hb]
      · simp [hba]
    · rw [if_neg hb, if_neg hb, ih]
      congr 1
      simp only [List.mem_cons, exists_eq_or_imp]
      by_cases hba : b.bytes = a.bytes
      · simp [hba]
      · have : ¬ a.bytes = b.bytes := fun h => hba h.symm
        simp [hba, this]

theorem repeatsFrom_sublist (seen : List (List UInt8)) (args : List StrPtr) :
    (repeatsFrom seen args).Sublist args := by
  induction args generalizing seen with
  | nil => exact List.Sublist.refl _
  | cons b args ih =>
    rw [repeatsFrom]
    split_ifs
    · exact (ih _).cons_cons _
    · exact (ih _).cons _

theorem firstWith_some {w : List UInt8} {a : StrPtr} (h : firstWith args w = some a) :
    a ∈ args ∧ a.bytes = w :=
  ⟨List.mem_of_find?_eq_some h, by simpa using List.find?_some h⟩

theorem firstWith_isSome {w : List UInt8} :
    (firstWith args w).isSome = true ↔ ∃ a ∈ args, a.bytes = w := by
  simp [firstWith]

theorem mem_of_hitOf {r : ℕ} {a : StrPtr} (h : hitOf env args r = some a) : a ∈ args := by
  obtain ⟨s, -, hs⟩ := List.exists_of_findSome?_eq_some h
  exact (firstWith_some hs).1

theorem hitOf_isSome {r : ℕ} : (hitOf env args r).isSome = true ↔
    ∃ a ∈ args, a.bytes = (env.records r).file.basename.bytes ∨
      a.bytes = (env.records r).name.bytes := by
  rw [hitOf, List.findSome?_isSome_iff]
  simp only [List.mem_cons, List.not_mem_nil, or_false, exists_eq_or_imp, exists_eq_left,
    firstWith_isSome]
  constructor
  · rintro (⟨a, ha, h⟩ | ⟨a, ha, h⟩)
    · exact ⟨a, ha, .inl h⟩
    · exact ⟨a, ha, .inr h⟩
  · rintro ⟨a, ha, h | h⟩
    · exact .inl ⟨a, ha, h⟩
    · exact .inr ⟨a, ha, h⟩

theorem mem_of_mem_marks {rs : List ℕ} {a : StrPtr} (h : a ∈ marks env args rs) : a ∈ args := by
  rcases List.mem_append.mp h with h | h
  · exact (repeatsFrom_sublist ..).subset h
  · obtain ⟨r, -, hr⟩ := List.mem_filterMap.mp h
    exact mem_of_hitOf hr

/-- The first place for a mark of an identifier is its own terminator. -/
theorem ArgsAt.firstFree (h : ArgsAt env mem args) {a : StrPtr} (ha : a ∈ args)
    (hfree : a.term ∉ T) : FirstFree (street env.writable mem) T a.addr a.term := by
  have hstr := (h.strAt a ha).stringAt
  refine ⟨Nat.le_add_right .., ⟨hstr.1, h.writable a ha _ (Nat.le_refl _)⟩, hfree,
    fun x h₁ h₂ => ?_⟩
  obtain ⟨b, hb, hne⟩ := hstr.2 (x - a.addr) (by rw [StrPtr.term] at h₂; omega)
  rw [show a.addr + (x - a.addr) = x by omega] at hb
  refine ⟨?_, fun hspot => ?_⟩
  · rintro (h0 | ⟨h0, -⟩)
    · rw [h0] at hb
      exact absurd hb (by simp)
    · rw [h0] at hb
      exact hne (Option.some.inj hb).symm
  · rw [hspot.1] at hb
    exact absurd (Option.some.inj hb).symm hne

/-- The entries of the hash table: the first identifiers with their bytes. -/
def EntryOf (args : List StrPtr) (e : HtEntry) : Prop :=
  ∃ a, firstWith args a.bytes = some a ∧ e = ⟨a.addr, a.bytes.length⟩

/-- The bytes of the identifiers. -/
def words (args : List StrPtr) : Set (List UInt8) := {w | ∃ a ∈ args, a.bytes = w}

theorem ncard_words_le (args : List StrPtr) : (words args).ncard ≤ args.length := by
  have hset : words args = ↑(args.map StrPtr.bytes).toFinset := by
    ext w
    simp [words]
  rw [hset, Set.ncard_coe_finset]
  exact (List.toFinset_card_le _).trans (by rw [List.length_map])

/-- Marks do not change the keys of the table. -/
theorem ArgsAt.filled (h : ArgsAt env mem args) {T T' : Finset ℕ} {ht : Ht}
    {K : Set (List UInt8)} (hT : ∀ t ∈ T, mem t = some 0) (hT' : ∀ t ∈ T', mem t = some 0)
    (hf : HtFilled (marked mem T) (EntryOf args) ht K) :
    HtFilled (marked mem T') (EntryOf args) ht K := by
  refine hf.congr ?_
  rintro e ⟨a, ha, rfl⟩
  have hbytes := (h.strAt a (firstWith_some ha).1).bytesAt
  rw [bytesAt_marked hT hbytes a.nonzero, bytesAt_marked hT' hbytes a.nonzero]

/-! ### The stored identifiers -/

theorem ArgsAt.term_ne (h : ArgsAt env mem args) {done rest : List StrPtr} {a b : StrPtr}
    (hargs : args = done ++ a :: rest) (hb : b ∈ done) : b.term ≠ a.term := by
  have hapart := h.apart
  rw [hargs] at hapart
  have hba := (List.pairwise_append.mp hapart).2.2 b hb a (List.mem_cons_self ..)
  simp only [StrPtr.term] at hba ⊢
  omega

/-- All identifiers have terminators of their own. -/
theorem ArgsAt.nodup_term (h : ArgsAt env mem args) : (args.map StrPtr.term).Nodup := by
  refine List.pairwise_map.mpr (h.apart.imp fun {a b} hab => ?_)
  simp only [StrPtr.term] at hab ⊢
  omega

/-- An identifier that has not been marked, while the terminators `T` of others
have been overwritten. -/
theorem ArgsAt.strAt_marked (h : ArgsAt env mem args) {a : StrPtr} (ha : a ∈ args)
    (hT : ∀ t ∈ T, (street env.writable mem).Spot t) (hfree : a.term ∉ T) :
    StringAt (marked mem T) a.addr a.bytes.length := by
  have hstr := stringAt_marked hT (h.firstFree ha hfree)
  rwa [StrPtr.term, Nat.add_sub_cancel_left] at hstr

/-- The bytes of an identifier, whatever the marks are. -/
theorem ArgsAt.bytesAt_marked (h : ArgsAt env mem args) {a : StrPtr} (ha : a ∈ args)
    (hT : ∀ t ∈ T, mem t = some 0) :
    bytesAt (marked mem T) a.addr a.bytes.length = some a.bytes :=
  Cldm.bytesAt_marked hT (h.strAt a ha).bytesAt a.nonzero

theorem words_append (args : List StrPtr) (a : StrPtr) :
    words (args ++ [a]) = insert a.bytes (words args) := by
  ext w
  simp only [words, Set.mem_ofPred_eq, Set.mem_insert_iff, List.mem_append, List.mem_singleton]
  constructor
  · rintro ⟨b, hb | rfl, rfl⟩
    · exact .inr ⟨b, hb, rfl⟩
    · exact .inl rfl
  · rintro (rfl | ⟨b, hb, rfl⟩)
    · exact ⟨a, .inr rfl, rfl⟩
    · exact ⟨b, .inl hb, rfl⟩

theorem words_mono {done rest : List StrPtr} (h : args = done ++ rest) :
    words done ⊆ words args := by
  rintro _ ⟨a, ha, rfl⟩
  rw [h]
  exact ⟨a, List.mem_append_left _ ha, rfl⟩

theorem repeats_append (args : List StrPtr) (a : StrPtr) :
    (a.bytes ∈ words args → repeats (args ++ [a]) = repeats args ++ [a]) ∧
      (a.bytes ∉ words args → repeats (args ++ [a]) = repeats args) := by
  have happ := repeatsFrom_append [] args a
  simp only [List.not_mem_nil, false_or] at happ
  constructor
  · rintro ⟨b, hb⟩
    rw [repeats, happ, if_pos ⟨b, hb⟩]
    rfl
  · intro h
    rw [repeats, happ, if_neg (show ¬ ∃ b ∈ args, b.bytes = a.bytes from h), List.append_nil]
    rfl

/-- After the identifiers `done` have been stored: those that repeat an earlier one
are marked. -/
structure Registered (env : CollectEnv) (mem : Mem) (args done : List StrPtr) (T : Finset ℕ)
    (s : CollectState) : Prop where
  parks : Parks (street env.writable mem) ∅ ((repeats done).map StrPtr.addr) T
  terms : ∀ t ∈ T, ∃ a ∈ done, a.term = t
  mem : s.mem = marked mem T
  filled : HtFilled s.mem (EntryOf args) s.ht (words done)

theorem Registered.spot {done : List StrPtr} (h : Registered env mem args done T s) :
    ∀ t ∈ T, (street env.writable mem).Spot t := h.parks.spot (by simp)

theorem Registered.zero {done : List StrPtr} (h : Registered env mem args done T s) :
    ∀ t ∈ T, mem t = some 0 := fun t ht => (h.spot t ht).1

theorem registered_nil (hmem : s.mem = mem) (hht : s.ht = htInit) :
    Registered env mem args [] ∅ s := by
  refine ⟨.nil, by simp, ?_, ?_⟩
  · rw [hmem, marked_empty]
  · rw [hht, show words [] = ∅ from Set.eq_empty_of_forall_notMem fun w hw => by
      obtain ⟨a, ha, -⟩ := hw
      exact absurd ha (by simp)]
    exact htInit_filled ..

theorem registerBody_spec (h : ArgsAt env mem args) (hW : TellsApart env.memcmp W)
    (hwords : words args ⊆ W) (hcalloc : ∀ n, env.calloc n = true)
    {done rest : List StrPtr} {a : StrPtr} (hargs : args = done ++ a :: rest)
    (hreg : Registered env mem args done T s) :
    Total (fun n => registerBody env (args.map StrPtr.addr) n done.length) (fun r s' =>
      r = .inl (done ++ [a]).length ∧ s'.tree = s.tree ∧
        ∃ T', Registered env mem args (done ++ [a]) T' s') s := by
  have ha : a ∈ args := by
    rw [hargs]
    simp
  have hidx : (args.map StrPtr.addr)[done.length]? = some a.addr := by
    rw [hargs]
    simp
  have hlen : done.length + 1 < 2 ^ 31 := by
    have := h.few
    rw [hargs, List.length_append, List.length_cons] at this
    omega
  have hfree : a.term ∉ T := by
    intro hmem
    obtain ⟨b, hb, hbt⟩ := hreg.terms _ hmem
    exact h.term_ne hargs hb hbt
  have hstr : StringAt s.mem a.addr a.bytes.length := by
    rw [hreg.mem]
    exact h.strAt_marked ha hreg.spot hfree
  have hbytes : bytesAt s.mem a.addr a.bytes.length = some a.bytes := by
    rw [hreg.mem]
    exact h.bytesAt_marked ha hreg.zero
  have hkey : keyOf s.mem ⟨a.addr, a.bytes.length⟩ = a.bytes := by
    rw [keyOf, hbytes]
    rfl
  -- the entry of a new key is that of the first identifier with these bytes
  have hentry : a.bytes ∉ words done → EntryOf args ⟨a.addr, a.bytes.length⟩ := by
    intro hnew
    refine ⟨a, ?_, rfl⟩
    rw [firstWith, hargs, List.find?_append, List.find?_eq_none.mpr, List.find?_cons_of_pos]
    · rfl
    · simp
    · intro b hb hba
      exact hnew ⟨b, hb, by simpa using hba⟩
  have hdone : words done ⊆ W := fun w hw => hwords (words_mono hargs hw)
  have hright : InsertRight ⟨s.mem, env.memcmp⟩ s.ht ⟨a.addr, a.bytes.length⟩ :=
    hreg.filled.insertRight hW hdone (by rw [hkey]; exact hwords ⟨a, ha, rfl⟩)
  have hins := hreg.filled.insert hright ⟨_, hbytes⟩ (h.addr a ha)
    ((ncard_words_le done).trans_lt (by omega)) (fun hnew => hentry (by rwa [hkey] at hnew)) hcalloc
  rw [hkey, ← words_append] at hins
  simp only [registerBody, hidx]
  refine Total.wp_bind ((wp_get ..).mpr (Total.bind ((strlen_spec hstr s).mono ?_)))
  rintro n s₁ ⟨rfl, rfl⟩
  refine Total.bind (Total.onTable (hins.mono ?_))
  rintro r ht ⟨hr, hfilled⟩
  have hnext : (done.length + 1) % 2 ^ 32 = (done ++ [a]).length := by
    rw [List.length_append, List.length_singleton]
    omega
  by_cases hold : a.bytes ∈ words done
  · obtain rfl := hr.mpr hold
    have hrep := (repeats_append done a).1 hold
    have hmark := markTerminator_spec (F := False) (s := { s₁ with ht := ht })
      hreg.spot hreg.mem (p := a.addr) fun hno => hno ⟨_, h.firstFree ha hfree⟩
    refine Total.bind ((hmark.total id).mono ?_)
    rintro _ s' ⟨q, hq, rfl⟩
    obtain rfl := hq.unique (h.firstFree ha hfree)
    have hpark := hreg.parks.snoc hq
    refine Total.const ((wp_pure ..).mpr ⟨by rw [hnext], rfl, insert a.term T, ?_, ?_, rfl, ?_⟩)
    · rw [hrep, List.map_append]
      exact hpark
    · intro t ht
      rcases Finset.mem_insert.mp ht with rfl | ht
      · exact ⟨a, by simp, rfl⟩
      · obtain ⟨b, hb, hbt⟩ := hreg.terms t ht
        exact ⟨b, List.mem_append_left _ hb, hbt⟩
    · rw [hreg.mem] at hfilled
      exact h.filled hreg.zero (fun t ht => (hpark.spot (by simp) t ht).1) hfilled
  · have hsome : r.isNone = false := by
      rw [Option.isNone_eq_false_iff, Option.isSome_iff_ne_none]
      exact fun hnone => hold (hr.mp hnone)
    have hrep := (repeats_append done a).2 hold
    simp only [hsome, Bool.false_eq_true, if_false]
    refine Total.const ?_
    simp only [wp_pure]
    refine ⟨by rw [hnext], trivial, T, ?_, ?_, hreg.mem, hfilled⟩
    · rw [hrep]
      exact hreg.parks
    · intro t ht
      obtain ⟨b, hb, hbt⟩ := hreg.terms t ht
      exact ⟨b, List.mem_append_left _ hb, hbt⟩

/-- The loop that stores the identifiers. -/
theorem register_spec (h : ArgsAt env mem args) (hW : TellsApart env.memcmp W)
    (hwords : words args ⊆ W) (hcalloc : ∀ n, env.calloc n = true) (hmem : s.mem = mem)
    (hht : s.ht = htInit) :
    Total (fun n => fuelLoop (registerBody env (args.map StrPtr.addr) n) n 0) (fun _ s' =>
      s'.tree = s.tree ∧ ∃ T, Registered env mem args args T s') s := by
  let J : ℕ → ℕ → CollectState → Prop := fun b i s' => ∃ done rest, args = done ++ rest ∧
    i = done.length ∧ b = rest.length ∧ s'.tree = s.tree ∧ ∃ T, Registered env mem args done T s'
  refine total_loop (I := J) ?_ args.length 0 s
    ⟨[], args, rfl, rfl, rfl, rfl, ∅, registered_nil hmem hht⟩
  rintro b i s' ⟨done, rest, hargs, rfl, rfl, htree, T, hreg⟩
  rcases rest with _ | ⟨a, rest⟩
  · rw [List.append_nil] at hargs
    subst hargs
    have hidx : (args.map StrPtr.addr)[args.length]? = none := by simp
    simp only [registerBody, hidx]
    exact Total.const ((wp_pure ..).mpr ⟨htree, T, hreg⟩)
  · refine (registerBody_spec h hW hwords hcalloc hargs hreg).mono ?_
    rintro r s'' ⟨rfl, htree', T', hreg'⟩
    refine ⟨rest.length, Nat.lt_succ_self _, done ++ [a], rest, ?_, rfl, rfl, ?_, T', hreg'⟩
    · rw [hargs]
      simp
    · rw [htree', htree]

/-! ### The records -/

theorem fuelMono_matchIdentifiers (r : ℕ) (ids : List StrPtr) :
    FuelMono fun n => matchIdentifiers env n r ids := by
  induction ids with
  | nil => exact .const _
  | cons id ids ih =>
    refine (FuelMono.const _).bind fun s => FuelMono.bind (fuelMono_strlen _ _) fun size =>
      FuelMono.bind (FuelMono.onTable fuelMono_htFind) fun entry => ?_
    cases entry with
    | some idx => exact (fuelMono_markTerminator _).bind fun _ => fuelMono_insertRecord r
    | none => exact ih

/-- The identifier that a record is matched with is marked. -/
theorem matchIdentifiers_spec (h : ArgsAt env mem args) (hW : TellsApart env.memcmp W)
    (hwords : words args ⊆ W) {rs : List ℕ} {r : ℕ} {ids : List StrPtr} {F : Prop}
    (hids : ∀ id ∈ ids, id.In (readOnly env.writable mem) ∧ id.bytes ∈ W)
    (hT : ∀ t ∈ T, (street env.writable mem).Spot t) (hmem : s.mem = marked mem T)
    (hfilled : HtFilled s.mem (EntryOf args) s.ht (words args))
    (htree : TreeOf (testrecCompare env.records) rs s.tree)
    (hF : ∀ a, ids.findSome? (fun id => firstWith args id.bytes) = some a →
      (¬ ∃ q, FirstFree (street env.writable mem) T a.addr q) → F) :
    Settles (fun n => matchIdentifiers env n r ids) (fun _ s' =>
      ids.findSome? (fun id => firstWith args id.bytes) = none ∧ s' = s ∨
      ∃ a q, ids.findSome? (fun id => firstWith args id.bytes) = some a ∧
        FirstFree (street env.writable mem) T a.addr q ∧ s'.mem = marked mem (insert q T) ∧
        s'.ht = s.ht ∧ TreeOf (testrecCompare env.records) (rs ++ [r]) s'.tree) F s := by
  have hzero : ∀ t ∈ T, mem t = some 0 := fun t ht => (hT t ht).1
  induction ids with
  | nil => exact .const (.inl ((wp_pure ..).mpr (.inl ⟨rfl, rfl⟩)))
  | cons id ids ih =>
    have hid : StrAt s.mem id.addr id.bytes := by
      rw [hmem]
      exact (part_marked fun t ht => (hT t ht).2).strAt
        (hids id (List.mem_cons_self ..)).1
    have hkey : keyOf s.mem ⟨id.addr, id.bytes.length⟩ = id.bytes := by
      rw [keyOf, hid.bytesAt]
      rfl
    have hright : ProbeRight ⟨s.mem, env.memcmp⟩ s.ht ⟨id.addr, id.bytes.length⟩ :=
      hfilled.probeRight hW hwords (by rw [hkey]; exact (hids id (List.mem_cons_self ..)).2)
    have hfind := hfilled.find hright ⟨_, hid.bytesAt⟩
    rw [hkey] at hfind
    refine .wp_bind ((wp_get ..).mpr (.bind (fuelMono_strlen _ _) (Total.settles ?_)))
    refine (strlen_spec hid.stringAt s).mono ?_
    rintro n s₁ ⟨rfl, rfl⟩
    refine .bind (FuelMono.onTable fuelMono_htFind) (Total.settles (Total.onTable (hfind.mono ?_)))
    rintro entry ht ⟨rfl, hnone, hsome⟩
    rw [List.findSome?_cons] at hF ⊢
    cases entry with
    | none =>
      have hno : firstWith args id.bytes = none := by
        refine Option.not_isSome_iff_eq_none.mp fun hsome => hnone.mp rfl ?_
        exact firstWith_isSome.mp hsome
      rw [hno] at hF ⊢
      exact ih (fun id hid => hids id (List.mem_cons_of_mem _ hid)) hF
    | some idx =>
      obtain ⟨⟨a, ha, hslot⟩, hslotkey⟩ := hsome idx rfl
      have hbytes : a.bytes = id.bytes := by
        rw [hslot, keyOf, hmem, h.bytesAt_marked (firstWith_some ha).1 hzero] at hslotkey
        exact hslotkey
      rw [hbytes] at ha
      rw [ha] at hF ⊢
      simp only [hslot]
      refine .bind (fuelMono_markTerminator _) ?_
      refine (markTerminator_spec hT hmem (hF a rfl)).mono ?_
      rintro _ s' ⟨q, hq, rfl⟩
      refine Total.settles ((insertRecord_spec
        (s := { s₁ with mem := marked mem (insert q T) }) htree r).mono ?_)
      rintro _ s' ⟨hmem', hht', htree'⟩
      exact .inr ⟨a, q, rfl, hq, hmem', hht', htree'⟩

theorem fuelMono_matchRecord (r : ℕ) : FuelMono fun n => matchRecord env n r :=
  fuelMono_matchIdentifiers r _

/-- The records that are matched. -/
def matched (env : CollectEnv) (args : List StrPtr) (rs : List ℕ) : List ℕ :=
  rs.filter fun r => (hitOf env args r).isSome

/-- After the records `done` have been dealt with. -/
structure Matched (env : CollectEnv) (mem : Mem) (args : List StrPtr) (done : List ℕ)
    (T : Finset ℕ) (s : CollectState) : Prop where
  parks : Parks (street env.writable mem) ∅ ((marks env args done).map StrPtr.addr) T
  mem : s.mem = marked mem T
  filled : HtFilled s.mem (EntryOf args) s.ht (words args)
  tree : TreeOf (testrecCompare env.records) (matched env args done) s.tree

theorem marks_append (done : List ℕ) (r : ℕ) :
    marks env args (done ++ [r]) = marks env args done ++ (hitOf env args r).toList := by
  rw [marks, List.filterMap_append, ← List.append_assoc, marks]
  cases hr : hitOf env args r with
  | none => simp [hr]
  | some a => simp [hr]

theorem matched_append (done : List ℕ) (r : ℕ) : matched env args (done ++ [r]) =
    matched env args done ++ if (hitOf env args r).isSome = true then [r] else [] := by
  rw [matched, List.filter_append, List.filter_singleton, matched]
  simp only [Bool.cond_eq_ite]

theorem matchRecord_spec (h : ArgsAt env mem args) (hW : TellsApart env.memcmp W)
    (hwords : words args ⊆ W) {done rest : List ℕ} {r : ℕ}
    (hfile : (env.records r).file.In (readOnly env.writable mem) ∧
      (env.records r).file.basename.bytes ∈ W)
    (hname : (env.records r).name.In (readOnly env.writable mem) ∧ (env.records r).name.bytes ∈ W)
    (hm : Matched env mem args done T s) :
    Settles (fun n => matchRecord env n r) (fun _ s' => ∃ T', Matched env mem args (done ++ [r]) T' s')
      (¬ ∃ T', Parks (street env.writable mem) ∅
        ((marks env args (done ++ r :: rest)).map StrPtr.addr) T') s := by
  have hspot := hm.parks.spot (by simp)
  have hids : ∀ id ∈ [(env.records r).file.basename, (env.records r).name],
      id.In (readOnly env.writable mem) ∧ id.bytes ∈ W := by
    intro id hid
    simp only [List.mem_cons, List.not_mem_nil, or_false] at hid
    rcases hid with rfl | rfl
    · exact ⟨hfile.1.basename, hfile.2⟩
    · exact hname
  refine (matchIdentifiers_spec h hW hwords hids hspot hm.mem hm.filled hm.tree ?_).mono ?_
  · intro a ha hno
    have hhit : hitOf env args r = some a := ha
    have hmarks : marks env args (done ++ r :: rest) =
        marks env args done ++ a :: rest.filterMap (hitOf env args) := by
      rw [marks, List.filterMap_append, List.filterMap_cons, hhit, ← List.append_assoc, marks]
    rw [hmarks, List.map_append, List.map_cons]
    exact hm.parks.not_exists hno
  · rintro _ s' (⟨hnone, rfl⟩ | ⟨a, q, hhit, hq, hmem', hht', htree'⟩)
    · have hhit : hitOf env args r = none := hnone
      refine ⟨T, ?_, hm.mem, hm.filled, ?_⟩
      · rw [marks_append, hhit, Option.toList_none, List.append_nil]
        exact hm.parks
      · rw [matched_append, hhit, Option.isSome_none, if_neg Bool.false_ne_true, List.append_nil]
        exact hm.tree
    · have hhit' : hitOf env args r = some a := hhit
      have hpark := hm.parks.snoc hq
      refine ⟨insert q T, ?_, hmem', ?_, ?_⟩
      · rw [marks_append, hhit', Option.toList_some, List.map_append]
        exact hpark
      · have hfilled := hm.filled
        rw [hm.mem] at hfilled
        rw [hmem', hht']
        exact h.filled (fun t ht => (hspot t ht).1) (fun t ht => (hpark.spot (by simp) t ht).1) hfilled
      · rw [matched_append, hhit', Option.isSome_some, if_pos rfl]
        exact htree'

/-! ### The check -/

/-- The first byte of an identifier that is less than 2 as a `signed char`: its terminator,
marked or not, if no other. -/
def StrPtr.scanned (a : StrPtr) : ℕ := a.bytes.findIdx fun b => int8 b < 2

/-- The index that `cldm_scan_lt` answers for an identifier, none if it faults. -/
def scanOf (build : Build) (mem : Mem) (a : StrPtr) : Option ℕ :=
  match build with
  | .portable => some a.scanned
  | .avx2 => (scanAnswer (spaceOf mem) a.addr 2 a.scanned).map low32

/-- Whether the check accepts an identifier: whether the byte at that index is not zero. -/
def verdict (build : Build) (mem : Mem) (a : StrPtr) : Option Bool :=
  (scanOf build mem a).bind fun pos => (mem (a.addr + pos)).map fun b => decide (b ≠ 0)

/-- The answer of the check, up to the first identifier that is not accepted. -/
def verdicts (build : Build) (mem : Mem) : List StrPtr → Option Bool
  | [] => some true
  | a :: args => (verdict build mem a).bind fun ok =>
    if ok then verdicts build mem args else some false

attribute [grind =] verdicts

theorem verdicts_true {build : Build} :
    verdicts build mem args = some true ↔ ∀ a ∈ args, verdict build mem a = some true := by
  induction args with
  | nil => simp [verdicts]
  | cons a args ih =>
    rw [verdicts, List.forall_mem_cons, ← ih]
    rcases verdict build mem a with _ | _ | _ <;> simp

theorem verdicts_false {build : Build} : verdicts build mem args = some false ↔
    ∃ l a r, args = l ++ a :: r ∧ (∀ b ∈ l, verdict build mem b = some true) ∧
      verdict build mem a = some false := by
  induction args with
  | nil => simp [verdicts]
  | cons a args ih =>
    rw [verdicts]
    constructor
    · intro h
      rcases hv : verdict build mem a with _ | _ | _
      · rw [hv] at h
        exact absurd h (by simp)
      · exact ⟨[], a, args, rfl, by simp, hv⟩
      · rw [hv] at h
        obtain ⟨l, b, r, rfl, hl, hb⟩ := ih.mp h
        exact ⟨a :: l, b, r, rfl, List.forall_mem_cons.mpr ⟨hv, hl⟩, hb⟩
    · rintro ⟨l, b, r, hargs, hl, hb⟩
      rcases l with _ | ⟨d, l⟩
      · obtain ⟨rfl, -⟩ := List.cons.inj hargs
        rw [hb]
        rfl
      · obtain ⟨rfl, rfl⟩ := List.cons.inj hargs
        rw [hl a (List.mem_cons_self ..)]
        exact ih.mpr ⟨l, b, r, rfl, fun x hx => hl x (List.mem_cons_of_mem _ hx), hb⟩

theorem ArgsAt.get_marked (h : ArgsAt env mem args) {a : StrPtr} (ha : a ∈ args)
    (hT : ∀ t ∈ T, mem t = some 0) {i : ℕ} (hi : i < a.bytes.length) :
    marked mem T (a.addr + i) = some a.bytes[i] := by
  have hstr : StrAt mem a.addr a.bytes := h.strAt a ha
  have hget := hstr.get (Nat.le_of_lt hi)
  have hne := hstr.ne_zero hi
  rw [List.getD_eq_getElem _ _ hi] at hget hne
  rw [marked_of_ne hT, hget]
  rw [hget]
  exact fun h0 => hne (Option.some.inj h0)

theorem ArgsAt.term_marked (h : ArgsAt env mem args) {a : StrPtr} (ha : a ∈ args) :
    marked mem T a.term = some (if a.term ∈ T then 1 else 0) := by
  have hterm : mem a.term = some 0 := (h.strAt a ha).stringAt.1
  rw [marked, hterm]
  split_ifs <;> rfl

/-- The byte that the scan looks for, and whether it is zero. -/
theorem ArgsAt.scanned_marked (h : ArgsAt env mem args) {a : StrPtr} (ha : a ∈ args)
    (hT : ∀ t ∈ T, mem t = some 0) : ∃ b, marked mem T (a.addr + a.scanned) = some b ∧
      int8 b < 2 ∧ (b ≠ 0 ↔ a.term ∈ T ∨ ∃ b ∈ a.bytes, int8 b < 2) := by
  have hle : a.bytes.findIdx (fun b => int8 b < 2) ≤ a.bytes.length := List.findIdx_le_length
  rcases Nat.lt_or_eq_of_le hle with hlt | heq
  · have hp := List.findIdx_getElem (w := hlt)
    rw [decide_eq_true_eq] at hp
    refine ⟨_, h.get_marked ha hT hlt, hp, iff_of_true ?_ (.inr ⟨_, List.getElem_mem hlt, hp⟩)⟩
    exact fun h0 => a.nonzero (h0 ▸ List.getElem_mem hlt)
  · -- the scan stops at the terminator, which is 1 if it is marked and else 0
    have hno : ¬ ∃ b ∈ a.bytes, int8 b < 2 := by
      rintro ⟨b, hb, hlt⟩
      have := List.findIdx_lt_length_of_exists (p := fun b => int8 b < 2)
        ⟨b, hb, by simpa using hlt⟩
      omega
    rw [show a.addr + a.scanned = a.term by rw [StrPtr.scanned, heq, StrPtr.term]]
    refine ⟨_, h.term_marked ha, ?_, ?_⟩
    · split_ifs <;> decide
    · rw [or_iff_left hno]
      split_ifs with hin
      · exact iff_of_true (by decide) hin
      · exact iff_of_false (by decide) hin

/-- Where the scan is right, an identifier is accepted if its terminator is marked, or if
another of its bytes is less than 2. -/
theorem ArgsAt.verdict_marked (h : ArgsAt env mem args) {a : StrPtr} (ha : a ∈ args)
    (hT : ∀ t ∈ T, mem t = some 0) {build : Build}
    (hscan : scanOf build (marked mem T) a = some a.scanned) :
    verdict build (marked mem T) a =
      some (decide (a.term ∈ T ∨ ∃ b ∈ a.bytes, int8 b < 2)) := by
  obtain ⟨b, hb, -, hne⟩ := h.scanned_marked ha hT
  rw [verdict, hscan, Option.bind_some, hb, Option.map_some, Option.some_inj]
  exact decide_eq_decide.mpr hne

/-- Marks change nothing about which bytes can be read. -/
theorem readable_marked (hT : ∀ t ∈ T, mem t = some 0) :
    (spaceOf (marked mem T)).readable = (spaceOf mem).readable := by
  funext a
  show (marked mem T a).isSome = (mem a).isSome
  rw [marked]
  split_ifs with ha
  · rw [hT a ha]
    rfl
  · rfl

theorem pageMapped_marked (hT : ∀ t ∈ T, mem t = some 0) (h : PageMapped (spaceOf mem)) :
    PageMapped (spaceOf (marked mem T)) := by
  obtain ⟨hpage, hlow⟩ := h
  rw [← readable_marked hT] at hpage hlow
  exact ⟨hpage, hlow⟩

theorem bytes_spaceOf {a : ℕ} {b : UInt8} (h : mem a = some b) : (spaceOf mem).bytes a = b := by
  show (mem a).getD 0 = b
  rw [h]
  rfl

theorem readable_spaceOf {a : ℕ} {b : UInt8} (h : mem a = some b) :
    (spaceOf mem).readable a = true := by
  show (mem a).isSome = true
  rw [h]
  rfl

theorem ArgsAt.firstLess (h : ArgsAt env mem args) {a : StrPtr} (ha : a ∈ args)
    (hT : ∀ t ∈ T, mem t = some 0) :
    FirstLess (spaceOf (marked mem T)) a.addr 2 a.scanned ∧
      ∀ i ≤ a.scanned, (spaceOf (marked mem T)).readable (a.addr + i) = true := by
  have hle : a.scanned ≤ a.bytes.length := List.findIdx_le_length
  obtain ⟨b, hb, hlt, -⟩ := h.scanned_marked ha hT
  refine ⟨⟨?_, fun i hi => ?_⟩, fun i hi => ?_⟩
  · rw [bytes_spaceOf hb]
    exact hlt
  · have hge : decide (int8 a.bytes[i] < 2) = false := List.not_of_lt_findIdx hi
    rw [decide_eq_false_iff_not] at hge
    rw [bytes_spaceOf (h.get_marked ha hT (hi.trans_le hle))]
    exact Int.not_lt.mp hge
  · rcases Nat.lt_or_eq_of_le hi with hlt | rfl
    · exact readable_spaceOf (h.get_marked ha hT (hlt.trans_le hle))
    · exact readable_spaceOf hb

theorem fuelMono_cldmScanLt (build : Build) (str sentinel : ℕ) :
    FuelMono (cldmScanLt build str sentinel) := by
  cases build with
  | portable => exact FuelMono.loop (fun pos => FuelMono.const (scanLtBody str sentinel pos)) 0
  | avx2 => exact (fuelMono_avx2ScanLt str sentinel).bind fun _ => .const _

/-- What `cldm_scan_lt` answers, in memory with marks. -/
theorem cldmScanLt_spec (h : ArgsAt env mem args) {a : StrPtr} (ha : a ∈ args)
    (hT : ∀ t ∈ T, mem t = some 0) {build : Build}
    (hmapped : build = .avx2 → PageMapped (spaceOf mem)) :
    Settles (cldmScanLt build a.addr 2) (fun pos s' =>
      scanOf build (marked mem T) a = some pos ∧ s' = spaceOf (marked mem T))
      (scanOf build (marked mem T) a = none) (spaceOf (marked mem T)) := by
  obtain ⟨hless, hread⟩ := h.firstLess ha hT
  cases build with
  | portable =>
    have hle : a.scanned ≤ a.bytes.length := List.findIdx_le_length
    have hscan := total_scanLt hless (hle.trans_lt (h.short a ha)) hread
    exact Total.settles (hscan.mono fun pos s' hs => ⟨congrArg some hs.1.symm, hs.2⟩)
  | avx2 =>
    have hto : ScansTo (spaceOf (marked mem T)) a.addr 2 0 a.scanned :=
      { mapped := pageMapped_marked hT (hmapped rfl)
        sentinel_le := by decide
        before := fun i _ hi => hless.before i hi
        readable := fun i _ hi => hread i (Nat.le_of_lt hi)
        le := Nat.zero_le _
        less := hless.less
        last := hread _ (Nat.le_refl _) }
    have hans := answers_avx2ScanLt hto
    rw [scanOf]
    refine .bind (fuelMono_avx2ScanLt _ _) ?_
    cases hscan : scanAnswer (spaceOf (marked mem T)) a.addr 2 a.scanned with
    | none =>
      rw [hscan] at hans
      exact .inr ⟨rfl, hans⟩
    | some rax =>
      rw [hscan] at hans
      exact .inl ⟨rax, _, hans, .const (.inl ((wp_pure ..).mpr ⟨rfl, rfl⟩))⟩

theorem settles_onBytes {β : Type} {f : ℕ → Prog Space β} {Q : β → Prop} {F : Prop}
    (h : Settles f (fun b s' => Q b ∧ s' = spaceOf s.mem) F (spaceOf s.mem)) :
    Settles (fun n => onBytes (f n)) (fun b s' => Q b ∧ s' = s) F s := by
  rcases h with ⟨b, s', ⟨k, hk⟩, hQ, rfl⟩ | ⟨hF, hnone⟩
  · refine .inl ⟨b, s, ⟨k, fun n hn => ?_⟩, hQ, rfl⟩
    show (f n (spaceOf s.mem)).map _ = _
    rw [hk n hn]
    rfl
  · refine .inr ⟨hF, fun n => ?_⟩
    show (f n (spaceOf s.mem)).map _ = _
    rw [hnone n]
    rfl

theorem fuelMono_checkBody (idents : List ℕ) (i : ℕ) :
    FuelMono fun n => checkBody env idents n i := by
  rcases hi : idents[i]? with _ | ident
  · simp only [checkBody, hi]
    exact .const _
  · simp only [checkBody, hi]
    exact (FuelMono.onBytes (fuelMono_cldmScanLt _ _ _)).bind fun _ => .const _

/-- The check ends at the first identifier that is not accepted, or faults. -/
theorem check_spec (h : ArgsAt env mem args) (hT : ∀ t ∈ T, mem t = some 0)
    (hmem : s.mem = marked mem T) (hmapped : env.build = .avx2 → PageMapped (spaceOf mem)) :
    Settles (fun n => fuelLoop (checkBody env (args.map StrPtr.addr) n) n 0) (fun ok s' =>
      verdicts env.build s.mem args = some ok ∧ s' = s)
      (verdicts env.build s.mem args = none) s := by
  -- the identifiers `done` have been accepted, `rest` are left
  let J : ℕ → ℕ → CollectState → Prop := fun b i s' => s' = s ∧ ∃ done rest, args = done ++ rest ∧
    i = done.length ∧ b = rest.length ∧
      verdicts env.build s.mem args = verdicts env.build s.mem rest
  refine settles_loop (I := J) (fuelMono_checkBody _) ?_ args.length 0 s
    ⟨rfl, [], args, rfl, rfl, rfl, rfl⟩
  rintro b i s' ⟨rfl, done, rest, hargs, rfl, rfl, hrest⟩
  rw [hrest]
  rcases rest with _ | ⟨a, rest⟩
  · rw [List.append_nil] at hargs
    subst hargs
    have hidx : (args.map StrPtr.addr)[args.length]? = none := by simp
    simp only [checkBody, hidx]
    exact .const (.inl ((wp_pure ..).mpr ⟨rfl, rfl⟩))
  · have ha : a ∈ args := by
      rw [hargs]
      simp
    have hidx : (args.map StrPtr.addr)[done.length]? = some a.addr := by
      rw [hargs]
      simp
    have hlen : done.length + 1 < 2 ^ 31 := by
      have := h.few
      rw [hargs, List.length_append, List.length_cons] at this
      omega
    have hscan := cldmScanLt_spec h ha hT hmapped
    rw [← hmem] at hscan
    simp only [checkBody, hidx]
    rw [verdicts, verdict] at hrest ⊢
    refine .bind (FuelMono.onBytes (fuelMono_cldmScanLt _ _ _)) ?_
    -- the scan faults, or stops at a byte that may not be read, or at one that decides
    rcases settles_onBytes hscan with ⟨pos, s₁, hret, hpos, rfl⟩ | ⟨hnone, hfail⟩
    · refine .inl ⟨pos, s₁, hret, .wp_bind ((wp_get ..).mpr ?_)⟩
      rw [hpos, Option.bind_some] at hrest ⊢
      rcases hb : s₁.mem (a.addr + pos) with _ | b
      · refine .const (.inr ⟨rfl, ?_⟩)
        rw [bind_apply, readByte, hb]
        rfl
      · rw [hb, Option.map_some, Option.bind_some] at hrest
        refine .wp_bind ?_
        rw [wp_of_some (readByte_eq hb s₁)]
        refine .const (.inl ((wp_pure ..).mpr ?_))
        by_cases h0 : b = 0
        · rw [if_pos h0]
          refine ⟨?_, rfl⟩
          rw [Option.map_some, Option.bind_some, decide_eq_false (not_not_intro h0)]
          rfl
        · rw [if_neg h0]
          rw [decide_eq_true h0, if_pos rfl] at hrest
          refine ⟨rest.length, Nat.lt_succ_self _, rfl, done ++ [a], rest, by rw [hargs]; simp, ?_,
            rfl, hrest⟩
          rw [List.length_append, List.length_singleton]
          omega
    · refine .inr ⟨?_, hfail⟩
      rw [hnone]
      rfl

/-! ### What a call does -/

theorem fuelMono_registerBody (idents : List ℕ) (i : ℕ) :
    FuelMono fun n => registerBody env idents n i := by
  rcases hi : idents[i]? with _ | ident
  · simp only [registerBody, hi]
    exact .const _
  · simp only [registerBody, hi]
    refine (FuelMono.const _).bind fun s => FuelMono.bind (fuelMono_strlen _ _) fun size =>
      FuelMono.bind (FuelMono.onTable (fuelMono_htInsert _ _)) fun entry => ?_
    exact .ite _ ((fuelMono_markTerminator _).bind fun _ => .const _) (.const _)

theorem fuelMono_markTests (idents : List ℕ) : FuelMono (markTests env idents) := by
  refine (FuelMono.const _).bind fun _ => (FuelMono.const _).bind fun _ =>
    (FuelMono.const _).bind fun _ => FuelMono.bind (.loop (fuelMono_registerBody _) _) fun _ => ?_
  exact .loop (fuelMono_strtabBody fuelMono_matchRecord) _

/-- The words that are compared: the identifiers, and the base names of the files and the
names of the tests. -/
def comparedWords (env : CollectEnv) (rs : List ℕ) (args : List StrPtr) : Set (List UInt8) :=
  {w | w ∈ words args ∨ ∃ r ∈ rs,
    w = (env.records r).file.basename.bytes ∨ w = (env.records r).name.bytes}

/-- Before the check, a call makes the marks, or faults when one of them has no place. -/
theorem markTests_spec (hprog : ProgramAt env s.mem c) (h : ArgsAt env s.mem args)
    (hW : TellsApart env.memcmp (comparedWords env (recordsOf env.map c) args))
    (hcalloc : ∀ n, env.calloc n = true) (hfound : ∀ r ∈ recordsOf env.map c, r ≠ 0) :
    Settles (markTests env (args.map StrPtr.addr)) (fun found s' => found = true ∧
        ∃ T, Matched env s.mem args (recordsOf env.map c) T s')
      (¬ ∃ T, Parks (street env.writable s.mem) ∅
        ((marks env args (recordsOf env.map c)).map StrPtr.addr) T) s := by
  have hwords : words args ⊆ comparedWords env (recordsOf env.map c) args := fun w hw => .inl hw
  -- the walk keeps that the tests so far have been matched
  let I : List ℕ → CollectState → Prop := fun done s' => ∃ T, Matched env s.mem args done T s'
  refine .wp_bind ?_
  simp only [initTree, wp_bind, wp_get, wp_set]
  refine .wp_bind ((wp_get ..).mpr (.wp_bind ((wp_set ..).mpr ?_)))
  refine .bind (.loop (fuelMono_registerBody _) _) (Total.settles ?_)
  refine (register_spec (s := { s with ht := htInit, tree := rbtreeInit s.tree.mem })
    h hW hwords hcalloc rfl rfl).mono ?_
  rintro _ s₁ ⟨htree, T₁, hreg⟩
  have hstart : I [] s₁ := by
    refine ⟨T₁, ?_, hreg.mem, hreg.filled, ?_⟩
    · rw [marks, List.filterMap_nil, List.append_nil]
      exact hreg.parks
    · rw [htree]
      exact treeOf_init _
  refine (strtabLoop_spec hprog.image fuelMono_matchRecord (I := I) ?_ ?_ hstart).mono ?_
  · rintro done s' ⟨T, hm⟩
    rw [hm.mem]
    exact part_marked fun t ht => (hm.parks.spot (by simp) t ht).2
  · rintro done r rest s' hsplit hr ⟨T, hm⟩
    have hmem : r ∈ recordsOf env.map c := by
      rw [hsplit]
      simp
    rw [hsplit]
    exact matchRecord_spec h hW hwords ⟨hprog.file r hmem hr, .inr ⟨r, hmem, .inl rfl⟩⟩
      ⟨hprog.name r hmem hr, .inr ⟨r, hmem, .inr rfl⟩⟩ hm
  · rintro found s' (⟨rfl, -, hm⟩ | ⟨-, hzero⟩)
    · exact ⟨rfl, hm⟩
    · exact absurd rfl (hfound 0 hzero)

/-- A call makes the marks, or faults; it fails if the check does not accept an identifier. -/
theorem collectFrom_spec (hprog : ProgramAt env s.mem c) (h : ArgsAt env s.mem args)
    (hW : TellsApart env.memcmp (comparedWords env (recordsOf env.map c) args))
    (hcalloc : ∀ n, env.calloc n = true) (hfound : ∀ r ∈ recordsOf env.map c, r ≠ 0)
    (hmapped : env.build = .avx2 → PageMapped (spaceOf s.mem)) :
    Settles (collectFrom env (args.map StrPtr.addr)) (fun n s' => ∃ T,
      Matched env s.mem args (recordsOf env.map c) T s' ∧
        ∃ ok, verdicts env.build (marked s.mem T) args = some ok ∧
          n = if ok then (s'.tree.size : ℤ) else -1)
      (∀ T, Parks (street env.writable s.mem) ∅
        ((marks env args (recordsOf env.map c)).map StrPtr.addr) T →
          verdicts env.build (marked s.mem T) args = none) s := by
  refine .bind (fuelMono_markTests _) ?_
  rcases markTests_spec hprog h hW hcalloc hfound with ⟨_, s₁, hret, rfl, T, hm⟩ | ⟨hno, hfail⟩
  · refine .inl ⟨true, s₁, hret, ?_⟩
    have hT : ∀ t ∈ T, s.mem t = some 0 := fun t ht => (hm.parks.spot (by simp) t ht).1
    simp only [if_true]
    refine .bind (.loop (fuelMono_checkBody _) _) ?_
    -- where the marks lie does not depend on the run, and with them the answer of the check
    rcases check_spec h hT hm.mem hmapped with ⟨ok, s₂, hret', hok, rfl⟩ | ⟨hnone, hfail⟩
    · refine .inl ⟨ok, s₂, hret', .const (.inl ?_)⟩
      rw [hm.mem] at hok
      cases ok with
      | true =>
        simp only [if_true]
        rw [wp_bind]
        exact ⟨_, s₂, rfl, (wp_pure ..).mpr ⟨T, hm, true, hok, rfl⟩⟩
      | false => exact (wp_pure ..).mpr ⟨T, hm, false, hok, rfl⟩
    · refine .inr ⟨fun T' hT' => ?_, hfail⟩
      rw [hT'.unique hm.parks, ← hm.mem]
      exact hnone
  · exact .inr ⟨fun T hT => absurd ⟨T, hT⟩ hno, hfail⟩

end Cldm
