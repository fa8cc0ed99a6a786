/-
The identifiers of the command line: what `cldm_collect_from` does with them.

An identifier names a test if it is the name of the test or the base name of its
file.  Each test marks the first identifier that names it, and a mark that finds
the terminator of its identifier gone lands behind it.

* `collectFrom_frame` — only terminators of marked identifiers change, exactly if
  no two tests mark the same identifier;
* `collectFrom_validity` — when the call fails exactly for an identifier that names
  no test, which depends on where the scan of the build stops;
* `collectFrom_selects` — if the call succeeds, the tree holds the tests that are
  named, whatever the order of the identifiers and of the string table is.
-/
import Cldm.CollectFrom

namespace Cldm

open Prog Bytes Parking Space Avx2

variable {env : CollectEnv} {mem : Mem} {c : ElfContents} {s s' : CollectState}
  {args : List StrPtr} {T : Finset ℕ}

/-- A call of `cldm_collect_from` with identifiers `args`, in a program all of whose
tests are found. -/
structure CallAt (env : CollectEnv) (c : ElfContents) (args : List StrPtr) (s : CollectState) :
    Prop where
  program : ProgramAt env s.mem c
  memcmp : TellsApart env.memcmp (comparedWords env (recordsOf env.map c) args)
  args : ArgsAt env s.mem args
  calloc : ∀ n, env.calloc n = true
  found : ∀ r ∈ recordsOf env.map c, r ≠ 0
  mapped : env.build = .avx2 → PageMapped (spaceOf s.mem)

/-- The addresses that marks are made for, in order. -/
def markAddrs (env : CollectEnv) (c : ElfContents) (args : List StrPtr) : List ℕ :=
  (marks env args (recordsOf env.map c)).map StrPtr.addr

theorem CallAt.marksSettle (h : CallAt env c args s) :
    Settles (markTests env (args.map StrPtr.addr)) (fun found s' => found = true ∧
        ∃ T, Matched env s.mem args (recordsOf env.map c) T s')
      (¬ ∃ T, Parks (street env.writable s.mem) ∅ (markAddrs env c args) T) s :=
  markTests_spec h.program h.args h.memcmp h.calloc h.found

theorem CallAt.settles (h : CallAt env c args s) :
    Settles (collectFrom env (args.map StrPtr.addr)) (fun n s' => ∃ T,
      Matched env s.mem args (recordsOf env.map c) T s' ∧
        ∃ ok, verdicts env.build (marked s.mem T) args = some ok ∧
          n = if ok then (s'.tree.size : ℤ) else -1)
      (∀ T, Parks (street env.writable s.mem) ∅ (markAddrs env c args) T →
        verdicts env.build (marked s.mem T) args = none) s :=
  collectFrom_spec h.program h.args h.memcmp h.calloc h.found h.mapped

/-! ### The bytes that change -/

/-- Every byte that a call has changed is the terminator of an identifier that it marks:
one that repeats an earlier one, or the first that a test is matched with. -/
def OwnTerminators (env : CollectEnv) (c : ElfContents) (args : List StrPtr) (mem mem' : Mem) :
    Prop :=
  ∀ p, mem' p ≠ mem p → ∃ a ∈ marks env args (recordsOf env.map c), p = a.term

/-- The call changes no other byte than these. When all marks are made, nothing but the
scan of the AVX2 build can stop it. -/
def ChangesOwnTerminators (env : CollectEnv) (c : ElfContents) (args : List StrPtr)
    (s : CollectState) : Prop :=
  Total (markTests env (args.map StrPtr.addr))
      (fun _ s' => OwnTerminators env c args s.mem s'.mem) s ∧
    Settles (collectFrom env (args.map StrPtr.addr))
      (fun _ s' => OwnTerminators env c args s.mem s'.mem) (env.build = .avx2) s

theorem mem_repeatsFrom {seen : List (List UInt8)} {a : StrPtr} (h : a ∈ repeatsFrom seen args) :
    a.bytes ∈ seen ∨ ∃ l r, args = l ++ a :: r ∧ ∃ b ∈ l, b.bytes = a.bytes := by
  induction args generalizing seen with
  | nil => exact absurd h (by simp [repeatsFrom])
  | cons b args ih =>
    rw [repeatsFrom] at h
    split_ifs at h with hb
    · rcases List.mem_cons.mp h with rfl | h
      · exact .inl hb
      · rcases ih h with hseen | ⟨l, r, rfl, d, hd, hda⟩
        · exact .inl hseen
        · exact .inr ⟨b :: l, r, rfl, d, List.mem_cons_of_mem _ hd, hda⟩
    · rcases ih h with hseen | ⟨l, r, rfl, d, hd, hda⟩
      · rcases List.mem_cons.mp hseen with hba | hseen
        · -- the identifier repeats `b`
          obtain ⟨l, r, rfl⟩ := List.append_of_mem ((repeatsFrom_sublist ..).subset h)
          exact .inr ⟨b :: l, r, rfl, b, List.mem_cons_self .., hba.symm⟩
        · exact .inl hseen
      · exact .inr ⟨b :: l, r, rfl, d, List.mem_cons_of_mem _ hd, hda⟩

/-- No test is matched with a repetition. -/
theorem notMem_repeats (hnd : args.Nodup) {r : ℕ} {a : StrPtr} (hhit : hitOf env args r = some a) :
    a ∉ repeats args := by
  intro hrep
  obtain ⟨id, -, hfirst⟩ := List.exists_of_findSome?_eq_some hhit
  obtain ⟨-, hid⟩ := firstWith_some hfirst
  rcases mem_repeatsFrom hrep with hseen | ⟨l, r, rfl, b, hb, hba⟩
  · exact absurd hseen (by simp)
  · -- an identifier before `a` has its bytes
    rw [firstWith, List.find?_append] at hfirst
    have hsome : (l.find? fun d => d.bytes = id.bytes).isSome = true := by
      rw [List.find?_isSome]
      exact ⟨b, hb, by simpa [← hid] using hba⟩
    obtain ⟨d, hd⟩ := Option.isSome_iff_exists.mp hsome
    rw [hd, Option.some_or] at hfirst
    obtain rfl := Option.some.inj hfirst
    exact (List.nodup_append.mp hnd).2.2 d (List.mem_of_find?_eq_some hd) d
      (List.mem_cons_self ..) rfl

/-- Marks are made for different identifiers iff no two tests have the same one. -/
theorem ArgsAt.nodup_marks (h : ArgsAt env mem args) (rs : List ℕ) :
    ((marks env args rs).map StrPtr.term).Nodup ↔ (rs.filterMap (hitOf env args)).Nodup := by
  have hnd := h.nodup_term.of_map
  constructor
  · intro hmarks
    exact (List.nodup_append.mp hmarks.of_map).2.1
  · intro hhits
    refine List.Nodup.map_on (fun a ha b hb hab => ?_) ?_
    · exact List.inj_on_of_nodup_map h.nodup_term (mem_of_mem_marks ha) (mem_of_mem_marks hb) hab
    · refine List.nodup_append.mpr ⟨hnd.sublist (repeatsFrom_sublist ..), hhits, ?_⟩
      rintro a ha _ hb rfl
      obtain ⟨r, -, hr⟩ := List.mem_filterMap.mp hb
      exact notMem_repeats hnd hr ha

theorem ArgsAt.firstFree_marks (h : ArgsAt env mem args) (rs : List ℕ) :
    ∀ a ∈ marks env args rs, FirstFree (street env.writable mem) ∅ a.addr a.term :=
  fun _ ha => h.firstFree (mem_of_mem_marks ha) (by simp)

/-- The bytes that marks change. -/
theorem marked_ne_iff (hT : ∀ t ∈ T, mem t = some 0) {p : ℕ} : marked mem T p ≠ mem p ↔ p ∈ T := by
  rw [marked]
  split_ifs with hp
  · rw [hT p hp]
    exact iff_of_true (by decide) hp
  · exact iff_of_false (fun h => h rfl) hp

/-- The portable scan answers for every identifier. -/
theorem ArgsAt.verdicts_portable (h : ArgsAt env mem args) (hT : ∀ t ∈ T, mem t = some 0) :
    verdicts .portable (marked mem T) args ≠ none := by
  have hall : ∀ a ∈ args, verdict .portable (marked mem T) a ≠ none := fun a ha => by
    rw [h.verdict_marked ha hT rfl]
    exact Option.some_ne_none _
  clear h
  induction args with
  | nil => exact Option.some_ne_none _
  | cons a args ih =>
    have hrest := ih fun b hb => hall b (List.mem_cons_of_mem _ hb)
    obtain ⟨ok, hok⟩ := Option.ne_none_iff_exists'.mp (hall a (List.mem_cons_self ..))
    rw [verdicts, hok]
    cases ok with
    | true => exact hrest
    | false => exact Option.some_ne_none _

theorem changesOwn_iff (h : CallAt env c args s) : ChangesOwnTerminators env c args s ↔
    ((marks env args (recordsOf env.map c)).map StrPtr.term).Nodup := by
  have hchanged : ∀ {T s'}, Matched env s.mem args (recordsOf env.map c) T s' →
      (OwnTerminators env c args s.mem s'.mem ↔
        ∀ t ∈ T, t ∈ (marks env args (recordsOf env.map c)).map StrPtr.term) := by
    intro T s' hm
    have hT : ∀ t ∈ T, s.mem t = some 0 := fun t ht => (hm.parks.spot (by simp) t ht).1
    simp only [OwnTerminators, hm.mem, marked_ne_iff hT, List.mem_map, eq_comm]
  constructor
  · rintro ⟨⟨found, s', hret, hown⟩, -⟩
    obtain ⟨-, T, hm⟩ := h.marksSettle.of_returns hret
    -- marks that all lie on terminators of their own have pushed no other aside
    exact (hm.parks.subset_image_iff (h.args.firstFree_marks _)).mp ((hchanged hm).mp hown)
  · intro hnd
    have hpark := parks_of_nodup (h.args.firstFree_marks _) hnd
    have hown : ∀ {T s'}, Matched env s.mem args (recordsOf env.map c) T s' →
        OwnTerminators env c args s.mem s'.mem := fun hm =>
      (hchanged hm).mpr ((hm.parks.subset_image_iff (h.args.firstFree_marks _)).mpr hnd)
    refine ⟨(h.marksSettle.total fun hno => hno ⟨_, hpark⟩).mono ?_, ?_⟩
    · rintro found s' ⟨-, T, hm⟩
      exact hown hm
    · rcases h.settles with hrun | ⟨hfault, hnone⟩
      · refine Total.settles (hrun.mono ?_)
        rintro n s' ⟨T, hm, -⟩
        exact hown hm
      · refine .inr ⟨?_, hnone⟩
        cases hbuild : env.build with
        | avx2 => rfl
        | portable =>
          have hT := hpark.spot (by simp)
          rw [hbuild] at hfault
          exact absurd (hfault _ hpark) (h.args.verdicts_portable fun t ht => (hT t ht).1)

/-- Only terminators of marked identifiers change, exactly if no two tests are matched
with the same identifier. -/
theorem collectFrom_frame (h : CallAt env c args s) : ChangesOwnTerminators env c args s ↔
    ((recordsOf env.map c).filterMap (hitOf env args)).Nodup := by
  rw [changesOwn_iff h, h.args.nodup_marks]

/-! ### The answer -/

/-- The identifier `w` names the test with the record `r`. -/
def Names (env : CollectEnv) (r : ℕ) (w : List UInt8) : Prop :=
  w = (env.records r).file.basename.bytes ∨ w = (env.records r).name.bytes

instance (env : CollectEnv) (r : ℕ) (w : List UInt8) : Decidable (Names env r w) :=
  inferInstanceAs (Decidable (_ ∨ _))

/-- The identifier names a test. -/
def Known (env : CollectEnv) (c : ElfContents) (a : StrPtr) : Prop :=
  ∃ r ∈ recordsOf env.map c, Names env r a.bytes

/-- The call fails exactly for an identifier that names no test. -/
def FailsForUnknown (env : CollectEnv) (c : ElfContents) (args : List StrPtr) (s : CollectState) :
    Prop :=
  Total (collectFrom env (args.map StrPtr.addr)) (fun n _ =>
    n < 0 ↔ ∃ a ∈ args, ¬ Known env c a) s

open Classical in
/-- Memory once all marks are made: a zero byte that can be written has a mark if some
stretch that ends with it has no more of them than marks are made for identifiers in it. -/
noncomputable def markedMem (env : CollectEnv) (c : ElfContents) (mem : Mem) (args : List StrPtr) :
    Mem := fun a =>
  if (street env.writable mem).Spot a ∧ ∃ p ≤ a, spots (street env.writable mem) p (a + 1) ≤
    wanting (markAddrs env c args) p (a + 1) then some 1 else mem a

theorem markedMem_eq (h : Parks (street env.writable mem) ∅ (markAddrs env c args) T) :
    markedMem env c mem args = marked mem T := by
  funext a
  simp only [markedMem, marked, ← h.mem_iff]

/-- All marks find a zero byte that can be written. Then, if all identifiers name tests,
all of them are accepted; and if one of them does not, the first that is not accepted is
rejected: the scan does not fault. -/
structure AcceptsKnown (env : CollectEnv) (c : ElfContents) (mem : Mem) (args : List StrPtr) :
    Prop where
  fit : ∀ p w, (street env.writable mem).Wall w →
    wanting (markAddrs env c args) p (w + 1) ≤ spots (street env.writable mem) p w
  known : (∀ a ∈ args, Known env c a) →
    ∀ a ∈ args, verdict env.build (markedMem env c mem args) a = some true
  unknown : (∃ a ∈ args, ¬ Known env c a) → ∃ l a r, args = l ++ a :: r ∧
    (∀ b ∈ l, verdict env.build (markedMem env c mem args) b = some true) ∧
      verdict env.build (markedMem env c mem args) a = some false

/-- The call fails if the check rejects an identifier. -/
theorem CallAt.neg_iff (h : CallAt env c args s) {n : ℤ}
    (hret : Returns (collectFrom env (args.map StrPtr.addr)) s n s') :
    ∃ ok, verdicts env.build (markedMem env c s.mem args) args = some ok ∧
      (n < 0 ↔ ok = false) := by
  obtain ⟨T, hm, ok, hok, rfl⟩ := h.settles.of_returns hret
  refine ⟨ok, by rw [markedMem_eq hm.parks]; exact hok, ?_⟩
  cases ok with
  | true => simp
  | false => simp

theorem street_ends {writable : ℕ → Bool} (hend : ∀ a, 2 ^ 64 ≤ a → mem a = none) (p : ℕ) :
    ∃ w, p ≤ w ∧ (street writable mem).Wall w :=
  ⟨max p (2 ^ 64), Nat.le_max_left .., .inl (hend _ (Nat.le_max_right ..))⟩

/-- When the call fails exactly for an unknown identifier. -/
theorem collectFrom_validity (h : CallAt env c args s) (hend : ∀ a, 2 ^ 64 ≤ a → s.mem a = none) :
    FailsForUnknown env c args s ↔ AcceptsKnown env c s.mem args := by
  have hparks : (∃ T, Parks (street env.writable s.mem) ∅ (markAddrs env c args) T) ↔ _ :=
    exists_parks_iff (street_ends hend)
  constructor
  · rintro ⟨n, s', hret, hfails⟩
    obtain ⟨T, hm, -⟩ := h.settles.of_returns hret
    obtain ⟨ok, hok, hneg⟩ := h.neg_iff hret
    rw [hneg] at hfails
    refine ⟨hparks.mp ⟨T, hm.parks⟩, fun hall => verdicts_true.mp ?_,
      fun hunknown => verdicts_false.mp ?_⟩
    · cases ok with
      | true => exact hok
      | false =>
        obtain ⟨a, ha, hno⟩ := hfails.mp rfl
        exact absurd (hall a ha) hno
    · rw [hok, hfails.mpr hunknown]
  · rintro ⟨hfit, hknown, hunknown⟩
    obtain ⟨T, hpark⟩ := hparks.mpr hfit
    -- whether an identifier is unknown or not, the check ends
    have hsome : ∃ ok, verdicts env.build (markedMem env c s.mem args) args = some ok ∧
        (ok = false ↔ ∃ a ∈ args, ¬ Known env c a) := by
      by_cases hall : ∀ a ∈ args, Known env c a
      · refine ⟨true, verdicts_true.mpr (hknown hall), iff_of_false (by simp) ?_⟩
        rintro ⟨a, ha, hno⟩
        exact hno (hall a ha)
      · push Not at hall
        exact ⟨false, verdicts_false.mpr (hunknown hall), iff_of_true rfl hall⟩
    obtain ⟨ok, hok, hiff⟩ := hsome
    obtain ⟨n, s', hret, -⟩ := h.settles.total fun hfault => by
      have hnone := hfault T hpark
      rw [← markedMem_eq hpark, hok] at hnone
      exact Option.some_ne_none _ hnone
    obtain ⟨ok', hok', hneg⟩ := h.neg_iff hret
    obtain rfl := Option.some.inj (hok'.symm.trans hok)
    exact ⟨n, s', hret, hneg.trans hiff⟩

/-! ### The tests that are selected -/

/-- The tests that the tree holds after a call that has returned `n`: those that are
named, each once. -/
structure Selects (env : CollectEnv) (c : ElfContents) (args : List StrPtr) (n : ℤ)
    (s : CollectState) (l : List ℕ) : Prop where
  nodup : l.Nodup
  mem : ∀ r, r ∈ l ↔ r ∈ recordsOf env.map c ∧ ∃ a ∈ args, Names env r a.bytes
  stored : s.tree.stored = {r | r ∈ l}
  iterated : Returns rbtreeForEach s.tree (l.map .obj) s.tree
  count : n = l.length

theorem exists_names_iff (r : ℕ) :
    (∃ a ∈ args, Names env r a.bytes) ↔ ∃ w ∈ words args, Names env r w := by
  constructor
  · rintro ⟨a, ha, h⟩
    exact ⟨a.bytes, ⟨a, ha, rfl⟩, h⟩
  · rintro ⟨_, ⟨a, ha, rfl⟩, h⟩
    exact ⟨a, ha, h⟩

theorem CallAt.selects (h : CallAt env c args s)
    (hkeyed : ∀ a ∈ recordsOf env.map c, ∀ b ∈ recordsOf env.map c,
      (env.records a).key = (env.records b).key → a = b) {n : ℤ}
    (hret : Returns (collectFrom env (args.map StrPtr.addr)) s n s') (hn : 0 ≤ n) :
    ∃ l, Selects env c args n s' l := by
  have hc : StrictTotal (testrecCompare env.records) := testrecCompare_strictTotal
  obtain ⟨T, hm, ok, -, rfl⟩ := h.settles.of_returns hret
  obtain ⟨l, hiter, hord, hmem, hsize, hstored⟩ := hm.tree.forEach hc
  have hfirsts : ∀ r, r ∈ l ↔ r ∈ matched env args (recordsOf env.map c) := by
    intro r
    rw [hmem, mem_firsts_iff hc]
    intro a ha b hb hab
    exact hkeyed a (List.mem_filter.mp ha).1 b (List.mem_filter.mp hb).1
      (testrecCompare_eq_zero.mp hab)
  refine ⟨l, hord.nodup hc, fun r => ?_, hstored, hiter, ?_⟩
  · rw [hfirsts, matched, List.mem_filter, hitOf_isSome]
    rfl
  · split_ifs at hn ⊢
    · rw [hsize]
    · exact absurd hn (by decide)

/-- A call that succeeds selects the tests that are named, and so does every other
call for the same identifiers and tests. -/
theorem collectFrom_selects (h : CallAt env c args s)
    (hkeyed : ∀ a ∈ recordsOf env.map c, ∀ b ∈ recordsOf env.map c,
      (env.records a).key = (env.records b).key → a = b) {n : ℤ}
    (hret : Returns (collectFrom env (args.map StrPtr.addr)) s n s') (hn : 0 ≤ n) :
    ∃ l, Selects env c args n s' l ∧
      ∀ (env' : CollectEnv) (c' : ElfContents) (args' : List StrPtr) (t t' : CollectState) (m : ℤ),
        CallAt env' c' args' t → env'.records = env.records →
        (∀ r, r ∈ recordsOf env'.map c' ↔ r ∈ recordsOf env.map c) → words args' = words args →
        Returns (collectFrom env' (args'.map StrPtr.addr)) t m t' → 0 ≤ m →
        t'.tree.stored = s'.tree.stored ∧ m = n := by
  obtain ⟨l, hl⟩ := h.selects hkeyed hret hn
  refine ⟨l, hl, fun env' c' args' t t' m h' hrec hsame hwords hret' hm => ?_⟩
  obtain ⟨l', hl'⟩ := h'.selects (fun a ha b hb hab => by
    rw [hrec] at hab
    exact hkeyed a ((hsame a).mp ha) b ((hsame b).mp hb) hab) hret' hm
  have hnames : ∀ r, (∃ a ∈ args', Names env' r a.bytes) ↔ ∃ a ∈ args, Names env r a.bytes := by
    intro r
    rw [exists_names_iff, exists_names_iff, hwords]
    simp only [Names, hrec]
  have hmem : ∀ r, r ∈ l' ↔ r ∈ l := by
    intro r
    rw [hl'.mem, hl.mem, hsame, hnames]
  refine ⟨?_, ?_⟩
  · rw [hl'.stored, hl.stored]
    exact Set.ext hmem
  · rw [hl'.count, hl.count, ((List.perm_ext_iff_of_nodup hl'.nodup hl.nodup).mpr hmem).length_eq]

/-! ### Calls for the two tests -/

theorem two_pageMapped (bytes : List UInt8) : PageMapped (spaceOf (twoMem bytes)) := by
  have hread : ∀ a, (spaceOf (twoMem bytes)).readable a = decide (4096 ≤ a ∧ a < 12288) := by
    intro a
    show (twoMem bytes a).isSome = _
    rw [twoMem, Bool.eq_iff_iff, decide_eq_true_eq]
    split_ifs <;> simp <;> omega
  constructor
  · intro a b hab
    simp only [pgsize] at hab
    rw [hread, hread]
    exact decide_eq_decide.mpr (by omega)
  · intro a ha
    rw [hread]
    exact decide_eq_false (by omega)

theorem twoMem_end (bytes : List UInt8) (a : ℕ) (ha : 2 ^ 64 ≤ a) : twoMem bytes a = none := by
  rw [twoMem, if_neg (by omega), if_neg (by omega), if_neg (by omega)]

/-- What has to be checked of identifiers for a call on the two tests. -/
theorem two_callAt {bytes : List UInt8} {args : List StrPtr}
    (hstr : args.all fun a => 8192 ≤ a.addr ∧ a.bytes.length < 2 ^ 32 ∧
      bytesAt (twoMem bytes) a.addr (a.bytes.length + 1) = some (a.bytes ++ [0]))
    (hapart : args.Pairwise fun a b => a.term < b.addr ∨ b.term < a.addr)
    (hfew : args.length < 2 ^ 31) :
    CallAt twoEnv (imageContents twoSyms twoTable) args (twoState bytes) := by
  simp only [List.all_eq_true, decide_eq_true_eq] at hstr
  refine ⟨two_programAt bytes, byteEnv_exact.tellsApart _, ⟨fun a ha => ?_, fun a ha i _ => ?_,
    fun a ha => ?_, hapart, hfew, fun a ha => (hstr a ha).2.1⟩, fun _ => rfl,
    two_found, fun _ => two_pageMapped bytes⟩
  · exact ⟨(hstr a ha).2.2, a.nonzero⟩
  · have := (hstr a ha).1
    exact decide_eq_true (by omega)
  · have := (hstr a ha).1
    show 1 < a.addr
    omega

/-- At a distance from the end of its page, an identifier is scanned as by the portable
build. -/
theorem CallAt.verdict_eq (h : CallAt env c args s)
    (hpark : Parks (street env.writable s.mem) ∅ (markAddrs env c args) T) {a : StrPtr}
    (ha : a ∈ args) (hfar : 32 ≤ toEdge a.addr) :
    verdict env.build (markedMem env c s.mem args) a =
      some (decide (a.term ∈ T ∨ ∃ b ∈ a.bytes, int8 b < 2)) := by
  have hle : a.scanned ≤ a.bytes.length := List.findIdx_le_length
  rw [markedMem_eq hpark]
  refine h.args.verdict_marked ha (fun t ht => (hpark.spot (by simp) t ht).1) ?_
  cases env.build with
  | portable => rfl
  | avx2 =>
    rw [scanOf, scanAnswer, if_pos hfar, Option.map_some,
      low32_eq (hle.trans_lt (h.args.short a ha))]

/-- An identifier at an address. -/
def identAt (addr : ℕ) (bytes : List UInt8) (h : bytes.contains 0 = false) : StrPtr :=
  ⟨addr, bytes, by simpa using h⟩

/-- The identifiers `a`, `b` and once more `a`. -/
def twoIdents : List StrPtr :=
  [identAt 8192 [97] rfl, identAt 8194 [98] rfl, identAt 8196 [97] rfl]

theorem twoIdents_callAt :
    CallAt twoEnv (imageContents twoSyms twoTable) twoIdents (twoState [97, 0, 98, 0, 97, 0]) :=
  two_callAt (by decide) (by simp [twoIdents, identAt, StrPtr.term]) (by decide)

/-- The repetition is marked first, then the identifiers of the two tests. -/
theorem twoIdents_marks : (marks twoEnv twoIdents
    (recordsOf twoEnv.map (imageContents twoSyms twoTable))).map StrPtr.term =
      [8197, 8193, 8195] := by
  rw [two_records]
  decide

theorem twoIdents_parks : Parks (street twoEnv.writable (twoState [97, 0, 98, 0, 97, 0]).mem) ∅
    (markAddrs twoEnv (imageContents twoSyms twoTable) twoIdents) {8197, 8193, 8195} := by
  have hpark := parks_of_nodup (twoIdents_callAt.args.firstFree_marks
    (recordsOf twoEnv.map (imageContents twoSyms twoTable)))
    (by rw [twoIdents_marks]; decide)
  rw [twoIdents_marks] at hpark
  exact hpark

theorem collectFrom_frame_two :
    ChangesOwnTerminators twoEnv (imageContents twoSyms twoTable) twoIdents
        (twoState [97, 0, 98, 0, 97, 0]) ∧
      (marks twoEnv twoIdents (recordsOf twoEnv.map (imageContents twoSyms twoTable))).map
        StrPtr.term = [8197, 8193, 8195] := by
  refine ⟨(collectFrom_frame twoIdents_callAt).mpr ?_, twoIdents_marks⟩
  rw [← twoIdents_callAt.args.nodup_marks, twoIdents_marks]
  decide

/-- The identifier `t.c`. -/
def identFile : StrPtr := identAt 8192 [116, 46, 99] rfl

/-- Two tests of one file overwrite a byte behind the name of the file. -/
theorem collectFrom_overwrites : ∃ env c args s, CallAt env c args s ∧
    ¬ ChangesOwnTerminators env c args s := by
  have h : CallAt twoEnv (imageContents twoSyms twoTable) [identFile]
      (twoState [116, 46, 99, 0, 72, 0]) := two_callAt (by decide +kernel) (by simp) (by decide)
  refine ⟨_, _, _, _, h, fun hown => ?_⟩
  have hnd := (changesOwn_iff h).mp hown
  rw [two_records] at hnd
  exact absurd hnd (by decide +kernel)

/-- An identifier that is the name of no test, nor of its file. -/
theorem two_not_known {a : StrPtr} (h : ¬ Names twoEnv 0x10100 a.bytes)
    (h' : ¬ Names twoEnv 0x10200 a.bytes) :
    ¬ Known twoEnv (imageContents twoSyms twoTable) a := by
  rintro ⟨r, hr, hnames⟩
  rw [two_records] at hr
  simp only [List.mem_cons, List.not_mem_nil, or_false] at hr
  rcases hr with rfl | rfl
  · exact h hnames
  · exact h' hnames

/-- The identifiers `a`, `x` and once more `a`. -/
def unknownIdents : List StrPtr :=
  [identAt 8192 [97] rfl, identAt 8194 [120] rfl, identAt 8196 [97] rfl]

theorem unknownIdents_callAt :
    CallAt twoEnv (imageContents twoSyms twoTable) unknownIdents
      (twoState [97, 0, 120, 0, 97, 0]) :=
  two_callAt (by decide) (by simp [unknownIdents, identAt, StrPtr.term]) (by decide)

theorem unknownIdents_marks : (marks twoEnv unknownIdents
    (recordsOf twoEnv.map (imageContents twoSyms twoTable))).map StrPtr.term = [8197, 8193] := by
  rw [two_records]
  decide

/-- What the portable `cldm_memcmp` compares: the first bytes. -/
def memcmpHeads : List UInt8 → List UInt8 → ℤ
  | a :: _, b :: _ => (a.toNat : ℤ) - b.toNat
  | _, _ => 0

/-- It tells words apart of which no two of one length begin with the same byte. -/
theorem tellsApart_heads {W : List (List UInt8)}
    (h : ∀ x ∈ W, ∀ y ∈ W, x.length = y.length → x.head? = y.head? → x = y) :
    TellsApart memcmpHeads {w | w ∈ W} := by
  intro x hx y hy hlen
  rcases x with _ | ⟨a, x⟩
  · rcases y with _ | ⟨b, y⟩
    · exact iff_of_true rfl rfl
    · exact absurd hlen (by simp)
  · rcases y with _ | ⟨b, y⟩
    · exact absurd hlen (by simp)
    · constructor
      · intro h0
        have hab : a = b := UInt8.toNat_inj.mp (by simp only [memcmpHeads] at h0; omega)
        exact h _ hx _ hy hlen (by rw [hab]; rfl)
      · intro heq
        obtain ⟨rfl, -⟩ := List.cons.inj heq
        exact sub_self _

/-- The two tests in the portable build. -/
def twoPortable : CollectEnv := { twoEnv with build := .portable, memcmp := memcmpHeads }

theorem unknownIdents_portable :
    CallAt twoPortable (imageContents twoSyms twoTable) unknownIdents
      (twoState [97, 0, 120, 0, 97, 0]) := by
  have h := unknownIdents_callAt
  have hwords : ∀ w ∈ comparedWords twoPortable
      (recordsOf twoPortable.map (imageContents twoSyms twoTable)) unknownIdents,
      w ∈ [[97], [120], [98], [116, 46, 99]] := by
    rintro w (⟨a, ha, rfl⟩ | ⟨r, hr, hw⟩)
    · exact (by decide : ∀ a ∈ unknownIdents, a.bytes ∈ [[97], [120], [98], [116, 46, 99]]) a ha
    · have hr' : r ∈ [0x10100, 0x10200] := two_records ▸ hr
      simp only [List.mem_cons, List.not_mem_nil, or_false] at hr'
      rcases hr' with rfl | rfl <;> rcases hw with rfl | rfl <;> decide
  have hheads : TellsApart memcmpHeads {w | w ∈ [[97], [120], [98], [116, 46, 99]]} :=
    tellsApart_heads (by decide)
  exact ⟨⟨h.program.image, h.program.file, h.program.name⟩,
    fun x hx y hy => hheads x (hwords x hx) y (hwords y hy),
    ⟨h.args.strAt, h.args.writable, h.args.addr, h.args.apart, h.args.few, h.args.short⟩,
    h.calloc, h.found, fun hbuild => absurd hbuild (by decide)⟩

/-- In both builds the first identifier is accepted and the second one rejected. -/
theorem unknownIdents_accepts {env : CollectEnv}
    (h : CallAt env (imageContents twoSyms twoTable) unknownIdents
      (twoState [97, 0, 120, 0, 97, 0]))
    (hmarks : (marks env unknownIdents
      (recordsOf env.map (imageContents twoSyms twoTable))).map StrPtr.term = [8197, 8193])
    (hunknown : ¬ Known env (imageContents twoSyms twoTable) (identAt 8194 [120] rfl)) :
    AcceptsKnown env (imageContents twoSyms twoTable) (twoMem [97, 0, 120, 0, 97, 0])
      unknownIdents := by
  have hpark := parks_of_nodup (h.args.firstFree_marks
    (recordsOf env.map (imageContents twoSyms twoTable))) (by rw [hmarks]; decide)
  rw [hmarks] at hpark
  have hverdict : ∀ a ∈ unknownIdents, verdict env.build (markedMem env
      (imageContents twoSyms twoTable) (twoMem [97, 0, 120, 0, 97, 0]) unknownIdents) a = _ :=
    fun a ha => h.verdict_eq hpark ha ((by decide : ∀ a ∈ unknownIdents, 32 ≤ toEdge a.addr) a ha)
  refine ⟨?_, fun hall => absurd (hall _ (by simp [unknownIdents])) hunknown, fun _ => ?_⟩
  · exact (exists_parks_iff (street_ends (twoMem_end _))).mp ⟨_, hpark⟩
  · refine ⟨[identAt 8192 [97] rfl], identAt 8194 [120] rfl, [identAt 8196 [97] rfl], rfl,
      fun b hb => ?_, ?_⟩
    · rw [hverdict b (by rw [List.mem_singleton.mp hb]; simp [unknownIdents]),
        List.mem_singleton.mp hb]
      decide
    · rw [hverdict _ (by simp [unknownIdents])]
      decide

/-- The unknown identifier between two others is found by both builds. -/
theorem collectFrom_validity_two :
    FailsForUnknown twoEnv (imageContents twoSyms twoTable) unknownIdents
        (twoState [97, 0, 120, 0, 97, 0]) ∧
      FailsForUnknown twoPortable (imageContents twoSyms twoTable) unknownIdents
        (twoState [97, 0, 120, 0, 97, 0]) ∧
      Total (collectFrom twoEnv [8192, 8194, 8196]) (fun n _ => n < 0)
        (twoState [97, 0, 120, 0, 97, 0]) := by
  have hunknown : ¬ Known twoEnv (imageContents twoSyms twoTable) (identAt 8194 [120] rfl) :=
    two_not_known (by decide) (by decide)
  have hfails := (collectFrom_validity unknownIdents_callAt (twoMem_end _)).mpr
    (unknownIdents_accepts unknownIdents_callAt unknownIdents_marks hunknown)
  refine ⟨hfails, (collectFrom_validity unknownIdents_portable (twoMem_end _)).mpr
    (unknownIdents_accepts unknownIdents_portable unknownIdents_marks hunknown), ?_⟩
  exact hfails.mono fun n _ hn => hn.mpr ⟨_, by simp [unknownIdents], hunknown⟩

/-- An identifier with a byte that is negative as a `signed char`. -/
def identNegative : StrPtr := identAt 8192 [195, 169] rfl

/-- An identifier that names no test, but has a byte that is negative. -/
theorem collectFrom_accepts_unknown : ∃ env c args s, CallAt env c args s ∧
    (∀ a, 2 ^ 64 ≤ a → s.mem a = none) ∧ ¬ FailsForUnknown env c args s := by
  have h : CallAt twoEnv (imageContents twoSyms twoTable) [identNegative] (twoState [195, 169, 0]) :=
    two_callAt (by decide +kernel) (by simp) (by decide)
  refine ⟨_, _, _, _, h, twoMem_end _, ?_⟩
  rintro ⟨n, s', hret, hfails⟩
  have hunknown : ¬ Known twoEnv (imageContents twoSyms twoTable) identNegative :=
    two_not_known (by decide) (by decide)
  obtain ⟨T, hm, -⟩ := h.settles.of_returns hret
  obtain ⟨ok, hok, hneg⟩ := h.neg_iff hret
  have haccept := h.verdict_eq hm.parks (List.mem_singleton_self _) (by decide)
  rw [decide_eq_true (.inr ⟨195, by decide, by decide⟩)] at haccept
  have hall := verdicts_true.mpr fun a ha => by
    rw [List.mem_singleton.mp ha]
    exact haccept
  obtain rfl := Option.some.inj (hok.symm.trans hall)
  exact absurd (hneg.mp (hfails.mpr ⟨_, List.mem_singleton_self _, hunknown⟩)) (by simp)

theorem collectFrom_selects_two : ∃ s',
    Returns (collectFrom twoEnv [8192, 8194, 8196]) (twoState [97, 0, 98, 0, 97, 0]) 2 s' ∧
      s'.tree.stored = {0x10100, 0x10200} := by
  have h := twoIdents_callAt
  have hpark := twoIdents_parks
  have hall : verdicts twoEnv.build (markedMem twoEnv (imageContents twoSyms twoTable)
      (twoState [97, 0, 98, 0, 97, 0]).mem twoIdents) twoIdents = some true :=
    verdicts_true.mpr fun a ha => by
      rw [h.verdict_eq hpark ha ((by decide : ∀ a ∈ twoIdents, 32 ≤ toEdge a.addr) a ha),
        decide_eq_true (.inl ((by decide : ∀ a ∈ twoIdents,
          a.term ∈ ({8197, 8193, 8195} : Finset ℕ)) a ha))]
  obtain ⟨n, s', hret, -⟩ := h.settles.total fun hfault => by
    have hnone := hfault _ hpark
    rw [← markedMem_eq hpark] at hnone
    exact Option.some_ne_none _ (hall.symm.trans hnone)
  obtain ⟨ok, hok, hneg⟩ := h.neg_iff hret
  obtain rfl := Option.some.inj (hok.symm.trans hall)
  obtain ⟨l, hl, -⟩ := collectFrom_selects h (by rw [two_records]; decide) hret (by
    by_contra hlt
    exact absurd (hneg.mp (by omega)) (by simp))
  have hmem : ∀ r, r ∈ l ↔ r ∈ [0x10100, 0x10200] := by
    intro r
    rw [hl.mem, two_records, and_iff_left_iff_imp]
    exact fun hr => (by decide : ∀ r ∈ [0x10100, 0x10200],
      ∃ a ∈ twoIdents, Names twoEnv r a.bytes) r hr
  have hperm := (List.perm_ext_iff_of_nodup hl.nodup (by decide)).mpr hmem
  refine ⟨s', ?_, ?_⟩
  · have hn : n = 2 := by
      rw [hl.count, hperm.length_eq]
      rfl
    rwa [hn] at hret
  · rw [hl.stored]
    ext r
    simp [hmem]

end Cldm
