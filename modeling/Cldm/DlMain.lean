/-
The handles of the needed libraries, from `cldm_dlmap_needed` to the end of `main`.

`cldm_dlmap_needed` opens the libraries that `cldm_elf_read_needed` lists in a buffer.
The handles are closed by `cldm_dlfree`, which is called where a library cannot be opened
and in the epilogue of `main`.  The other functions that `main` calls do not touch the
handles; what they answer is a parameter.

* `Listed` — the libraries that the loop over the buffer comes to;
* `dlmapNeeded_spec` — the handles after `cldm_dlmap_needed`;
* `main_closes_once` — each handle is closed once exactly if no library fails to open after
  another has been opened;
* `main_closes_twice` — two libraries, the second of which cannot be opened.
-/
import Cldm.DlNext
import Mathlib.Data.List.Perm.Basic

namespace Cldm

open Prog Bytes

/-- `CLDM_DLBUF_SIZE`. -/
abbrev dlbufSize : ℕ := 1024

/-- `CLDM_SOLIB`, `"libcldm.so"`. -/
def solib : List UInt8 := [108, 105, 98, 99, 108, 100, 109, 46, 115, 111]

/-- The handles, and the calls of `dlopen` and `dlclose`: how often a library was opened or
tried to, the handles that were returned, and those that were closed. -/
structure DlHandles where
  ndlhandles : ℕ
  dlhandles : ℕ → ℕ
  calls : ℕ
  opened : List ℕ
  closed : List ℕ

/-- What `main` gets from outside: the answers of `dlopen`, 0 for a null pointer, by the
number of the call, and the answers of the other functions that it calls. -/
structure DlMainEnv where
  dlopen : ℕ → ℕ
  argpParse : Bool
  help : Bool
  version : Bool
  isElf64 : Bool
  isExecutable : Bool
  capture : Bool
  run : ℤ

section Definitions

variable (env : DlMainEnv)

/-- `dlclose(dlhandles[i])`. -/
def dlcloseAt (i : ℕ) : Prog DlHandles Unit :=
  modify fun s => { s with closed := s.closed ++ [s.dlhandles i] }

/-- One turn of the loop of `cldm_dlfree` over the handles. -/
def dlfreeBody (i : ℕ) : Prog DlHandles (ℕ ⊕ Unit) := do
  let s ← get
  if i < s.ndlhandles then
    dlcloseAt i
    return .inl ((i + 1) % 2 ^ 32)
  else
    return .inr ()

/-- `cldm_dlfree`.  The caches of the threads, which it frees as well, are left out. -/
def dlfree (fuel : ℕ) : Prog DlHandles Unit := fuelLoop dlfreeBody fuel 0

/-- `dlhandles[ndlhandles] = dlopen(name, RTLD_LAZY)`. -/
def dlopenNext : Prog DlHandles ℕ := do
  let s ← get
  let handle := env.dlopen s.calls
  set { s with
    dlhandles := Function.update s.dlhandles s.ndlhandles handle
    calls := s.calls + 1
    opened := if handle = 0 then s.opened else s.opened ++ [handle] }
  return handle

/-- Open a library: the body of the loop of `cldm_dlmap_needed`; false if that failed. -/
def dlmapOpen (fuel : ℕ) : Prog DlHandles Bool := do
  let s ← get
  if s.ndlhandles < maxSodeps then
    let handle ← dlopenNext env
    if handle = 0 then
      dlfree fuel
      return false
    else
      modify fun s => { s with ndlhandles := s.ndlhandles + 1 }
      return true
  else
    return true

/-- One turn of the loop of `cldm_dlmap_needed`. -/
def dlmapBody (mem : Mem) (buffer nbytes fuel i : ℕ) : Prog DlHandles (ℕ ⊕ Bool) := do
  if i < nbytes then
    let diff ← strncmp mem solib (buffer + i)
    let ok ← if diff ≠ 0 then dlmapOpen env fuel else pure true
    if ok then
      let n ← strlen mem (buffer + i) fuel
      return .inl ((i + (n + 1)) % 2 ^ 32)
    else
      return .inr false
  else
    return .inr true

/-- `cldm_dlmap_needed`, where `cldm_elf_read_needed` has returned `nbytes`. -/
def dlmapNeeded (mem : Mem) (buffer : ℕ) (nbytes : ℤ) (fuel : ℕ) : Prog DlHandles ℤ := do
  if nbytes < 0 then
    return -1
  else
    let ok ← fuelLoop (dlmapBody env mem buffer (nbytes.toNat % 2 ^ 32) fuel) fuel 0
    if ok then
      let s ← get
      return s.ndlhandles
    else
      return -1

/-- `main` between `cldm_dlmap_needed` and the epilogue; its answer is the status. -/
def mainBody : ℤ :=
  if env.argpParse = false then 1
  else if env.help then 0
  else if env.version then 0
  else if env.isElf64 = false ∨ env.isExecutable = false then 1
  else if env.capture = false then 1
  else env.run

/-- `main` from `cldm_dlmap_needed` on. -/
def mainNeeded (mem : Mem) (buffer : ℕ) (nbytes : ℤ) (fuel : ℕ) : Prog DlHandles ℤ := do
  let r ← dlmapNeeded env mem buffer nbytes fuel
  let status := if r < 0 then 1 else mainBody env
  dlfree fuel
  return status

end Definitions

/-- The handles at the start. -/
def dlHandlesInit : DlHandles where
  ndlhandles := 0
  dlhandles := fun _ => 0
  calls := 0
  opened := []
  closed := []

/-- The strings in the buffer that begin at index `i` or later, before index `n`. -/
inductive Listed (mem : Mem) (buffer n : ℕ) : ℕ → List (List UInt8) → Prop
  | stop {i : ℕ} : n ≤ i → Listed mem buffer n i []
  | next {i : ℕ} {name : List UInt8} {names : List (List UInt8)} : i < n →
      StrAt mem (buffer + i) name → i + name.length < dlbufSize →
      Listed mem buffer n (i + name.length + 1) names → Listed mem buffer n i (name :: names)

/-- The libraries other than `libcldm.so` itself. -/
def others (names : List (List UInt8)) : List (List UInt8) :=
  names.filter fun name => ¬ solib <+: name

variable {env : DlMainEnv} {mem : Mem} {buffer n k : ℕ} {s s' : DlHandles}
  {names : List (List UInt8)}

/-! ### Closing the handles -/

/-- `cldm_dlfree` closes the handles in order. -/
theorem dlfree_spec (hlt : s.ndlhandles < 2 ^ 32) : Total dlfree (fun _ s' =>
    s' = { s with closed := s.closed ++ (List.range s.ndlhandles).map s.dlhandles }) s := by
  -- the handles below the index are closed
  let I : ℕ → ℕ → DlHandles → Prop := fun b i s' =>
    s' = { s with closed := s.closed ++ (List.range i).map s.dlhandles } ∧
    i ≤ s.ndlhandles ∧ b = s.ndlhandles - i
  refine total_loop (I := I) ?_ s.ndlhandles 0 s ⟨?_, Nat.zero_le _, rfl⟩
  · rintro b i _ ⟨rfl, hi, rfl⟩
    refine Total.wp_bind ((wp_get ..).mpr ?_)
    rcases Nat.lt_or_eq_of_le hi with hlt' | rfl
    · simp only [if_pos hlt']
      refine Total.wp_bind ⟨(), _, rfl, Total.const ((wp_pure ..).mpr ?_)⟩
      rw [Nat.mod_eq_of_lt (by omega)]
      refine ⟨_, Nat.sub_lt_sub_left hlt' (Nat.lt_succ_self i), ?_, hlt', rfl⟩
      simp only [List.range_succ, List.map_append, List.map_cons, List.map_nil, List.append_assoc]
    · simp only [if_neg (Nat.lt_irrefl _)]
      exact Total.const ((wp_pure ..).mpr rfl)
  · rw [List.range_zero, List.map_nil, List.append_nil]

/-! ### Opening the libraries -/

/-- The first `k` calls of `dlopen` have succeeded, and their handles are kept. -/
structure Opened (env : DlMainEnv) (k : ℕ) (s : DlHandles) : Prop where
  ndlhandles : s.ndlhandles = k
  le : k ≤ maxSodeps
  dlhandles : (List.range k).map s.dlhandles = (List.range k).map env.dlopen
  opened : s.opened = (List.range k).map env.dlopen
  nonzero : ∀ i < k, env.dlopen i ≠ 0

/-- The loop can go on: nothing has been closed. -/
structure Opening (env : DlMainEnv) (k : ℕ) (s : DlHandles) : Prop extends Opened env k s where
  calls : s.calls = k
  closed : s.closed = []

/-- What a failed `dlopen` leaves: all handles have been closed, and are kept all the same. -/
structure OpenFailed (env : DlMainEnv) (k : ℕ) (s : DlHandles) : Prop extends Opened env k s where
  failed : env.dlopen k = 0
  closed : s.closed = s.opened

theorem map_range_update {f : ℕ → ℕ} {x : ℕ} :
    (List.range k).map (Function.update f k x) = (List.range k).map f := by
  refine List.map_congr_left fun i hi => Function.update_of_ne ?_ ..
  exact Nat.ne_of_lt (List.mem_range.mp hi)

/-- While there is room for a handle, a library is opened, or the handles are closed. -/
theorem Opening.next (h : Opening env k s) (hroom : k < maxSodeps) :
    Total (dlmapOpen env) (fun ok s' =>
      (ok = true ∧ Opening env (k + 1) s') ∨ (ok = false ∧ OpenFailed env k s')) s := by
  have hmax : maxSodeps = 32 := rfl
  refine Total.wp_bind ((wp_get ..).mpr ?_)
  simp only [h.ndlhandles, if_pos hroom]
  have hopen : dlopenNext env s = some (env.dlopen k, {
      ndlhandles := k
      dlhandles := Function.update s.dlhandles k (env.dlopen k)
      calls := k + 1
      opened := if env.dlopen k = 0 then s.opened else s.opened ++ [env.dlopen k]
      closed := [] }) := by
    have hnext : dlopenNext env s = some (env.dlopen s.calls, {
        ndlhandles := s.ndlhandles
        dlhandles := Function.update s.dlhandles s.ndlhandles (env.dlopen s.calls)
        calls := s.calls + 1
        opened := if env.dlopen s.calls = 0 then s.opened else s.opened ++ [env.dlopen s.calls]
        closed := s.closed }) := rfl
    rwa [h.calls, h.ndlhandles, h.closed] at hnext
  have hupdate : (List.range k).map (Function.update s.dlhandles k (env.dlopen k)) =
      (List.range k).map env.dlopen := map_range_update.trans h.dlhandles
  refine Total.wp_bind ((wp_of_some hopen).mpr ?_)
  by_cases h0 : env.dlopen k = 0
  · simp only [if_pos h0]
    refine Total.bind ((dlfree_spec (show k < 2 ^ 32 by omega)).mono ?_)
    rintro _ _ rfl
    refine Total.const ((wp_pure ..).mpr (.inr ⟨rfl, ⟨rfl, h.le, hupdate, h.opened, h.nonzero⟩,
      h0, ?_⟩))
    show [] ++ (List.range k).map _ = s.opened
    rw [List.nil_append, h.opened]
    exact hupdate
  · simp only [if_neg h0]
    refine Total.const ⟨true, _, rfl, .inl ⟨rfl, ⟨rfl, hroom, ?_, ?_, fun i hi => ?_⟩, rfl, rfl⟩⟩
    · show (List.range (k + 1)).map (Function.update s.dlhandles k (env.dlopen k)) = _
      rw [List.range_succ, List.map_append, List.map_append, hupdate, List.map_singleton,
        Function.update_self, List.map_singleton]
    · show s.opened ++ [env.dlopen k] = _
      rw [List.range_succ, List.map_append, h.opened, List.map_singleton]
    · rcases Nat.lt_or_eq_of_le (Nat.le_of_lt_succ hi) with hlt | rfl
      · exact h.nonzero i hlt
      · exact h0

/-- When the array of handles is full, no library is opened. -/
theorem Opening.full (h : Opening env maxSodeps s) (fuel : ℕ) :
    dlmapOpen env fuel s = some (true, s) := by
  refine bind_get ?_
  rw [if_neg (by rw [h.ndlhandles]; exact Nat.lt_irrefl _)]
  rfl

/-- Whether a name is not that of `libcldm.so`. -/
theorem others_cons (name : List UInt8) : others (name :: names) =
    if solib <+: name then others names else name :: others names := by
  rw [others, List.filter_cons]
  by_cases hname : solib <+: name
  · rw [if_pos hname, if_neg (by simpa using hname)]
    rfl
  · rw [if_neg hname, if_pos (by simpa using hname)]
    rfl

/-- The handles after `cldm_dlmap_needed`: as many as there are libraries and room, or
those opened before the first failure. -/
def Mapped (env : DlMainEnv) (names : List (List UInt8)) (ok : Bool) (s : DlHandles) : Prop :=
  (ok = true ∧ Opening env (min (others names).length maxSodeps) s) ∨
    (ok = false ∧ ∃ k < min (others names).length maxSodeps, OpenFailed env k s)

/-- The loop of `cldm_dlmap_needed`. -/
theorem dlmapLoop_spec (hn : n ≤ dlbufSize) (h : Listed mem buffer n 0 names) :
    Total (fun m => fuelLoop (dlmapBody env mem buffer n m) m 0) (Mapped env names)
      dlHandlesInit := by
  have hmax : maxSodeps = 32 := rfl
  have hbuf : dlbufSize = 1024 := rfl
  -- the names from the index on are still to be opened, beyond the first `k`
  let I : ℕ → ℕ → DlHandles → Prop := fun b i s => ∃ rest k, Listed mem buffer n i rest ∧
    Opening env k s ∧
    min (k + (others rest).length) maxSodeps = min (others names).length maxSodeps ∧
    b = rest.length
  have hinit : Opening env 0 dlHandlesInit :=
    ⟨⟨rfl, Nat.zero_le _, rfl, rfl, fun i hi => absurd hi (Nat.not_lt_zero i)⟩, rfl, rfl⟩
  refine total_loop (I := I) ?_ names.length 0 dlHandlesInit
    ⟨names, 0, h, hinit, by rw [Nat.zero_add], rfl⟩
  rintro _ i s ⟨rest, k, hlist, hopen, hmin, rfl⟩
  have hk := hopen.le
  cases hlist with
  | stop hle =>
    simp only [dlmapBody, if_neg (Nat.not_lt.mpr hle)]
    refine Total.const ((wp_pure ..).mpr (.inl ⟨rfl, ?_⟩))
    rw [← hmin]
    show Opening env (min (k + 0) maxSodeps) s
    rwa [Nat.add_zero, Nat.min_eq_left hk]
  | @next _ name rest hlt hname hin hrest =>
    have hnext : (i + (name.length + 1)) % 2 ^ 32 = i + name.length + 1 := by omega
    simp only [dlmapBody, if_pos hlt]
    refine Total.wp_bind (wp_mono (strncmp_spec (by decide) hname s) ?_)
    rintro d _ ⟨hd, rfl⟩
    rw [others_cons] at hmin
    -- the strings behind this one
    have hgo : ∀ {k' s'}, Opening env k' s' →
        min (k' + (others rest).length) maxSodeps = min (others names).length maxSodeps →
        Total (fun m => strlen mem (buffer + i) m >>= fun len =>
            (pure (.inl ((i + (len + 1)) % 2 ^ 32)) : Prog DlHandles (ℕ ⊕ Bool)))
          (fun r s' => Sum.elim (fun i' => ∃ b < (name :: rest).length, I b i' s')
            (fun ok => Mapped env names ok s') r) s' := by
      intro k' s' hopen' hmin'
      refine ((strlen_spec hname.stringAt s').mono ?_).bind
      rintro len _ ⟨rfl, rfl⟩
      refine Total.const ((wp_pure ..).mpr ?_)
      rw [hnext]
      exact ⟨rest.length, Nat.lt_succ_self _, rest, k', hrest, hopen', hmin', rfl⟩
    by_cases hsolib : solib <+: name
    · rw [if_pos hsolib] at hmin
      simp only [if_neg (not_not_intro (hd.mpr hsolib)), pure_bind]
      exact hgo hopen hmin
    · rw [if_neg hsolib, List.length_cons] at hmin
      simp only [if_pos (fun h0 => hsolib (hd.mp h0) : d ≠ 0)]
      rcases Nat.lt_or_eq_of_le hk with hroom | rfl
      · refine Total.bind ((hopen.next hroom).mono ?_)
        rintro ok s' (⟨rfl, hopen'⟩ | ⟨rfl, hfail⟩)
        · exact hgo hopen' (by omega)
        · exact Total.const ((wp_pure ..).mpr (.inr ⟨rfl, k, by omega, hfail⟩))
      · refine Total.bind ⟨true, _, ⟨0, fun m _ => hopen.full m⟩, ?_⟩
        exact hgo hopen (by omega)

/-! ### The end of `main` -/

/-- The answer of `cldm_elf_read_needed` is an error, or the list `names` in the buffer. -/
def NeededList (mem : Mem) (buffer : ℕ) (nbytes : ℤ) (names : List (List UInt8)) : Prop :=
  nbytes < 0 ∧ names = [] ∨ ∃ n : ℕ, nbytes = n ∧ n ≤ dlbufSize ∧ Listed mem buffer n 0 names

/-- The names that `cldm_elf_read_needed` has put in the buffer are listed. -/
theorem neededList_of_table (h : bytesAt mem buffer (tableBytes names).length =
      some (tableBytes names)) (hnames : ∀ name ∈ names, name ≠ [] ∧ 0 ∉ name)
    (hfits : (tableBytes names).length ≤ dlbufSize) :
    NeededList mem buffer ((tableBytes names).length - 1) names := by
  rcases names.eq_nil_or_concat with rfl | ⟨front, last, hsplit⟩
  · exact .inl ⟨by decide, rfl⟩
  have hpos : 0 < (tableBytes names).length := by
    rw [hsplit, List.concat_eq_append, length_tableBytes_snoc]
    omega
  refine .inr ⟨(tableBytes names).length - 1, by omega, by omega, ?_⟩
  -- the names behind the first ones are listed from where they begin
  have key : ∀ rest done, names = done ++ rest →
      Listed mem buffer ((tableBytes names).length - 1) (tableBytes done).length rest := by
    intro rest
    induction rest with
    | nil =>
      rintro done rfl
      rw [List.append_nil]
      exact .stop (Nat.sub_le ..)
    | cons name rest ih =>
      intro done hdone
      obtain ⟨hne, hzero⟩ := hnames name (by rw [hdone]; simp)
      have hlen : 0 < name.length := List.length_pos_iff.mpr hne
      have hall : (tableBytes names).length =
          (tableBytes done).length + (name.length + 1 + (tableBytes rest).length) := by
        rw [hdone, tableBytes_append, List.length_append, length_tableBytes_cons]
      rw [hdone] at h
      refine .next (by omega) (.of_table h hzero) (by omega) ?_
      have hnext := ih (done ++ [name]) (by rw [hdone, List.append_assoc]; rfl)
      rwa [length_tableBytes_snoc] at hnext
  exact key names [] rfl

/-- The handles after `cldm_dlmap_needed`. -/
theorem dlmapNeeded_spec {nbytes : ℤ} (h : NeededList mem buffer nbytes names) :
    Total (dlmapNeeded env mem buffer nbytes) (fun _ s => ∃ ok, Mapped env names ok s)
      dlHandlesInit := by
  rcases h with ⟨hneg, rfl⟩ | ⟨n, rfl, hn, hlist⟩
  · have heq : dlmapNeeded env mem buffer nbytes = fun _ => pure (-1) :=
      funext fun fuel => if_pos hneg
    rw [heq]
    refine Total.const ((wp_pure ..).mpr ⟨true, .inl ⟨rfl, ?_⟩⟩)
    exact ⟨⟨rfl, Nat.zero_le _, rfl, rfl, fun i hi => absurd hi (Nat.not_lt_zero i)⟩, rfl, rfl⟩
  · have hbuf : dlbufSize = 1024 := rfl
    have hmod : (n : ℤ).toNat % 2 ^ 32 = n := by
      rw [Int.toNat_natCast]
      omega
    have heq : dlmapNeeded env mem buffer n = fun fuel =>
        fuelLoop (dlmapBody env mem buffer n fuel) fuel 0 >>= fun ok =>
          if ok then get >>= fun s => pure (s.ndlhandles : ℤ) else pure (-1) := by
      funext fuel
      rw [dlmapNeeded, if_neg (Int.not_lt.mpr (Int.natCast_nonneg n)), hmod]
    rw [heq]
    refine Total.bind ((dlmapLoop_spec hn hlist).mono ?_)
    intro ok s hmapped
    cases ok with
    | true => exact Total.const ⟨_, s, rfl, true, hmapped⟩
    | false => exact Total.const ⟨_, s, rfl, false, hmapped⟩

/-- Every handle that was opened has been closed once. -/
def ClosedOnce (s : DlHandles) : Prop := s.closed.Perm s.opened

/-- The epilogue closes the handles that are kept, once more where they have been closed. -/
theorem Opened.epilogue (h : Opened env k s) : Total dlfree (fun _ s' =>
    s'.opened = (List.range k).map env.dlopen ∧
    s'.closed = s.closed ++ (List.range k).map env.dlopen) s := by
  have hle := h.le
  have hmax : maxSodeps = 32 := rfl
  refine (dlfree_spec (by rw [h.ndlhandles]; omega)).mono ?_
  rintro _ _ rfl
  refine ⟨h.opened, ?_⟩
  rw [h.ndlhandles, h.dlhandles]

/-- What has been closed at the end of `main`: the handles that were opened, and once more
those where a library failed to open. -/
theorem mainNeeded_spec {nbytes : ℤ} (h : NeededList mem buffer nbytes names) :
    Total (mainNeeded env mem buffer nbytes) (fun _ s =>
      (∀ k < min (others names).length maxSodeps, env.dlopen k ≠ 0) ∧ s.closed = s.opened ∨
      ∃ k < min (others names).length maxSodeps, env.dlopen k = 0 ∧
        (∀ i < k, env.dlopen i ≠ 0) ∧ s.opened = (List.range k).map env.dlopen ∧
        s.closed = s.opened ++ s.opened) dlHandlesInit := by
  refine Total.bind ((dlmapNeeded_spec h).mono ?_)
  rintro r s ⟨ok, ⟨rfl, hopen⟩ | ⟨rfl, k, hk, hfail⟩⟩
  · refine Total.bind (hopen.epilogue.mono ?_)
    rintro _ s' ⟨hopened, hclosed⟩
    refine Total.const ((wp_pure ..).mpr (.inl ⟨hopen.nonzero, ?_⟩))
    rw [hopened, hclosed, hopen.closed, List.nil_append]
  · refine Total.bind (hfail.epilogue.mono ?_)
    rintro _ s' ⟨hopened, hclosed⟩
    refine Total.const ((wp_pure ..).mpr (.inr ⟨k, hk, hfail.failed, hfail.nonzero, hopened, ?_⟩))
    rw [hclosed, hfail.closed, hfail.opened, hopened]

/-- At the end of `main` every handle that was opened has been closed once, if and only if
the first library could not be opened, or none of them failed to. -/
theorem main_closes_once {nbytes : ℤ} (h : NeededList mem buffer nbytes names) :
    Total (mainNeeded env mem buffer nbytes) (fun _ s => ClosedOnce s ↔
      env.dlopen 0 = 0 ∨ ∀ k < min (others names).length maxSodeps, env.dlopen k ≠ 0)
      dlHandlesInit := by
  refine (mainNeeded_spec h).mono ?_
  rintro _ s (⟨hall, hclosed⟩ | ⟨k, hk, hfail, hbefore, hopened, hclosed⟩)
  · refine iff_of_true ?_ (.inr hall)
    rw [ClosedOnce, hclosed]
  · rw [ClosedOnce, hclosed, hopened]
    constructor
    · intro hperm
      have hlen := hperm.length_eq
      rw [List.length_append, List.length_map, List.length_range] at hlen
      obtain rfl : k = 0 := by omega
      exact .inl hfail
    · rintro (h0 | hall)
      · obtain rfl : k = 0 := Nat.eq_zero_of_not_pos fun hpos => hbefore 0 hpos h0
        exact List.Perm.refl _
      · exact absurd hfail (hall k hk)

/-! ### Two libraries -/

/-- `main` without options, in a program that needs two libraries. -/
def neededLibsEnv (dlopen : ℕ → ℕ) : DlMainEnv where
  dlopen := dlopen
  argpParse := true
  help := false
  version := false
  isElf64 := true
  isExecutable := true
  capture := true
  run := 0

/-- The buffer with the names `a` and `b`. -/
def neededLibs : Mem := fun a => if 4096 ≤ a then ([97, 0, 98, 0] : List UInt8)[a - 4096]? else none

theorem neededLibs_list : NeededList neededLibs 4096 3 [[97], [98]] := by
  have htable : bytesAt neededLibs 4096 (tableBytes [[97], [98]]).length =
      some (tableBytes [[97], [98]]) := by decide
  exact neededList_of_table htable (by decide) (by decide)

theorem main_closes_once_two :
    Total (mainNeeded (neededLibsEnv fun k => k + 1) neededLibs 4096 3) (fun _ s => ClosedOnce s)
      dlHandlesInit :=
  (main_closes_once neededLibs_list).mono fun _ _ hiff =>
    hiff.mpr (.inr fun k _ => Nat.succ_ne_zero k)

/-- Where `a` is opened and `b` is not, `a` is closed twice. -/
theorem main_closes_twice : Total
    (mainNeeded (neededLibsEnv fun k => if k = 0 then 1 else 0) neededLibs 4096 3)
    (fun _ s => s.opened = [1] ∧ s.closed = [1, 1]) dlHandlesInit := by
  refine (mainNeeded_spec neededLibs_list).mono ?_
  rintro _ s (⟨hall, -⟩ | ⟨k, hk, hfail, -, hopened, hclosed⟩)
  · exact absurd rfl (hall 1 (by decide))
  · have hk' : k < 2 := hk.trans_le (Nat.min_le_left ..)
    obtain rfl : k = 1 := by
      by_contra hne
      obtain rfl : k = 0 := by omega
      exact absurd hfail Nat.one_ne_zero
    rw [hclosed, hopened]
    exact ⟨rfl, rfl⟩

end Cldm
