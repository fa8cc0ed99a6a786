/-
Sorting the command line by the flags of its words.

* `posflag` — the flag of a word, and what setting one changes (`setPosflag_eq`);
* `argpPartition_spec` — the words without their flag come first, and then the words
  with it, both in order.
-/
import Cldm.Argp
import Cldm.Reader
import Mathlib.Data.Nat.Bitwise

namespace Cldm

open Prog Reader

variable {P : Type} {s : ArgpState P} {argc i n : ℕ}

/-! ### Flags -/

/-- The flag of word `i + 1`. -/
def ArgpState.posflag (s : ArgpState P) (i : ℕ) : Bool := (s.posflags (i / 8)).toNat.testBit (i % 8)

theorem and_shiftLeft_ne_zero (m k : ℕ) : m &&& 1 <<< k ≠ 0 ↔ m.testBit k = true := by
  rw [Nat.one_shiftLeft, Nat.and_two_pow]
  cases m.testBit k <;> simp

/-- Setting a flag leaves the other flags as they were. -/
theorem setPosflag_eq (hi : i < argpMaxParams) (s : ArgpState P) :
    ∃ s', setPosflag i s = some ((), s') ∧ s'.ctx = s.ctx ∧ s'.argv = s.argv ∧
      ∀ j, s'.posflag j = (s.posflag j || decide (j = i)) := by
  have hdiv : i / 8 < argpMaxParams / 8 := by
    simp only [argpMaxParams] at hi ⊢
    omega
  refine ⟨_, if_pos hdiv, rfl, rfl, fun j => ?_⟩
  have hlt : (s.posflags (i / 8)).toNat ||| 1 <<< (i % 8) < 2 ^ 8 := by
    rw [Nat.one_shiftLeft]
    exact Nat.or_lt_two_pow (s.posflags (i / 8)).toNat_lt
      (Nat.pow_lt_pow_right (by omega) (Nat.mod_lt _ (by omega)))
  by_cases hj : j / 8 = i / 8
  · show (Function.update s.posflags (i / 8) _ (j / 8) : UInt8).toNat.testBit _ = _
    rw [hj, Function.update_self, UInt8.toNat_ofNat', Nat.mod_eq_of_lt hlt, Nat.testBit_or,
      Nat.one_shiftLeft, Nat.testBit_two_pow, ArgpState.posflag, hj]
    congr 1
    exact decide_eq_decide.mpr (by omega)
  · have hne : ¬ j = i := fun h => hj (by rw [h])
    show (Function.update s.posflags (i / 8) _ (j / 8) : UInt8).toNat.testBit _ = _
    rw [Function.update_of_ne hj, decide_eq_false hne, Bool.or_false]
    rfl

/-! ### Partition -/

/-- The pointers of a command line behind the first. -/
def argvWords (argv : ℕ → P) (argc : ℕ) : List P := (List.range (argc - 1)).map fun i => argv (i + 1)

/-- The buffer after some words: the words without their flag, and the words with it. -/
structure Sorted (t : ArgpTmp P) (argc : ℕ) (low high : List P) : Prop where
  lidx : t.lidx = low.length
  hidx : t.hidx = argc + high.length
  low : ∀ j < argc, t.tmp j = low[j]?
  high : ∀ j, t.tmp (argc + j) = high[j]?

theorem getElem?_concat {l : List P} {p : P} (j : ℕ) :
    (l ++ [p])[j]? = if j = l.length then some p else l[j]? := by
  rcases Nat.lt_trichotomy j l.length with hlt | rfl | hgt
  · rw [if_neg (by omega), List.getElem?_append_left hlt]
  · rw [if_pos rfl, List.getElem?_concat_length]
  · rw [if_neg (by omega), List.getElem?_eq_none (by simp; omega), List.getElem?_eq_none (by omega)]

theorem Sorted.turn_low {t : ArgpTmp P} {low high : List P} (h : Sorted t argc low high)
    (hlow : low.length < argc) (hflag : s.posflag i = false) :
    ∃ t', argpPartitionTurn s argc t i = some t' ∧ Sorted t' argc (low ++ [s.argv (i + 1)]) high := by
  have hno : ¬ ((s.posflags (i / 8)).toNat &&& 1 <<< (i % 8) ≠ 0) := by
    rw [and_shiftLeft_ne_zero]
    exact Bool.eq_false_iff.mp hflag
  have hlt : t.lidx < 2 * argc := by
    rw [h.lidx]
    omega
  rw [argpPartitionTurn, if_neg hno, if_pos hlt]
  refine ⟨_, rfl, ?_⟩
  constructor
  case lidx => simp [h.lidx]
  case hidx => exact h.hidx
  case low =>
    intro j hj
    rw [getElem?_concat, ← h.lidx, ← h.low j hj]
    exact Function.update_apply ..
  case high =>
    intro j
    rw [← h.high j]
    have := h.lidx
    exact Function.update_of_ne (by omega) ..

theorem Sorted.turn_high {t : ArgpTmp P} {low high : List P} (h : Sorted t argc low high)
    (hhigh : high.length < argc) (hflag : s.posflag i = true) :
    ∃ t', argpPartitionTurn s argc t i = some t' ∧ Sorted t' argc low (high ++ [s.argv (i + 1)]) := by
  have hyes : (s.posflags (i / 8)).toNat &&& 1 <<< (i % 8) ≠ 0 :=
    (and_shiftLeft_ne_zero ..).mpr hflag
  have hlt : t.hidx < 2 * argc := by
    rw [h.hidx]
    omega
  rw [argpPartitionTurn, if_pos hyes, if_pos hlt]
  refine ⟨_, rfl, ?_⟩
  constructor
  case lidx => exact h.lidx
  case hidx => simp [h.hidx, Nat.add_assoc]
  case low =>
    intro j hj
    rw [← h.low j hj]
    have := h.hidx
    exact Function.update_of_ne (by omega) ..
  case high =>
    intro j
    rw [getElem?_concat, ← h.high j]
    show Function.update t.tmp t.hidx _ (argc + j) = _
    rw [Function.update_apply, h.hidx]
    simp only [Nat.add_left_cancel_iff]

variable {kinds : List Bool} {words : List P}

/-- The loop sorts the words that it has seen. -/
theorem argpPartition_loop (hwords : argvWords s.argv argc = words) (hlen : kinds.length = words.length)
    (hkinds : ∀ i, i < argc - 1 → kinds[i]? = some (s.posflag i)) (hn : n ≤ argc - 1) :
    ∃ t, (List.range n).foldlM (argpPartitionTurn s argc) ⟨fun _ => none, 0, argc⟩ = some t ∧
      Sorted t argc (selected (fun b => !b) (kinds.take n) (words.take n))
        (selected id (kinds.take n) (words.take n)) := by
  induction n with
  | zero =>
    refine ⟨_, rfl, ?_⟩
    constructor
    case lidx => rfl
    case hidx => rfl
    case low => exact fun j _ => rfl
    case high => exact fun j => rfl
  | succ n ih =>
    obtain ⟨t, ht, hsorted⟩ := ih (by omega)
    have hwordsn : words[n]? = some (s.argv (n + 1)) := by
      rw [← hwords, argvWords, List.getElem?_map, List.getElem?_range (by omega)]
      rfl
    have hkind := hkinds n (by omega)
    have htake : (kinds.take n).length = (words.take n).length := by
      rw [List.length_take, List.length_take, hlen]
    rw [List.range_succ, List.foldlM_append, ht]
    rw [List.take_add_one, List.take_add_one, hwordsn, hkind]
    have hle : ∀ keep : Bool → Bool, (selected keep (kinds.take n) (words.take n)).length < argc := by
      intro keep
      have := (selected_sublist keep (kinds.take n) (words.take n)).length_le
      rw [List.length_take] at this
      omega
    rw [selected_append htake, selected_append htake]
    cases hflag : s.posflag n with
    | false =>
      obtain ⟨t', ht', hsorted'⟩ := hsorted.turn_low (hle _) hflag
      refine ⟨t', ?_, ?_⟩
      · show (argpPartitionTurn s argc t n >>= fun t => some t) = some t'
        rw [ht']
        rfl
      · simpa [selected] using hsorted'
    | true =>
      obtain ⟨t', ht', hsorted'⟩ := hsorted.turn_high (hle _) hflag
      refine ⟨t', ?_, ?_⟩
      · show (argpPartitionTurn s argc t n >>= fun t => some t) = some t'
        rw [ht']
        rfl
      · simpa [selected] using hsorted'

/-- Copying writes the pointers, and nothing else. -/
theorem argpCopy_eq (tmp : ℕ → Option P) (dst src : ℕ) (l : List P) (argv : ℕ → P)
    (htmp : ∀ j < l.length, tmp (src + j) = l[j]?) (hn : n ≤ l.length) :
    ∃ argv', argpCopy tmp dst src n argv = some argv' ∧
      (∀ j < n, some (argv' (dst + j)) = l[j]?) ∧
      ∀ j, j < dst ∨ dst + n ≤ j → argv' j = argv j := by
  induction n with
  | zero => exact ⟨argv, rfl, fun j hj => absurd hj (Nat.not_lt_zero j), fun j _ => rfl⟩
  | succ n ih =>
    obtain ⟨argv₁, hcopy, hin, hout⟩ := ih (by omega)
    have hlt : n < l.length := by omega
    have hget : tmp (src + n) = some l[n] := by
      rw [htmp n hlt, List.getElem?_eq_getElem]
    refine ⟨Function.update argv₁ (dst + n) l[n], ?_, fun j hj => ?_, fun j hj => ?_⟩
    · rw [argpCopy, hcopy]
      show (tmp (src + n) >>= fun p => some (Function.update argv₁ (dst + n) p)) = _
      rw [hget]
      rfl
    · rcases Nat.lt_or_eq_of_le (Nat.le_of_lt_succ hj) with hlt | rfl
      · rw [Function.update_of_ne (by omega)]
        exact hin j hlt
      · rw [Function.update_self, List.getElem?_eq_getElem]
    · rw [Function.update_of_ne (by omega)]
      exact hout j (by omega)

/-- The command line after the words were sorted by their flags. -/
structure Partitioned (s s' : ArgpState P) (argc : ℕ) (used positional : List P) : Prop where
  words : argvWords s'.argv argc = used ++ positional
  others : ∀ j, j = 0 ∨ argc ≤ j → s'.argv j = s.argv j
  settings : s'.ctx.args.toArgpSettings = s.ctx.args.toArgpSettings
  posparams : s'.ctx.args.posparams = used.length + 1
  nposparams : s'.ctx.args.nposparams = positional.length

/-- `cldm_argp_partition` moves the words with their flag to the end. -/
theorem argpPartition_spec (hargc : 1 ≤ argc) (hmax : argc ≤ argpMaxParams)
    (hwords : argvWords s.argv argc = words) (hlen : kinds.length = words.length)
    (hkinds : ∀ i, i < argc - 1 → kinds[i]? = some (s.posflag i)) :
    wp (argpPartition allocs argc) (fun r s' => r = true ∧ Partitioned s s' argc
      (selected (fun b => !b) kinds words) (selected id kinds words)) s := by
  have hcount : words.length = argc - 1 := by
    rw [← hwords, argvWords, List.length_map, List.length_range]
  obtain ⟨t, ht, hsorted⟩ := argpPartition_loop hwords hlen hkinds (Nat.le_refl (argc - 1))
  rw [List.take_of_length_le (by omega), List.take_of_length_le (by omega)] at hsorted
  have hperm := (selected_perm id hlen).length_eq
  set used := selected (fun b => !b) kinds words with hused
  set positional := selected id kinds words with hpositional
  rw [List.length_append, show (fun r => !id r) = fun b : Bool => !b from rfl, ← hused,
    hcount] at hperm
  have hlow : ∀ j < used.length, t.tmp (0 + j) = used[j]? := by
    intro j hj
    rw [Nat.zero_add]
    exact hsorted.low j (by omega)
  obtain ⟨argv₁, hcopy₁, hin₁, hout₁⟩ := argpCopy_eq t.tmp 1 0 used s.argv hlow (Nat.le_refl _)
  obtain ⟨argv₂, hcopy₂, hin₂, hout₂⟩ := argpCopy_eq t.tmp (used.length + 1) argc positional argv₁
    (fun j _ => hsorted.high j) (Nat.le_refl _)
  have hhidx : t.hidx - argc = positional.length := by
    rw [hsorted.hidx, Nat.add_sub_cancel_left]
  refine ⟨true, s.sorted argc used.length argv₂, ?_, rfl, ?_⟩
  · rw [argpPartition, if_pos rfl, ht]
    simp only [Option.bind_eq_bind, Option.bind_some, hsorted.lidx, hcopy₁, hhidx, hcopy₂]
    rfl
  · constructor
    case words =>
      refine List.ext_getElem? fun j => ?_
      show ((List.range (argc - 1)).map fun i => argv₂ (i + 1))[j]? = _
      rw [List.getElem?_map]
      rcases Nat.lt_or_ge j (argc - 1) with hj | hj
      · rw [List.getElem?_range hj, Option.map_some]
        rcases Nat.lt_or_ge j used.length with hlt | hge
        · rw [List.getElem?_append_left hlt, ← hin₁ j hlt, hout₂ (j + 1) (.inl (by omega)),
            Nat.add_comm 1 j]
        · rw [List.getElem?_append_right hge, ← hin₂ (j - used.length) (by omega)]
          congr 2
          omega
      · rw [List.getElem?_eq_none (by simpa using hj), Option.map_none,
          List.getElem?_eq_none (by rw [List.length_append]; omega)]
    case others =>
      intro j hj
      show argv₂ j = s.argv j
      rw [hout₂ j (by omega), hout₁ j (by omega)]
    case settings => rfl
    case posparams => rfl
    case nposparams =>
      show (argc + 2 * uintMod - used.length - 1) % uintMod = positional.length
      simp only [argpMaxParams, uintMod] at hmax ⊢
      omega

end Cldm
