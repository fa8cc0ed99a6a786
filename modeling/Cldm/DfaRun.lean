/-
Adding words to the automaton, and following an input.

* `dfa_simulates` — after any calls of `cldm_dfa_add_argument`, a simulation follows the
  longest prefix of its input that is a prefix of an added word, if and only if an `int`
  counts the states;
* `dfa_overflows` — a word for which it does not.
-/
import Cldm.DfaTree

namespace Cldm

open Prog PrefixTree

variable {dfa dfa' : Dfa} {word : ℕ → List UInt8} {N : Set (List UInt8)} {op : List UInt8 → ℤ}
  {realloc : ℕ → Bool} {i : ℕ} {F : Prop}

/-- Add the arguments in order, up to one that fails. -/
def dfaAddArguments (realloc : ℕ → Bool) : List (List UInt8 × ℤ) → ℕ → Prog Dfa Bool
  | [], _ => return true
  | (arg, shortop) :: args, fuel => do
    if ← dfaAddArgument realloc arg shortop fuel then
      dfaAddArguments realloc args fuel
    else
      return false

attribute [grind =] dfaAddArguments

/-- Make an automaton, and add the arguments. -/
def dfaBuild (malloc : ℕ → Bool) (args : List (List UInt8 × ℤ)) (fuel : ℕ) : Prog Dfa Bool := do
  if ← dfaInit malloc then
    dfaAddArguments malloc args fuel
  else
    return false

theorem fuelMono_dfaScan (ch edge : ℤ) : FuelMono (dfaScan ch edge) := by
  have hbody : ∀ edge, FuelMono fun _ => dfaScanBody ch edge := fun _ => .const _
  exact .loop hbody edge

theorem fuelMono_dfaAddLoop (state : ℤ) (arg : List UInt8) :
    FuelMono fun n => dfaAddLoop realloc n state arg := by
  induction arg generalizing state with
  | nil => exact .const _
  | cons c arg ih =>
    refine .bind (.const _) fun s => .bind (fuelMono_dfaScan _ _) fun r => ?_
    cases r with
    | some dest => exact ih dest
    | none => exact .bind (.const _) fun dest => .ite _ (.const _) (ih dest)

theorem fuelMono_dfaAddArgument (arg : List UInt8) (shortop : ℤ) :
    FuelMono (dfaAddArgument realloc arg shortop) :=
  .bind (.const _) fun _ => .bind (fuelMono_dfaAddLoop _ _) fun _ => .const _

/-! ### Adding a word -/

/-- The prefixes of a word go on from a new child. -/
theorem insert_union_prefixes {p : List UInt8} {c : UInt8} {arg : List UInt8} :
    insert (p ++ [c]) N ∪ {q | q <+: p ++ [c] ++ arg} = N ∪ {q | q <+: p ++ c :: arg} := by
  have happend : p ++ [c] ++ arg = p ++ c :: arg := by simp
  rw [happend, Set.insert_union]
  refine Set.insert_eq_of_mem (.inr ?_)
  rw [← happend]
  exact List.prefix_append _ _

/-- Going down along a word from state `i`, with new states where there is none. -/
theorem DfaRep.addLoop (h : DfaRep dfa word N op) (hrealloc : ∀ n, realloc n = true)
    (hi : i < dfa.stateIdx) (arg : List UInt8)
    (hF : 2 ^ 31 < (N ∪ {p | p <+: word i ++ arg}).ncard → F) :
    Settles (fun n => dfaAddLoop realloc n i arg) (fun r s' => ∃ (j : ℕ) (word' : ℕ → List UInt8), r = some (j : ℤ) ∧
      j < s'.stateIdx ∧ word' j = word i ++ arg ∧
      DfaRep s' word' (N ∪ {p | p <+: word i ++ arg}) op) F dfa := by
  induction arg generalizing dfa word N i with
  | nil =>
    have hmem : word i ∈ N := (h.mem _).mpr ⟨i, hi, rfl⟩
    have hsame : N ∪ {p | p <+: word i ++ []} = N := by
      rw [List.append_nil]
      exact Set.union_eq_left.mpr fun p hp => h.closed.mem_of_prefix hmem hp
    refine .const (.inl ((wp_pure ..).mpr ⟨i, word, rfl, hi, (List.append_nil _).symm, ?_⟩))
    rwa [hsame]
  | cons c arg ih =>
    refine .wp_bind ((wp_dfaState (hi.trans h.states_lt)).mpr (.bind (fuelMono_dfaScan _ _) ?_))
    refine (h.scan hi c).settles.mono ?_
    rintro r s' ⟨rfl, ⟨j, hj, hword, rfl⟩ | ⟨rfl, hnew⟩⟩
    · -- the way goes on along an edge
      have hgo := ih h hj
      rw [hword, List.append_assoc, List.singleton_append] at hgo
      exact hgo hF
    · rcases Nat.lt_or_ge s'.stateIdx (2 ^ 31) with hlt | hge
      · obtain ⟨nstates, nedges, hlo, hhi, hlo', hhi', happend⟩ := h.dfaAppend_eq hrealloc hi c hlt
        have hrep := h.append hi hnew hlt hlo hhi hlo' hhi'
        have hgo := ih hrep (show s'.stateIdx < s'.stateIdx + 1 by omega)
        rw [Function.update_self, insert_union_prefixes, List.append_assoc,
          List.singleton_append] at hgo
        have hne : ¬ (s'.stateIdx : ℤ) = -1 := by omega
        refine .wp_bind ((wp_of_some happend).mpr ?_)
        simp only [if_neg hne]
        exact hgo hF
      · -- the automaton is full
        have hfull : s'.stateIdx = 2 ^ 31 := h.le.antisymm hge
        have hfault := h.dfaAppend_fault hrealloc hi c hfull
        obtain ⟨hfin, hcard⟩ := h.ncard
        refine .inr ⟨hF ?_, fun n => ?_⟩
        · have hle := ncard_le_union (hfin.insert (word i ++ [c])) (word i ++ [c] ++ arg)
          rw [insert_union_prefixes, Set.ncard_insert_of_notMem hnew hfin, hcard, hfull] at hle
          omega
        · show (dfaAppend realloc i (charInt c) 0 >>= _) s' = none
          rw [bind_apply, hfault]
          rfl

/-- The automaton with another operation of state `i`. -/
def Dfa.setShortop (dfa : Dfa) (i : ℕ) (shortop : ℤ) : Dfa :=
  { dfa with states := Function.update dfa.states i ⟨(dfa.states i).edges, shortop⟩ }

theorem DfaRep.setShortop (h : DfaRep dfa word N op) (hi : i < dfa.stateIdx) (shortop : ℤ) :
    DfaRep (dfa.setShortop i shortop) word N fun p => if word i = p then shortop else op p := by
  have hstate : ∀ j, j ≠ i → (dfa.setShortop i shortop).states j = dfa.states j :=
    fun j hj => Function.update_of_ne hj ..
  have hself : (dfa.setShortop i shortop).states i = ⟨(dfa.states i).edges, shortop⟩ :=
    Function.update_self ..
  constructor
  case start => exact h.start
  case root => exact h.root
  case states_lt => exact h.states_lt
  case states_le => exact h.states_le
  case edges_lt => exact h.edges_lt
  case edges_le => exact h.edges_le
  case idx => exact h.idx
  case le => exact h.le
  case inj => exact h.inj
  case mem => exact h.mem
  case closed => exact h.closed
  case chain =>
    intro j hj
    obtain ⟨l, hchain, hl⟩ := h.chain j hj
    refine ⟨l, ?_, hl⟩
    by_cases hji : j = i
    · subst hji
      rw [hself]
      exact hchain
    · rw [hstate j hji]
      exact hchain
  case shortop =>
    intro j hj
    by_cases hji : j = i
    · subst hji
      rw [hself, if_pos rfl]
    · rw [hstate j hji, if_neg fun heq => hji (h.inj i hi j hj heq).symm]
      exact h.shortop j hj
  case unregistered =>
    intro p hp
    rw [if_neg fun heq => hp ((h.mem p).mpr ⟨i, hi, heq⟩)]
    exact h.unregistered p hp

/-- `cldm_dfa_add_argument` adds a word with its operation, or the automaton is full. -/
theorem DfaRep.addArgument (h : DfaRep dfa word N op) (hrealloc : ∀ n, realloc n = true)
    (arg : List UInt8) (shortop : ℤ) (hF : 2 ^ 31 < (N ∪ {p | p <+: arg}).ncard → F) :
    Settles (dfaAddArgument realloc arg shortop) (fun r s' => r = true ∧ ∃ word',
      DfaRep s' word' (N ∪ {p | p <+: arg}) fun p => if arg = p then shortop else op p) F dfa := by
  have hpos : 0 < dfa.stateIdx := by
    have := h.idx
    omega
  have hstart : toInt dfa.start = ((0 : ℕ) : ℤ) := by
    rw [h.start]
    rfl
  have hloop := h.addLoop (F := F) hrealloc hpos arg
  rw [h.root, List.nil_append] at hloop
  refine .wp_bind ((wp_get ..).mpr ?_)
  rw [hstart]
  refine .bind (fuelMono_dfaAddLoop _ _) ((hloop hF).mono ?_)
  rintro r s' ⟨j, word', rfl, hj, hword, hrep⟩
  have hj' := hj.trans hrep.states_lt
  have hset := hrep.setShortop hj shortop
  rw [hword] at hset
  refine .const (.inl ?_)
  simp only [wp_bind, wp_dfaState hj', wp_setDfaState hj', wp_pure]
  exact ⟨trivial, word', hset⟩

/-! ### Adding all words -/

/-- The automaton holds the words `args`. -/
def Holds (dfa : Dfa) (args : List (List UInt8 × ℤ)) : Prop :=
  ∃ word, DfaRep dfa word (nodes (args.map Prod.fst)) fun p => (lastOf args p).getD 0

theorem Holds.addArguments {pre : List (List UInt8 × ℤ)} (h : Holds dfa pre)
    (hrealloc : ∀ n, realloc n = true) (args : List (List UInt8 × ℤ))
    (hF : 2 ^ 31 < (nodes ((pre ++ args).map Prod.fst)).ncard → F) :
    Settles (dfaAddArguments realloc args) (fun r s' => r = true ∧ Holds s' (pre ++ args)) F dfa := by
  induction args generalizing pre dfa with
  | nil =>
    refine .const (.inl ((wp_pure ..).mpr ⟨rfl, ?_⟩))
    rwa [List.append_nil]
  | cons a args ih =>
    obtain ⟨arg, shortop⟩ := a
    obtain ⟨word, hrep⟩ := h
    have hsplit : pre ++ (arg, shortop) :: args = (pre ++ [(arg, shortop)]) ++ args := by simp
    have hnodes : nodes (pre.map Prod.fst) ∪ {p | p <+: arg} =
        nodes ((pre ++ [(arg, shortop)]).map Prod.fst) := by
      rw [List.map_append]
      exact nodes_append.symm
    have hle : (nodes ((pre ++ [(arg, shortop)]).map Prod.fst)).ncard ≤
        (nodes ((pre ++ [(arg, shortop)] ++ args).map Prod.fst)).ncard := by
      have hmap := ncard_nodes_le ((pre ++ [(arg, shortop)]).map Prod.fst) (args.map Prod.fst)
      rwa [← List.map_append] at hmap
    rw [hsplit] at hF ⊢
    refine .bind (fuelMono_dfaAddArgument _ _) ?_
    refine (hrep.addArgument hrealloc arg shortop ?_).mono ?_
    · rw [hnodes]
      exact fun hlt => hF (lt_of_lt_of_le hlt hle)
    · rintro r s' ⟨rfl, word', hrep'⟩
      rw [hnodes] at hrep'
      refine ih ⟨word', ?_⟩ hF
      have hop : (fun p => if arg = p then shortop else (lastOf pre p).getD 0) =
          fun p => (lastOf (pre ++ [(arg, shortop)]) p).getD 0 := by
        funext p
        rw [lastOf_append]
        split_ifs <;> rfl
      rwa [hop] at hrep'

theorem dfaInit_holds {malloc : ℕ → Bool} (hmalloc : ∀ n, malloc n = true) (dfa : Dfa) :
    wp (dfaInit malloc) (fun r s' => r = true ∧ Holds s' []) dfa := by
  rw [dfaInit, wp_ite, if_pos (by rw [hmalloc, hmalloc]; rfl), wp_bind, wp_get, wp_bind, wp_set, wp_pure]
  refine ⟨rfl, fun _ => [], ?_⟩
  have hstate : Function.update dfa.states 0 (⟨dfaEdgeNone, 0⟩ : DfaState) 0 = ⟨dfaEdgeNone, 0⟩ :=
    Function.update_self ..
  have hroot : ∀ p : List UInt8, p ∈ nodes (([] : List (List UInt8 × ℤ)).map Prod.fst) ↔ [] = p := by
    intro p
    constructor
    · rintro (rfl | ⟨w, hw, -⟩)
      · rfl
      · exact absurd hw List.not_mem_nil
    · rintro rfl
      exact .inl rfl
  constructor
  case start => rfl
  case root => rfl
  case states_lt => exact (by decide : 1 < 64)
  case states_le => exact (by decide : 64 ≤ 1 + 64)
  case edges_lt => exact (by decide : 0 < 128)
  case edges_le => exact (by decide : 128 ≤ 0 + 128)
  case idx => rfl
  case le => exact (by decide : 1 ≤ 2 ^ 31)
  case inj =>
    intro i hi j hj _
    rw [Nat.lt_one_iff.mp hi, Nat.lt_one_iff.mp hj]
  case mem =>
    intro p
    rw [hroot]
    exact ⟨fun h => ⟨0, Nat.one_pos, h⟩, fun ⟨_, _, h⟩ => h⟩
  case closed => exact closed_nodes
  case chain =>
    intro i hi
    rw [Nat.lt_one_iff.mp hi]
    refine ⟨[], congrArg DfaState.edges hstate, fun c j => ?_⟩
    exact iff_of_false List.not_mem_nil fun h => absurd h.2 (by simp)
  case shortop =>
    intro i hi
    rw [Nat.lt_one_iff.mp hi]
    exact congrArg DfaState.shortop hstate
  case unregistered => exact fun _ _ => rfl

/-- An automaton is built and holds all words, or it is full. -/
theorem dfaBuild_settles {malloc : ℕ → Bool} (hmalloc : ∀ n, malloc n = true)
    (args : List (List UInt8 × ℤ)) (dfa : Dfa) :
    Settles (dfaBuild malloc args) (fun r s' => r = true ∧ Holds s' args)
      (2 ^ 31 < (nodes (args.map Prod.fst)).ncard) dfa := by
  refine .wp_bind (wp_mono (dfaInit_holds hmalloc dfa) ?_)
  rintro r s' ⟨rfl, hholds⟩
  exact hholds.addArguments hmalloc args id

/-! ### Allocations that fail -/

section Allocations

/-- Every allocation succeeds. -/
abbrev allocs : ℕ → Bool := fun _ => true

theorem leOn_dfaEnsureStateCapacity (n : ℕ) : LeOn (· = true)
    (dfaEnsureStateCapacity realloc n) (dfaEnsureStateCapacity allocs n) := by
  refine .bind_right _ fun dfa => ?_
  by_cases h : (dfa.stateIdx + n) % uintMod < dfa.nstates
  · simp only [if_pos h]
    exact .refl _ _
  · simp only [if_neg h]
    exact .ite (fun _ => trivial) not_true_of_return_false

theorem leOn_dfaEnsureEdgeCapacity (n : ℕ) : LeOn (· = true)
    (dfaEnsureEdgeCapacity realloc n) (dfaEnsureEdgeCapacity allocs n) := by
  refine .bind_right _ fun dfa => ?_
  by_cases h : (dfa.edgeIdx + n) % uintMod < dfa.nedges
  · simp only [if_pos h]
    exact .refl _ _
  · simp only [if_neg h]
    exact .ite (fun _ => trivial) not_true_of_return_false

theorem leOn_dfaEdgePop : LeOn (· ≠ -1) (dfaEdgePop realloc) (dfaEdgePop allocs) := by
  refine .bind (leOn_dfaEnsureEdgeCapacity 1) (fun b _ => .refl _ _) ?_
  intro b hb s c s' h
  rw [if_neg hb] at h
  exact not_not_intro (Prod.mk.inj (Option.some.inj h)).1.symm

theorem leOn_dfaStatePop : LeOn (· ≠ -1) (dfaStatePop realloc) (dfaStatePop allocs) := by
  refine .bind (leOn_dfaEnsureStateCapacity 1) (fun b _ => .refl _ _) ?_
  intro b hb s c s' h
  rw [if_neg hb] at h
  exact not_not_intro (Prod.mk.inj (Option.some.inj h)).1.symm

theorem leOn_dfaAppend (state ch shortop : ℤ) :
    LeOn (· ≠ -1) (dfaAppend realloc state ch shortop) (dfaAppend allocs state ch shortop) := by
  refine .bind leOn_dfaEdgePop (fun edge hedge => ?_) ?_
  · simp only [if_neg hedge]
    refine .bind_right _ fun source => .bind leOn_dfaStatePop (fun dest _ => .refl _ _) ?_
    intro dest hdest s c s' h
    obtain rfl : dest = -1 := not_not.mp hdest
    obtain ⟨-, s₁, -, hret⟩ := bind_eq_some.mp h
    exact not_not_intro (Prod.mk.inj (Option.some.inj hret)).1.symm
  · intro edge hedge s c s' h
    rw [if_pos (not_not.mp hedge)] at h
    exact not_not_intro (Prod.mk.inj (Option.some.inj h)).1.symm

theorem leOn_dfaAddLoop (fuel : ℕ) (state : ℤ) (arg : List UInt8) : LeOn (· ≠ none)
    (dfaAddLoop realloc fuel state arg) (dfaAddLoop allocs fuel state arg) := by
  induction arg generalizing state with
  | nil => exact .refl _ _
  | cons c arg ih =>
    refine .bind_right _ fun s => .bind_right _ fun r => ?_
    rcases r with _ | dest
    · refine .bind (leOn_dfaAppend _ _ _) (fun dest hdest => ?_) ?_
      · simp only [if_neg hdest]
        exact ih dest
      · intro dest hdest s c s' h
        rw [if_pos (not_not.mp hdest)] at h
        exact not_not_intro (Prod.mk.inj (Option.some.inj h)).1.symm
    · exact ih dest

theorem leOn_dfaAddArgument (arg : List UInt8) (shortop : ℤ) (fuel : ℕ) : LeOn (· = true)
    (dfaAddArgument realloc arg shortop fuel) (dfaAddArgument allocs arg shortop fuel) := by
  refine .bind_right _ fun dfa => .bind (leOn_dfaAddLoop _ _ _) (fun r _ => .refl _ _) ?_
  intro r hr s c s' h
  obtain rfl : r = none := not_not.mp hr
  obtain rfl := (Prod.mk.inj (Option.some.inj h)).1
  exact Bool.false_ne_true

theorem leOn_dfaAddArguments (args : List (List UInt8 × ℤ)) (fuel : ℕ) : LeOn (· = true)
    (dfaAddArguments realloc args fuel) (dfaAddArguments allocs args fuel) := by
  induction args with
  | nil => exact .refl _ _
  | cons a args ih =>
    refine .bind (leOn_dfaAddArgument a.1 a.2 fuel) (fun b hb => ?_) ?_
    · simp only [hb]
      exact ih
    · intro b hb s c s' h
      rw [if_neg hb] at h
      exact not_true_of_return_false s c s' h

/-- Where an automaton is built, no allocation failed. -/
theorem leOn_dfaBuild (malloc : ℕ → Bool) (args : List (List UInt8 × ℤ)) (fuel : ℕ) :
    LeOn (· = true) (dfaBuild malloc args fuel) (dfaBuild allocs args fuel) := by
  have hinit : LeOn (· = true) (dfaInit malloc) (dfaInit allocs) :=
    .ite (fun _ => rfl) not_true_of_return_false
  refine .bind hinit (fun b hb => ?_) ?_
  · simp only [hb]
    exact leOn_dfaAddArguments args fuel
  · intro b hb s c s' h
    rw [if_neg hb] at h
    exact not_true_of_return_false s c s' h

end Allocations

/-! ### Following an input -/

theorem DfaRep.simulateLoop (h : DfaRep dfa word N op) (hi : i < dfa.stateIdx) (input : List UInt8) :
    Total (fun n => dfaSimulateLoop n i (word i).length input) (fun r s' => s' = dfa ∧
      ∃ j < dfa.stateIdx, r = ((j : ℤ), (word j).length) ∧ Follows N (word i ++ input) (word j)) dfa := by
  have hnode : word i ∈ N := (h.mem _).mpr ⟨i, hi, rfl⟩
  induction input generalizing i with
  | nil =>
    refine .const ((wp_pure ..).mpr ⟨rfl, i, hi, rfl, follows_of_stuck h.closed hnode ?_⟩)
    exact fun a r h => absurd h (by simp)
  | cons c input ih =>
    refine .wp_bind ((wp_dfaState (hi.trans h.states_lt)).mpr (.bind ((h.scan hi c).mono ?_)))
    rintro r s' ⟨rfl, ⟨j, hj, hword, rfl⟩ | ⟨rfl, hnew⟩⟩
    · have hgo := ih hj ((h.mem _).mpr ⟨j, hj, rfl⟩)
      have hlen : (word j).length = (word i).length + 1 := by
        rw [hword, List.length_append, List.length_singleton]
      have happend : word j ++ input = word i ++ c :: input := by
        rw [hword, List.append_assoc, List.singleton_append]
      rw [hlen, happend] at hgo
      exact hgo
    · refine .const ((wp_pure ..).mpr ⟨rfl, i, hi, rfl, follows_of_stuck h.closed hnode ?_⟩)
      rintro a r heq
      obtain ⟨rfl, -⟩ := List.cons.inj heq
      exact hnew

/-- What `cldm_dfa_simulate` answers where the way ends at `p`. -/
def dfaAnswer (args : List (List UInt8 × ℤ)) (p : List UInt8) : ℤ × ℤ :=
  match lastOf args p with
  | some shortop => (p.length, shortop)
  | none => (-1, 0)

/-- A simulation follows the longest prefix of the input that is a node. -/
theorem Holds.simulate {args : List (List UInt8 × ℤ)} (h : Holds dfa args)
    (hop : ∀ a ∈ args, a.2 ≠ 0) (input : List UInt8) :
    ∃ p, Follows (nodes (args.map Prod.fst)) input p ∧
      Total (dfaSimulate input) (fun r s' => s' = dfa ∧ r = dfaAnswer args p) dfa := by
  obtain ⟨word, hrep⟩ := h
  have hpos : 0 < dfa.stateIdx := by
    have := hrep.idx
    omega
  have hstart : toInt dfa.start = ((0 : ℕ) : ℤ) := by
    rw [hrep.start]
    rfl
  have hloop := hrep.simulateLoop hpos input
  rw [hrep.root, List.nil_append] at hloop
  obtain ⟨r, s', hret, rfl, j, hj, rfl, hfollows⟩ := hloop
  refine ⟨word j, hfollows, .wp_bind ((wp_get ..).mpr ?_)⟩
  rw [hstart]
  refine .bind ⟨_, _, hret, .const ?_⟩
  rw [wp_bind, wp_dfaState (hj.trans hrep.states_lt), wp_pure, hrep.shortop j hj, dfaAnswer]
  refine ⟨rfl, ?_⟩
  cases hlast : lastOf args (word j) with
  | none => exact if_neg (by simp)
  | some shortop =>
    -- a word has fewer letters than there are states
    obtain ⟨hfin, hcard⟩ := hrep.ncard
    have hlen := hrep.closed.length_lt_ncard hfin hfollows.mem
    have hle := hrep.le
    rw [hcard] at hlen
    have hne : (some shortop).getD 0 ≠ 0 := hop _ (mem_of_lastOf hlast)
    rw [if_pos hne, Nat.mod_eq_of_lt (by simp only [uintMod]; omega), toInt_of_lt (by omega)]
    rfl

/-- All words are added, and every simulation follows the longest prefix of its input
that is a prefix of an added word, and answers with what was registered last. -/
def DfaSimulates (malloc : ℕ → Bool) (args : List (List UInt8 × ℤ)) (dfa : Dfa) : Prop :=
  Total (dfaBuild malloc args) (fun r s => r = true ∧ ∀ input,
    ∃ p, Follows (nodes (args.map Prod.fst)) input p ∧
      Total (dfaSimulate input) (fun r s' => s' = s ∧ r = dfaAnswer args p) s) dfa

theorem DfaSimulates.of_le {malloc : ℕ → Bool} (hmalloc : ∀ n, malloc n = true)
    {args : List (List UInt8 × ℤ)} (hop : ∀ a ∈ args, a.2 ≠ 0)
    (hle : (nodes (args.map Prod.fst)).ncard ≤ 2 ^ 31) (dfa : Dfa) : DfaSimulates malloc args dfa := by
  refine ((dfaBuild_settles hmalloc args dfa).total (Nat.not_lt.mpr hle)).mono ?_
  rintro r s ⟨hr, hholds⟩
  exact ⟨hr, fun input => hholds.simulate hop input⟩

theorem DfaSimulates.le {malloc : ℕ → Bool} (hmalloc : ∀ n, malloc n = true)
    {args : List (List UInt8 × ℤ)} (h : DfaSimulates malloc args dfa) :
    (nodes (args.map Prod.fst)).ncard ≤ 2 ^ 31 := by
  obtain ⟨r, s, hret, -⟩ := h
  obtain ⟨-, word, hrep⟩ := (dfaBuild_settles hmalloc args dfa).of_returns hret
  rw [hrep.ncard.2]
  exact hrep.le

/-- The automaton simulates its words if and only if an `int` counts their prefixes. -/
theorem dfa_simulates {malloc : ℕ → Bool} (hmalloc : ∀ n, malloc n = true)
    {args : List (List UInt8 × ℤ)} (hop : ∀ a ∈ args, a.2 ≠ 0) (dfa : Dfa) :
    DfaSimulates malloc args dfa ↔ (nodes (args.map Prod.fst)).ncard ≤ 2 ^ 31 :=
  ⟨fun h => h.le hmalloc, fun h => .of_le hmalloc hop h dfa⟩

/-- An automaton before it is initialised. -/
def rawDfa : Dfa := ⟨fun _ => ⟨0, 0⟩, fun _ => ⟨0, 0, 0⟩, 0, 0, 0, 0, 0⟩

theorem dfa_simulates_word : DfaSimulates (fun _ => true) [([45, 45], 257)] rawDfa ↔
    (nodes (([([45, 45], 257)] : List (List UInt8 × ℤ)).map Prod.fst)).ncard ≤ 2 ^ 31 :=
  dfa_simulates (fun _ => rfl) (by decide) rawDfa

/-- A word of `2 ^ 31` letters needs a state without an index. -/
theorem dfa_overflows :
    ¬ DfaSimulates (fun _ => true) [(List.replicate (2 ^ 31) 97, 1)] rawDfa := by
  intro h
  have hle := h.le fun _ => rfl
  have hmem : List.replicate (2 ^ 31) 97 ∈
      nodes (([(List.replicate (2 ^ 31) 97, 1)] : List (List UInt8 × ℤ)).map Prod.fst) :=
    .inr ⟨_, List.mem_singleton_self _, List.prefix_rfl⟩
  have hlt := closed_nodes.length_lt_ncard (finite_nodes _) hmem
  rw [List.length_replicate] at hlt
  omega

end Cldm
