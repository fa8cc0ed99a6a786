/-
The automaton is a prefix tree.

Each state stands for a node of the tree of the words that were added, and the edges
of a state lead to its children.  The invariant holds as long as the indices of the
states are values of an `int`.

* `DfaRep` — the states are the nodes `N`, with the operations `op`;
* `DfaRep.scan` — the search among the edges of a state finds its child;
* `DfaRep.append` — a new state is a new child; `dfaAppend_fault` — there is none
  beyond `2 ^ 31` states;
* `DfaRep.addArgument` — a word is added, or the automaton is full.
-/
import Cldm.Dfa

namespace Cldm

open Prog PrefixTree

variable {dfa dfa' : Dfa} {word : ℕ → List UInt8} {N : Set (List UInt8)} {op : List UInt8 → ℤ}
  {realloc : ℕ → Bool} {i m : ℕ} {c : UInt8}

/-! ### The edges of a state -/

/-- The list of the edges from `edge` on; the first `m` edges are in use. -/
def EdgeChain (edges : ℕ → DfaEdge) (m : ℕ) : ℤ → List (UInt8 × ℕ) → Prop
  | edge, [] => edge = dfaEdgeNone
  | edge, (c, dest) :: l => ∃ k < m, edge = k ∧ (edges k).ch = charInt c ∧ (edges k).dest = dest ∧
      EdgeChain edges m (edges k).next l

attribute [grind =] EdgeChain

/-- The edges in use do not change. -/
theorem EdgeChain.frame {edges edges' : ℕ → DfaEdge} {m m' : ℕ} {edge : ℤ} {l : List (UInt8 × ℕ)}
    (h : EdgeChain edges m edge l) (hm : m ≤ m') (hsame : ∀ k < m, edges' k = edges k) :
    EdgeChain edges' m' edge l := by
  induction l generalizing edge with
  | nil => exact h
  | cons a l ih =>
    obtain ⟨k, hk, rfl, hch, hdest, hnext⟩ := h
    refine ⟨k, by omega, rfl, ?_, ?_, ?_⟩
    · rw [hsame k hk, hch]
    · rw [hsame k hk, hdest]
    · rw [hsame k hk]
      exact ih hnext

/-- The search finds the edge for `c`. -/
theorem dfaScan_spec {edge : ℤ} {l : List (UInt8 × ℕ)} (hm : m ≤ dfa.nedges)
    (h : EdgeChain dfa.edges m edge l) :
    Total (dfaScan (charInt c) edge) (fun r s' => s' = dfa ∧
      ((∃ dest, (c, dest) ∈ l ∧ r = some (dest : ℤ)) ∨ r = none ∧ ∀ dest, (c, dest) ∉ l)) dfa := by
  -- `l'` is what is left of the list
  let I : ℕ → ℤ → Dfa → Prop := fun k e s => s = dfa ∧ ∃ pre l', l = pre ++ l' ∧
    (∀ dest, (c, dest) ∉ pre) ∧ EdgeChain dfa.edges m e l' ∧ k = l'.length
  have step : ∀ k e s, I k e s → Total (fun _ => dfaScanBody (charInt c) e) (fun r s' =>
      Sum.elim (fun e' => ∃ k' < k, I k' e' s') (fun r => s' = dfa ∧
        ((∃ dest, (c, dest) ∈ l ∧ r = some (dest : ℤ)) ∨ r = none ∧ ∀ dest, (c, dest) ∉ l)) r) s := by
    rintro k e _ ⟨rfl, pre, l', rfl, hpre, hchain, rfl⟩
    refine Total.const ?_
    rcases l' with _ | ⟨⟨c', dest⟩, l'⟩
    · have he : e = dfaEdgeNone := hchain
      rw [dfaScanBody, wp_ite, if_pos he, wp_pure]
      refine ⟨rfl, .inr ⟨rfl, ?_⟩⟩
      rwa [List.append_nil]
    · obtain ⟨j, hj, rfl, hch, hdest, hnext⟩ := hchain
      have hne : ¬ (j : ℤ) = dfaEdgeNone := by
        show ¬ (j : ℤ) = -1
        omega
      rw [dfaScanBody, wp_ite, if_neg hne, wp_bind, wp_dfaEdge (by omega), wp_pure, hch]
      by_cases hc : c' = c
      · rw [if_pos (congrArg charInt hc)]
        refine ⟨rfl, .inl ⟨dest, ?_, by rw [hdest]⟩⟩
        rw [hc]
        exact List.mem_append_right _ (List.mem_cons_self ..)
      · rw [if_neg fun h => hc (charInt_inj.mp h)]
        refine ⟨l'.length, Nat.lt_succ_self _, rfl, pre ++ [(c', dest)], l', ?_, ?_, hnext, rfl⟩
        · rw [List.append_assoc, List.singleton_append]
        · intro dest' hmem
          rcases List.mem_append.mp hmem with hmem | hmem
          · exact hpre dest' hmem
          · exact hc (Prod.mk.inj (List.mem_singleton.mp hmem)).1.symm
  exact total_loop step _ _ _ ⟨rfl, [], l, rfl, fun _ => List.not_mem_nil, h, rfl⟩

/-! ### The invariant -/

/-- The states are the nodes `N`: state `i` is the node `word i`, and its operation is
that of the node. -/
structure DfaRep (dfa : Dfa) (word : ℕ → List UInt8) (N : Set (List UInt8))
    (op : List UInt8 → ℤ) : Prop where
  start : dfa.start = 0
  root : word 0 = []
  states_lt : dfa.stateIdx < dfa.nstates
  states_le : dfa.nstates ≤ dfa.stateIdx + dfaStateDelta
  edges_lt : dfa.edgeIdx < dfa.nedges
  edges_le : dfa.nedges ≤ dfa.edgeIdx + dfaEdgeDelta
  idx : dfa.stateIdx = dfa.edgeIdx + 1
  le : dfa.stateIdx ≤ 2 ^ 31
  inj : ∀ i < dfa.stateIdx, ∀ j < dfa.stateIdx, word i = word j → i = j
  mem : ∀ p, p ∈ N ↔ ∃ i < dfa.stateIdx, word i = p
  closed : Closed N
  chain : ∀ i < dfa.stateIdx, ∃ l, EdgeChain dfa.edges dfa.edgeIdx (dfa.states i).edges l ∧
    ∀ c j, (c, j) ∈ l ↔ j < dfa.stateIdx ∧ word j = word i ++ [c]
  shortop : ∀ i < dfa.stateIdx, (dfa.states i).shortop = op (word i)
  unregistered : ∀ p, p ∉ N → op p = 0

/-- There are as many states as nodes. -/
theorem DfaRep.ncard (h : DfaRep dfa word N op) : N.Finite ∧ N.ncard = dfa.stateIdx := by
  have hN : N = ((Finset.range dfa.stateIdx).image word : Finset (List UInt8)) := by
    ext p
    simp only [h.mem p, Finset.coe_image, Set.mem_image, Finset.coe_range, Set.mem_Iio]
  have hinj : Set.InjOn word (Finset.range dfa.stateIdx) := by
    intro i hi j hj
    rw [Finset.coe_range, Set.mem_Iio] at hi hj
    exact h.inj i hi j hj
  rw [hN, Set.ncard_coe_finset, Finset.card_image_of_injOn hinj, Finset.card_range]
  exact ⟨Finset.finite_toSet _, rfl⟩

/-- The search among the edges of a state finds its child. -/
theorem DfaRep.scan (h : DfaRep dfa word N op) (hi : i < dfa.stateIdx) (c : UInt8) :
    Total (dfaScan (charInt c) (dfa.states i).edges) (fun r s' => s' = dfa ∧
      ((∃ j < dfa.stateIdx, word j = word i ++ [c] ∧ r = some (j : ℤ)) ∨
        r = none ∧ word i ++ [c] ∉ N)) dfa := by
  obtain ⟨l, hchain, hl⟩ := h.chain i hi
  refine (dfaScan_spec h.edges_lt.le hchain).mono ?_
  rintro r s' ⟨rfl, ⟨j, hj, rfl⟩ | ⟨rfl, hno⟩⟩
  · obtain ⟨hj, hword⟩ := (hl c j).mp hj
    exact ⟨rfl, .inl ⟨j, hj, hword, rfl⟩⟩
  · refine ⟨rfl, .inr ⟨rfl, fun hmem => ?_⟩⟩
    obtain ⟨j, hj, hword⟩ := (h.mem _).mp hmem
    exact hno j ((hl c j).mpr ⟨hj, hword⟩)

/-! ### A new state -/

theorem dfaEdgePop_eq (hrealloc : ∀ n, realloc n = true) (hlt : dfa.edgeIdx < dfa.nedges)
    (hle : dfa.nedges ≤ dfa.edgeIdx + dfaEdgeDelta) (hidx : dfa.edgeIdx < 2 ^ 31) :
    ∃ n, dfa.edgeIdx + 1 < n ∧ n ≤ dfa.edgeIdx + 1 + dfaEdgeDelta ∧ dfaEdgePop realloc dfa =
      some ((dfa.edgeIdx : ℤ), { dfa with nedges := n, edgeIdx := dfa.edgeIdx + 1 }) := by
  simp only [dfaEdgeDelta] at hle
  have hmod : (dfa.edgeIdx + 1) % uintMod = dfa.edgeIdx + 1 := Nat.mod_eq_of_lt (by simp only [uintMod]; omega)
  by_cases hroom : dfa.edgeIdx + 1 < dfa.nedges
  · refine ⟨dfa.nedges, hroom, by simp only [dfaEdgeDelta]; omega, ?_⟩
    have hensure : dfaEnsureEdgeCapacity realloc 1 dfa = some (true, dfa) := by
      refine bind_get ?_
      rw [hmod, if_pos hroom]
      rfl
    refine bind_some hensure (bind_get ?_)
    rw [hmod, toInt_of_lt hidx]
    rfl
  · have hgrown : (dfa.nedges + dfaEdgeDelta) % uintMod = dfa.nedges + dfaEdgeDelta :=
      Nat.mod_eq_of_lt (by simp only [uintMod, dfaEdgeDelta]; omega)
    refine ⟨dfa.nedges + dfaEdgeDelta, by simp only [dfaEdgeDelta]; omega, by omega, ?_⟩
    have hensure : dfaEnsureEdgeCapacity realloc 1 dfa =
        some (true, { dfa with nedges := dfa.nedges + dfaEdgeDelta }) := by
      refine bind_get ?_
      simp only [hmod, hgrown, if_neg hroom, if_pos (hrealloc _)]
      rfl
    refine bind_some hensure (bind_get ?_)
    simp only [hmod, toInt_of_lt hidx]
    rfl

theorem dfaStatePop_eq (dfa : Dfa) (hrealloc : ∀ n, realloc n = true) (hlt : dfa.stateIdx < dfa.nstates)
    (hle : dfa.nstates ≤ dfa.stateIdx + dfaStateDelta) (hidx : dfa.stateIdx ≤ 2 ^ 31) :
    ∃ n, dfa.stateIdx + 1 < n ∧ n ≤ dfa.stateIdx + 1 + dfaStateDelta ∧ dfaStatePop realloc dfa =
      some (toInt dfa.stateIdx, { dfa with nstates := n, stateIdx := dfa.stateIdx + 1 }) := by
  simp only [dfaStateDelta] at hle
  have hmod : (dfa.stateIdx + 1) % uintMod = dfa.stateIdx + 1 := Nat.mod_eq_of_lt (by simp only [uintMod]; omega)
  by_cases hroom : dfa.stateIdx + 1 < dfa.nstates
  · refine ⟨dfa.nstates, hroom, by simp only [dfaStateDelta]; omega, ?_⟩
    have hensure : dfaEnsureStateCapacity realloc 1 dfa = some (true, dfa) := by
      refine bind_get ?_
      rw [hmod, if_pos hroom]
      rfl
    refine bind_some hensure (bind_get ?_)
    rw [hmod]
    rfl
  · have hgrown : (dfa.nstates + dfaStateDelta) % uintMod = dfa.nstates + dfaStateDelta :=
      Nat.mod_eq_of_lt (by simp only [uintMod, dfaStateDelta]; omega)
    refine ⟨dfa.nstates + dfaStateDelta, by simp only [dfaStateDelta]; omega, by omega, ?_⟩
    have hensure : dfaEnsureStateCapacity realloc 1 dfa =
        some (true, { dfa with nstates := dfa.nstates + dfaStateDelta }) := by
      refine bind_get ?_
      simp only [hmod, hgrown, if_neg hroom, if_pos (hrealloc _)]
      rfl
    refine bind_some hensure (bind_get ?_)
    simp only [hmod]
    rfl

/-- The automaton with a new state that an edge for `c` leads to from state `i`. -/
def Dfa.append (dfa : Dfa) (nstates nedges i : ℕ) (c : UInt8) : Dfa where
  states := Function.update (Function.update dfa.states i
    { dfa.states i with edges := dfa.edgeIdx }) dfa.stateIdx ⟨dfaEdgeNone, 0⟩
  edges := Function.update dfa.edges dfa.edgeIdx
    { ch := charInt c, next := (dfa.states i).edges, dest := dfa.stateIdx }
  nstates := nstates
  stateIdx := dfa.stateIdx + 1
  nedges := nedges
  edgeIdx := dfa.edgeIdx + 1
  start := dfa.start

theorem DfaRep.dfaAppend_eq (h : DfaRep dfa word N op) (hrealloc : ∀ n, realloc n = true)
    (hi : i < dfa.stateIdx) (c : UInt8) (hlt : dfa.stateIdx < 2 ^ 31) :
    ∃ nstates nedges, dfa.stateIdx + 1 < nstates ∧ nstates ≤ dfa.stateIdx + 1 + dfaStateDelta ∧
      dfa.edgeIdx + 1 < nedges ∧ nedges ≤ dfa.edgeIdx + 1 + dfaEdgeDelta ∧
      dfaAppend realloc i (charInt c) 0 dfa =
        some ((dfa.stateIdx : ℤ), dfa.append nstates nedges i c) := by
  have hidx := h.idx
  have hstates := h.states_lt
  obtain ⟨nedges, hlo, hhi, hedge⟩ := dfaEdgePop_eq hrealloc h.edges_lt h.edges_le (by omega)
  obtain ⟨nstates, hlo', hhi', hstate⟩ := dfaStatePop_eq
    { dfa with nedges := nedges, edgeIdx := dfa.edgeIdx + 1 } hrealloc h.states_lt
    h.states_le h.le
  have hgrown : dfa.stateIdx + 1 < nstates := hlo'
  have hi' : i < nstates := by omega
  have hstate' : dfa.stateIdx < nstates := by omega
  have hedge' : dfa.edgeIdx < nedges := by omega
  refine ⟨nstates, nedges, hlo', hhi', hlo, hhi, eq_some_of_wp ?_⟩
  rw [toInt_of_lt hlt] at hstate
  have hne : ∀ k : ℕ, ¬ (k : ℤ) = -1 := fun k => by omega
  rw [dfaAppend, wp_bind, wp_of_some hedge, wp_ite, if_neg (hne _), wp_bind,
    wp_dfaState (by exact hi.trans h.states_lt), wp_bind, wp_of_some hstate, wp_bind,
    wp_setDfaEdge (by exact hedge'), wp_ite, if_neg (hne _), wp_bind, wp_dfaState (by exact hi'),
    wp_bind, wp_setDfaState (by exact hi'), wp_bind, wp_setDfaState (by exact hstate'), wp_pure]
  exact ⟨rfl, rfl⟩

/-- There is no index for a state beyond `2 ^ 31`. -/
theorem DfaRep.dfaAppend_fault (h : DfaRep dfa word N op) (hrealloc : ∀ n, realloc n = true)
    (hi : i < dfa.stateIdx) (c : UInt8) (hfull : dfa.stateIdx = 2 ^ 31) :
    dfaAppend realloc i (charInt c) 0 dfa = none := by
  have hidx := h.idx
  have hstates := h.states_lt
  obtain ⟨nedges, hlo, hhi, hedge⟩ := dfaEdgePop_eq hrealloc h.edges_lt h.edges_le (by omega)
  obtain ⟨nstates, hlo', hhi', hstate⟩ := dfaStatePop_eq
    { dfa with nedges := nedges, edgeIdx := dfa.edgeIdx + 1 } hrealloc h.states_lt
    h.states_le h.le
  have hgrown : dfa.stateIdx + 1 < nstates := hlo'
  have hi' : i < nstates := by omega
  have hedge' : dfa.edgeIdx < nedges := by omega
  have hdest : toInt dfa.stateIdx = -2 ^ 31 := by
    rw [hfull]
    rfl
  rw [hdest] at hstate
  have hne : ∀ k : ℕ, ¬ (k : ℤ) = -1 := fun k => by omega
  by_contra hsome
  obtain ⟨⟨r, s'⟩, hret⟩ := Option.ne_none_iff_exists'.mp hsome
  have hwp : wp (dfaAppend realloc i (charInt c) 0) (fun _ _ => True) dfa := ⟨r, s', hret, trivial⟩
  rw [dfaAppend, wp_bind, wp_of_some hedge, wp_ite, if_neg (hne _), wp_bind,
    wp_dfaState (by exact hi.trans h.states_lt), wp_bind, wp_of_some hstate, wp_bind,
    wp_setDfaEdge (by exact hedge'), wp_ite, if_neg (by decide), wp_bind, wp_dfaState (by exact hi'),
    wp_bind, wp_setDfaState (by exact hi'), wp_bind] at hwp
  obtain ⟨u, s₁, hset, -⟩ := hwp
  rw [setDfaState, if_neg (by omega)] at hset
  exact absurd hset (by simp)

/-- A new state is a new child of its source. -/
theorem DfaRep.append (h : DfaRep dfa word N op) (hi : i < dfa.stateIdx) (hnew : word i ++ [c] ∉ N)
    (hlt : dfa.stateIdx < 2 ^ 31) {nstates nedges : ℕ} (hlo : dfa.stateIdx + 1 < nstates)
    (hhi : nstates ≤ dfa.stateIdx + 1 + dfaStateDelta) (hlo' : dfa.edgeIdx + 1 < nedges)
    (hhi' : nedges ≤ dfa.edgeIdx + 1 + dfaEdgeDelta) :
    DfaRep (dfa.append nstates nedges i c) (Function.update word dfa.stateIdx (word i ++ [c]))
      (insert (word i ++ [c]) N) op := by
  have hmem : word i ∈ N := (h.mem _).mpr ⟨i, hi, rfl⟩
  have hword : ∀ j < dfa.stateIdx, Function.update word dfa.stateIdx (word i ++ [c]) j = word j :=
    fun j hj => Function.update_of_ne (ne_of_lt hj) ..
  have hself : Function.update word dfa.stateIdx (word i ++ [c]) dfa.stateIdx = word i ++ [c] :=
    Function.update_self ..
  have hnode : ∀ j < dfa.stateIdx, word j ≠ word i ++ [c] :=
    fun j hj heq => hnew ((h.mem _).mpr ⟨j, hj, heq⟩)
  have hclosed : Closed (insert (word i ++ [c]) N) := h.closed.insert hmem c
  have hcases : ∀ {j}, j < dfa.stateIdx + 1 → j = dfa.stateIdx ∨ j < dfa.stateIdx := by omega
  have hold : ∀ j < dfa.stateIdx, j ≠ i →
      (dfa.append nstates nedges i c).states j = dfa.states j := by
    intro j hj hne
    show Function.update (Function.update dfa.states i _) dfa.stateIdx _ j = _
    rw [Function.update_of_ne (ne_of_lt hj), Function.update_of_ne hne]
  have hsource : (dfa.append nstates nedges i c).states i =
      { dfa.states i with edges := dfa.edgeIdx } := by
    show Function.update (Function.update dfa.states i _) dfa.stateIdx _ i = _
    rw [Function.update_of_ne (ne_of_lt hi), Function.update_self]
  have hleaf : (dfa.append nstates nedges i c).states dfa.stateIdx = ⟨dfaEdgeNone, 0⟩ :=
    Function.update_self ..
  have hedge : (dfa.append nstates nedges i c).edges dfa.edgeIdx =
      { ch := charInt c, next := (dfa.states i).edges, dest := dfa.stateIdx } :=
    Function.update_self ..
  constructor
  case start => exact h.start
  case root => rw [hword 0 (by omega), h.root]
  case states_lt => exact hlo
  case states_le => exact hhi
  case edges_lt => exact hlo'
  case edges_le => exact hhi'
  case idx => exact congrArg (· + 1) h.idx
  case le => exact hlt
  case inj =>
    intro j hj k hk heq
    rcases hcases hj with rfl | hj
    · rcases hcases hk with rfl | hk
      · rfl
      · rw [hself, hword k hk] at heq
        exact absurd heq.symm (hnode k hk)
    · rcases hcases hk with rfl | hk
      · rw [hself, hword j hj] at heq
        exact absurd heq (hnode j hj)
      · rw [hword j hj, hword k hk] at heq
        exact h.inj j hj k hk heq
  case mem =>
    intro p
    constructor
    · intro hp
      rcases Set.mem_insert_iff.mp hp with rfl | hp
      · exact ⟨dfa.stateIdx, Nat.lt_succ_self _, hself⟩
      · obtain ⟨j, hj, rfl⟩ := (h.mem p).mp hp
        exact ⟨j, Nat.lt_succ_of_lt hj, hword j hj⟩
    · rintro ⟨j, hj, rfl⟩
      rcases hcases hj with rfl | hj
      · rw [hself]
        exact Set.mem_insert _ _
      · rw [hword j hj]
        exact Set.mem_insert_of_mem _ ((h.mem _).mpr ⟨j, hj, rfl⟩)
  case closed => exact hclosed
  case chain =>
    intro j hj
    rcases hcases hj with rfl | hj
    · -- a leaf
      rw [hleaf, hself]
      refine ⟨[], rfl, fun c' k => iff_of_false List.not_mem_nil ?_⟩
      rintro ⟨hk, heq⟩
      rcases hcases hk with rfl | hk
      · rw [hself] at heq
        have := congrArg List.length heq
        simp at this
      · rw [hword k hk] at heq
        exact hnew (h.closed _ c' ((h.mem _).mpr ⟨k, hk, heq⟩))
    · obtain ⟨l, hchain, hl⟩ := h.chain j hj
      have hkeep : EdgeChain (dfa.append nstates nedges i c).edges (dfa.edgeIdx + 1)
          (dfa.states j).edges l :=
        hchain.frame (Nat.le_succ _) fun k hk => Function.update_of_ne (ne_of_lt hk) ..
      -- among the children, the new state is one of `i` only
      have hchild : ∀ c' k, (k < dfa.stateIdx + 1 ∧
          Function.update word dfa.stateIdx (word i ++ [c]) k = word j ++ [c']) ↔
            (c' = c ∧ k = dfa.stateIdx) ∧ j = i ∨ (c', k) ∈ l := by
        intro c' k
        constructor
        · rintro ⟨hk, heq⟩
          rcases hcases hk with rfl | hk
          · rw [hself] at heq
            obtain ⟨hij, hcc⟩ := List.append_inj' heq rfl
            exact .inl ⟨⟨(List.cons.inj hcc).1.symm, rfl⟩, (h.inj i hi j hj hij).symm⟩
          · rw [hword k hk] at heq
            exact .inr ((hl c' k).mpr ⟨hk, heq⟩)
        · rintro (⟨⟨rfl, rfl⟩, rfl⟩ | hmem)
          · exact ⟨Nat.lt_succ_self _, hself⟩
          · obtain ⟨hk, heq⟩ := (hl c' k).mp hmem
            exact ⟨Nat.lt_succ_of_lt hk, by rw [hword k hk, heq]⟩
      rw [hword j hj]
      by_cases hji : j = i
      · subst hji
        rw [hsource]
        refine ⟨(c, dfa.stateIdx) :: l, ?_, fun c' k => ?_⟩
        · refine ⟨dfa.edgeIdx, Nat.lt_succ_self _, rfl, ?_, ?_, ?_⟩
          · rw [hedge]
          · rw [hedge]
          · rw [hedge]
            exact hkeep
        · rw [List.mem_cons, Prod.mk.injEq]
          exact (or_congr_left (and_iff_left rfl).symm).trans (hchild c' k).symm
      · rw [hold j hj hji]
        refine ⟨l, hkeep, fun c' k => ?_⟩
        exact (or_iff_right fun hc => hji hc.2).symm.trans (hchild c' k).symm
  case shortop =>
    intro j hj
    rcases hcases hj with rfl | hj
    · rw [hleaf, hself]
      exact (h.unregistered _ hnew).symm
    · rw [hword j hj, ← h.shortop j hj]
      by_cases hji : j = i
      · subst hji
        rw [hsource]
      · rw [hold j hj hji]
  case unregistered =>
    exact fun p hp => h.unregistered p fun hmem => hp (Set.mem_insert_of_mem _ hmem)

end Cldm
