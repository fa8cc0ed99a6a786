/-
The automaton of `cldm_dfa.c` that recognises long switches.

States and edges lie in arrays that grow; the edges of a state are a list linked by
indices, which are of type `int` while the counters are `unsigned`.  An access outside
of an array is a fault.  A `char` has the value of a `signed char`.

* `dfaAddArgument`, `dfaSimulate` — the functions of the source;
* `DfaRep` — the states are the nodes of a prefix tree;
* `dfaAppend_spec` — a new state;
* `dfaScan_spec` — the search among the edges of a state.
-/
import Cldm.FuelLoop
import Cldm.PrefixTree
import Mathlib.Logic.Function.Basic

namespace Cldm

open Prog PrefixTree

/-- `struct cldm_dfa_state`. -/
structure DfaState where
  edges : ℤ
  shortop : ℤ

/-- `struct cldm_dfa_edge`; `dest` is the member `end`. -/
structure DfaEdge where
  ch : ℤ
  next : ℤ
  dest : ℤ

/-- `struct cldm_dfa`. -/
structure Dfa where
  states : ℕ → DfaState
  edges : ℕ → DfaEdge
  nstates : ℕ
  stateIdx : ℕ
  nedges : ℕ
  edgeIdx : ℕ
  start : ℕ

/-- `CLDM_DFA_STATE_DELTA`. -/
abbrev dfaStateDelta : ℕ := 64

/-- `CLDM_DFA_EDGE_DELTA`. -/
abbrev dfaEdgeDelta : ℕ := 128

/-- `CLDM_DFA_EDGE_NONE`. -/
abbrev dfaEdgeNone : ℤ := -1

/-- The number of values of an `unsigned`. -/
abbrev uintMod : ℕ := 2 ^ 32

/-- An `unsigned` as an `int`. -/
def toInt (n : ℕ) : ℤ := if n < 2 ^ 31 then n else n - 2 ^ 32

/-- A `char` as an `int`. -/
def charInt (c : UInt8) : ℤ := if c.toNat < 2 ^ 7 then c.toNat else c.toNat - 2 ^ 8

section Definitions

variable (realloc : ℕ → Bool)

/-- `dfa->states[state]`. -/
def dfaState (state : ℤ) : Prog Dfa DfaState := fun dfa =>
  if 0 ≤ state ∧ state < dfa.nstates then some (dfa.states state.toNat, dfa) else none

/-- Store to `dfa->states[state]`. -/
def setDfaState (state : ℤ) (v : DfaState) : Prog Dfa Unit := fun dfa =>
  if 0 ≤ state ∧ state < dfa.nstates then
    some ((), { dfa with states := Function.update dfa.states state.toNat v })
  else none

/-- `dfa->edges[edge]`. -/
def dfaEdge (edge : ℤ) : Prog Dfa DfaEdge := fun dfa =>
  if 0 ≤ edge ∧ edge < dfa.nedges then some (dfa.edges edge.toNat, dfa) else none

/-- Store to `dfa->edges[edge]`. -/
def setDfaEdge (edge : ℤ) (v : DfaEdge) : Prog Dfa Unit := fun dfa =>
  if 0 ≤ edge ∧ edge < dfa.nedges then
    some ((), { dfa with edges := Function.update dfa.edges edge.toNat v })
  else none

/-- `cldm_dfa_ensure_state_capacity`; `sizeof(struct cldm_dfa_state)` is 8. -/
def dfaEnsureStateCapacity (nrequested : ℕ) : Prog Dfa Bool := do
  let dfa ← get
  let nstates := (dfa.nstates + dfaStateDelta) % uintMod
  if (dfa.stateIdx + nrequested) % uintMod < dfa.nstates then
    return true
  else if realloc (nstates * 8) then
    set { dfa with nstates }
    return true
  else
    return false

/-- `cldm_dfa_ensure_edge_capacity`; `sizeof(struct cldm_dfa_edge)` is 12. -/
def dfaEnsureEdgeCapacity (nrequested : ℕ) : Prog Dfa Bool := do
  let dfa ← get
  let nedges := (dfa.nedges + dfaEdgeDelta) % uintMod
  if (dfa.edgeIdx + nrequested) % uintMod < dfa.nedges then
    return true
  else if realloc (nedges * 12) then
    set { dfa with nedges }
    return true
  else
    return false

/-- `cldm_dfa_edge_pop`. -/
def dfaEdgePop : Prog Dfa ℤ := do
  if ← dfaEnsureEdgeCapacity realloc 1 then
    let dfa ← get
    set { dfa with edgeIdx := (dfa.edgeIdx + 1) % uintMod }
    return toInt dfa.edgeIdx
  else
    return -1

/-- `cldm_dfa_state_pop`. -/
def dfaStatePop : Prog Dfa ℤ := do
  if ← dfaEnsureStateCapacity realloc 1 then
    let dfa ← get
    set { dfa with stateIdx := (dfa.stateIdx + 1) % uintMod }
    return toInt dfa.stateIdx
  else
    return -1

/-- `cldm_dfa_append`. -/
def dfaAppend (state ch shortop : ℤ) : Prog Dfa ℤ := do
  let edge ← dfaEdgePop realloc
  if edge = -1 then
    return -1
  else
    let source ← dfaState state
    let dest ← dfaStatePop realloc
    setDfaEdge edge { ch, next := source.edges, dest }
    if dest = -1 then
      return -1
    else
      setDfaState state { ← dfaState state with edges := edge }
      setDfaState dest { edges := dfaEdgeNone, shortop }
      return dest

/-- One turn of the loops over the edges of a state. -/
def dfaScanBody (ch edge : ℤ) : Prog Dfa (ℤ ⊕ Option ℤ) := do
  if edge = dfaEdgeNone then
    return .inr none
  else
    let e ← dfaEdge edge
    return if e.ch = ch then .inr (some e.dest) else .inl e.next

/-- The state behind the edge for `ch`, if there is one. -/
def dfaScan (ch edge : ℤ) (fuel : ℕ) : Prog Dfa (Option ℤ) := fuelLoop (dfaScanBody ch) fuel edge

/-- The loop of `cldm_dfa_add_argument`. -/
def dfaAddLoop (fuel : ℕ) : ℤ → List UInt8 → Prog Dfa (Option ℤ)
  | state, [] => return some state
  | state, c :: arg => do
    match ← dfaScan (charInt c) (← dfaState state).edges fuel with
    | some dest => dfaAddLoop fuel dest arg
    | none =>
      let dest ← dfaAppend realloc state (charInt c) 0
      if dest = -1 then return none else dfaAddLoop fuel dest arg

attribute [grind =] dfaAddLoop

/-- `cldm_dfa_add_argument`. -/
def dfaAddArgument (arg : List UInt8) (shortop : ℤ) (fuel : ℕ) : Prog Dfa Bool := do
  match ← dfaAddLoop realloc fuel (toInt (← get).start) arg with
  | some state =>
    setDfaState state { ← dfaState state with shortop }
    return true
  | none => return false

/-- The loop of `cldm_dfa_simulate`: the state that it stops in, and how far it got. -/
def dfaSimulateLoop (fuel : ℕ) : ℤ → ℕ → List UInt8 → Prog Dfa (ℤ × ℕ)
  | state, pos, [] => return (state, pos)
  | state, pos, c :: input => do
    match ← dfaScan (charInt c) (← dfaState state).edges fuel with
    | some dest => dfaSimulateLoop fuel dest (pos + 1) input
    | none => return (state, pos)

attribute [grind =] dfaSimulateLoop

/-- `cldm_dfa_simulate`: what it returns, and the value of `*shortop`. -/
def dfaSimulate (input : List UInt8) (fuel : ℕ) : Prog Dfa (ℤ × ℤ) := do
  let (state, pos) ← dfaSimulateLoop fuel (toInt (← get).start) 0 input
  let state ← dfaState state
  return if state.shortop ≠ 0 then (toInt (pos % uintMod), state.shortop) else (-1, 0)

/-- `cldm_dfa_init`. -/
def dfaInit (malloc : ℕ → Bool) : Prog Dfa Bool := do
  if malloc (dfaStateDelta * 8) && malloc (dfaEdgeDelta * 12) then
    let dfa ← get
    set ({ states := Function.update dfa.states 0 ⟨dfaEdgeNone, 0⟩, edges := dfa.edges,
           nstates := dfaStateDelta, stateIdx := 1, nedges := dfaEdgeDelta, edgeIdx := 0,
           start := 0 } : Dfa)
    return true
  else
    return false

end Definitions

theorem toInt_of_lt {n : ℕ} (h : n < 2 ^ 31) : toInt n = n := if_pos h

theorem charInt_inj {a b : UInt8} : charInt a = charInt b ↔ a = b := by
  have ha := a.toNat_lt
  have hb := b.toNat_lt
  constructor
  · intro h
    rw [charInt, charInt] at h
    refine UInt8.toNat_inj.mp ?_
    split_ifs at h
    all_goals omega
  · rintro rfl
    rfl

/-! ### Accesses -/

section Accesses

variable {dfa : Dfa} {i : ℕ}

theorem wp_dfaState (h : i < dfa.nstates) {Q : DfaState → Dfa → Prop} :
    wp (dfaState i) Q dfa ↔ Q (dfa.states i) dfa := by
  refine wp_of_some ?_
  rw [dfaState, if_pos ⟨Int.natCast_nonneg i, Int.ofNat_lt.mpr h⟩, Int.toNat_natCast]

theorem wp_setDfaState (h : i < dfa.nstates) {v : DfaState} {Q : Unit → Dfa → Prop} :
    wp (setDfaState i v) Q dfa ↔ Q () { dfa with states := Function.update dfa.states i v } := by
  refine wp_of_some ?_
  rw [setDfaState, if_pos ⟨Int.natCast_nonneg i, Int.ofNat_lt.mpr h⟩, Int.toNat_natCast]

theorem wp_dfaEdge (h : i < dfa.nedges) {Q : DfaEdge → Dfa → Prop} :
    wp (dfaEdge i) Q dfa ↔ Q (dfa.edges i) dfa := by
  refine wp_of_some ?_
  rw [dfaEdge, if_pos ⟨Int.natCast_nonneg i, Int.ofNat_lt.mpr h⟩, Int.toNat_natCast]

theorem wp_setDfaEdge (h : i < dfa.nedges) {v : DfaEdge} {Q : Unit → Dfa → Prop} :
    wp (setDfaEdge i v) Q dfa ↔ Q () { dfa with edges := Function.update dfa.edges i v } := by
  refine wp_of_some ?_
  rw [setDfaEdge, if_pos ⟨Int.natCast_nonneg i, Int.ofNat_lt.mpr h⟩, Int.toNat_natCast]

end Accesses

end Cldm
