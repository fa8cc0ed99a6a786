/-
The parallel reduction of the logs.

In the phase with the stride `i` the thread `t < i` adds the counters at
`t + i` to its own.  `RedInv` says, in every phase, that the counters of the
threads below the stride, together with what they still have to add, make up the
sum `S` at the start; in the last phase thread 0 has it.

* `Move.reducing`, `Move.returning` — what a thread does in these phases;
* `RedInv.step`, `redInv_run` — what one step and every run preserves;
* `parallel_reduction` — with fewer than 32 threads the reduction stays inside
  `testlogs`, has no races and computes the sums; with 32 it does not.
-/
import Cldm.ParallelPhase
import Mathlib.Algebra.BigOperators.Group.Finset.Piecewise

namespace Cldm

instance : AddCommMonoid Counters where
  add_assoc c d e := by
    ext <;> simp [add_assoc]
  zero_add c := by
    ext <;> simp
  add_zero c := by
    ext <;> simp
  add_comm c d := by
    ext <;> simp [add_comm]
  nsmul := nsmulRec

/-! ### The strides -/

theorem stride_succ (env : RunEnv) {g : ℕ} (hg : 2 ≤ g) : stride env (g + 1) = stride env g / 2 := by
  rw [stride, stride, Nat.shiftRight_eq_div_pow, Nat.shiftRight_eq_div_pow, Nat.div_div_eq_div_mul,
    ← Nat.pow_succ]
  congr 2
  omega

/-- A stride is even, 1 or, at the end, 0. -/
theorem stride_cases {env : RunEnv} (hjobs : 1 ≤ env.jobs) (hmax : env.jobs ≤ maxThreads) {g : ℕ}
    (hg : 2 ≤ g) : stride env g = 2 * stride env (g + 1) ∨ stride env g = 1 := by
  obtain ⟨-, -, p, -, hp⟩ := flp232_floor hjobs hmax
  rw [stride_succ env hg, stride, hp, Nat.shiftRight_eq_div_pow]
  by_cases hle : g - 2 < p
  · left
    rw [Nat.pow_div hle.le (by omega)]
    obtain ⟨q, hq⟩ : ∃ q, p - (g - 2) = q + 1 := ⟨p - (g - 2) - 1, by omega⟩
    rw [hq, Nat.pow_succ, Nat.mul_div_cancel _ (by omega), Nat.mul_comm]
  · by_cases heq : g - 2 = p
    · right
      rw [heq]
      exact Nat.div_self (Nat.two_pow_pos p)
    · left
      have hlt : 2 ^ p < 2 ^ (g - 2) := Nat.pow_lt_pow_right (by omega) (by omega)
      rw [Nat.div_eq_of_lt hlt]

theorem stride_le (env : RunEnv) (g : ℕ) : stride env g ≤ flp232 env.jobs := by
  rw [stride, Nat.shiftRight_eq_div_pow]
  exact Nat.div_le_self ..

/-! ### The moves of the last phases -/

/-- The thread has nothing to add in this phase any more. -/
def Pc.added : Pc → Bool
  | .arrive (.reduce _) | .blocked (.reduce _) => true
  | _ => false

/-- What a thread does while the stride is not 0. -/
theorem Move.reducing {env : RunEnv} {s : ParState} {g t : ℕ} {f : Effect} (hmove : Move env s t f)
    (hphase : PhaseOk env g t (s.pc t)) (hg : 2 ≤ g) (hstride : stride env g ≠ 0) :
    f.event.evalOf = none ∧
    ((f.tests = s.tests t ∧ (t < stride env g → f.pc.added = (s.pc t).added) ∧
      (∀ i v, f.pc = .add i v → v = s.counters env (t + i)) ∧
      (f.event = .quiet t ∨ f.event = .waits t ∨
        (f.event = .reads t (t + stride env g) ∧ t < stride env g))) ∨
    (∃ v, s.pc t = .add (stride env g) v ∧ t < stride env g ∧
      f = ⟨.writes t t, .arrive (.reduce (stride env g)),
        { s.tests t with log.counters := (s.tests t).log.counters + v }, s.sh⟩)) := by
  have hnot : ¬ MayReturn env g t := by
    rintro (⟨-, hzero⟩ | ⟨hone, -⟩)
    · exact hstride hzero
    · omega
  cases hmove with
  | @arrive b hpc =>
    rw [hpc] at hphase ⊢
    refine ⟨rfl, .inl ⟨rfl, fun _ => ?_, by simp, .inr (.inl rfl)⟩⟩
    cases b <;> rfl
  | reduceEnd hpc =>
    rw [hpc] at hphase
    exact absurd hphase.2.symm hstride
  | @reduceLoad i hpc hi ht =>
    rw [hpc] at hphase ⊢
    exact ⟨rfl, .inl ⟨rfl, fun _ => rfl, by simp [ParState.goto], .inl rfl⟩⟩
  | @reduceSkip i hpc hi ht =>
    rw [hpc] at hphase ⊢
    obtain ⟨-, rfl⟩ := hphase
    exact ⟨rfl, .inl ⟨rfl, fun hlt => absurd hlt (by omega), by simp [ParState.goto], .inl rfl⟩⟩
  | @load i hpc =>
    rw [hpc] at hphase ⊢
    obtain ⟨-, rfl, ht⟩ := hphase
    refine ⟨rfl, .inl ⟨rfl, fun _ => rfl, fun i v h => ?_, .inr (.inr ⟨rfl, ht⟩)⟩⟩
    obtain ⟨rfl, rfl⟩ := Pc.add.inj h
    rfl
  | @add i v hpc =>
    rw [hpc] at hphase
    obtain ⟨-, rfl, ht⟩ := hphase
    exact ⟨rfl, .inr ⟨v, hpc, ht, rfl⟩⟩
  | stuck hcan =>
    rcases hphase.stick hcan with hone | hzero
    · omega
    · exact absurd hzero hstride
  | free hpc =>
    rw [hpc] at hphase
    exact absurd hphase.2.1 hstride
  | join hpc | callTeardown hpc | teardownEval hpc | teardownDone hpc | summary hpc | finish hpc =>
    rw [hpc] at hphase
    exact absurd hphase.1 hnot
  | collect hpc | callSetup hpc | setupEval hpc | setupDone hpc | loopStart hpc | loopEnd hpc
  | testEval hpc | testDone hpc | scheduleFull hpc | scheduleRoom hpc | store hpc | setAbort hpc
  | readAbort hpc | lockIo hpc | printNext hpc | printDone hpc | log hpc =>
    rw [hpc] at hphase
    have := hphase.1
    omega
  | init hpc =>
    rw [hpc] at hphase
    have : g = 0 := hphase
    omega

/-- The global teardown has not begun. -/
def Pc.beforeTeardown : Pc → Bool
  | .reduce _ | .join => true
  | _ => false

/-- The event is an access to `testlogs` by the reduction. -/
def Event.accesses : Event → Bool
  | .reads _ _ | .writes _ _ => true
  | _ => false

/-- What a thread does once the stride is 0: the logs change no more but for what
the global teardown evaluates. -/
theorem Move.returning {env : RunEnv} {s : ParState} {g t : ℕ} {f : Effect} (hmove : Move env s t f)
    (hphase : PhaseOk env g t (s.pc t)) (hg : 2 ≤ g) (hstride : stride env g = 0) :
    f.event.accesses = false ∧ (∀ i v, f.pc ≠ .add i v) ∧
    ((f.tests.log.counters = (s.tests t).log.counters ∧ f.tests.current = (s.tests t).current ∧
      f.event.evalOf = none ∧ (f.pc.beforeTeardown = true → (s.pc t).beforeTeardown = true)) ∨
    (t = 0 ∧ ∃ a, assertTrue (env.realloc t) a (s.tests t) = some f.tests ∧
      f.event.evalOf = some a.eval ∧ f.pc.beforeTeardown = false)) := by
  cases hmove with
  | reduceEnd hpc =>
    refine ⟨rfl, ?_, .inl ⟨rfl, rfl, rfl, fun _ => by rw [hpc]; rfl⟩⟩
    simp only [ParState.goto]
    split_ifs <;> simp
  | free hpc => exact ⟨rfl, by simp, .inl ⟨rfl, rfl, rfl, fun h => absurd h Bool.false_ne_true⟩⟩
  | join hpc hothers | callTeardown hpc haux | teardownDone hpc =>
    exact ⟨rfl, by simp [ParState.goto], .inl ⟨rfl, rfl, rfl,
      fun h => absurd h Bool.false_ne_true⟩⟩
  | teardownEval hpc haux ha heval =>
    rw [hpc] at hphase
    exact ⟨rfl, by simp, .inr ⟨hphase.2, _, heval, rfl, rfl⟩⟩
  | summary hpc hreport | finish hpc =>
    exact ⟨rfl, by simp, .inl ⟨rfl, rfl, rfl, fun h => absurd h Bool.false_ne_true⟩⟩
  | stuck hcan =>
    exact ⟨rfl, by simp [ParState.stick], .inl ⟨rfl, rfl, rfl,
      fun h => absurd h Bool.false_ne_true⟩⟩
  | reduceLoad hpc hi =>
    rw [hpc] at hphase
    exact absurd (hphase.2.trans hstride) hi
  | reduceSkip hpc hi =>
    rw [hpc] at hphase
    exact absurd (hphase.2.trans hstride) hi
  | load hpc | add hpc =>
    rw [hpc] at hphase
    obtain ⟨-, rfl, ht⟩ := hphase
    omega
  | @arrive b hpc =>
    rw [hpc] at hphase
    cases b with
    | setup ok =>
      have := hphase.1
      omega
    | tests =>
      have := hphase.1
      omega
    | reduce i => exact absurd (hphase.2.1.trans hstride) hphase.2.2
  | collect hpc | callSetup hpc | setupEval hpc | setupDone hpc | loopStart hpc | loopEnd hpc
  | testEval hpc | testDone hpc | scheduleFull hpc | scheduleRoom hpc | store hpc | setAbort hpc
  | readAbort hpc | lockIo hpc | printNext hpc | printDone hpc | log hpc =>
    rw [hpc] at hphase
    have := hphase.1
    omega
  | init hpc =>
    rw [hpc] at hphase
    have : g = 0 := hphase
    omega

/-! ### The sum -/

/-- The counters at `t` with what the thread still adds to them in this phase. -/
def reduceTerm (env : RunEnv) (s : ParState) (i t : ℕ) : Counters :=
  s.counters env t + if (s.pc t).added then 0 else s.counters env (t + i)

/-- The reduction of the sum `S`; `tr` is the run since it began. -/
structure RedInv (env : RunEnv) (S : Counters) (tr : List Event) (s : ParState) : Prop where
  pcs : ∀ t < env.jobs, PhaseOk env (releases tr + 2) t (s.pc t)
  loaded : ∀ t < env.jobs, ∀ i v, s.pc t = .add i v → v = s.counters env (t + i)
  sum : stride env (releases tr + 2) ≠ 0 → evals tr = [] ∧
    ∑ t ∈ Finset.range (stride env (releases tr + 2)),
      reduceTerm env s (stride env (releases tr + 2)) t = S
  /-- From the last phase on, `failed` counts the failure of the teardown. -/
  final : stride env (releases tr + 2) = 0 → ∃ failed,
    (s.tests 0).log.counters = S + .ofEvals failed (evals tr) ∧
    failed + (if (s.tests 0).current.pass then 1 else 0) ≤ 1 ∧
    ((s.pc 0).beforeTeardown = true → failed = 0 ∧ evals tr = [])

section

variable {env : RunEnv} {S : Counters} {tr : List Event} {s : ParState}

theorem counters_act_other {t x : ℕ} {f : Effect} (h : x ≠ t) :
    (s.act t f).counters env x = s.counters env x := by
  simp only [ParState.counters, act_tests_other h]

theorem counters_act_same {t : ℕ} {f : Effect}
    (h : f.tests.log.counters = (s.tests t).log.counters) (x : ℕ) :
    (s.act t f).counters env x = s.counters env x := by
  by_cases hx : x = t
  · subst hx
    simp only [ParState.counters, act_tests_self, h]
  · exact counters_act_other hx

/-- A move in a phase whose stride is not 0. -/
theorem RedInv.act_reducing (hmax : env.jobs ≤ maxThreads) (hjobs : 1 ≤ env.jobs)
    (h : RedInv env S tr s) {t : ℕ} {f : Effect} (ht : t < env.jobs) (hmove : Move env s t f)
    (hstride : stride env (releases tr + 2) ≠ 0) : RedInv env S (tr ++ [f.event]) (s.act t f) := by
  have hle : stride env (releases tr + 2) ≤ env.jobs :=
    (stride_le env _).trans (flp232_floor hjobs hmax).1
  obtain ⟨hevals, hsum⟩ := h.sum hstride
  obtain ⟨heval, hcases⟩ := hmove.reducing (h.pcs t ht) (Nat.le_add_left ..) hstride
  have hevals' : evals (tr ++ [f.event]) = [] := by
    simp [hevals, heval]
  have hpcs : ∀ u < env.jobs, PhaseOk env (releases tr + 2) u ((s.act t f).pc u) := by
    intro u hu
    by_cases hut : u = t
    · subst hut
      rw [act_pc_self]
      exact (h.pcs u hu).move hmove
    · rw [act_pc_other hut]
      exact h.pcs u hu
  refine ⟨?_, ?_, ?_, ?_⟩
  · rw [releases_move hmove]
    exact hpcs
  · -- an entry that another thread has loaded lies at the stride or above
    intro u hu i v hadd
    rcases hcases with ⟨htests, -, hload, -⟩ | ⟨w, hpc, hlt, rfl⟩
    · rw [counters_act_same (by rw [htests])]
      by_cases hut : u = t
      · subst hut
        rw [act_pc_self] at hadd
        exact hload i v hadd
      · rw [act_pc_other hut] at hadd
        exact h.loaded u hu i v hadd
    · by_cases hut : u = t
      · subst hut
        rw [act_pc_self] at hadd
        exact absurd hadd (by simp)
      · rw [act_pc_other hut] at hadd
        have hphase := h.pcs u hu
        rw [hadd] at hphase
        obtain ⟨-, rfl, -⟩ := hphase
        rw [counters_act_other (by omega)]
        exact h.loaded u hu _ v hadd
  · rw [releases_move hmove]
    refine fun _ => ⟨hevals', ?_⟩
    rw [← hsum]
    refine Finset.sum_congr rfl fun u hu => ?_
    have hu := Finset.mem_range.mp hu
    rcases hcases with ⟨htests, hadded, -, -⟩ | ⟨w, hpc, hlt, rfl⟩
    · simp only [reduceTerm, counters_act_same (f := f) (by rw [htests])]
      by_cases hut : u = t
      · subst hut
        rw [act_pc_self, hadded hu]
      · rw [act_pc_other hut]
    · by_cases hut : u = t
      · subst hut
        have hw := h.loaded u ht _ w hpc
        simp only [reduceTerm, act_pc_self, hpc, Pc.added, if_true, if_false, ← hw,
          Bool.false_eq_true, add_zero]
        have hmem : u < maxThreads := by omega
        simp [ParState.counters, hmem]
      · rw [reduceTerm, reduceTerm, act_pc_other hut, counters_act_other hut,
          counters_act_other (by omega)]
  · rw [releases_move hmove]
    exact fun hzero => absurd hzero hstride

/-- A move after the last phase. -/
theorem RedInv.act_returning (h : RedInv env S tr s) {t : ℕ} {f : Effect} (ht : t < env.jobs)
    (hmove : Move env s t f) (hstride : stride env (releases tr + 2) = 0) :
    RedInv env S (tr ++ [f.event]) (s.act t f) := by
  obtain ⟨-, hnot, hcases⟩ := hmove.returning (h.pcs t ht) (Nat.le_add_left ..) hstride
  refine ⟨?_, ?_, ?_, ?_⟩
  · rw [releases_move hmove]
    intro u hu
    by_cases hut : u = t
    · subst hut
      rw [act_pc_self]
      exact (h.pcs u hu).move hmove
    · rw [act_pc_other hut]
      exact h.pcs u hu
  · intro u hu i v hadd
    exfalso
    by_cases hut : u = t
    · subst hut
      rw [act_pc_self] at hadd
      exact hnot i v hadd
    · rw [act_pc_other hut] at hadd
      have hphase := h.pcs u hu
      rw [hadd] at hphase
      obtain ⟨-, rfl, hlt⟩ := hphase
      omega
  · rw [releases_move hmove]
    exact fun hne => absurd hstride hne
  · intro _
    obtain ⟨failed, hcounters, hpass, hbefore⟩ := h.final hstride
    by_cases h0 : 0 = t
    · subst h0
      rw [act_tests_self, act_pc_self]
      rcases hcases with ⟨hsame, hcur, heval, hback⟩ | ⟨-, a, htrue, heval, hlate⟩
      · have hevals : evals (tr ++ [f.event]) = evals tr := by
          simp [heval]
        refine ⟨failed, ?_, by rw [hcur]; exact hpass, fun hb => ?_⟩
        · rw [hsame, hcounters, hevals]
        · rw [hevals]
          exact hbefore (hback hb)
      · obtain ⟨hcount, hp, -, -⟩ := assertTrue_evaluates htrue
        have hevals : evals (tr ++ [f.event]) = evals tr ++ [a.eval] := by
          simp [heval]
        refine ⟨failed + if (s.tests 0).current.pass && !a.eval then 1 else 0, ?_, ?_,
          fun hb => absurd (hb.symm.trans hlate) (by simp)⟩
        · rw [hcount, hcounters, add_assoc, Counters.ofEvals_add, hevals]
        · rw [hp]
          cases hpass' : (s.tests 0).current.pass <;> cases a.eval <;>
            simp [hpass'] at hpass ⊢ <;> omega
    · rw [act_tests_other h0, act_pc_other h0]
      rcases hcases with ⟨-, -, heval, -⟩ | ⟨rfl, -⟩
      · have hevals : evals (tr ++ [f.event]) = evals tr := by
          simp [heval]
        rw [hevals]
        exact ⟨failed, hcounters, hpass, hbefore⟩
      · exact absurd rfl h0

/-- With the next stride everything is still to be added. -/
theorem sum_reduceTerm {i : ℕ} (hpcs : ∀ t < i, (s.pc t).added = false) :
    ∑ t ∈ Finset.range i, reduceTerm env s i t =
      ∑ t ∈ Finset.range (i + i), s.counters env t := by
  rw [Finset.sum_range_add, ← Finset.sum_add_distrib]
  refine Finset.sum_congr rfl fun t ht => ?_
  rw [reduceTerm, hpcs t (Finset.mem_range.mp ht), Nat.add_comm]
  rfl

/-- The release of the barrier halves the stride. -/
theorem RedInv.released (hmax : env.jobs ≤ maxThreads) (hjobs : 1 ≤ env.jobs)
    (h : RedInv env S tr s) (hblocked : ∀ t < env.jobs, (s.pc t).isBlocked = true) :
    RedInv env S (tr ++ [.released]) (s.passBarrier env) := by
  have hle : stride env (releases tr + 2) ≤ env.jobs :=
    (stride_le env _).trans (flp232_floor hjobs hmax).1
  have hevals : evals (tr ++ [.released]) = evals tr := by
    simp [Event.evalOf]
  have hpcs : ∀ t < env.jobs, PhaseOk env (releases tr + 2 + 1) t ((s.passBarrier env).pc t) := by
    intro t ht
    rw [passBarrier_pc ht]
    exact (h.pcs t ht).released (hblocked t ht)
  -- everyone waits in the reduction
  have hwait : ∀ t < env.jobs, stride env (releases tr + 2) ≠ 0 ∧
      s.pc t = .blocked (.reduce (stride env (releases tr + 2))) := by
    intro t ht
    have hphase := h.pcs t ht
    have hb := hblocked t ht
    cases hp : s.pc t with
    | blocked b =>
      rw [hp] at hphase
      cases b with
      | setup ok =>
        have := hphase.1
        omega
      | tests =>
        have := hphase.1
        omega
      | reduce i =>
        obtain ⟨-, rfl, hne⟩ := hphase
        exact ⟨hne, rfl⟩
    | _ =>
      rw [hp] at hb
      exact absurd hb (by simp [Pc.isBlocked])
  have hne := (hwait 0 (by omega)).1
  have hnext : ∀ t < env.jobs, (s.passBarrier env).pc t =
      .reduce (stride env (releases tr + 2 + 1)) := by
    intro t ht
    rw [passBarrier_pc ht, (hwait t ht).2, stride_succ env (Nat.le_add_left ..),
      ← Nat.shiftRight_one]
    rfl
  obtain ⟨hnil, hsum⟩ := h.sum hne
  have hdone : ∑ t ∈ Finset.range (stride env (releases tr + 2)), s.counters env t = S := by
    rw [← hsum]
    refine Finset.sum_congr rfl fun t ht => ?_
    have ht := Finset.mem_range.mp ht
    rw [reduceTerm, (hwait t (by omega)).2]
    exact (add_zero _).symm
  have hrel : releases (tr ++ [.released]) + 2 = releases tr + 2 + 1 := by
    rw [releases_released]
  refine ⟨?_, ?_, ?_, ?_⟩
  · rw [hrel]
    exact hpcs
  · intro t ht i v hadd
    rw [hnext t ht] at hadd
    exact absurd hadd (by simp)
  · rw [hrel]
    intro hne'
    refine ⟨hevals.trans hnil, ?_⟩
    have hle' : stride env (releases tr + 2 + 1) ≤ env.jobs :=
      (stride_le env _).trans (flp232_floor hjobs hmax).1
    rw [sum_reduceTerm fun t ht => by rw [hnext t (by omega)]; rfl, ← hdone]
    have htwo : stride env (releases tr + 2 + 1) + stride env (releases tr + 2 + 1) =
        stride env (releases tr + 2) := by
      rcases stride_cases hjobs hmax (g := releases tr + 2) (Nat.le_add_left ..) with htwo | hone
      · omega
      · rw [stride_succ env (Nat.le_add_left ..), hone] at hne'
        exact absurd rfl hne'
    rw [htwo]
    rfl
  · rw [hrel]
    intro hzero
    have hone : stride env (releases tr + 2) = 1 := by
      rcases stride_cases hjobs hmax (g := releases tr + 2) (Nat.le_add_left ..) with htwo | hone
      · omega
      · exact hone
    rw [hone, Finset.sum_range_one] at hdone
    refine ⟨0, ?_, ?_, fun _ => ⟨rfl, hevals.trans hnil⟩⟩
    · rw [hevals, hnil, Counters.ofEvals_nil, add_zero, ← hdone]
      rfl
    · split_ifs <;> omega

theorem RedInv.step (hmax : env.jobs ≤ maxThreads) (hjobs : 1 ≤ env.jobs) {s' : ParState}
    {e : Event} (h : RedInv env S tr s) (hstep : Step env s e s') :
    RedInv env S (tr ++ [e]) s' := by
  obtain ⟨t, f, ht, hmove, rfl, rfl⟩ | ⟨rfl, hblocked, rfl⟩ := step_cases hstep
  · by_cases hstride : stride env (releases tr + 2) = 0
    · exact h.act_returning ht hmove hstride
    · exact h.act_reducing hmax hjobs ht hmove hstride
  · exact h.released hmax hjobs hblocked

end

/-! ### Runs of the reduction -/

/-- All threads are at the beginning of the reduction; the logs that no thread
uses are as they were initialised. -/
structure ReduceStart (env : RunEnv) (s : ParState) : Prop where
  pcs : ∀ t < env.jobs, s.pc t = .reduce (flp232 env.jobs)
  unused : ∀ t, env.jobs ≤ t → t < maxThreads → (s.tests t).log.counters = 0

/-- The sum of the counters of all threads. -/
def sumCounters (env : RunEnv) (s : ParState) : Counters :=
  ∑ t ∈ Finset.range env.jobs, (s.tests t).log.counters

/-- Where the first stride stays inside `testlogs`, every run keeps the sum. -/
theorem redInv_run {env : RunEnv} (hjobs : 1 ≤ env.jobs) (hmax : env.jobs < maxThreads)
    {s s' : ParState} {tr : List Event} (hs : ReduceStart env s)
    (h : Trace.Run (Step env) s tr s') : RedInv env (sumCounters env s) tr s' := by
  refine Trace.Run.invariant (I := RedInv env (sumCounters env s)) ?_
    (fun _ _ _ _ _ hinv hstep => hinv.step hmax.le hjobs hstep) h
  obtain ⟨hfloor, hlt, p, -, hp⟩ := flp232_floor hjobs hmax.le
  have hfirst : stride env (releases ([] : List Event) + 2) = flp232 env.jobs := rfl
  have hthreads : maxThreads = 32 := rfl
  have htwo : flp232 env.jobs + flp232 env.jobs ≤ maxThreads := by
    have hpow : p ≤ 4 := by
      by_contra hgt
      have : 2 ^ 5 ≤ 2 ^ p := Nat.pow_le_pow_right (by omega) (by omega)
      omega
    have : 2 ^ p ≤ 2 ^ 4 := Nat.pow_le_pow_right (by omega) hpow
    omega
  refine ⟨fun t ht => ?_, fun t ht i v hadd => ?_, fun _ => ⟨rfl, ?_⟩, fun hzero => ?_⟩
  · rw [hs.pcs t ht]
    exact ⟨Nat.le_refl 2, rfl⟩
  · rw [hs.pcs t ht] at hadd
    exact absurd hadd (by simp)
  · rw [hfirst, sum_reduceTerm fun t ht => by rw [hs.pcs t (by omega)]; rfl]
    obtain ⟨rest, hrest⟩ : ∃ rest, flp232 env.jobs + flp232 env.jobs = env.jobs + rest :=
      ⟨flp232 env.jobs + flp232 env.jobs - env.jobs, by omega⟩
    rw [hrest, Finset.sum_range_add, sumCounters]
    have hzero : ∑ t ∈ Finset.range rest, s.counters env (env.jobs + t) = 0 := by
      refine Finset.sum_eq_zero fun t ht => ?_
      have ht := Finset.mem_range.mp ht
      rw [ParState.counters, if_pos (by omega)]
      exact hs.unused _ (by omega) (by omega)
    rw [hzero, add_zero]
    refine Finset.sum_congr rfl fun t ht => ?_
    have ht := Finset.mem_range.mp ht
    exact if_pos (by omega)
  · rw [hfirst] at hzero
    omega

/-! ### The reduction loop -/

/-- The reduction for `N` threads, from any counters and in any interleaving. -/
structure ReducesRight (N : ℕ) : Prop where
  /-- All accesses are inside `testlogs`. -/
  inside : ∀ env : RunEnv, env.jobs = N → ∀ s tr s', ReduceStart env s →
    Trace.Run (Step env) s tr s' → ∀ t x, .reads t x ∈ tr ∨ .writes t x ∈ tr → x < maxThreads
  /-- Between two releases of the barrier no thread reads what another writes. -/
  raceFree : ∀ env : RunEnv, env.jobs = N → ∀ s a b c s', ReduceStart env s →
    Trace.Run (Step env) s (a ++ b ++ c) s' → .released ∉ b →
    ∀ t u x, .reads t x ∈ b → .writes u x ∈ b → t = u
  /-- Thread 0 leaves the loop with the sums. -/
  sums : ∀ env : RunEnv, env.jobs = N → ∀ s tr s', ReduceStart env s →
    Trace.Run (Step env) s tr s' → s'.pc 0 = .join →
    (s'.tests 0).log.counters = sumCounters env s

/-- The accesses of a phase: reads at the stride or above, writes below it. -/
theorem access_bounds {env : RunEnv} (hjobs : 1 ≤ env.jobs) (hmax : env.jobs < maxThreads)
    {s s' : ParState} {tr tr' : List Event} {e : Event} (hs : ReduceStart env s)
    (h : Trace.Run (Step env) s (tr ++ e :: tr') s') :
    (∀ t x, e = .reads t x → t < stride env (releases tr + 2) ∧
      x = t + stride env (releases tr + 2)) ∧
    (∀ t x, e = .writes t x → t < stride env (releases tr + 2) ∧ x = t) := by
  obtain ⟨m, m', hm, hstep, -⟩ := h.split_at
  have hinv := redInv_run hjobs hmax hs hm
  obtain ⟨u, f, hu, hmove, rfl, -⟩ | ⟨rfl, -, -⟩ := step_cases hstep
  · by_cases hstride : stride env (releases tr + 2) = 0
    · obtain ⟨hnone, -, -⟩ := hmove.returning (hinv.pcs u hu) (Nat.le_add_left ..) hstride
      refine ⟨fun t x he => ?_, fun t x he => ?_⟩
      · rw [he] at hnone
        exact absurd hnone (by simp [Event.accesses])
      · rw [he] at hnone
        exact absurd hnone (by simp [Event.accesses])
    · obtain ⟨-, ⟨-, -, -, he⟩ | ⟨v, -, hlt, rfl⟩⟩ :=
        hmove.reducing (hinv.pcs u hu) (Nat.le_add_left ..) hstride
      · rcases he with he | he | ⟨he, hlt⟩
        · rw [he]
          exact ⟨fun t x h => absurd h (by simp), fun t x h => absurd h (by simp)⟩
        · rw [he]
          exact ⟨fun t x h => absurd h (by simp), fun t x h => absurd h (by simp)⟩
        · rw [he]
          refine ⟨fun t x h => ?_, fun t x h => absurd h (by simp)⟩
          obtain ⟨rfl, rfl⟩ := Event.reads.inj h
          exact ⟨hlt, rfl⟩
      · refine ⟨fun t x h => absurd h (by simp), fun t x h => ?_⟩
        obtain ⟨rfl, rfl⟩ := Event.writes.inj h
        exact ⟨hlt, rfl⟩
  · exact ⟨fun t x h => absurd h (by simp), fun t x h => absurd h (by simp)⟩

/-- Inside a phase the stride stays. -/
theorem releases_within {a b₁ b₂ : List Event} {e : Event} (hb : .released ∉ b₁ ++ e :: b₂) :
    releases (a ++ b₁) = releases a := by
  have hnot : .released ∉ b₁ := fun hmem => hb (List.mem_append_left _ hmem)
  rw [releases, List.count_append, List.count_eq_zero_of_not_mem hnot]
  rfl

/-- With 32 threads the first stride is 32. -/
theorem first_read_outside : ∃ (env : RunEnv) (s s' : ParState), env.jobs = 32 ∧
    ReduceStart env s ∧ Trace.Run (Step env) s [.quiet 0, .reads 0 32] s' := by
  refine ⟨noTestsEnv 32 fun _ => true, { ParState.initial with pc := fun _ => .reduce 32 },
    _, rfl, ⟨fun _ _ => ?_, fun _ _ _ => rfl⟩, (Trace.Run.single ⟨some 0, rfl⟩).snoc ⟨some 0, rfl⟩⟩
  show Pc.reduce 32 = .reduce (flp232 32)
  rw [show flp232 32 = 32 by decide]

/-- The first stride is the floor power of two of `N`: with 32 threads the first
read is behind `testlogs`, and with fewer the reduction is right. -/
theorem parallel_reduction (N : ℕ) (hmin : 2 ≤ N) (hmax : N ≤ maxThreads) :
    ReducesRight N ↔ N < maxThreads := by
  have hthreads : maxThreads = 32 := rfl
  constructor
  · intro h
    by_contra hge
    obtain rfl : N = 32 := by omega
    obtain ⟨env, s, s', hN, hs, hrun⟩ := first_read_outside
    have := h.inside env hN s _ s' hs hrun 0 32 (.inl (by simp))
    omega
  · intro hlt
    have hstride : ∀ env : RunEnv, env.jobs = N → ∀ g, stride env g + stride env g ≤ maxThreads ∧
        stride env g ≤ N := by
      rintro env rfl g
      obtain ⟨hfloor, -, p, hp, hpow⟩ := flp232_floor (n := env.jobs) (by omega) (by omega)
      have hle := stride_le env g
      have hp4 : p ≤ 4 := by
        by_contra hgt
        obtain rfl : p = 5 := by omega
        omega
      have : 2 ^ p ≤ 2 ^ 4 := Nat.pow_le_pow_right (by omega) hp4
      omega
    refine ⟨fun env hN s tr s' hs h t x hmem => ?_, fun env hN s a b c s' hs h hb t u x hr hw => ?_,
      fun env hN s tr s' hs h hpc => ?_⟩
    · subst hN
      rcases hmem with hmem | hmem
      · obtain ⟨l, l', rfl⟩ := List.append_of_mem hmem
        obtain ⟨ht, rfl⟩ := (access_bounds (by omega) hlt hs h).1 t x rfl
        have := (hstride env rfl (releases l + 2)).1
        omega
      · obtain ⟨l, l', rfl⟩ := List.append_of_mem hmem
        obtain ⟨ht, rfl⟩ := (access_bounds (by omega) hlt hs h).2 t x rfl
        have := (hstride env rfl (releases l + 2)).2
        omega
    · subst hN
      obtain ⟨b₁, b₂, hb₁⟩ := List.append_of_mem hr
      obtain ⟨c₁, c₂, hc₁⟩ := List.append_of_mem hw
      have hread : Trace.Run (Step env) s ((a ++ b₁) ++ .reads t x :: (b₂ ++ c)) s' := by
        simpa [hb₁] using h
      have hwrite : Trace.Run (Step env) s ((a ++ c₁) ++ .writes u x :: (c₂ ++ c)) s' := by
        simpa [hc₁] using h
      have hr' := (access_bounds (by omega) hlt hs hread).1 t x rfl
      have hw' := (access_bounds (by omega) hlt hs hwrite).2 u x rfl
      rw [releases_within (hb₁ ▸ hb)] at hr'
      rw [releases_within (hc₁ ▸ hb)] at hw'
      -- a read is at the stride or above, a write below it
      omega
    · subst hN
      have hinv := redInv_run (by omega) hlt hs h
      have hphase := hinv.pcs 0 (by omega)
      rw [hpc] at hphase
      have hzero : stride env (releases tr + 2) = 0 := by
        rcases hphase.1 with ⟨-, hzero⟩ | ⟨hone, -⟩
        · exact hzero
        · omega
      obtain ⟨failed, hcounters, -, hbefore⟩ := hinv.final hzero
      obtain ⟨rfl, hnil⟩ := hbefore (by rw [hpc]; rfl)
      rw [hcounters, hnil, Counters.ofEvals_nil, add_zero]

theorem parallel_reduction_three : ReducesRight 3 :=
  (parallel_reduction 3 (by decide) (by decide)).mpr (by decide)

/-- With 32 threads thread 0 reads `testlogs[32]`. -/
theorem parallel_reduction_outside : ¬ ReducesRight 32 := by
  intro h
  obtain ⟨env, s, s', hN, hs, hrun⟩ := first_read_outside
  exact absurd (h.inside env hN s _ s' hs hrun 0 32 (.inl (by simp))) (by decide)

end Cldm
