/-
Whole parallel runs, from the collection to the summary.

* `parallel_collect_failure` — when the collection fails, no run returns: the
  global teardown is called through a null pointer;
* `exists_reduceStart` — a run is cut where the reduction begins, and there the
  logs hold what the tests have evaluated;
* `summary_counters` — the counters that `cldm_test_summary` reads;
* `parallel_counts_assertions` — with an empty global setup they count every
  assertion;
* `parallel_summary_messages` — when the summary prints all recorded messages.
-/
import Cldm.ParallelLog
import Cldm.ParallelReduce
import Cldm.Sequential
import Mathlib.Algebra.Order.BigOperators.Group.Finset

namespace Cldm

/-! ### A failed collection -/

/-- The thread is past the call of a global procedure. -/
def Pc.called : Pc → Bool
  | .globalSetup _ | .globalTeardown _ | .summary | .finish _ | .done _ => true
  | _ => false

/-- Without auxiliary procedures nobody gets past the call of one. -/
structure NoProcs (env : RunEnv) (tr : List Event) (s : ParState) : Prop where
  auxprocs : s.sh.plan.auxprocs = none
  pcs : ∀ t < env.jobs, (s.pc t).called = false
  trace : ∀ t site, .invoked t site ∉ tr

theorem collectPlan_auxprocs {env : RunEnv} (h : env.collected = none) (plan : Plan) :
    (collectPlan env plan).2.auxprocs = plan.auxprocs := by
  rw [collectPlan, h]

theorem Move.not_called {env : RunEnv} {s : ParState} {t : ℕ} {f : Effect} (h : Move env s t f)
    (haux : s.sh.plan.auxprocs = none) (hpc : (s.pc t).called = false) :
    f.pc.called = false ∧ ∀ u site, f.event ≠ .invoked u site := by
  cases h with
  | collect _ =>
    refine ⟨?_, by simp⟩
    rcases collectPlan_pc env s.sh.plan with hnext | hnext
    · exact hnext ▸ rfl
    · exact hnext ▸ rfl
  | callSetup _ hsome | callTeardown _ hsome => exact absurd (haux.symm.trans hsome) (by simp)
  | setupEval h | teardownEval h | teardownDone h | summary h | finish h =>
    rw [h] at hpc
    exact absurd hpc (by simp [Pc.called])
  | store _ _ =>
    refine ⟨?_, by simp⟩
    simp only [afterTest]
    split_ifs <;> rfl
  | readAbort _ | reduceEnd _ =>
    refine ⟨?_, by simp [ParState.goto]⟩
    simp only [ParState.goto]
    split_ifs <;> rfl
  | @printDone c j _ _ =>
    refine ⟨?_, by simp⟩
    cases c <;> rfl
  | _ => exact ⟨rfl, by simp [ParState.goto, ParState.stick]⟩

theorem noProcs_run {env : RunEnv} (hcollected : env.collected = none) {tr : List Event}
    {s : ParState} (h : ParRun env tr s) : NoProcs env tr s := by
  refine Trace.Run.invariant (I := NoProcs env) ?_ ?_ h
  · refine ⟨rfl, fun t _ => ?_, fun t site => List.not_mem_nil⟩
    show (if t = 1 then Pc.collect else .init).called = false
    split_ifs <;> rfl
  · intro tr s e s' _ ih hstep
    obtain ⟨t, f, ht, hmove, rfl, rfl⟩ | ⟨rfl, hblocked, rfl⟩ := step_cases hstep
    · obtain ⟨hpc, hevent⟩ := hmove.not_called ih.auxprocs (ih.pcs t ht)
      refine ⟨?_, fun u hu => ?_, fun u site hmem => ?_⟩
      · rw [act_sh]
        obtain ⟨-, ⟨-, hplan⟩ | ⟨-, hplan⟩⟩ := hmove.plan
        · rw [hplan, collectPlan_auxprocs hcollected, ih.auxprocs]
        · rw [hplan, ih.auxprocs]
      · by_cases hut : u = t
        · subst hut
          rw [act_pc_self]
          exact hpc
        · rw [act_pc_other hut]
          exact ih.pcs u hu
      · rcases List.mem_append.mp hmem with hold | hnew
        · exact ih.trace u site hold
        · exact hevent u site (List.mem_singleton.mp hnew).symm
    · refine ⟨ih.auxprocs, fun u hu => ?_, fun u site hmem => ?_⟩
      · rw [passBarrier_pc hu]
        have hb := hblocked u hu
        cases hp : s.pc u with
        | blocked b =>
          cases b with
          | setup ok =>
            cases ok with
            | true => rfl
            | false =>
              simp only [releasedPc, afterBarrier]
              split_ifs <;> rfl
          | tests | reduce i => rfl
        | _ =>
          rw [hp] at hb
          exact absurd hb (by simp [Pc.isBlocked])
      · rcases List.mem_append.mp hmem with hold | hnew
        · exact ih.trace u site hold
        · exact absurd (List.mem_singleton.mp hnew) (by simp)

/-- Both drivers report a failed collection and call no procedure. -/
structure CollectFailureAgrees (env : RunEnv) : Prop where
  sequential : ∃ status tr, sequentialRun { env with jobs := 1 } = some (status, tr) ∧
    status ≠ 0 ∧ ∀ t site, .invoked t site ∉ tr
  parallel : ∃ tr s status, ParRun env tr s ∧ s.pc 0 = .done status ∧ status ≠ 0
  invokes : ∀ tr s, ParRun env tr s → ∀ t site, .invoked t site ∉ tr

/-- With a failed collection `cldm_parallel_run` does not return. -/
theorem not_done_of_collect_failure {env : RunEnv} (hjobs : 0 < env.jobs)
    (hcollected : env.collected = none) {tr : List Event} {s : ParState} (h : ParRun env tr s)
    (status : ℕ) : s.pc 0 ≠ .done status := by
  intro hpc
  have hnot := (noProcs_run hcollected h).pcs 0 hjobs
  rw [hpc] at hnot
  exact absurd hnot (by simp [Pc.called])

/-- The drivers agree on no failed collection. -/
theorem parallel_collect_failure (env : RunEnv) (hjobs : 2 ≤ env.jobs)
    (hcollected : env.collected = none) : ¬ CollectFailureAgrees env := by
  intro h
  obtain ⟨tr, s, status, hrun, hpc, -⟩ := h.parallel
  exact not_done_of_collect_failure (by omega) hcollected hrun status hpc

/-- A run whose collection fails. -/
def collectFailureEnv : RunEnv :=
  { RunEnv.ofTests 2 false (.global [] []) [] length_no_tests with collected := none }

theorem parallel_collect_failure_run : ¬ CollectFailureAgrees collectFailureEnv :=
  parallel_collect_failure collectFailureEnv (by decide) rfl

/-- The master calls the global teardown through a null pointer. -/
theorem parallel_collect_failure_crashes :
    (∃ tr s, ParRun collectFailureEnv tr s ∧ s.pc 0 = .stuck) ∧
      ¬ CollectFailureAgrees collectFailureEnv := by
  have hrun : (Trace.exec (parNext collectFailureEnv)
      ([1, 1, 1, 0, 0].map some ++ [none] ++ [0, 0, 0, 0, 1, 1, 1, 1].map some ++ [none] ++
        [0, 0, 0, 0, 1, 1, 1, 1].map some ++ [none] ++ [0, 0, 0, 0, 1, 1].map some ++ [none] ++
        [1, 1, 0, 0, 0].map some) .initial).map (fun r => r.2.pc 0) = some .stuck := by
    decide +kernel
  obtain ⟨⟨tr, s⟩, hexec, hpc⟩ := Option.map_eq_some_iff.mp hrun
  refine ⟨⟨tr, s, parRun_of_exec hexec, hpc⟩, fun h => ?_⟩
  obtain ⟨tr, s, status, hdone, hpc, -⟩ := h.parallel
  exact not_done_of_collect_failure (by decide) rfl hdone status hpc

/-! ### From the tests to the reduction -/

/-- The threads that a run does not use keep their static state. -/
theorem unused_run {env : RunEnv} {tr : List Event} {s : ParState} (h : ParRun env tr s) {t : ℕ}
    (ht : env.jobs ≤ t) : s.tests t = .static := by
  refine Trace.Run.invariant (I := fun _ s => s.tests t = .static) rfl ?_ h
  intro tr s e s' _ ih hstep
  obtain ⟨u, f, hu, -, -, rfl⟩ | ⟨-, -, rfl⟩ := step_cases hstep
  · rw [act_tests_other (by omega)]
    exact ih
  · exact ih

/-- A run whose barrier was released twice is cut at the second release. -/
theorem exists_second_release {env : RunEnv} {tr : List Event} {s : ParState}
    (h : ParRun env tr s) (hg : 2 ≤ releases tr) :
    ∃ tr₁ m tr₂, tr = tr₁ ++ .released :: tr₂ ∧ releases tr₁ = 1 ∧ ParRun env tr₁ m ∧
      (∀ t < env.jobs, (m.pc t).isBlocked = true) ∧
      Trace.Run (Step env) (m.passBarrier env) tr₂ s := by
  refine Trace.Run.invariant (I := fun tr s => 2 ≤ releases tr → ∃ tr₁ m tr₂,
    tr = tr₁ ++ .released :: tr₂ ∧ releases tr₁ = 1 ∧ ParRun env tr₁ m ∧
      (∀ t < env.jobs, (m.pc t).isBlocked = true) ∧
      Trace.Run (Step env) (m.passBarrier env) tr₂ s) ?_ ?_ h hg
  · exact fun hg => absurd hg (by simp)
  · intro tr s e s' hrun ih hstep hg
    by_cases hold : 2 ≤ releases tr
    · obtain ⟨tr₁, m, tr₂, rfl, hone, hm, hblocked, hrest⟩ := ih hold
      exact ⟨tr₁, m, tr₂ ++ [e], by simp, hone, hm, hblocked, hrest.snoc hstep⟩
    · obtain ⟨t, f, ht, hmove, rfl, rfl⟩ | ⟨rfl, hblocked, rfl⟩ := step_cases hstep
      · rw [releases_move hmove] at hg
        exact absurd hg hold
      · rw [releases_released] at hg
        exact ⟨tr, s, [], rfl, by omega, hrun, hblocked, .nil⟩

/-- The counters of all threads behind their tests. -/
def testCounters (env : RunEnv) (tr : List Event) : Counters :=
  .ofEvals (∑ t ∈ Finset.range env.jobs, fails (ends t tr))
    ((List.range env.jobs).flatMap fun t => testEvals t tr)

theorem sum_ofEvals (f : ℕ → ℕ) (es : ℕ → List Bool) (n : ℕ) :
    ∑ t ∈ Finset.range n, Counters.ofEvals (f t) (es t) =
      .ofEvals (∑ t ∈ Finset.range n, f t) ((List.range n).flatMap es) := by
  induction n with
  | zero => rfl
  | succ n ih =>
    rw [Finset.sum_range_succ, ih, Counters.ofEvals_add, Finset.sum_range_succ, List.range_succ,
      List.flatMap_append, List.flatMap_singleton]

/-- Where the reduction begins, the logs hold what the tests have evaluated. -/
theorem exists_reduceStart {env : RunEnv} {tr : List Event} {s : ParState} (h : ParRun env tr s)
    (hg : 2 ≤ releases tr) :
    ∃ tr₁ m tr₂, tr = tr₁ ++ .released :: tr₂ ∧ releases tr₁ = 1 ∧ ParRun env tr₁ m ∧
      ReduceStart env (m.passBarrier env) ∧
      sumCounters env (m.passBarrier env) = testCounters env tr₁ ∧
      Trace.Run (Step env) (m.passBarrier env) tr₂ s := by
  obtain ⟨tr₁, m, tr₂, rfl, hone, hm, hblocked, hrest⟩ := exists_second_release h hg
  have hwait : ∀ t < env.jobs, m.pc t = .blocked .tests := by
    intro t ht
    have hphase := (phaseInv_run hm).pcs t ht
    have hb := hblocked t ht
    rw [hone] at hphase
    cases hp : m.pc t with
    | blocked b =>
      rw [hp] at hphase
      cases b with
      | setup ok => exact absurd hphase.1 (by omega)
      | tests => rfl
      | reduce i => exact absurd hphase.1 (by omega)
    | _ =>
      rw [hp] at hb
      exact absurd hb (by simp [Pc.isBlocked])
  refine ⟨tr₁, m, tr₂, rfl, hone, hm, ⟨fun t ht => ?_, fun t ht _ => ?_⟩, ?_, hrest⟩
  · rw [passBarrier_pc ht, hwait t ht]
    rfl
  · show (m.tests t).log.counters = 0
    rw [unused_run hm ht]
    rfl
  · rw [testCounters, ← sum_ofEvals]
    refine Finset.sum_congr rfl fun t ht => ?_
    have ht := Finset.mem_range.mp ht
    have hledger := ledger_run hm t ht
    rw [hwait t ht] at hledger
    exact hledger.1

/-! ### Where assertions are evaluated -/

/-- The auxiliary procedures of a run are those of its environment. -/
theorem auxprocs_run {env : RunEnv} (hjobs : 2 ≤ env.jobs) {tr : List Event} {s : ParState}
    (h : ParRun env tr s) {aux : AuxProcs} (haux : s.sh.plan.auxprocs = some aux) :
    aux = env.auxprocs := by
  rcases plan_run hjobs h with ⟨-, hplan⟩ | ⟨-, hplan⟩
  · rw [hplan] at haux
    exact absurd haux (by simp [ParState.initial])
  · rw [hplan] at haux
    exact finalPlan_auxprocs haux

/-- Until the second release everything is evaluated in tests or in the global
setup. -/
theorem sites_run {env : RunEnv} (hjobs : 2 ≤ env.jobs)
    (hinit : ∀ t < env.jobs, initOk env t = true) {tr : List Event} {s : ParState}
    (h : ParRun env tr s) (hg : releases tr ≤ 1) {t : ℕ} {site : Site} {b : Bool}
    {msg : Option CStr} (hmem : .evaluated t site b msg ∈ tr) :
    site = .test ∨ (site = .globalSetup ∧ ∃ a ∈ env.auxprocs.globalSetup, a.eval = b) := by
  refine Trace.Run.invariant (I := fun tr _ => releases tr ≤ 1 → ∀ t site b msg,
    .evaluated t site b msg ∈ tr →
    site = .test ∨ (site = .globalSetup ∧ ∃ a ∈ env.auxprocs.globalSetup, a.eval = b)) ?_ ?_ h
    hg t site b msg hmem
  · exact fun _ t site b msg hmem => absurd hmem List.not_mem_nil
  · intro tr s e s' hrun ih hstep hg t site b msg hmem
    obtain ⟨u, f, hu, hmove, rfl, rfl⟩ | ⟨rfl, -, -⟩ := step_cases hstep
    · rw [releases_move hmove] at hg
      rcases List.mem_append.mp hmem with hold | hnew
      · exact ih hg t site b msg hold
      · have he := (List.mem_singleton.mp hnew).symm
        cases hmove with
        | setupEval hpc haux ha heval =>
          obtain ⟨rfl, rfl, rfl, rfl⟩ := Event.evaluated.inj he
          rw [auxprocs_run hjobs hrun haux] at ha
          exact .inr ⟨rfl, _, List.mem_of_getElem? ha, rfl⟩
        | testEval hpc hr haux ha heval =>
          obtain ⟨rfl, rfl, rfl, rfl⟩ := Event.evaluated.inj he
          exact .inl rfl
        | teardownEval hpc haux ha heval =>
          have hphase := (phaseInv_run hrun).pcs u hu
          rw [hpc] at hphase
          rcases hphase.1 with ⟨htwo, -⟩ | ⟨-, hfail⟩
          · omega
          · rw [hinit u hu] at hfail
            exact absurd hfail (by simp)
        | _ => exact absurd he (by simp [ParState.goto, ParState.stick])
    · rcases List.mem_append.mp hmem with hold | hnew
      · rw [releases_released] at hg
        exact ih (by omega) t site b msg hold
      · exact absurd (List.mem_singleton.mp hnew) (by simp)

/-- When all outcomes come from tests, the threads together have evaluated them. -/
theorem count_evals {env : RunEnv} (hjobs : 0 < env.jobs) {tr : List Event} {s : ParState}
    (h : ParRun env tr s) (hsite : ∀ t site b msg, .evaluated t site b msg ∈ tr → site = .test)
    (P : Bool → Bool) :
    (evals tr).countP P = ((List.range env.jobs).flatMap fun t => testEvals t tr).countP P := by
  have hflat : ∀ n, ((List.range n).flatMap fun t => testEvals t tr).countP P =
      ∑ t ∈ Finset.range n, (testEvals t tr).countP P := by
    intro n
    induction n with
    | zero => rfl
    | succ n ih =>
      rw [List.range_succ, List.flatMap_append, List.flatMap_singleton, List.countP_append, ih,
        Finset.sum_range_succ]
  rw [hflat, evals, List.countP_filterMap, Trace.countP_eq_sum _ Event.thread (thread_run hjobs h)]
  refine Finset.sum_congr rfl fun t _ => ?_
  rw [List.countP_filterMap]
  refine List.countP_congr fun e he => ?_
  cases e with
  | evaluated u site b msg =>
    obtain rfl := hsite u site b msg he
    by_cases hut : u = t
    · simp [Event.evalOf, Event.testEvalOf, Event.thread, hut]
    · simp [Event.evalOf, Event.testEvalOf, Event.thread, hut]
  | _ => simp [Event.evalOf, Event.testEvalOf]

/-! ### The counters of the summary -/

theorem Move.endOf_late {env : RunEnv} {s : ParState} {g t : ℕ} {f : Effect} (h : Move env s t f)
    (hphase : PhaseOk env g t (s.pc t)) (hg : 2 ≤ g) (u : ℕ) : f.event.endOf u = none := by
  cases h with
  | store hpc hr =>
    rw [hpc] at hphase
    have := hphase.1
    omega
  | _ => rfl

/-- No test ends in the reduction. -/
theorem ends_of_reduceStart {env : RunEnv} (hjobs : 1 ≤ env.jobs) (hmax : env.jobs < maxThreads)
    {s s' : ParState} {tr : List Event} (hs : ReduceStart env s)
    (h : Trace.Run (Step env) s tr s') (t : ℕ) : ends t tr = [] := by
  refine Trace.Run.invariant (I := fun tr _ => ends t tr = []) rfl ?_ h
  intro tr m e m' hrun ih hstep
  obtain ⟨u, f, hu, hmove, rfl, rfl⟩ | ⟨rfl, -, -⟩ := step_cases hstep
  · have hphase := (redInv_run hjobs hmax hs hrun).pcs u hu
    simp [ih, hmove.endOf_late hphase (Nat.le_add_left ..) t]
  · simp [ih, Event.endOf]

/-- What `cldm_test_summary` reads in `testlogs[0]`: what the tests of all threads
and the global teardown have evaluated. -/
theorem summary_counters {env : RunEnv} (hjobs : 2 ≤ env.jobs) (hmax : env.jobs < maxThreads)
    (hinit : ∀ t < env.jobs, initOk env t = true) {tr : List Event} {s : ParState}
    (h : ParRun env tr s) (hpc : s.pc 0 = .summary) :
    ∃ tr₁ m tr₂ failed, tr = tr₁ ++ .released :: tr₂ ∧ releases tr₁ = 1 ∧ ParRun env tr₁ m ∧
      failed ≤ 1 ∧
      (s.tests 0).log.counters = testCounters env tr₁ + .ofEvals failed (evals tr₂) ∧
      ∀ t, ends t tr₂ = [] := by
  have hphase := (phaseInv_run h).pcs 0 (by omega)
  rw [hpc] at hphase
  rcases hphase.1 with ⟨hg, hzero⟩ | ⟨-, hfail⟩
  · obtain ⟨tr₁, m, tr₂, rfl, hone, hm, hstart, hsum, hrest⟩ := exists_reduceStart h hg
    have hrel : releases (tr₁ ++ .released :: tr₂) = releases tr₂ + 2 := by
      rw [releases, List.count_append, List.count_cons_self, show tr₁.count .released = 1 from hone,
        Nat.add_comm]
    have hinv := redInv_run (by omega) hmax hstart hrest
    rw [hrel] at hzero
    obtain ⟨failed, hcounters, hle, -⟩ := hinv.final hzero
    rw [hsum] at hcounters
    exact ⟨tr₁, m, tr₂, failed, rfl, hone, hm, by omega, hcounters,
      fun t => ends_of_reduceStart (by omega) hmax hstart hrest t⟩
  · rw [hinit 0 (by omega)] at hfail
    exact absurd hfail (by simp)

/-- The number of assertions that a summary reports. -/
def Summary.totalAssertions : Summary → UInt64
  | .failed _ count _ _ _ => count
  | .finished count _ => count

/-- The number of failed assertions, where a summary reports it. -/
def Summary.failedAssertions? : Summary → Option UInt64
  | .failed count _ _ _ _ => some count
  | .finished _ _ => none

theorem testSummary_counts {jobs total status : ℕ} {log : ℕ → TestLog} {r : Summary}
    (h : testSummary jobs log total = some (status, r)) :
    r.totalAssertions = (log 0).counters.totalAssertions ∧
      ∀ n, r.failedAssertions? = some n → n = (log 0).counters.failedAssertions := by
  unfold testSummary at h
  dsimp only at h
  split_ifs at h
  · obtain ⟨-, rfl⟩ := Prod.mk.inj (Option.some.inj h)
    exact ⟨rfl, fun n hn => (Option.some.inj hn).symm⟩
  · obtain ⟨-, rfl⟩ := Prod.mk.inj (Option.some.inj h)
    exact ⟨rfl, fun n hn => absurd hn (by simp [Summary.failedAssertions?])⟩

/-- The summary counts every assertion that the run has evaluated, and the log of
no thread is initialised after something was counted there. -/
structure CountsAssertions (env : RunEnv) : Prop where
  kept : ∀ tr s, ParRun env tr s → ∀ t < env.jobs, s.pc t = .init →
    (s.tests t).log.counters = 0
  reported : ∀ tr t r s, ParRun env (tr ++ [.reported t r]) s →
    r.totalAssertions = .ofNat (evals tr).length ∧
    ∀ n, r.failedAssertions? = some n → n = .ofNat ((evals tr).count false)

/-- Before its log is initialised a thread only evaluates the global setup. -/
theorem Move.fresh {env : RunEnv} {s : ParState} {t : ℕ} {f : Effect} (h : Move env s t f)
    (hstage : f.pc.stage = .fresh) : (s.pc t).stage = .fresh ∧ (f.tests = s.tests t ∨
      ∃ aux a, s.sh.plan.auxprocs = some aux ∧ a ∈ aux.globalSetup ∧
        assertTrue (env.realloc t) a (s.tests t) = some f.tests) := by
  cases h with
  | collect hpc | callSetup hpc | setupDone hpc => exact ⟨by rw [hpc]; rfl, .inl rfl⟩
  | setupEval hpc haux ha heval =>
    exact ⟨by rw [hpc]; rfl, .inr ⟨_, _, haux, List.mem_of_getElem? ha, heval⟩⟩
  | @arrive b hpc =>
    refine absurd hstage ?_
    cases b <;> simp [Pc.stage]
  | store hpc hr =>
    refine absurd hstage ?_
    simp only [afterTest]
    split_ifs <;> simp [Pc.stage]
  | readAbort hpc | reduceEnd hpc =>
    refine absurd hstage ?_
    simp only [ParState.goto]
    split_ifs <;> simp [Pc.stage]
  | @printDone c j hpc =>
    refine absurd hstage ?_
    cases c <;> simp [PrintCall.next, Pc.stage]
  | _ => exact absurd hstage (by simp [ParState.goto, ParState.stick, Pc.stage])

theorem releasedPc_not_fresh {env : RunEnv} {t : ℕ} {pc : Pc} (h : pc.isBlocked = true) :
    (releasedPc env t pc).stage ≠ .fresh := by
  cases pc with
  | blocked b =>
    cases b with
    | setup ok =>
      simp only [releasedPc]
      cases ok with
      | true => simp [afterBarrier, Pc.stage]
      | false =>
        simp only [afterBarrier]
        split_ifs <;> simp [Pc.stage]
    | tests | reduce i => simp [releasedPc, afterBarrier, Pc.stage]
  | _ => exact absurd h (by simp [Pc.isBlocked])

/-- What the global setup keeps of a thread's test state holds until its log is
initialised. -/
theorem fresh_run {env : RunEnv} (hjobs : 2 ≤ env.jobs) {I : TestState → Prop} (hstatic : I .static)
    (hsetup : ∀ t, ∀ a ∈ env.auxprocs.globalSetup, ∀ tests tests', I tests →
      assertTrue (env.realloc t) a tests = some tests' → I tests')
    {tr : List Event} {s : ParState} (h : ParRun env tr s) :
    ∀ t < env.jobs, (s.pc t).stage = .fresh → I (s.tests t) := by
  refine Trace.Run.invariant (I := fun _ s =>
    ∀ t < env.jobs, (s.pc t).stage = .fresh → I (s.tests t)) (fun _ _ _ => hstatic) ?_ h
  intro tr s e s' hrun ih hstep u hu hstage
  obtain ⟨t, f, ht, hmove, rfl, rfl⟩ | ⟨rfl, hblocked, rfl⟩ := step_cases hstep
  · by_cases hut : u = t
    · subst hut
      rw [act_pc_self] at hstage
      rw [act_tests_self]
      obtain ⟨hfresh, hsame | ⟨aux, a, haux, ha, heval⟩⟩ := hmove.fresh hstage
      · rw [hsame]
        exact ih u hu hfresh
      · rw [auxprocs_run hjobs hrun haux] at ha
        exact hsetup u a ha _ _ (ih u hu hfresh) heval
    · rw [act_pc_other hut] at hstage
      rw [act_tests_other hut]
      exact ih u hu hstage
  · rw [passBarrier_pc hu] at hstage
    exact absurd hstage (releasedPc_not_fresh (hblocked u hu))

/-- When the global setup evaluates nothing, the summary counts every assertion. -/
theorem parallel_counts_assertions (env : RunEnv) (hjobs : 2 ≤ env.jobs)
    (hmax : env.jobs < maxThreads) (hinit : ∀ t < env.jobs, initOk env t = true)
    (hsetup : env.auxprocs.globalSetup = []) : CountsAssertions env := by
  refine ⟨fun tr s h t ht hpc => ?_, fun tr t r s h => ?_⟩
  · have hstatic : s.tests t = .static := by
      refine fresh_run hjobs (I := fun tests => tests = .static) rfl ?_ h t ht (by rw [hpc]; rfl)
      intro t a ha
      rw [hsetup] at ha
      exact absurd ha List.not_mem_nil
    rw [hstatic]
    rfl
  · obtain ⟨m, hm, hstep⟩ := h.snoc_inv
    obtain ⟨u, f, hu, hmove, he, -⟩ | ⟨he, -, -⟩ := step_cases hstep
    · cases hmove with
      | summary hpc hreport =>
        obtain ⟨rfl, rfl⟩ := Event.reported.inj he
        have hphase := (phaseInv_run hm).pcs t hu
        rw [hpc] at hphase
        obtain ⟨-, rfl⟩ := hphase
        obtain ⟨tr₁, m₁, tr₂, failed, rfl, hone, hm₁, -, hcounters, -⟩ :=
          summary_counters hjobs hmax hinit hm hpc
        obtain ⟨htotal, hfailed⟩ := testSummary_counts hreport
        have hsite : ∀ t site b msg, .evaluated t site b msg ∈ tr₁ → site = .test := by
          intro t site b msg hmem
          rcases sites_run hjobs hinit hm₁ hone.le hmem with htest | ⟨-, a, ha, -⟩
          · exact htest
          · rw [hsetup] at ha
            exact absurd ha List.not_mem_nil
        have hevals : evals (tr₁ ++ .released :: tr₂) = evals tr₁ ++ evals tr₂ := by
          simp [List.filterMap_cons, Event.evalOf]
        have hlength : (evals tr₁).length =
            ((List.range env.jobs).flatMap fun t => testEvals t tr₁).length := by
          have := count_evals (by omega) hm₁ hsite fun _ => true
          simpa only [List.countP_true] using this
        have hcount : (evals tr₁).count false =
            ((List.range env.jobs).flatMap fun t => testEvals t tr₁).count false :=
          count_evals (by omega) hm₁ hsite (· == false)
        refine ⟨?_, fun n hn => ?_⟩
        · rw [htotal, hcounters, testCounters, Counters.ofEvals_add, hevals, List.length_append,
            hlength]
          simp [Counters.ofEvals]
        · rw [hfailed n hn, hcounters, testCounters, Counters.ofEvals_add, hevals,
            List.count_append, hcount]
          simp [Counters.ofEvals, List.count_append]
      | _ => exact absurd he (by simp [ParState.goto, ParState.stick])
    · exact absurd he (by simp)

/-- Two threads; the tests of `handles` are distributed between them. -/
def parallelEnv (setup : Proc) (handles : List Proc) (h : handles.length < 2 ^ 63) : RunEnv :=
  .ofTests 2 false (.global setup []) (handles.map (.plain [116] [102])) (by simpa using h)

theorem parallel_counts_assertions_run :
    CountsAssertions (parallelEnv [] [[.of true], [.of false]] (by decide)) :=
  parallel_counts_assertions (parallelEnv [] [[.of true], [.of false]] (by decide)) (by decide)
    (by decide) (by decide) rfl

/-- Thread 1 initialises its log after the global setup: a true assertion there is
not counted. -/
theorem parallel_setup_not_counted : ¬ CountsAssertions (parallelEnv [.of true] [] (by decide)) := by
  intro h
  have hrun : (Trace.exec (parNext (parallelEnv [.of true] [] (by decide)))
      ([1, 1, 1, 1, 1, 1, 0, 0].map some ++ [none] ++ [0, 0, 0, 0, 1, 1, 1, 1].map some ++ [none] ++
        [0, 0, 0, 0, 1, 1, 1, 1].map some ++ [none] ++ [0, 0, 0, 0, 1, 1].map some ++ [none] ++
        [1, 1, 0, 0, 0, 0, 0].map some) .initial).map (fun r => (r.1.getLast?, evals r.1)) =
      some (some (.reported 0 (.finished 0 0)), [true]) := by
    decide +kernel
  obtain ⟨⟨tr, s⟩, hexec, heq⟩ := Option.map_eq_some_iff.mp hrun
  obtain ⟨hlast, hevals⟩ := Prod.mk.inj heq
  obtain ⟨tr, rfl⟩ := List.getLast?_eq_some_iff.mp hlast
  have hevals' : evals tr = [true] := by
    simpa [Event.evalOf] using hevals
  have htotal := (h.reported tr 0 _ s (parRun_of_exec hexec)).1
  rw [hevals'] at htotal
  exact absurd htotal (by decide)

/-! ### The messages of the summary -/

/-- In the global setup no message is recorded: there is no buffer yet. -/
theorem setup_silent_run {env : RunEnv} (hjobs : 2 ≤ env.jobs) {tr : List Event} {s : ParState}
    (h : ParRun env tr s) {t : ℕ} {b : Bool} {msg : Option CStr}
    (hmem : .evaluated t .globalSetup b msg ∈ tr) : msg = none := by
  refine Trace.Run.invariant (I := fun tr _ => ∀ t b msg,
    .evaluated t .globalSetup b msg ∈ tr → msg = none) ?_ ?_ h t b msg hmem
  · exact fun t b msg hmem => absurd hmem List.not_mem_nil
  · intro tr s e s' hrun ih hstep t b msg hmem
    rcases List.mem_append.mp hmem with hold | hnew
    · exact ih t b msg hold
    · obtain ⟨u, f, hu, hmove, rfl, -⟩ | ⟨rfl, -, -⟩ := step_cases hstep
      · have he := (List.mem_singleton.mp hnew).symm
        cases hmove with
        | setupEval hpc haux ha heval =>
          obtain ⟨-, -, -, rfl⟩ := Event.evaluated.inj he
          have hcap : (s.tests u).log.capacity = 0 := by
            refine fresh_run hjobs (I := fun tests => tests.log.capacity = 0) rfl ?_ hrun u hu
              (by rw [hpc]; rfl)
            exact fun t a _ tests tests' hcap heval => (assertTrue_no_buffer heval hcap).1
          exact (assertTrue_no_buffer heval hcap).2
        | _ => exact absurd he (by simp [ParState.goto, ParState.stick])
      · exact absurd (List.mem_singleton.mp hnew) (by simp)

/-- All messages of a thread are in its log. -/
theorem messages_eq_logged {env : RunEnv} (hjobs : 2 ≤ env.jobs) {tr : List Event} {s : ParState}
    (h : ParRun env tr s) (t : ℕ) : messages t tr = logged t tr := by
  refine List.filterMap_congr fun e he => ?_
  cases e with
  | evaluated u site b msg =>
    cases site with
    | globalSetup =>
      obtain rfl := setup_silent_run hjobs h he
      simp [Event.messageOf, Event.loggedOf]
    | test | globalTeardown => rfl
  | _ => rfl

/-- The master has joined the other threads. -/
def Pc.joined : Pc → Bool
  | .callTeardown | .globalTeardown _ | .summary | .finish _ | .done _ => true
  | _ => false

theorem Move.joined {env : RunEnv} {s : ParState} {t : ℕ} {f : Effect} (h : Move env s t f)
    (hjoined : f.pc.joined = true) : (s.pc t).joined = true ∨ s.othersReturned env = true := by
  cases h with
  | join hpc hothers => exact .inr hothers
  | callTeardown hpc | teardownEval hpc | teardownDone hpc | summary hpc | finish hpc =>
    exact .inl (by rw [hpc]; rfl)
  | collect hpc =>
    refine absurd hjoined ?_
    rcases collectPlan_pc env s.sh.plan with hnext | hnext <;> simp [hnext, Pc.joined]
  | store hpc hr =>
    refine absurd hjoined ?_
    simp only [afterTest]
    split_ifs <;> simp [Pc.joined]
  | readAbort hpc | reduceEnd hpc =>
    refine absurd hjoined ?_
    simp only [ParState.goto]
    split_ifs <;> simp [Pc.joined]
  | @printDone c j hpc =>
    refine absurd hjoined ?_
    cases c <;> simp [PrintCall.next, Pc.joined]
  | _ => exact absurd hjoined (by simp [ParState.goto, ParState.stick, Pc.joined])

theorem Move.not_returned {env : RunEnv} {s : ParState} {t : ℕ} {f : Effect} (h : Move env s t f) :
    s.pc t ≠ .returned := by
  intro hpc
  cases h <;> simp_all [Pc.canStick]

/-- A thread returns after it has freed its log. -/
theorem Move.returned {env : RunEnv} {s : ParState} {t : ℕ} {f : Effect} (h : Move env s t f)
    (hreturned : f.pc = .returned) : f.tests.log.live = false := by
  cases h with
  | free hpc => rfl
  | collect hpc =>
    rcases collectPlan_pc env s.sh.plan with hnext | hnext
    · exact absurd (hnext.symm.trans hreturned) (by simp)
    · exact absurd (hnext.symm.trans hreturned) (by simp)
  | store hpc hr =>
    refine absurd hreturned ?_
    simp only [afterTest]
    split_ifs <;> simp
  | readAbort hpc | reduceEnd hpc =>
    refine absurd hreturned ?_
    simp only [ParState.goto]
    split_ifs <;> simp
  | @printDone c j hpc =>
    refine absurd hreturned ?_
    cases c <;> simp [PrintCall.next]
  | _ => exact absurd hreturned (by simp [ParState.goto, ParState.stick])

/-- When the master is behind `pthread_join`, the others have freed their logs. -/
structure JoinInv (env : RunEnv) (s : ParState) : Prop where
  others : (s.pc 0).joined = true → ∀ t < env.jobs, t ≠ 0 → s.pc t = .returned
  freed : ∀ t < env.jobs, s.pc t = .returned → (s.tests t).log.live = false

theorem joinInv_run {env : RunEnv} (hjobs : 0 < env.jobs)
    (hinit : ∀ t < env.jobs, initOk env t = true) {tr : List Event} {s : ParState}
    (h : ParRun env tr s) : JoinInv env s := by
  refine Trace.Run.invariant (I := fun _ s => JoinInv env s) ?_ ?_ h
  · have hpc : ∀ t, ParState.initial.pc t = if t = 1 then .collect else .init := fun _ => rfl
    refine ⟨fun hj => absurd hj (by simp [hpc, Pc.joined]), fun t _ hr => absurd hr ?_⟩
    rw [hpc]
    split_ifs <;> simp
  · intro tr s e s' hrun ih hstep
    obtain ⟨t, f, ht, hmove, rfl, rfl⟩ | ⟨rfl, hblocked, rfl⟩ := step_cases hstep
    · refine ⟨fun hj u hu hu0 => ?_, fun u hu hr => ?_⟩
      · by_cases h0 : t = 0
        · subst h0
          rw [act_pc_self] at hj
          rw [act_pc_other hu0]
          rcases hmove.joined hj with hold | hall
          · exact ih.others hold u hu hu0
          · have := List.all_eq_true.mp hall u (List.mem_range.mpr hu)
            simpa [hu0] using this
        · rw [act_pc_other (fun heq => h0 heq.symm)] at hj
          exact absurd (ih.others hj t ht h0) hmove.not_returned
      · by_cases hut : u = t
        · subst hut
          rw [act_pc_self] at hr
          rw [act_tests_self]
          exact hmove.returned hr
        · rw [act_pc_other hut] at hr
          rw [act_tests_other hut]
          exact ih.freed u hu hr
    · have hnext : ∀ t < env.jobs, (releasedPc env t (s.pc t)).joined = false ∧
          releasedPc env t (s.pc t) ≠ .returned := by
        intro t ht
        have hb := hblocked t ht
        have hphase := (phaseInv_run hrun).pcs t ht
        cases hp : s.pc t with
        | blocked b =>
          rw [hp] at hphase
          cases b with
          | setup ok =>
            obtain ⟨-, rfl⟩ := hphase
            rw [hinit t ht]
            exact ⟨rfl, by simp [releasedPc, afterBarrier]⟩
          | tests | reduce i => exact ⟨rfl, by simp [releasedPc, afterBarrier]⟩
        | _ =>
          rw [hp] at hb
          exact absurd hb (by simp [Pc.isBlocked])
      refine ⟨fun hj => absurd hj ?_, fun t ht hr => absurd hr ?_⟩
      · rw [passBarrier_pc hjobs, (hnext 0 hjobs).1]
        simp
      · rw [passBarrier_pc ht]
        exact (hnext t ht).2

/-- What the summary of a run should print: all recorded messages, thread by
thread. -/
def MessagesPrinted (env : RunEnv) (tr : List Event) (s : ParState) : Prop :=
  ∃ failed total tests,
    testSummary env.jobs (fun u => (s.tests u).log) s.sh.plan.total =
      some (1, .failed failed total tests s.sh.plan.total
        ((List.range env.jobs).flatMap fun t => (messages t tr).map some))

/-- The logs at the summary: that of thread 0 is allocated, the others are freed. -/
theorem summary_logs {env : RunEnv} (hjobs : 2 ≤ env.jobs)
    (hinit : ∀ t < env.jobs, initOk env t = true) {tr : List Event} {s : ParState}
    (h : ParRun env tr s) (hpc : s.pc 0 = .summary) :
    ∀ t < env.jobs, (s.tests t).log.buffer = messages t tr ∧
      ((s.tests t).log.live = true ↔ t = 0) := by
  have hjoin := joinInv_run (by omega) hinit h
  intro t ht
  have hledger := ledger_run h t ht
  rw [messages_eq_logged hjobs h]
  by_cases h0 : t = 0
  · subst h0
    rw [hpc] at hledger
    exact ⟨hledger.1, fun _ => rfl, fun _ => (hledger.2 (hinit 0 ht)).live⟩
  · have hreturned := hjoin.others (by rw [hpc]; rfl) t ht h0
    rw [hreturned] at hledger
    refine ⟨hledger, fun hlive => ?_, fun heq => absurd heq h0⟩
    exact absurd (hlive.symm.trans (hjoin.freed t ht hreturned)) (by simp)

/-- The lines of a log are its messages exactly when it is allocated or empty. -/
theorem lines_eq_iff (buffer : List CStr) (live : Bool) :
    (buffer.map fun m => if live then some m else none) = buffer.map some ↔
      live = true ∨ buffer = [] := by
  cases live with
  | true => simp
  | false => cases buffer <;> simp

theorem flatMap_range_inj {α : Type} {f g : ℕ → List α} {n : ℕ}
    (hlen : ∀ t, (f t).length = (g t).length) :
    (List.range n).flatMap f = (List.range n).flatMap g ↔ ∀ t < n, f t = g t := by
  constructor
  · induction n with
    | zero => exact fun _ t ht => absurd ht (Nat.not_lt_zero t)
    | succ n ih =>
      intro h t ht
      simp only [List.range_succ, List.flatMap_append, List.flatMap_singleton] at h
      obtain ⟨hinit, hlast⟩ := List.append_inj' h (hlen n)
      by_cases htn : t = n
      · rw [htn, hlast]
      · exact ih hinit t (by omega)
  · intro h
    exact List.flatMap_congr fun t ht => h t (List.mem_range.mp ht)

/-- With fewer than 32 threads a failed test shows in the counters of the summary. -/
theorem failedTests_ne_zero {env : RunEnv} (hjobs : 2 ≤ env.jobs) (hmax : env.jobs < maxThreads)
    (hinit : ∀ t < env.jobs, initOk env t = true) (hfits : FitsUnsigned env) {tr : List Event}
    {s : ParState} (h : ParRun env tr s) (hpc : s.pc 0 = .summary)
    (hfail : ∃ t < env.jobs, ∃ e ∈ ends t tr, e.pass = false) :
    (s.tests 0).log.counters.failedTests ≠ 0 := by
  obtain ⟨tr₁, m, tr₂, failed, rfl, -, -, hle, hcounters, hends⟩ :=
    summary_counters hjobs hmax hinit h hpc
  have hsame : ∀ t, ends t (tr₁ ++ .released :: tr₂) = ends t tr₁ := by
    intro t
    have h2 := hends t
    simp [List.filterMap_cons, Event.endOf, h2]
  -- the number of failed tests fits the counter
  have hbound : ∀ t < env.jobs, fails (ends t tr₁) ≤ 2 ^ 32 := by
    intro t ht
    have htest : (s.pc t).test? = none ∧ s.pc t ≠ .stuck := by
      by_cases h0 : t = 0
      · rw [h0, hpc]
        exact ⟨rfl, by simp⟩
      · rw [(joinInv_run (by omega) hinit h).others (by rw [hpc]; rfl) t ht h0]
        exact ⟨rfl, by simp⟩
    have hresults := ((progress_none htest.1).mp (progress_run hjobs h t ht htest.2)).results
    have hlen := hresults.length_eq
    rw [hsame] at hlen
    have hslice := (inSlice_run hjobs (fun u hu => finalPlan_ntests_lt hjobs hfits hu) h t ht).le
    have hn := finalPlan_ntests_lt hjobs hfits ht
    have hcount := List.countP_le_length (p := fun e => !e.pass) (l := ends t tr₁)
    have hmod : unsignedMod = 2 ^ 32 := rfl
    show (ends t tr₁).countP _ ≤ 2 ^ 32
    omega
  have hsum : ∑ t ∈ Finset.range env.jobs, fails (ends t tr₁) ≤ env.jobs * 2 ^ 32 := by
    have := Finset.sum_le_card_nsmul (Finset.range env.jobs) (fun t => fails (ends t tr₁)) (2 ^ 32)
      fun t ht => hbound t (Finset.mem_range.mp ht)
    simpa using this
  have hpos : 0 < ∑ t ∈ Finset.range env.jobs, fails (ends t tr₁) := by
    obtain ⟨t, ht, e, he, hpass⟩ := hfail
    rw [hsame] at he
    refine Finset.sum_pos' (fun _ _ => Nat.zero_le _) ⟨t, Finset.mem_range.mpr ht, ?_⟩
    exact List.countP_pos_iff.mpr ⟨e, he, by simp [hpass]⟩
  have hthreads : maxThreads = 32 := rfl
  rw [hcounters, testCounters, Counters.ofEvals_add]
  intro hzero
  have hlt : ∑ t ∈ Finset.range env.jobs, fails (ends t tr₁) + failed < 2 ^ 64 := by omega
  have hnat : (UInt64.ofNat (∑ t ∈ Finset.range env.jobs, fails (ends t tr₁) + failed)).toNat =
      ∑ t ∈ Finset.range env.jobs, fails (ends t tr₁) + failed :=
    UInt64.toNat_ofNat_of_lt' hlt
  have hnot : (UInt64.ofNat (∑ t ∈ Finset.range env.jobs, fails (ends t tr₁) + failed)).toNat = 0 :=
    congrArg UInt64.toNat hzero
  omega

/-- In every state in which the master calls `cldm_test_summary`: it prints the
recorded messages exactly when a failed test is counted, the log of thread 0 is not
too long and the logs of the other threads, which are freed already, are empty. -/
theorem parallel_summary_messages (env : RunEnv) (hjobs : 2 ≤ env.jobs)
    (hinit : ∀ t < env.jobs, initOk env t = true) (tr : List Event) (s : ParState)
    (h : ParRun env tr s) (hpc : s.pc 0 = .summary) :
    (MessagesPrinted env tr s ↔
      (s.tests 0).log.counters.failedTests ≠ 0 ∧
      (s.tests 0).log.buffer.length < unsignedMod ∧
      ∀ t < env.jobs, t ≠ 0 → (s.tests t).log.buffer = []) ∧
    (env.jobs < maxThreads → FitsUnsigned env →
      (∃ t < env.jobs, ∃ e ∈ ends t tr, e.pass = false) →
      (s.tests 0).log.counters.failedTests ≠ 0) := by
  refine ⟨?_, fun hmax hfits hfail => failedTests_ne_zero hjobs hmax hinit hfits h hpc hfail⟩
  have hlogs := summary_logs hjobs hinit h hpc
  -- the printed lines are the messages where the log is allocated or empty
  have hlines : (List.range env.jobs).flatMap (fun t => (s.tests t).log.buffer.map fun m =>
        if (s.tests t).log.live then some m else none) =
      (List.range env.jobs).flatMap (fun t => (s.tests t).log.buffer.map some) ↔
      ∀ t < env.jobs, t ≠ 0 → (s.tests t).log.buffer = [] := by
    rw [flatMap_range_inj fun t => by simp]
    refine forall₂_congr fun t ht => ?_
    rw [lines_eq_iff, (hlogs t ht).2]
    exact ⟨fun hor hne => hor.resolve_left hne, fun himp => or_iff_not_imp_left.mpr himp⟩
  have hmessages : (List.range env.jobs).flatMap (fun t => (messages t tr).map some) =
      (List.range env.jobs).flatMap (fun t => (s.tests t).log.buffer.map some) :=
    List.flatMap_congr fun t ht => by rw [(hlogs t (List.mem_range.mp ht)).1]
  rw [MessagesPrinted, hmessages]
  constructor
  · rintro ⟨failed, total, tests, hsummary⟩
    unfold testSummary at hsummary
    dsimp only at hsummary
    split_ifs at hsummary with hne hall
    · refine ⟨hne, ?_, ?_⟩
      · exact of_decide_eq_true (List.all_eq_true.mp hall 0 (List.mem_range.mpr (by omega)))
      · refine hlines.mp ?_
        simp only [Option.some.injEq, Prod.mk.injEq, Summary.failed.injEq, true_and] at hsummary
        exact hsummary.2.2.2
    · simp at hsummary
  · rintro ⟨hne, hlen, hempty⟩
    have hall : ((List.range env.jobs).all fun i =>
        decide ((s.tests i).log.buffer.length < unsignedMod)) = true := by
      refine List.all_eq_true.mpr fun t ht => decide_eq_true ?_
      by_cases h0 : t = 0
      · rw [h0]
        exact hlen
      · rw [hempty t (List.mem_range.mp ht) h0]
        decide
    refine ⟨(s.tests 0).log.counters.failedAssertions, (s.tests 0).log.counters.totalAssertions,
      (s.tests 0).log.counters.failedTests, ?_⟩
    unfold testSummary
    dsimp only
    rw [if_pos hne, if_pos hall, hlines.mpr hempty]

/-- A schedule for two threads with one test and one assertion each, up to the call
of `cldm_test_summary`. -/
def twoTestsSchedule : List (Option ℕ) :=
  [1, 1, 1, 1, 1, 0, 0].map some ++ [none] ++ (List.replicate 11 0).map some ++
    (List.replicate 11 1).map some ++ [none] ++ [0, 0, 0, 0, 1, 1, 1, 1].map some ++ [none] ++
    [0, 0, 0, 0, 1, 1].map some ++ [none] ++ [1, 1, 0, 0, 0, 0].map some

/-- A failure on thread 0 is printed. -/
theorem parallel_summary_messages_run : ∃ tr s,
    ParRun (parallelEnv [] [[.of false], [.of true]] (by decide)) tr s ∧ s.pc 0 = .summary ∧
      MessagesPrinted (parallelEnv [] [[.of false], [.of true]] (by decide)) tr s := by
  have hrun : (Trace.exec (parNext (parallelEnv [] [[.of false], [.of true]] (by decide)))
      twoTestsSchedule .initial).map (fun r => (r.2.pc 0, (r.2.tests 0).log.counters.failedTests,
        (r.2.tests 0).log.buffer, (r.2.tests 1).log.buffer)) =
      some (.summary, 1, [[]], []) := by
    decide +kernel
  obtain ⟨⟨tr, s⟩, hexec, heq⟩ := Option.map_eq_some_iff.mp hrun
  obtain ⟨hpc, heq⟩ := Prod.mk.inj heq
  obtain ⟨hfailed, heq⟩ := Prod.mk.inj heq
  obtain ⟨hfirst, hsecond⟩ := Prod.mk.inj heq
  have h := parRun_of_exec hexec
  refine ⟨tr, s, h, hpc, (parallel_summary_messages _ (by decide) (by decide) tr s h hpc).1.mpr
    ⟨?_, ?_, fun t ht h0 => ?_⟩⟩
  · rw [show (s.tests 0).log.counters.failedTests = 1 from hfailed]
    decide
  · rw [show (s.tests 0).log.buffer = [[]] from hfirst]
    decide
  · obtain rfl : t = 1 := by
      change t < 2 at ht
      omega
    exact hsecond

/-- The message of a failure on thread 1 is read from its freed log. -/
theorem parallel_summary_reads_freed : ∃ tr s,
    ParRun (parallelEnv [] [[.of true], [.of false]] (by decide)) tr s ∧ s.pc 0 = .summary ∧
      (∃ e ∈ ends 1 tr, e.pass = false) ∧
      ¬ MessagesPrinted (parallelEnv [] [[.of true], [.of false]] (by decide)) tr s := by
  have hrun : (Trace.exec (parNext (parallelEnv [] [[.of true], [.of false]] (by decide)))
      twoTestsSchedule .initial).map (fun r =>
        (r.2.pc 0, (ends 1 r.1).map BufferedTest.pass, messages 0 r.1, messages 1 r.1)) =
      some (.summary, [false], [], [[]]) := by
    decide +kernel
  have hprint : (Trace.exec (parNext (parallelEnv [] [[.of true], [.of false]] (by decide)))
      twoTestsSchedule .initial).map (fun r =>
        testSummary 2 (fun u => (r.2.tests u).log) r.2.sh.plan.total) =
      some (some (1, .failed 1 2 1 2 [none])) := by
    decide +kernel
  obtain ⟨⟨tr, s⟩, hexec, heq⟩ := Option.map_eq_some_iff.mp hrun
  obtain ⟨hpc, heq⟩ := Prod.mk.inj heq
  obtain ⟨hends, heq⟩ := Prod.mk.inj heq
  obtain ⟨hfirst, hsecond⟩ := Prod.mk.inj heq
  rw [hexec] at hprint
  have hsummary := Option.some.inj hprint
  refine ⟨tr, s, parRun_of_exec hexec, hpc, ?_, ?_⟩
  · have hmem : false ∈ (ends 1 tr).map BufferedTest.pass := by
      rw [show (ends 1 tr).map BufferedTest.pass = [false] from hends]
      exact List.mem_singleton_self _
    obtain ⟨e, he, hpass⟩ := List.mem_map.mp hmem
    exact ⟨e, he, hpass⟩
  · rintro ⟨failed, total, tests, hprinted⟩
    have hlines := Option.some.inj (hsummary.symm.trans hprinted)
    simp only [Prod.mk.injEq, Summary.failed.injEq, true_and] at hlines
    have hnone := hlines.2.2.2.2
    change [none] = (List.range 2).flatMap fun t => (messages t tr).map some at hnone
    have h0 : messages 0 tr = [] := hfirst
    have h1 : messages 1 tr = [[]] := hsecond
    have hrange : List.range 2 = [0, 1] := rfl
    rw [hrange, List.flatMap_cons, List.flatMap_cons, h0, h1] at hnone
    exact absurd hnone (by simp)

end Cldm
