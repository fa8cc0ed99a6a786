/-
The exit status of a parallel run.

`cldm_test_summary` looks at the counter of failed tests in `testlogs[0]`, into
which the reduction has added those of all threads.  That counter is raised when
an assertion fails while the current test still passes, so what the global teardown
does to it depends on the last test of thread 0.  `LastPass` follows the flag of
the current test through the tests of a thread, and `TornDown` the flag and the
counter through the teardown.

`RunsOn` of the tests needs that fail-fast is off and that no message is lost;
`KeepsOn` needs neither, as long as no test fails.

* `lastPass_run`, `keepsOn_run`, `tornDown_run` — what every run preserves;
* `testsPass_iff` — when no failed test is counted;
* `parallel_status_agrees` — every parallel run that ends has the status of the
  sequential run of the same tests.
-/
import Cldm.ParallelLive

namespace Cldm

/-! ### The flag of the last test -/

/-- Whether there is a last result and it has passed. -/
def lastPass (es : List BufferedTest) : Bool :=
  match es.getLast? with
  | some e => e.pass
  | none => false

theorem lastPass_snoc (es : List BufferedTest) (e : BufferedTest) :
    lastPass (es ++ [e]) = e.pass := by
  rw [lastPass, List.getLast?_concat]

/-- How much of the global teardown has been evaluated, from `pthread_join` on:
`none` when all has. -/
def Pc.teardown? : Pc → Option (Option ℕ)
  | .join | .callTeardown => some (some 0)
  | .globalTeardown k => some (some k)
  | .summary | .finish _ | .done _ => some none
  | _ => none

/-- The thread is between two tests, or before or behind them. -/
def Pc.resting (pc : Pc) : Prop := pc.test? = none ∧ pc.teardown? = none ∧ pc ≠ .stuck

/-- Outside the tests and the teardown the flag of a thread is that of its last
test; it is false before the first one. -/
def LastPass (t : ℕ) (pc : Pc) (tests : TestState) (tr : List Event) : Prop :=
  pc.resting → tests.current.pass = lastPass (ends t tr)

theorem ends_snoc (t : ℕ) (tr : List Event) (e : Event) :
    ends t (tr ++ [e]) = ends t tr ++ (e.endOf t).toList := by
  rw [ends, List.filterMap_append, filterMap_singleton]

theorem LastPass.idle {t : ℕ} {pc pc' : Pc} {tests tests' : TestState} {tr : List Event}
    {e : Event} (h : LastPass t pc tests tr) (he : e.endOf t = none)
    (hcur : tests'.current.pass = tests.current.pass) (hpc : pc'.resting → pc.resting) :
    LastPass t pc' tests' (tr ++ [e]) := by
  intro hrest
  rw [hcur, ends_snoc, he, Option.toList_none, List.append_nil]
  exact h (hpc hrest)

theorem LastPass.move {env : RunEnv} {s : ParState} {t : ℕ} {f : Effect} {tr : List Event}
    (hledger : Ledger env t (s.pc t) (s.tests t) tr) (h : LastPass t (s.pc t) (s.tests t) tr)
    (hmove : Move env s t f) : LastPass t f.pc f.tests (tr ++ [f.event]) := by
  have hrest : ∀ {pc}, s.pc t = pc → pc.test? = none → pc.teardown? = none → pc ≠ .stuck →
      (s.pc t).resting := by
    rintro _ rfl h1 h2 h3
    exact ⟨h1, h2, h3⟩
  cases hmove with
  | setupEval hpc _ _ heval =>
    -- no test has been run yet, so the flag is false and stays so
    intro _
    have hold := h (hrest hpc rfl rfl (by simp))
    rw [hpc] at hledger
    have hends : ends t tr = [] := hledger.1
    rw [hends] at hold
    rw [(assertTrue_evaluates heval).pass, hold, ends_snoc, hends]
    rfl
  | store hpc _ =>
    intro _
    rw [ends_snoc, Event.endOf, if_pos rfl, Option.toList_some, lastPass_snoc]
    rfl
  | testEval _ _ _ _ _ | loopStart _ _ _ | testDone _ _ _ _ | scheduleFull _ _
  | scheduleRoom _ _ => exact fun hr => absurd hr.1 (by simp [Pc.test?, ParState.goto])
  | callTeardown _ _ | teardownEval _ _ _ _ | teardownDone _ | summary _ _ | finish _
  | join _ _ => exact fun hr => absurd hr.2.1 (by simp [Pc.teardown?, ParState.goto])
  | stuck _ => exact fun hr => absurd rfl hr.2.2
  | collect hpc | callSetup hpc _ | setupDone hpc | arrive hpc | loopEnd hpc _
  | setAbort hpc | readAbort hpc | reduceEnd hpc | reduceLoad hpc _ _ | reduceSkip hpc _ _
  | load hpc | add hpc | free hpc =>
    exact h.idle rfl rfl fun _ => hrest hpc rfl rfl (by simp)
  | init hpc =>
    refine h.idle rfl ?_ fun _ => hrest hpc rfl rfl (by simp)
    unfold testInit
    split <;> rfl
  | @lockIo call hpc _ | @printNext call j hpc _ | @log call j e hpc _ =>
    refine h.idle rfl rfl fun hr => ?_
    cases call with
    | schedule i => exact absurd hr.1 (by simp [Pc.test?])
    | flush => exact hrest hpc rfl rfl (by simp)
  | @printDone call j hpc _ =>
    cases call with
    | schedule i => exact fun hr => absurd hr.1 (by simp [PrintCall.next, Pc.test?])
    | flush => exact h.idle rfl rfl fun _ => hrest hpc rfl rfl (by simp)

/-- No test that has ended has failed. -/
def NoFailure (env : RunEnv) (tr : List Event) : Prop :=
  ∀ t < env.jobs, ∀ e ∈ ends t tr, e.pass = true

theorem NoFailure.of_snoc {env : RunEnv} {tr : List Event} {e : Event}
    (h : NoFailure env (tr ++ [e])) : NoFailure env tr := by
  intro t ht e' he'
  refine h t ht e' ?_
  rw [ends_snoc]
  exact List.mem_append_left _ he'

/-- A test with a fatal error has failed. -/
theorem assertTrue_fatal_fails {realloc : ℕ → Bool} {a : Assertion} {tests tests' : TestState}
    (h : assertTrue realloc a tests = some tests')
    (hold : tests.current.fatalError = true → tests.current.pass = false)
    (hfatal : tests'.current.fatalError = true) : tests'.current.pass = false := by
  rw [(assertTrue_evaluates h).pass]
  rcases assertTrue_fatal h hfatal with hf | ⟨hfalse, -⟩
  · rw [hold hf, Bool.false_and]
  · rw [hfalse, Bool.and_false]

/-- As long as no test fails a thread leaves its loop at the end of its slice. -/
structure KeepsOn (env : RunEnv) (t : ℕ) (pc : Pc) (tests : TestState) (tr : List Event) :
    Prop where
  fatal : pc.test?.isSome = true → tests.current.fatalError = true → tests.current.pass = false
  complete : pc.pastLoop = true → (starts t tr).length = (finalPlan env).ntests t
  abort : pc ≠ .setAbort

theorem KeepsOn.idle {env : RunEnv} {t : ℕ} {pc pc' : Pc} {tests tests' : TestState}
    {tr : List Event} {e : Event} (h : KeepsOn env t pc tests tr) (he : e.startOf t = none)
    (hfatal : pc'.test?.isSome = true → pc.test?.isSome = true ∧ tests'.current = tests.current)
    (hpast : pc'.pastLoop = true → pc.pastLoop = true) (habort : pc' ≠ .setAbort) :
    KeepsOn env t pc' tests' (tr ++ [e]) := by
  refine ⟨fun ht => ?_, fun hp => ?_, habort⟩
  · obtain ⟨hsome, hcur⟩ := hfatal ht
    rw [hcur]
    exact h.fatal hsome
  · rw [← h.complete (hpast hp)]
    simp [he]

theorem KeepsOn.move {env : RunEnv} {s : ParState} {g t : ℕ} {f : Effect} {tr : List Event}
    (hphase : PhaseOk env g t (s.pc t)) (hplan : 1 ≤ g → s.sh.plan = finalPlan env)
    (hslice : InSlice env t (s.pc t) tr) (hquiet : s.sh.earlyAbort = false)
    (hpass : ∀ e, f.event.endOf t = some e → e.pass = true)
    (h : KeepsOn env t (s.pc t) (s.tests t) tr) (hmove : Move env s t f) :
    KeepsOn env t f.pc f.tests (tr ++ [f.event]) := by
  cases hmove with
  | loopStart hpc hi hr =>
    refine ⟨fun _ hf => ?_, fun hp => absurd hp (by simp [Pc.pastLoop]), by simp⟩
    exact absurd hf (by simp [testBegin])
  | testEval hpc hr haux ha heval =>
    rw [hpc] at h
    refine ⟨fun _ hf => ?_, fun hp => absurd hp (by simp [Pc.pastLoop]), by simp⟩
    exact assertTrue_fatal_fails heval (h.fatal rfl) hf
  | @loopEnd i hpc hi =>
    rw [hpc] at hphase hslice
    refine ⟨fun ht => absurd ht (by simp [ParState.goto, Pc.test?]), fun _ => ?_,
      by simp [ParState.goto]⟩
    rw [hplan hphase.1.ge] at hi
    have hm := hslice.position i rfl
    have hle := hslice.le
    have hlen : (starts t (tr ++ [(s.goto t (.lockIo .flush)).event])).length =
        (starts t tr).length := by
      simp [ParState.goto, Event.startOf]
    rw [hlen]
    omega
  | @store i r hpc hr =>
    rw [hpc] at h
    -- the test has passed, so there was no fatal error and the thread goes on
    have hcur : (s.tests t).current.pass = true := hpass _ (if_pos rfl)
    have hfatal : (s.tests t).current.fatalError = false := by
      rw [← Bool.not_eq_true]
      intro hf
      exact absurd (hcur.symm.trans (h.fatal rfl hf)) (by simp)
    have hverdict : testVerdict env.failFast (testStore r.file (s.tests t)) = true := by
      simp [testVerdict, testStore, hcur, hfatal]
    simp only [afterTest, hverdict, if_true]
    split_ifs
    · exact h.idle rfl (fun ht => absurd ht (by simp [Pc.test?]))
        (fun hp => absurd hp (by simp [Pc.pastLoop])) (by simp)
    · exact h.idle rfl (fun ht => absurd ht (by simp [Pc.test?]))
        (fun hp => absurd hp (by simp [Pc.pastLoop])) (by simp)
  | readAbort hpc =>
    rw [hpc] at h
    simp only [ParState.goto, hquiet, Bool.false_eq_true, if_false]
    exact h.idle rfl (fun ht => absurd ht (by simp [Pc.test?]))
      (fun hp => absurd hp (by simp [Pc.pastLoop])) (by simp)
  | setAbort hpc => exact absurd hpc h.abort
  | collect hpc =>
    have hnext := collectPlan_pc env s.sh.plan
    refine h.idle rfl (fun ht => absurd ht ?_) (fun hp => absurd hp ?_) ?_
    · rcases hnext with hnext | hnext <;> simp [hnext, Pc.test?]
    · rcases hnext with hnext | hnext <;> simp [hnext, Pc.pastLoop]
    · rcases hnext with hnext | hnext <;> simp [hnext]
  | callSetup hpc haux | setupEval hpc haux ha heval | setupDone hpc | init hpc
  | stuck hpc =>
    exact h.idle rfl (fun ht => absurd ht (by simp [Pc.test?, ParState.goto, ParState.stick]))
      (fun hp => absurd hp (by simp [Pc.pastLoop, ParState.goto, ParState.stick]))
      (by simp [ParState.goto, ParState.stick])
  | @arrive b hpc =>
    rw [hpc] at h
    refine h.idle rfl (fun ht => absurd ht (by simp [Pc.test?])) (fun hp => ?_) (by simp)
    cases b <;> exact hp
  | testDone hpc hr haux hk | scheduleFull hpc hfull | scheduleRoom hpc hroom =>
    rw [hpc] at h
    exact h.idle rfl (fun _ => ⟨rfl, rfl⟩)
      (fun hp => absurd hp (by simp [Pc.pastLoop, ParState.goto])) (by simp [ParState.goto])
  | @lockIo call hpc _ | @printNext call j hpc _ | @log call j e hpc _ =>
    rw [hpc] at h
    cases call <;> exact h.idle rfl (fun ht => ⟨ht, rfl⟩) (fun hp => hp) (by simp)
  | @printDone call j hpc hj =>
    rw [hpc] at h
    cases call <;> exact h.idle rfl (fun ht => ⟨ht, rfl⟩) (fun hp => hp) (by simp [PrintCall.next])
  | reduceEnd hpc =>
    rw [hpc] at h
    refine h.idle rfl (fun ht => absurd ht ?_) (fun _ => rfl) ?_
    · simp only [ParState.goto]
      split_ifs <;> simp [Pc.test?]
    · simp only [ParState.goto]
      split_ifs <;> simp
  | reduceLoad hpc hi ht | reduceSkip hpc hi ht | load hpc | add hpc | free hpc
  | join hpc hothers | callTeardown hpc haux | teardownEval hpc haux ha heval | teardownDone hpc
  | summary hpc hreport | finish hpc =>
    rw [hpc] at h
    exact h.idle rfl (fun ht => absurd ht (by simp [Pc.test?, ParState.goto])) (fun _ => rfl)
      (by simp [ParState.goto])

/-- Only a thread that has run into a failure sets `early_abort`. -/
theorem Move.quiet {env : RunEnv} {s : ParState} {t : ℕ} {f : Effect} (h : Move env s t f)
    (hpc : s.pc t ≠ .setAbort) : f.sh.earlyAbort = s.sh.earlyAbort := by
  cases h with
  | setAbort h => exact absurd h hpc
  | _ => rfl

/-- What a flag adds to a counter. -/
def flagCount (b : Bool) : UInt64 := if b then 1 else 0

/-- The failed tests of all threads. -/
def failedTotal (env : RunEnv) (tr : List Event) : ℕ :=
  ∑ t ∈ Finset.range env.jobs, fails (ends t tr)

/-- In the teardown the flag of thread 0 falls with the first false assertion, and
then its counter is raised. -/
structure TornDown (env : RunEnv) (tr : List Event) (tests : TestState) (k? : Option ℕ) :
    Prop where
  pass : tests.current.pass =
    (lastPass (ends 0 tr) && allPass (soFar k? env.auxprocs.globalTeardown))
  failed : tests.log.counters.failedTests + flagCount tests.current.pass =
    .ofNat (failedTotal env tr) + flagCount (lastPass (ends 0 tr))

theorem TornDown.frame {env : RunEnv} {tr : List Event} {tests tests' : TestState}
    {k? : Option ℕ} {e : Event} (h : TornDown env tr tests k?) (he : ∀ t, e.endOf t = none)
    (hcur : tests'.current = tests.current)
    (hcount : tests'.log.counters = tests.log.counters) :
    TornDown env (tr ++ [e]) tests' k? := by
  have hends : ∀ t, ends t (tr ++ [e]) = ends t tr := by
    intro t
    rw [ends_snoc, he, Option.toList_none, List.append_nil]
  have htotal : failedTotal env (tr ++ [e]) = failedTotal env tr :=
    Finset.sum_congr rfl fun t _ => by rw [hends]
  refine ⟨?_, ?_⟩
  · rw [hcur, hends]
    exact h.pass
  · rw [hcur, hcount, hends, htotal]
    exact h.failed

/-- One more assertion of the teardown. -/
theorem TornDown.eval {env : RunEnv} {tr : List Event} {tests tests' : TestState} {k : ℕ}
    {a : Assertion} {realloc : ℕ → Bool} {e : Event} (h : TornDown env tr tests (some k))
    (ha : env.auxprocs.globalTeardown[k]? = some a)
    (heval : assertTrue realloc a tests = some tests') (he : ∀ t, e.endOf t = none) :
    TornDown env (tr ++ [e]) tests' (some (k + 1)) := by
  obtain ⟨hcounters, hpass, -, -⟩ := assertTrue_evaluates heval
  have hframe := h.frame he rfl rfl
  have htake : soFar (some (k + 1)) env.auxprocs.globalTeardown =
      soFar (some k) env.auxprocs.globalTeardown ++ [a] := by
    simp only [soFar, List.take_add_one, ha, Option.toList_some]
  refine ⟨?_, ?_⟩
  · rw [hpass, hframe.pass, htake, Bool.and_assoc]
    simp
  · rw [← hframe.failed, hpass, hcounters]
    -- the counter is raised where the flag falls
    cases tests.current.pass <;> cases a.eval <;>
      simp [Counters.ofEvals, flagCount]

/-- The teardown is over when all its assertions have been evaluated. -/
theorem teardown_length {env : RunEnv} {s : ParState} {t k : ℕ} {f : Effect} {aux : AuxProcs}
    (hstep : threadStep env s t = some f) (hpc : s.pc t = .globalTeardown k)
    (haux : s.sh.plan.auxprocs = some aux) (hf : f.pc = .summary) :
    aux.globalTeardown.length ≤ k := by
  simp only [threadStep, hpc, haux, Option.some.injEq] at hstep
  rcases procStep_cases env s t .globalTeardown aux.globalTeardown k (.globalTeardown (k + 1))
    .summary with ⟨a, tests, -, -, heq⟩ | ⟨hk, -⟩ | heq
  · rw [← hstep, heq] at hf
    exact absurd hf (by simp)
  · exact hk
  · rw [← hstep, heq] at hf
    exact absurd hf (by simp [ParState.stick])

/-- A step of thread 0 keeps what is known of the teardown. -/
theorem TornDown.move {env : RunEnv} {s : ParState} {tr : List Event} {f : Effect} {k? : Option ℕ}
    (haux : ∀ aux, s.sh.plan.auxprocs = some aux → aux = env.auxprocs)
    (hreduced : s.pc 0 = .reduce 0 → TornDown env tr (s.tests 0) (some 0))
    (h : ∀ k?, (s.pc 0).teardown? = some k? → TornDown env tr (s.tests 0) k?)
    (hstep : threadStep env s 0 = some f) (hpc' : f.pc.teardown? = some k?) :
    TornDown env (tr ++ [f.event]) f.tests k? := by
  have hback : ∀ {pc k?}, s.pc 0 = pc → pc.teardown? = some k? →
      TornDown env tr (s.tests 0) k? := by
    rintro _ k? rfl hk
    exact h k? hk
  cases threadStep_move hstep with
  | reduceEnd hpc =>
    obtain rfl : some 0 = k? := Option.some.inj hpc'
    exact (hreduced hpc).frame (fun _ => rfl) rfl rfl
  | join hpc _ | callTeardown hpc _ =>
    obtain rfl := Option.some.inj hpc'
    exact (hback hpc rfl).frame (fun _ => rfl) rfl rfl
  | teardownEval hpc hsome ha heval =>
    obtain rfl := Option.some.inj hpc'
    rw [haux _ hsome] at ha
    exact (hback hpc rfl).eval ha heval fun _ => rfl
  | @teardownDone k hpc =>
    obtain rfl := Option.some.inj hpc'
    have hold := (hback hpc rfl).frame (e := .quiet 0) (fun _ => rfl) rfl rfl
    cases hsome : s.sh.plan.auxprocs with
    | none =>
      simp only [threadStep, hpc, hsome, Option.some.injEq] at hstep
      exact absurd (congrArg Effect.pc hstep) (by simp [ParState.goto, ParState.stick])
    | some aux =>
      have hk := teardown_length hstep hpc hsome rfl
      rw [haux _ hsome] at hk
      have hall : soFar (some k) env.auxprocs.globalTeardown =
          soFar none env.auxprocs.globalTeardown := List.take_of_length_le hk
      exact ⟨hall ▸ hold.pass, hold.failed⟩
  | summary hpc _ | finish hpc =>
    obtain rfl := Option.some.inj hpc'
    exact (hback hpc rfl).frame (fun _ => rfl) rfl rfl
  | collect _ =>
    rcases collectPlan_pc env s.sh.plan with hnext | hnext <;>
      exact absurd hpc' (by simp [hnext, Pc.teardown?])
  | store _ _ =>
    refine absurd hpc' ?_
    simp only [afterTest]
    split_ifs <;> simp [Pc.teardown?]
  | readAbort _ =>
    refine absurd hpc' ?_
    simp only [ParState.goto]
    split_ifs <;> simp [Pc.teardown?]
  | @printDone call _ _ _ =>
    exact absurd hpc' (by cases call <;> simp [PrintCall.next, Pc.teardown?])
  | _ => exact absurd hpc' (by simp [ParState.goto, ParState.stick, Pc.teardown?])

theorem ResultsOf.of_result {aux : AuxProcs} {records : ℕ → Option TestRec} {ran : List ℕ}
    {results : List BufferedTest} (h : ResultsOf aux records ran results) {e : BufferedTest}
    (he : e ∈ results) : ∃ idx r, records idx = some r ∧ e = resultOf aux idx r := by
  induction h with
  | nil => exact absurd he List.not_mem_nil
  | cons hhead _ ih =>
    rcases List.mem_cons.mp he with rfl | htail
    · obtain ⟨r, hr, heq⟩ := hhead
      exact ⟨_, r, hr, heq⟩
    · exact ih htail

section

variable {env : RunEnv} {rs : List TestRec} {tr : List Event} {s : ParState}

/-- When the master is behind `pthread_join` every thread has run its tests. -/
theorem joined_tests (hsucc : Succeeds env rs) (h : ParRun env tr s)
    (hjoined : (s.pc 0).joined = true) {t : ℕ} (ht : t < env.jobs) :
    (s.pc t).pastLoop = true ∧
      ResultsOf env.auxprocs (finalPlan env).records (starts t tr) (ends t tr) := by
  have hjobs := hsucc.jobs
  have hpc : (s.pc t).pastLoop = true ∧ (s.pc t).test? = none := by
    by_cases ht0 : t = 0
    · subst ht0
      cases hp : s.pc 0 with
      | callTeardown | globalTeardown _ | summary | finish _ | done _ => exact ⟨rfl, rfl⟩
      | _ =>
        rw [hp] at hjoined
        exact absurd hjoined (by simp [Pc.joined])
    · rw [(joinInv_run (by omega) hsucc.init h).others hjoined t ht ht0]
      exact ⟨rfl, rfl⟩
  have hnot := notStuck_run hsucc h ht
  exact ⟨hpc.1, ((progress_none hpc.2).mp (progress_run hjobs h t ht hnot)).results⟩

theorem procWork_failWork (p : Proc) : procWork failWork p = (outcomes p).count false := by
  induction p with
  | nil => rfl
  | cons a p ih =>
    have hcons : procWork failWork (a :: p) = failWork a.eval + procWork failWork p := rfl
    have hevals : outcomes (a :: p) = a.eval :: outcomes p := rfl
    rw [hcons, ih, hevals, List.count_cons]
    cases a.eval <;> simp [failWork, Nat.add_comm]

/-- A sequential run evaluates no assertion that is not one of the tests. -/
theorem testsEvaluated_failures {env' : RunEnv} (haux : env'.auxprocs = env.auxprocs) (idx : ℕ)
    (hrecords : ∀ i, (finalPlan env).records (idx + i) = rs[i]?) :
    (outcomes (testsEvaluated env' idx rs)).count false ≤
      ∑ i ∈ Finset.range rs.length, procWork failWork (recordProc env (idx + i)) := by
  induction rs generalizing idx with
  | nil => exact Nat.zero_le _
  | cons r rs ih =>
    have hhead : recordProc env (idx + 0) = testProc env'.auxprocs idx r := by
      rw [haux]
      exact recordProc_eq (hrecords 0)
    have htail : ∀ i, (finalPlan env).records (idx + 1 + i) = rs[i]? := by
      intro i
      rw [Nat.add_assoc, Nat.add_comm 1, hrecords]
      rfl
    have hrest := ih (idx + 1) htail
    have hshift : ∑ i ∈ Finset.range rs.length, procWork failWork (recordProc env (idx + 1 + i)) =
        ∑ i ∈ Finset.range rs.length, procWork failWork (recordProc env (idx + (i + 1))) :=
      Finset.sum_congr rfl fun i _ => by rw [Nat.add_assoc, Nat.add_comm 1]
    rw [hshift] at hrest
    rw [List.length_cons, Finset.sum_range_succ', hhead, procWork_failWork, testsEvaluated]
    simp only [outcomes, List.map_append, List.count_append] at hrest ⊢
    split_ifs
    · simp only [List.map_nil, List.count_nil]
      omega
    · omega

/-- The sequential run of the same tests returns, with the same condition. -/
theorem sequential_status (hsucc : Succeeds env rs) (hre : ∀ n, env.realloc 0 n = true) :
    ∃ status tr', sequentialRun { env with jobs := 1 } = some (status, tr') ∧ status ≤ 1 ∧
      (status = 0 ↔
        TestsPass env rs ∧ (rs = [] ∨ allPass env.auxprocs.globalTeardown = true)) := by
  have hjobs := hsucc.jobs
  obtain ⟨hlen, hcollected⟩ := hsucc.collected
  have hmalloc : env.logMalloc 0 = true :=
    (Bool.and_eq_true_iff.mp (hsucc.init 0 (by omega))).1
  obtain ⟨failed, tr', hle, hzero, -, hrun⟩ :=
    @seqRunTests_eq { env with jobs := 1 } rs hmalloc hre
  have hseq : sequentialRun { env with jobs := 1 } = seqRunTests { env with jobs := 1 } rs := by
    rw [sequentialRun, if_neg (by simp), hcollected]
  -- the messages of its log are among those of all tests
  have hfew : (outcomes (evaluatedBy { env with jobs := 1 } rs)).count false < unsignedMod := by
    have hsetup := procWork_failWork env.auxprocs.globalSetup
    rw [procWork_allPass hsucc.setup] at hsetup
    have htests := @testsEvaluated_failures env rs { env with jobs := 1 } rfl 0 fun i => by
      rw [Nat.zero_add, hsucc.records]
    simp only [Nat.zero_add] at htests
    have hmessages := hsucc.messages
    rw [failures, procWork_failWork] at hmessages
    simp only [evaluatedBy, outcomes, List.map_append, List.count_append]
      at htests hmessages hsetup ⊢
    omega
  rw [hseq, hrun]
  by_cases hf : UInt64.ofNat failed = 0
  · have hfailed : failed = 0 := by
      have hnat := congrArg UInt64.toNat hf
      have hmod : unsignedMod = 2 ^ 32 := rfl
      have hfits := hsucc.fits
      rw [UInt64.toNat_ofNat_of_lt' (show failed < 2 ^ 64 by omega), UInt64.toNat_zero] at hnat
      exact hnat
    exact ⟨0, tr', if_pos hf, Nat.zero_le _, fun _ => hzero.mp hfailed, fun _ => rfl⟩
  · refine ⟨1, tr', by rw [if_neg hf, if_pos hfew], le_rfl, fun h => absurd h (by simp), ?_⟩
    intro hpass
    exact absurd (congrArg UInt64.ofNat (hzero.mpr hpass)) hf

end

end Cldm
