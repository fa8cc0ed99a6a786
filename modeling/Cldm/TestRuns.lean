/-
Sequences of `cldm_test_run` calls on one thread.

A thread touches only its own log, its current test and its buffer of results, so one
`TestState` is all that its calls see.  A store outside the log is a fault, and a run
without one stays below the capacity of the log at every store.

* `Logged` — what the log holds after the messages of the failed assertions so far;
* `Logged.evalAll`, `Logged.testRun`, `Logged.testRuns` — one procedure, one call, all
  calls;
* `test_runs_logged` — the log and the results that are scheduled for printing, in the
  middle of any sequence of calls;
* `seqTestRun_tests` — the calls of the sequential driver are these.
-/
import Cldm.Sequential

namespace Cldm

/-- A call of `cldm_test_run`; `idx` tells the calls of the local procedures apart. -/
structure TestCall where
  record : TestRec
  auxprocs : AuxProcs
  idx : ℕ
  failFast : Bool

/-- The assertions that a call evaluates. -/
def TestCall.proc (c : TestCall) : Proc := testProc c.auxprocs c.idx c.record

/-- Evaluate the assertions of a procedure. -/
def evalAll (realloc : ℕ → Bool) : Proc → TestState → Option TestState
  | [], s => some s
  | a :: p, s => (assertTrue realloc a s).bind (evalAll realloc p)

attribute [grind =] evalAll

/-- `cldm_test_schedule_print`: what it prints of a full buffer, and the state after it. -/
def schedulePrint (file : CStr) (s : TestState) : List BufferedTest × TestState :=
  if testbufferSize ≤ s.buffered.length then (s.buffered, testStore file { s with buffered := [] })
  else ([], testStore file s)

/-- `cldm_test_run`: its answer, what it prints, and the state after it. -/
def testRun (realloc : ℕ → Bool) (c : TestCall) (s : TestState) :
    Option ((Bool × List BufferedTest) × TestState) := do
  let s ← evalAll realloc c.proc (testBegin c.record s)
  let (printed, s) := schedulePrint c.record.file s
  return ((testVerdict c.failFast s, printed), s)

/-- A sequence of calls: what they print, and the state after them. -/
def testRuns (realloc : ℕ → Bool) : List TestCall → TestState →
    Option (List BufferedTest × TestState)
  | [], s => some ([], s)
  | c :: cs, s => do
    let ((_, printed), s) ← testRun realloc c s
    let (printed', s) ← testRuns realloc cs s
    return (printed ++ printed', s)

attribute [grind =] testRuns

/-- The messages of the assertions that fail, as the log keeps them. -/
def failureMessages (name : Option CStr) (p : Proc) : List CStr :=
  (p.filter fun a => !a.eval).map fun a => (a.msg name).take (assertionSize - 1)

/-- The messages of the assertions that fail in a call. -/
def TestCall.messages (c : TestCall) : List CStr := failureMessages (some c.record.name) c.proc

/-- The result of a call: its test has passed if none of its assertions is false. -/
def TestCall.result (c : TestCall) : BufferedTest := resultOf c.auxprocs c.idx c.record

/-- The log has room, and holds the messages of the failed assertions, which it has counted, as
it has the tests that have failed. -/
structure Logged (messages : List CStr) (failed : ℕ) (s : TestState) : Prop where
  room : LogOk s.log
  buffer : s.log.buffer = messages
  failedAssertions : s.log.counters.failedAssertions = .ofNat messages.length
  failedTests : s.log.counters.failedTests = .ofNat failed

variable {realloc : ℕ → Bool} {s s' : TestState} {messages : List CStr} {failed : ℕ} {a : Assertion}
  {p : Proc} {c : TestCall}

theorem failureMessages_cons (name : Option CStr) (a : Assertion) (p : Proc) :
    failureMessages name (a :: p) = failureMessages name [a] ++ failureMessages name p := by
  cases h : a.eval <;> simp [failureMessages, h]

/-- When the allocator answers every request, a false assertion leaves its message. -/
theorem assertTrue_messages (hre : ∀ n, realloc n = true) (h : assertTrue realloc a s = some s') :
    s'.log.buffer = s.log.buffer ++ failureMessages s.current.name [a] := by
  unfold assertTrue at h
  cases heval : a.eval with
  | true =>
    simp only [heval, if_true, Option.some.injEq] at h
    subst h
    simp [failureMessages, heval]
  | false =>
    simp only [heval, Bool.false_eq_true, if_false] at h
    rcases hr : testEnsureCapacity realloc (countFailedAssertion s.countAssertion) with ⟨ok, r⟩
    obtain ⟨-, hbuf, hcur, -⟩ := testEnsureCapacity_frame hr
    obtain ⟨hbuf', -, -, hname, -, -⟩ := countFailedAssertion_frame s.countAssertion
    obtain ⟨hok, -⟩ | ⟨-, -, rfl⟩ := recordFailedAssertion_cases h hr
    · unfold testEnsureCapacity at hr
      split at hr
      · exact absurd ((Prod.mk.inj hr).1.trans hok) (by decide)
      · rw [if_pos (hre _)] at hr
        exact absurd ((Prod.mk.inj hr).1.trans hok) (by decide)
    · rw [store_buffer, hbuf, hbuf', hcur, hname]
      simp [failureMessages, heval]
      rfl

/-- The test fails with its first false assertion. -/
theorem Logged.assertTrue (hre : ∀ n, realloc n = true) (h : Logged messages failed s) :
    ∃ s', Cldm.assertTrue realloc a s = some s' ∧
      Logged (messages ++ failureMessages s.current.name [a])
        (failed + if s.current.pass && !a.eval then 1 else 0) s' ∧
      s'.current.pass = (s.current.pass && a.eval) ∧ s'.current.name = s.current.name := by
  obtain ⟨s', hs', hlog⟩ : ∃ s', Cldm.assertTrue realloc a s = some s' ∧ LogOk s'.log :=
    h.room.assertTrue
  have heffect := assertTrue_evaluates hs'
  have hmsgs := assertTrue_messages hre hs'
  refine ⟨s', hs', ⟨hlog, by rw [hmsgs, h.buffer], ?_, ?_⟩, heffect.pass, heffect.name⟩
  · rw [heffect.counters, Counters.add_failedAssertions, h.failedAssertions, List.length_append,
      UInt64.ofNat_add]
    congr 1
    cases heval : a.eval <;> simp [Counters.ofEvals, failureMessages, heval]
  · rw [heffect.counters, Counters.add_failedTests, h.failedTests, UInt64.ofNat_add]
    rfl

/-- The effect of a procedure on the log. -/
theorem Logged.evalAll (hre : ∀ n, realloc n = true) (h : Logged messages failed s) (p : Proc) :
    ∃ s', Cldm.evalAll realloc p s = some s' ∧
      Logged (messages ++ failureMessages s.current.name p)
        (failed + if s.current.pass && !allPass p then 1 else 0) s' ∧
      s'.current.pass = (s.current.pass && allPass p) ∧ s'.current.name = s.current.name ∧
      s'.buffered = s.buffered := by
  induction p generalizing s messages failed with
  | nil =>
    refine ⟨s, rfl, ?_, by simp, rfl, rfl⟩
    simpa [failureMessages] using h
  | cons a p ih =>
    obtain ⟨s₁, hs₁, hlogged, hpass, hname⟩ := h.assertTrue hre (a := a)
    have hbuffered := (assertTrue_evaluates hs₁).buffered
    obtain ⟨s₂, hs₂, hlogged', hpass', hname', hbuffered'⟩ := ih hlogged
    have hall : allPass (a :: p) = (a.eval && allPass p) := rfl
    refine ⟨s₂, ?_, ?_, ?_, hname'.trans hname, hbuffered'.trans hbuffered⟩
    · rw [Cldm.evalAll, hs₁, Option.bind_some, hs₂]
    · rw [hname, List.append_assoc, ← failureMessages_cons, hpass, Nat.add_assoc] at hlogged'
      -- the test fails at most once
      have hcount : (if s.current.pass && !a.eval then 1 else 0) +
          (if (s.current.pass && a.eval) && !allPass p then 1 else 0) =
            if s.current.pass && !allPass (a :: p) then 1 else 0 := by
        rw [hall]
        cases s.current.pass <;> cases a.eval <;> cases allPass p <;> rfl
      rw [hcount] at hlogged'
      exact hlogged'
    · rw [hpass', hpass, hall, Bool.and_assoc]

/-- Nothing that is scheduled gets lost: it is printed, or it waits in the buffer. -/
theorem schedulePrint_spec (file : CStr) (s : TestState) :
    (schedulePrint file s).1 ++ (schedulePrint file s).2.buffered =
        s.buffered ++ [s.result file] ∧
      (schedulePrint file s).2.buffered.getLast? = some (s.result file) ∧
      (schedulePrint file s).2.log = s.log := by
  rw [schedulePrint]
  split_ifs with hfull
  · exact ⟨rfl, rfl, rfl⟩
  · exact ⟨rfl, List.getLast?_concat, rfl⟩

/-- The effect of a call: it schedules its result. -/
theorem Logged.testRun (hre : ∀ n, realloc n = true) (h : Logged messages failed s)
    (c : TestCall) :
    ∃ go printed s', Cldm.testRun realloc c s = some ((go, printed), s') ∧
      Logged (messages ++ c.messages) (failed + if allPass c.proc then 0 else 1) s' ∧
      printed ++ s'.buffered = s.buffered ++ [c.result] ∧
      s'.buffered.getLast? = some c.result := by
  have hbegin : Logged messages failed (testBegin c.record s) :=
    ⟨h.room, h.buffer, h.failedAssertions, h.failedTests⟩
  obtain ⟨s₁, hs₁, hlogged, hpass, hname, hbuffered⟩ := hbegin.evalAll hre c.proc
  obtain ⟨hkept, hlast, hlog⟩ := schedulePrint_spec c.record.file s₁
  have hresult : s₁.result c.record.file = c.result := by
    rw [TestState.result, hname, hpass]
    rfl
  rw [hresult] at hkept hlast
  refine ⟨_, _, (schedulePrint c.record.file s₁).2, by simp only [Cldm.testRun, hs₁]; rfl, ?_, ?_,
    hlast⟩
  · have hcount : (if (testBegin c.record s).current.pass && !allPass c.proc then 1 else 0) =
        if allPass c.proc then 0 else 1 := by
      show (if true && !allPass c.proc then 1 else 0) = _
      cases allPass c.proc <;> rfl
    rw [hcount] at hlogged
    obtain ⟨hroom, hbuffer, hassertions, htests⟩ := hlogged
    rw [← hlog] at hroom hbuffer hassertions htests
    exact ⟨hroom, hbuffer, hassertions, htests⟩
  · rw [hkept, hbuffered]
    rfl

/-- The effect of a sequence of calls: it schedules their results, the last one last. -/
theorem Logged.testRuns (hre : ∀ n, realloc n = true) (h : Logged messages failed s)
    (calls : List TestCall) :
    ∃ printed s', Cldm.testRuns realloc calls s = some (printed, s') ∧
      Logged (messages ++ calls.flatMap TestCall.messages)
        (failed + calls.countP fun c => !allPass c.proc) s' ∧
      printed ++ s'.buffered = s.buffered ++ calls.map TestCall.result ∧
      s'.buffered.getLast? = (calls.map TestCall.result).getLast?.or s.buffered.getLast? := by
  induction calls generalizing s messages failed with
  | nil =>
    refine ⟨[], s, rfl, ?_, by simp, by simp⟩
    simpa using h
  | cons c cs ih =>
    obtain ⟨go, printed, s₁, hs₁, hlogged, hkept, hlast⟩ := h.testRun hre c
    obtain ⟨printed', s₂, hs₂, hlogged', hkept', hlast'⟩ := ih hlogged
    refine ⟨printed ++ printed', s₂, ?_, ?_, ?_, ?_⟩
    · simp only [Cldm.testRuns, hs₁, Option.bind_eq_bind, Option.bind_some, hs₂]
      rfl
    · have hcount : (if allPass c.proc then 0 else 1) + cs.countP (fun c => !allPass c.proc) =
          (c :: cs).countP fun c => !allPass c.proc := by
        rw [List.countP_cons]
        cases allPass c.proc
        · simp
          omega
        · simp
      rw [List.append_assoc, Nat.add_assoc, hcount] at hlogged'
      rwa [List.flatMap_cons]
    · rw [List.append_assoc, hkept', ← List.append_assoc, hkept, List.append_assoc,
        List.singleton_append, List.map_cons]
    · rw [hlast', hlast, List.map_cons, ← List.singleton_append, List.getLast?_append]
      rcases hcs : (cs.map TestCall.result).getLast? with _ | result
      · rfl
      · rfl

/-- A new log. -/
theorem logged_testInit {t : ℕ} {malloc mutexInit : Bool}
    (h : (testInit t malloc mutexInit s).1 = true) :
    Logged [] 0 (testInit t malloc mutexInit s).2 := by
  refine ⟨testInit_logOk h, ?_, ?_, ?_⟩
  · cases malloc <;> rfl
  · cases malloc <;> rfl
  · cases malloc <;> rfl

/-- In the middle of any sequence of calls on any thread, after the assertions `p` of a further
test, the log holds the messages of the failed assertions in order and has counted them and the
failed tests.  What was printed and what the buffer still holds are the results of the calls in
order, in which exactly the failed tests are reported as such; the last is that of the last call. -/
theorem test_runs_logged {t : ℕ} {malloc mutexInit : Bool}
    (hinit : (testInit t malloc mutexInit s).1 = true) (hre : ∀ n, realloc n = true)
    (calls : List TestCall) (r : TestRec) (p : Proc) :
    ∃ printed s₁ s₂, testRuns realloc calls (testInit t malloc mutexInit s).2 =
        some (printed, s₁) ∧
      evalAll realloc p (testBegin r s₁) = some s₂ ∧
      Logged (calls.flatMap TestCall.messages ++ failureMessages (some r.name) p)
        ((calls.countP fun c => !allPass c.proc) + if allPass p then 0 else 1) s₂ ∧
      s₂.buffered = s₁.buffered ∧
      printed ++ s₁.buffered = calls.map TestCall.result ∧
      s₁.buffered.getLast? = (calls.map TestCall.result).getLast? ∧
      (printed ++ s₁.buffered).map BufferedTest.pass = calls.map fun c => allPass c.proc := by
  have hempty : (testInit t malloc mutexInit s).2.buffered = [] := by
    cases malloc with
    | true => rfl
    | false => exact absurd hinit (by simp [testInit])
  obtain ⟨printed, s₁, hs₁, hlogged, hkept, hlast⟩ := (logged_testInit hinit).testRuns hre calls
  rw [hempty] at hkept hlast
  have hbegin : Logged (calls.flatMap TestCall.messages)
      (calls.countP fun c => !allPass c.proc) (testBegin r s₁) := by
    rw [List.nil_append, Nat.zero_add] at hlogged
    exact ⟨hlogged.room, hlogged.buffer, hlogged.failedAssertions, hlogged.failedTests⟩
  obtain ⟨s₂, hs₂, hlogged₂, -, -, hbuffered⟩ := hbegin.evalAll hre p
  have hcount : (if (testBegin r s₁).current.pass && !allPass p then 1 else 0) =
      if allPass p then 0 else 1 := by
    show (if true && !allPass p then 1 else 0) = _
    cases allPass p <;> rfl
  rw [hcount] at hlogged₂
  have hpasses : (calls.map TestCall.result).map BufferedTest.pass =
      calls.map fun c => allPass c.proc := by
    rw [List.map_map]
    rfl
  refine ⟨printed, s₁, s₂, hs₁, hs₂, hlogged₂, hbuffered, hkept, ?_, ?_⟩
  · rw [hlast, List.getLast?_nil, Option.or_none]
  · rw [hkept, List.nil_append, hpasses]

/-- A test with one assertion. -/
def callOf (eval : Bool) : TestCall where
  record := ⟨[116], [], none, [⟨eval, fun _ => [102]⟩], none⟩
  auxprocs := ⟨fun _ => [], [], fun _ => [], []⟩
  idx := 0
  failFast := false

theorem test_runs_logged_twice : ∃ printed s₁ s₂,
    testRuns (fun _ => true) [callOf false, callOf true] (testInit 1 true true .static).2 =
      some (printed, s₁) ∧
    evalAll (fun _ => true) (callOf false).proc (testBegin (callOf false).record s₁) = some s₂ ∧
    Logged [[102], [102]] 2 s₂ ∧ s₂.buffered = s₁.buffered ∧
    printed ++ s₁.buffered = [⟨some [116], [], false⟩, ⟨some [116], [], true⟩] ∧
    s₁.buffered.getLast? = some ⟨some [116], [], true⟩ ∧
    (printed ++ s₁.buffered).map BufferedTest.pass = [false, true] :=
  test_runs_logged (t := 1) (s := .static) rfl (fun _ => rfl) [callOf false, callOf true]
    (callOf false).record (callOf false).proc

/-! ### The sequential driver -/

theorem evalProc_tests (realloc : ℕ → Bool) (site : Site) (p : Proc) (s : SeqState) :
    (evalProc realloc site p s).map SeqState.tests = evalAll realloc p s.tests := by
  induction p generalizing s with
  | nil => rfl
  | cons a p ih =>
    rw [evalProc, evalAll]
    rcases assertTrue realloc a s.tests with _ | tests
    · rfl
    · exact ih _

theorem seqSchedulePrint_tests (file : CStr) (s : SeqState) :
    (seqSchedulePrint file s).tests = (schedulePrint file s.tests).2 := by
  have hprint : (seqPrint s).tests = s.tests := (seqPrintEntry_foldl s.tests.buffered s).1
  rw [seqSchedulePrint, schedulePrint]
  by_cases hfull : testbufferSize ≤ s.tests.buffered.length
  · simp only [if_pos hfull, hprint]
  · simp only [if_neg hfull]

/-- The sequential driver calls `cldm_test_run` on thread 0. -/
theorem seqTestRun_tests (env : RunEnv) (idx : ℕ) (r : TestRec) (s : SeqState) :
    (seqTestRun env idx r s).map (fun x => (x.1, x.2.tests)) =
      (testRun (env.realloc 0) ⟨r, env.auxprocs, idx, env.failFast⟩ s.tests).map
        fun x => (x.1.1, x.2) := by
  have heval := evalProc_tests (env.realloc 0) .test (testProc env.auxprocs idx r)
    { s with tests := testBegin r s.tests, trace := s.trace ++ [.started 0 idx] }
  rw [seqTestRun, testRun]
  rcases hrun : evalProc (env.realloc 0) .test (testProc env.auxprocs idx r)
    { s with tests := testBegin r s.tests, trace := s.trace ++ [.started 0 idx] } with _ | s₁
  · rw [hrun, Option.map_none] at heval
    simp only [TestCall.proc, ← heval, Option.bind_eq_bind, Option.bind_none, Option.map_none]
  · rw [hrun, Option.map_some] at heval
    simp only [TestCall.proc, ← heval, Option.bind_eq_bind, Option.bind_some, Option.pure_def,
      Option.map_some, seqSchedulePrint_tests]

end Cldm
