/-
The test state that every thread keeps in `cldm_test.c`: its log
(`testlogs[t]`), the statistics of its current test (`current_tests[t]`) and
its buffer of results to print (`buffered_tests[t]`), with the functions that
only touch these.

A setup, test or teardown procedure is seen through the assertions it
evaluates: `Proc` lists them, and `assertTrue` is what the framework does for
each.  All assertion macros of the source end in the same
`record_failed_assertion`; they only differ in the format of the message.

* `assertTrue_evaluates` — what one assertion changes, in one structure;
* `LogOk.assertTrue` — with a log that has room the store stays inside it;
* `assertTrue_buffer`, `assertTrue_records` — the messages of the log.

The layout of the printed lines (`io_verbose`, the paddings) is left out.
-/
import Mathlib.Data.List.DropRight
import Mathlib.Data.UInt
import Mathlib.Tactic.Common

namespace Cldm

/-- A C string: its bytes without the terminator. -/
abbrev CStr := List UInt8

/-- `CLDM_MAX_THREADS`. -/
abbrev maxThreads : ℕ := 32

/-- `CLDM_TESTBUFFER_SIZE`. -/
abbrev testbufferSize : ℕ := 16

/-- `CLDM_LOG_INITIAL_CAP`. -/
abbrev logInitialCap : ℕ := 32

/-- `CLDM_ASSERTION_SIZE`. -/
abbrev assertionSize : ℕ := 1024

/-- The number of values of an `unsigned`. -/
abbrev unsignedMod : ℕ := 2 ^ 32

/-- `cldm_basename`: what follows the last slash. -/
def basename (path : CStr) : CStr := path.rtakeWhile (· != 47)

/-- An assertion that is evaluated: its outcome, and its message for the name
of the current test (a null pointer outside the tests). -/
structure Assertion where
  eval : Bool
  msg : Option CStr → CStr

/-- The assertions that a procedure evaluates, in order. -/
abbrev Proc := List Assertion

/-- `struct cldm_testrec`. -/
structure TestRec where
  name : CStr
  file : CStr
  setup : Option Proc
  handle : Proc
  teardown : Option Proc

/-- `struct cldm_auxprocs`.  What a call of a local procedure evaluates may
depend on the test it is called for. -/
structure AuxProcs where
  localSetup : ℕ → Proc
  globalSetup : Proc
  localTeardown : ℕ → Proc
  globalTeardown : Proc

/-- The assertions that `cldm_test_run` evaluates for the record `r`, the
`idx`-th of the run. -/
def testProc (aux : AuxProcs) (idx : ℕ) (r : TestRec) : Proc :=
  aux.localSetup idx ++ r.setup.getD [] ++ r.handle ++ r.teardown.getD [] ++ aux.localTeardown idx

/-- The outcomes of a procedure. -/
abbrev outcomes (p : Proc) : List Bool := p.map Assertion.eval

/-- No assertion of the procedure is false. -/
abbrev allPass (p : Proc) : Bool := p.all Assertion.eval

/-- The counters of `struct cldm_testlog`. -/
structure Counters where
  failedAssertions : UInt64
  failedTests : UInt64
  totalAssertions : UInt64
  deriving DecidableEq

attribute [ext] Counters

namespace Counters

instance : Zero Counters := ⟨⟨0, 0, 0⟩⟩

instance : Add Counters :=
  ⟨fun c d => ⟨c.failedAssertions + d.failedAssertions, c.failedTests + d.failedTests,
    c.totalAssertions + d.totalAssertions⟩⟩

@[simp] theorem zero_failedAssertions : (0 : Counters).failedAssertions = 0 := rfl
@[simp] theorem zero_failedTests : (0 : Counters).failedTests = 0 := rfl
@[simp] theorem zero_totalAssertions : (0 : Counters).totalAssertions = 0 := rfl

@[simp] theorem add_failedAssertions (c d : Counters) :
    (c + d).failedAssertions = c.failedAssertions + d.failedAssertions := rfl
@[simp] theorem add_failedTests (c d : Counters) :
    (c + d).failedTests = c.failedTests + d.failedTests := rfl
@[simp] theorem add_totalAssertions (c d : Counters) :
    (c + d).totalAssertions = c.totalAssertions + d.totalAssertions := rfl

/-- The counters after `failedTests` failing tests and the outcomes `evals`. -/
def ofEvals (failedTests : ℕ) (evals : List Bool) : Counters :=
  ⟨.ofNat (evals.count false), .ofNat failedTests, .ofNat evals.length⟩

@[simp] theorem ofEvals_nil : ofEvals 0 [] = 0 := rfl

theorem ofEvals_add (f g : ℕ) (es es' : List Bool) :
    ofEvals f es + ofEvals g es' = ofEvals (f + g) (es ++ es') := by
  simp [ofEvals, Counters.ext_iff, List.count_append]

end Counters

/-- `struct cldm_testlog`: the messages `buffer[0], .., buffer[size - 1]`,
whether `buffer` points to allocated memory, and the room there. -/
structure TestLog where
  buffer : List CStr
  live : Bool
  capacity : ℕ
  counters : Counters
  deriving DecidableEq

/-- `struct cldm_teststats`. -/
structure TestStats where
  name : Option CStr
  pass : Bool
  fatalError : Bool
  deriving DecidableEq

/-- An entry of `struct cldm_testbuffer`. -/
structure BufferedTest where
  name : Option CStr
  file : CStr
  pass : Bool
  deriving DecidableEq

/-- The test state of a thread.  `requests` counts its calls of `realloc`, so
that an allocator can answer each of them differently. -/
structure TestState where
  log : TestLog
  current : TestStats
  buffered : List BufferedTest
  requests : ℕ
  deriving DecidableEq

/-- The static initialisation. -/
def TestState.static : TestState where
  log := ⟨[], false, 0, 0⟩
  current := ⟨none, false, false⟩
  buffered := []
  requests := 0

/-- `cldm_test_init`: the answer, and the state after it.  `malloc` and
`mutexInit` tell whether the allocation and the initialisation of the mutex
succeed. -/
def testInit (t : ℕ) (malloc mutexInit : Bool) (s : TestState) : Bool × TestState :=
  let s := { s with log := ⟨[], malloc, logInitialCap, 0⟩ }
  if malloc then
    (t != 0 || mutexInit, { s with buffered := [] })
  else
    (false, s)

/-- `cldm_test_ensure_capacity`; `realloc` answers the thread's requests. -/
def testEnsureCapacity (realloc : ℕ → Bool) (s : TestState) : Bool × TestState :=
  if s.log.buffer.length + 1 < s.log.capacity then
    (true, s)
  else if realloc s.requests then
    (true, { s with
      log.capacity := 2 * s.log.capacity, log.live := true, requests := s.requests + 1 })
  else
    (false, { s with requests := s.requests + 1 })

/-- `++total_assertions`. -/
def TestState.countAssertion (s : TestState) : TestState :=
  { s with log.counters.totalAssertions := s.log.counters.totalAssertions + 1 }

/-- The part of `record_failed_assertion` that counts. -/
def countFailedAssertion (s : TestState) : TestState :=
  let s := if s.current.pass then
      { s with
        log.counters.failedTests := s.log.counters.failedTests + 1, current.pass := false }
    else s
  { s with log.counters.failedAssertions := s.log.counters.failedAssertions + 1 }

/-- The current test gets a fatal error. -/
def TestState.setFatal (s : TestState) : TestState := { s with current.fatalError := true }

/-- A message is stored behind those of the log. -/
def TestState.store (m : CStr) (s : TestState) : TestState :=
  { s with log.buffer := s.log.buffer ++ [m] }

/-- `record_failed_assertion`; `none` is a store outside the buffer. -/
def recordFailedAssertion (realloc : ℕ → Bool) (msg : Option CStr → CStr) (s : TestState) :
    Option TestState :=
  let (ok, s) := testEnsureCapacity realloc (countFailedAssertion s)
  if !ok then
    some s.setFatal
  else if s.log.live ∧ s.log.buffer.length < s.log.capacity then
    some (s.store ((msg s.current.name).take (assertionSize - 1)))
  else
    none

/-- `cldm_assert_true`, and with it every other assertion of the framework. -/
def assertTrue (realloc : ℕ → Bool) (a : Assertion) (s : TestState) : Option TestState :=
  let s := s.countAssertion
  if a.eval then some s else recordFailedAssertion realloc a.msg s

/-- The message that an assertion has added to the log. -/
def recordedMsg (s s' : TestState) : Option CStr :=
  if s'.log.buffer.length = s.log.buffer.length then none else s'.log.buffer.getLast?

/-- The beginning of `cldm_test_run`. -/
def testBegin (r : TestRec) (s : TestState) : TestState :=
  { s with current := ⟨some r.name, true, false⟩ }

/-- The entry that `cldm_test_schedule_print` stores. -/
def TestState.result (s : TestState) (file : CStr) : BufferedTest :=
  ⟨s.current.name, basename file, s.current.pass⟩

/-- The end of `cldm_test_schedule_print`, where the buffer has room. -/
def testStore (file : CStr) (s : TestState) : TestState :=
  { s with buffered := s.buffered ++ [s.result file] }

/-- The answer of `cldm_test_run`. -/
def testVerdict (failFast : Bool) (s : TestState) : Bool :=
  !s.current.fatalError && (!failFast || s.current.pass)

/-- `cldm_test_free`. -/
def testFree (s : TestState) : TestState := { s with log.live := false }

/-- What `cldm_test_summary` reports.  A line is `none` where it is read from a
buffer that is not allocated any more. -/
inductive Summary
  | failed (failedAssertions totalAssertions failedTests : UInt64) (total : ℕ)
      (lines : List (Option CStr))
  | finished (totalAssertions : UInt64) (total : ℕ)
  deriving DecidableEq

/-- `cldm_test_summary`: its answer and its report, for the logs of the threads
and the number of collected tests.  Its inner loop counts with an `unsigned`, so
it does not return for a log of `2 ^ 32` messages. -/
def testSummary (jobs : ℕ) (log : ℕ → TestLog) (total : ℕ) : Option (ℕ × Summary) :=
  let c := (log 0).counters
  if c.failedTests ≠ 0 then
    if (List.range jobs).all fun i => (log i).buffer.length < unsignedMod then
      some (1, .failed c.failedAssertions c.totalAssertions c.failedTests total
        ((List.range jobs).flatMap fun i =>
          (log i).buffer.map fun m => if (log i).live then some m else none))
    else
      none
  else
    some (0, .finished c.totalAssertions total)

/-! ### What an assertion changes -/

section

variable (m : CStr) (s : TestState)

@[simp] theorem setFatal_log : s.setFatal.log = s.log := rfl
@[simp] theorem setFatal_pass : s.setFatal.current.pass = s.current.pass := rfl
@[simp] theorem setFatal_name : s.setFatal.current.name = s.current.name := rfl
@[simp] theorem setFatal_fatalError : s.setFatal.current.fatalError = true := rfl
@[simp] theorem setFatal_buffered : s.setFatal.buffered = s.buffered := rfl

@[simp] theorem store_buffer : (s.store m).log.buffer = s.log.buffer ++ [m] := rfl
@[simp] theorem store_counters : (s.store m).log.counters = s.log.counters := rfl
@[simp] theorem store_live : (s.store m).log.live = s.log.live := rfl
@[simp] theorem store_capacity : (s.store m).log.capacity = s.log.capacity := rfl
@[simp] theorem store_current : (s.store m).current = s.current := rfl
@[simp] theorem store_buffered : (s.store m).buffered = s.buffered := rfl

end

/-- The effect of evaluating the assertion `a` apart from the log buffer. -/
structure Evaluates (a : Assertion) (s s' : TestState) : Prop where
  counters : s'.log.counters = s.log.counters +
    .ofEvals (if s.current.pass && !a.eval then 1 else 0) [a.eval]
  pass : s'.current.pass = (s.current.pass && a.eval)
  name : s'.current.name = s.current.name
  buffered : s'.buffered = s.buffered

theorem testEnsureCapacity_frame {realloc : ℕ → Bool} {s r : TestState} {ok : Bool}
    (h : testEnsureCapacity realloc s = (ok, r)) :
    r.log.counters = s.log.counters ∧ r.log.buffer = s.log.buffer ∧ r.current = s.current ∧
      r.buffered = s.buffered := by
  unfold testEnsureCapacity at h
  split at h
  · obtain rfl := (Prod.mk.inj h).2
    exact ⟨rfl, rfl, rfl, rfl⟩
  · split at h
    · obtain rfl := (Prod.mk.inj h).2
      exact ⟨rfl, rfl, rfl, rfl⟩
    · obtain rfl := (Prod.mk.inj h).2
      exact ⟨rfl, rfl, rfl, rfl⟩

/-- The two ways in which `record_failed_assertion` returns. -/
theorem recordFailedAssertion_cases {realloc : ℕ → Bool} {msg : Option CStr → CStr}
    {s s' r : TestState} {ok : Bool} (h : recordFailedAssertion realloc msg s = some s')
    (hr : testEnsureCapacity realloc (countFailedAssertion s) = (ok, r)) :
    (ok = false ∧ s' = r.setFatal) ∨
    (ok = true ∧ (r.log.live ∧ r.log.buffer.length < r.log.capacity) ∧
      s' = r.store ((msg r.current.name).take (assertionSize - 1))) := by
  rw [recordFailedAssertion, hr] at h
  cases ok with
  | false => exact .inl ⟨rfl, (Option.some.inj h).symm⟩
  | true =>
    dsimp only at h
    by_cases hroom : r.log.live ∧ r.log.buffer.length < r.log.capacity
    · rw [if_neg (by decide), if_pos hroom] at h
      exact .inr ⟨rfl, hroom, (Option.some.inj h).symm⟩
    · rw [if_neg (by decide), if_neg hroom] at h
      exact absurd h (by simp)

theorem countAssertion_evaluates {a : Assertion} (h : a.eval = true) (s : TestState) :
    Evaluates a s s.countAssertion := by
  refine ⟨?_, ?_, rfl, rfl⟩
  · simp [TestState.countAssertion, Counters.ext_iff, Counters.ofEvals, h]
  · simp [TestState.countAssertion, h]

theorem countFailedAssertion_evaluates {a : Assertion} (h : a.eval = false) (s : TestState) :
    Evaluates a s (countFailedAssertion s.countAssertion) := by
  cases hpass : s.current.pass with
  | false =>
    constructor <;>
      simp [countFailedAssertion, TestState.countAssertion, Counters.ext_iff, Counters.ofEvals, h,
        hpass]
  | true =>
    constructor <;>
      simp [countFailedAssertion, TestState.countAssertion, Counters.ext_iff, Counters.ofEvals, h,
        hpass]

theorem assertTrue_evaluates {realloc : ℕ → Bool} {a : Assertion} {s s' : TestState}
    (h : assertTrue realloc a s = some s') : Evaluates a s s' := by
  unfold assertTrue at h
  cases heval : a.eval with
  | true =>
    simp only [heval, if_true, Option.some.injEq] at h
    subst h
    exact countAssertion_evaluates heval s
  | false =>
    simp only [heval, Bool.false_eq_true, if_false] at h
    obtain ⟨hcounters, hpass, hname, hbuffered⟩ := countFailedAssertion_evaluates heval s
    rcases hr : testEnsureCapacity realloc (countFailedAssertion s.countAssertion) with ⟨ok, r⟩
    obtain ⟨hc, -, hcur, hbuf⟩ := testEnsureCapacity_frame hr
    have heffect : Evaluates a s r :=
      ⟨hc.trans hcounters, by rw [hcur, hpass], by rw [hcur, hname], hbuf.trans hbuffered⟩
    obtain ⟨-, rfl⟩ | ⟨-, -, rfl⟩ := recordFailedAssertion_cases h hr
    · exact ⟨heffect.counters, heffect.pass, heffect.name, heffect.buffered⟩
    · exact ⟨heffect.counters, heffect.pass, heffect.name, heffect.buffered⟩

/-! ### The log buffer -/

/-- A log whose buffer is allocated and has room for one more message. -/
structure LogOk (l : TestLog) : Prop where
  live : l.live = true
  room : l.buffer.length < l.capacity

theorem testInit_logOk {t : ℕ} {malloc mutexInit : Bool} {s : TestState}
    (h : (testInit t malloc mutexInit s).1 = true) :
    LogOk (testInit t malloc mutexInit s).2.log := by
  cases malloc with
  | true => exact ⟨rfl, by simp [testInit]⟩
  | false => exact absurd h (by simp [testInit])

@[simp] theorem countAssertion_buffer (s : TestState) :
    s.countAssertion.log.buffer = s.log.buffer := rfl

theorem countFailedAssertion_frame (s : TestState) :
    (countFailedAssertion s).log.buffer = s.log.buffer ∧
    (countFailedAssertion s).log.live = s.log.live ∧
    (countFailedAssertion s).log.capacity = s.log.capacity ∧
    (countFailedAssertion s).current.name = s.current.name ∧
    (countFailedAssertion s).current.fatalError = s.current.fatalError ∧
    (countFailedAssertion s).requests = s.requests := by
  unfold countFailedAssertion
  split
  · exact ⟨rfl, rfl, rfl, rfl, rfl, rfl⟩
  · exact ⟨rfl, rfl, rfl, rfl, rfl, rfl⟩

/-- `cldm_test_ensure_capacity` makes room, or leaves the log as it is. -/
theorem testEnsureCapacity_logOk {realloc : ℕ → Bool} {s r : TestState} {ok : Bool}
    (h : testEnsureCapacity realloc s = (ok, r)) (hlog : LogOk s.log) :
    LogOk r.log ∧ (ok = true → r.log.buffer.length + 1 < r.log.capacity) := by
  obtain ⟨hlive, hroom⟩ := hlog
  unfold testEnsureCapacity at h
  split at h
  · obtain ⟨rfl, rfl⟩ := Prod.mk.inj h
    exact ⟨⟨hlive, hroom⟩, fun _ => by assumption⟩
  · split at h
    · obtain ⟨rfl, rfl⟩ := Prod.mk.inj h
      refine ⟨⟨rfl, ?_⟩, fun _ => ?_⟩
      · show s.log.buffer.length < 2 * s.log.capacity
        omega
      · show s.log.buffer.length + 1 < 2 * s.log.capacity
        omega
    · obtain ⟨rfl, rfl⟩ := Prod.mk.inj h
      exact ⟨⟨hlive, hroom⟩, fun h => absurd h (by simp)⟩

/-- With a log that has room, evaluating an assertion stays inside its buffer. -/
theorem LogOk.assertTrue {realloc : ℕ → Bool} {a : Assertion} {s : TestState} (h : LogOk s.log) :
    ∃ s', assertTrue realloc a s = some s' ∧ LogOk s'.log := by
  unfold Cldm.assertTrue
  cases heval : a.eval with
  | true => exact ⟨_, rfl, h.live, h.room⟩
  | false =>
    obtain ⟨hbuf, hlive, hcap, -, -, -⟩ := countFailedAssertion_frame s.countAssertion
    have hcount : LogOk (countFailedAssertion s.countAssertion).log := by
      refine ⟨hlive.trans h.live, ?_⟩
      rw [hbuf, hcap]
      exact h.room
    rcases hr : testEnsureCapacity realloc (countFailedAssertion s.countAssertion) with ⟨ok, r⟩
    obtain ⟨hrlog, hroom⟩ := testEnsureCapacity_logOk hr hcount
    simp only [Bool.false_eq_true, if_false, recordFailedAssertion, hr]
    cases ok with
    | false => exact ⟨_, rfl, hrlog.live, hrlog.room⟩
    | true =>
      rw [if_neg (by decide), if_pos ⟨hrlog.live, hrlog.room⟩]
      refine ⟨_, rfl, hrlog.live, ?_⟩
      simpa using hroom rfl

/-- The log gains the recorded message and nothing else. -/
theorem assertTrue_buffer {realloc : ℕ → Bool} {a : Assertion} {s s' : TestState}
    (h : assertTrue realloc a s = some s') :
    s'.log.buffer = s.log.buffer ++ (recordedMsg s s').toList := by
  have hsame : s'.log.buffer = s.log.buffer →
      s'.log.buffer = s.log.buffer ++ (recordedMsg s s').toList := by
    intro heq
    simp [recordedMsg, heq]
  unfold assertTrue at h
  cases heval : a.eval with
  | true =>
    simp only [heval, if_true, Option.some.injEq] at h
    exact hsame (h ▸ rfl)
  | false =>
    simp only [heval, Bool.false_eq_true, if_false] at h
    rcases hr : testEnsureCapacity realloc (countFailedAssertion s.countAssertion) with ⟨ok, r⟩
    have hbuf : r.log.buffer = s.log.buffer :=
      (testEnsureCapacity_frame hr).2.1.trans (countFailedAssertion_frame _).1
    obtain ⟨-, rfl⟩ | ⟨-, -, rfl⟩ := recordFailedAssertion_cases h hr
    · exact hsame (by simpa using hbuf)
    · simp [recordedMsg, hbuf]

/-- When the allocator answers every request, exactly the false assertions
leave a message, and none is fatal. -/
theorem assertTrue_records {realloc : ℕ → Bool} {a : Assertion} {s s' : TestState}
    (hre : ∀ n, realloc n = true) (h : assertTrue realloc a s = some s') :
    (recordedMsg s s').toList.length = [a.eval].count false ∧
      s'.current.fatalError = s.current.fatalError := by
  unfold assertTrue at h
  cases heval : a.eval with
  | true =>
    simp only [heval, if_true, Option.some.injEq] at h
    subst h
    exact ⟨by simp [recordedMsg], rfl⟩
  | false =>
    simp only [heval, Bool.false_eq_true, if_false] at h
    rcases hr : testEnsureCapacity realloc (countFailedAssertion s.countAssertion) with ⟨ok, r⟩
    have hok : ok = true := by
      unfold testEnsureCapacity at hr
      split at hr
      · exact (Prod.mk.inj hr).1.symm
      · rw [if_pos (hre _)] at hr
        exact (Prod.mk.inj hr).1.symm
    obtain ⟨-, hbuf, hcur, -⟩ := testEnsureCapacity_frame hr
    obtain ⟨hfail, -⟩ | ⟨-, -, rfl⟩ := recordFailedAssertion_cases h hr
    · exact absurd (hok.symm.trans hfail) (by simp)
    · obtain ⟨hb, -, -, -, hfatal, -⟩ := countFailedAssertion_frame s.countAssertion
      refine ⟨?_, ?_⟩
      · simp [recordedMsg, hbuf.trans hb]
      · rw [store_current, hcur, hfatal]
        rfl

/-- A fatal error is a false assertion whose message is lost. -/
theorem assertTrue_fatal {realloc : ℕ → Bool} {a : Assertion} {s s' : TestState}
    (h : assertTrue realloc a s = some s') (hfatal : s'.current.fatalError = true) :
    s.current.fatalError = true ∨ (a.eval = false ∧ recordedMsg s s' = none) := by
  unfold assertTrue at h
  cases heval : a.eval with
  | true =>
    simp only [heval, if_true, Option.some.injEq] at h
    subst h
    exact .inl hfatal
  | false =>
    simp only [heval, Bool.false_eq_true, if_false] at h
    rcases hr : testEnsureCapacity realloc (countFailedAssertion s.countAssertion) with ⟨ok, r⟩
    obtain ⟨-, hbuf, hcur, -⟩ := testEnsureCapacity_frame hr
    obtain ⟨hb, -, -, -, hf, -⟩ := countFailedAssertion_frame s.countAssertion
    obtain ⟨-, rfl⟩ | ⟨-, -, rfl⟩ := recordFailedAssertion_cases h hr
    · exact .inr ⟨rfl, by simp [recordedMsg, hbuf.trans hb]⟩
    · rw [store_current, hcur, hf] at hfatal
      exact .inl hfatal

/-- A true assertion leaves no message. -/
theorem recordedMsg_of_eval {realloc : ℕ → Bool} {a : Assertion} {s s' : TestState}
    (ha : a.eval = true) (h : assertTrue realloc a s = some s') : recordedMsg s s' = none := by
  unfold assertTrue at h
  simp only [ha, if_true, Option.some.injEq] at h
  subst h
  simp [recordedMsg]

/-- Without a buffer no message can be recorded. -/
theorem assertTrue_no_buffer {realloc : ℕ → Bool} {a : Assertion} {s s' : TestState}
    (h : assertTrue realloc a s = some s') (hcap : s.log.capacity = 0) :
    s'.log.capacity = 0 ∧ recordedMsg s s' = none := by
  cases heval : a.eval with
  | true =>
    refine ⟨?_, recordedMsg_of_eval heval h⟩
    simp only [assertTrue, heval, if_true, Option.some.injEq] at h
    rw [← h]
    exact hcap
  | false =>
    simp only [assertTrue, heval, Bool.false_eq_true, if_false] at h
    rcases hr : testEnsureCapacity realloc (countFailedAssertion s.countAssertion) with ⟨ok, r⟩
    obtain ⟨hb, -, hc, -, -, -⟩ := countFailedAssertion_frame s.countAssertion
    have hcap' : (countFailedAssertion s.countAssertion).log.capacity = 0 := hc.trans hcap
    have hbuf : r.log.buffer = s.log.buffer := (testEnsureCapacity_frame hr).2.1.trans hb
    have hrcap : r.log.capacity = 0 := by
      unfold testEnsureCapacity at hr
      rw [hcap', if_neg (Nat.not_lt_zero _)] at hr
      split at hr
      · obtain rfl := (Prod.mk.inj hr).2
        rfl
      · obtain rfl := (Prod.mk.inj hr).2
        exact hcap'
    obtain ⟨-, rfl⟩ | ⟨-, hroom, -⟩ := recordFailedAssertion_cases h hr
    · exact ⟨hrcap, by simp [recordedMsg, hbuf]⟩
    · rw [hrcap] at hroom
      exact absurd hroom.2 (Nat.not_lt_zero _)

end Cldm
