/-
The sequential driver: `cldm_sequential_run`, which runs everything on thread 0.

A run is computed: `sequentialRun env` is the status and the trace of the run,
and `none` when it does not return.  `SeqRun s evals failed` says what the state
holds after the outcomes `evals`, of which `failed` tests have failed; every part
of the driver is described by how it extends them.

* `evalProc_runs`, `seqTestRun_runs`, `SeqRun.loop` — one procedure, one test, all
  tests;
* `seqRunTests_printed` — what a run prints, from the invariant `SeqPrinted`;
* `seqRunTests_eq` — the outcomes and the status of a whole run;
* `sequential_verdict` — when the status tells whether an assertion was false.
-/
import Cldm.RunTrace
import Mathlib.Data.List.Range
import Mathlib.Tactic.Linarith

namespace Cldm

/-- The state of a sequential run. -/
structure SeqState where
  tests : TestState
  ioIndex : ℕ
  trace : List Event

/-- Evaluate the assertions of a procedure. -/
def evalProc (realloc : ℕ → Bool) (site : Site) : Proc → SeqState → Option SeqState
  | [], s => some s
  | a :: p, s => do
      let tests ← assertTrue realloc a s.tests
      evalProc realloc site p { s with
        tests := tests
        trace := s.trace ++ [.evaluated 0 site a.eval (recordedMsg s.tests tests)] }

attribute [grind =] evalProc

/-- The body of the loop of `cldm_test_print`. -/
def seqPrintEntry (s : SeqState) (e : BufferedTest) : SeqState :=
  { s with ioIndex := s.ioIndex + 1, trace := s.trace ++ [.printed 0 (s.ioIndex + 1) e] }

/-- `cldm_test_print`. -/
def seqPrint (s : SeqState) : SeqState := s.tests.buffered.foldl seqPrintEntry s

/-- `cldm_test_schedule_print`. -/
def seqSchedulePrint (file : CStr) (s : SeqState) : SeqState :=
  let s := if testbufferSize ≤ s.tests.buffered.length then
      { seqPrint s with tests.buffered := [] }
    else s
  { s with tests := testStore file s.tests, trace := s.trace ++ [.ended 0 (s.tests.result file)] }

/-- `cldm_test_run` for the record `r`, the `idx`-th of the run. -/
def seqTestRun (env : RunEnv) (idx : ℕ) (r : TestRec) (s : SeqState) : Option (Bool × SeqState) := do
  let s ← evalProc (env.realloc 0) .test (testProc env.auxprocs idx r)
    { s with tests := testBegin r s.tests, trace := s.trace ++ [.started 0 idx] }
  let s := seqSchedulePrint r.file s
  return (testVerdict env.failFast s.tests, s)

/-- The loop of `cldm_sequential_run` over the tree. -/
def seqLoop (env : RunEnv) : ℕ → List TestRec → SeqState → Option SeqState
  | _, [], s => some s
  | idx, r :: rs, s => do
      let (continue_, s) ← seqTestRun env idx r s
      if continue_ then seqLoop env (idx + 1) rs s else return s

attribute [grind =] seqLoop

/-- Call one of the global procedures. -/
def seqGlobal (env : RunEnv) (site : Site) (p : Proc) (s : SeqState) : Option SeqState :=
  evalProc (env.realloc 0) site p { s with trace := s.trace ++ [.invoked 0 site] }

/-- `cldm_sequential_run` from its collected records on. -/
def seqRunTests (env : RunEnv) (records : List TestRec) : Option (ℕ × List Event) := do
  -- with one job the mutex functions are dummies, which succeed
  let (ok, tests) := testInit 0 (env.logMalloc 0) true TestState.static
  if ok then
    let s ← seqGlobal env .globalSetup env.auxprocs.globalSetup ⟨tests, 0, []⟩
    let s ← seqLoop env 0 records s
    let s ← seqGlobal env .globalTeardown env.auxprocs.globalTeardown s
    let s := seqPrint s
    let (status, report) ← testSummary 1 (fun _ => s.tests.log) records.length
    return (status, s.trace ++ [.reported 0 report, .freed 0])
  else
    return (1, [])

/-- `cldm_sequential_run`. -/
def sequentialRun (env : RunEnv) : Option (ℕ × List Event) :=
  if env.jobs ≠ 1 then
    some (1, [])
  else
    match env.collected with
    | none => some (1, [])
    | some records => seqRunTests env records

/-! ### One procedure -/

/-- The effect of the procedure `p` on the run. -/
structure ProcRuns (p : Proc) (s s' : SeqState) : Prop where
  counters : s'.tests.log.counters = s.tests.log.counters +
    .ofEvals (if s.tests.current.pass && !allPass p then 1 else 0) (outcomes p)
  pass : s'.tests.current.pass = (s.tests.current.pass && allPass p)
  name : s'.tests.current.name = s.tests.current.name
  buffered : s'.tests.buffered = s.tests.buffered
  ioIndex : s'.ioIndex = s.ioIndex
  evals : evals s'.trace = evals s.trace ++ outcomes p
  starts : starts 0 s'.trace = starts 0 s.trace
  ends : ends 0 s'.trace = ends 0 s.trace
  prints : prints 0 s'.trace = prints 0 s.trace
  printIndices : printIndices s'.trace = printIndices s.trace

theorem evalProc_runs {realloc : ℕ → Bool} {site : Site} {p : Proc} {s s' : SeqState}
    (h : evalProc realloc site p s = some s') : ProcRuns p s s' := by
  induction p generalizing s with
  | nil =>
    obtain rfl := Option.some.inj h
    constructor <;> simp [Counters.ext_iff, Counters.ofEvals]
  | cons a p ih =>
    simp only [evalProc, Option.bind_eq_bind, Option.bind_eq_some_iff] at h
    obtain ⟨tests, htests, hrest⟩ := h
    obtain ⟨hcounters, hpass, hname, hbuf⟩ := assertTrue_evaluates htests
    have hp := ih hrest
    have hadd : ∀ x y z : Counters, x + y + z = x + (y + z) := fun x y z => by
      simp [Counters.ext_iff, UInt64.add_assoc]
    refine ⟨?_, ?_, hp.name.trans hname, hp.buffered.trans hbuf, hp.ioIndex, ?_, ?_, ?_, ?_, ?_⟩
    · rw [hp.counters]
      show tests.log.counters + _ = _
      rw [hcounters, hadd, Counters.ofEvals_add]
      -- the test fails at most once
      have hcount : (if s.tests.current.pass && !a.eval then 1 else 0) +
          (if tests.current.pass && !allPass p then 1 else 0) =
            if s.tests.current.pass && !allPass (a :: p) then 1 else 0 := by
        have hall : allPass (a :: p) = (a.eval && allPass p) := rfl
        rw [hpass, hall]
        cases s.tests.current.pass <;> cases a.eval <;> cases allPass p <;> rfl
      rw [hcount]
      rfl
    · rw [hp.pass]
      show (tests.current.pass && allPass p) = _
      rw [hpass, Bool.and_assoc]
      rfl
    · simpa [Event.evalOf] using hp.evals
    · rw [hp.starts]
      simp [Event.startOf]
    · rw [hp.ends]
      simp [Event.endOf]
    · rw [hp.prints]
      simp [Event.printOf]
    · rw [hp.printIndices]
      simp [Event.printIndexOf]

/-- With a log that has room a procedure runs to its end. -/
theorem evalProc_logOk (realloc : ℕ → Bool) (site : Site) (p : Proc) {s : SeqState}
    (h : LogOk s.tests.log) :
    ∃ s', evalProc realloc site p s = some s' ∧ LogOk s'.tests.log := by
  induction p generalizing s with
  | nil => exact ⟨s, rfl, h⟩
  | cons a p ih =>
    have hnext : ∃ tests, assertTrue realloc a s.tests = some tests ∧ LogOk tests.log :=
      h.assertTrue
    obtain ⟨tests, htests, hlog⟩ := hnext
    obtain ⟨s', hs', hlog'⟩ := ih (s := { s with
      tests := tests
      trace := s.trace ++ [.evaluated 0 site a.eval (recordedMsg s.tests tests)] }) hlog
    refine ⟨s', ?_, hlog'⟩
    simp only [evalProc, htests, Option.bind_eq_bind, Option.bind_some]
    exact hs'

/-- When the allocator answers every request, every false assertion of a
procedure leaves a message. -/
theorem evalProc_records {realloc : ℕ → Bool} {site : Site} {p : Proc} {s s' : SeqState}
    (hre : ∀ n, realloc n = true) (h : evalProc realloc site p s = some s') :
    s'.tests.log.buffer.length = s.tests.log.buffer.length + (outcomes p).count false ∧
      s'.tests.current.fatalError = s.tests.current.fatalError := by
  induction p generalizing s with
  | nil =>
    obtain rfl := Option.some.inj h
    exact ⟨by simp, rfl⟩
  | cons a p ih =>
    simp only [evalProc, Option.bind_eq_bind, Option.bind_eq_some_iff] at h
    obtain ⟨tests, htests, hrest⟩ := h
    obtain ⟨hlen, hfatal⟩ := ih hrest
    obtain ⟨hmsg, hfatal'⟩ := assertTrue_records hre htests
    have hbuf := congrArg List.length (assertTrue_buffer htests)
    rw [List.length_append, hmsg] at hbuf
    have hcons : (outcomes (a :: p)).count false =
        [a.eval].count false + (outcomes p).count false := by
      rw [← List.count_append]
      rfl
    exact ⟨by rw [hlen, hcons]; show tests.log.buffer.length + _ = _; omega,
      hfatal.trans hfatal'⟩

/-! ### Printing -/

theorem seqPrintEntry_foldl (es : List BufferedTest) (s : SeqState) :
    let s' := es.foldl seqPrintEntry s
    s'.tests = s.tests ∧ s'.ioIndex = s.ioIndex + es.length ∧
      prints 0 s'.trace = prints 0 s.trace ++ es ∧
      printIndices s'.trace = printIndices s.trace ++ List.range' (s.ioIndex + 1) es.length ∧
      evals s'.trace = evals s.trace ∧ starts 0 s'.trace = starts 0 s.trace ∧
      ends 0 s'.trace = ends 0 s.trace := by
  induction es generalizing s with
  | nil => simp
  | cons e es ih =>
    obtain ⟨htests, hio, hprints, hindices, hevals, hstarts, hends⟩ := ih (seqPrintEntry s e)
    refine ⟨htests, ?_, ?_, ?_, ?_, ?_, ?_⟩
    · rw [List.foldl_cons, hio, List.length_cons]
      show s.ioIndex + 1 + es.length = _
      omega
    · rw [List.foldl_cons, hprints]
      simp [seqPrintEntry, Event.printOf]
    · rw [List.foldl_cons, hindices]
      simp [seqPrintEntry, Event.printIndexOf, List.range'_succ]
    · rw [List.foldl_cons, hevals]
      simp [seqPrintEntry, Event.evalOf]
    · rw [List.foldl_cons, hstarts]
      simp [seqPrintEntry, Event.startOf]
    · rw [List.foldl_cons, hends]
      simp [seqPrintEntry, Event.endOf]

/-- What has been printed: the scheduled results apart from those in the
buffer, with the indices from 1 on. -/
structure SeqPrinted (s : SeqState) : Prop where
  prints : prints 0 s.trace ++ s.tests.buffered = ends 0 s.trace
  indices : printIndices s.trace = List.range' 1 s.ioIndex
  count : (Cldm.prints 0 s.trace).length = s.ioIndex
  room : s.tests.buffered.length ≤ testbufferSize

/-- Printing empties the buffer as far as the trace is concerned. -/
theorem SeqPrinted.print {s : SeqState} (h : SeqPrinted s) :
    Cldm.prints 0 (seqPrint s).trace = ends 0 (seqPrint s).trace ∧
      printIndices (seqPrint s).trace = List.range' 1 (seqPrint s).ioIndex ∧
      (Cldm.prints 0 (seqPrint s).trace).length = (seqPrint s).ioIndex := by
  obtain ⟨-, hio, hprints, hindices, -, -, hends⟩ := seqPrintEntry_foldl s.tests.buffered s
  refine ⟨?_, ?_, ?_⟩
  · exact hprints.trans (h.prints.trans hends.symm)
  · show printIndices (List.foldl seqPrintEntry s s.tests.buffered).trace = _
    rw [hindices, h.indices]
    show _ = List.range' 1 (List.foldl seqPrintEntry s s.tests.buffered).ioIndex
    rw [hio, Nat.add_comm s.ioIndex 1, List.range'_append_1]
  · show (Cldm.prints 0 (List.foldl seqPrintEntry s s.tests.buffered).trace).length =
      (List.foldl seqPrintEntry s s.tests.buffered).ioIndex
    rw [hprints, hio, List.length_append, h.count]

/-- The effect of `cldm_test_schedule_print` apart from what is printed. -/
theorem seqSchedulePrint_frame (file : CStr) (s : SeqState) :
    let s' := seqSchedulePrint file s
    s'.tests.log = s.tests.log ∧ s'.tests.current = s.tests.current ∧
      evals s'.trace = evals s.trace ∧ starts 0 s'.trace = starts 0 s.trace ∧
      ends 0 s'.trace = ends 0 s.trace ++ [s.tests.result file] := by
  obtain ⟨htests, -, -, -, hevals, hstarts, hends⟩ := seqPrintEntry_foldl s.tests.buffered s
  have hprint : seqPrint s = List.foldl seqPrintEntry s s.tests.buffered := rfl
  unfold seqSchedulePrint
  split
  · rw [← hprint] at htests hevals hstarts hends
    refine ⟨?_, ?_, ?_, ?_, ?_⟩
    · simp [testStore, htests]
    · simp [testStore, htests]
    · simpa [Event.evalOf] using hevals
    · simpa [Event.startOf] using hstarts
    · simp [Event.endOf, hends, TestState.result, htests]
  · refine ⟨rfl, rfl, ?_, ?_, ?_⟩
    · simp [Event.evalOf]
    · simp [Event.startOf]
    · simp [Event.endOf]

theorem SeqPrinted.schedulePrint {s : SeqState} (h : SeqPrinted s) (file : CStr) :
    SeqPrinted (seqSchedulePrint file s) := by
  obtain ⟨hall, hindices, hcount⟩ := h.print
  obtain ⟨htests, -, -, -, -, -, -⟩ := seqPrintEntry_foldl s.tests.buffered s
  unfold seqSchedulePrint
  split
  · refine ⟨?_, ?_, ?_, by simp [testStore]⟩
    · simp [Event.printOf, Event.endOf, testStore, hall, TestState.result]
    · simpa [Event.printIndexOf] using hindices
    · simpa [Event.printOf] using hcount
  · rename_i hfull
    refine ⟨?_, ?_, ?_, ?_⟩
    · simp [Event.printOf, Event.endOf, testStore, ← h.prints]
    · simpa [Event.printIndexOf] using h.indices
    · simpa [Event.printOf] using h.count
    · simp only [testStore, List.length_append, List.length_singleton]
      omega

/-! ### One test -/

/-- The effect of `cldm_test_run`. -/
structure TestRuns (env : RunEnv) (idx : ℕ) (r : TestRec) (s : SeqState) (go : Bool)
    (s' : SeqState) : Prop where
  counters : s'.tests.log.counters = s.tests.log.counters +
    .ofEvals (if allPass (testProc env.auxprocs idx r) then 0 else 1)
      (outcomes (testProc env.auxprocs idx r))
  pass : s'.tests.current.pass = allPass (testProc env.auxprocs idx r)
  evals : evals s'.trace = evals s.trace ++ outcomes (testProc env.auxprocs idx r)
  starts : starts 0 s'.trace = starts 0 s.trace ++ [idx]
  ends : ends 0 s'.trace = ends 0 s.trace ++ [resultOf env.auxprocs idx r]
  printed : SeqPrinted s → SeqPrinted s'
  verdict : go = testVerdict env.failFast s'.tests

theorem seqTestRun_runs {env : RunEnv} {idx : ℕ} {r : TestRec} {s s' : SeqState} {go : Bool}
    (h : seqTestRun env idx r s = some (go, s')) : TestRuns env idx r s go s' := by
  simp only [seqTestRun, Option.bind_eq_bind, Option.bind_eq_some_iff, Option.pure_def,
    Option.some.injEq, Prod.mk.injEq] at h
  obtain ⟨s₁, hproc, hgo, rfl⟩ := h
  have hruns := evalProc_runs hproc
  obtain ⟨hlog, hcur, hevals, hstarts, hends⟩ := seqSchedulePrint_frame r.file s₁
  have hpass : s₁.tests.current.pass = allPass (testProc env.auxprocs idx r) := by
    rw [hruns.pass]
    simp [testBegin]
  refine ⟨?_, ?_, ?_, ?_, ?_, ?_, hgo.symm⟩
  · rw [hlog, hruns.counters]
    have hfail : (if (testBegin r s.tests).current.pass &&
        !allPass (testProc env.auxprocs idx r) then 1 else 0) =
        if allPass (testProc env.auxprocs idx r) then 0 else 1 := by
      cases allPass (testProc env.auxprocs idx r) <;> rfl
    exact congrArg (fun n => s.tests.log.counters + Counters.ofEvals n _) hfail
  · rw [hcur, hpass]
  · rw [hevals, hruns.evals]
    simp [Event.evalOf]
  · rw [hstarts, hruns.starts]
    simp [Event.startOf]
  · have hname : s₁.tests.current.name = some r.name := hruns.name
    rw [hends, hruns.ends]
    simp [Event.endOf, TestState.result, resultOf, hname, hpass]
  · intro hprinted
    refine SeqPrinted.schedulePrint ⟨?_, ?_, ?_, ?_⟩ r.file
    · rw [hruns.prints, hruns.ends, hruns.buffered]
      simpa [Event.printOf, Event.endOf, testBegin] using hprinted.prints
    · rw [hruns.printIndices, hruns.ioIndex]
      simpa [Event.printIndexOf] using hprinted.indices
    · rw [hruns.prints, hruns.ioIndex]
      simpa [Event.printOf] using hprinted.count
    · rw [hruns.buffered]
      exact hprinted.room

/-! ### All tests -/

/-- What the tests `rs`, numbered from `idx` on, evaluate; with fail-fast nothing
after the first test that fails. -/
def testsEvaluated (env : RunEnv) : ℕ → List TestRec → Proc
  | _, [] => []
  | idx, r :: rs =>
    let p := testProc env.auxprocs idx r
    p ++ if env.failFast && !allPass p then [] else testsEvaluated env (idx + 1) rs

/-- How many of these tests fail. -/
def testsFailed (env : RunEnv) : ℕ → List TestRec → ℕ
  | _, [] => 0
  | idx, r :: rs =>
    if allPass (testProc env.auxprocs idx r) then testsFailed env (idx + 1) rs
    else if env.failFast then 1 else 1 + testsFailed env (idx + 1) rs

attribute [grind =] testsEvaluated testsFailed

theorem testsFailed_le (env : RunEnv) (idx : ℕ) (rs : List TestRec) :
    testsFailed env idx rs ≤ rs.length := by
  induction rs generalizing idx with
  | nil => exact Nat.le_refl 0
  | cons r rs ih =>
    have := ih (idx + 1)
    rw [testsFailed, List.length_cons]
    split_ifs <;> omega

theorem testsFailed_eq_zero {env : RunEnv} {idx : ℕ} {rs : List TestRec} :
    testsFailed env idx rs = 0 ↔
      ∀ i r, rs[i]? = some r → allPass (testProc env.auxprocs (idx + i) r) = true := by
  induction rs generalizing idx with
  | nil => simp [testsFailed]
  | cons r rs ih =>
    rw [testsFailed]
    by_cases hr : allPass (testProc env.auxprocs idx r) = true
    · rw [if_pos hr, ih]
      constructor
      · intro h i r' hi
        cases i with
        | zero =>
          obtain rfl := Option.some.inj hi
          exact hr
        | succ i =>
          have := h i r' hi
          rwa [show idx + 1 + i = idx + (i + 1) by omega] at this
      · intro h i r' hi
        have := h (i + 1) r' hi
        rwa [show idx + (i + 1) = idx + 1 + i by omega] at this
    · rw [if_neg hr]
      constructor
      · intro h
        split_ifs at h
        omega
      · intro h
        exact absurd (h 0 r rfl) hr

/-- The effect of the loop on what is printed. -/
theorem seqLoop_printed {env : RunEnv} {records : ℕ → Option TestRec} {rs : List TestRec}
    {idx : ℕ} {s s' : SeqState} (hrecords : ∀ i, records (idx + i) = rs[i]?)
    (h : seqLoop env idx rs s = some s') (hprinted : SeqPrinted s)
    (hresults : ResultsOf env.auxprocs records (starts 0 s.trace) (ends 0 s.trace)) :
    SeqPrinted s' ∧ ResultsOf env.auxprocs records (starts 0 s'.trace) (ends 0 s'.trace) ∧
      ∃ k ≤ rs.length, starts 0 s'.trace = starts 0 s.trace ++ List.range' idx k := by
  induction rs generalizing idx s with
  | nil =>
    obtain rfl := Option.some.inj h
    exact ⟨hprinted, hresults, 0, Nat.le_refl 0, by simp⟩
  | cons r rs ih =>
    simp only [seqLoop, Option.bind_eq_bind, Option.bind_eq_some_iff, Prod.exists] at h
    obtain ⟨go, s₁, hrun, hrest⟩ := h
    have htest := seqTestRun_runs hrun
    have hresults₁ : ResultsOf env.auxprocs records (starts 0 s₁.trace) (ends 0 s₁.trace) := by
      rw [htest.starts, htest.ends]
      refine List.rel_append hresults (.cons ⟨r, ?_, rfl⟩ .nil)
      simpa using hrecords 0
    cases go with
    | false =>
      obtain rfl := Option.some.inj hrest
      exact ⟨htest.printed hprinted, hresults₁, 1, by simp, by simpa using htest.starts⟩
    | true =>
      have hrecords₁ : ∀ i, records (idx + 1 + i) = rs[i]? := by
        intro i
        rw [show idx + 1 + i = idx + (i + 1) by omega, hrecords (i + 1)]
        rfl
      obtain ⟨hp, hr, k, hk, hs⟩ := ih hrecords₁ hrest (htest.printed hprinted) hresults₁
      refine ⟨hp, hr, k + 1, by simpa using hk, ?_⟩
      rw [hs, htest.starts, List.append_assoc]
      rfl

/-- Calling a global procedure prints nothing. -/
theorem seqGlobal_printed {env : RunEnv} {site : Site} {p : Proc} {s s' : SeqState}
    (h : seqGlobal env site p s = some s') (hprinted : SeqPrinted s) :
    SeqPrinted s' ∧ starts 0 s'.trace = starts 0 s.trace ∧ ends 0 s'.trace = ends 0 s.trace := by
  have hruns := evalProc_runs h
  have hends : ends 0 s'.trace = ends 0 s.trace := by
    rw [hruns.ends]
    simp [Event.endOf]
  refine ⟨⟨?_, ?_, ?_, ?_⟩, ?_, hends⟩
  · rw [hruns.prints, hruns.buffered, hends]
    simpa [Event.printOf] using hprinted.prints
  · rw [hruns.printIndices, hruns.ioIndex]
    simpa [Event.printIndexOf] using hprinted.indices
  · rw [hruns.prints, hruns.ioIndex]
    simpa [Event.printOf] using hprinted.count
  · rw [hruns.buffered]
    exact hprinted.room
  · rw [hruns.starts]
    simp [Event.startOf]

/-- A sequential run prints the results of the tests it has run, in order and
numbered from 1 on. -/
theorem seqRunTests_printed {env : RunEnv} {rs : List TestRec} {status : ℕ} {tr : List Event}
    (h : seqRunTests env rs = some (status, tr)) :
    ∃ k ≤ rs.length, starts 0 tr = List.range k ∧
      ResultsOf env.auxprocs (fun i => rs[i]?) (starts 0 tr) (ends 0 tr) ∧
      prints 0 tr = ends 0 tr ∧ printIndices tr = List.range' 1 k := by
  rcases hinit : testInit 0 (env.logMalloc 0) true TestState.static with ⟨ok, tests⟩
  simp only [seqRunTests, hinit, Option.bind_eq_bind] at h
  cases ok with
  | false =>
    simp only [Bool.false_eq_true, if_false, Option.pure_def, Option.some.injEq,
      Prod.mk.injEq] at h
    obtain ⟨-, rfl⟩ := h
    exact ⟨0, Nat.zero_le _, rfl, .nil, rfl, rfl⟩
  | true =>
    simp only [if_true, Option.bind_eq_some_iff, Option.pure_def, Option.some.injEq,
      Prod.mk.injEq, Prod.exists] at h
    obtain ⟨s₁, hs₁, s₂, hs₂, s₃, hs₃, st, report, -, -, rfl⟩ := h
    have hbuffered : tests.buffered = [] := by
      cases hm : env.logMalloc 0 with
      | true =>
        rw [hm] at hinit
        exact (congrArg (fun r => r.2.buffered) hinit).symm
      | false =>
        rw [hm] at hinit
        exact absurd (congrArg Prod.fst hinit) (by simp [testInit])
    have hprinted₀ : SeqPrinted ⟨tests, 0, []⟩ :=
      ⟨by simpa using hbuffered, rfl, rfl, by simp [hbuffered]⟩
    obtain ⟨hprinted₁, hstarts₁, hends₁⟩ := seqGlobal_printed hs₁ hprinted₀
    have hresults₁ : ResultsOf env.auxprocs (fun i => rs[i]?) (starts 0 s₁.trace)
        (ends 0 s₁.trace) := by
      rw [hstarts₁, hends₁]
      exact .nil
    obtain ⟨hprinted₂, hresults₂, k, hk, hstarts₂⟩ :=
      seqLoop_printed (fun i => by simp) hs₂ hprinted₁ hresults₁
    obtain ⟨hprinted₃, hstarts₃, hends₃⟩ := seqGlobal_printed hs₃ hprinted₂
    obtain ⟨hall, hindices, hcount⟩ := hprinted₃.print
    obtain ⟨-, -, -, -, -, hstarts₄, hends₄⟩ := seqPrintEntry_foldl s₃.tests.buffered s₃
    have hstarts : starts 0 (seqPrint s₃).trace = List.range k := by
      refine hstarts₄.trans (hstarts₃.trans (hstarts₂.trans ?_))
      rw [hstarts₁, List.range_eq_range']
      rfl
    have hresults : ResultsOf env.auxprocs (fun i => rs[i]?) (starts 0 (seqPrint s₃).trace)
        (ends 0 (seqPrint s₃).trace) := by
      rw [show starts 0 (seqPrint s₃).trace = starts 0 s₂.trace from hstarts₄.trans hstarts₃,
        show ends 0 (seqPrint s₃).trace = ends 0 s₂.trace from hends₄.trans hends₃]
      exact hresults₂
    have hk' : (seqPrint s₃).ioIndex = k := by
      rw [← hcount, hall, ← hresults.length_eq, hstarts, List.length_range]
    refine ⟨k, hk, ?_, ?_, ?_, ?_⟩
    · simpa [Event.startOf, List.filterMap_cons] using hstarts
    · simpa [Event.startOf, Event.endOf, List.filterMap_cons] using hresults
    · simpa [Event.printOf, Event.endOf, List.filterMap_cons] using hall
    · simpa [Event.printIndexOf, List.filterMap_cons, hk'] using hindices

/-! ### The verdict -/

/-- The state after the outcomes `es`, of which `failed` tests have failed, when
the allocator answers every request. -/
structure SeqRun (s : SeqState) (es : List Bool) (failed : ℕ) : Prop where
  counters : s.tests.log.counters = .ofEvals failed es
  evals : evals s.trace = es
  log : LogOk s.tests.log
  messages : s.tests.log.buffer.length = es.count false
  fatal : s.tests.current.fatalError = false

theorem SeqRun.evalProc {realloc : ℕ → Bool} {s : SeqState} {es : List Bool} {failed : ℕ}
    (h : SeqRun s es failed) (hre : ∀ n, realloc n = true) (site : Site) (p : Proc) :
    ∃ s', evalProc realloc site p s = some s' ∧
      SeqRun s' (es ++ outcomes p) (failed + if s.tests.current.pass && !allPass p then 1 else 0) ∧
      s'.tests.current.pass = (s.tests.current.pass && allPass p) := by
  obtain ⟨s', hs', hlog⟩ := evalProc_logOk realloc site p h.log
  have hruns := evalProc_runs hs'
  obtain ⟨hlen, hfatal⟩ := evalProc_records hre hs'
  refine ⟨s', hs', ⟨?_, ?_, hlog, ?_, hfatal.trans h.fatal⟩, hruns.pass⟩
  · rw [hruns.counters, h.counters, Counters.ofEvals_add]
  · rw [hruns.evals, h.evals]
  · rw [hlen, h.messages, List.count_append]

theorem SeqRun.global {env : RunEnv} {s : SeqState} {es : List Bool} {failed : ℕ}
    (h : SeqRun s es failed) (hre : ∀ n, env.realloc 0 n = true) (site : Site) (p : Proc) :
    ∃ s', seqGlobal env site p s = some s' ∧
      SeqRun s' (es ++ outcomes p) (failed + if s.tests.current.pass && !allPass p then 1 else 0) ∧
      s'.tests.current.pass = (s.tests.current.pass && allPass p) := by
  have h' : SeqRun { s with trace := s.trace ++ [.invoked 0 site] } es failed :=
    ⟨h.counters, by simpa [Event.evalOf] using h.evals, h.log, h.messages, h.fatal⟩
  exact h'.evalProc hre site p

theorem SeqRun.testRun {env : RunEnv} {s : SeqState} {es : List Bool} {failed : ℕ}
    (h : SeqRun s es failed) (hre : ∀ n, env.realloc 0 n = true) (idx : ℕ) (r : TestRec) :
    let p := testProc env.auxprocs idx r
    ∃ s', seqTestRun env idx r s = some (!env.failFast || allPass p, s') ∧
      SeqRun s' (es ++ outcomes p) (failed + if allPass p then 0 else 1) ∧
      s'.tests.current.pass = allPass p := by
  intro p
  have h' : SeqRun { s with
      tests := testBegin r s.tests
      trace := s.trace ++ [.started 0 idx] } es failed :=
    ⟨h.counters, by simpa [Event.evalOf] using h.evals, h.log, h.messages, rfl⟩
  obtain ⟨s₁, hs₁, hrun₁, hpass₁⟩ := h'.evalProc hre .test p
  obtain ⟨hlog, hcur, hevals, -, -⟩ := seqSchedulePrint_frame r.file s₁
  have hpass : s₁.tests.current.pass = allPass p := by
    rw [hpass₁]
    simp [testBegin]
  refine ⟨seqSchedulePrint r.file s₁, ?_, ⟨?_, ?_, ?_, ?_, ?_⟩, by rw [hcur, hpass]⟩
  · simp only [seqTestRun, Option.bind_eq_bind]
    rw [hs₁]
    simp [testVerdict, hcur, hrun₁.fatal, hpass]
  · have hfail : (if (testBegin r s.tests).current.pass && !allPass p then 1 else 0) =
        if allPass p then 0 else 1 := by
      cases allPass p <;> rfl
    rw [hlog, hrun₁.counters]
    exact congrArg (fun n => Counters.ofEvals (failed + n) _) hfail
  · rw [hevals, hrun₁.evals]
  · rw [hlog]
    exact hrun₁.log
  · rw [hlog, hrun₁.messages]
  · rw [hcur]
    exact hrun₁.fatal

/-- The loop runs all tests, or with fail-fast those up to the first that fails.
If none fails, the current test is left passing as soon as there is one. -/
theorem SeqRun.loop {env : RunEnv} {s : SeqState} {es : List Bool} {failed idx : ℕ}
    {rs : List TestRec} (h : SeqRun s es failed) (hre : ∀ n, env.realloc 0 n = true) :
    ∃ s', seqLoop env idx rs s = some s' ∧
      SeqRun s' (es ++ outcomes (testsEvaluated env idx rs)) (failed + testsFailed env idx rs) ∧
      (testsFailed env idx rs = 0 →
        s'.tests.current.pass = (s.tests.current.pass || !rs.isEmpty)) := by
  induction rs generalizing idx s es failed with
  | nil => exact ⟨s, rfl, by simpa [testsEvaluated, testsFailed] using h, by simp⟩
  | cons r rs ih =>
    obtain ⟨s₁, hs₁, hrun₁, hpass₁⟩ := h.testRun hre idx r
    have hloop : seqLoop env idx (r :: rs) s =
        if !env.failFast || allPass (testProc env.auxprocs idx r) then
          seqLoop env (idx + 1) rs s₁ else some s₁ := by
      simp only [seqLoop, Option.bind_eq_bind]
      rw [hs₁]
      rfl
    by_cases hpass : allPass (testProc env.auxprocs idx r) = true
    · obtain ⟨s', hs', hrun', hpass'⟩ := ih hrun₁
      refine ⟨s', ?_, ?_, ?_⟩
      · rw [hloop, if_pos (by simp [hpass]), hs']
      · simpa [testsEvaluated, testsFailed, hpass] using hrun'
      · intro hzero
        rw [hpass' (by simpa [testsFailed, hpass] using hzero), hpass₁, hpass]
        simp
    · have hnonzero : testsFailed env idx (r :: rs) ≠ 0 :=
        fun hzero => hpass (testsFailed_eq_zero.mp hzero 0 r rfl)
      by_cases hfast : env.failFast = true
      · refine ⟨s₁, ?_, ?_, fun hzero => absurd hzero hnonzero⟩
        · rw [hloop, if_neg (by simp [hfast, hpass])]
        · simpa [testsEvaluated, testsFailed, hpass, hfast] using hrun₁
      · obtain ⟨s', hs', hrun', -⟩ := ih hrun₁
        refine ⟨s', ?_, ?_, fun hzero => absurd hzero hnonzero⟩
        · rw [hloop, if_pos (by simp [hfast]), hs']
        · simpa [testsEvaluated, testsFailed, hpass, hfast, Nat.add_assoc] using hrun'

/-- No collected test evaluates a false assertion. -/
def TestsPass (env : RunEnv) (rs : List TestRec) : Prop :=
  ∀ i r, rs[i]? = some r → allPass (testProc env.auxprocs i r) = true

theorem testsFailed_iff {env : RunEnv} {rs : List TestRec} :
    testsFailed env 0 rs = 0 ↔ TestsPass env rs := by
  rw [testsFailed_eq_zero]
  simp only [Nat.zero_add, TestsPass]

theorem testsEvaluated_pass {env : RunEnv} {idx : ℕ} {rs : List TestRec} :
    allPass (testsEvaluated env idx rs) = true ↔ testsFailed env idx rs = 0 := by
  induction rs generalizing idx with
  | nil => simp [testsEvaluated, testsFailed]
  | cons r rs ih =>
    rw [testsEvaluated, testsFailed]
    by_cases hpass : allPass (testProc env.auxprocs idx r) = true
    · rw [if_neg (by simp [hpass]), if_pos hpass, ← ih]
      simp only [allPass, List.all_append, Bool.and_eq_true, and_iff_right_iff_imp]
      exact fun _ => hpass
    · rw [if_neg hpass]
      constructor
      · intro h
        simp only [allPass, List.all_append, Bool.and_eq_true] at h
        exact absurd h.1 hpass
      · intro h
        split_ifs at h
        omega

/-- Everything that a run with the records `rs` evaluates. -/
def evaluatedBy (env : RunEnv) (rs : List TestRec) : Proc :=
  env.auxprocs.globalSetup ++ testsEvaluated env 0 rs ++ env.auxprocs.globalTeardown

/-- A whole run, when the log is allocated and the allocator answers every
request: `failed` tests are counted, the last one possibly for the teardown. -/
theorem seqRunTests_eq {env : RunEnv} {rs : List TestRec} (hmalloc : env.logMalloc 0 = true)
    (hre : ∀ n, env.realloc 0 n = true) :
    ∃ failed tr, failed ≤ rs.length + 1 ∧
      (failed = 0 ↔ TestsPass env rs ∧ (rs = [] ∨ allPass env.auxprocs.globalTeardown)) ∧
      evals tr = outcomes (evaluatedBy env rs) ∧
      seqRunTests env rs =
        if (UInt64.ofNat failed) = 0 then some (0, tr)
        else if (outcomes (evaluatedBy env rs)).count false < unsignedMod then some (1, tr)
        else none := by
  set s₀ : SeqState := ⟨(testInit 0 true true TestState.static).2, 0, []⟩ with hs₀
  have hrun₀ : SeqRun s₀ [] 0 := ⟨rfl, rfl, testInit_logOk rfl, rfl, rfl⟩
  obtain ⟨s₁, hs₁, hrun₁, hpass₁⟩ := hrun₀.global hre .globalSetup env.auxprocs.globalSetup
  obtain ⟨s₂, hs₂, hrun₂, hpass₂⟩ := @SeqRun.loop _ _ _ _ 0 rs hrun₁ hre
  obtain ⟨s₃, hs₃, hrun₃, -⟩ := hrun₂.global hre .globalTeardown env.auxprocs.globalTeardown
  -- the static pass flag is false, so the global setup fails no test
  have hstatic : s₀.tests.current.pass = false := rfl
  rw [hstatic, Bool.false_and] at hpass₁
  simp only [hstatic, Bool.false_and, Bool.false_eq_true, if_false, Nat.zero_add,
    List.nil_append] at hrun₃
  rw [hpass₁, Bool.false_or, testsFailed_iff] at hpass₂
  set failed := testsFailed env 0 rs +
    if s₂.tests.current.pass && !allPass env.auxprocs.globalTeardown then 1 else 0 with hfailed
  have hzero : failed = 0 ↔
      TestsPass env rs ∧ (rs = [] ∨ allPass env.auxprocs.globalTeardown) := by
    rw [hfailed, Nat.add_eq_zero_iff, testsFailed_iff]
    refine and_congr_right fun hpass => ?_
    rw [hpass₂ hpass]
    cases rs <;> cases allPass env.auxprocs.globalTeardown <;> simp
  have hle : failed ≤ rs.length + 1 := by
    have := testsFailed_le env 0 rs
    rw [hfailed]
    split_ifs <;> omega
  obtain ⟨htests, -, -, -, hevals, -, -⟩ := seqPrintEntry_foldl s₃.tests.buffered s₃
  have hprint : (seqPrint s₃).tests = s₃.tests := htests
  have hrun : seqRunTests env rs = (testSummary 1 (fun _ => s₃.tests.log) rs.length).bind
      fun r => some (r.1, (seqPrint s₃).trace ++ [.reported 0 r.2, .freed 0]) := by
    simp only [seqRunTests, hmalloc, Option.bind_eq_bind]
    rw [show (testInit 0 true true TestState.static).1 = true from rfl, if_pos rfl]
    show ((seqGlobal env .globalSetup _ s₀).bind fun s =>
      (seqLoop env 0 rs s).bind fun s => _) = _
    rw [hs₁, Option.bind_some, hs₂, Option.bind_some, hs₃, Option.bind_some, hprint]
    rfl
  have htrace : ∀ report, evals ((seqPrint s₃).trace ++ [.reported 0 report, .freed 0]) =
      outcomes (evaluatedBy env rs) := by
    intro report
    rw [evals, List.filterMap_append]
    show evals (seqPrint s₃).trace ++ [] = _
    rw [List.append_nil, evaluatedBy, outcomes, List.map_append, List.map_append]
    exact hevals.trans hrun₃.evals
  have hcounters := hrun₃.counters
  rw [hrun]
  by_cases hf : (UInt64.ofNat failed) = 0
  · refine ⟨failed, (seqPrint s₃).trace ++ [.reported 0
      (.finished s₃.tests.log.counters.totalAssertions rs.length), .freed 0], hle, hzero,
      htrace _, ?_⟩
    · rw [if_pos hf]
      have hnot : ¬ s₃.tests.log.counters.failedTests ≠ 0 := by
        rw [hcounters]
        exact not_not.mpr hf
      rw [testSummary, if_neg hnot]
      rfl
  · refine ⟨failed, (seqPrint s₃).trace ++ [.reported 0
      (.failed s₃.tests.log.counters.failedAssertions s₃.tests.log.counters.totalAssertions
        s₃.tests.log.counters.failedTests rs.length
        (s₃.tests.log.buffer.map fun m => if s₃.tests.log.live then some m else none)),
      .freed 0], hle, hzero, htrace _, ?_⟩
    · rw [if_neg hf]
      have hpos : s₃.tests.log.counters.failedTests ≠ 0 := by
        rw [hcounters]
        exact hf
      have hlen : s₃.tests.log.buffer.length =
          (outcomes (evaluatedBy env rs)).count false := by
        rw [hrun₃.messages]
        simp [evaluatedBy]
      rw [testSummary, if_pos hpos, ← hlen]
      by_cases hfew : s₃.tests.log.buffer.length < unsignedMod
      · have hall : (List.range 1).all fun _ => s₃.tests.log.buffer.length < unsignedMod := by
          simpa using hfew
        rw [if_pos hall, if_pos hfew]
        simp
      · have hall : ¬ ((List.range 1).all fun _ => s₃.tests.log.buffer.length < unsignedMod) := by
          simpa using hfew
        rw [if_neg hall, if_neg hfew]
        rfl

/-- The run returns, and its status is non-zero exactly when an assertion that
it has evaluated was false. -/
def VerdictRight (env : RunEnv) : Prop :=
  ∃ status tr, sequentialRun env = some (status, tr) ∧ (status ≠ 0 ↔ false ∈ evals tr)

/-- The status is right exactly when nothing fails at all, or when a test fails
or the teardown does after some test, with fewer than `2 ^ 32` messages: the
counter behind the status is only raised while a test is current and passing. -/
theorem sequential_verdict (env : RunEnv) (rs : { l : List TestRec // l.length < 2 ^ 63 })
    (hjobs : env.jobs = 1) (hcollected : env.collected = some rs)
    (hmalloc : env.logMalloc 0 = true) (hre : ∀ n, env.realloc 0 n = true) :
    VerdictRight env ↔
      (allPass env.auxprocs.globalSetup ∧ TestsPass env rs ∧
        allPass env.auxprocs.globalTeardown) ∨
      ((¬ TestsPass env rs ∨ (rs.val ≠ [] ∧ ¬ allPass env.auxprocs.globalTeardown)) ∧
        (outcomes (evaluatedBy env rs)).count false < unsignedMod) := by
  obtain ⟨failed, tr, hle, hzero, hevals, hrun⟩ := @seqRunTests_eq env rs.val hmalloc hre
  have hseq : sequentialRun env = seqRunTests env rs := by
    rw [sequentialRun, if_neg (not_not.mpr hjobs), hcollected]
  have hfalse : false ∈ evals tr ↔ ¬ (allPass env.auxprocs.globalSetup ∧ TestsPass env rs ∧
      allPass env.auxprocs.globalTeardown) := by
    rw [hevals, ← testsFailed_iff, ← testsEvaluated_pass]
    simp only [evaluatedBy, allPass, List.all_eq_true, List.mem_map, List.mem_append,
      not_and_or, not_forall, exists_prop, Bool.not_eq_true]
    constructor
    · rintro ⟨a, (ha | ha) | ha, heval⟩
      · exact .inl ⟨a, ha, heval⟩
      · exact .inr (.inl ⟨a, ha, heval⟩)
      · exact .inr (.inr ⟨a, ha, heval⟩)
    · rintro (⟨a, ha, heval⟩ | ⟨a, ha, heval⟩ | ⟨a, ha, heval⟩)
      · exact ⟨a, .inl (.inl ha), heval⟩
      · exact ⟨a, .inl (.inr ha), heval⟩
      · exact ⟨a, .inr ha, heval⟩
  have hcast : (UInt64.ofNat failed) = 0 ↔ failed = 0 := by
    have := rs.property
    constructor
    · intro h
      have := congrArg UInt64.toNat h
      rw [UInt64.toNat_ofNat'] at this
      simp only [UInt64.toNat_zero] at this
      omega
    · rintro rfl
      rfl
  simp only [VerdictRight, hseq, hrun, hcast]
  by_cases hf : failed = 0
  · obtain ⟨htests, htd⟩ := hzero.mp hf
    simp only [if_pos hf, Option.some.injEq, Prod.mk.injEq]
    constructor
    · rintro ⟨status, tr', ⟨rfl, rfl⟩, hiff⟩
      have hclean : ¬ false ∈ evals tr := fun h => (hiff.mpr h) rfl
      exact .inl (not_not.mp (mt hfalse.mpr hclean))
    · rintro (hclean | ⟨hfail | ⟨hne, hfail⟩, -⟩)
      · refine ⟨0, tr, ⟨rfl, rfl⟩, ?_⟩
        simp [hfalse, hclean]
      · exact absurd htests hfail
      · exact absurd (htd.resolve_left hne) hfail
  · have hfail : ¬ TestsPass env rs ∨ (rs.val ≠ [] ∧ ¬ allPass env.auxprocs.globalTeardown) := by
      rw [hzero, not_and_or, not_or] at hf
      exact hf
    have hunclean : false ∈ evals tr := by
      rw [hfalse]
      rintro ⟨-, htests, htd⟩
      exact hfail.elim (fun h => h htests) fun h => h.2 htd
    simp only [if_neg hf]
    by_cases hfew : (outcomes (evaluatedBy env rs)).count false < unsignedMod
    · simp only [if_pos hfew, Option.some.injEq, Prod.mk.injEq]
      constructor
      · exact fun _ => .inr ⟨hfail, hfew⟩
      · exact fun _ => ⟨1, tr, ⟨rfl, rfl⟩, by simp [hunclean]⟩
    · simp only [if_neg hfew, reduceCtorEq, false_and, exists_false, false_iff]
      rintro (hclean | ⟨-, hfew'⟩)
      · exact hfalse.mp hunclean hclean
      · exact hfew hfew'

/-- One test that evaluates `evals`. -/
def oneTestEnv (setup evals teardown : List Bool) : RunEnv :=
  .ofTests 1 false (.global (setup.map .of) (teardown.map .of))
    [.plain [116] [102] (evals.map .of)] (by simp)

/-- The status of a run with a failing test is right. -/
theorem sequential_verdict_run : VerdictRight (oneTestEnv [] [true, false] []) := by
  refine (sequential_verdict (oneTestEnv [] [true, false] [])
    ⟨[.plain [116] [102] ([true, false].map .of)], by simp⟩ rfl rfl rfl fun _ => rfl).mpr
    (.inr ⟨.inl fun h => ?_, by decide⟩)
  exact absurd (h 0 (.plain [116] [102] ([true, false].map .of)) rfl) (by decide)

/-- A false assertion in the global setup leaves the status at 0. -/
theorem sequential_setup_failure_ignored : ¬ VerdictRight (oneTestEnv [false] [true] []) := by
  rintro ⟨status, tr, hrun, hiff⟩
  have hres : (sequentialRun (oneTestEnv [false] [true] [])).map
      (fun r => (r.1, decide (false ∈ evals r.2))) = some (0, true) := by decide +kernel
  rw [hrun] at hres
  obtain ⟨hstatus, hmem⟩ := Prod.mk.inj (Option.some.inj hres)
  exact hiff.mpr (of_decide_eq_true hmem) hstatus

end Cldm
