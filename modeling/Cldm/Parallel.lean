/-
The parallel driver: `cldm_parallel_run`, `cldm_parallel_collect_and_run` and
`cldm_thread_run`, as a transition system of `jobs` threads.

Thread 1 collects the tests, thread 0 is the master.  Every thread has a program
counter and its own test state; shared are what the collection writes (`Plan`),
`early_abort`, the counter of printed results and the lock that guards it.  One
step of the system is one step of one thread (`threadStep`), or the release of
the barrier once every thread is blocked there (`release`).

The initialisation of the barrier and of the locks and the creation of the
threads are taken to succeed, and a thread knows its number.

* `Step`, `ParRun` — the system and its runs;
* `Move` — the steps of a thread, one constructor for each, with their guards;
* `threadStep_move`, `step_cases` — every step is one of these, or a release.
-/
import Cldm.Algo
import Cldm.RunTrace
import Cldm.Trace
import Mathlib.Logic.Function.Basic

namespace Cldm

/-- Where `cldm_test_print` is called: in `cldm_test_schedule_print` for the
`i`-th test of the slice, or in `cldm_test_flush`. -/
inductive PrintCall
  | schedule (i : ℕ)
  | flush
  deriving DecidableEq

/-- The calls of `pthread_barrier_wait` in `cldm_thread_run`; the first one with
`init_successful`, the last one with the stride of the reduction. -/
inductive Barrier
  | setup (ok : Bool)
  | tests
  | reduce (i : ℕ)
  deriving DecidableEq

/-- The program counter of a thread with its local variables. -/
inductive Pc
  -- `cldm_parallel_collect_and_run`
  | collect
  | callSetup
  | globalSetup (k : ℕ)
  -- `cldm_thread_run`
  | init
  | arrive (b : Barrier)
  | blocked (b : Barrier)
  | loop (i : ℕ)
  | body (i k : ℕ)
  | schedule (i : ℕ)
  | store (i : ℕ)
  | setAbort
  | readAbort (i : ℕ)
  | lockIo (c : PrintCall)
  | print (c : PrintCall) (j : ℕ)
  | log (c : PrintCall) (j : ℕ)
  | reduce (i : ℕ)
  | load (i : ℕ)
  | add (i : ℕ) (v : Counters)
  | free
  | returned
  -- the rest of `cldm_parallel_run`
  | join
  | callTeardown
  | globalTeardown (k : ℕ)
  | summary
  | finish (status : ℕ)
  | done (status : ℕ)
  -- after the call of a null pointer, an access outside an array or in an
  -- endless loop
  | stuck
  deriving DecidableEq

/-- What the collection writes: the array `records`, `thread_ntests`,
`thread_startidx`, `auxprocs` and `io_total`. -/
structure Plan where
  records : ℕ → Option TestRec
  ntests : ℕ → ℕ
  startidx : ℕ → ℕ
  auxprocs : Option AuxProcs
  total : ℕ

/-- The shared variables. -/
structure Shared where
  plan : Plan
  earlyAbort : Bool
  ioIndex : ℕ
  ioLock : Option ℕ

/-- The state of a parallel run. -/
structure ParState where
  pc : ℕ → Pc
  tests : ℕ → TestState
  sh : Shared

/-- What a step of a thread changes. -/
structure Effect where
  event : Event
  pc : Pc
  tests : TestState
  sh : Shared

/-! ### The collection -/

/-- The loop that copies the tree into `records`; its index is an `unsigned`. -/
def copyRecords : ℕ → List TestRec → (ℕ → Option TestRec) → ℕ → Option TestRec
  | _, [], records => records
  | testidx, r :: rs, records =>
    copyRecords ((testidx + 1) % unsignedMod) rs (Function.update records testidx (some r))

attribute [grind =] copyRecords

/-- The number of tests of the thread `i`. -/
def sliceLength (ntests jobs i : ℕ) : ℕ :=
  ntests / jobs + if i < ntests % jobs then 1 else 0

/-- The loop that distributes the tests: the next start index and the plan. -/
def distribute (ntests jobs : ℕ) (plan : Plan) : ℕ × Plan :=
  (List.range jobs).foldl (fun s i =>
    (s.1 + sliceLength ntests jobs i, { s.2 with
      ntests := Function.update s.2.ntests i (sliceLength ntests jobs i)
      startidx := Function.update s.2.startidx i s.1 })) (0, plan)

/-- `cldm_parallel_collect_and_run` up to the global setup. -/
def collectPlan (env : RunEnv) (plan : Plan) : Pc × Plan :=
  match env.collected with
  | none =>
    (.init, { plan with ntests := fun i => if i < maxThreads then 0 else plan.ntests i })
  | some rs =>
    let plan := { plan with total := rs.val.length }
    if env.recordsMalloc then
      let plan := { plan with records := copyRecords 0 rs.val fun _ => none }
      (.callSetup, { (distribute rs.val.length env.jobs plan).2 with
        auxprocs := some env.auxprocs })
    else
      (.init, plan)

/-! ### The steps of a thread -/

section

variable (env : RunEnv) (s : ParState) (t : ℕ)

/-- The call of a null pointer, an access outside an array, or a loop that does
not end. -/
def ParState.stick : Effect := ⟨.stuck t, .stuck, s.tests t, s.sh⟩

/-- The program counter moves on. -/
def ParState.goto (pc : Pc) : Effect := ⟨.quiet t, pc, s.tests t, s.sh⟩

/-- The next assertion of a procedure is evaluated; at its end comes `after`. -/
def procStep (site : Site) (p : Proc) (k : ℕ) (next : Pc) (after : Pc) : Effect :=
  match p[k]? with
  | none => s.goto t after
  | some a =>
    match assertTrue (env.realloc t) a (s.tests t) with
    | none => s.stick t
    | some tests =>
      ⟨.evaluated t site a.eval (recordedMsg (s.tests t) tests), next, tests, s.sh⟩

/-- Where `cldm_thread_run` continues behind a barrier. -/
def afterBarrier : Barrier → Pc
  | .setup true => .loop 0
  | .setup false => if t = 0 then .join else .returned
  | .tests => .reduce (flp232 env.jobs)
  | .reduce i => .reduce (i >>> 1)

/-- The record of the `i`-th test of the thread. -/
def ParState.record (i : ℕ) : Option TestRec :=
  s.sh.plan.records (s.sh.plan.startidx t + i)

/-- Where the loop continues after the `i`-th test. -/
def afterTest (tests : TestState) (i : ℕ) : Pc :=
  if testVerdict env.failFast tests then
    if env.failFast then .readAbort i else .loop ((i + 1) % unsignedMod)
  else
    if env.failFast then .setAbort else .lockIo .flush

/-- Where `cldm_test_print` returns to. -/
def PrintCall.next : PrintCall → Pc
  | .schedule i => .store i
  | .flush => .arrive .tests

/-- What is left of the buffer. -/
def PrintCall.reset (c : PrintCall) (tests : TestState) : TestState :=
  match c with
  | .schedule _ => { tests with buffered := [] }
  | .flush => tests

/-- The counters at an index of `testlogs`, or of the memory behind it. -/
def ParState.counters (i : ℕ) : Counters :=
  if i < maxThreads then (s.tests i).log.counters else env.behind i

/-- All other threads have returned. -/
def ParState.othersReturned : Bool :=
  (List.range env.jobs).all fun u => u == 0 || s.pc u == .returned

/-- One step of the thread `t`; `none` where it has to wait or has ended. -/
def threadStep : Option Effect :=
  match s.pc t with
  | .collect =>
    let (pc, plan) := collectPlan env s.sh.plan
    some ⟨.quiet t, pc, s.tests t, { s.sh with plan := plan }⟩
  | .callSetup =>
    match s.sh.plan.auxprocs with
    | some _ => some ⟨.invoked t .globalSetup, .globalSetup 0, s.tests t, s.sh⟩
    | none => some (s.stick t)
  | .globalSetup k =>
    match s.sh.plan.auxprocs with
    | some aux =>
      some (procStep env s t .globalSetup aux.globalSetup k (.globalSetup (k + 1)) .init)
    | none => some (s.stick t)
  | .init =>
    let (ok, tests) := testInit t (env.logMalloc t) env.mutexInit (s.tests t)
    some ⟨.quiet t, .arrive (.setup ok), tests, s.sh⟩
  | .arrive b => some ⟨.waits t, .blocked b, s.tests t, s.sh⟩
  | .blocked _ => none
  | .loop i =>
    if i < s.sh.plan.ntests t then
      match s.record t i with
      | some r =>
        some ⟨.started t (s.sh.plan.startidx t + i), .body i 0, testBegin r (s.tests t), s.sh⟩
      | none => some (s.stick t)
    else
      some (s.goto t (.lockIo .flush))
  | .body i k =>
    match s.record t i, s.sh.plan.auxprocs with
    | some r, some aux =>
      some (procStep env s t .test (testProc aux (s.sh.plan.startidx t + i) r) k
        (.body i (k + 1)) (.schedule i))
    | _, _ => some (s.stick t)
  | .schedule i =>
    if testbufferSize ≤ (s.tests t).buffered.length then
      some (s.goto t (.lockIo (.schedule i)))
    else
      some (s.goto t (.store i))
  | .store i =>
    match s.record t i with
    | some r =>
      let tests := testStore r.file (s.tests t)
      some ⟨.ended t ((s.tests t).result r.file), afterTest env tests i, tests, s.sh⟩
    | none => some (s.stick t)
  | .setAbort =>
    some ⟨.aborted t, .lockIo .flush, s.tests t, { s.sh with earlyAbort := true }⟩
  | .readAbort i =>
    some (s.goto t (if s.sh.earlyAbort then .lockIo .flush else .loop ((i + 1) % unsignedMod)))
  | .lockIo c =>
    match s.sh.ioLock with
    | none => some ⟨.quiet t, .print c 0, s.tests t, { s.sh with ioLock := some t }⟩
    | some _ => none
  | .print c j =>
    if j < (s.tests t).buffered.length then
      some ⟨.quiet t, .log c j, s.tests t, { s.sh with ioIndex := s.sh.ioIndex + 1 }⟩
    else
      some ⟨.quiet t, c.next, c.reset (s.tests t), { s.sh with ioLock := none }⟩
  | .log c j =>
    match (s.tests t).buffered[j]? with
    | some e => some ⟨.printed t s.sh.ioIndex e, .print c (j + 1), s.tests t, s.sh⟩
    | none => some (s.stick t)
  | .reduce i =>
    if i = 0 then
      some (s.goto t (if t = 0 then .join else .free))
    else if t < i then
      some (s.goto t (.load i))
    else
      some (s.goto t (.arrive (.reduce i)))
  | .load i => some ⟨.reads t (t + i), .add i (s.counters env (t + i)), s.tests t, s.sh⟩
  | .add i v =>
    some ⟨.writes t t, .arrive (.reduce i),
      { s.tests t with log.counters := (s.tests t).log.counters + v }, s.sh⟩
  | .free => some ⟨.freed t, .returned, testFree (s.tests t), s.sh⟩
  | .returned => none
  | .join => if s.othersReturned env then some (s.goto t .callTeardown) else none
  | .callTeardown =>
    match s.sh.plan.auxprocs with
    | some _ => some ⟨.invoked t .globalTeardown, .globalTeardown 0, s.tests t, s.sh⟩
    | none => some (s.stick t)
  | .globalTeardown k =>
    match s.sh.plan.auxprocs with
    | some aux =>
      some (procStep env s t .globalTeardown aux.globalTeardown k (.globalTeardown (k + 1))
        .summary)
    | none => some (s.stick t)
  | .summary =>
    match testSummary env.jobs (fun u => (s.tests u).log) s.sh.plan.total with
    | some (status, report) => some ⟨.reported t report, .finish status, s.tests t, s.sh⟩
    | none => some (s.stick t)
  | .finish status => some ⟨.freed t, .done status, testFree (s.tests t), s.sh⟩
  | .done _ => none
  | .stuck => none

end

/-! ### The system -/

/-- The state after a step of the thread `t`. -/
def ParState.act (s : ParState) (t : ℕ) (f : Effect) : ParState where
  pc := Function.update s.pc t f.pc
  tests := Function.update s.tests t f.tests
  sh := f.sh

/-- Where a thread is when the barrier is released; only for blocked threads. -/
def releasedPc (env : RunEnv) (t : ℕ) : Pc → Pc
  | .blocked b => afterBarrier env t b
  | pc => pc

def Pc.isBlocked : Pc → Bool
  | .blocked _ => true
  | _ => false

/-- All threads go on behind the barrier. -/
def ParState.passBarrier (env : RunEnv) (s : ParState) : ParState :=
  { s with pc := fun t => if t < env.jobs then releasedPc env t (s.pc t) else s.pc t }

/-- The barrier is released once all its threads have called
`pthread_barrier_wait`. -/
def release (env : RunEnv) (s : ParState) : Option ParState :=
  if (List.range env.jobs).all fun t => (s.pc t).isBlocked then some (s.passBarrier env) else none

/-- The start of a run. -/
def ParState.initial : ParState where
  pc := fun t => if t = 1 then .collect else .init
  tests := fun _ => .static
  sh := ⟨⟨fun _ => none, fun _ => 0, fun _ => 0, none, 0⟩, false, 0, none⟩

/-- A step of the system for a scheduler's choice: a thread, or the barrier. -/
def parNext (env : RunEnv) (s : ParState) : Option ℕ → Option (Event × ParState)
  | some t => if t < env.jobs then (threadStep env s t).map fun f => (f.event, s.act t f) else none
  | none => (release env s).map fun s' => (.released, s')

/-- A step of the system. -/
def Step (env : RunEnv) (s : ParState) (e : Event) (s' : ParState) : Prop :=
  ∃ choice, parNext env s choice = some (e, s')

/-- A run from the start. -/
abbrev ParRun (env : RunEnv) : List Event → ParState → Prop :=
  Trace.Run (Step env) .initial

/-! ### The moves of a thread -/

/-- Where a thread can get stuck. -/
def Pc.canStick : Pc → Bool
  | .callSetup | .globalSetup _ | .loop _ | .body _ _ | .store _ | .log _ _ | .callTeardown
  | .globalTeardown _ | .summary => true
  | _ => false

/-- The steps of the thread `t`, with what holds where they are taken. -/
inductive Move (env : RunEnv) (s : ParState) (t : ℕ) : Effect → Prop
  | collect (h : s.pc t = .collect) :
      Move env s t ⟨.quiet t, (collectPlan env s.sh.plan).1, s.tests t,
        { s.sh with plan := (collectPlan env s.sh.plan).2 }⟩
  | callSetup {aux : AuxProcs} (h : s.pc t = .callSetup) (haux : s.sh.plan.auxprocs = some aux) :
      Move env s t ⟨.invoked t .globalSetup, .globalSetup 0, s.tests t, s.sh⟩
  | setupEval {aux : AuxProcs} {k : ℕ} {a : Assertion} {tests : TestState}
      (h : s.pc t = .globalSetup k) (haux : s.sh.plan.auxprocs = some aux)
      (ha : aux.globalSetup[k]? = some a)
      (heval : assertTrue (env.realloc t) a (s.tests t) = some tests) :
      Move env s t ⟨.evaluated t .globalSetup a.eval (recordedMsg (s.tests t) tests),
        .globalSetup (k + 1), tests, s.sh⟩
  | setupDone {k : ℕ} (h : s.pc t = .globalSetup k) : Move env s t (s.goto t .init)
  | init (h : s.pc t = .init) :
      Move env s t ⟨.quiet t,
        .arrive (.setup (testInit t (env.logMalloc t) env.mutexInit (s.tests t)).1),
        (testInit t (env.logMalloc t) env.mutexInit (s.tests t)).2, s.sh⟩
  | arrive {b : Barrier} (h : s.pc t = .arrive b) :
      Move env s t ⟨.waits t, .blocked b, s.tests t, s.sh⟩
  | loopStart {i : ℕ} {r : TestRec} (h : s.pc t = .loop i) (hi : i < s.sh.plan.ntests t)
      (hr : s.record t i = some r) :
      Move env s t ⟨.started t (s.sh.plan.startidx t + i), .body i 0, testBegin r (s.tests t), s.sh⟩
  | loopEnd {i : ℕ} (h : s.pc t = .loop i) (hi : s.sh.plan.ntests t ≤ i) :
      Move env s t (s.goto t (.lockIo .flush))
  | testEval {i k : ℕ} {r : TestRec} {aux : AuxProcs} {a : Assertion} {tests : TestState}
      (h : s.pc t = .body i k) (hr : s.record t i = some r)
      (haux : s.sh.plan.auxprocs = some aux)
      (ha : (testProc aux (s.sh.plan.startidx t + i) r)[k]? = some a)
      (heval : assertTrue (env.realloc t) a (s.tests t) = some tests) :
      Move env s t ⟨.evaluated t .test a.eval (recordedMsg (s.tests t) tests), .body i (k + 1),
        tests, s.sh⟩
  | testDone {i k : ℕ} {r : TestRec} {aux : AuxProcs} (h : s.pc t = .body i k)
      (hr : s.record t i = some r) (haux : s.sh.plan.auxprocs = some aux)
      (hk : (testProc aux (s.sh.plan.startidx t + i) r).length ≤ k) :
      Move env s t (s.goto t (.schedule i))
  | scheduleFull {i : ℕ} (h : s.pc t = .schedule i)
      (hfull : testbufferSize ≤ (s.tests t).buffered.length) :
      Move env s t (s.goto t (.lockIo (.schedule i)))
  | scheduleRoom {i : ℕ} (h : s.pc t = .schedule i)
      (hroom : (s.tests t).buffered.length < testbufferSize) :
      Move env s t (s.goto t (.store i))
  | store {i : ℕ} {r : TestRec} (h : s.pc t = .store i) (hr : s.record t i = some r) :
      Move env s t ⟨.ended t ((s.tests t).result r.file),
        afterTest env (testStore r.file (s.tests t)) i, testStore r.file (s.tests t), s.sh⟩
  | setAbort (h : s.pc t = .setAbort) :
      Move env s t ⟨.aborted t, .lockIo .flush, s.tests t, { s.sh with earlyAbort := true }⟩
  | readAbort {i : ℕ} (h : s.pc t = .readAbort i) :
      Move env s t
        (s.goto t (if s.sh.earlyAbort then .lockIo .flush else .loop ((i + 1) % unsignedMod)))
  | lockIo {c : PrintCall} (h : s.pc t = .lockIo c) (hlock : s.sh.ioLock = none) :
      Move env s t ⟨.quiet t, .print c 0, s.tests t, { s.sh with ioLock := some t }⟩
  | printNext {c : PrintCall} {j : ℕ} (h : s.pc t = .print c j)
      (hj : j < (s.tests t).buffered.length) :
      Move env s t ⟨.quiet t, .log c j, s.tests t, { s.sh with ioIndex := s.sh.ioIndex + 1 }⟩
  | printDone {c : PrintCall} {j : ℕ} (h : s.pc t = .print c j)
      (hj : (s.tests t).buffered.length ≤ j) :
      Move env s t ⟨.quiet t, c.next, c.reset (s.tests t), { s.sh with ioLock := none }⟩
  | log {c : PrintCall} {j : ℕ} {e : BufferedTest} (h : s.pc t = .log c j)
      (he : (s.tests t).buffered[j]? = some e) :
      Move env s t ⟨.printed t s.sh.ioIndex e, .print c (j + 1), s.tests t, s.sh⟩
  | reduceEnd (h : s.pc t = .reduce 0) : Move env s t (s.goto t (if t = 0 then .join else .free))
  | reduceLoad {i : ℕ} (h : s.pc t = .reduce i) (hi : i ≠ 0) (ht : t < i) :
      Move env s t (s.goto t (.load i))
  | reduceSkip {i : ℕ} (h : s.pc t = .reduce i) (hi : i ≠ 0) (ht : i ≤ t) :
      Move env s t (s.goto t (.arrive (.reduce i)))
  | load {i : ℕ} (h : s.pc t = .load i) :
      Move env s t ⟨.reads t (t + i), .add i (s.counters env (t + i)), s.tests t, s.sh⟩
  | add {i : ℕ} {v : Counters} (h : s.pc t = .add i v) :
      Move env s t ⟨.writes t t, .arrive (.reduce i),
        { s.tests t with log.counters := (s.tests t).log.counters + v }, s.sh⟩
  | free (h : s.pc t = .free) : Move env s t ⟨.freed t, .returned, testFree (s.tests t), s.sh⟩
  | join (h : s.pc t = .join) (hothers : s.othersReturned env = true) :
      Move env s t (s.goto t .callTeardown)
  | callTeardown {aux : AuxProcs} (h : s.pc t = .callTeardown)
      (haux : s.sh.plan.auxprocs = some aux) :
      Move env s t ⟨.invoked t .globalTeardown, .globalTeardown 0, s.tests t, s.sh⟩
  | teardownEval {aux : AuxProcs} {k : ℕ} {a : Assertion} {tests : TestState}
      (h : s.pc t = .globalTeardown k) (haux : s.sh.plan.auxprocs = some aux)
      (ha : aux.globalTeardown[k]? = some a)
      (heval : assertTrue (env.realloc t) a (s.tests t) = some tests) :
      Move env s t ⟨.evaluated t .globalTeardown a.eval (recordedMsg (s.tests t) tests),
        .globalTeardown (k + 1), tests, s.sh⟩
  | teardownDone {k : ℕ} (h : s.pc t = .globalTeardown k) : Move env s t (s.goto t .summary)
  | summary {status : ℕ} {report : Summary} (h : s.pc t = .summary)
      (hreport : testSummary env.jobs (fun u => (s.tests u).log) s.sh.plan.total =
        some (status, report)) :
      Move env s t ⟨.reported t report, .finish status, s.tests t, s.sh⟩
  | finish {status : ℕ} (h : s.pc t = .finish status) :
      Move env s t ⟨.freed t, .done status, testFree (s.tests t), s.sh⟩
  | stuck (h : (s.pc t).canStick = true) : Move env s t (s.stick t)

/-- The ways in which a procedure goes on. -/
theorem procStep_cases (env : RunEnv) (s : ParState) (t : ℕ) (site : Site) (p : Proc) (k : ℕ)
    (next after : Pc) :
    (∃ a tests, p[k]? = some a ∧ assertTrue (env.realloc t) a (s.tests t) = some tests ∧
      procStep env s t site p k next after =
        ⟨.evaluated t site a.eval (recordedMsg (s.tests t) tests), next, tests, s.sh⟩) ∨
    (p.length ≤ k ∧ procStep env s t site p k next after = s.goto t after) ∨
    procStep env s t site p k next after = s.stick t := by
  unfold procStep
  cases hk : p[k]? with
  | none => exact .inr (.inl ⟨List.getElem?_eq_none_iff.mp hk, rfl⟩)
  | some a =>
    cases htests : assertTrue (env.realloc t) a (s.tests t) with
    | none => exact .inr (.inr (by simp only [htests]))
    | some tests => exact .inl ⟨a, tests, rfl, htests, by simp only [htests]⟩

/-- Every step of a thread is one of the moves. -/
theorem threadStep_move {env : RunEnv} {s : ParState} {t : ℕ} {f : Effect}
    (h : threadStep env s t = some f) : Move env s t f := by
  have hstick : ∀ pc, s.pc t = pc → pc.canStick = true → f = s.stick t → Move env s t f := by
    rintro pc hpc hcan rfl
    exact .stuck (hpc ▸ hcan)
  cases hpc : s.pc t with
  | collect =>
    simp only [threadStep, hpc, Option.some.injEq] at h
    exact h ▸ .collect hpc
  | callSetup =>
    simp only [threadStep, hpc] at h
    cases haux : s.sh.plan.auxprocs with
    | none => exact hstick _ hpc rfl (Option.some.inj (by simpa only [haux] using h)).symm
    | some aux => exact Option.some.inj (by simpa only [haux] using h) ▸ .callSetup hpc haux
  | globalSetup k =>
    simp only [threadStep, hpc] at h
    cases haux : s.sh.plan.auxprocs with
    | none => exact hstick _ hpc rfl (Option.some.inj (by simpa only [haux] using h)).symm
    | some aux =>
      have hf := Option.some.inj (by simpa only [haux] using h)
      rcases procStep_cases env s t .globalSetup aux.globalSetup k (.globalSetup (k + 1)) .init with
        ⟨a, tests, ha, htests, heq⟩ | ⟨-, heq⟩ | heq
      · exact (hf.symm.trans heq) ▸ .setupEval hpc haux ha htests
      · exact (hf.symm.trans heq) ▸ .setupDone hpc
      · exact hstick _ hpc rfl (hf.symm.trans heq)
  | init =>
    simp only [threadStep, hpc, Option.some.injEq] at h
    exact h ▸ .init hpc
  | arrive b =>
    simp only [threadStep, hpc, Option.some.injEq] at h
    exact h ▸ .arrive hpc
  | blocked b => exact absurd h (by simp [threadStep, hpc])
  | loop i =>
    simp only [threadStep, hpc] at h
    by_cases hi : i < s.sh.plan.ntests t
    · rw [if_pos hi] at h
      cases hr : s.record t i with
      | none => exact hstick _ hpc rfl (Option.some.inj (by simpa only [hr] using h)).symm
      | some r => exact Option.some.inj (by simpa only [hr] using h) ▸ .loopStart hpc hi hr
    · rw [if_neg hi] at h
      exact Option.some.inj h ▸ .loopEnd hpc (by omega)
  | body i k =>
    simp only [threadStep, hpc] at h
    cases hr : s.record t i with
    | none => exact hstick _ hpc rfl (Option.some.inj (by simpa only [hr] using h)).symm
    | some r =>
      cases haux : s.sh.plan.auxprocs with
      | none => exact hstick _ hpc rfl (Option.some.inj (by simpa only [hr, haux] using h)).symm
      | some aux =>
        have hf := Option.some.inj (by simpa only [hr, haux] using h)
        rcases procStep_cases env s t .test (testProc aux (s.sh.plan.startidx t + i) r) k
          (.body i (k + 1)) (.schedule i) with ⟨a, tests, ha, htests, heq⟩ | ⟨hk, heq⟩ | heq
        · exact (hf.symm.trans heq) ▸ .testEval hpc hr haux ha htests
        · exact (hf.symm.trans heq) ▸ .testDone hpc hr haux hk
        · exact hstick _ hpc rfl (hf.symm.trans heq)
  | schedule i =>
    simp only [threadStep, hpc] at h
    by_cases hfull : testbufferSize ≤ (s.tests t).buffered.length
    · rw [if_pos hfull] at h
      exact Option.some.inj h ▸ .scheduleFull hpc hfull
    · rw [if_neg hfull] at h
      exact Option.some.inj h ▸ .scheduleRoom hpc (by omega)
  | store i =>
    simp only [threadStep, hpc] at h
    cases hr : s.record t i with
    | none => exact hstick _ hpc rfl (Option.some.inj (by simpa only [hr] using h)).symm
    | some r => exact Option.some.inj (by simpa only [hr] using h) ▸ .store hpc hr
  | setAbort =>
    simp only [threadStep, hpc, Option.some.injEq] at h
    exact h ▸ .setAbort hpc
  | readAbort i =>
    simp only [threadStep, hpc, Option.some.injEq] at h
    exact h ▸ .readAbort hpc
  | lockIo c =>
    simp only [threadStep, hpc] at h
    cases hlock : s.sh.ioLock with
    | some u => exact absurd h (by simp [hlock])
    | none => exact Option.some.inj (by simpa only [hlock] using h) ▸ .lockIo hpc hlock
  | print c j =>
    simp only [threadStep, hpc] at h
    by_cases hj : j < (s.tests t).buffered.length
    · rw [if_pos hj] at h
      exact Option.some.inj h ▸ .printNext hpc hj
    · rw [if_neg hj] at h
      exact Option.some.inj h ▸ .printDone hpc (by omega)
  | log c j =>
    simp only [threadStep, hpc] at h
    cases he : (s.tests t).buffered[j]? with
    | none => exact hstick _ hpc rfl (Option.some.inj (by simpa only [he] using h)).symm
    | some e => exact Option.some.inj (by simpa only [he] using h) ▸ .log hpc he
  | reduce i =>
    simp only [threadStep, hpc] at h
    by_cases hi : i = 0
    · rw [if_pos hi] at h
      exact Option.some.inj h ▸ .reduceEnd (hi ▸ hpc)
    · rw [if_neg hi] at h
      by_cases ht : t < i
      · rw [if_pos ht] at h
        exact Option.some.inj h ▸ .reduceLoad hpc hi ht
      · rw [if_neg ht] at h
        exact Option.some.inj h ▸ .reduceSkip hpc hi (by omega)
  | load i =>
    simp only [threadStep, hpc, Option.some.injEq] at h
    exact h ▸ .load hpc
  | add i v =>
    simp only [threadStep, hpc, Option.some.injEq] at h
    exact h ▸ .add hpc
  | free =>
    simp only [threadStep, hpc, Option.some.injEq] at h
    exact h ▸ .free hpc
  | returned => exact absurd h (by simp [threadStep, hpc])
  | join =>
    simp only [threadStep, hpc] at h
    by_cases hothers : s.othersReturned env = true
    · rw [if_pos hothers] at h
      exact Option.some.inj h ▸ .join hpc hothers
    · rw [if_neg hothers] at h
      exact absurd h (by simp)
  | callTeardown =>
    simp only [threadStep, hpc] at h
    cases haux : s.sh.plan.auxprocs with
    | none => exact hstick _ hpc rfl (Option.some.inj (by simpa only [haux] using h)).symm
    | some aux => exact Option.some.inj (by simpa only [haux] using h) ▸ .callTeardown hpc haux
  | globalTeardown k =>
    simp only [threadStep, hpc] at h
    cases haux : s.sh.plan.auxprocs with
    | none => exact hstick _ hpc rfl (Option.some.inj (by simpa only [haux] using h)).symm
    | some aux =>
      have hf := Option.some.inj (by simpa only [haux] using h)
      rcases procStep_cases env s t .globalTeardown aux.globalTeardown k (.globalTeardown (k + 1))
        .summary with ⟨a, tests, ha, htests, heq⟩ | ⟨-, heq⟩ | heq
      · exact (hf.symm.trans heq) ▸ .teardownEval hpc haux ha htests
      · exact (hf.symm.trans heq) ▸ .teardownDone hpc
      · exact hstick _ hpc rfl (hf.symm.trans heq)
  | summary =>
    simp only [threadStep, hpc] at h
    cases hrep : testSummary env.jobs (fun u => (s.tests u).log) s.sh.plan.total with
    | none => exact hstick _ hpc rfl (Option.some.inj (by simpa only [hrep] using h)).symm
    | some r => exact Option.some.inj (by simpa only [hrep] using h) ▸ .summary hpc hrep
  | finish status =>
    simp only [threadStep, hpc, Option.some.injEq] at h
    exact h ▸ .finish hpc
  | done status => exact absurd h (by simp [threadStep, hpc])
  | stuck => exact absurd h (by simp [threadStep, hpc])

/-- A step of the system is a move of a thread or the release of the barrier. -/
theorem step_cases {env : RunEnv} {s s' : ParState} {e : Event} (h : Step env s e s') :
    (∃ t f, t < env.jobs ∧ Move env s t f ∧ e = f.event ∧ s' = s.act t f) ∨
    (e = .released ∧ (∀ t < env.jobs, (s.pc t).isBlocked = true) ∧ s' = s.passBarrier env) := by
  obtain ⟨_ | t, h⟩ := h
  · simp only [parNext, release] at h
    split at h
    · rename_i hall
      obtain ⟨rfl, rfl⟩ := Prod.mk.inj (Option.some.inj h)
      refine .inr ⟨rfl, fun t ht => ?_, rfl⟩
      exact List.all_eq_true.mp hall t (List.mem_range.mpr ht)
    · exact absurd h (by simp)
  · simp only [parNext] at h
    by_cases ht : t < env.jobs
    · rw [if_pos ht, Option.map_eq_some_iff] at h
      obtain ⟨f, hf, heq⟩ := h
      obtain ⟨rfl, rfl⟩ := Prod.mk.inj heq
      exact .inl ⟨t, f, ht, threadStep_move hf, rfl, rfl⟩
    · rw [if_neg ht] at h
      exact absurd h (by simp)

end Cldm
