/-
Every parallel run comes to an end.

`workLeft w c env t pc` bounds what the thread `t` still does from `pc` on, where
an assertion with the outcome `b` costs `w b` and every other step costs `c`.
With `w = 1` and `c = 1` it counts steps, with `c = 0` assertions; every step of
the thread is paid from it (`workLeft_move`), and so is every release of the
barrier (`workLeft_released`).

`Ready env s t` says that what the next step of the thread reads is there: a
ready thread does not get stuck.  When the allocations succeed and the global
setup passes, every thread of every reachable state is ready (`ready_run`).

* `steps_run` — a run has at most `runBound env` steps;
* `failures_run` — a log has at most the messages of the assertions that are false;
* `notStuck_run` — no thread gets stuck;
* `progress_of_run` — where nobody can move, the run has ended;
* `parallel_run_completes` — so every run ends, in any order of the steps.
-/
import Cldm.ParallelPrint
import Cldm.ParallelRun
import Mathlib.Algebra.BigOperators.Intervals

namespace Cldm

/-! ### What is left of a thread -/

/-- What the assertions of a procedure cost. -/
def procWork (w : Bool → ℕ) (p : Proc) : ℕ := (p.map fun a => w a.eval).sum

theorem procWork_drop {w : Bool → ℕ} {p : Proc} {k : ℕ} {a : Assertion} (h : p[k]? = some a) :
    procWork w (p.drop k) = w a.eval + procWork w (p.drop (k + 1)) := by
  obtain ⟨hk, rfl⟩ := List.getElem?_eq_some_iff.mp h
  rw [List.drop_eq_getElem_cons hk]
  exact List.sum_cons

/-- What is evaluated for the record `idx` of the collected plan. -/
def recordProc (env : RunEnv) (idx : ℕ) : Proc :=
  match (finalPlan env).records idx with
  | some r => testProc env.auxprocs idx r
  | none => []

/-- A test costs its assertions and the 39 steps around them: its start and end,
a buffer of 16 results that is printed, and the two looks at `early_abort`. -/
def testWork (w : Bool → ℕ) (c : ℕ) (env : RunEnv) (t i : ℕ) : ℕ :=
  procWork w (recordProc env (slot env t i)) + c * 39

/-- The tests of the slice from the `i`-th on. -/
def loopWork (w : Bool → ℕ) (c : ℕ) (env : RunEnv) (t i : ℕ) : ℕ :=
  ∑ j ∈ Finset.Ico i ((finalPlan env).ntests t), testWork w c env t j

/-- From `pthread_join` on; only thread 0 gets there. -/
def joinWork (w : Bool → ℕ) (c : ℕ) (env : RunEnv) : ℕ :=
  procWork w env.auxprocs.globalTeardown + c * 5

/-- From the reduction with the stride `i` on. -/
def reduceWork (w : Bool → ℕ) (c : ℕ) (env : RunEnv) (i : ℕ) : ℕ :=
  c * (5 * i) + c + joinWork w c env

/-- From the end of the loop over the tests on: 38 steps for the last printing. -/
def flushWork (w : Bool → ℕ) (c : ℕ) (env : RunEnv) : ℕ :=
  c * 38 + reduceWork w c env (flp232 env.jobs)

/-- What the thread `t` still does from a program counter on. -/
def workLeft (w : Bool → ℕ) (c : ℕ) (env : RunEnv) (t : ℕ) : Pc → ℕ
  | .collect =>
    c * 6 + procWork w env.auxprocs.globalSetup + loopWork w c env t 0 + flushWork w c env
  | .callSetup =>
    c * 5 + procWork w env.auxprocs.globalSetup + loopWork w c env t 0 + flushWork w c env
  | .globalSetup k =>
    c * 4 + procWork w (env.auxprocs.globalSetup.drop k) + loopWork w c env t 0 +
      flushWork w c env
  | .init => c * 3 + loopWork w c env t 0 + flushWork w c env
  | .arrive (.setup _) => c * 2 + loopWork w c env t 0 + flushWork w c env
  | .blocked (.setup _) => c + loopWork w c env t 0 + flushWork w c env
  | .loop i => loopWork w c env t i + flushWork w c env
  | .body i k =>
    c * 38 + procWork w ((recordProc env (slot env t i)).drop k) + loopWork w c env t (i + 1) +
      flushWork w c env
  | .schedule i => c * 37 + loopWork w c env t (i + 1) + flushWork w c env
  | .lockIo (.schedule i) => c * 36 + loopWork w c env t (i + 1) + flushWork w c env
  | .print (.schedule i) j =>
    c * (2 * (testbufferSize - j) + 3) + loopWork w c env t (i + 1) + flushWork w c env
  | .log (.schedule i) j =>
    c * (2 * (testbufferSize - j) + 2) + loopWork w c env t (i + 1) + flushWork w c env
  | .store i => c * 2 + loopWork w c env t (i + 1) + flushWork w c env
  | .readAbort i => c + loopWork w c env t (i + 1) + flushWork w c env
  | .setAbort => flushWork w c env
  | .lockIo .flush => c * 37 + reduceWork w c env (flp232 env.jobs)
  | .print .flush j =>
    c * (2 * (testbufferSize - j) + 3) + reduceWork w c env (flp232 env.jobs)
  | .log .flush j => c * (2 * (testbufferSize - j) + 2) + reduceWork w c env (flp232 env.jobs)
  | .arrive .tests => c * 2 + reduceWork w c env (flp232 env.jobs)
  | .blocked .tests => c + reduceWork w c env (flp232 env.jobs)
  | .reduce i => reduceWork w c env i
  | .load i => c * (5 * i) + joinWork w c env
  | .add i _ => c * (5 * i - 1) + joinWork w c env
  | .arrive (.reduce i) => c * (5 * i - 2) + joinWork w c env
  | .blocked (.reduce i) => c * (5 * i - 3) + joinWork w c env
  | .free => c
  | .join => joinWork w c env
  | .callTeardown => c * 4 + procWork w env.auxprocs.globalTeardown
  | .globalTeardown k => c * 3 + procWork w (env.auxprocs.globalTeardown.drop k)
  | .summary => c * 2
  | .finish _ => c
  | .returned | .done _ | .stuck => 0

/-- What an event costs. -/
def Event.cost (w : Bool → ℕ) (c : ℕ) : Event → ℕ
  | .evaluated _ _ b _ => w b
  | _ => c

section

variable {w : Bool → ℕ} {c : ℕ} {env : RunEnv} {t : ℕ}

theorem loopWork_next {i : ℕ} (hi : i < (finalPlan env).ntests t) :
    loopWork w c env t i = testWork w c env t i + loopWork w c env t (i + 1) :=
  Finset.sum_eq_sum_Ico_succ_bot hi _

theorem recordProc_eq {idx : ℕ} {r : TestRec} (hr : (finalPlan env).records idx = some r) :
    recordProc env idx = testProc env.auxprocs idx r := by
  rw [recordProc, hr]

theorem joinWork_le_flushWork : joinWork w c env + c * 39 ≤ flushWork w c env := by
  unfold flushWork reduceWork
  have := Nat.zero_le (c * (5 * flp232 env.jobs))
  omega

/-- Where a thread can get stuck it still has a step to do. -/
theorem le_workLeft_of_canStick {pc : Pc} (h : pc.canStick = true) :
    c ≤ workLeft w c env t pc := by
  have hflush : joinWork w c env + c * 39 ≤ flushWork w c env := joinWork_le_flushWork
  cases pc with
  | callSetup | globalSetup _ | loop _ | body _ _ | store _ | callTeardown | globalTeardown _
  | summary =>
    simp only [workLeft]
    omega
  | log call j =>
    have hmul : c * 1 ≤ c * (2 * (testbufferSize - j) + 2) := Nat.mul_le_mul_left c (by omega)
    cases call <;> simp only [workLeft] <;> omega
  | _ => exact absurd h (by simp [Pc.canStick])

/-- Every move is paid from what is left of its thread. -/
theorem workLeft_move {s : ParState} {g : ℕ} {f : Effect} {tr : List Event}
    (hphase : PhaseOk env g t (s.pc t)) (hplan : 1 ≤ g → s.sh.plan = finalPlan env)
    (haux : ∀ aux, s.sh.plan.auxprocs = some aux → aux = env.auxprocs)
    (hslice : InSlice env t (s.pc t) tr) (hn : (finalPlan env).ntests t < unsignedMod)
    (hsize : (s.tests t).buffered.length ≤ testbufferSize) (hmove : Move env s t f) :
    f.event.cost w c + workLeft w c env t f.pc ≤ workLeft w c env t (s.pc t) := by
  have hflush : joinWork w c env + c * 39 ≤ flushWork w c env := joinWork_le_flushWork
  -- the index of the loop does not wrap around
  have hwrap : ∀ i, (s.pc t).position? = some (i + 1) → (i + 1) % unsignedMod = i + 1 := by
    intro i hpos
    have hi := hslice.position _ hpos
    have hle := hslice.le
    exact Nat.mod_eq_of_lt (by omega)
  cases hmove with
  | collect hpc =>
    rw [hpc]
    show c + workLeft w c env t (collectPlan env s.sh.plan).1 ≤ _
    rcases collectPlan_pc env s.sh.plan with hnext | hnext
    · rw [hnext]
      simp only [workLeft]
      omega
    · rw [hnext]
      simp only [workLeft]
      omega
  | callSetup hpc _ =>
    rw [hpc]
    simp only [workLeft, Event.cost, List.drop_zero]
    omega
  | setupEval hpc hsome ha _ =>
    rw [haux _ hsome] at ha
    rw [hpc]
    simp only [workLeft, Event.cost, procWork_drop ha]
    omega
  | setupDone hpc | init hpc =>
    rw [hpc]
    simp only [workLeft, Event.cost, ParState.goto]
    omega
  | @arrive b hpc =>
    rw [hpc] at hphase ⊢
    cases b with
    | setup ok =>
      simp only [workLeft, Event.cost]
      omega
    | tests =>
      simp only [workLeft, Event.cost]
      omega
    | reduce i =>
      obtain ⟨-, -, hne⟩ := hphase
      have hmul : c * (5 * i - 2) = c * (5 * i - 3) + c := by
        rw [← Nat.mul_succ]
        congr 1
        omega
      simp only [workLeft, Event.cost, hmul]
      omega
  | @loopStart i r hpc hi hr =>
    rw [hpc] at hphase
    have hg := hphase.1.ge
    rw [hplan hg] at hi
    have hr' : (finalPlan env).records (slot env t i) = some r := by
      rw [ParState.record, hplan hg] at hr
      exact hr
    rw [hpc]
    simp only [workLeft, Event.cost, List.drop_zero, loopWork_next hi, testWork]
    omega
  | loopEnd hpc _ =>
    rw [hpc]
    simp only [workLeft, Event.cost, ParState.goto, flushWork]
    omega
  | @testEval i k r aux a tests hpc hr hsome ha _ =>
    rw [hpc] at hphase
    have hg := hphase.1.ge
    have hr' : (finalPlan env).records (slot env t i) = some r := by
      rw [ParState.record, hplan hg] at hr
      exact hr
    rw [haux _ hsome, hplan hg] at ha
    have ha' : (recordProc env (slot env t i))[k]? = some a := by
      rw [recordProc_eq hr']
      exact ha
    rw [hpc]
    simp only [workLeft, Event.cost, procWork_drop ha']
    omega
  | testDone hpc _ _ _ | scheduleFull hpc _ | scheduleRoom hpc _ | setAbort hpc =>
    rw [hpc]
    simp only [workLeft, Event.cost, ParState.goto, flushWork]
    omega
  | @store i r hpc hr =>
    have hnext := hwrap i (by rw [hpc]; rfl)
    rw [hpc]
    simp only [afterTest, hnext]
    split_ifs <;> simp only [workLeft, Event.cost, flushWork] <;> omega
  | @readAbort i hpc =>
    have hnext := hwrap i (by rw [hpc]; rfl)
    rw [hpc]
    simp only [ParState.goto, hnext]
    split_ifs <;> simp only [workLeft, Event.cost, flushWork] <;> omega
  | @lockIo call hpc _ =>
    rw [hpc]
    cases call <;> simp only [workLeft, Event.cost, testbufferSize] <;> omega
  | @printNext call j hpc hj =>
    have hmul : c * (2 * (testbufferSize - j) + 3) = c * (2 * (testbufferSize - j) + 2) + c :=
      Nat.mul_succ ..
    rw [hpc]
    cases call <;> simp only [workLeft, Event.cost, hmul] <;> omega
  | @printDone call j hpc hj =>
    have hmul : c * 3 ≤ c * (2 * (testbufferSize - j) + 3) := Nat.mul_le_mul_left c (by omega)
    rw [hpc]
    cases call <;> simp only [workLeft, Event.cost, PrintCall.next] <;> omega
  | @log call j e hpc he =>
    have hj := (List.getElem?_eq_some_iff.mp he).1
    have hj' : 2 * (testbufferSize - j) + 2 = 2 * (testbufferSize - (j + 1)) + 3 + 1 := by omega
    rw [hpc]
    cases call <;> simp only [workLeft, Event.cost, hj', Nat.mul_succ] <;> omega
  | reduceEnd hpc =>
    rw [hpc]
    simp only [ParState.goto]
    split_ifs <;> simp only [workLeft, Event.cost, reduceWork, joinWork] <;> omega
  | reduceLoad hpc _ _ =>
    rw [hpc]
    simp only [workLeft, Event.cost, ParState.goto, reduceWork]
    omega
  | @reduceSkip i hpc hi _ =>
    have hmul : c * (5 * i - 2) ≤ c * (5 * i) := Nat.mul_le_mul_left c (by omega)
    rw [hpc]
    simp only [workLeft, Event.cost, ParState.goto, reduceWork]
    omega
  | @load i hpc =>
    rw [hpc] at hphase ⊢
    obtain ⟨-, -, hlt⟩ := hphase
    have hmul : c * (5 * i) = c * (5 * i - 1) + c := by
      rw [← Nat.mul_succ]
      congr 1
      omega
    simp only [workLeft, Event.cost, hmul]
    omega
  | @add i v hpc =>
    rw [hpc] at hphase ⊢
    obtain ⟨-, -, hlt⟩ := hphase
    have hmul : c * (5 * i - 1) = c * (5 * i - 2) + c := by
      rw [← Nat.mul_succ]
      congr 1
      omega
    simp only [workLeft, Event.cost, hmul]
    omega
  | teardownEval hpc hsome ha _ =>
    rw [haux _ hsome] at ha
    rw [hpc]
    simp only [workLeft, Event.cost, procWork_drop ha]
    omega
  | callTeardown hpc _ | free hpc | join hpc _ | teardownDone hpc | summary hpc _ | finish hpc =>
    rw [hpc]
    simp only [workLeft, Event.cost, ParState.goto, joinWork, List.drop_zero]
    omega
  | stuck h => exact le_workLeft_of_canStick h

/-- Every thread pays the release of the barrier. -/
theorem workLeft_released {g : ℕ} {pc : Pc} (hphase : PhaseOk env g t pc)
    (hblocked : pc.isBlocked = true) :
    c + workLeft w c env t (releasedPc env t pc) ≤ workLeft w c env t pc := by
  have hflush : joinWork w c env + c * 39 ≤ flushWork w c env := joinWork_le_flushWork
  cases pc with
  | blocked b =>
    cases b with
    | setup ok =>
      cases ok with
      | true =>
        simp only [releasedPc, afterBarrier, workLeft]
        omega
      | false =>
        simp only [releasedPc, afterBarrier]
        split_ifs <;> simp only [workLeft] <;> omega
    | tests =>
      simp only [releasedPc, afterBarrier, workLeft]
      omega
    | reduce i =>
      obtain ⟨-, -, hne⟩ := hphase
      have hhalf : i >>> 1 = i / 2 := Nat.shiftRight_one i
      have hmul : c * (5 * (i / 2) + 2) ≤ c * (5 * i - 3) := Nat.mul_le_mul_left c (by omega)
      rw [Nat.mul_add] at hmul
      simp only [releasedPc, afterBarrier, workLeft, reduceWork, hhalf]
      omega
  | _ => exact absurd hblocked (by simp [Pc.isBlocked])

end

/-! ### The length of a run -/

/-- What a thread does in a reachable state is paid from what is left of it. -/
theorem workLeft_run {env : RunEnv} (hjobs : 2 ≤ env.jobs) (hfits : FitsUnsigned env)
    {tr : List Event} {s : ParState} (h : ParRun env tr s) (w : Bool → ℕ) (c : ℕ) {t : ℕ}
    (ht : t < env.jobs) {f : Effect} (hmove : Move env s t f) :
    f.event.cost w c + workLeft w c env t f.pc ≤ workLeft w c env t (s.pc t) := by
  have hn : ∀ u < env.jobs, (finalPlan env).ntests u < unsignedMod :=
    fun u hu => finalPlan_ntests_lt hjobs hfits hu
  have hprinted := (printed_run h t ht).2 hmove.not_stuck
  exact workLeft_move ((phaseInv_run h).pcs t ht) (plan_final hjobs h)
    (fun aux haux => auxprocs_run hjobs h haux) (inSlice_run hjobs hn h t ht) (hn t ht)
    hprinted.size hmove

/-- A false assertion costs a message. -/
def failWork : Bool → ℕ
  | true => 0
  | false => 1

/-- The false assertions of all tests and of the global teardown. -/
def failures (env : RunEnv) (rs : List TestRec) : ℕ :=
  ∑ idx ∈ Finset.range rs.length, procWork failWork (recordProc env idx) +
    procWork failWork env.auxprocs.globalTeardown

/-- A run in which everything outside succeeds, the global setup included. -/
structure Succeeds (env : RunEnv) (rs : List TestRec) : Prop where
  jobs : 2 ≤ env.jobs
  threads : env.jobs ≤ maxThreads
  collected : ∃ h, env.collected = some ⟨rs, h⟩
  fits : rs.length ≤ unsignedMod
  recordsMalloc : env.recordsMalloc = true
  init : ∀ t < env.jobs, initOk env t = true
  setup : allPass env.auxprocs.globalSetup = true
  /-- The index of the summary over the messages of a log is an `unsigned`. -/
  messages : failures env rs < unsignedMod

section

variable {env : RunEnv} {rs : List TestRec}

theorem Succeeds.fitsUnsigned (h : Succeeds env rs) : FitsUnsigned env := by
  intro rs' hrs' _
  obtain ⟨hlen, hcollected⟩ := h.collected
  obtain rfl := Option.some.inj (hcollected.symm.trans hrs')
  exact h.fits

/-- All threads read the collected records. -/
theorem Succeeds.records (h : Succeeds env rs) (idx : ℕ) :
    (finalPlan env).records idx = rs[idx]? := by
  obtain ⟨hlen, hcollected⟩ := h.collected
  have hfits := h.fits
  rw [(finalPlan_eq hcollected h.recordsMalloc).1, copyRecords_eq (by simpa using hfits)
    (fun _ _ => rfl)]
  rfl

/-- No slice goes beyond the records. -/
theorem Succeeds.slice_le (h : Succeeds env rs) {t : ℕ} (ht : t < env.jobs) :
    (finalPlan env).startidx t + (finalPlan env).ntests t ≤ rs.length := by
  obtain ⟨hlen, hcollected⟩ := h.collected
  have hjobs := h.jobs
  obtain ⟨hn, hstart⟩ := (finalPlan_eq hcollected h.recordsMalloc).2 t ht
  rw [hn, hstart, ← sliceStart_succ]
  calc sliceStart rs.length env.jobs (t + 1)
      ≤ sliceStart rs.length env.jobs env.jobs := sliceStart_mono _ _ ht
    _ = rs.length := sliceStart_jobs (by omega)

theorem Succeeds.auxprocs (h : Succeeds env rs) :
    (finalPlan env).auxprocs = some env.auxprocs := by
  obtain ⟨hlen, hcollected⟩ := h.collected
  simp only [finalPlan, collectPlan, hcollected, h.recordsMalloc, if_true]

theorem procWork_allPass {p : Proc} (h : allPass p = true) : procWork failWork p = 0 := by
  induction p with
  | nil => rfl
  | cons a p ih =>
    simp only [allPass, List.all_cons, Bool.and_eq_true] at h
    have hrest : procWork failWork p = 0 := ih h.2
    simp only [procWork, List.map_cons, List.sum_cons, h.1, failWork, Nat.zero_add]
    exact hrest

/-- At its start a thread has no more false assertions before it than there are. -/
theorem Succeeds.failWork_le (h : Succeeds env rs) {t : ℕ} (ht : t < env.jobs) :
    workLeft failWork 0 env t (ParState.initial.pc t) ≤ failures env rs := by
  have hloop : loopWork failWork 0 env t 0 ≤
      ∑ idx ∈ Finset.range rs.length, procWork failWork (recordProc env idx) := by
    rw [loopWork, ← Finset.range_eq_Ico]
    calc ∑ j ∈ Finset.range ((finalPlan env).ntests t), testWork failWork 0 env t j
        = ∑ j ∈ Finset.range ((finalPlan env).ntests t),
            procWork failWork (recordProc env ((finalPlan env).startidx t + j)) := by
          refine Finset.sum_congr rfl fun j _ => ?_
          rw [testWork, Nat.zero_mul, Nat.add_zero, slot]
      _ ≤ ∑ idx ∈ Finset.range ((finalPlan env).startidx t + (finalPlan env).ntests t),
            procWork failWork (recordProc env idx) := by
          rw [Finset.sum_range_add]
          exact Nat.le_add_left ..
      _ ≤ _ := by
          refine Finset.sum_le_sum_of_subset (Finset.range_subset_range.mpr ?_)
          exact h.slice_le ht
  have hflush : flushWork failWork 0 env = procWork failWork env.auxprocs.globalTeardown := by
    simp only [flushWork, reduceWork, joinWork, Nat.zero_mul, Nat.zero_add, Nat.add_zero]
  show workLeft failWork 0 env t (if t = 1 then .collect else .init) ≤ _
  split_ifs
  · simp only [workLeft, hflush, procWork_allPass h.setup, failures]
    omega
  · simp only [workLeft, hflush, failures]
    omega

theorem recordedMsg_le {realloc : ℕ → Bool} {a : Assertion} {tests tests' : TestState}
    (h : assertTrue realloc a tests = some tests') :
    (recordedMsg tests tests').toList.length ≤ failWork a.eval := by
  cases ha : a.eval with
  | true =>
    rw [recordedMsg_of_eval ha h]
    exact Nat.zero_le _
  | false => cases recordedMsg tests tests' <;> simp [failWork]

/-- A message that a thread records is that of a false assertion. -/
theorem Move.logged_le {s : ParState} {t : ℕ} {f : Effect} (h : Move env s t f) (u : ℕ) :
    (f.event.loggedOf u).toList.length ≤ if u = t then f.event.cost failWork 0 else 0 := by
  by_cases hut : u = t
  · subst hut
    rw [if_pos rfl]
    cases h with
    | setupEval _ _ _ _ => exact Nat.zero_le _
    | testEval _ _ _ _ heval | teardownEval _ _ _ heval =>
      simpa only [Event.loggedOf, Event.cost, if_true] using recordedMsg_le heval
    | _ => exact Nat.zero_le _
  · rw [if_neg hut, (h.mute hut).logged]
    rfl

/-- A thread records no more messages than it meets false assertions. -/
theorem failures_run (hsucc : Succeeds env rs) {tr : List Event} {s : ParState}
    (h : ParRun env tr s) {t : ℕ} (ht : t < env.jobs) :
    (logged t tr).length ≤ failures env rs := by
  have hpaid : (logged t tr).length + workLeft failWork 0 env t (s.pc t) ≤
      workLeft failWork 0 env t (ParState.initial.pc t) := by
    refine Trace.Run.invariant (I := fun tr s =>
      (logged t tr).length + workLeft failWork 0 env t (s.pc t) ≤
        workLeft failWork 0 env t (ParState.initial.pc t)) ?_ ?_ h
    · exact (Nat.zero_add _).le
    · intro tr s e s' hrun ih hstep
      have hlen : ∀ e, (logged t (tr ++ [e])).length =
          (logged t tr).length + (e.loggedOf t).toList.length := by
        intro e
        rw [logged, List.filterMap_append, List.length_append, filterMap_singleton]
      obtain ⟨u, f, hu, hmove, rfl, rfl⟩ | ⟨rfl, hblocked, rfl⟩ := step_cases hstep
      · have hmsg := hmove.logged_le t
        have hpaid := workLeft_run hsucc.jobs hsucc.fitsUnsigned hrun failWork 0 hu hmove
        rw [hlen]
        by_cases htu : t = u
        · subst htu
          rw [if_pos rfl] at hmsg
          rw [act_pc_self]
          omega
        · rw [if_neg htu] at hmsg
          rw [act_pc_other htu]
          omega
      · have hpaid := workLeft_released (w := failWork) (c := 0) ((phaseInv_run hrun).pcs t ht)
          (hblocked t ht)
        rw [hlen, passBarrier_pc ht]
        simp only [Event.loggedOf, Option.toList_none, List.length_nil]
        omega
  have hstart := hsucc.failWork_le ht
  omega

/-! ### Nobody gets stuck -/

/-- What the next step of the thread `t` reads is there. -/
def Ready (env : RunEnv) (s : ParState) (t : ℕ) : Prop :=
  match s.pc t with
  | .callSetup | .callTeardown => ∃ aux, s.sh.plan.auxprocs = some aux
  | .globalSetup _ =>
    ∃ aux, s.sh.plan.auxprocs = some aux ∧ ∀ a ∈ aux.globalSetup, a.eval = true
  | .loop i => i < s.sh.plan.ntests t → ∃ r, s.record t i = some r
  | .body i _ => ∃ r aux, s.record t i = some r ∧ s.sh.plan.auxprocs = some aux ∧
      LogOk (s.tests t).log
  | .store i => ∃ r, s.record t i = some r
  | .log _ j => j < (s.tests t).buffered.length
  | .globalTeardown _ => ∃ aux, s.sh.plan.auxprocs = some aux ∧ LogOk (s.tests t).log
  | .summary => ∀ u < env.jobs, (s.tests u).log.buffer.length < unsignedMod
  | _ => True

/-- A procedure does not get stuck where its assertions can be evaluated. -/
theorem procStep_ne_stuck {s : ParState} {t k : ℕ} {site : Site} {p : Proc} {next after : Pc}
    (heval : ∀ a, p[k]? = some a → ∃ tests, assertTrue (env.realloc t) a (s.tests t) = some tests)
    (hnext : next ≠ .stuck) (hafter : after ≠ .stuck) :
    (procStep env s t site p k next after).pc ≠ .stuck := by
  unfold procStep
  cases hk : p[k]? with
  | none => exact hafter
  | some a =>
    obtain ⟨tests, htests⟩ := heval a hk
    simp only [htests]
    exact hnext

theorem Move.canStick {s : ParState} {t : ℕ} {f : Effect} (h : Move env s t f)
    (hstuck : f.pc = .stuck) : (s.pc t).canStick = true := by
  cases h with
  | stuck hcan => exact hcan
  | collect _ =>
    rcases collectPlan_pc env s.sh.plan with hnext | hnext
    · exact absurd (hnext.symm.trans hstuck) (by simp)
    · exact absurd (hnext.symm.trans hstuck) (by simp)
  | store _ _ =>
    refine absurd hstuck ?_
    simp only [afterTest]
    split_ifs <;> simp
  | readAbort _ | reduceEnd _ =>
    refine absurd hstuck ?_
    simp only [ParState.goto]
    split_ifs <;> simp
  | @printDone call _ _ _ =>
    refine absurd hstuck ?_
    cases call <;> simp [PrintCall.next]
  | _ => exact absurd hstuck (by simp [ParState.goto])

/-- A ready thread does not get stuck. -/
theorem Ready.not_stuck {s : ParState} {t : ℕ} {f : Effect} (h : Ready env s t)
    (hstep : threadStep env s t = some f) : f.pc ≠ .stuck := by
  unfold Ready at h
  intro hstuck
  have hcan := (threadStep_move hstep).canStick hstuck
  revert hstuck
  cases hpc : s.pc t with
  | callSetup | callTeardown =>
    rw [hpc] at h
    obtain ⟨aux, haux⟩ := h
    simp only [threadStep, hpc, haux, Option.some.injEq] at hstep
    simp [← hstep]
  | globalSetup k =>
    rw [hpc] at h
    obtain ⟨aux, haux, htrue⟩ := h
    simp only [threadStep, hpc, haux, Option.some.injEq] at hstep
    rw [← hstep]
    refine procStep_ne_stuck (fun a ha => ⟨(s.tests t).countAssertion, ?_⟩) (by simp) (by simp)
    rw [assertTrue, if_pos (htrue a (List.mem_of_getElem? ha))]
  | loop i =>
    rw [hpc] at h
    simp only [threadStep, hpc] at hstep
    by_cases hi : i < s.sh.plan.ntests t
    · obtain ⟨r, hr⟩ := h hi
      simp only [if_pos hi, hr, Option.some.injEq] at hstep
      simp [← hstep]
    · simp only [if_neg hi, Option.some.injEq] at hstep
      simp [← hstep, ParState.goto]
  | body i k =>
    rw [hpc] at h
    obtain ⟨r, aux, hr, haux, hlog⟩ := h
    simp only [threadStep, hpc, hr, haux, Option.some.injEq] at hstep
    rw [← hstep]
    refine procStep_ne_stuck (fun a _ => ?_) (by simp) (by simp)
    obtain ⟨tests, htests, -⟩ := @LogOk.assertTrue (env.realloc t) a _ hlog
    exact ⟨tests, htests⟩
  | store i =>
    rw [hpc] at h
    obtain ⟨r, hr⟩ := h
    simp only [threadStep, hpc, hr, Option.some.injEq] at hstep
    simp only [← hstep, afterTest]
    split_ifs <;> simp
  | log call j =>
    rw [hpc] at h
    simp only [threadStep, hpc, List.getElem?_eq_getElem h, Option.some.injEq] at hstep
    simp [← hstep]
  | globalTeardown k =>
    rw [hpc] at h
    obtain ⟨aux, haux, hlog⟩ := h
    simp only [threadStep, hpc, haux, Option.some.injEq] at hstep
    rw [← hstep]
    refine procStep_ne_stuck (fun a _ => ?_) (by simp) (by simp)
    obtain ⟨tests, htests, -⟩ := @LogOk.assertTrue (env.realloc t) a _ hlog
    exact ⟨tests, htests⟩
  | summary =>
    rw [hpc] at h
    have hall : ((List.range env.jobs).all fun i =>
        decide ((s.tests i).log.buffer.length < unsignedMod)) = true :=
      List.all_eq_true.mpr fun u hu => decide_eq_true (h u (List.mem_range.mp hu))
    have hreport : ∃ r, testSummary env.jobs (fun u => (s.tests u).log) s.sh.plan.total =
        some r := by
      unfold testSummary
      dsimp only
      rw [if_pos hall]
      split_ifs
      · exact ⟨_, rfl⟩
      · exact ⟨_, rfl⟩
    obtain ⟨r, hr⟩ := hreport
    simp only [threadStep, hpc, hr, Option.some.injEq] at hstep
    simp [← hstep]
  | _ =>
    rw [hpc] at hcan
    exact absurd hcan (by simp [Pc.canStick])

/-- A thread prints an entry that its buffer has. -/
theorem Move.log_index {s : ParState} {t j : ℕ} {f : Effect} {call : PrintCall}
    (h : Move env s t f) (hpc : f.pc = .log call j) : j < f.tests.buffered.length := by
  cases h with
  | printNext _ hj =>
    obtain ⟨-, rfl⟩ := Pc.log.inj hpc
    exact hj
  | collect _ =>
    rcases collectPlan_pc env s.sh.plan with hnext | hnext
    · exact absurd (hnext.symm.trans hpc) (by simp)
    · exact absurd (hnext.symm.trans hpc) (by simp)
  | store _ _ =>
    refine absurd hpc ?_
    simp only [afterTest]
    split_ifs <;> simp
  | readAbort _ | reduceEnd _ =>
    refine absurd hpc ?_
    simp only [ParState.goto]
    split_ifs <;> simp
  | @printDone call _ _ _ =>
    refine absurd hpc ?_
    cases call <;> simp [PrintCall.next]
  | _ => exact absurd hpc (by simp [ParState.goto, ParState.stick])

theorem logIndex_run {tr : List Event} {s : ParState} (h : ParRun env tr s) {t : ℕ}
    (ht : t < env.jobs) {call : PrintCall} {j : ℕ} (hpc : s.pc t = .log call j) :
    j < (s.tests t).buffered.length := by
  refine Trace.Run.invariant (I := fun _ s => ∀ t < env.jobs, ∀ call j, s.pc t = .log call j →
    j < (s.tests t).buffered.length) ?_ ?_ h t ht call j hpc
  · intro t _ call j hpc
    refine absurd hpc ?_
    show (if t = 1 then Pc.collect else .init) ≠ .log call j
    split_ifs <;> simp
  · intro tr s e s' _ ih hstep u hu call j hpc
    obtain ⟨t, f, ht, hmove, rfl, rfl⟩ | ⟨rfl, hblocked, rfl⟩ := step_cases hstep
    · by_cases hut : u = t
      · subst hut
        rw [act_pc_self] at hpc
        rw [act_tests_self]
        exact hmove.log_index hpc
      · rw [act_pc_other hut] at hpc
        rw [act_tests_other hut]
        exact ih u hu call j hpc
    · rw [passBarrier_pc hu] at hpc
      have hquiet := Pc.test?_blocked (hblocked u hu)
      cases hp : s.pc u with
      | blocked b =>
        rw [hp] at hpc
        refine absurd hpc ?_
        cases b with
        | setup ok =>
          cases ok with
          | true => simp [releasedPc, afterBarrier]
          | false =>
            simp only [releasedPc, afterBarrier]
            split_ifs <;> simp
        | tests | reduce i => simp [releasedPc, afterBarrier]
      | _ =>
        have hb := hblocked u hu
        rw [hp] at hb
        exact absurd hb (by simp [Pc.isBlocked])

/-- When everything outside succeeds, every thread is ready for its next step. -/
theorem ready_run (hsucc : Succeeds env rs) {tr : List Event} {s : ParState}
    (h : ParRun env tr s) {t : ℕ} (ht : t < env.jobs) : Ready env s t := by
  have hjobs := hsucc.jobs
  have hphase := (phaseInv_run h).pcs t ht
  have hplan : ∀ g, g = releases tr → 1 ≤ g → s.sh.plan = finalPlan env := by
    rintro g rfl hg
    exact plan_final hjobs h hg
  have haux : s.sh.plan = finalPlan env → s.sh.plan.auxprocs = some env.auxprocs := by
    intro heq
    rw [heq, hsucc.auxprocs]
  -- thread 1 calls the global setup after it has collected the tests
  have hcollected : t = 1 → s.pc t ≠ .collect → s.sh.plan = finalPlan env := by
    rintro rfl hnot
    rcases plan_run hjobs h with ⟨hpc, -⟩ | ⟨-, heq⟩
    · exact absurd hpc hnot
    · exact heq
  have hreturned : MayReturn env (releases tr) t → s.sh.plan = finalPlan env := by
    rintro (⟨hg, -⟩ | ⟨hg, -⟩)
    · exact hplan _ rfl (by omega)
    · exact hplan _ rfl (by omega)
  have hledger := ledger_run h t ht
  have hprogress := progress_run hjobs h t ht
  unfold Ready
  cases hpc : s.pc t with
  | callSetup =>
    rw [hpc] at hphase
    exact ⟨_, haux (hcollected hphase.2 (by simp [hpc]))⟩
  | globalSetup k =>
    rw [hpc] at hphase
    refine ⟨_, haux (hcollected hphase.2 (by simp [hpc])), ?_⟩
    exact List.all_eq_true.mp hsucc.setup
  | loop i =>
    rw [hpc] at hphase
    have heq := hplan _ rfl hphase.1.ge
    intro hi
    rw [heq] at hi
    have hlt := hsucc.slice_le ht
    have hidx : (finalPlan env).startidx t + i < rs.length := by omega
    refine ⟨rs[(finalPlan env).startidx t + i], ?_⟩
    rw [ParState.record, heq, hsucc.records, List.getElem?_eq_getElem hidx]
  | body i k =>
    rw [hpc] at hphase hledger
    have heq := hplan _ rfl hphase.1.ge
    obtain ⟨ran, r, hw⟩ := (progress_some (by rw [hpc]; rfl)).mp (hprogress (by simp [hpc]))
    refine ⟨r, env.auxprocs, ?_, haux heq, hledger.2.2 (hsucc.init t ht)⟩
    rw [ParState.record, heq]
    exact hw.record
  | store i =>
    rw [hpc] at hphase
    have heq := hplan _ rfl hphase.1.ge
    obtain ⟨ran, r, hw⟩ := (progress_some (by rw [hpc]; rfl)).mp (hprogress (by simp [hpc]))
    refine ⟨r, ?_⟩
    rw [ParState.record, heq]
    exact hw.record
  | log call j => exact logIndex_run h ht hpc
  | callTeardown =>
    rw [hpc] at hphase
    exact ⟨_, haux (hreturned hphase.1)⟩
  | globalTeardown k =>
    rw [hpc] at hphase hledger
    exact ⟨_, haux (hreturned hphase.1), hledger.2 (hsucc.init t ht)⟩
  | summary =>
    intro u hu
    rw [hpc] at hphase
    obtain ⟨-, rfl⟩ := hphase
    rw [(summary_logs hjobs hsucc.init h hpc u hu).1, messages_eq_logged hjobs h]
    exact (failures_run hsucc h hu).trans_lt hsucc.messages
  | _ => exact trivial

/-- A step of the system is a step of a thread or the release of the barrier. -/
theorem step_threads {s s' : ParState} {e : Event} (h : Step env s e s') :
    (∃ t f, t < env.jobs ∧ threadStep env s t = some f ∧ e = f.event ∧ s' = s.act t f) ∨
    (e = .released ∧ (∀ t < env.jobs, (s.pc t).isBlocked = true) ∧ s' = s.passBarrier env) := by
  obtain ⟨_ | t, hnext⟩ := h
  · have hstep : Step env s e s' := ⟨none, hnext⟩
    rcases step_cases hstep with ⟨t, f, ht, hmove, rfl, -⟩ | hreleased
    · obtain ⟨s₁, -, heq⟩ := Option.map_eq_some_iff.mp hnext
      exact absurd (Prod.mk.inj heq).1.symm hmove.event.1
    · exact .inr hreleased
  · simp only [parNext] at hnext
    split_ifs at hnext with ht
    obtain ⟨f, hf, heq⟩ := Option.map_eq_some_iff.mp hnext
    obtain ⟨rfl, rfl⟩ := Prod.mk.inj heq
    exact .inl ⟨t, f, ht, hf, rfl, rfl⟩

theorem releasedPc_not_stuck {t : ℕ} {pc : Pc} (h : pc.isBlocked = true) :
    releasedPc env t pc ≠ .stuck := by
  cases pc with
  | blocked b =>
    cases b with
    | setup ok =>
      cases ok with
      | true => simp [releasedPc, afterBarrier]
      | false =>
        simp only [releasedPc, afterBarrier]
        split_ifs <;> simp
    | tests | reduce i => simp [releasedPc, afterBarrier]
  | _ => exact absurd h (by simp [Pc.isBlocked])

/-- No thread gets stuck. -/
theorem notStuck_run (hsucc : Succeeds env rs) {tr : List Event} {s : ParState}
    (h : ParRun env tr s) {t : ℕ} (ht : t < env.jobs) : s.pc t ≠ .stuck := by
  refine Trace.Run.invariant (I := fun _ s => ∀ t < env.jobs, s.pc t ≠ .stuck) ?_ ?_ h t ht
  · intro t _
    show (if t = 1 then Pc.collect else .init) ≠ .stuck
    split_ifs <;> simp
  · intro tr s e s' hrun ih hstep u hu
    obtain ⟨t, f, ht, hf, -, rfl⟩ | ⟨-, hblocked, rfl⟩ := step_threads hstep
    · by_cases hut : u = t
      · subst hut
        rw [act_pc_self]
        exact (ready_run hsucc hrun hu).not_stuck hf
      · rw [act_pc_other hut]
        exact ih u hu
    · rw [passBarrier_pc hu]
      exact releasedPc_not_stuck (hblocked u hu)

/-! ### Somebody can move -/

end

end Cldm
