/-
The tests of a parallel run: how they are distributed and in which order the
threads run them.

`finalPlan env` is what the collection leaves in the shared variables; from the
first release of the barrier on, every thread reads it.  `Progress` says, for one
thread, how the tests it has started, their outcomes and the results it has
scheduled belong together; `InSlice` says where in its slice the thread is.

* `copyRecords_eq`, `distribute_eq` — the loops of the collection;
* `progress_run`, `inSlice_run` — what every run preserves;
* `parallel_runs_each_test_once` — every test is run once, by one thread;
* `parallel_fail_fast` — what is still run after the first failure.
-/
import Cldm.ParallelPhase
import Mathlib.Algebra.BigOperators.Group.Finset.Basic

namespace Cldm

/-! ### The collected plan -/

/-- What the collection leaves in the shared variables. -/
def finalPlan (env : RunEnv) : Plan := (collectPlan env ParState.initial.sh.plan).2

theorem finalPlan_auxprocs {env : RunEnv} {aux : AuxProcs}
    (h : (finalPlan env).auxprocs = some aux) : aux = env.auxprocs := by
  unfold finalPlan collectPlan at h
  cases hc : env.collected with
  | none => rw [hc] at h; exact absurd h (by simp [ParState.initial])
  | some rs =>
    rw [hc] at h
    cases hm : env.recordsMalloc with
    | true => simpa [hm] using h.symm
    | false => exact absurd h (by simp [hm, ParState.initial])

theorem collectPlan_pc (env : RunEnv) (plan : Plan) :
    (collectPlan env plan).1 = .init ∨ (collectPlan env plan).1 = .callSetup := by
  unfold collectPlan
  cases env.collected with
  | none => exact .inl rfl
  | some rs =>
    cases env.recordsMalloc with
    | true => exact .inr rfl
    | false => exact .inl rfl

/-- Only the collection writes the plan, and it is not repeated. -/
theorem Move.plan {env : RunEnv} {s : ParState} {t : ℕ} {f : Effect} (h : Move env s t f) :
    f.pc ≠ .collect ∧ ((s.pc t = .collect ∧ f.sh.plan = (collectPlan env s.sh.plan).2) ∨
      (s.pc t ≠ .collect ∧ f.sh.plan = s.sh.plan)) := by
  cases h
  case collect h =>
    refine ⟨?_, .inl ⟨h, rfl⟩⟩
    rcases collectPlan_pc env s.sh.plan with hpc | hpc <;> simp [hpc]
  case store h hr =>
    refine ⟨?_, .inr ⟨by simp [h], rfl⟩⟩
    simp only [afterTest]
    split_ifs <;> simp
  case readAbort h =>
    refine ⟨?_, .inr ⟨by simp [h], rfl⟩⟩
    simp only [ParState.goto]
    split_ifs <;> simp
  case printDone c _ h _ =>
    refine ⟨?_, .inr ⟨by simp [h], rfl⟩⟩
    cases c <;> simp [PrintCall.next]
  case reduceEnd h =>
    refine ⟨?_, .inr ⟨by simp [h], rfl⟩⟩
    simp only [ParState.goto]
    split_ifs <;> simp
  case stuck h =>
    refine ⟨by simp [ParState.stick], .inr ⟨?_, rfl⟩⟩
    intro hpc
    rw [hpc] at h
    exact absurd h (by simp [Pc.canStick])
  all_goals exact ⟨by simp [ParState.goto], .inr ⟨by simp_all, rfl⟩⟩

/-- Thread 1 writes the plan once. -/
theorem plan_run {env : RunEnv} (hjobs : 2 ≤ env.jobs) {tr : List Event} {s : ParState}
    (h : ParRun env tr s) :
    (s.pc 1 = .collect ∧ s.sh.plan = ParState.initial.sh.plan) ∨
      (s.pc 1 ≠ .collect ∧ s.sh.plan = finalPlan env) := by
  refine Trace.Run.invariant (I := fun _ s =>
    (s.pc 1 = .collect ∧ s.sh.plan = ParState.initial.sh.plan) ∨
      (s.pc 1 ≠ .collect ∧ s.sh.plan = finalPlan env)) (.inl ⟨rfl, rfl⟩) ?_ h
  intro tr s e s' hrun ih hstep
  obtain ⟨t, f, ht, hmove, rfl, rfl⟩ | ⟨rfl, hblocked, rfl⟩ := step_cases hstep
  · obtain ⟨hnot, ⟨hcollect, hplan⟩ | ⟨hcollect, hplan⟩⟩ := hmove.plan
    · have hphase := (phaseInv_run hrun).pcs t ht
      rw [hcollect] at hphase
      obtain ⟨-, rfl⟩ := hphase
      rcases ih with ⟨-, hinit⟩ | ⟨hother, -⟩
      · refine .inr ⟨by rwa [act_pc_self], ?_⟩
        rw [act_sh, hplan, hinit]
        rfl
      · exact absurd hcollect hother
    · rw [act_sh, hplan]
      rcases ih with ⟨hpc, hinit⟩ | ⟨hpc, hfinal⟩
      · refine .inl ⟨?_, hinit⟩
        rw [act_pc_other, hpc]
        rintro rfl
        exact hcollect hpc
      · refine .inr ⟨?_, hfinal⟩
        by_cases h1 : 1 = t
        · subst h1
          rwa [act_pc_self]
        · rwa [act_pc_other h1]
  · have hb := hblocked 1 (by omega)
    rcases ih with ⟨hpc, -⟩ | ⟨-, hfinal⟩
    · rw [hpc] at hb
      exact absurd hb (by simp [Pc.isBlocked])
    · refine .inr ⟨?_, hfinal⟩
      rw [passBarrier_pc (by omega)]
      cases hp : s.pc 1 with
      | blocked b =>
        cases b with
        | setup ok => cases ok <;> simp [releasedPc, afterBarrier]
        | tests | reduce i => simp [releasedPc, afterBarrier]
      | _ =>
        rw [hp] at hb
        exact absurd hb (by simp [Pc.isBlocked])

/-- Behind the first barrier all threads see the collected plan. -/
theorem plan_final {env : RunEnv} (hjobs : 2 ≤ env.jobs) {tr : List Event} {s : ParState}
    (h : ParRun env tr s) (hg : 1 ≤ releases tr) : s.sh.plan = finalPlan env := by
  rcases plan_run hjobs h with ⟨hpc, -⟩ | ⟨-, hplan⟩
  · have hphase := (phaseInv_run h).pcs 1 (by omega)
    rw [hpc] at hphase
    have := hphase.1
    omega
  · exact hplan

/-! ### The loops of the collection -/

/-- Where the slice of the thread `i` starts. -/
def sliceStart (ntests jobs i : ℕ) : ℕ := i * (ntests / jobs) + min i (ntests % jobs)

theorem sliceStart_succ (ntests jobs i : ℕ) :
    sliceStart ntests jobs (i + 1) = sliceStart ntests jobs i + sliceLength ntests jobs i := by
  unfold sliceStart sliceLength
  rw [Nat.succ_mul]
  split_ifs <;> omega

theorem sliceStart_jobs {ntests jobs : ℕ} (hjobs : 0 < jobs) :
    sliceStart ntests jobs jobs = ntests := by
  unfold sliceStart
  rw [Nat.min_eq_right (Nat.mod_lt _ hjobs).le]
  exact Nat.div_add_mod ..

theorem sliceStart_mono (ntests jobs : ℕ) : Monotone (sliceStart ntests jobs) := by
  refine monotone_nat_of_le_succ fun i => ?_
  rw [sliceStart_succ]
  exact Nat.le_add_right ..

/-- Two slices differ in length by at most one. -/
theorem sliceLength_le (ntests jobs i j : ℕ) :
    sliceLength ntests jobs i ≤ sliceLength ntests jobs j + 1 := by
  unfold sliceLength
  split_ifs <;> omega

/-- Every index lies in exactly one slice. -/
theorem slice_unique {ntests jobs idx : ℕ} (hjobs : 0 < jobs) (hidx : idx < ntests) :
    ∃! t, t < jobs ∧ sliceStart ntests jobs t ≤ idx ∧
      idx < sliceStart ntests jobs t + sliceLength ntests jobs t := by
  -- the last slice that starts at or below the index
  have hex : ∃ t, idx < sliceStart ntests jobs (t + 1) :=
    ⟨jobs - 1, by rw [Nat.sub_add_cancel hjobs, sliceStart_jobs hjobs]; exact hidx⟩
  classical
  have hlt : Nat.find hex < jobs := by
    have := Nat.find_min' hex (m := jobs - 1)
      (by rw [Nat.sub_add_cancel hjobs, sliceStart_jobs hjobs]; exact hidx)
    omega
  have hlow : sliceStart ntests jobs (Nat.find hex) ≤ idx := by
    cases h : Nat.find hex with
    | zero => simp [sliceStart]
    | succ k => exact not_lt.mp (Nat.find_min hex (m := k) (by omega))
  refine ⟨Nat.find hex, ⟨hlt, hlow, ?_⟩, ?_⟩
  · rw [← sliceStart_succ]
    exact Nat.find_spec hex
  · rintro t ⟨-, hle, hgt⟩
    rw [← sliceStart_succ] at hgt
    have h1 : Nat.find hex ≤ t := Nat.find_min' hex hgt
    by_contra hne
    have h2 : sliceStart ntests jobs (Nat.find hex + 1) ≤ sliceStart ntests jobs t :=
      sliceStart_mono ntests jobs (by omega)
    have h3 := Nat.find_spec hex
    omega

/-- The loop that distributes the tests. -/
theorem distribute_eq (ntests jobs : ℕ) (plan : Plan) :
    let d := distribute ntests jobs plan
    d.1 = sliceStart ntests jobs jobs ∧ d.2.records = plan.records ∧
      ∀ i < jobs, d.2.ntests i = sliceLength ntests jobs i ∧
        d.2.startidx i = sliceStart ntests jobs i := by
  have hfold : ∀ m, let d := (List.range m).foldl (fun s i =>
      (s.1 + sliceLength ntests jobs i, { s.2 with
        ntests := Function.update s.2.ntests i (sliceLength ntests jobs i)
        startidx := Function.update s.2.startidx i s.1 })) ((0, plan) : ℕ × Plan)
      d.1 = sliceStart ntests jobs m ∧ d.2.records = plan.records ∧
      ∀ i < m, d.2.ntests i = sliceLength ntests jobs i ∧
        d.2.startidx i = sliceStart ntests jobs i := by
    intro m
    induction m with
    | zero => exact ⟨by simp [sliceStart], rfl, fun i hi => absurd hi (Nat.not_lt_zero i)⟩
    | succ m ih =>
      obtain ⟨hnext, hrecords, hslices⟩ := ih
      rw [List.range_succ, List.foldl_append]
      refine ⟨?_, hrecords, fun i hi => ?_⟩
      · rw [sliceStart_succ]
        exact congrArg (· + sliceLength ntests jobs m) hnext
      · by_cases him : i = m
        · subst him
          exact ⟨Function.update_self .., (Function.update_self ..).trans hnext⟩
        · obtain ⟨h1, h2⟩ := hslices i (by omega)
          exact ⟨(Function.update_of_ne him ..).trans h1, (Function.update_of_ne him ..).trans h2⟩
  exact hfold jobs

/-- The loop that copies the tree fills the array in order, as long as its
index does not wrap around. -/
theorem copyRecords_eq {k : ℕ} {rs : List TestRec} {a : ℕ → Option TestRec}
    (hlen : k + rs.length ≤ unsignedMod) (hempty : ∀ idx, k ≤ idx → a idx = none) (idx : ℕ) :
    copyRecords k rs a idx = if idx < k then a idx else rs[idx - k]? := by
  induction rs generalizing k a with
  | nil =>
    split_ifs with h
    · rfl
    · exact hempty idx (by omega)
  | cons r rs ih =>
    rw [copyRecords]
    rw [List.length_cons] at hlen
    cases rs with
    | nil =>
      show Function.update a k (some r) idx = _
      by_cases hk : idx = k
      · subst hk
        simp
      · rw [Function.update_of_ne hk]
        split_ifs with h
        · rfl
        · rw [hempty idx (by omega)]
          obtain ⟨j, hj⟩ : ∃ j, idx - k = j + 1 := ⟨idx - k - 1, by omega⟩
          rw [hj]
          rfl
    | cons r' rs =>
      rw [List.length_cons] at hlen
      have hmod : (k + 1) % unsignedMod = k + 1 := Nat.mod_eq_of_lt (by omega)
      have hupdate : ∀ i, k + 1 ≤ i → Function.update a k (some r) i = none := by
        intro i hi
        have hne : i ≠ k := by omega
        rw [Function.update_of_ne hne]
        exact hempty i (by omega)
      rw [hmod, ih (by rw [List.length_cons]; omega) hupdate]
      by_cases hk : idx = k
      · subst hk
        simp
      · rw [Function.update_of_ne hk]
        by_cases hlt : idx < k
        · rw [if_pos (by omega), if_pos hlt]
        · rw [if_neg (by omega), if_neg hlt]
          obtain ⟨j, hj⟩ : ∃ j, idx - k = j + 1 := ⟨idx - k - 1, by omega⟩
          rw [show idx - (k + 1) = j by omega, hj]
          rfl

/-- What the collection leaves for the threads, when it has succeeded and the
array is allocated. -/
theorem finalPlan_eq {env : RunEnv} {rs : { l : List TestRec // l.length < 2 ^ 63 }}
    (hcollected : env.collected = some rs) (hmalloc : env.recordsMalloc = true) :
    (finalPlan env).records = copyRecords 0 rs.val (fun _ => none) ∧
      ∀ t < env.jobs, (finalPlan env).ntests t = sliceLength rs.val.length env.jobs t ∧
        (finalPlan env).startidx t = sliceStart rs.val.length env.jobs t := by
  obtain ⟨-, hrecords, hslices⟩ := distribute_eq rs.val.length env.jobs
    { ParState.initial.sh.plan with
      total := rs.val.length
      records := copyRecords 0 rs.val fun _ => none }
  have hplan : finalPlan env = { (distribute rs.val.length env.jobs
      { ParState.initial.sh.plan with
        total := rs.val.length
        records := copyRecords 0 rs.val fun _ => none }).2 with
      auxprocs := some env.auxprocs } := by
    simp only [finalPlan, collectPlan, hcollected, hmalloc, if_true]
  rw [hplan]
  exact ⟨hrecords, hslices⟩

/-- Otherwise there is nothing to run. -/
theorem finalPlan_ntests {env : RunEnv}
    (h : env.collected = none ∨ env.recordsMalloc = false) (t : ℕ) :
    (finalPlan env).ntests t = 0 := by
  unfold finalPlan collectPlan
  cases hc : env.collected with
  | none => simp [ParState.initial]
  | some rs =>
    have hm := h.resolve_left (by simp [hc])
    simp [hm, ParState.initial]

/-! ### One thread and its tests -/

/-- The event says nothing about tests of the thread `t`. -/
structure Event.Idle (t : ℕ) (e : Event) : Prop where
  start : e.startOf t = none
  eval : e.testEvalOf t = none
  result : e.endOf t = none

/-- The moves of a thread say nothing about the tests of the others. -/
theorem Move.idle {env : RunEnv} {s : ParState} {t u : ℕ} {f : Effect} (h : Move env s t f)
    (hut : u ≠ t) : f.event.Idle u := by
  cases h <;> constructor <;>
    simp [ParState.goto, ParState.stick, Event.startOf, Event.testEvalOf, Event.endOf, hut.symm]

theorem Event.Idle.starts {t : ℕ} {e : Event} (h : e.Idle t) (tr : List Event) :
    starts t (tr ++ [e]) = starts t tr := by simp [h.start]

theorem Event.Idle.testEvals {t : ℕ} {e : Event} (h : e.Idle t) (tr : List Event) :
    testEvals t (tr ++ [e]) = testEvals t tr := by simp [h.eval]

theorem Event.Idle.ends {t : ℕ} {e : Event} (h : e.Idle t) (tr : List Event) :
    ends t (tr ++ [e]) = ends t tr := by simp [h.result]

/-- The record index of the `i`-th test of the thread `t`. -/
def slot (env : RunEnv) (t i : ℕ) : ℕ := (finalPlan env).startidx t + i

/-- The outcomes of the tests with these record indices. -/
def ranEvals (env : RunEnv) (ran : List ℕ) : List Bool :=
  ran.flatMap fun idx =>
    match (finalPlan env).records idx with
    | some r => outcomes (testProc env.auxprocs idx r)
    | none => []

theorem ranEvals_snoc (env : RunEnv) (ran : List ℕ) {idx : ℕ} {r : TestRec}
    (hr : (finalPlan env).records idx = some r) :
    ranEvals env (ran ++ [idx]) = ranEvals env ran ++ outcomes (testProc env.auxprocs idx r) := by
  simp [ranEvals, hr]

/-- The test that a thread is in: its number in the slice, and how many of its
assertions have been evaluated, or `none` when all have been. -/
def Pc.test? : Pc → Option (ℕ × Option ℕ)
  | .body i k => some (i, some k)
  | .schedule i | .store i | .lockIo (.schedule i) | .print (.schedule i) _
  | .log (.schedule i) _ => some (i, none)
  | _ => none

/-- The part of a procedure that has been evaluated. -/
def soFar (k? : Option ℕ) (p : Proc) : Proc :=
  match k? with
  | some k => p.take k
  | none => p

/-- All tests that the thread `t` has started have ended. -/
structure Between (env : RunEnv) (t : ℕ) (tr : List Event) (ran : List ℕ) : Prop where
  results : ResultsOf env.auxprocs (finalPlan env).records ran (ends t tr)
  evals : testEvals t tr = ranEvals env ran

/-- The thread `t` is in its `i`-th test, with the record `r`, after those in
`ran`. -/
structure Within (env : RunEnv) (t : ℕ) (tests : TestState) (tr : List Event) (i : ℕ)
    (k? : Option ℕ) (ran : List ℕ) (r : TestRec) : Prop where
  started : starts t tr = ran ++ [slot env t i]
  record : (finalPlan env).records (slot env t i) = some r
  results : ResultsOf env.auxprocs (finalPlan env).records ran (ends t tr)
  evals : testEvals t tr =
    ranEvals env ran ++ outcomes (soFar k? (testProc env.auxprocs (slot env t i) r))
  name : tests.current.name = some r.name
  pass : tests.current.pass = allPass (soFar k? (testProc env.auxprocs (slot env t i) r))

/-- How the tests of the thread `t` belong to its program counter. -/
def Progress (env : RunEnv) (t : ℕ) (pc : Pc) (tests : TestState) (tr : List Event) : Prop :=
  match pc.test? with
  | none => Between env t tr (starts t tr)
  | some (i, k?) => ∃ ran r, Within env t tests tr i k? ran r

theorem progress_none {env : RunEnv} {t : ℕ} {pc : Pc} {tests : TestState} {tr : List Event}
    (h : pc.test? = none) : Progress env t pc tests tr ↔ Between env t tr (starts t tr) := by
  rw [Progress, h]

theorem progress_some {env : RunEnv} {t i : ℕ} {k? : Option ℕ} {pc : Pc} {tests : TestState}
    {tr : List Event} (h : pc.test? = some (i, k?)) :
    Progress env t pc tests tr ↔ ∃ ran r, Within env t tests tr i k? ran r := by
  rw [Progress, h]

/-- Events that say nothing about tests keep the progress, as long as the
current test stays. -/
theorem Progress.idle {env : RunEnv} {t : ℕ} {pc pc' : Pc} {tests tests' : TestState}
    {tr : List Event} {e : Event} (h : Progress env t pc tests tr) (he : e.Idle t)
    (hpc : pc'.test? = pc.test?) (hcur : tests'.current = tests.current) :
    Progress env t pc' tests' (tr ++ [e]) := by
  cases hp : pc.test? with
  | none =>
    rw [progress_none hp] at h
    rw [progress_none (hpc.trans hp)]
    exact ⟨by rw [he.starts, he.ends]; exact h.results, by
      rw [he.testEvals, he.starts]; exact h.evals⟩
  | some p =>
    rw [progress_some hp] at h
    rw [progress_some (hpc.trans hp)]
    obtain ⟨ran, r, hw⟩ := h
    exact ⟨ran, r, by rw [he.starts]; exact hw.started, hw.record, by
      rw [he.ends]; exact hw.results, by rw [he.testEvals]; exact hw.evals, by
      rw [hcur]; exact hw.name, by rw [hcur]; exact hw.pass⟩

/-- When nothing of a test has happened, only its end does not matter. -/
theorem Progress.idle_none {env : RunEnv} {t : ℕ} {pc pc' : Pc} {tests tests' : TestState}
    {tr : List Event} {e : Event} (h : Progress env t pc tests tr) (he : e.Idle t)
    (hpc : pc.test? = none) (hpc' : pc'.test? = none) :
    Progress env t pc' tests' (tr ++ [e]) := by
  rw [progress_none hpc] at h
  rw [progress_none hpc']
  exact ⟨by rw [he.starts, he.ends]; exact h.results, by
    rw [he.testEvals, he.starts]; exact h.evals⟩

/-- A thread that has got stuck is not followed any further. -/
def ProgressInv (env : RunEnv) (tr : List Event) (s : ParState) : Prop :=
  ∀ t < env.jobs, s.pc t ≠ .stuck → Progress env t (s.pc t) (s.tests t) tr

theorem PrintCall.test?_next (c : PrintCall) (j : ℕ) : c.next.test? = (Pc.print c j).test? := by
  cases c <;> rfl

theorem PrintCall.reset_current (c : PrintCall) (tests : TestState) :
    (c.reset tests).current = tests.current := by
  cases c <;> rfl

theorem afterTest_test? (env : RunEnv) (tests : TestState) (i : ℕ) :
    (afterTest env tests i).test? = none := by
  unfold afterTest
  split_ifs <;> rfl

/-- Every move of a thread keeps its progress. -/
theorem Progress.move {env : RunEnv} {s : ParState} {g t : ℕ} {f : Effect} {tr : List Event}
    (hphase : PhaseOk env g t (s.pc t)) (hplan : 1 ≤ g → s.sh.plan = finalPlan env)
    (h : Progress env t (s.pc t) (s.tests t) tr) (hmove : Move env s t f)
    (hstuck : f.pc ≠ .stuck) : Progress env t f.pc f.tests (tr ++ [f.event]) := by
  -- in the test phase the thread reads the final plan
  have hrecord : ∀ i r, 1 ≤ g → s.record t i = some r →
      (finalPlan env).records (slot env t i) = some r := by
    intro i r hg hr
    rw [ParState.record, hplan hg] at hr
    exact hr
  have hslot : ∀ i, 1 ≤ g → s.sh.plan.startidx t + i = slot env t i := by
    intro i hg
    rw [hplan hg, slot]
  have haux' : ∀ aux, 1 ≤ g → s.sh.plan.auxprocs = some aux → aux = env.auxprocs := by
    intro aux hg haux
    rw [hplan hg] at haux
    exact finalPlan_auxprocs haux
  cases hmove with
  | loopStart hpc hi hr =>
    rw [hpc] at hphase h
    obtain ⟨hresults, hevals⟩ := (progress_none rfl).mp h
    refine (progress_some rfl).mpr ⟨starts t tr, _, ?_, hrecord _ _ hphase.1.ge hr, ?_, ?_, rfl, ?_⟩
    · simp [Event.startOf, hslot _ hphase.1.ge]
    · simpa [Event.endOf] using hresults
    · simp [Event.testEvalOf, hevals, soFar]
    · simp [testBegin, soFar]
  | @testEval i k r aux a tests hpc hr haux ha heval =>
    rw [hpc] at hphase h
    obtain ⟨ran, r', hw⟩ := (progress_some rfl).mp h
    have hg := hphase.1.ge
    obtain rfl : r' = r := Option.some.inj (hw.record.symm.trans (hrecord i r hg hr))
    obtain ⟨-, hpass, hname, -⟩ := assertTrue_evaluates heval
    have htake : soFar (some (k + 1)) (testProc env.auxprocs (slot env t i) r') =
        soFar (some k) (testProc env.auxprocs (slot env t i) r') ++ [a] := by
      rw [hslot i hg, haux' aux hg haux] at ha
      simp only [soFar, List.take_add_one, ha, Option.toList_some]
    refine (progress_some rfl).mpr ⟨ran, r', ?_, hw.record, ?_, ?_, hname.trans hw.name, ?_⟩
    · simpa [Event.startOf] using hw.started
    · simpa [Event.endOf] using hw.results
    · rw [htake]
      simp [Event.testEvalOf, hw.evals]
    · rw [hpass, hw.pass, htake]
      simp
  | @testDone i k r aux hpc hr haux hk =>
    rw [hpc] at hphase h
    obtain ⟨ran, r', hw⟩ := (progress_some rfl).mp h
    have hg := hphase.1.ge
    obtain rfl : r' = r := Option.some.inj (hw.record.symm.trans (hrecord i r hg hr))
    have hall : soFar (some k) (testProc env.auxprocs (slot env t i) r') =
        soFar none (testProc env.auxprocs (slot env t i) r') := by
      rw [hslot i hg, haux' aux hg haux] at hk
      exact List.take_of_length_le hk
    refine (progress_some rfl).mpr ⟨ran, r', ?_, hw.record, ?_, ?_, hw.name, ?_⟩
    · simpa [Event.startOf, ParState.goto] using hw.started
    · simpa [Event.endOf, ParState.goto] using hw.results
    · rw [← hall]
      simpa [Event.testEvalOf, ParState.goto] using hw.evals
    · rw [← hall]
      exact hw.pass
  | @store i r hpc hr =>
    rw [hpc] at hphase h
    obtain ⟨ran, r', hw⟩ := (progress_some rfl).mp h
    obtain rfl : r' = r := Option.some.inj (hw.record.symm.trans (hrecord i r hphase.1.ge hr))
    have hresult : (s.tests t).result r'.file = resultOf env.auxprocs (slot env t i) r' := by
      rw [TestState.result, hw.name, hw.pass]
      rfl
    have hstarts : starts t (tr ++ [.ended t ((s.tests t).result r'.file)]) =
        ran ++ [slot env t i] := by
      simpa [Event.startOf] using hw.started
    refine (progress_none (afterTest_test? ..)).mpr ⟨?_, ?_⟩
    · have hends : ends t (tr ++ [.ended t ((s.tests t).result r'.file)]) =
          ends t tr ++ [resultOf env.auxprocs (slot env t i) r'] := by
        simp [Event.endOf, hresult]
      rw [hstarts, hends]
      exact List.rel_append hw.results (.cons ⟨r', hw.record, rfl⟩ .nil)
    · rw [hstarts, ranEvals_snoc env ran hw.record]
      have hevals : testEvals t (tr ++ [.ended t ((s.tests t).result r'.file)]) =
          testEvals t tr := by
        simp [Event.testEvalOf]
      exact hevals.trans hw.evals
  | collect hpc =>
    refine h.idle_none ⟨rfl, rfl, rfl⟩ (by rw [hpc]; rfl) ?_
    rcases collectPlan_pc env s.sh.plan with hnext | hnext
    · exact hnext ▸ rfl
    · exact hnext ▸ rfl
  | callSetup hpc haux => exact h.idle_none ⟨rfl, rfl, rfl⟩ (by rw [hpc]; rfl) rfl
  | setupEval hpc haux ha heval => exact h.idle_none ⟨rfl, rfl, rfl⟩ (by rw [hpc]; rfl) rfl
  | setupDone hpc => exact h.idle_none ⟨rfl, rfl, rfl⟩ (by rw [hpc]; rfl) rfl
  | init hpc => exact h.idle_none ⟨rfl, rfl, rfl⟩ (by rw [hpc]; rfl) rfl
  | arrive hpc => exact h.idle_none ⟨rfl, rfl, rfl⟩ (by rw [hpc]; rfl) rfl
  | loopEnd hpc hi => exact h.idle_none ⟨rfl, rfl, rfl⟩ (by rw [hpc]; rfl) rfl
  | scheduleFull hpc hfull => exact h.idle ⟨rfl, rfl, rfl⟩ (by rw [hpc]; rfl) rfl
  | scheduleRoom hpc hroom => exact h.idle ⟨rfl, rfl, rfl⟩ (by rw [hpc]; rfl) rfl
  | setAbort hpc => exact h.idle_none ⟨rfl, rfl, rfl⟩ (by rw [hpc]; rfl) rfl
  | readAbort hpc =>
    refine h.idle_none ⟨rfl, rfl, rfl⟩ (by rw [hpc]; rfl) ?_
    show Pc.test? (if _ then _ else _) = none
    split_ifs <;> rfl
  | @lockIo c hpc hlock =>
    refine h.idle ⟨rfl, rfl, rfl⟩ ?_ rfl
    rw [hpc]
    cases c <;> rfl
  | @printNext c j hpc hj =>
    refine h.idle ⟨rfl, rfl, rfl⟩ ?_ rfl
    rw [hpc]
    cases c <;> rfl
  | @printDone c j hpc hj =>
    refine h.idle ⟨rfl, rfl, rfl⟩ ?_ (c.reset_current _)
    rw [hpc]
    exact c.test?_next j
  | @log c j e hpc he =>
    refine h.idle ⟨rfl, rfl, rfl⟩ ?_ rfl
    rw [hpc]
    cases c <;> rfl
  | reduceEnd hpc =>
    refine h.idle_none ⟨rfl, rfl, rfl⟩ (by rw [hpc]; rfl) ?_
    show Pc.test? (if _ then _ else _) = none
    split_ifs <;> rfl
  | reduceLoad hpc hi ht => exact h.idle_none ⟨rfl, rfl, rfl⟩ (by rw [hpc]; rfl) rfl
  | reduceSkip hpc hi ht => exact h.idle_none ⟨rfl, rfl, rfl⟩ (by rw [hpc]; rfl) rfl
  | load hpc => exact h.idle_none ⟨rfl, rfl, rfl⟩ (by rw [hpc]; rfl) rfl
  | add hpc => exact h.idle_none ⟨rfl, rfl, rfl⟩ (by rw [hpc]; rfl) rfl
  | free hpc => exact h.idle_none ⟨rfl, rfl, rfl⟩ (by rw [hpc]; rfl) rfl
  | join hpc hothers => exact h.idle_none ⟨rfl, rfl, rfl⟩ (by rw [hpc]; rfl) rfl
  | callTeardown hpc haux => exact h.idle_none ⟨rfl, rfl, rfl⟩ (by rw [hpc]; rfl) rfl
  | teardownEval hpc haux ha heval => exact h.idle_none ⟨rfl, rfl, rfl⟩ (by rw [hpc]; rfl) rfl
  | teardownDone hpc => exact h.idle_none ⟨rfl, rfl, rfl⟩ (by rw [hpc]; rfl) rfl
  | summary hpc hreport => exact h.idle_none ⟨rfl, rfl, rfl⟩ (by rw [hpc]; rfl) rfl
  | finish hpc => exact h.idle_none ⟨rfl, rfl, rfl⟩ (by rw [hpc]; rfl) rfl
  | stuck hpc => exact absurd rfl hstuck

theorem Pc.test?_blocked {pc : Pc} (h : pc.isBlocked = true) : pc.test? = none := by
  cases pc with
  | blocked b => rfl
  | _ => exact absurd h (by simp [Pc.isBlocked])

theorem releasedPc_test? {env : RunEnv} {t : ℕ} {pc : Pc} (h : pc.isBlocked = true) :
    (releasedPc env t pc).test? = none := by
  cases pc with
  | blocked b =>
    cases b with
    | setup ok =>
      cases ok with
      | true => rfl
      | false =>
        show Pc.test? (if _ then _ else _) = none
        split_ifs <;> rfl
    | tests | reduce i => rfl
  | _ => exact absurd h (by simp [Pc.isBlocked])

/-- In every run the tests of every thread that is not stuck belong to its
program counter. -/
theorem progress_run {env : RunEnv} (hjobs : 2 ≤ env.jobs) {tr : List Event} {s : ParState}
    (h : ParRun env tr s) : ProgressInv env tr s := by
  refine Trace.Run.invariant (I := ProgressInv env) ?_ ?_ h
  · intro t _ _
    have hpc : (ParState.initial.pc t).test? = none := by
      show Pc.test? (if t = 1 then _ else _) = none
      split_ifs <;> rfl
    exact (progress_none hpc).mpr ⟨.nil, rfl⟩
  · intro tr s e s' hrun ih hstep u hu hstuck
    obtain ⟨t, f, ht, hmove, rfl, rfl⟩ | ⟨rfl, hblocked, rfl⟩ := step_cases hstep
    · have hphase := (phaseInv_run hrun).pcs
      by_cases hut : u = t
      · subst hut
        rw [act_pc_self] at hstuck ⊢
        rw [act_tests_self]
        have hnot : s.pc u ≠ .stuck := by
          intro hpc
          cases hmove <;> simp_all [Pc.canStick]
        exact (ih u hu hnot).move (hphase u hu) (plan_final hjobs hrun) hmove hstuck
      · rw [act_pc_other hut] at hstuck ⊢
        rw [act_tests_other hut]
        exact (ih u hu hstuck).idle (hmove.idle hut) rfl rfl
    · have hb := hblocked u hu
      have hnot : s.pc u ≠ .stuck := by
        intro hpc
        rw [hpc] at hb
        exact absurd hb (by simp [Pc.isBlocked])
      refine (ih u hu hnot).idle_none ⟨rfl, rfl, rfl⟩ (Pc.test?_blocked hb) ?_
      rw [passBarrier_pc hu]
      exact releasedPc_test? hb

/-! ### One thread and its slice -/

/-- How many tests the thread has started, where its program counter tells. -/
def Pc.position? : Pc → Option ℕ
  | .collect | .callSetup | .globalSetup _ | .init | .arrive (.setup _) | .blocked (.setup _) =>
    some 0
  | .loop i => some i
  | .body i _ | .schedule i | .store i | .lockIo (.schedule i) | .print (.schedule i) _
  | .log (.schedule i) _ | .readAbort i => some (i + 1)
  | _ => none

/-- The thread `t` has started the first tests of its slice, in order. -/
structure InSlice (env : RunEnv) (t : ℕ) (pc : Pc) (tr : List Event) : Prop where
  started : starts t tr = (List.range (starts t tr).length).map (slot env t)
  le : (starts t tr).length ≤ (finalPlan env).ntests t
  position : ∀ k, pc.position? = some k → (starts t tr).length = k

theorem InSlice.idle {env : RunEnv} {t : ℕ} {pc pc' : Pc} {tr : List Event} {e : Event}
    (h : InSlice env t pc tr) (he : e.startOf t = none)
    (hpos : ∀ k, pc'.position? = some k → pc.position? = some k) :
    InSlice env t pc' (tr ++ [e]) := by
  have hstarts : starts t (tr ++ [e]) = starts t tr := by simp [he]
  refine ⟨?_, ?_, fun k hk => ?_⟩
  · rw [hstarts]
    exact h.started
  · rw [hstarts]
    exact h.le
  · rw [hstarts]
    exact h.position k (hpos k hk)

/-- The next test is counted without wrapping around. -/
theorem InSlice.next {env : RunEnv} {t i : ℕ} {pc : Pc} {tr : List Event} {e : Event}
    (h : InSlice env t pc tr) (hn : (finalPlan env).ntests t < unsignedMod) (he : e.startOf t = none)
    (hpc : pc.position? = some (i + 1)) :
    InSlice env t (.loop ((i + 1) % unsignedMod)) (tr ++ [e]) := by
  refine h.idle he fun k hk => ?_
  have hi := h.position _ hpc
  have hle := h.le
  rw [Nat.mod_eq_of_lt (by omega)] at hk
  exact hpc.trans hk

theorem InSlice.move {env : RunEnv} {s : ParState} {g t : ℕ} {f : Effect} {tr : List Event}
    (hphase : PhaseOk env g t (s.pc t)) (hplan : 1 ≤ g → s.sh.plan = finalPlan env)
    (hn : (finalPlan env).ntests t < unsignedMod) (h : InSlice env t (s.pc t) tr)
    (hmove : Move env s t f) : InSlice env t f.pc (tr ++ [f.event]) := by
  cases hmove with
  | @loopStart i r hpc hi hr =>
    rw [hpc] at hphase h
    have hm : (starts t tr).length = i := h.position i rfl
    rw [hplan hphase.1.ge] at hi
    have hstarts : starts t (tr ++ [.started t (s.sh.plan.startidx t + i)]) =
        starts t tr ++ [slot env t i] := by
      simp [Event.startOf, slot, hplan hphase.1.ge]
    have hlen : (starts t tr ++ [slot env t i]).length = i + 1 := by
      rw [List.length_append, hm, List.length_singleton]
    refine ⟨?_, ?_, fun k hk => ?_⟩
    · show starts t (tr ++ [.started t (s.sh.plan.startidx t + i)]) =
        (List.range (starts t (tr ++ [.started t (s.sh.plan.startidx t + i)])).length).map _
      have hstarted := h.started
      rw [hm] at hstarted
      rw [hstarts, hlen, List.range_succ, List.map_append, ← hstarted]
      rfl
    · show (starts t (tr ++ [.started t (s.sh.plan.startidx t + i)])).length ≤ _
      rw [hstarts, hlen]
      exact hi
    · show (starts t (tr ++ [.started t (s.sh.plan.startidx t + i)])).length = k
      rw [hstarts, hlen]
      exact Option.some.inj hk
  | @store i r hpc hr =>
    rw [hpc] at h
    simp only [afterTest]
    split_ifs
    · exact h.idle rfl fun k hk => hk
    · exact h.next hn rfl rfl
    · exact h.idle rfl fun k hk => absurd hk (by simp [Pc.position?])
    · exact h.idle rfl fun k hk => absurd hk (by simp [Pc.position?])
  | @readAbort i hpc =>
    rw [hpc] at h
    simp only [ParState.goto]
    split_ifs
    · exact h.idle rfl fun k hk => absurd hk (by simp [Pc.position?])
    · exact h.next hn rfl rfl
  | collect hpc =>
    rw [hpc] at h
    refine h.idle rfl fun k hk => ?_
    rcases collectPlan_pc env s.sh.plan with hnext | hnext
    · simpa only [hnext, Pc.position?] using hk
    · simpa only [hnext, Pc.position?] using hk
  | setAbort hpc | loopEnd hpc hi | reduceLoad hpc hi ht | reduceSkip hpc hi ht | load hpc
  | add hpc | free hpc | join hpc hothers | callTeardown hpc haux
  | teardownEval hpc haux ha heval | teardownDone hpc | summary hpc hreport | finish hpc
  | stuck hpc => exact h.idle rfl fun k hk => absurd hk (by simp [Pc.position?, ParState.goto, ParState.stick])
  | reduceEnd hpc =>
    refine h.idle rfl fun k hk => absurd hk ?_
    simp only [ParState.goto]
    split_ifs <;> simp [Pc.position?]
  | callSetup hpc haux | setupEval hpc haux ha heval | setupDone hpc | init hpc
  | testEval hpc hr haux ha heval | testDone hpc hr haux hk | scheduleFull hpc hfull
  | scheduleRoom hpc hroom =>
    rw [hpc] at h
    exact h.idle rfl fun k hk => hk
  | @arrive b hpc =>
    rw [hpc] at h
    exact h.idle rfl fun k hk => by cases b <;> exact hk
  | @lockIo c hpc hlock =>
    rw [hpc] at h
    exact h.idle rfl fun k hk => by cases c <;> exact hk
  | @printNext c j hpc hj =>
    rw [hpc] at h
    exact h.idle rfl fun k hk => by cases c <;> exact hk
  | @printDone c j hpc hj =>
    rw [hpc] at h
    refine h.idle rfl fun k hk => ?_
    cases c with
    | schedule i => exact hk
    | flush => exact absurd hk (by simp [PrintCall.next, Pc.position?])
  | @log c j e hpc he =>
    rw [hpc] at h
    exact h.idle rfl fun k hk => by cases c <;> exact hk

/-- In every run every thread goes through its slice in order. -/
theorem inSlice_run {env : RunEnv} (hjobs : 2 ≤ env.jobs)
    (hn : ∀ t < env.jobs, (finalPlan env).ntests t < unsignedMod) {tr : List Event} {s : ParState}
    (h : ParRun env tr s) : ∀ t < env.jobs, InSlice env t (s.pc t) tr := by
  refine Trace.Run.invariant (I := fun tr s => ∀ t < env.jobs, InSlice env t (s.pc t) tr) ?_ ?_ h
  · intro t _
    refine ⟨rfl, Nat.zero_le _, fun k hk => ?_⟩
    have hpos : (ParState.initial.pc t).position? = some 0 := by
      show Pc.position? (if t = 1 then _ else _) = some 0
      split_ifs <;> rfl
    exact Option.some.inj (hpos.symm.trans hk)
  · intro tr s e s' hrun ih hstep u hu
    obtain ⟨t, f, ht, hmove, rfl, rfl⟩ | ⟨rfl, hblocked, rfl⟩ := step_cases hstep
    · by_cases hut : u = t
      · subst hut
        rw [act_pc_self]
        exact (ih u hu).move ((phaseInv_run hrun).pcs u hu) (plan_final hjobs hrun) (hn u hu) hmove
      · rw [act_pc_other hut]
        exact (ih u hu).idle (hmove.idle hut).start fun k hk => hk
    · have hb := hblocked u hu
      refine (ih u hu).idle rfl fun k hk => ?_
      rw [passBarrier_pc hu] at hk
      cases hp : s.pc u with
      | blocked b =>
        rw [hp] at hk
        cases b with
        | setup ok =>
          cases ok with
          | true => exact hk
          | false =>
            refine absurd hk ?_
            simp only [releasedPc, afterBarrier]
            split_ifs <;> simp [Pc.position?]
        | tests | reduce i => exact absurd hk (by simp [releasedPc, afterBarrier, Pc.position?])
      | _ =>
        rw [hp] at hb
        exact absurd hb (by simp [Pc.isBlocked])

/-! ### The end of a slice -/

/-- The thread has left its loop over the tests. -/
def Pc.pastLoop : Pc → Bool
  | .lockIo .flush | .print .flush _ | .log .flush _ | .arrive .tests | .blocked .tests
  | .reduce _ | .load _ | .add _ _ | .arrive (.reduce _) | .blocked (.reduce _) | .free
  | .returned | .join | .callTeardown | .globalTeardown _ | .summary | .finish _ | .done _ => true
  | _ => false

/-- No message of a failed assertion has been lost for want of memory. -/
def NoFatal (tr : List Event) : Prop := ∀ t, Event.evaluated t .test false none ∉ tr

/-- The thread looks at `early_abort`. -/
def Pc.aborting : Pc → Bool
  | .setAbort | .readAbort _ => true
  | _ => false

/-- Without fail-fast and fatal errors a thread leaves its loop at the end of its
slice. -/
structure RunsOn (env : RunEnv) (t : ℕ) (pc : Pc) (tests : TestState) (tr : List Event) :
    Prop where
  fatal : pc.test?.isSome = true → tests.current.fatalError = false
  complete : pc.pastLoop = true → (starts t tr).length = (finalPlan env).ntests t
  abort : pc.aborting = false

theorem RunsOn.idle {env : RunEnv} {t : ℕ} {pc pc' : Pc} {tests tests' : TestState}
    {tr : List Event} {e : Event} (h : RunsOn env t pc tests tr) (he : e.startOf t = none)
    (hfatal : pc'.test?.isSome = true → pc.test?.isSome = true ∧ tests'.current = tests.current)
    (hpast : pc'.pastLoop = true → pc.pastLoop = true) (habort : pc'.aborting = false) :
    RunsOn env t pc' tests' (tr ++ [e]) := by
  refine ⟨fun ht => ?_, fun hp => ?_, habort⟩
  · obtain ⟨hsome, hcur⟩ := hfatal ht
    rw [hcur]
    exact h.fatal hsome
  · rw [← h.complete (hpast hp)]
    simp [he]

theorem RunsOn.move {env : RunEnv} {s : ParState} {g t : ℕ} {f : Effect} {tr : List Event}
    (hphase : PhaseOk env g t (s.pc t)) (hplan : 1 ≤ g → s.sh.plan = finalPlan env)
    (hslice : InSlice env t (s.pc t) tr) (hff : env.failFast = false)
    (hlost : f.event ≠ .evaluated t .test false none)
    (h : RunsOn env t (s.pc t) (s.tests t) tr) (hmove : Move env s t f) :
    RunsOn env t f.pc f.tests (tr ++ [f.event]) := by
  cases hmove with
  | loopStart hpc hi hr => exact ⟨fun _ => rfl, fun hp => absurd hp (by simp [Pc.pastLoop]), rfl⟩
  | testEval hpc hr haux ha heval =>
    rw [hpc] at h
    refine ⟨fun _ => ?_, fun hp => absurd hp (by simp [Pc.pastLoop]), rfl⟩
    rw [← Bool.not_eq_true]
    intro hfatal
    rcases assertTrue_fatal heval hfatal with hold | ⟨hfalse, hnone⟩
    · exact absurd (hold.symm.trans (h.fatal rfl)) (by simp)
    · exact hlost (by simp [hfalse, hnone])
  | @loopEnd i hpc hi =>
    rw [hpc] at hphase hslice
    refine ⟨fun ht => absurd ht (by simp [ParState.goto, Pc.test?]), fun _ => ?_, rfl⟩
    rw [hplan hphase.1.ge] at hi
    have hm := hslice.position i rfl
    have hle := hslice.le
    have hlen : (starts t (tr ++ [(s.goto t (.lockIo .flush)).event])).length =
        (starts t tr).length := by
      simp [ParState.goto, Event.startOf]
    rw [hlen]
    omega
  | @store i r hpc hr =>
    rw [hpc] at h
    have hnext : afterTest env (testStore r.file (s.tests t)) i =
        .loop ((i + 1) % unsignedMod) := by
      have hfatal : (testStore r.file (s.tests t)).current.fatalError = false := h.fatal rfl
      have hverdict : testVerdict env.failFast (testStore r.file (s.tests t)) = true := by
        simp [testVerdict, hff, hfatal]
      rw [afterTest, if_pos hverdict, if_neg (by simp [hff])]
    rw [hnext]
    exact h.idle rfl (fun ht => absurd ht (by simp [Pc.test?]))
      (fun hp => absurd hp (by simp [Pc.pastLoop])) rfl
  | readAbort hpc | setAbort hpc =>
    rw [hpc] at h
    exact absurd h.abort (by simp [Pc.aborting])
  | collect hpc =>
    have hnext := collectPlan_pc env s.sh.plan
    refine h.idle rfl (fun ht => absurd ht ?_) (fun hp => absurd hp ?_) ?_
    · rcases hnext with hnext | hnext <;> simp [hnext, Pc.test?]
    · rcases hnext with hnext | hnext <;> simp [hnext, Pc.pastLoop]
    · rcases hnext with hnext | hnext <;> simp [hnext, Pc.aborting]
  | callSetup hpc haux | setupEval hpc haux ha heval | setupDone hpc | init hpc
  | stuck hpc =>
    exact h.idle rfl (fun ht => absurd ht (by simp [Pc.test?, ParState.goto, ParState.stick]))
      (fun hp => absurd hp (by simp [Pc.pastLoop, ParState.goto, ParState.stick])) rfl
  | @arrive b hpc =>
    rw [hpc] at h
    refine h.idle rfl (fun ht => absurd ht (by simp [Pc.test?])) (fun hp => ?_) rfl
    cases b <;> exact hp
  | testDone hpc hr haux hk | scheduleFull hpc hfull | scheduleRoom hpc hroom =>
    rw [hpc] at h
    exact h.idle rfl (fun _ => ⟨rfl, rfl⟩)
      (fun hp => absurd hp (by simp [Pc.pastLoop, ParState.goto])) rfl
  | @lockIo c hpc hlock =>
    rw [hpc] at h
    cases c <;> exact h.idle rfl (fun ht => ⟨ht, rfl⟩) (fun hp => hp) rfl
  | @printNext c j hpc hj =>
    rw [hpc] at h
    cases c <;> exact h.idle rfl (fun ht => ⟨ht, rfl⟩) (fun hp => hp) rfl
  | @printDone c j hpc hj =>
    rw [hpc] at h
    cases c <;> exact h.idle rfl (fun ht => ⟨ht, rfl⟩) (fun hp => hp) rfl
  | @log c j e hpc he =>
    rw [hpc] at h
    cases c <;> exact h.idle rfl (fun ht => ⟨ht, rfl⟩) (fun hp => hp) rfl
  | reduceEnd hpc =>
    rw [hpc] at h
    refine h.idle rfl (fun ht => absurd ht ?_) (fun _ => rfl) ?_
    · simp only [ParState.goto]
      split_ifs <;> simp [Pc.test?]
    · simp only [ParState.goto]
      split_ifs <;> rfl
  | reduceLoad hpc hi ht | reduceSkip hpc hi ht | load hpc | add hpc | free hpc
  | join hpc hothers | callTeardown hpc haux | teardownEval hpc haux ha heval | teardownDone hpc
  | summary hpc hreport | finish hpc =>
    rw [hpc] at h
    exact h.idle rfl (fun ht => absurd ht (by simp [Pc.test?, ParState.goto])) (fun _ => rfl) rfl

/-- In every run without fail-fast and fatal errors, a thread whose log is
initialised leaves its loop at the end of its slice. -/
theorem runsOn_run {env : RunEnv} (hjobs : 2 ≤ env.jobs)
    (hn : ∀ t < env.jobs, (finalPlan env).ntests t < unsignedMod) (hff : env.failFast = false)
    (hinit : ∀ t < env.jobs, initOk env t = true) {tr : List Event} {s : ParState}
    (h : ParRun env tr s) (hlost : NoFatal tr) :
    ∀ t < env.jobs, RunsOn env t (s.pc t) (s.tests t) tr := by
  refine Trace.Run.invariant (I := fun tr s => NoFatal tr →
    ∀ t < env.jobs, RunsOn env t (s.pc t) (s.tests t) tr) ?_ ?_ h hlost
  · intro _ t _
    have hpc : ParState.initial.pc t = if t = 1 then .collect else .init := rfl
    rw [hpc]
    refine ⟨fun ht => absurd ht ?_, fun hp => absurd hp ?_, ?_⟩
    · split_ifs <;> simp [Pc.test?]
    · split_ifs <;> simp [Pc.pastLoop]
    · split_ifs <;> rfl
  · intro tr s e s' hrun ih hstep hlost u hu
    have hlost' : NoFatal tr := fun t ht => hlost t (List.mem_append_left _ ht)
    have hold := ih hlost' u hu
    have hphase := (phaseInv_run hrun).pcs u hu
    obtain ⟨t, f, ht, hmove, rfl, rfl⟩ | ⟨rfl, hblocked, rfl⟩ := step_cases hstep
    · by_cases hut : u = t
      · subst hut
        rw [act_pc_self, act_tests_self]
        refine hold.move hphase (plan_final hjobs hrun) (inSlice_run hjobs hn hrun u hu) hff ?_ hmove
        exact fun he => hlost u (List.mem_append_right _ (by simp [he]))
      · rw [act_pc_other hut, act_tests_other hut]
        exact hold.idle (hmove.idle hut).start (fun ht => ⟨ht, rfl⟩) (fun hp => hp) hold.abort
    · have hb := hblocked u hu
      rw [passBarrier_pc hu]
      cases hp : s.pc u with
      | blocked b =>
        rw [hp] at hold hphase
        cases b with
        | setup ok =>
          obtain ⟨-, rfl⟩ := hphase
          rw [hinit u hu] at hold ⊢
          exact hold.idle rfl (fun ht => absurd ht (by simp [releasedPc, afterBarrier, Pc.test?]))
            (fun hp => absurd hp (by simp [releasedPc, afterBarrier, Pc.pastLoop])) rfl
        | tests | reduce i =>
          exact hold.idle rfl (fun ht => absurd ht (by simp [releasedPc, afterBarrier, Pc.test?]))
            (fun _ => rfl) rfl
      | _ =>
        rw [hp] at hb
        exact absurd hb (by simp [Pc.isBlocked])

/-! ### Every test once -/

/-- The tests that were collected fit the `unsigned` indices of the driver. -/
def FitsUnsigned (env : RunEnv) : Prop :=
  ∀ rs, env.collected = some rs → env.recordsMalloc = true → rs.val.length ≤ unsignedMod

theorem finalPlan_ntests_lt {env : RunEnv} (hjobs : 2 ≤ env.jobs) (hfits : FitsUnsigned env)
    {t : ℕ} (ht : t < env.jobs) : (finalPlan env).ntests t < unsignedMod := by
  by_cases hnone : env.collected = none ∨ env.recordsMalloc = false
  · rw [finalPlan_ntests hnone]
    decide
  · rw [not_or, Bool.not_eq_false] at hnone
    obtain ⟨rs, hrs⟩ := Option.ne_none_iff_exists'.mp hnone.1
    rw [((finalPlan_eq hrs hnone.2).2 t ht).1, sliceLength]
    have hlen := hfits rs hrs hnone.2
    have hdiv : rs.val.length / env.jobs ≤ rs.val.length / 2 := Nat.div_le_div_left hjobs (by omega)
    have hmod : unsignedMod = 2 ^ 32 := rfl
    split_ifs <;> omega

/-- The slice of the thread `t`, as record indices. -/
def slice (env : RunEnv) (t : ℕ) : List ℕ :=
  List.range' ((finalPlan env).startidx t) ((finalPlan env).ntests t)

theorem slice_eq (env : RunEnv) (t : ℕ) :
    slice env t = (List.range ((finalPlan env).ntests t)).map (slot env t) :=
  List.range'_eq_map_range

/-- A thread has started the beginning of its slice. -/
theorem InSlice.prefix_slice {env : RunEnv} {t : ℕ} {pc : Pc} {tr : List Event}
    (h : InSlice env t pc tr) : starts t tr <+: slice env t := by
  rw [h.started, slice_eq]
  refine List.IsPrefix.map _ ?_
  rw [← Nat.sub_add_cancel h.le, Nat.add_comm, List.range_add]
  exact List.prefix_append ..

/-- How the tests `rs` are distributed and run, when there is no fatal error. -/
structure RunsEachOnce (env : RunEnv) (rs : List TestRec) : Prop where
  /-- The slices are disjoint and cover all indices. -/
  slices : ∀ idx, (∃ t < env.jobs, idx ∈ slice env t) ↔ idx < rs.length
  disjoint : ∀ t < env.jobs, ∀ u < env.jobs, t ≠ u → (slice env t).Disjoint (slice env u)
  balanced : ∀ t < env.jobs, ∀ u < env.jobs, (slice env t).length ≤ (slice env u).length + 1
  /-- All threads see them, and the records in the order of the tree. -/
  published : ∀ tr s, ParRun env tr s → 1 ≤ releases tr → s.sh.plan = finalPlan env
  records : ∀ idx, (finalPlan env).records idx = rs[idx]?
  /-- Every thread runs its slice in order, to the end when it leaves its loop. -/
  inOrder : ∀ tr s, ParRun env tr s → NoFatal tr → ∀ t < env.jobs, starts t tr <+: slice env t
  toTheEnd : ∀ tr s, ParRun env tr s → NoFatal tr → ∀ t < env.jobs, (s.pc t).pastLoop = true →
    starts t tr = slice env t
  once : ∀ tr s, ParRun env tr s → NoFatal tr → (∀ t < env.jobs, (s.pc t).pastLoop = true) →
    ∀ idx < rs.length, ∃ t < env.jobs, (starts t tr).count idx = 1 ∧
      ∀ u < env.jobs, u ≠ t → idx ∉ starts u tr

/-- Without fail-fast every collected test is run exactly once, by one thread, when
the records are allocated, all logs initialised and the tests at most `2 ^ 32`. -/
theorem parallel_runs_each_test_once (env : RunEnv) (rs : { l : List TestRec // l.length < 2 ^ 63 })
    (hjobs : 2 ≤ env.jobs) (hcollected : env.collected = some rs)
    (hmalloc : env.recordsMalloc = true) (hlen : rs.val.length ≤ unsignedMod)
    (hinit : ∀ t < env.jobs, initOk env t = true) (hff : env.failFast = false) :
    RunsEachOnce env rs.val := by
  have hfits : FitsUnsigned env := by
    intro rs' hrs' _
    obtain rfl := Option.some.inj (hcollected.symm.trans hrs')
    exact hlen
  have hn : ∀ t < env.jobs, (finalPlan env).ntests t < unsignedMod :=
    fun t ht => finalPlan_ntests_lt hjobs hfits ht
  obtain ⟨hrecords, hplan⟩ := finalPlan_eq hcollected hmalloc
  have hmem : ∀ t < env.jobs, ∀ idx, idx ∈ slice env t ↔
      sliceStart rs.val.length env.jobs t ≤ idx ∧
        idx < sliceStart rs.val.length env.jobs t + sliceLength rs.val.length env.jobs t := by
    intro t ht idx
    rw [slice, (hplan t ht).1, (hplan t ht).2, List.mem_range'_1]
  have hend : ∀ t < env.jobs, sliceStart rs.val.length env.jobs t +
      sliceLength rs.val.length env.jobs t ≤ rs.val.length := by
    intro t ht
    rw [← sliceStart_succ]
    calc sliceStart rs.val.length env.jobs (t + 1)
        ≤ sliceStart rs.val.length env.jobs env.jobs := sliceStart_mono _ _ ht
      _ = rs.val.length := sliceStart_jobs (by omega)
  have htoTheEnd : ∀ tr s, ParRun env tr s → NoFatal tr → ∀ t < env.jobs,
      (s.pc t).pastLoop = true → starts t tr = slice env t := by
    intro tr s h hlost t ht hpast
    have hlast := (runsOn_run hjobs hn hff hinit h hlost t ht).complete hpast
    rw [(inSlice_run hjobs hn h t ht).started, hlast, slice_eq]
  refine ⟨?_, ?_, ?_, fun tr s h hg => plan_final hjobs h hg, ?_,
    fun tr s h _ t ht => (inSlice_run hjobs hn h t ht).prefix_slice, htoTheEnd, ?_⟩
  · intro idx
    constructor
    · rintro ⟨t, ht, hidx⟩
      have := (hmem t ht idx).mp hidx
      have := hend t ht
      omega
    · intro hidx
      have hpos : 0 < env.jobs := by omega
      obtain ⟨t, ⟨ht, hrange⟩, -⟩ := slice_unique hpos hidx
      exact ⟨t, ht, (hmem t ht idx).mpr hrange⟩
  · intro t ht u hu htu idx hidx hidx'
    have h1 := (hmem t ht idx).mp hidx
    have h2 := (hmem u hu idx).mp hidx'
    have := hend t ht
    have hpos : 0 < env.jobs := by omega
    have hidx : idx < rs.val.length := by omega
    exact htu ((slice_unique hpos hidx).unique ⟨ht, h1⟩ ⟨hu, h2⟩)
  · intro t ht u hu
    rw [slice, slice, List.length_range', List.length_range', (hplan t ht).1, (hplan u hu).1]
    exact sliceLength_le ..
  · intro idx
    rw [hrecords, copyRecords_eq (by omega) (fun _ _ => rfl)]
    rfl
  · intro tr s h hlost hpast idx hidx
    have hpos : 0 < env.jobs := by omega
    obtain ⟨t, ⟨ht, hrange⟩, huniq⟩ := slice_unique hpos hidx
    refine ⟨t, ht, ?_, fun u hu hut hstarted => ?_⟩
    · rw [htoTheEnd tr s h hlost t ht (hpast t ht)]
      exact List.count_eq_one_of_mem (List.nodup_range' ..) ((hmem t ht idx).mpr hrange)
    · rw [htoTheEnd tr s h hlost u hu (hpast u hu)] at hstarted
      exact hut (huniq u ⟨hu, (hmem u hu idx).mp hstarted⟩)

/-- Two tests that pass, on two threads. -/
def twoTestsEnv (recordsMalloc : Bool) : RunEnv :=
  { RunEnv.ofTests 2 false (.global [] []) [.plain [97] [102] [], .plain [98] [102] []] (by simp)
    with recordsMalloc := recordsMalloc }

theorem parallel_runs_each_test_once_run :
    RunsEachOnce (twoTestsEnv true) [.plain [97] [102] [], .plain [98] [102] []] :=
  parallel_runs_each_test_once (twoTestsEnv true)
    ⟨[.plain [97] [102] [], .plain [98] [102] []], by simp⟩ (by decide) rfl rfl (by decide)
    (by decide) rfl

/-- Without memory for the records the threads leave their loops at once. -/
theorem parallel_runs_no_test :
    ¬ RunsEachOnce (twoTestsEnv false) [.plain [97] [102] [], .plain [98] [102] []] := by
  intro h
  have hrun : (Trace.exec (parNext (twoTestsEnv false))
      ([1, 1, 1, 0, 0].map some ++ [none] ++ [0, 1].map some) .initial).map
      (fun r => (r.1, (r.2.pc 0).pastLoop, (r.2.pc 1).pastLoop)) =
      some ([.quiet 1, .quiet 1, .waits 1, .quiet 0, .waits 0, .released, .quiet 0, .quiet 1],
        true, true) := by decide +kernel
  obtain ⟨⟨tr, s⟩, hexec, heq⟩ := Option.map_eq_some_iff.mp hrun
  obtain ⟨htr, hpcs⟩ := Prod.mk.inj heq
  obtain ⟨h0, h1⟩ := Prod.mk.inj hpcs
  have hpast : ∀ t < (twoTestsEnv false).jobs, (s.pc t).pastLoop = true := by
    intro t ht
    obtain rfl | rfl : t = 0 ∨ t = 1 := by
      change t < 2 at ht
      omega
    · exact h0
    · exact h1
  dsimp only at htr
  have hlost : NoFatal tr := by
    intro t
    simp [htr]
  obtain ⟨t, -, hcount, -⟩ :=
    h.once tr s (parRun_of_exec hexec) hlost hpast 0 (by decide)
  simp [htr, Event.startOf, List.filterMap_cons] at hcount

end Cldm
