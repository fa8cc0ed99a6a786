/-
The results that a parallel run prints are those of the sequential run.

Without fail-fast, and when the allocator answers every request, every thread runs
its whole slice and prints its results in order.  The slices, one after the other,
are the indices of all tests, so the results of the threads, one thread after the
other, are what the sequential run prints; the numbers in front of them are the same
as well, though the threads share them out in any order.

* `ResultsOf.eq_filterMap` — results as a function of the indices;
* `slices_eq_range` — the slices make up all indices;
* `seqLoop_starts` — the sequential loop runs every test;
* `parallel_results_agree` — what both drivers print.
-/
import Cldm.ParallelVerdict

namespace Cldm

/-! ### Results and slices -/

/-- The results of the tests with these indices. -/
theorem ResultsOf.eq_filterMap {aux : AuxProcs} {records : ℕ → Option TestRec} {ran : List ℕ}
    {results : List BufferedTest} (h : ResultsOf aux records ran results) :
    results = ran.filterMap fun idx => (records idx).map (resultOf aux idx) := by
  induction h with
  | nil => rfl
  | @cons idx e ran results hhead _ ih =>
    obtain ⟨r, hr, rfl⟩ := hhead
    simp only [List.filterMap_cons, hr, Option.map_some, ih]

/-- The lengths of lists that are strung together add up. -/
theorem length_flatMap_range {α : Type*} (f : ℕ → List α) (n : ℕ) :
    ((List.range n).flatMap f).length = ∑ t ∈ Finset.range n, (f t).length := by
  induction n with
  | zero => rfl
  | succ n ih =>
    rw [List.range_succ, List.flatMap_append, List.length_append, ih, Finset.sum_range_succ,
      List.flatMap_singleton]

section

variable {env : RunEnv} {rs : List TestRec}

/-- The slices, one after the other, are the indices of all tests. -/
theorem slices_eq_range (hsucc : Succeeds env rs) :
    (List.range env.jobs).flatMap (slice env) = List.range rs.length := by
  have hjobs := hsucc.jobs
  obtain ⟨hlen, hcollected⟩ := hsucc.collected
  have hplan := (finalPlan_eq hcollected hsucc.recordsMalloc).2
  have hfirst : ∀ m ≤ env.jobs, (List.range m).flatMap (slice env) =
      List.range (sliceStart rs.length env.jobs m) := by
    intro m hm
    induction m with
    | zero =>
      rw [sliceStart, Nat.zero_mul, Nat.zero_min]
      rfl
    | succ m ih =>
      obtain ⟨hn, hstart⟩ := hplan m hm
      have hslice : slice env m = List.range' (sliceStart rs.length env.jobs m)
          (sliceLength rs.length env.jobs m) := by
        rw [slice, hn, hstart]
      rw [List.range_succ, List.flatMap_append, ih (by omega), List.flatMap_singleton, hslice,
        sliceStart_succ, List.range_eq_range', List.range_eq_range', ← List.range'_append_1,
        Nat.zero_add]
  rw [hfirst env.jobs le_rfl, sliceStart_jobs (by omega)]

/-! ### The parallel run -/

/-- When the allocator answers every request no message is lost. -/
theorem noFatal_run (hre : ∀ t n, env.realloc t n = true) {tr : List Event} {s : ParState}
    (h : ParRun env tr s) : NoFatal tr := by
  refine Trace.Run.invariant (I := fun tr _ => NoFatal tr) (fun t => List.not_mem_nil) ?_ h
  intro tr s e s' _ ih hstep t hmem
  rcases List.mem_append.mp hmem with hold | hnew
  · exact ih t hold
  · obtain ⟨u, f, hu, hmove, rfl, -⟩ | ⟨rfl, -, -⟩ := step_cases hstep
    · have he := (List.mem_singleton.mp hnew).symm
      cases hmove with
      | testEval _ _ _ _ heval =>
        obtain ⟨rfl, -, hfalse, hnone⟩ := Event.evaluated.inj he
        -- a false assertion has left its message
        have hlen := (assertTrue_records (hre u) heval).1
        rw [hnone, hfalse] at hlen
        exact absurd hlen (by simp)
      | _ => exact absurd he (by simp [ParState.goto, ParState.stick])
    · exact absurd (List.mem_singleton.mp hnew) (by simp)

/-- What a thread of a finished run has printed. -/
theorem prints_of_done (hsucc : Succeeds env rs) (hff : env.failFast = false)
    (hre : ∀ t n, env.realloc t n = true) {tr : List Event} {s : ParState} {status : ℕ}
    (h : ParRun env tr s) (hpc : s.pc 0 = .done status) {t : ℕ} (ht : t < env.jobs) :
    (s.pc t).flushed = true ∧ starts t tr = slice env t ∧ prints t tr =
      (slice env t).filterMap fun idx => (rs[idx]?).map (resultOf env.auxprocs idx) := by
  have hjobs := hsucc.jobs
  have hn : ∀ u < env.jobs, (finalPlan env).ntests u < unsignedMod :=
    fun u hu => finalPlan_ntests_lt hjobs hsucc.fitsUnsigned hu
  have hjoined : (s.pc 0).joined = true := by rw [hpc]; rfl
  have hflushed : (s.pc t).flushed = true := by
    by_cases ht0 : t = 0
    · rw [ht0, hpc]
      rfl
    · rw [(joinInv_run (by omega) hsucc.init h).others hjoined t ht ht0]
      rfl
  have hstarts : starts t tr = slice env t := by
    have hlast := (runsOn_run hjobs hn hff hsucc.init h (noFatal_run hre h) t ht).complete
      (joined_tests hsucc h hjoined ht).1
    rw [(inSlice_run hjobs hn h t ht).started, hlast, slice_eq]
  refine ⟨hflushed, hstarts, ?_⟩
  have hresults := (prints_of_flushed hjobs h ht hflushed).eq_filterMap
  rw [hstarts] at hresults
  rw [hresults]
  exact List.filterMap_congr fun idx _ => by rw [hsucc.records]

/-! ### The sequential run -/

/-- Without fail-fast and fatal errors the sequential loop runs every test. -/
theorem seqLoop_starts (hff : env.failFast = false) (hre : ∀ n, env.realloc 0 n = true)
    {s s' : SeqState} {es : List Bool} {failed idx : ℕ} (hrun : SeqRun s es failed)
    (h : seqLoop env idx rs s = some s') :
    starts 0 s'.trace = starts 0 s.trace ++ List.range' idx rs.length := by
  induction rs generalizing s es failed idx with
  | nil =>
    obtain rfl := Option.some.inj h
    simp
  | cons r rs ih =>
    obtain ⟨s₁, hs₁, hrun₁, -⟩ := hrun.testRun hre idx r
    simp only [seqLoop, Option.bind_eq_bind, hs₁, Option.bind_some, hff, Bool.not_false,
      Bool.true_or, if_true] at h
    rw [ih hrun₁ h, (seqTestRun_runs hs₁).starts, List.append_assoc, List.length_cons,
      List.range'_succ]
    rfl

theorem seqRunTests_starts (hff : env.failFast = false) (hre : ∀ n, env.realloc 0 n = true)
    (hmalloc : env.logMalloc 0 = true) {status : ℕ} {tr : List Event}
    (h : seqRunTests env rs = some (status, tr)) : starts 0 tr = List.range rs.length := by
  have hrun₀ : SeqRun ⟨(testInit 0 true true TestState.static).2, 0, []⟩ [] 0 :=
    ⟨rfl, rfl, testInit_logOk rfl, rfl, rfl⟩
  have hinit : testInit 0 (env.logMalloc 0) true TestState.static =
      (true, (testInit 0 true true TestState.static).2) := by
    rw [hmalloc]
    rfl
  simp only [seqRunTests, hinit, if_true, Option.bind_eq_bind, Option.bind_eq_some_iff,
    Option.pure_def, Option.some.injEq, Prod.mk.injEq, Prod.exists] at h
  obtain ⟨s₁, hs₁, s₂, hs₂, s₃, hs₃, st, report, -, -, rfl⟩ := h
  obtain ⟨s₁', hs₁', hrun₁, -⟩ := hrun₀.global hre .globalSetup env.auxprocs.globalSetup
  obtain rfl := Option.some.inj (hs₁.symm.trans hs₁')
  have hloop := seqLoop_starts hff hre hrun₁ hs₂
  -- the global procedures start no test
  have hsetup : starts 0 s₁.trace = [] := by
    have hruns := (evalProc_runs hs₁).starts
    simpa [Event.startOf] using hruns
  have hteardown : starts 0 s₃.trace = starts 0 s₂.trace := by
    have hruns := (evalProc_runs hs₃).starts
    simpa [Event.startOf] using hruns
  obtain ⟨-, -, -, -, -, hprint, -⟩ := seqPrintEntry_foldl s₃.tests.buffered s₃
  have hlast : starts 0 (seqPrint s₃).trace = List.range rs.length := by
    refine hprint.trans ?_
    rw [hteardown, hloop, hsetup, List.range_eq_range']
    rfl
  simpa [Event.startOf, List.filterMap_cons] using hlast

/-! ### Both drivers -/

/-- The results of all tests, and their numbers, as the sequential run `tr'` and the
parallel run `tr` of `env` print them. -/
structure PrintsSame (env : RunEnv) (tr tr' : List Event) : Prop where
  results : (List.range env.jobs).flatMap (fun t => prints t tr) = prints 0 tr'
  indices : printIndices tr = printIndices tr'

/-- Every finished parallel run of `env` prints what the sequential run prints. -/
def ResultsAgree (env : RunEnv) : Prop :=
  ∃ status' tr', sequentialRun { env with jobs := 1 } = some (status', tr') ∧
    ∀ tr s status, ParRun env tr s → s.pc 0 = .done status → PrintsSame env tr tr'

/-- Without fail-fast and with all memory every parallel run that ends has printed the
results of the sequential run, thread by thread, under the same numbers. -/
theorem parallel_results_agree (env : RunEnv) (rs : List TestRec) (hsucc : Succeeds env rs)
    (hff : env.failFast = false) (hre : ∀ t n, env.realloc t n = true) : ResultsAgree env := by
  have hjobs := hsucc.jobs
  obtain ⟨hlen, hcollected⟩ := hsucc.collected
  have hmalloc : env.logMalloc 0 = true :=
    (Bool.and_eq_true_iff.mp (hsucc.init 0 (by omega))).1
  obtain ⟨status', tr', hseq, -, -⟩ := sequential_status hsucc (hre 0)
  have hseq' : seqRunTests { env with jobs := 1 } rs = some (status', tr') := by
    rw [← hseq, sequentialRun, if_neg (by simp), hcollected]
  have hstarts := @seqRunTests_starts { env with jobs := 1 } rs hff (hre 0) hmalloc _ _ hseq'
  obtain ⟨k, -, hrange, hresults, hprints, hindices⟩ := seqRunTests_printed hseq'
  have hk : k = rs.length := by
    have heq := congrArg List.length (hrange.symm.trans hstarts)
    simpa using heq
  refine ⟨status', tr', hseq, fun tr s status h hpc => ⟨?_, ?_⟩⟩
  · rw [hprints, hresults.eq_filterMap, hstarts, ← slices_eq_range hsucc, List.filterMap_flatMap]
    exact List.flatMap_congr fun t ht =>
      (prints_of_done hsucc hff hre h hpc (List.mem_range.mp ht)).2.2
  · -- as many results are printed as there are indices in the slices
    have hlength : (printIndices tr).length = rs.length := by
      have hslices := congrArg List.length (slices_eq_range hsucc)
      rw [length_flatMap_range, List.length_range] at hslices
      rw [printIndices_length (by omega) h, ← hslices]
      refine Finset.sum_congr rfl fun t ht => ?_
      have ht' := Finset.mem_range.mp ht
      obtain ⟨hflushed, hran, -⟩ := prints_of_done hsucc hff hre h hpc ht'
      rw [← hran]
      exact (prints_of_flushed hjobs h ht' hflushed).length_eq.symm
    rw [(ioInv_run h).indices, hlength, hindices, hk]

end

theorem parallel_results_agree_three : ResultsAgree
    (.ofTests 2 false (.global [.of true] [])
      [.plain [97] [102] [], .plain [98] [102] [.of false], .plain [99] [102] []] (by simp)) := by
  refine parallel_results_agree _
    [.plain [97] [102] [], .plain [98] [102] [.of false], .plain [99] [102] []]
    ⟨by decide, by decide, ⟨by simp, rfl⟩, by decide, rfl, by decide, by decide, by decide⟩
    rfl fun _ _ => rfl

end Cldm
