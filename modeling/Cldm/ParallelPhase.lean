/-
The phases of a parallel run.

`g` counts the releases of the barrier.  Before the first (`g = 0`) the tests
are collected and the logs set up, then (`g = 1`) the tests run, and from the
second on (`2 ≤ g`) the logs are reduced with the stride `stride env g`, until
it is 0 and the threads return.  `PhaseOk env g t pc` says that the thread `t`
may be at `pc` in phase `g`; a thread whose log could not be set up returns in
phase 1, and then the barrier is never released again.

* `PhaseOk.move`, `PhaseOk.released` — what one step preserves;
* `phaseInv_run` — what every run preserves;
* `waitsOf_run` — how often a thread has called `pthread_barrier_wait`;
* `parallel_barrier_fair` — with the same outcome of the initialisation on all
  threads, no thread waits for one that has returned.
-/
import Cldm.Parallel

namespace Cldm

section act

variable (s : ParState) (t : ℕ) (f : Effect)

@[simp] theorem act_pc_self : (s.act t f).pc t = f.pc := Function.update_self ..
@[simp] theorem act_tests_self : (s.act t f).tests t = f.tests := Function.update_self ..
@[simp] theorem act_sh : (s.act t f).sh = f.sh := rfl

variable {s t f} {u : ℕ}

theorem act_pc_other (h : u ≠ t) : (s.act t f).pc u = s.pc u := Function.update_of_ne h ..
theorem act_tests_other (h : u ≠ t) : (s.act t f).tests u = s.tests u := Function.update_of_ne h ..

theorem passBarrier_pc {env : RunEnv} (h : u < env.jobs) :
    (s.passBarrier env).pc u = releasedPc env u (s.pc u) := if_pos h

end act

/-- The outcome of `cldm_test_init` on the thread `t`. -/
def initOk (env : RunEnv) (t : ℕ) : Bool := env.logMalloc t && (t != 0 || env.mutexInit)

theorem testInit_fst (env : RunEnv) (t : ℕ) (s : TestState) :
    (testInit t (env.logMalloc t) env.mutexInit s).1 = initOk env t := by
  unfold testInit initOk
  cases env.logMalloc t <;> rfl

/-- The stride of the reduction after `g` releases of the barrier. -/
def stride (env : RunEnv) (g : ℕ) : ℕ := flp232 env.jobs >>> (g - 2)

/-- The thread `t` has returned from `cldm_thread_run`. -/
def Pc.hasReturned : Pc → Bool
  | .returned | .join | .callTeardown | .globalTeardown _ | .summary | .finish _ | .done _ => true
  | _ => false

/-- A thread can return after `g` releases. -/
def MayReturn (env : RunEnv) (g t : ℕ) : Prop :=
  (2 ≤ g ∧ stride env g = 0) ∨ (g = 1 ∧ initOk env t = false)

/-- Where the thread `t` can be after `g` releases of the barrier. -/
def PhaseOk (env : RunEnv) (g t : ℕ) : Pc → Prop
  | .collect | .callSetup | .globalSetup _ => g = 0 ∧ t = 1
  | .init => g = 0
  | .arrive (.setup ok) | .blocked (.setup ok) => g = 0 ∧ ok = initOk env t
  | .loop _ | .body _ _ | .schedule _ | .store _ | .setAbort | .readAbort _ | .lockIo _
  | .print _ _ | .log _ _ | .arrive .tests | .blocked .tests => g = 1 ∧ initOk env t = true
  | .reduce i => 2 ≤ g ∧ i = stride env g
  | .load i | .add i _ => 2 ≤ g ∧ i = stride env g ∧ t < i
  | .arrive (.reduce i) | .blocked (.reduce i) => 2 ≤ g ∧ i = stride env g ∧ i ≠ 0
  | .free => 2 ≤ g ∧ stride env g = 0 ∧ t ≠ 0
  | .returned => MayReturn env g t ∧ t ≠ 0
  | .join | .callTeardown | .globalTeardown _ | .summary | .finish _ | .done _ =>
    MayReturn env g t ∧ t = 0
  | .stuck => g ≤ 1 ∨ stride env g = 0

theorem PhaseOk.stick {env : RunEnv} {g t : ℕ} {pc : Pc} (hpc : PhaseOk env g t pc)
    (h : pc.canStick = true) : g ≤ 1 ∨ stride env g = 0 := by
  have hreturn : MayReturn env g t → g ≤ 1 ∨ stride env g = 0 :=
    fun h => h.elim (fun h => .inr h.2) fun h => .inl h.1.le
  cases pc with
  | callSetup | globalSetup _ => exact .inl (hpc.1 ▸ Nat.zero_le 1)
  | loop _ | body _ _ | store _ | log _ _ => exact .inl hpc.1.le
  | callTeardown | globalTeardown _ | summary => exact hreturn hpc.1
  | _ => exact absurd h (by simp [Pc.canStick])

/-- A move stays in its phase. -/
theorem PhaseOk.move {env : RunEnv} {s : ParState} {g t : ℕ} {f : Effect}
    (hpc : PhaseOk env g t (s.pc t)) (h : Move env s t f) : PhaseOk env g t f.pc := by
  cases h with
  | collect h =>
    rw [h] at hpc
    unfold collectPlan
    cases env.collected with
    | none => exact hpc.1
    | some rs =>
      cases env.recordsMalloc with
      | true => exact hpc
      | false => exact hpc.1
  | callSetup h haux => rw [h] at hpc; exact hpc
  | setupEval h haux ha heval => rw [h] at hpc; exact hpc
  | setupDone h => rw [h] at hpc; exact hpc.1
  | init h =>
    rw [h] at hpc
    exact ⟨hpc, testInit_fst env t (s.tests t)⟩
  | @arrive b h => rw [h] at hpc; cases b <;> exact hpc
  | loopStart h hi hr => rw [h] at hpc; exact hpc
  | loopEnd h hi => rw [h] at hpc; exact hpc
  | testEval h hr haux ha heval => rw [h] at hpc; exact hpc
  | testDone h hr haux hk => rw [h] at hpc; exact hpc
  | scheduleFull h hfull => rw [h] at hpc; exact hpc
  | scheduleRoom h hroom => rw [h] at hpc; exact hpc
  | store h hr =>
    rw [h] at hpc
    show PhaseOk env g t (afterTest env _ _)
    unfold afterTest
    split_ifs <;> exact hpc
  | setAbort h => rw [h] at hpc; exact hpc
  | readAbort h =>
    rw [h] at hpc
    show PhaseOk env g t (if _ then _ else _)
    split_ifs <;> exact hpc
  | lockIo h hlock => rw [h] at hpc; exact hpc
  | printNext h hj => rw [h] at hpc; exact hpc
  | @printDone c j h hj => rw [h] at hpc; cases c <;> exact hpc
  | log h he => rw [h] at hpc; exact hpc
  | reduceEnd h =>
    rw [h] at hpc
    show PhaseOk env g t (if _ then _ else _)
    split_ifs with ht
    · exact ⟨.inl ⟨hpc.1, hpc.2.symm⟩, ht⟩
    · exact ⟨hpc.1, hpc.2.symm, ht⟩
  | reduceLoad h hi ht => rw [h] at hpc; exact ⟨hpc.1, hpc.2, ht⟩
  | reduceSkip h hi ht => rw [h] at hpc; exact ⟨hpc.1, hpc.2, hi⟩
  | load h => rw [h] at hpc; exact hpc
  | add h => rw [h] at hpc; exact ⟨hpc.1, hpc.2.1, by have := hpc.2.2; omega⟩
  | free h => rw [h] at hpc; exact ⟨.inl ⟨hpc.1, hpc.2.1⟩, hpc.2.2⟩
  | join h hothers => rw [h] at hpc; exact hpc
  | callTeardown h haux => rw [h] at hpc; exact hpc
  | teardownEval h haux ha heval => rw [h] at hpc; exact hpc
  | teardownDone h => rw [h] at hpc; exact hpc
  | summary h hreport => rw [h] at hpc; exact hpc
  | finish h => rw [h] at hpc; exact hpc
  | stuck h => exact hpc.stick h

/-- The release of the barrier starts the next phase. -/
theorem PhaseOk.released {env : RunEnv} {g t : ℕ} {pc : Pc} (hpc : PhaseOk env g t pc)
    (hblocked : pc.isBlocked = true) : PhaseOk env (g + 1) t (releasedPc env t pc) := by
  cases pc with
  | blocked b =>
    cases b with
    | setup ok =>
      obtain ⟨rfl, hok⟩ := hpc
      cases ok with
      | true => exact ⟨rfl, hok.symm⟩
      | false =>
        show PhaseOk env 1 t (if _ then _ else _)
        split_ifs with ht
        · exact ⟨.inr ⟨rfl, hok.symm⟩, ht⟩
        · exact ⟨.inr ⟨rfl, hok.symm⟩, ht⟩
    | tests =>
      obtain ⟨rfl, -⟩ := hpc
      exact ⟨Nat.le_refl 2, rfl⟩
    | reduce i =>
      obtain ⟨hg, rfl, -⟩ := hpc
      refine ⟨by omega, ?_⟩
      show flp232 env.jobs >>> (g - 2) >>> 1 = flp232 env.jobs >>> (g + 1 - 2)
      rw [← Nat.shiftRight_add]
      congr 1
      omega
  | _ => exact absurd hblocked (by simp [Pc.isBlocked])

/-- How often the barrier has been released. -/
abbrev releases (tr : List Event) : ℕ := tr.count .released

/-- How often the thread `t` has called `pthread_barrier_wait`. -/
abbrev waitsOf (t : ℕ) (tr : List Event) : ℕ := tr.count (.waits t)

/-- What holds of the program counters in every run. -/
structure PhaseInv (env : RunEnv) (tr : List Event) (s : ParState) : Prop where
  pcs : ∀ t < env.jobs, PhaseOk env (releases tr) t (s.pc t)
  inits : 2 ≤ releases tr → ∀ t < env.jobs, initOk env t = true

/-- A thread emits no release, and calls `pthread_barrier_wait` when it becomes
blocked. -/
theorem Move.event {env : RunEnv} {s : ParState} {t : ℕ} {f : Effect} (h : Move env s t f) :
    f.event ≠ .released ∧ (∀ u ≠ t, f.event ≠ .waits u) ∧ (s.pc t).isBlocked = false ∧
      (f.event = .waits t ↔ f.pc.isBlocked = true) := by
  have hstick : (s.pc t).canStick = true → (s.pc t).isBlocked = false := by
    cases s.pc t <;> simp [Pc.canStick, Pc.isBlocked]
  cases h <;> refine ⟨by simp [ParState.goto, ParState.stick], fun u hu => by
    simp [ParState.goto, ParState.stick, hu.symm], ?_, ?_⟩
  case stuck.refine_1 h => exact hstick h
  case collect.refine_2 =>
    unfold collectPlan
    cases env.collected with
    | none => simp [Pc.isBlocked]
    | some rs => cases env.recordsMalloc <;> simp [Pc.isBlocked]
  case store.refine_2 => unfold afterTest; split_ifs <;> simp [Pc.isBlocked]
  case readAbort.refine_2 => simp only [ParState.goto]; split_ifs <;> simp [Pc.isBlocked]
  case printDone.refine_2 c _ _ _ => cases c <;> simp [Pc.isBlocked, PrintCall.next]
  case reduceEnd.refine_2 => simp only [ParState.goto]; split_ifs <;> simp [Pc.isBlocked]
  all_goals simp_all [ParState.goto, ParState.stick, Pc.isBlocked]

theorem releases_move {env : RunEnv} {s : ParState} {t : ℕ} {f : Effect} (h : Move env s t f)
    (tr : List Event) : releases (tr ++ [f.event]) = releases tr := by
  rw [releases, List.count_append, List.count_singleton]
  simp [h.event.1]

theorem releases_released (tr : List Event) : releases (tr ++ [.released]) = releases tr + 1 := by
  simp [releases]

theorem Move.thread {env : RunEnv} {s : ParState} {t : ℕ} {f : Effect} (h : Move env s t f) :
    f.event.thread = t := by
  cases h <;> rfl

/-- The events of a run are those of its threads. -/
theorem thread_run {env : RunEnv} (hjobs : 0 < env.jobs) {tr : List Event} {s : ParState}
    (h : ParRun env tr s) : ∀ e ∈ tr, e.thread < env.jobs := by
  refine Trace.Run.invariant (I := fun tr _ => ∀ e ∈ tr, e.thread < env.jobs)
    (fun e he => absurd he (List.not_mem_nil)) ?_ h
  intro tr s e s' _ ih hstep e' he'
  rcases List.mem_append.mp he' with hold | hnew
  · exact ih e' hold
  · obtain rfl := List.mem_singleton.mp hnew
    obtain ⟨t, f, ht, hmove, rfl, -⟩ | ⟨rfl, -, -⟩ := step_cases hstep
    · rw [hmove.thread]
      exact ht
    · exact hjobs

theorem PhaseInv.step {env : RunEnv} {tr : List Event} {s s' : ParState} {e : Event}
    (hinv : PhaseInv env tr s) (h : Step env s e s') : PhaseInv env (tr ++ [e]) s' := by
  obtain ⟨t, f, ht, hmove, rfl, rfl⟩ | ⟨rfl, hblocked, rfl⟩ := step_cases h
  · refine ⟨fun u hu => ?_, ?_⟩
    · rw [releases_move hmove]
      by_cases hut : u = t
      · subst hut
        rw [act_pc_self]
        exact (hinv.pcs u hu).move hmove
      · rw [act_pc_other hut]
        exact hinv.pcs u hu
    · rw [releases_move hmove]
      exact hinv.inits
  · refine ⟨fun u hu => ?_, fun hg u hu => ?_⟩
    · rw [releases_released, passBarrier_pc hu]
      exact (hinv.pcs u hu).released (hblocked u hu)
    · rw [releases_released] at hg
      by_cases hg' : 2 ≤ releases tr
      · exact hinv.inits hg' u hu
      · -- the second release: everyone waits behind the tests
        have hpc := hinv.pcs u hu
        have hb := hblocked u hu
        have hone : releases tr = 1 := by omega
        cases hp : s.pc u with
        | blocked b =>
          rw [hp, hone] at hpc
          cases b with
          | setup ok => exact absurd hpc.1 (by omega)
          | tests => exact hpc.2
          | reduce i => exact absurd hpc.1 (by omega)
        | _ => rw [hp] at hb; exact absurd hb (by simp [Pc.isBlocked])

theorem phaseInv_initial (env : RunEnv) : PhaseInv env [] .initial := by
  refine ⟨fun t _ => ?_, fun h => absurd h (by simp)⟩
  show PhaseOk env 0 t (if t = 1 then .collect else .init)
  split_ifs with ht
  · exact ⟨rfl, ht⟩
  · exact rfl

/-- The program counters of every run respect the phases. -/
theorem phaseInv_run {env : RunEnv} {tr : List Event} {s : ParState} (h : ParRun env tr s) :
    PhaseInv env tr s :=
  Trace.Run.invariant (phaseInv_initial env) (fun _ _ _ _ _ hinv hstep => hinv.step hstep) h

/-- A thread has called `pthread_barrier_wait` once for every release, and once
more while it is blocked. -/
theorem waitsOf_run {env : RunEnv} {tr : List Event} {s : ParState} (h : ParRun env tr s) :
    ∀ t < env.jobs, waitsOf t tr = releases tr + if (s.pc t).isBlocked then 1 else 0 := by
  refine Trace.Run.invariant (I := fun tr s =>
    ∀ t < env.jobs, waitsOf t tr = releases tr + if (s.pc t).isBlocked then 1 else 0) ?_ ?_ h
  · intro t _
    show 0 = 0 + if (if t = 1 then Pc.collect else .init).isBlocked then 1 else 0
    split_ifs <;> simp_all [Pc.isBlocked]
  · intro tr s e s' _ ih hstep t ht
    obtain ⟨u, f, hu, hmove, rfl, rfl⟩ | ⟨rfl, hblocked, rfl⟩ := step_cases hstep
    · obtain ⟨-, hothers, hnot, hiff⟩ := hmove.event
      rw [releases_move hmove, waitsOf, List.count_append, List.count_singleton]
      by_cases htu : t = u
      · subst htu
        have := ih t ht
        rw [hnot] at this
        rw [act_pc_self, waitsOf] at *
        by_cases hb : f.pc.isBlocked = true
        · simp [hiff.mpr hb, hb, this]
        · simp [mt hiff.mp hb, hb, this]
      · rw [act_pc_other htu]
        simpa [hothers t htu] using ih t ht
    · have := ih t ht
      rw [hblocked t ht] at this
      rw [releases_released, waitsOf, List.count_append, passBarrier_pc ht]
      have hnext : (releasedPc env t (s.pc t)).isBlocked = false := by
        cases hp : s.pc t with
        | blocked b =>
          cases b with
          | setup ok =>
            cases ok with
            | true => rfl
            | false => simp only [releasedPc, afterBarrier]; split_ifs <;> rfl
          | tests | reduce i => rfl
        | _ =>
          have hb := hblocked t ht
          rw [hp] at hb
          exact absurd hb (by simp [Pc.isBlocked])
      simpa [hnext] using this

/-! ### Waiting for a thread that has returned -/

/-- All threads call `pthread_barrier_wait` equally often before they return, and
none is blocked when another has returned. -/
def BarrierFair (env : RunEnv) : Prop :=
  ∀ tr s, ParRun env tr s → ∀ t < env.jobs, (s.pc t).hasReturned = true → ∀ u < env.jobs,
    (s.pc u).isBlocked = false ∧ ((s.pc u).hasReturned = true → waitsOf t tr = waitsOf u tr)

/-- A blocked thread is not in a phase in which threads may return, unless the
initialisation has failed on another thread only. -/
theorem PhaseOk.not_blocked {env : RunEnv} {g t u : ℕ} {pc : Pc} (hpc : PhaseOk env g u pc)
    (hreturn : MayReturn env g t) (hsame : initOk env t = initOk env u) :
    pc.isBlocked = false := by
  cases pc with
  | blocked b =>
    exfalso
    cases b with
    | setup ok =>
      obtain ⟨rfl, -⟩ := hpc
      rcases hreturn with ⟨hg, -⟩ | ⟨hg, -⟩
      · omega
      · omega
    | tests =>
      obtain ⟨rfl, hok⟩ := hpc
      rcases hreturn with ⟨hg, -⟩ | ⟨-, hfail⟩
      · omega
      · rw [hsame, hok] at hfail
        exact absurd hfail (by simp)
    | reduce i =>
      obtain ⟨hg, rfl, hne⟩ := hpc
      rcases hreturn with ⟨-, hzero⟩ | ⟨hg', -⟩
      · exact hne hzero
      · omega
  | _ => rfl

theorem PhaseOk.mayReturn {env : RunEnv} {g t : ℕ} {pc : Pc} (hpc : PhaseOk env g t pc)
    (hreturned : pc.hasReturned = true) : MayReturn env g t := by
  cases pc with
  | returned | join | callTeardown | globalTeardown _ | summary | finish _ | done _ =>
    exact hpc.1
  | _ => exact absurd hreturned (by simp [Pc.hasReturned])

/-- When `cldm_test_init` has the same outcome on all threads, they all call
`pthread_barrier_wait` equally often, whatever the collection yields. -/
theorem parallel_barrier_fair (env : RunEnv)
    (hsame : (∀ t < env.jobs, initOk env t = true) ∨ (∀ t < env.jobs, initOk env t = false)) :
    BarrierFair env := by
  intro tr s h t ht hreturned u hu
  have hinv := phaseInv_run h
  have hreturn := (hinv.pcs t ht).mayReturn hreturned
  have heq : initOk env t = initOk env u := by
    rcases hsame with hsame | hsame
    · rw [hsame t ht, hsame u hu]
    · rw [hsame t ht, hsame u hu]
  have hnot : ∀ v < env.jobs, initOk env t = initOk env v → (s.pc v).isBlocked = false :=
    fun v hv hsame => (hinv.pcs v hv).not_blocked hreturn hsame
  refine ⟨hnot u hu heq, fun _ => ?_⟩
  rw [waitsOf_run h t ht, waitsOf_run h u hu, hnot t ht rfl, hnot u hu heq]

/-- No test, and `cldm_test_init` fails on the threads where `malloc` does. -/
def noTestsEnv (jobs : ℕ) (logMalloc : ℕ → Bool) : RunEnv :=
  { RunEnv.ofTests jobs false (.global [] []) [] (by simp) with logMalloc := logMalloc }

theorem parallel_barrier_fair_run : BarrierFair (noTestsEnv 2 fun _ => true) :=
  parallel_barrier_fair (noTestsEnv 2 fun _ => true) (.inl (by decide))

/-- The steps of a run are found by evaluation. -/
theorem parRun_of_exec {env : RunEnv} {choices : List (Option ℕ)} {tr : List Event} {s : ParState}
    (h : Trace.exec (parNext env) choices .initial = some (tr, s)) : ParRun env tr s :=
  Trace.exec_run (fun _ choice _ _ h => ⟨choice, h⟩) h

/-- The allocation of the log fails on the master: it returns, and thread 1 is
blocked for good. -/
theorem parallel_barrier_blocks : ¬ BarrierFair (noTestsEnv 2 fun t => t != 0) := by
  intro h
  have hrun : (Trace.exec (parNext (noTestsEnv 2 fun t => t != 0))
      ([1, 1, 1, 1, 1, 0, 0].map some ++ [none] ++ [1, 1, 1, 1].map some) .initial).map
      (fun r => ((r.2.pc 0).hasReturned, (r.2.pc 1).isBlocked)) = some (true, true) := by
    decide +kernel
  obtain ⟨⟨tr, s⟩, hexec, hpcs⟩ := Option.map_eq_some_iff.mp hrun
  obtain ⟨hreturned, hblocked⟩ := Prod.mk.inj hpcs
  have := (h tr s (parRun_of_exec hexec) 0 (by decide) hreturned 1 (by decide)).1
  exact absurd (hblocked.symm.trans this) (by simp)

end Cldm
