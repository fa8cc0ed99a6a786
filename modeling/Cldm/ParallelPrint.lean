/-
The results that a run prints.

A thread keeps the results of its tests in a buffer and prints them under
`io_lock` when the buffer is full and once more at the end.  `Printed` follows
one thread: what it has printed, together with what is still `pending`, are the
results it has scheduled.  `IoInv` follows the lock and the shared counter, which
numbers the printed results of all threads.

* `Printed.move`, `IoInv.step` — what one step preserves;
* `printed_run`, `ioInv_run` — what every run preserves;
* `results_printed_once` — every result is printed once, in order, and the
  indices have no gap.
-/
import Cldm.ParallelLog
import Cldm.Sequential

namespace Cldm

/-! ### One thread and its buffer -/

/-- The thread has not come to its tests yet. -/
def Pc.beforeTests : Pc → Bool
  | .collect | .callSetup | .globalSetup _ | .init | .arrive (.setup _) | .blocked (.setup _) =>
    true
  | _ => false

/-- The thread has printed all its results. -/
def Pc.flushed : Pc → Bool
  | .arrive .tests | .blocked .tests | .reduce _ | .load _ | .add _ _ | .arrive (.reduce _)
  | .blocked (.reduce _) | .free | .returned | .join | .callTeardown | .globalTeardown _
  | .summary | .finish _ | .done _ => true
  | _ => false

/-- What of the buffer is still to be printed. -/
def pending (pc : Pc) (buffered : List BufferedTest) : List BufferedTest :=
  match pc with
  | .print _ j | .log _ j => buffered.drop j
  | pc => if pc.flushed then [] else buffered

/-- The printed and the pending results of the thread `t` are those it has
scheduled, and its buffer never overflows. -/
structure Printed (t : ℕ) (pc : Pc) (tests : TestState) (tr : List Event) : Prop where
  results : prints t tr ++ pending pc tests.buffered = ends t tr
  size : tests.buffered.length ≤ testbufferSize
  room : ∀ i, pc = .store i → tests.buffered.length < testbufferSize
  before : pc.beforeTests = true → ends t tr = []

/-- A thread that has got stuck prints nothing any more. -/
def PrintedInv (env : RunEnv) (tr : List Event) (s : ParState) : Prop :=
  ∀ t < env.jobs, prints t tr <+: ends t tr ∧
    (s.pc t ≠ .stuck → Printed t (s.pc t) (s.tests t) tr)

/-- The event says nothing about the results of the thread `t`. -/
structure Event.Silent (t : ℕ) (e : Event) : Prop where
  result : e.endOf t = none
  print : e.printOf t = none

theorem Move.silent {env : RunEnv} {s : ParState} {t u : ℕ} {f : Effect} (h : Move env s t f)
    (hut : u ≠ t) : f.event.Silent u := by
  cases h <;> constructor <;>
    simp [ParState.goto, ParState.stick, Event.endOf, Event.printOf, hut.symm]

theorem Event.Silent.ends {t : ℕ} {e : Event} (h : e.Silent t) (tr : List Event) :
    ends t (tr ++ [e]) = ends t tr := by simp [h.result]

theorem Event.Silent.prints {t : ℕ} {e : Event} (h : e.Silent t) (tr : List Event) :
    prints t (tr ++ [e]) = prints t tr := by simp [h.print]

/-- Steps without results keep the buffer and what is pending. -/
theorem Printed.silent {t : ℕ} {pc pc' : Pc} {tests tests' : TestState} {tr : List Event}
    {e : Event} (h : Printed t pc tests tr) (he : e.Silent t)
    (hpending : pending pc' tests'.buffered = pending pc tests.buffered)
    (hsize : tests'.buffered.length ≤ testbufferSize)
    (hroom : ∀ i, pc' = .store i → tests'.buffered.length < testbufferSize)
    (hbefore : pc'.beforeTests = true → pc.beforeTests = true) :
    Printed t pc' tests' (tr ++ [e]) := by
  refine ⟨?_, hsize, hroom, fun hb => ?_⟩
  · rw [he.prints, he.ends, hpending]
    exact h.results
  · rw [he.ends]
    exact h.before (hbefore hb)

theorem pending_beforeTests {pc : Pc} (h : pc.beforeTests = true) (buffered : List BufferedTest) :
    pending pc buffered = buffered := by
  cases pc with
  | collect | callSetup | globalSetup _ | init => rfl
  | arrive b | blocked b =>
    cases b with
    | setup ok => rfl
    | tests | reduce i => exact absurd h (by simp [Pc.beforeTests])
  | _ => exact absurd h (by simp [Pc.beforeTests])

theorem pending_flushed {pc : Pc} (h : pc.flushed = true) (buffered : List BufferedTest) :
    pending pc buffered = [] := by
  cases pc with
  | print _ _ | log _ _ => exact absurd h (by simp [Pc.flushed])
  | _ => exact (if_pos h : (if Pc.flushed _ then [] else buffered) = [])

/-- Before the tests nothing is buffered. -/
theorem Printed.buffered_nil {t : ℕ} {pc : Pc} {tests : TestState} {tr : List Event}
    (h : Printed t pc tests tr) (hb : pc.beforeTests = true) :
    prints t tr = [] ∧ tests.buffered = [] := by
  have hresults := h.results
  rw [h.before hb, pending_beforeTests hb] at hresults
  exact List.append_eq_nil_iff.mp hresults

theorem assertTrue_buffered {realloc : ℕ → Bool} {a : Assertion} {tests tests' : TestState}
    (h : assertTrue realloc a tests = some tests') : tests'.buffered = tests.buffered :=
  (assertTrue_evaluates h).buffered

/-- Every move of a thread that is not stuck keeps its results together. -/
theorem Printed.move {env : RunEnv} {s : ParState} {t : ℕ} {f : Effect} {tr : List Event}
    (h : Printed t (s.pc t) (s.tests t) tr) (hmove : Move env s t f) (hstuck : f.pc ≠ .stuck) :
    Printed t f.pc f.tests (tr ++ [f.event]) := by
  have hsize := h.size
  cases hmove with
  | collect hpc =>
    rw [hpc] at h
    rcases collectPlan_pc env s.sh.plan with hnext | hnext
    · exact h.silent ⟨rfl, rfl⟩ (by rw [hnext]; rfl) hsize (by simp [hnext]) fun _ => rfl
    · exact h.silent ⟨rfl, rfl⟩ (by rw [hnext]; rfl) hsize (by simp [hnext]) fun _ => rfl
  | callSetup hpc haux | setupDone hpc =>
    rw [hpc] at h
    exact h.silent ⟨rfl, rfl⟩ rfl hsize (by simp [ParState.goto]) fun _ => rfl
  | setupEval hpc haux ha heval =>
    rw [hpc] at h
    have hbuf := assertTrue_buffered heval
    exact h.silent ⟨rfl, rfl⟩ hbuf (by rwa [hbuf]) (by simp) fun _ => rfl
  | init hpc =>
    rw [hpc] at h
    have hnil := (h.buffered_nil rfl).2
    have hbuf : (testInit t (env.logMalloc t) env.mutexInit (s.tests t)).2.buffered =
        (s.tests t).buffered := by
      unfold testInit
      split
      · exact hnil.symm
      · rfl
    exact h.silent ⟨rfl, rfl⟩ hbuf (by rwa [hbuf]) (by simp) fun _ => rfl
  | @arrive b hpc =>
    rw [hpc] at h
    cases b <;> exact h.silent ⟨rfl, rfl⟩ rfl hsize (by simp) id
  | loopStart hpc hi hr | loopEnd hpc hi | testDone hpc hr haux hk | scheduleFull hpc hfull
  | setAbort hpc =>
    rw [hpc] at h
    exact h.silent ⟨rfl, rfl⟩ rfl hsize (by simp [ParState.goto])
      fun hb => absurd hb Bool.false_ne_true
  | testEval hpc hr haux ha heval =>
    rw [hpc] at h
    have hbuf := assertTrue_buffered heval
    exact h.silent ⟨rfl, rfl⟩ hbuf (by rwa [hbuf]) (by simp) (by simp [Pc.beforeTests])
  | scheduleRoom hpc hroom =>
    rw [hpc] at h
    exact h.silent ⟨rfl, rfl⟩ rfl hsize (fun _ _ => hroom)
      fun hb => absurd hb Bool.false_ne_true
  | @store i r hpc hr =>
    have hroom := h.room i hpc
    rw [hpc] at h
    have hnext : ∀ buffered, pending (afterTest env (testStore r.file (s.tests t)) i) buffered =
        buffered := by
      intro buffered
      unfold afterTest
      split_ifs <;> rfl
    refine ⟨?_, ?_, ?_, ?_⟩
    · have hresults : prints t tr ++ (s.tests t).buffered = ends t tr := h.results
      rw [hnext]
      simp [Event.endOf, Event.printOf, ← hresults, testStore]
    · show ((s.tests t).buffered ++ [_]).length ≤ testbufferSize
      rw [List.length_append, List.length_singleton]
      exact hroom
    · intro j hj
      refine absurd hj ?_
      simp only [afterTest]
      split_ifs <;> simp
    · intro hb
      refine absurd hb ?_
      simp only [afterTest]
      split_ifs <;> simp [Pc.beforeTests]
  | readAbort hpc =>
    rw [hpc] at h
    simp only [ParState.goto] at hstuck ⊢
    split_ifs
    · exact h.silent ⟨rfl, rfl⟩ rfl hsize (by simp) (by simp [Pc.beforeTests])
    · exact h.silent ⟨rfl, rfl⟩ rfl hsize (by simp) (by simp [Pc.beforeTests])
  | lockIo hpc hlock =>
    rw [hpc] at h
    exact h.silent ⟨rfl, rfl⟩ rfl hsize (by simp) (by simp [Pc.beforeTests])
  | printNext hpc hj =>
    rw [hpc] at h
    exact h.silent ⟨rfl, rfl⟩ rfl hsize (by simp) (by simp [Pc.beforeTests])
  | @printDone c j hpc hj =>
    rw [hpc] at h
    have hdrop : pending (.print c j) (s.tests t).buffered = [] := List.drop_eq_nil_of_le hj
    cases c with
    | schedule i =>
      refine h.silent ⟨rfl, rfl⟩ hdrop.symm (Nat.zero_le _) (fun _ _ => ?_)
        (by simp [PrintCall.next, Pc.beforeTests])
      exact Nat.zero_lt_succ 15
    | flush =>
      exact h.silent ⟨rfl, rfl⟩ hdrop.symm hsize (by simp [PrintCall.next])
        (by simp [PrintCall.next, Pc.beforeTests])
  | @log c j e hpc he =>
    rw [hpc] at h
    refine ⟨?_, hsize, by simp, by simp [Pc.beforeTests]⟩
    have hresults : prints t tr ++ (s.tests t).buffered.drop j = ends t tr := h.results
    have hdrop : (s.tests t).buffered.drop j = e :: (s.tests t).buffered.drop (j + 1) := by
      obtain ⟨hj, rfl⟩ := List.getElem?_eq_some_iff.mp he
      exact List.drop_eq_getElem_cons hj
    rw [hdrop] at hresults
    simpa [pending, Event.endOf, Event.printOf] using hresults
  | reduceEnd hpc =>
    rw [hpc] at h
    simp only [ParState.goto] at hstuck ⊢
    split_ifs
    · exact h.silent ⟨rfl, rfl⟩ rfl hsize (by simp) (by simp [Pc.beforeTests])
    · exact h.silent ⟨rfl, rfl⟩ rfl hsize (by simp) (by simp [Pc.beforeTests])
  | reduceLoad hpc hi ht | reduceSkip hpc hi ht | load hpc | add hpc | free hpc
  | join hpc hothers | callTeardown hpc haux | teardownDone hpc | summary hpc hreport
  | finish hpc =>
    rw [hpc] at h
    exact h.silent ⟨rfl, rfl⟩ rfl hsize (by simp [ParState.goto])
      fun hb => absurd hb Bool.false_ne_true
  | teardownEval hpc haux ha heval =>
    rw [hpc] at h
    have hbuf := assertTrue_buffered heval
    exact h.silent ⟨rfl, rfl⟩ rfl (by rwa [hbuf]) (by simp) (by simp [Pc.beforeTests])
  | stuck hpc => exact absurd rfl hstuck

theorem Move.stuck_silent {env : RunEnv} {s : ParState} {t : ℕ} {f : Effect} (h : Move env s t f)
    (hstuck : f.pc = .stuck) (u : ℕ) : f.event.Silent u := by
  cases h with
  | store hpc hr =>
    refine absurd hstuck ?_
    simp only [afterTest]
    split_ifs <;> simp
  | log hpc he => exact absurd hstuck (by simp)
  | _ => exact ⟨rfl, rfl⟩

theorem Move.not_stuck {env : RunEnv} {s : ParState} {t : ℕ} {f : Effect} (h : Move env s t f) :
    s.pc t ≠ .stuck := by
  intro hpc
  cases h <;> simp_all [Pc.canStick]

/-- The release of the barrier prints nothing. -/
theorem Printed.released {env : RunEnv} {t : ℕ} {pc : Pc} {tests : TestState} {tr : List Event}
    (h : Printed t pc tests tr) (hblocked : pc.isBlocked = true) :
    Printed t (releasedPc env t pc) tests (tr ++ [.released]) := by
  have hsize := h.size
  cases pc with
  | blocked b =>
    cases b with
    | setup ok =>
      have hnil := (h.buffered_nil rfl).2
      cases ok with
      | true =>
        exact h.silent ⟨rfl, rfl⟩ rfl hsize (by simp [releasedPc, afterBarrier])
          fun hb => absurd hb Bool.false_ne_true
      | false =>
        simp only [releasedPc, afterBarrier]
        split_ifs
        · exact h.silent ⟨rfl, rfl⟩ hnil.symm hsize (by simp)
            fun hb => absurd hb Bool.false_ne_true
        · exact h.silent ⟨rfl, rfl⟩ hnil.symm hsize (by simp)
            fun hb => absurd hb Bool.false_ne_true
    | tests | reduce i =>
      exact h.silent ⟨rfl, rfl⟩ rfl hsize (by simp [releasedPc, afterBarrier])
        fun hb => absurd hb Bool.false_ne_true
  | _ => exact absurd hblocked (by simp [Pc.isBlocked])

theorem PrintedInv.step {env : RunEnv} {tr : List Event} {s s' : ParState} {e : Event}
    (h : PrintedInv env tr s) (hstep : Step env s e s') : PrintedInv env (tr ++ [e]) s' := by
  intro u hu
  obtain ⟨hpre, hprinted⟩ := h u hu
  obtain ⟨t, f, ht, hmove, rfl, rfl⟩ | ⟨rfl, hblocked, rfl⟩ := step_cases hstep
  · by_cases hut : u = t
    · subst hut
      rw [act_pc_self, act_tests_self]
      have hnext := fun hstuck => (hprinted hmove.not_stuck).move hmove hstuck
      refine ⟨?_, hnext⟩
      by_cases hstuck : f.pc = .stuck
      · have hsilent := hmove.stuck_silent hstuck u
        rwa [hsilent.prints, hsilent.ends]
      · rw [← (hnext hstuck).results]
        exact List.prefix_append ..
    · have hsilent := hmove.silent hut
      rw [act_pc_other hut, act_tests_other hut, hsilent.prints, hsilent.ends]
      refine ⟨hpre, fun hstuck => ?_⟩
      have hold := hprinted hstuck
      exact hold.silent hsilent rfl hold.size hold.room id
  · have hb := hblocked u hu
    rw [passBarrier_pc hu]
    refine ⟨by simpa [Event.printOf, Event.endOf] using hpre, fun _ => ?_⟩
    refine (hprinted ?_).released hb
    intro hpc
    rw [hpc] at hb
    exact absurd hb (by simp [Pc.isBlocked])

/-- In every run the results of every thread belong to its program counter. -/
theorem printed_run {env : RunEnv} {tr : List Event} {s : ParState} (h : ParRun env tr s) :
    PrintedInv env tr s := by
  refine Trace.Run.invariant (I := PrintedInv env) ?_
    (fun _ _ _ _ _ hinv hstep => hinv.step hstep) h
  intro t _
  refine ⟨List.nil_prefix, fun _ => ⟨?_, Nat.zero_le _, ?_, fun _ => rfl⟩⟩
  · show pending (if t = 1 then .collect else .init) [] = []
    split_ifs <;> rfl
  · intro i hi
    refine absurd hi ?_
    show (if t = 1 then Pc.collect else .init) ≠ .store i
    split_ifs <;> simp

/-! ### The lock and the counter -/

/-- The thread holds `io_lock`. -/
def Pc.printing : Pc → Bool
  | .print _ _ | .log _ _ => true
  | _ => false

/-- How many results have been counted but not printed. -/
def Pc.counted : Pc → ℕ
  | .log _ _ => 1
  | _ => 0

/-- The indices that were printed are `1, 2, ..`, and the counter is one ahead
of them while the holder of the lock is about to print. -/
structure IoInv (env : RunEnv) (tr : List Event) (s : ParState) : Prop where
  indices : printIndices tr = List.range' 1 (printIndices tr).length
  holder : ∀ t < env.jobs, (s.pc t).printing = true → s.sh.ioLock = some t
  free : s.sh.ioLock = none → s.sh.ioIndex = (printIndices tr).length
  held : ∀ t, s.sh.ioLock = some t → t < env.jobs ∧ (s.pc t = .stuck ∨
    ((s.pc t).printing = true ∧ s.sh.ioIndex = (printIndices tr).length + (s.pc t).counted))

/-- What a move does to the lock, the counter and the printed indices. -/
theorem Move.io {env : RunEnv} {s : ParState} {t : ℕ} {f : Effect} (h : Move env s t f) :
    (f.event.printIndexOf = none ∧ f.sh.ioLock = s.sh.ioLock ∧ f.sh.ioIndex = s.sh.ioIndex ∧
      (f.pc = .stuck ∨ (s.pc t).printing = false ∧ f.pc.printing = false)) ∨
    (∃ c, f.event.printIndexOf = none ∧ s.sh.ioLock = none ∧ f.sh.ioLock = some t ∧
      f.sh.ioIndex = s.sh.ioIndex ∧ f.pc = .print c 0) ∨
    (∃ c j, f.event.printIndexOf = none ∧ s.pc t = .print c j ∧ f.sh.ioLock = s.sh.ioLock ∧
      f.sh.ioIndex = s.sh.ioIndex + 1 ∧ f.pc = .log c j) ∨
    (∃ c j, f.event.printIndexOf = none ∧ s.pc t = .print c j ∧ f.sh.ioLock = none ∧
      f.sh.ioIndex = s.sh.ioIndex ∧ f.pc.printing = false) ∨
    (∃ c j, f.event.printIndexOf = some s.sh.ioIndex ∧ s.pc t = .log c j ∧
      f.sh.ioLock = s.sh.ioLock ∧ f.sh.ioIndex = s.sh.ioIndex ∧ f.pc = .print c (j + 1)) := by
  cases h with
  | @lockIo c hpc hlock => exact .inr (.inl ⟨c, rfl, hlock, rfl, rfl, rfl⟩)
  | @printNext c j hpc hj => exact .inr (.inr (.inl ⟨c, j, rfl, hpc, rfl, rfl, rfl⟩))
  | @printDone c j hpc hj =>
    refine .inr (.inr (.inr (.inl ⟨c, j, rfl, hpc, rfl, rfl, ?_⟩)))
    cases c <;> rfl
  | @log c j e hpc he => exact .inr (.inr (.inr (.inr ⟨c, j, rfl, hpc, rfl, rfl, rfl⟩)))
  | collect hpc =>
    refine .inl ⟨rfl, rfl, rfl, .inr ⟨by rw [hpc]; rfl, ?_⟩⟩
    rcases collectPlan_pc env s.sh.plan with hnext | hnext
    · exact hnext ▸ rfl
    · exact hnext ▸ rfl
  | store hpc hr =>
    refine .inl ⟨rfl, rfl, rfl, .inr ⟨by rw [hpc]; rfl, ?_⟩⟩
    simp only [afterTest]
    split_ifs <;> rfl
  | readAbort hpc | reduceEnd hpc =>
    refine .inl ⟨rfl, rfl, rfl, .inr ⟨by rw [hpc]; rfl, ?_⟩⟩
    simp only [ParState.goto]
    split_ifs <;> rfl
  | stuck hpc => exact .inl ⟨rfl, rfl, rfl, .inl rfl⟩
  | callSetup hpc | setupEval hpc | setupDone hpc | init hpc | arrive hpc | loopStart hpc
  | loopEnd hpc | testEval hpc | testDone hpc | scheduleFull hpc | scheduleRoom hpc
  | setAbort hpc | reduceLoad hpc | reduceSkip hpc | load hpc | add hpc | free hpc | join hpc
  | callTeardown hpc | teardownEval hpc | teardownDone hpc | summary hpc | finish hpc =>
    exact .inl ⟨rfl, rfl, rfl, .inr ⟨by rw [hpc]; rfl, rfl⟩⟩

theorem Pc.not_printing_of_blocked {pc : Pc} (h : pc.isBlocked = true) : pc.printing = false := by
  cases pc <;> first | rfl | exact absurd h (by simp [Pc.isBlocked])

theorem IoInv.act {env : RunEnv} {tr : List Event} {s : ParState} {t : ℕ} {f : Effect}
    (h : IoInv env tr s) (ht : t < env.jobs) (hmove : Move env s t f) :
    IoInv env (tr ++ [f.event]) (s.act t f) := by
  -- the holder is not stuck when it moves
  have hmine : (s.pc t).printing = true →
      s.sh.ioLock = some t ∧ s.sh.ioIndex = (printIndices tr).length + (s.pc t).counted := by
    intro hp
    have hlock := h.holder t ht hp
    exact ⟨hlock, ((h.held t hlock).2.resolve_left hmove.not_stuck).2⟩
  have hothers : s.sh.ioLock = some t ∨ s.sh.ioLock = none → ∀ u < env.jobs, u ≠ t →
      (s.pc u).printing = false := by
    intro hlock u hu hut
    rw [← Bool.not_eq_true]
    intro hp
    rcases hlock with hlock | hlock
    · exact hut (Option.some.inj ((h.holder u hu hp).symm.trans hlock))
    · exact absurd ((h.holder u hu hp).symm.trans hlock) (by simp)
  have hsame : f.event.printIndexOf = none →
      printIndices (tr ++ [f.event]) = printIndices tr := fun hnone => by simp [hnone]
  obtain ⟨hevent, hlock, hindex, hpc⟩ | ⟨c, hevent, hfree, hlock, hindex, hpc⟩ |
    ⟨c, j, hevent, hp, hlock, hindex, hpc⟩ | ⟨c, j, hevent, hp, hlock, hindex, hpc⟩ |
    ⟨c, j, hevent, hp, hlock, hindex, hpc⟩ := hmove.io
  · -- neither the lock nor the counter is touched
    refine ⟨by rw [hsame hevent]; exact h.indices, fun u hu hpu => ?_, fun hnone => ?_,
      fun v hv => ?_⟩
    · rw [act_sh, hlock]
      by_cases hut : u = t
      · subst hut
        rw [act_pc_self] at hpu
        rcases hpc with hstuck | ⟨-, hquiet⟩
        · rw [hstuck] at hpu
          exact absurd hpu (by simp [Pc.printing])
        · exact absurd (hpu.symm.trans hquiet) (by simp)
      · rw [act_pc_other hut] at hpu
        exact h.holder u hu hpu
    · rw [act_sh, hlock] at hnone
      rw [act_sh, hindex, hsame hevent]
      exact h.free hnone
    · rw [act_sh, hlock] at hv
      rw [act_sh, hindex, hsame hevent]
      obtain ⟨hvj, hheld⟩ := h.held v hv
      refine ⟨hvj, ?_⟩
      by_cases hvt : v = t
      · subst hvt
        rw [act_pc_self]
        rcases hpc with hstuck | ⟨hquiet, -⟩
        · exact .inl hstuck
        · have hp := (hheld.resolve_left hmove.not_stuck).1
          exact absurd (hp.symm.trans hquiet) (by simp)
      · rwa [act_pc_other hvt]
  · -- the lock is taken
    refine ⟨by rw [hsame hevent]; exact h.indices, fun u hu hpu => ?_, fun hnone => ?_,
      fun v hv => ?_⟩
    · by_cases hut : u = t
      · rw [act_sh, hlock, hut]
      · rw [act_pc_other hut, hothers (.inr hfree) u hu hut] at hpu
        exact absurd hpu (by simp)
    · rw [act_sh, hlock] at hnone
      exact absurd hnone (by simp)
    · rw [act_sh, hlock] at hv
      obtain rfl := Option.some.inj hv
      refine ⟨ht, .inr ?_⟩
      rw [act_pc_self, act_sh, hpc, hindex, hsame hevent]
      exact ⟨rfl, h.free hfree⟩
  · -- the next result is counted
    obtain ⟨hmylock, hmyindex⟩ := hmine (by rw [hp]; rfl)
    refine ⟨by rw [hsame hevent]; exact h.indices, fun u hu hpu => ?_, fun hnone => ?_,
      fun v hv => ?_⟩
    · by_cases hut : u = t
      · rw [act_sh, hlock, hmylock, hut]
      · rw [act_pc_other hut, hothers (.inl hmylock) u hu hut] at hpu
        exact absurd hpu (by simp)
    · rw [act_sh, hlock, hmylock] at hnone
      exact absurd hnone (by simp)
    · rw [act_sh, hlock, hmylock] at hv
      obtain rfl := Option.some.inj hv
      refine ⟨ht, .inr ?_⟩
      rw [act_pc_self, act_sh, hpc, hindex, hsame hevent, hmyindex, hp]
      exact ⟨rfl, rfl⟩
  · -- the lock is given back
    obtain ⟨hmylock, hmyindex⟩ := hmine (by rw [hp]; rfl)
    refine ⟨by rw [hsame hevent]; exact h.indices, fun u hu hpu => ?_, fun _ => ?_,
      fun v hv => ?_⟩
    · by_cases hut : u = t
      · subst hut
        rw [act_pc_self, hpc] at hpu
        exact absurd hpu (by simp)
      · rw [act_pc_other hut, hothers (.inl hmylock) u hu hut] at hpu
        exact absurd hpu (by simp)
    · rw [act_sh, hindex, hsame hevent, hmyindex, hp]
      rfl
    · rw [act_sh, hlock] at hv
      exact absurd hv (by simp)
  · -- the counted result is printed
    obtain ⟨hmylock, hmyindex⟩ := hmine (by rw [hp]; rfl)
    have hnext : s.sh.ioIndex = (printIndices tr).length + 1 := by
      rw [hmyindex, hp]
      rfl
    have hprinted : printIndices (tr ++ [f.event]) = printIndices tr ++ [s.sh.ioIndex] := by
      simp [hevent]
    refine ⟨?_, fun u hu hpu => ?_, fun hnone => ?_, fun v hv => ?_⟩
    · rw [hprinted, List.length_append, List.length_singleton, List.range'_concat, ← h.indices,
        hnext]
      simp [Nat.add_comm]
    · by_cases hut : u = t
      · rw [act_sh, hlock, hmylock, hut]
      · rw [act_pc_other hut, hothers (.inl hmylock) u hu hut] at hpu
        exact absurd hpu (by simp)
    · rw [act_sh, hlock, hmylock] at hnone
      exact absurd hnone (by simp)
    · rw [act_sh, hlock, hmylock] at hv
      obtain rfl := Option.some.inj hv
      refine ⟨ht, .inr ?_⟩
      rw [act_pc_self, act_sh, hpc, hindex, hprinted, hnext, List.length_append,
        List.length_singleton]
      exact ⟨rfl, rfl⟩

theorem IoInv.step {env : RunEnv} {tr : List Event} {s s' : ParState} {e : Event}
    (h : IoInv env tr s) (hstep : Step env s e s') : IoInv env (tr ++ [e]) s' := by
  obtain ⟨t, f, ht, hmove, rfl, rfl⟩ | ⟨rfl, hblocked, rfl⟩ := step_cases hstep
  · exact h.act ht hmove
  · have hsame : printIndices (tr ++ [.released]) = printIndices tr := by
      simp [Event.printIndexOf]
    -- nobody holds the lock: all threads are blocked
    have hfree : s.sh.ioLock = none := by
      refine Option.eq_none_iff_forall_not_mem.mpr fun v hv => ?_
      obtain ⟨hvj, hheld⟩ := h.held v hv
      have hb := hblocked v hvj
      rcases hheld with hstuck | ⟨hp, -⟩
      · rw [hstuck] at hb
        exact absurd hb (by simp [Pc.isBlocked])
      · rw [Pc.not_printing_of_blocked hb] at hp
        exact absurd hp (by simp)
    refine ⟨by rw [hsame]; exact h.indices, fun u hu hpu => ?_, fun _ => ?_, fun v hv => ?_⟩
    · rw [passBarrier_pc hu] at hpu
      refine absurd hpu ?_
      have hb := hblocked u hu
      cases hp : s.pc u with
      | blocked b =>
        cases b with
        | setup ok =>
          simp only [releasedPc]
          cases ok with
          | true => simp [afterBarrier, Pc.printing]
          | false =>
            simp only [afterBarrier]
            split_ifs <;> simp [Pc.printing]
        | tests | reduce i => simp [releasedPc, afterBarrier, Pc.printing]
      | _ =>
        rw [hp] at hb
        exact absurd hb (by simp [Pc.isBlocked])
    · rw [hsame]
      exact h.free hfree
    · exact absurd (hfree.symm.trans hv) (by simp)

/-- In every run the printed indices are `1, 2, ..`. -/
theorem ioInv_run {env : RunEnv} {tr : List Event} {s : ParState} (h : ParRun env tr s) :
    IoInv env tr s := by
  refine Trace.Run.invariant (I := IoInv env) ?_ (fun _ _ _ _ _ hinv hstep => hinv.step hstep) h
  refine ⟨rfl, fun t _ hp => absurd hp ?_, fun _ => rfl, fun t ht => absurd ht (by simp
    [ParState.initial])⟩
  show ¬ (if t = 1 then Pc.collect else .init).printing = true
  split_ifs <;> simp [Pc.printing]

/-! ### All results -/

/-- The threads together have printed as many results as there are indices. -/
theorem printIndices_length {env : RunEnv} (hjobs : 0 < env.jobs) {tr : List Event} {s : ParState}
    (h : ParRun env tr s) :
    (printIndices tr).length = ∑ t ∈ Finset.range env.jobs, (prints t tr).length := by
  rw [printIndices, List.length_filterMap_eq_countP,
    Trace.countP_eq_sum _ Event.thread (thread_run hjobs h)]
  refine Finset.sum_congr rfl fun t _ => ?_
  rw [List.length_filterMap_eq_countP]
  refine List.countP_congr fun e _ => ?_
  cases e <;> simp [Event.printIndexOf, Event.printOf, Event.thread]

/-- A thread that has printed all its results has printed those of its tests. -/
theorem prints_of_flushed {env : RunEnv} (hjobs : 2 ≤ env.jobs) {tr : List Event} {s : ParState}
    (h : ParRun env tr s) {t : ℕ} (ht : t < env.jobs) (hflushed : (s.pc t).flushed = true) :
    ResultsOf env.auxprocs (finalPlan env).records (starts t tr) (prints t tr) := by
  have hnot : s.pc t ≠ .stuck := fun hpc => by
    rw [hpc] at hflushed
    exact absurd hflushed (by simp [Pc.flushed])
  have htest : (s.pc t).test? = none := by
    cases hpc : s.pc t <;> rw [hpc] at hflushed <;>
      first | rfl | exact absurd hflushed (by simp [Pc.flushed])
  have hresults := ((printed_run h t ht).2 hnot).results
  rw [pending_flushed hflushed, List.append_nil] at hresults
  rw [hresults]
  exact ((progress_none htest).mp (progress_run hjobs h t ht hnot)).results

end Cldm
