/-
What can be observed of a run of the tests: the events of its threads, and
what a run gets from outside.

A trace is read through projections, one for each thread and kind of event:
the record indices it has started (`starts`), the outcomes it has evaluated
(`testEvals`), the messages it has recorded (`messages`), the results it has
scheduled (`ends`) and printed (`prints`).  All of them are `List.filterMap`s,
so that they distribute over the concatenation of traces.
-/
import Cldm.TestLog

namespace Cldm

/-- Where an assertion is evaluated. -/
inductive Site
  | globalSetup
  | test
  | globalTeardown
  deriving DecidableEq

/-- An event of a run; the first argument is the thread. -/
inductive Event
  | quiet (t : ℕ)
  | invoked (t : ℕ) (site : Site)
  | started (t idx : ℕ)
  | evaluated (t : ℕ) (site : Site) (eval : Bool) (msg : Option CStr)
  | ended (t : ℕ) (e : BufferedTest)
  | printed (t k : ℕ) (e : BufferedTest)
  | aborted (t : ℕ)
  | waits (t : ℕ)
  | released
  | reads (t i : ℕ)
  | writes (t i : ℕ)
  | freed (t : ℕ)
  | reported (t : ℕ) (r : Summary)
  | stuck (t : ℕ)
  deriving DecidableEq

/-- What a run gets from outside: its arguments, the collected records in the
order of the tree (`none` when the collection fails), the auxiliary procedures,
the answers of the allocator and of the mutex initialisation, and the memory
behind `testlogs`. -/
structure RunEnv where
  jobs : ℕ
  failFast : Bool
  collected : Option { l : List TestRec // l.length < 2 ^ 63 }
  auxprocs : AuxProcs
  recordsMalloc : Bool
  logMalloc : ℕ → Bool
  mutexInit : Bool
  realloc : ℕ → ℕ → Bool
  behind : ℕ → Counters

/-- A run in which everything outside succeeds. -/
def RunEnv.ofTests (jobs : ℕ) (failFast : Bool) (aux : AuxProcs) (rs : List TestRec)
    (h : rs.length < 2 ^ 63) : RunEnv where
  jobs := jobs
  failFast := failFast
  collected := some ⟨rs, h⟩
  auxprocs := aux
  recordsMalloc := true
  logMalloc := fun _ => true
  mutexInit := true
  realloc := fun _ _ => true
  behind := fun _ => 0

theorem length_no_tests : ([] : List TestRec).length < 2 ^ 63 := by simp

/-- Auxiliary procedures that only have a global part. -/
def AuxProcs.global (setup teardown : Proc) : AuxProcs where
  localSetup := fun _ => []
  globalSetup := setup
  localTeardown := fun _ => []
  globalTeardown := teardown

/-- A test record with nothing but its test procedure. -/
def TestRec.plain (name file : CStr) (handle : Proc) : TestRec where
  name := name
  file := file
  setup := none
  handle := handle
  teardown := none

/-- An assertion with an empty message. -/
def Assertion.of (eval : Bool) : Assertion := ⟨eval, fun _ => []⟩

/-! ### Projections of an event -/

@[simp] theorem filterMap_singleton {α β : Type} (f : α → Option β) (a : α) :
    [a].filterMap f = (f a).toList := by
  cases h : f a <;> simp [h]

namespace Event

/-- The thread of an event; the release of the barrier is counted as one of
thread 0. -/
def thread : Event → ℕ
  | quiet t | invoked t _ | started t _ | evaluated t _ _ _ | ended t _ | printed t _ _
  | aborted t | waits t | reads t _ | writes t _ | freed t | reported t _ | stuck t => t
  | released => 0

def startOf (t : ℕ) : Event → Option ℕ
  | started u idx => if u = t then some idx else none
  | _ => none

def evalOf : Event → Option Bool
  | evaluated _ _ b _ => some b
  | _ => none

def testEvalOf (t : ℕ) : Event → Option Bool
  | evaluated u .test b _ => if u = t then some b else none
  | _ => none

def messageOf (t : ℕ) : Event → Option CStr
  | evaluated u _ _ msg => if u = t then msg else none
  | _ => none

def loggedOf (t : ℕ) : Event → Option CStr
  | evaluated _ .globalSetup _ _ => none
  | evaluated u _ _ msg => if u = t then msg else none
  | _ => none

def endOf (t : ℕ) : Event → Option BufferedTest
  | ended u e => if u = t then some e else none
  | _ => none

def printOf (t : ℕ) : Event → Option BufferedTest
  | printed u _ e => if u = t then some e else none
  | _ => none

def printIndexOf : Event → Option ℕ
  | printed _ k _ => some k
  | _ => none

end Event

/-- The record indices that the thread `t` has started. -/
abbrev starts (t : ℕ) (tr : List Event) : List ℕ := tr.filterMap (Event.startOf t)

/-- The outcomes of all evaluated assertions. -/
abbrev evals (tr : List Event) : List Bool := tr.filterMap Event.evalOf

/-- The outcomes that `t` has evaluated in tests. -/
abbrev testEvals (t : ℕ) (tr : List Event) : List Bool := tr.filterMap (Event.testEvalOf t)

/-- The messages that `t` has recorded. -/
abbrev messages (t : ℕ) (tr : List Event) : List CStr := tr.filterMap (Event.messageOf t)

/-- Those of them that `t` has recorded after the global setup. -/
abbrev logged (t : ℕ) (tr : List Event) : List CStr := tr.filterMap (Event.loggedOf t)

/-- The results that `t` has scheduled for printing. -/
abbrev ends (t : ℕ) (tr : List Event) : List BufferedTest := tr.filterMap (Event.endOf t)

/-- The results that `t` has printed. -/
abbrev prints (t : ℕ) (tr : List Event) : List BufferedTest := tr.filterMap (Event.printOf t)

/-- The indices printed by all threads. -/
abbrev printIndices (tr : List Event) : List ℕ := tr.filterMap Event.printIndexOf

/-- How many of the results are failures. -/
abbrev fails (es : List BufferedTest) : ℕ := es.countP fun e => !e.pass

/-- The result that `cldm_test_run` stores for the record `r`, the `idx`-th of
the run. -/
def resultOf (aux : AuxProcs) (idx : ℕ) (r : TestRec) : BufferedTest :=
  ⟨some r.name, basename r.file, allPass (testProc aux idx r)⟩

/-- The results are those of the tests that were started, in the same order. -/
def ResultsOf (aux : AuxProcs) (records : ℕ → Option TestRec) (ran : List ℕ)
    (results : List BufferedTest) : Prop :=
  List.Forall₂ (fun idx e => ∃ r, records idx = some r ∧ e = resultOf aux idx r) ran results

end Cldm
