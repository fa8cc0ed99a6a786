/-
Mocked functions (`cldm_mock.h`).

Every mocked function has a context for each thread: how often the next calls
perform an action, and which one.  `WHEN_CALLED(f).SHOULD_N_TIMES(n, action)`
walks over the threads that it is for, and notes in `cldm_mockinfos` whose context
the macros of the action and of the number write to.  A flag for each thread
disables its mocks; blocks save and restore it.

A thread is modelled by what it is inside of: blocks, real functions and actions
that mocks have called, and statements whose operands are being evaluated.  Its
steps come in any order that its frames allow, and between those of other threads.

* `mockStep` — what one step does;
* `MockStep`, `mockStep_cases` — its cases;
* `MockRun` — runs, and what is recorded of them.
-/
import Mathlib.Algebra.Group.Nat.Defs
import Mathlib.Data.Int.Order.Basic
import Mathlib.Data.List.Basic
import Mathlib.Logic.Function.Basic
import Mathlib.Tactic.Common

namespace Cldm

/-- `enum cldm_mockop`; `performReturn` is `cldm_mockop_return`. -/
inductive MockOp
  | invoke
  | performReturn
  | increment
  | returnParam
  | returnPointee
  | assign
  | assignParam
  deriving DecidableEq

/-- The member of the union `un_act` that was stored last. -/
inductive MockAct
  | invoke (func : ℕ)
  | retval (val : List UInt8)
  | counter (n : ℕ)
  | paramidx (idx : ℕ)
  | assign (lhs rhs size : ℕ)
  | assignParam (addr idx dstsize : ℕ)
  deriving DecidableEq

/-- The operation of a mock, with its operand. -/
structure Opdata where
  op : MockOp
  unAct : MockAct
  deriving DecidableEq

/-- The context of a mock for one thread; `invocations` is an `int`. -/
structure MockCtx where
  invocations : ℤ
  opdata : Opdata
  deriving DecidableEq

/-- `CLDM_MOCK_INFINITE`. -/
abbrev mockInfinite : ℤ := -1

/-- `INT_MAX`. -/
abbrev intMax : ℤ := 2147483647

/-- A number of calls that an `int` can hold is stored as it is. -/
theorem bmod_of_le {n : ℤ} (hn : 0 ≤ n ∨ n = mockInfinite) (hle : n ≤ intMax) :
    n.bmod (2 ^ 32) = n := by
  have hmax : n ≤ 2147483647 := hle
  have hmin : -1 ≤ n := by
    rcases hn with hn | rfl
    · omega
    · exact Int.le_refl _
  exact Int.bmod_eq_of_le_mul_two (by omega) (by omega)

-- 2^32 becomes no call at all, and 2^32 - 1 any number of them
example : (2 ^ 32 : ℤ).bmod (2 ^ 32) = 0 ∧ (2 ^ 32 - 1 : ℤ).bmod (2 ^ 32) = mockInfinite := by
  decide

/-- The four macros that generate mocks of functions that return. -/
inductive MockKind
  | procedureNullary
  | functionNullary
  | procedureVariadic
  | functionVariadic
  deriving DecidableEq

/-- The operations with a case of their own in the `switch` of a mock. -/
def MockKind.takes : MockKind → MockOp → Bool
  | _, .invoke | _, .performReturn | _, .assign => true
  | .functionNullary, .increment => true
  | .procedureVariadic, .assignParam => true
  | .functionVariadic, _ => true
  | _, _ => false

/-- The `switch` of a mock with `nparams` parameters: the operation that is performed,
with the counter that it leaves; none where the process exits or faults. -/
def mockSwitch (kind : MockKind) (nparams : ℕ) (o : Opdata) : Option Opdata :=
  if kind.takes o.op then
    match o.op, o.unAct with
    | .invoke, .invoke func => if func = 0 then none else some o
    | .performReturn, _ => some o
    | .increment, .counter n => some { o with unAct := .counter ((n + 1) % 2 ^ 32) }
    | .returnParam, .paramidx idx => if idx < nparams then some o else none
    | .returnPointee, .paramidx idx => if idx < nparams then some o else none
    | .assign, .assign _ _ _ => some o
    | .assignParam, .assignParam _ idx _ => if idx < nparams then some o else none
    -- another member of the union would be read
    | _, _ => none
  else
    none

/-- What a thread is inside of. -/
inductive MockFrame (F : Type)
  /-- a block of `cldm_mock_disable()`, or of `cldm_mock_enable()` -/
  | block (disable saved : Bool)
  /-- a block of `cldm_mock_global()` -/
  | global (saved : Bool)
  /-- the real function that the mock `f` has called -/
  | real (f : F) (saved : Bool)
  /-- the function that the mock `f` has invoked as its action -/
  | acting (f : F)
  /-- `WHEN_CALLED(f)`, before its action has been evaluated -/
  | configuring (f : F) (tid tidmax : ℕ)
  /-- `WHEN_CALLED(f)`, before its number has been evaluated -/
  | counting (f : F) (tid tidmax : ℕ) (o : Opdata)

/-- The state of the mocks `F`; `mockinfos` has the functions whose contexts the
elements of `cldm_mockinfos` point to. -/
structure MockState (F : Type) where
  ctx : F → ℕ → MockCtx
  forceDisable : ℕ → Bool
  globalContext : Bool
  mockinfos : ℕ → Option F
  frames : ℕ → List (MockFrame F)

/-- The number of threads, and the signatures of the mocks. -/
structure MockEnv (F : Type) where
  jobs : ℕ
  kind : F → MockKind
  nparams : F → ℕ

/-- What a thread does next. -/
inductive MockEvent (F : Type)
  /-- enter a block of `cldm_mock_disable()`, or of `cldm_mock_enable()` -/
  | block (disable : Bool)
  /-- enter a block of `cldm_mock_global()` -/
  | global
  /-- leave a block -/
  | leave
  /-- call the mock `f` -/
  | call (f : F)
  /-- return from the function that a mock has called -/
  | ret
  /-- begin `WHEN_CALLED(f)` -/
  | whenCalled (f : F)
  /-- store the action, which has been evaluated -/
  | action (o : Opdata)
  /-- store the number of calls, which has been evaluated -/
  | should (n : ℤ)
  deriving DecidableEq

/-- What is seen of a step: a call has performed an action, or has called the real
function. -/
inductive MockOutcome
  | quiet
  | real
  | performed (o : Opdata)
  deriving DecidableEq

section Definitions

variable {F : Type} [DecidableEq F] (env : MockEnv F)

/-- `cldm_mock_enabled`. -/
def MockState.enabled (s : MockState F) (t : ℕ) : Bool := !s.forceDisable t

/-- Store the context of `f` for the thread `u`. -/
def MockState.setCtx (s : MockState F) (f : F) (u : ℕ) (c : MockCtx) : MockState F :=
  { s with ctx := fun g v => if g = f ∧ v = u then c else s.ctx g v }

/-- The thread `t` is inside of the frames `L` next. -/
def MockState.setFrames (s : MockState F) (t : ℕ) (L : List (MockFrame F)) : MockState F :=
  { s with frames := Function.update s.frames t L }

/-- Set the flag of the thread `t`. -/
def MockState.setDisable (s : MockState F) (t : ℕ) (disable : Bool) : MockState F :=
  { s with forceDisable := Function.update s.forceDisable t disable }

/-- Point `cldm_mockinfos` to the context of `f`. -/
def MockState.setInfo (s : MockState F) (tid : ℕ) (f : F) : MockState F :=
  { s with mockinfos := Function.update s.mockinfos tid (some f) }

/-- Set the flag of the global context. -/
def MockState.setGlobal (s : MockState F) (b : Bool) : MockState F := { s with globalContext := b }

/-- `cldm_mock_lower_bound`. -/
def MockState.lowerBound (s : MockState F) (tid : ℕ) : ℕ := tid * (!s.globalContext).toNat

/-- `cldm_mock_upper_bound`. -/
def MockState.upperBound (s : MockState F) (tid : ℕ) : ℕ :=
  (!s.globalContext).toNat * (tid + 1) + s.globalContext.toNat * env.jobs

/-- The number of invocations that a call leaves. -/
def mockDecrement (invocations : ℤ) : ℤ :=
  if invocations ≠ mockInfinite then invocations - 1 else invocations

/-- A call of the mock `f`. -/
def mockCall (s : MockState F) (t : ℕ) (f : F) : Option (MockOutcome × MockState F) :=
  if s.enabled t = true ∧ (s.ctx f t).invocations ≠ 0 then
    (mockSwitch (env.kind f) (env.nparams f) (s.ctx f t).opdata).map fun o =>
      (.performed o, (s.setCtx f t ⟨mockDecrement (s.ctx f t).invocations, o⟩).setFrames t
        (if o.op = .invoke then .acting f :: s.frames t else s.frames t))
  else
    some (.real, (s.setDisable t true).setFrames t (.real f (s.forceDisable t) :: s.frames t))

/-- `CLDM_WHEN_CALLED`. -/
def whenCalled (s : MockState F) (t : ℕ) (f : F) : MockState F :=
  let tid := s.lowerBound t
  let tidmax := s.upperBound env t
  if tid < tidmax then (s.setInfo tid f).setFrames t (.configuring f tid tidmax :: s.frames t) else s

/-- `cldm_set_mockop`, in `WHEN_CALLED(f)`. -/
def setMockop (s : MockState F) (f : F) (tid : ℕ) (o : Opdata) : Option (MockState F) :=
  let c := s.ctx f tid
  let s := s.setCtx f tid { c with opdata.unAct := o.unAct }
  (s.mockinfos tid).map fun g =>
    let c := s.ctx g tid
    s.setCtx g tid { c with opdata.op := o.op }

/-- The end of `cldm_should`: the number is converted to `int` where it is stored. -/
def setInvocations (s : MockState F) (tid : ℕ) (n : ℤ) : Option (MockState F) :=
  if 0 ≤ n ∨ n = mockInfinite then
    (s.mockinfos tid).map fun g =>
      let c := s.ctx g tid
      s.setCtx g tid { c with invocations := n.bmod (2 ^ 32) }
  else
    none

/-- A step of the thread `t`. -/
def mockStep (s : MockState F) (t : ℕ) : MockEvent F → Option (MockOutcome × MockState F)
  | .block disable =>
    some (.quiet, (s.setDisable t disable).setFrames t (.block disable (s.forceDisable t) :: s.frames t))
  | .global => some (.quiet, (s.setGlobal true).setFrames t (.global s.globalContext :: s.frames t))
  | .leave =>
    match s.frames t with
    | .block _ saved :: rest => some (.quiet, (s.setDisable t saved).setFrames t rest)
    | .global saved :: rest => some (.quiet, (s.setGlobal saved).setFrames t rest)
    | _ => none
  | .call f => mockCall env s t f
  | .ret =>
    match s.frames t with
    | .acting _ :: rest => some (.quiet, s.setFrames t rest)
    | .real _ saved :: rest => some (.quiet, (s.setDisable t saved).setFrames t rest)
    | _ => none
  | .whenCalled f => some (.quiet, whenCalled env s t f)
  | .action o =>
    match s.frames t with
    | .configuring f tid tidmax :: rest =>
      (setMockop s f tid o).map fun s => (.quiet, s.setFrames t (.counting f tid tidmax o :: rest))
    | _ => none
  | .should n =>
    match s.frames t with
    | .counting f tid tidmax _ :: rest =>
      (setInvocations s tid n).map fun s =>
        (.quiet, if tid + 1 < tidmax then
          (s.setInfo (tid + 1) f).setFrames t (.configuring f (tid + 1) tidmax :: rest)
        else s.setFrames t rest)
    | _ => none

end Definitions

/-! ### What the setters leave alone -/

section Setters

variable {F : Type} {s : MockState F} {t : ℕ} {f : F}

@[simp] theorem setFrames_other (L : List (MockFrame F)) :
    (s.setFrames t L).ctx = s.ctx ∧ (s.setFrames t L).forceDisable = s.forceDisable ∧
      (s.setFrames t L).globalContext = s.globalContext ∧
      (s.setFrames t L).mockinfos = s.mockinfos := ⟨rfl, rfl, rfl, rfl⟩

@[simp] theorem setDisable_other (b : Bool) :
    (s.setDisable t b).ctx = s.ctx ∧ (s.setDisable t b).frames = s.frames ∧
      (s.setDisable t b).globalContext = s.globalContext ∧
      (s.setDisable t b).mockinfos = s.mockinfos := ⟨rfl, rfl, rfl, rfl⟩

@[simp] theorem setInfo_other :
    (s.setInfo t f).ctx = s.ctx ∧ (s.setInfo t f).frames = s.frames ∧
      (s.setInfo t f).globalContext = s.globalContext ∧
      (s.setInfo t f).forceDisable = s.forceDisable := ⟨rfl, rfl, rfl, rfl⟩

@[simp] theorem setGlobal_other (b : Bool) :
    (s.setGlobal b).ctx = s.ctx ∧ (s.setGlobal b).frames = s.frames ∧
      (s.setGlobal b).mockinfos = s.mockinfos ∧
      (s.setGlobal b).forceDisable = s.forceDisable := ⟨rfl, rfl, rfl, rfl⟩

@[simp] theorem setFrames_frames (L : List (MockFrame F)) :
    (s.setFrames t L).frames = Function.update s.frames t L := rfl

@[simp] theorem setDisable_forceDisable (b : Bool) :
    (s.setDisable t b).forceDisable = Function.update s.forceDisable t b := rfl

@[simp] theorem setInfo_mockinfos :
    (s.setInfo t f).mockinfos = Function.update s.mockinfos t (some f) := rfl

end Setters

/-! ### The cases of a step -/

section Cases

variable {F : Type} [DecidableEq F] {env : MockEnv F} {s : MockState F} {t u : ℕ} {f g : F}

@[simp] theorem setCtx_other (c : MockCtx) :
    (s.setCtx f t c).frames = s.frames ∧ (s.setCtx f t c).forceDisable = s.forceDisable ∧
      (s.setCtx f t c).globalContext = s.globalContext ∧
      (s.setCtx f t c).mockinfos = s.mockinfos := ⟨rfl, rfl, rfl, rfl⟩

theorem setCtx_ctx (c : MockCtx) :
    (s.setCtx f u c).ctx g t = if g = f ∧ t = u then c else s.ctx g t := rfl

/-- What a step of the thread `t` can be. -/
inductive MockStep (env : MockEnv F) (s : MockState F) (t : ℕ) :
    MockEvent F → MockOutcome → MockState F → Prop
  | block (disable : Bool) : MockStep env s t (.block disable) .quiet
      ((s.setDisable t disable).setFrames t (.block disable (s.forceDisable t) :: s.frames t))
  | global : MockStep env s t .global .quiet
      ((s.setGlobal true).setFrames t (.global s.globalContext :: s.frames t))
  | leaveBlock {disable saved : Bool} {rest : List (MockFrame F)} :
      s.frames t = .block disable saved :: rest →
      MockStep env s t .leave .quiet ((s.setDisable t saved).setFrames t rest)
  | leaveGlobal {saved : Bool} {rest : List (MockFrame F)} : s.frames t = .global saved :: rest →
      MockStep env s t .leave .quiet ((s.setGlobal saved).setFrames t rest)
  | performed {f : F} {o : Opdata} : s.forceDisable t = false → (s.ctx f t).invocations ≠ 0 →
      mockSwitch (env.kind f) (env.nparams f) (s.ctx f t).opdata = some o →
      MockStep env s t (.call f) (.performed o)
        ((s.setCtx f t ⟨mockDecrement (s.ctx f t).invocations, o⟩).setFrames t
          (if o.op = .invoke then .acting f :: s.frames t else s.frames t))
  | real {f : F} : (s.forceDisable t = true ∨ (s.ctx f t).invocations = 0) →
      MockStep env s t (.call f) .real
        ((s.setDisable t true).setFrames t (.real f (s.forceDisable t) :: s.frames t))
  | retActing {f : F} {rest : List (MockFrame F)} : s.frames t = .acting f :: rest →
      MockStep env s t .ret .quiet (s.setFrames t rest)
  | retReal {f : F} {saved : Bool} {rest : List (MockFrame F)} : s.frames t = .real f saved :: rest →
      MockStep env s t .ret .quiet ((s.setDisable t saved).setFrames t rest)
  | whenCalled {f : F} : s.lowerBound t < s.upperBound env t →
      MockStep env s t (.whenCalled f) .quiet ((s.setInfo (s.lowerBound t) f).setFrames t
        (.configuring f (s.lowerBound t) (s.upperBound env t) :: s.frames t))
  | whenCalledNone {f : F} : ¬ s.lowerBound t < s.upperBound env t →
      MockStep env s t (.whenCalled f) .quiet s
  | action {f : F} {tid tidmax : ℕ} {rest : List (MockFrame F)} {o : Opdata} {s' : MockState F} :
      s.frames t = .configuring f tid tidmax :: rest → setMockop s f tid o = some s' →
      MockStep env s t (.action o) .quiet (s'.setFrames t (.counting f tid tidmax o :: rest))
  | shouldNext {f : F} {tid tidmax : ℕ} {rest : List (MockFrame F)} {o : Opdata} {n : ℤ}
      {s' : MockState F} :
      s.frames t = .counting f tid tidmax o :: rest → setInvocations s tid n = some s' →
      tid + 1 < tidmax → MockStep env s t (.should n) .quiet
        ((s'.setInfo (tid + 1) f).setFrames t (.configuring f (tid + 1) tidmax :: rest))
  | shouldLast {f : F} {tid tidmax : ℕ} {rest : List (MockFrame F)} {o : Opdata} {n : ℤ}
      {s' : MockState F} :
      s.frames t = .counting f tid tidmax o :: rest → setInvocations s tid n = some s' →
      ¬ tid + 1 < tidmax → MockStep env s t (.should n) .quiet (s'.setFrames t rest)

theorem mockStep_cases {s' : MockState F} {e : MockEvent F} {r : MockOutcome}
    (h : mockStep env s t e = some (r, s')) : MockStep env s t e r s' := by
  cases e with
  | block disable =>
    obtain ⟨rfl, rfl⟩ := Prod.mk.inj (Option.some.inj h)
    exact .block disable
  | global =>
    obtain ⟨rfl, rfl⟩ := Prod.mk.inj (Option.some.inj h)
    exact .global
  | leave =>
    simp only [mockStep] at h
    split at h
    next hL =>
      obtain ⟨rfl, rfl⟩ := Prod.mk.inj (Option.some.inj h)
      exact .leaveBlock hL
    next hL =>
      obtain ⟨rfl, rfl⟩ := Prod.mk.inj (Option.some.inj h)
      exact .leaveGlobal hL
    · exact absurd h (by simp)
  | call f =>
    simp only [mockStep, mockCall] at h
    split_ifs at h with hc
    · obtain ⟨o, ho, heq⟩ := Option.map_eq_some_iff.mp h
      obtain ⟨rfl, rfl⟩ := Prod.mk.inj heq
      obtain ⟨hen, hinv⟩ := hc
      rw [MockState.enabled, Bool.not_eq_true'] at hen
      exact .performed hen hinv ho
    · obtain ⟨rfl, rfl⟩ := Prod.mk.inj (Option.some.inj h)
      refine .real ?_
      rw [MockState.enabled] at hc
      cases hd : s.forceDisable t with
      | true => exact .inl rfl
      | false =>
        refine .inr ?_
        by_contra hne
        exact hc ⟨by rw [hd]; rfl, hne⟩
  | ret =>
    simp only [mockStep] at h
    split at h
    next hL =>
      obtain ⟨rfl, rfl⟩ := Prod.mk.inj (Option.some.inj h)
      exact .retActing hL
    next hL =>
      obtain ⟨rfl, rfl⟩ := Prod.mk.inj (Option.some.inj h)
      exact .retReal hL
    · exact absurd h (by simp)
  | whenCalled f =>
    simp only [mockStep, whenCalled] at h
    obtain ⟨rfl, rfl⟩ := Prod.mk.inj (Option.some.inj h)
    split_ifs with hlt
    · exact .whenCalled hlt
    · exact .whenCalledNone hlt
  | action o =>
    simp only [mockStep] at h
    split at h
    next hL =>
      obtain ⟨s₁, hs₁, heq⟩ := Option.map_eq_some_iff.mp h
      obtain ⟨rfl, rfl⟩ := Prod.mk.inj heq
      exact .action hL hs₁
    · exact absurd h (by simp)
  | should n =>
    simp only [mockStep] at h
    split at h
    next hL =>
      obtain ⟨s₁, hs₁, heq⟩ := Option.map_eq_some_iff.mp h
      obtain ⟨rfl, rfl⟩ := Prod.mk.inj heq
      split_ifs with hlt
      · exact .shouldNext hL hs₁ hlt
      · exact .shouldLast hL hs₁ hlt
    · exact absurd h (by simp)

end Cases

end Cldm
