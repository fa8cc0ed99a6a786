/-
Runs of mocked functions.

A statement `WHEN_CALLED(f)` is disturbed by another one for the same thread that
begins before it is done: `cldm_mockinfos` then points to the context of another
function.  In a run without such disturbances, calls do what was configured, for
every order of the steps of the threads, as long as an `int` holds the numbers.

* `Directed` — what holds of the statements that are executed;
* `FlagsOk` — what the flags of the threads are;
* `Tracked` — what is left of a configuration;
* `mocks_obey` — in runs without disturbances, the next calls perform their action;
* `mocks_misdirected` — a statement that is executed while the action of another
  one is evaluated takes its configuration away.
-/
import Cldm.Mock

namespace Cldm

variable {F : Type} [DecidableEq F] {env : MockEnv F} {s s' s₁ s₂ : MockState F} {t u tid : ℕ}
  {f g : F} {e : MockEvent F} {r : MockOutcome} {o : Opdata} {n : ℤ}

/-! ### Runs -/

/-- What is recorded of a step: its thread, whether the mocks of the thread were
enabled, and what was seen. -/
structure MockLabel (F : Type) where
  thread : ℕ
  event : MockEvent F
  enabled : Bool
  outcome : MockOutcome

/-- A run from `s` whose steps all satisfy `ok`. -/
inductive MockRun (env : MockEnv F) (ok : MockState F → ℕ → MockEvent F → Prop) (s : MockState F) :
    List (MockLabel F) → MockState F → Prop
  | nil : MockRun env ok s [] s
  | snoc {es : List (MockLabel F)} {s₁ s₂ : MockState F} {t : ℕ} {e : MockEvent F} {r : MockOutcome} :
      MockRun env ok s es s₁ → ok s₁ t e → mockStep env s₁ t e = some (r, s₂) →
      MockRun env ok s (es ++ [⟨t, e, s₁.enabled t, r⟩]) s₂

/-- The state at the start of the program; the flags can be set first. -/
def mockInit (flags : ℕ → Bool) : MockState F where
  ctx := fun _ _ => ⟨0, ⟨.invoke, .invoke 0⟩⟩
  forceDisable := flags
  globalContext := false
  mockinfos := fun _ => none
  frames := fun _ => []

/-- The threads that are still to be configured. -/
def MockFrame.covers : MockFrame F → ℕ → Prop
  | .configuring _ tid tidmax, u => tid ≤ u ∧ u < tidmax
  | .counting _ tid tidmax _, u => tid ≤ u ∧ u < tidmax
  | _, _ => False

/-- No statement begins while another one is executed for the same thread, and the
numbers of calls fit an `int`. -/
def Undisturbed (env : MockEnv F) (s : MockState F) (t : ℕ) : MockEvent F → Prop
  | .whenCalled _ => ∀ u, s.lowerBound t ≤ u → u < s.upperBound env t →
      ∀ v, ∀ fr ∈ s.frames v, ¬ fr.covers u
  | .should n => n ≤ intMax
  | _ => True

/-- The step belongs to a statement that configures `f` for the thread `t`. -/
def Configures (s : MockState F) (u : ℕ) (e : MockEvent F) (f : F) (t : ℕ) : Prop :=
  match e, s.frames u with
  | .action _, .configuring g tid _ :: _ => g = f ∧ tid = t
  | .should _, .counting g tid _ _ :: _ => g = f ∧ tid = t
  | _, _ => False

/-- The number of calls of `f` by `t` while its mocks were enabled. -/
def enabledCalls (f : F) (t : ℕ) (es : List (MockLabel F)) : ℕ :=
  es.countP fun l => l.thread = t ∧ l.event = .call f ∧ l.enabled = true

/-- The action without the state of its counter. -/
def Opdata.action (o : Opdata) : Opdata :=
  match o.unAct with
  | .counter _ => { o with unAct := .counter 0 }
  | _ => o

/-- Only a counter changes when an action is performed. -/
theorem mockSwitch_cases {kind : MockKind} {nparams : ℕ} {o o' : Opdata}
    (h : mockSwitch kind nparams o = some o') :
    o' = o ∨ ∃ n m, o = ⟨.increment, .counter n⟩ ∧ o' = ⟨.increment, .counter m⟩ := by
  rcases o with ⟨op, act⟩
  have same : ∀ {c : Prop} [Decidable c], (if c then some (⟨op, act⟩ : Opdata) else none) = some o' →
      o' = ⟨op, act⟩ := by
    intro c _ h
    split_ifs at h
    exact (Option.some.inj h).symm
  have same' : ∀ {c : Prop} [Decidable c], (if c then none else some (⟨op, act⟩ : Opdata)) = some o' →
      o' = ⟨op, act⟩ := by
    intro c _ h
    split_ifs at h
    exact (Option.some.inj h).symm
  rw [mockSwitch] at h
  split_ifs at h with htakes
  simp only at h
  split at h
  · exact .inl (same' h)
  · exact .inl (Option.some.inj h).symm
  · exact .inr ⟨_, _, rfl, (Option.some.inj h).symm⟩
  · exact .inl (same h)
  · exact .inl (same h)
  · exact .inl (Option.some.inj h).symm
  · exact .inl (same h)
  · exact absurd h (by simp)

theorem mockSwitch_action {kind : MockKind} {nparams : ℕ} {o o' : Opdata}
    (h : mockSwitch kind nparams o = some o') : o'.action = o.action := by
  rcases mockSwitch_cases h with rfl | ⟨n, m, rfl, rfl⟩
  · rfl
  · rfl

/-! ### The statements that are executed -/

/-- No thread is to be configured by both. -/
def MockFrame.Apart (a b : MockFrame F) : Prop := ∀ x, a.covers x → ¬ b.covers x

/-- `cldm_mockinfos` points to the context that the statement writes to. -/
def MockFrame.Points (s : MockState F) : MockFrame F → Prop
  | .configuring f tid tidmax => tid < tidmax ∧ s.mockinfos tid = some f
  | .counting f tid tidmax o => tid < tidmax ∧ s.mockinfos tid = some f ∧
      (s.ctx f tid).opdata.action = o.action
  | _ => True

/-- All statements that are executed write to the contexts of their own functions. -/
structure Directed (s : MockState F) : Prop where
  apart : ∀ u v, u ≠ v → ∀ a ∈ s.frames u, ∀ b ∈ s.frames v, a.Apart b
  nested : ∀ u, (s.frames u).Pairwise MockFrame.Apart
  points : ∀ u, ∀ a ∈ s.frames u, a.Points s

omit [DecidableEq F] in
theorem directed_init (flags : ℕ → Bool) : Directed (mockInit flags : MockState F) where
  apart := fun _ _ _ a ha => absurd ha (by simp [mockInit])
  nested := fun _ => List.Pairwise.nil
  points := fun _ a ha => absurd ha (by simp [mockInit])

/-- The frames that stay when those of `t` change down to `rest`. -/
def Retained (s : MockState F) (t : ℕ) (rest : List (MockFrame F)) (b : MockFrame F) : Prop :=
  b ∈ rest ∨ ∃ v, v ≠ t ∧ b ∈ s.frames v

omit [DecidableEq F] in
theorem MockFrame.Apart.symm {a b : MockFrame F} (h : a.Apart b) : b.Apart a :=
  fun x hb ha => h x ha hb

omit [DecidableEq F] in
theorem Directed.retained (h : Directed s) {a b : MockFrame F} {rest : List (MockFrame F)}
    (hL : s.frames t = a :: rest) (hb : Retained s t rest b) : a.Apart b := by
  rcases hb with hb | ⟨v, hv, hb⟩
  · have := h.nested t
    rw [hL] at this
    exact (List.pairwise_cons.mp this).1 b hb
  · refine h.apart t v hv.symm a ?_ b hb
    rw [hL]
    exact List.mem_cons_self ..

omit [DecidableEq F] in
theorem Directed.top (h : Directed s) {a : MockFrame F} {rest : List (MockFrame F)}
    (hL : s.frames t = a :: rest) : a.Points s := by
  refine h.points t a ?_
  rw [hL]
  exact List.mem_cons_self ..

omit [DecidableEq F] in
/-- A frame that still points to its function. -/
theorem MockFrame.Points.congr {b : MockFrame F} (h : b.Points s)
    (hkeep : ∀ x, b.covers x → s'.mockinfos x = s.mockinfos x ∧
      ∀ f, (s'.ctx f x).opdata.action = (s.ctx f x).opdata.action) : b.Points s' := by
  cases b with
  | configuring f tid tidmax =>
    obtain ⟨hlt, hinfo⟩ := h
    exact ⟨hlt, (hkeep tid ⟨Nat.le_refl _, hlt⟩).1.trans hinfo⟩
  | counting f tid tidmax o =>
    obtain ⟨hlt, hinfo, hact⟩ := h
    obtain ⟨hinfo', hact'⟩ := hkeep tid ⟨Nat.le_refl _, hlt⟩
    exact ⟨hlt, hinfo'.trans hinfo, (hact' f).trans hact⟩
  | _ => trivial

omit [DecidableEq F] in
/-- The frames of `t` change on top of `rest`. -/
theorem Directed.replace (h : Directed s) {top top' rest : List (MockFrame F)}
    (hL : s.frames t = top ++ rest) (hframes : s'.frames = Function.update s.frames t (top' ++ rest))
    (hone : top'.Pairwise MockFrame.Apart) (hnew : ∀ a ∈ top', a.Points s')
    (hapart : ∀ a ∈ top', ∀ b, Retained s t rest b → a.Apart b)
    (hkeep : ∀ b, Retained s t rest b → ∀ x, b.covers x → s'.mockinfos x = s.mockinfos x ∧
      ∀ f, (s'.ctx f x).opdata.action = (s.ctx f x).opdata.action) : Directed s' := by
  have hmem : ∀ b ∈ rest, b ∈ s.frames t := fun b hb => by
    rw [hL]
    exact List.mem_append_right _ hb
  have hsame : s'.frames t = top' ++ rest := by rw [hframes, Function.update_self]
  have hother : ∀ v, v ≠ t → s'.frames v = s.frames v := fun v hv => by
    rw [hframes, Function.update_of_ne hv]
  -- the frames of `t` against those of the other threads
  have hacross : ∀ v, v ≠ t → ∀ a ∈ s'.frames t, ∀ b ∈ s'.frames v, a.Apart b := by
    intro v hv a ha b hb
    rw [hsame] at ha
    rw [hother v hv] at hb
    rcases List.mem_append.mp ha with ha | ha
    · exact hapart a ha b (.inr ⟨v, hv, hb⟩)
    · exact h.apart t v hv.symm a (hmem a ha) b hb
  refine ⟨fun u v huv a ha b hb => ?_, fun u => ?_, fun u a ha => ?_⟩
  · by_cases hu : u = t
    · subst hu
      exact hacross v huv.symm a ha b hb
    · by_cases hv : v = t
      · subst hv
        exact (hacross u hu b hb a ha).symm
      · rw [hother u hu] at ha
        rw [hother v hv] at hb
        exact h.apart u v huv a ha b hb
  · by_cases hu : u = t
    · subst hu
      have hrest := h.nested u
      rw [hL] at hrest
      rw [hsame]
      exact List.pairwise_append.mpr ⟨hone, (List.pairwise_append.mp hrest).2.1,
        fun a ha b hb => hapart a ha b (.inl hb)⟩
    · rw [hother u hu]
      exact h.nested u
  · by_cases hu : u = t
    · subst hu
      rw [hsame] at ha
      rcases List.mem_append.mp ha with ha | ha
      · exact hnew a ha
      · exact (h.points u a (hmem a ha)).congr (hkeep a (.inl ha))
    · rw [hother u hu] at ha
      exact (h.points u a ha).congr (hkeep a (.inr ⟨u, hu, ha⟩))

/-- A frame that is not a statement. -/
def MockFrame.Plain : MockFrame F → Prop
  | .configuring _ _ _ | .counting _ _ _ _ => False
  | _ => True

omit [DecidableEq F] in
theorem MockFrame.Plain.not_covers {a : MockFrame F} (h : a.Plain) (x : ℕ) : ¬ a.covers x := by
  cases a with
  | configuring f tid tidmax => exact absurd h id
  | counting f tid tidmax o => exact absurd h id
  | _ => exact id

omit [DecidableEq F] in
theorem MockFrame.Plain.points {a : MockFrame F} (h : a.Plain) : a.Points s := by
  cases a with
  | configuring f tid tidmax => exact absurd h id
  | counting f tid tidmax o => exact absurd h id
  | _ => trivial

omit [DecidableEq F] in
/-- A thread enters something that is not a statement. -/
theorem Directed.push (h : Directed s) {a : MockFrame F} (ha : a.Plain)
    (hframes : s'.frames = Function.update s.frames t (a :: s.frames t))
    (hkeep : ∀ x, s'.mockinfos x = s.mockinfos x ∧
      ∀ f, (s'.ctx f x).opdata.action = (s.ctx f x).opdata.action) : Directed s' := by
  refine h.replace (t := t) (List.nil_append _).symm hframes (List.pairwise_singleton _ _) ?_ ?_
    fun _ _ x _ => hkeep x
  · intro b hb
    rw [List.mem_singleton.mp hb]
    exact ha.points
  · intro b hb _ _ x hx
    rw [List.mem_singleton.mp hb] at hx
    exact absurd hx (ha.not_covers x)

omit [DecidableEq F] in
/-- A thread leaves what it is inside of. -/
theorem Directed.pop (h : Directed s) {a : MockFrame F} {rest : List (MockFrame F)}
    (hL : s.frames t = a :: rest) (hframes : s'.frames = Function.update s.frames t rest)
    (hkeep : ∀ b, Retained s t rest b → ∀ x, b.covers x → s'.mockinfos x = s.mockinfos x ∧
      ∀ f, (s'.ctx f x).opdata.action = (s.ctx f x).opdata.action) : Directed s' := by
  have hL' : s.frames t = [a] ++ rest := hL
  have hframes' : s'.frames = Function.update s.frames t ([] ++ rest) := hframes
  exact h.replace hL' hframes' List.Pairwise.nil (by simp) (by simp) hkeep

theorem setCtx_setCtx (c c' : MockCtx) : (s.setCtx f tid c).setCtx f tid c' = s.setCtx f tid c' := by
  simp only [MockState.setCtx, MockState.mk.injEq, and_true]
  funext g v
  split_ifs <;> rfl

/-- A statement that points to its function stores its action there. -/
theorem setMockop_some (h : setMockop s f tid o = some s') (hinfo : s.mockinfos tid = some f) :
    s' = s.setCtx f tid ⟨(s.ctx f tid).invocations, o⟩ := by
  simp only [setMockop, setCtx_other, hinfo, Option.map_some, Option.some.injEq] at h
  rw [← h, setCtx_setCtx, setCtx_ctx, if_pos ⟨rfl, rfl⟩]

theorem setInvocations_some (h : setInvocations s tid n = some s') (hinfo : s.mockinfos tid = some f) :
    (0 ≤ n ∨ n = mockInfinite) ∧
      s' = s.setCtx f tid ⟨n.bmod (2 ^ 32), (s.ctx f tid).opdata⟩ := by
  rw [setInvocations] at h
  split_ifs at h with hn
  rw [hinfo, Option.map_some, Option.some.injEq] at h
  exact ⟨hn, h.symm⟩

/-- Another context has changed. -/
theorem setCtx_of_ne (c : MockCtx) {x : ℕ} (hx : x ≠ tid) :
    (s.setCtx f tid c).ctx g x = s.ctx g x := by
  rw [setCtx_ctx, if_neg fun h => hx h.2]

theorem setCtx_self (c : MockCtx) : (s.setCtx f tid c).ctx f tid = c := by
  rw [setCtx_ctx, if_pos ⟨rfl, rfl⟩]

/-- A step of a thread that is not disturbed. -/
theorem Directed.step (h : Directed s) (hok : Undisturbed env s t e)
    (hstep : MockStep env s t e r s') : Directed s' := by
  cases hstep with
  | block disable => exact h.push (a := .block disable _) trivial rfl fun x => ⟨rfl, fun f => rfl⟩
  | global => exact h.push (a := .global _) trivial rfl fun x => ⟨rfl, fun f => rfl⟩
  | leaveBlock hL => exact h.pop hL rfl fun _ _ x _ => ⟨rfl, fun f => rfl⟩
  | leaveGlobal hL => exact h.pop hL rfl fun _ _ x _ => ⟨rfl, fun f => rfl⟩
  | @performed f o hen hinv ho =>
    have hkeep : ∀ x, s.mockinfos x = s.mockinfos x ∧ ∀ g,
        ((s.setCtx f t ⟨mockDecrement (s.ctx f t).invocations, o⟩).ctx g x).opdata.action =
          (s.ctx g x).opdata.action := by
      refine fun x => ⟨rfl, fun g => ?_⟩
      rw [setCtx_ctx]
      split_ifs with hgx
      · obtain ⟨rfl, rfl⟩ := hgx
        exact mockSwitch_action ho
      · rfl
    split_ifs with hop
    · exact h.push (a := .acting f) trivial rfl hkeep
    · have hframes : ((s.setCtx f t ⟨mockDecrement (s.ctx f t).invocations, o⟩).setFrames t
          (s.frames t)).frames = Function.update s.frames t ([] ++ s.frames t) := rfl
      exact h.replace (List.nil_append _).symm hframes List.Pairwise.nil (by simp) (by simp)
        fun _ _ x _ => hkeep x
  | @real f hdis => exact h.push (a := .real f _) trivial rfl fun x => ⟨rfl, fun f => rfl⟩
  | retActing hL => exact h.pop hL rfl fun _ _ x _ => ⟨rfl, fun f => rfl⟩
  | retReal hL => exact h.pop hL rfl fun _ _ x _ => ⟨rfl, fun f => rfl⟩
  | @whenCalled f hlt =>
    -- nothing covers the thread that `cldm_mockinfos` is changed for
    have hfree : ∀ b, Retained s t (s.frames t) b → ∀ x, s.lowerBound t ≤ x →
        x < s.upperBound env t → ¬ b.covers x := by
      rintro b (hb | ⟨v, -, hb⟩) x hx hx'
      · exact hok x hx hx' t b hb
      · exact hok x hx hx' v b hb
    refine h.replace (t := t) (List.nil_append _).symm rfl (List.pairwise_singleton _ _) ?_ ?_ ?_
    · intro a ha
      rw [List.mem_singleton.mp ha]
      exact ⟨hlt, Function.update_self ..⟩
    · intro a ha b hb x hx
      rw [List.mem_singleton.mp ha] at hx
      exact hfree b hb x hx.1 hx.2
    · intro b hb x hx
      refine ⟨Function.update_of_ne ?_ _ _, fun f => rfl⟩
      rintro rfl
      exact hfree b hb _ (Nat.le_refl _) hlt hx
  | whenCalledNone => exact h
  | @action f tid tidmax rest o s₁ hL hset =>
    obtain ⟨hlt, hinfo⟩ := h.top hL
    obtain rfl := setMockop_some hset hinfo
    have hL' : s.frames t = [.configuring f tid tidmax] ++ rest := hL
    refine h.replace hL' rfl (List.pairwise_singleton _ _) ?_ ?_ ?_
    · intro a ha
      rw [List.mem_singleton.mp ha]
      exact ⟨hlt, hinfo, congrArg (fun c => c.opdata.action) (setCtx_self _)⟩
    · intro a ha b hb x hx
      rw [List.mem_singleton.mp ha] at hx
      exact h.retained hL hb x hx
    · intro b hb x hx
      refine ⟨rfl, fun g => congrArg (fun c => c.opdata.action) (setCtx_of_ne _ ?_)⟩
      rintro rfl
      exact h.retained hL hb x ⟨Nat.le_refl _, hlt⟩ hx
  | @shouldNext f tid tidmax rest o n s₁ hL hset hlt' =>
    obtain ⟨hlt, hinfo, -⟩ := h.top hL
    obtain ⟨-, rfl⟩ := setInvocations_some hset hinfo
    have hL' : s.frames t = [.counting f tid tidmax o] ++ rest := hL
    refine h.replace hL' rfl (List.pairwise_singleton _ _) ?_ ?_ ?_
    · intro a ha
      rw [List.mem_singleton.mp ha]
      exact ⟨hlt', Function.update_self ..⟩
    · intro a ha b hb x hx
      rw [List.mem_singleton.mp ha] at hx
      exact h.retained hL hb x ⟨by have := hx.1; omega, hx.2⟩
    · intro b hb x hx
      have hx' : ¬ (tid ≤ x ∧ x < tidmax) := fun hc => h.retained hL hb x hc hx
      have hne : x ≠ tid ∧ x ≠ tid + 1 := by omega
      refine ⟨Function.update_of_ne hne.2 _ _, fun g => ?_⟩
      show ((s.setCtx f tid ⟨n.bmod (2 ^ 32), (s.ctx f tid).opdata⟩).ctx g x).opdata.action = _
      rw [setCtx_of_ne _ hne.1]
  | @shouldLast f tid tidmax rest o n s₁ hL hset hlt' =>
    obtain ⟨hlt, hinfo, -⟩ := h.top hL
    obtain ⟨-, rfl⟩ := setInvocations_some hset hinfo
    refine h.pop hL rfl fun b hb x hx => ⟨rfl, fun g => ?_⟩
    show ((s.setCtx f tid ⟨n.bmod (2 ^ 32), (s.ctx f tid).opdata⟩).ctx g x).opdata.action = _
    rw [setCtx_of_ne]
    rintro rfl
    exact h.retained hL hb x ⟨Nat.le_refl _, hlt⟩ hx

/-! ### The flags -/

/-- The flag that the innermost block sets. -/
def flagOf (base : Bool) : List (MockFrame F) → Bool
  | [] => base
  | .block disable _ :: _ => disable
  | .real _ _ :: _ => true
  | _ :: rest => flagOf base rest

/-- The blocks have saved the flags of the blocks around them. -/
def SavedOk (base : Bool) : List (MockFrame F) → Prop
  | [] => True
  | .block _ saved :: rest => saved = flagOf base rest ∧ SavedOk base rest
  | .real _ saved :: rest => saved = flagOf base rest ∧ SavedOk base rest
  | _ :: rest => SavedOk base rest

attribute [grind =] flagOf SavedOk

/-- The flag of every thread is that of its innermost block. -/
def FlagsOk (flags : ℕ → Bool) (s : MockState F) : Prop :=
  ∀ t, s.forceDisable t = flagOf (flags t) (s.frames t) ∧ SavedOk (flags t) (s.frames t)

omit [DecidableEq F] in
/-- A step changes the flag and the frames of its own thread only. -/
theorem FlagsOk.set {flags : ℕ → Bool} (h : FlagsOk flags s) {disable : Bool}
    {L : List (MockFrame F)} (hdisable : s'.forceDisable = Function.update s.forceDisable t disable)
    (hframes : s'.frames = Function.update s.frames t L)
    (hset : disable = flagOf (flags t) L ∧ SavedOk (flags t) L) : FlagsOk flags s' := by
  intro u
  rw [hdisable, hframes]
  by_cases hu : u = t
  · subst hu
    rw [Function.update_self, Function.update_self]
    exact hset
  · rw [Function.update_of_ne hu, Function.update_of_ne hu]
    exact h u

theorem setMockop_other (h : setMockop s f tid o = some s') :
    s'.frames = s.frames ∧ s'.forceDisable = s.forceDisable := by
  obtain ⟨g, -, rfl⟩ := Option.map_eq_some_iff.mp h
  exact ⟨rfl, rfl⟩

theorem setInvocations_other (h : setInvocations s tid n = some s') :
    s'.frames = s.frames ∧ s'.forceDisable = s.forceDisable := by
  rw [setInvocations] at h
  split_ifs at h
  obtain ⟨g, -, rfl⟩ := Option.map_eq_some_iff.mp h
  exact ⟨rfl, rfl⟩

theorem FlagsOk.step {flags : ℕ → Bool} (h : FlagsOk flags s) (hstep : MockStep env s t e r s') :
    FlagsOk flags s' := by
  obtain ⟨hflag, hsaved⟩ := h t
  have hsame : s.forceDisable = Function.update s.forceDisable t (s.forceDisable t) :=
    (Function.update_eq_self ..).symm
  cases hstep with
  | block disable => exact h.set rfl rfl ⟨rfl, hflag, hsaved⟩
  | global => exact h.set hsame rfl ⟨hflag, hsaved⟩
  | leaveBlock hL =>
    rw [hL] at hsaved
    exact h.set rfl rfl hsaved
  | leaveGlobal hL =>
    rw [hL] at hflag hsaved
    exact h.set hsame rfl ⟨hflag, hsaved⟩
  | @performed f o hen hinv ho =>
    refine h.set hsame rfl ?_
    split_ifs
    · exact ⟨hflag, hsaved⟩
    · exact ⟨hflag, hsaved⟩
  | real hdis => exact h.set rfl rfl ⟨rfl, hflag, hsaved⟩
  | retActing hL =>
    rw [hL] at hflag hsaved
    exact h.set hsame rfl ⟨hflag, hsaved⟩
  | retReal hL =>
    rw [hL] at hsaved
    exact h.set rfl rfl hsaved
  | whenCalled hlt => exact h.set hsame rfl ⟨hflag, hsaved⟩
  | whenCalledNone => exact h
  | action hL hset =>
    obtain ⟨hframes, hdisable⟩ := setMockop_other hset
    rw [hL] at hflag hsaved
    exact h.set (hdisable.trans hsame) (congrArg (fun fr => Function.update fr t _) hframes)
      ⟨hflag, hsaved⟩
  | shouldNext hL hset hlt =>
    obtain ⟨hframes, hdisable⟩ := setInvocations_other hset
    rw [hL] at hflag hsaved
    exact h.set (hdisable.trans hsame) (congrArg (fun fr => Function.update fr t _) hframes)
      ⟨hflag, hsaved⟩
  | shouldLast hL hset hlt =>
    obtain ⟨hframes, hdisable⟩ := setInvocations_other hset
    rw [hL] at hflag hsaved
    exact h.set (hdisable.trans hsame) (congrArg (fun fr => Function.update fr t _) hframes)
      ⟨hflag, hsaved⟩

omit [DecidableEq F] in
/-- Inside of a real function, the mocks are disabled unless a block enables them. -/
theorem flagOf_real {base : Bool} {pre rest : List (MockFrame F)} {g : F} {saved : Bool}
    (hpre : ∀ saved, .block false saved ∉ pre) :
    flagOf base (pre ++ .real g saved :: rest) = true := by
  induction pre with
  | nil => rfl
  | cons a pre ih =>
    have ih := ih fun saved h => hpre saved (List.mem_cons_of_mem _ h)
    cases a with
    | block disable saved' =>
      cases disable with
      | true => rfl
      | false => exact absurd (List.mem_cons_self ..) (hpre saved')
    | real g' saved' => rfl
    | _ => exact ih

/-! ### What is left of a configuration -/

/-- After `k` of the calls that were to perform the action `o`, `n` times. -/
structure Tracked (s : MockState F) (f : F) (t : ℕ) (n : ℤ) (o : Opdata) (k : ℕ) : Prop where
  action : (s.ctx f t).opdata.action = o.action
  invocations : (s.ctx f t).invocations = if n = mockInfinite then mockInfinite else max 0 (n - k)

omit [DecidableEq F] in
theorem Tracked.congr {k : ℕ} (h : Tracked s f t n o k) (hctx : s'.ctx f t = s.ctx f t) :
    Tracked s' f t n o k := by
  refine ⟨?_, ?_⟩
  · rw [hctx]
    exact h.action
  · rw [hctx]
    exact h.invocations

/-- The step writes to no context of `t` but those that it configures. -/
theorem MockStep.ctx_eq (hstep : MockStep env s u e r s') (hdir : Directed s)
    (hconf : ¬ Configures s u e f t) (hcall : ∀ o, r = .performed o → ¬ (u = t ∧ e = .call f)) :
    s'.ctx f t = s.ctx f t := by
  cases hstep with
  | @performed g o hen hinv ho =>
    show (s.setCtx g u _).ctx f t = _
    rw [setCtx_ctx, if_neg]
    rintro ⟨rfl, rfl⟩
    exact hcall o rfl ⟨rfl, rfl⟩
  | @action g tid tidmax rest o s₁ hL hset =>
    obtain ⟨hlt, hinfo⟩ := hdir.top hL
    obtain rfl := setMockop_some hset hinfo
    show (s.setCtx g tid _).ctx f t = _
    rw [setCtx_ctx, if_neg]
    rintro ⟨rfl, rfl⟩
    exact hconf (by simp [Configures, hL])
  | @shouldNext g tid tidmax rest o n s₁ hL hset hlt' =>
    obtain ⟨hlt, hinfo, -⟩ := hdir.top hL
    obtain ⟨-, rfl⟩ := setInvocations_some hset hinfo
    show (s.setCtx g tid _).ctx f t = _
    rw [setCtx_ctx, if_neg]
    rintro ⟨rfl, rfl⟩
    exact hconf (by simp [Configures, hL])
  | @shouldLast g tid tidmax rest o n s₁ hL hset hlt' =>
    obtain ⟨hlt, hinfo, -⟩ := hdir.top hL
    obtain ⟨-, rfl⟩ := setInvocations_some hset hinfo
    show (s.setCtx g tid _).ctx f t = _
    rw [setCtx_ctx, if_neg]
    rintro ⟨rfl, rfl⟩
    exact hconf (by simp [Configures, hL])
  | _ => rfl

/-- Storing the number of a statement completes a configuration. -/
theorem MockStep.configured {tidmax : ℕ} {rest : List (MockFrame F)}
    (hstep : MockStep env s u (.should n) r s') (hdir : Directed s)
    (hL : s.frames u = .counting f t tidmax o :: rest) :
    (0 ≤ n ∨ n = mockInfinite) ∧ s'.ctx f t = ⟨n.bmod (2 ^ 32), (s.ctx f t).opdata⟩ := by
  obtain ⟨-, hinfo, -⟩ := hdir.top hL
  cases hstep with
  | shouldNext hL' hset hlt =>
    rw [hL, List.cons.injEq] at hL'
    obtain ⟨hfr, rfl⟩ := hL'
    cases hfr
    obtain ⟨hn, rfl⟩ := setInvocations_some hset hinfo
    exact ⟨hn, setCtx_self _⟩
  | shouldLast hL' hset hlt =>
    rw [hL, List.cons.injEq] at hL'
    obtain ⟨hfr, rfl⟩ := hL'
    cases hfr
    obtain ⟨hn, rfl⟩ := setInvocations_some hset hinfo
    exact ⟨hn, setCtx_self _⟩

/-- A step enables and disables the mocks of its own thread only. -/
theorem MockStep.enabled_eq (hstep : MockStep env s u e r s') (hne : t ≠ u) :
    s'.enabled t = s.enabled t := by
  have hset : ∀ b, Function.update s.forceDisable u b t = s.forceDisable t := fun b =>
    Function.update_of_ne hne ..
  have hflag : s'.forceDisable t = s.forceDisable t := by
    cases hstep with
    | block disable => exact hset _
    | leaveBlock hL => exact hset _
    | real hdis => exact hset _
    | retReal hL => exact hset _
    | action hL hset' => exact congrFun (setMockop_other hset').2 t
    | shouldNext hL hset' hlt => exact congrFun (setInvocations_other hset').2 t
    | shouldLast hL hset' hlt => exact congrFun (setInvocations_other hset').2 t
    | _ => rfl
  rw [MockState.enabled, MockState.enabled, hflag]

/-- A step that does not configure `f` for `t` counts at most one call. -/
theorem Tracked.step {k : ℕ} (h : Tracked s f t n o k) (hdir : Directed s)
    (hconf : ¬ Configures s u e f t) (hstep : MockStep env s u e r s') :
    Tracked s' f t n o (k + if u = t ∧ e = .call f ∧ s.enabled u = true then 1 else 0) := by
  by_cases hcall : u = t ∧ e = .call f ∧ s.enabled u = true
  · obtain ⟨rfl, rfl, hen⟩ := hcall
    have hctx := hstep.ctx_eq hdir hconf
    have hact := h.action
    have hleft := h.invocations
    rw [if_pos ⟨rfl, rfl, hen⟩]
    cases hstep with
    | performed hen' hinv ho =>
      refine ⟨?_, ?_⟩
      · show ((s.setCtx f u _).ctx f u).opdata.action = _
        rw [setCtx_self, mockSwitch_action ho, hact]
      · show ((s.setCtx f u _).ctx f u).invocations = _
        rw [setCtx_self]
        show mockDecrement (s.ctx f u).invocations = _
        by_cases hn : n = mockInfinite
        · rw [if_pos hn] at hleft ⊢
          rw [hleft, mockDecrement, if_neg fun h => h rfl]
        · rw [if_neg hn] at hleft ⊢
          have hpos : (s.ctx f u).invocations ≠ mockInfinite := by
            show _ ≠ (-1 : ℤ)
            omega
          rw [mockDecrement, if_pos hpos]
          push_cast
          omega
    | real hdis =>
      have hzero : (s.ctx f u).invocations = 0 := by
        rcases hdis with hdis | hzero
        · rw [MockState.enabled, hdis] at hen
          exact absurd hen (by decide)
        · exact hzero
      refine ⟨?_, ?_⟩
      · rw [hctx (by simp)]
        exact hact
      · rw [hctx (by simp)]
        split_ifs at hleft ⊢
        · exact hleft
        · omega
  · rw [if_neg hcall, Nat.add_zero]
    refine h.congr (hstep.ctx_eq hdir hconf fun o ho hcall' => hcall ⟨hcall'.1, hcall'.2, ?_⟩)
    obtain ⟨rfl, rfl⟩ := hcall'
    subst ho
    cases hstep with
    | performed hen hinv ho =>
      rw [MockState.enabled, hen]
      rfl

theorem enabledCalls_append (es : List (MockLabel F)) (l : MockLabel F) :
    enabledCalls f t (es ++ [l]) = enabledCalls f t es +
      if l.thread = t ∧ l.event = .call f ∧ l.enabled = true then 1 else 0 := by
  rw [enabledCalls, List.countP_append, List.countP_singleton, enabledCalls]
  simp only [decide_eq_true_eq]

/-- The invariants of a run from the start. -/
theorem MockRun.inv {flags : ℕ → Bool} {es : List (MockLabel F)}
    (h : MockRun env (Undisturbed env) (mockInit flags) es s) : Directed s ∧ FlagsOk flags s := by
  induction h with
  | nil => exact ⟨directed_init flags, fun t => ⟨rfl, trivial⟩⟩
  | snoc hrun hok hstep ih =>
    have hcase := mockStep_cases hstep
    exact ⟨ih.1.step hok hcase, ih.2.step hcase⟩

/-- A run that does not configure `f` for `t`. -/
theorem Tracked.run {es : List (MockLabel F)} (h : Tracked s f t n o 0) (hdir : Directed s)
    (hrun : MockRun env (fun s u e => Undisturbed env s u e ∧ ¬ Configures s u e f t) s es s') :
    Directed s' ∧ Tracked s' f t n o (enabledCalls f t es) := by
  induction hrun with
  | nil => exact ⟨hdir, h⟩
  | @snoc es s₁ s₂ u e r hrun hok hstep ih =>
    have hcase := mockStep_cases hstep
    refine ⟨ih.1.step hok.1 hcase, ?_⟩
    rw [enabledCalls_append]
    exact ih.2.step ih.1 hok.2 hcase

/-! ### The next calls -/

/-- The next call of `f` by `t` performs the action `o`, if it is one for `f`. -/
def PerformsNext (env : MockEnv F) (s : MockState F) (t : ℕ) (f : F) (o : Opdata) : Prop :=
  ∃ o', o'.action = o.action ∧ (mockStep env s t (.call f)).map Prod.fst =
    (mockSwitch (env.kind f) (env.nparams f) o').map .performed

/-- The next call of `f` by `t` calls the real function. -/
def RealNext (env : MockEnv F) (s : MockState F) (t : ℕ) (f : F) : Prop :=
  (mockStep env s t (.call f)).map Prod.fst = some .real

/-- The steps of one thread, without others. -/
def mockSteps (env : MockEnv F) (t : ℕ) : List (MockEvent F) → MockState F → Option (MockState F)
  | [], s => some s
  | e :: es, s => (mockStep env s t e).bind fun r => mockSteps env t es r.2

attribute [grind =] mockSteps

/-- `WHEN_CALLED(f).SHOULD_N_TIMES(n, o)`, for `k` threads. -/
def mockStatement (f : F) (o : Opdata) (n : ℤ) (k : ℕ) : List (MockEvent F) :=
  .whenCalled f :: (List.replicate k [.action o, .should n]).flatten

/-- The statement configures `f` for the threads `P` and changes nothing else. -/
def ConfiguresFor (env : MockEnv F) (s : MockState F) (t : ℕ) (f : F) (o : Opdata) (n : ℤ) (k : ℕ)
    (P : ℕ → Prop) : Prop :=
  ∃ s', mockSteps env t (mockStatement f o n k) s = some s' ∧ (∀ u, P u → s'.ctx f u = ⟨n, o⟩) ∧
    (∀ g u, (g ≠ f ∨ ¬ P u) → s'.ctx g u = s.ctx g u) ∧ s'.forceDisable = s.forceDisable ∧
    s'.globalContext = s.globalContext ∧ s'.frames = s.frames

theorem ConfiguresFor.congr {k : ℕ} {P Q : ℕ → Prop} (h : ConfiguresFor env s t f o n k P)
    (hPQ : ∀ u, Q u ↔ P u) : ConfiguresFor env s t f o n k Q := by
  obtain ⟨s', hrun, hset, hother, hrest⟩ := h
  refine ⟨s', hrun, fun u hu => hset u ((hPQ u).mp hu), fun g u hgu => hother g u ?_, hrest⟩
  rwa [← hPQ u]

/-- What the macros promise, of the runs whose steps satisfy `ok`. -/
structure MocksObey (env : MockEnv F) (ok : MockState F → ℕ → MockEvent F → Prop) : Prop where
  /-- When `f` has been configured for `t`, the next `n` enabled calls perform the
  action, and the others call the real function. -/
  counted : ∀ flags es s, MockRun env ok (mockInit flags) es s →
    ∀ u f t tidmax o rest n r s₁, s.frames u = .counting f t tidmax o :: rest →
      ok s u (.should n) → mockStep env s u (.should n) = some (r, s₁) →
    ∀ es' s₂, MockRun env (fun s u e => ok s u e ∧ ¬ Configures s u e f t) s₁ es' s₂ →
      if s₂.enabled t = true ∧ (n = mockInfinite ∨ (enabledCalls f t es' : ℤ) < n) then
        PerformsNext env s₂ t f o
      else RealNext env s₂ t f
  /-- A call while the mocks are disabled consumes nothing. -/
  disabled : ∀ s t f, s.enabled t = false →
    ∃ s', mockStep env s t (.call f) = some (.real, s') ∧ s'.ctx = s.ctx
  /-- Inside of a real function, the mocks are disabled unless a block enables them. -/
  inside : ∀ flags es s, MockRun env ok (mockInit flags) es s →
    ∀ t pre g saved rest, s.frames t = pre ++ .real g saved :: rest →
      (∀ saved, .block false saved ∉ pre) → s.enabled t = false
  /-- Other threads change nothing, but for a configuration in the global context. -/
  others : ∀ flags es s, MockRun env ok (mockInit flags) es s →
    ∀ u e r s' t, ok s u e → mockStep env s u e = some (r, s') → u ≠ t →
      (∀ f, ¬ Configures s u e f t) → (∀ f, s'.ctx f t = s.ctx f t) ∧ s'.enabled t = s.enabled t
  locally : ∀ s t f o n, s.globalContext = false → (0 ≤ n ∨ n = mockInfinite) →
    ok s t (.should n) → ConfiguresFor env s t f o n 1 fun u => u = t
  globally : ∀ s t f o n, s.globalContext = true → (0 ≤ n ∨ n = mockInfinite) →
    ok s t (.should n) → ConfiguresFor env s t f o n env.jobs fun u => u < env.jobs

theorem Tracked.next {k : ℕ} (h : Tracked s f t n o k) :
    if s.enabled t = true ∧ (n = mockInfinite ∨ (k : ℤ) < n) then PerformsNext env s t f o
    else RealNext env s t f := by
  have hleft := h.invocations
  have hinv : (s.ctx f t).invocations ≠ 0 ↔ n = mockInfinite ∨ (k : ℤ) < n := by
    by_cases hinf : n = mockInfinite
    · rw [if_pos hinf] at hleft
      rw [hleft]
      exact iff_of_true (by decide) (.inl hinf)
    · rw [if_neg hinf] at hleft
      rw [or_iff_right hinf]
      omega
  split_ifs with hc
  · refine ⟨_, h.action, ?_⟩
    rw [mockStep, mockCall, if_pos ⟨hc.1, hinv.mpr hc.2⟩, Option.map_map]
    rfl
  · rw [RealNext, mockStep, mockCall, if_neg fun h => hc ⟨h.1, hinv.mp h.2⟩]
    rfl

theorem mockStep_action {tidmax : ℕ} {rest : List (MockFrame F)}
    (hL : s.frames t = .configuring f tid tidmax :: rest) (hinfo : s.mockinfos tid = some f) :
    mockStep env s t (.action o) = some (.quiet, (s.setCtx f tid ⟨(s.ctx f tid).invocations, o⟩).setFrames t
      (.counting f tid tidmax o :: rest)) := by
  have hset : setMockop s f tid o = some (s.setCtx f tid ⟨(s.ctx f tid).invocations, o⟩) := by
    simp only [setMockop, setCtx_other, hinfo, Option.map_some, setCtx_setCtx, setCtx_self]
  simp only [mockStep, hL, hset, Option.map_some]

theorem mockStep_should (env : MockEnv F) {tidmax : ℕ} {rest : List (MockFrame F)}
    (hn : 0 ≤ n ∨ n = mockInfinite) (hle : n ≤ intMax)
    (hL : s.frames t = .counting f tid tidmax o :: rest) (hinfo : s.mockinfos tid = some f) :
    mockStep env s t (.should n) = some (.quiet,
      let s' := s.setCtx f tid ⟨n, (s.ctx f tid).opdata⟩
      if tid + 1 < tidmax then
        (s'.setInfo (tid + 1) f).setFrames t (.configuring f (tid + 1) tidmax :: rest)
      else s'.setFrames t rest) := by
  have hset : setInvocations s tid n = some (s.setCtx f tid ⟨n, (s.ctx f tid).opdata⟩) := by
    rw [setInvocations, if_pos hn, hinfo, bmod_of_le hn hle]
    rfl
  simp only [mockStep, hL, hset, Option.map_some]

theorem mockSteps_append (es es' : List (MockEvent F)) :
    mockSteps env t (es ++ es') s = (mockSteps env t es s).bind (mockSteps env t es') := by
  induction es generalizing s with
  | nil => rfl
  | cons e es ih =>
    rw [List.cons_append, mockSteps, mockSteps, Option.bind_assoc]
    congr 1
    funext r
    exact ih

/-- One turn of a statement. -/
theorem statement_turn (env : MockEnv F) {tidmax : ℕ} {rest : List (MockFrame F)}
    (hn : 0 ≤ n ∨ n = mockInfinite) (hle : n ≤ intMax)
    (hL : s.frames t = .configuring f tid tidmax :: rest) (hinfo : s.mockinfos tid = some f) :
    ∃ s', mockSteps env t [.action o, .should n] s = some s' ∧
      (∀ g u, s'.ctx g u = if g = f ∧ u = tid then ⟨n, o⟩ else s.ctx g u) ∧
      s'.forceDisable = s.forceDisable ∧ s'.globalContext = s.globalContext ∧
      (tid + 1 < tidmax → s'.mockinfos (tid + 1) = some f ∧
        s'.frames = Function.update s.frames t (.configuring f (tid + 1) tidmax :: rest)) ∧
      (¬ tid + 1 < tidmax → s'.frames = Function.update s.frames t rest) := by
  obtain ⟨s₁, hs₁⟩ : ∃ s₁, s₁ = (s.setCtx f tid ⟨(s.ctx f tid).invocations, o⟩).setFrames t
      (.counting f tid tidmax o :: rest) := ⟨_, rfl⟩
  have hact : mockStep env s t (.action o) = some (.quiet, s₁) := hs₁ ▸ mockStep_action hL hinfo
  have hL₁ : s₁.frames t = .counting f tid tidmax o :: rest := by
    rw [hs₁, setFrames_frames, Function.update_self]
  have hinfo₁ : s₁.mockinfos tid = some f := by
    rw [hs₁]
    exact hinfo
  have hsh := mockStep_should env hn hle hL₁ hinfo₁
  have hctx : ∀ g u, (s₁.setCtx f tid ⟨n, (s₁.ctx f tid).opdata⟩).ctx g u =
      if g = f ∧ u = tid then ⟨n, o⟩ else s.ctx g u := by
    intro g u
    have hop : (s₁.ctx f tid).opdata = o := by
      rw [hs₁, (setFrames_other _).1, setCtx_self]
    rw [setCtx_ctx, hop]
    split_ifs with hgu
    · rfl
    · rw [hs₁, (setFrames_other _).1, setCtx_ctx, if_neg hgu]
  have hframes : ∀ L, Function.update s₁.frames t L = Function.update s.frames t L := by
    intro L
    rw [hs₁, setFrames_frames]
    exact Function.update_idem ..
  have hrun : ∀ s₂, mockStep env s₁ t (.should n) = some (.quiet, s₂) →
      mockSteps env t [.action o, .should n] s = some s₂ := by
    intro s₂ h₂
    rw [mockSteps, hact, Option.bind_some, mockSteps, h₂, Option.bind_some, mockSteps]
  by_cases hlt : tid + 1 < tidmax
  · simp only [if_pos hlt] at hsh
    refine ⟨_, hrun _ hsh, hctx, ?_, ?_, fun _ => ⟨Function.update_self .., hframes _⟩,
      fun h => absurd hlt h⟩
    · rw [hs₁]
      rfl
    · rw [hs₁]
      rfl
  · simp only [if_neg hlt] at hsh
    refine ⟨_, hrun _ hsh, hctx, ?_, ?_, fun h => absurd h hlt, fun _ => hframes _⟩
    · rw [hs₁]
      rfl
    · rw [hs₁]
      rfl

/-- The turns of a statement. -/
theorem statement_turns (env : MockEnv F) {k tidmax : ℕ} {rest : List (MockFrame F)}
    (hn : 0 ≤ n ∨ n = mockInfinite) (hle : n ≤ intMax)
    (hk : tid + (k + 1) = tidmax) (hL : s.frames t = .configuring f tid tidmax :: rest)
    (hinfo : s.mockinfos tid = some f) :
    ∃ s', mockSteps env t (List.replicate (k + 1) [.action o, .should n]).flatten s = some s' ∧
      (∀ g u, s'.ctx g u = if g = f ∧ tid ≤ u ∧ u < tidmax then ⟨n, o⟩ else s.ctx g u) ∧
      s'.forceDisable = s.forceDisable ∧ s'.globalContext = s.globalContext ∧
      s'.frames = Function.update s.frames t rest := by
  induction k generalizing s tid with
  | zero =>
    obtain ⟨s', hrun, hctx, hdis, hglob, -, hlast⟩ := statement_turn env hn hle hL hinfo
    refine ⟨s', hrun, fun g u => ?_, hdis, hglob, hlast (by omega)⟩
    rw [hctx]
    refine if_congr (and_congr_right fun _ => ?_) rfl rfl
    omega
  | succ k ih =>
    obtain ⟨s₁, hrun, hctx, hdis, hglob, hnext, -⟩ := statement_turn env hn hle hL hinfo
    obtain ⟨hinfo₁, hframes₁⟩ := hnext (by omega)
    have hL₁ : s₁.frames t = .configuring f (tid + 1) tidmax :: rest := by
      rw [hframes₁, Function.update_self]
    obtain ⟨s', hrun', hctx', hdis', hglob', hframes'⟩ := ih (by omega) hL₁ hinfo₁
    refine ⟨s', ?_, fun g u => ?_, hdis'.trans hdis, hglob'.trans hglob, ?_⟩
    · rw [List.replicate_succ, List.flatten_cons, mockSteps_append, hrun, Option.bind_some, hrun']
    · rw [hctx', hctx]
      by_cases hu : g = f ∧ tid + 1 ≤ u ∧ u < tidmax
      · rw [if_pos hu, if_pos ⟨hu.1, by omega⟩]
      · rw [if_neg hu]
        refine if_congr ⟨?_, ?_⟩ rfl rfl
        · rintro ⟨rfl, rfl⟩
          exact ⟨rfl, by omega⟩
        · rintro ⟨rfl, hle, hlt⟩
          refine ⟨rfl, ?_⟩
          by_contra hne
          exact hu ⟨rfl, by omega, hlt⟩
    · rw [hframes', hframes₁]
      exact Function.update_idem ..

/-- A statement that is executed at once. -/
theorem statement_spec (env : MockEnv F) (s : MockState F) (t : ℕ) (f : F) (o : Opdata)
    (hn : 0 ≤ n ∨ n = mockInfinite) (hle : n ≤ intMax) {k : ℕ}
    (hk : s.lowerBound t + k = s.upperBound env t) :
    ConfiguresFor env s t f o n k fun u => s.lowerBound t ≤ u ∧ u < s.upperBound env t := by
  rcases k with _ | k
  · have hnone : ¬ s.lowerBound t < s.upperBound env t := by omega
    refine ⟨s, ?_, fun u hu => absurd hu (by omega), fun _ _ _ => rfl, rfl, rfl, rfl⟩
    show (mockStep env s t (.whenCalled f)).bind _ = _
    simp only [mockStep, whenCalled, if_neg hnone]
    rfl
  · have hlt : s.lowerBound t < s.upperBound env t := by omega
    obtain ⟨s₁, hs₁⟩ : ∃ s₁, s₁ = (s.setInfo (s.lowerBound t) f).setFrames t
        (.configuring f (s.lowerBound t) (s.upperBound env t) :: s.frames t) := ⟨_, rfl⟩
    have hL : s₁.frames t = .configuring f (s.lowerBound t) (s.upperBound env t) :: s.frames t := by
      rw [hs₁, setFrames_frames, Function.update_self]
    have hinfo : s₁.mockinfos (s.lowerBound t) = some f := by
      rw [hs₁]
      exact Function.update_self ..
    obtain ⟨s', hrun, hctx, hdis, hglob, hframes⟩ := statement_turns (o := o) env hn hle hk hL hinfo
    refine ⟨s', ?_, fun u hu => ?_, fun g u hgu => ?_, ?_, ?_, ?_⟩
    · show (mockStep env s t (.whenCalled f)).bind _ = _
      simp only [mockStep, whenCalled, if_pos hlt, Option.bind_some]
      rw [← hs₁]
      exact hrun
    · rw [hctx, if_pos ⟨rfl, hu⟩]
    · rw [hctx, if_neg, hs₁]
      · rfl
      · rintro ⟨rfl, hu⟩
        rcases hgu with hne | hno
        · exact hne rfl
        · exact hno hu
    · rw [hdis, hs₁]
      rfl
    · rw [hglob, hs₁]
      rfl
    · rw [hframes, hs₁, setFrames_frames, Function.update_idem]
      exact Function.update_eq_self ..

/-- In a run in which no statement is disturbed, the mocks do what was configured. -/
theorem mocks_obey (env : MockEnv F) : MocksObey env (Undisturbed env) where
  counted := by
    intro flags es s hrun u f t tidmax o rest n r s₁ hL hok hstep es' s₂ hrun'
    have hdir := hrun.inv.1
    have hcase := mockStep_cases hstep
    obtain ⟨-, -, hact⟩ := hdir.top hL
    obtain ⟨hn, hctx⟩ := hcase.configured hdir hL
    have htracked : Tracked s₁ f t n o 0 := by
      refine ⟨by rw [hctx, hact], ?_⟩
      rw [hctx]
      show n.bmod (2 ^ 32) = _
      rw [bmod_of_le hn hok]
      split_ifs with hinf
      · exact hinf
      · rcases hn with hn | hn
        · show n = max 0 (n - (0 : ℕ))
          omega
        · exact absurd hn hinf
    exact (htracked.run (hdir.step hok hcase) hrun').2.next
  disabled := by
    intro s t f hdis
    refine ⟨(s.setDisable t true).setFrames t (.real f (s.forceDisable t) :: s.frames t), ?_, rfl⟩
    rw [mockStep, mockCall, if_neg]
    rintro ⟨hen, -⟩
    rw [hdis] at hen
    exact absurd hen (by simp)
  inside := by
    intro flags es s hrun t pre g saved rest hL hpre
    have hflag := (hrun.inv.2 t).1
    rw [hL, flagOf_real hpre] at hflag
    rw [MockState.enabled, hflag]
    rfl
  others := by
    intro flags es s hrun u e r s' t hok hstep hne hconf
    have hcase := mockStep_cases hstep
    exact ⟨fun f => hcase.ctx_eq hrun.inv.1 (hconf f) fun o _ h => hne h.1, hcase.enabled_eq hne.symm⟩
  locally := by
    intro s t f o n hglob hn hle
    have hlow : s.lowerBound t = t := by simp [MockState.lowerBound, hglob]
    have hup : s.upperBound env t = t + 1 := by simp [MockState.upperBound, hglob]
    have hk : s.lowerBound t + 1 = s.upperBound env t := by rw [hlow, hup]
    refine (statement_spec env s t f o hn hle hk).congr fun u => ?_
    rw [hlow, hup]
    omega
  globally := by
    intro s t f o n hglob hn hle
    have hlow : s.lowerBound t = 0 := by simp [MockState.lowerBound, hglob]
    have hup : s.upperBound env t = env.jobs := by simp [MockState.upperBound, hglob]
    have hk : s.lowerBound t + env.jobs = s.upperBound env t := by rw [hlow, hup, Nat.zero_add]
    refine (statement_spec env s t f o hn hle hk).congr fun u => ?_
    rw [hlow, hup]
    omega

/-! ### A statement inside of another one -/

/-- The steps of one thread are a run. -/
theorem MockRun.steps {es : List (MockLabel F)} {evs : List (MockEvent F)}
    (hrun : MockRun env (fun _ _ _ => True) s es s₁) (h : mockSteps env t evs s₁ = some s₂) :
    ∃ es', MockRun env (fun _ _ _ => True) s es' s₂ := by
  induction evs generalizing es s₁ with
  | nil =>
    cases h
    exact ⟨es, hrun⟩
  | cons e evs ih =>
    obtain ⟨⟨r, s₃⟩, hstep, hrest⟩ := Option.bind_eq_some_iff.mp h
    exact ih (hrun.snoc trivial hstep) hrest

/-- Two functions without parameters, `f` (false) and `h` (true). -/
def misdirectedEnv : MockEnv Bool where
  jobs := 1
  kind := fun _ => .functionNullary
  nparams := fun _ => 0

/-- The action `RETURN(val)`. -/
def returnOp (val : UInt8) : Opdata := ⟨.performReturn, .retval [val]⟩

/-- `WHEN_CALLED(f).SHOULD_N_TIMES(2, RETURN(g()))` up to its number, where `g`
executes `WHEN_CALLED(h).SHOULD_ONCE(RETURN(1))` and returns 5. -/
def misdirectedEvents : List (MockEvent Bool) :=
  [.whenCalled false, .whenCalled true, .action (returnOp 1), .should 1, .action (returnOp 5)]

/-- The number goes to `h`, and the next call of `f` calls the real function. -/
theorem mocks_misdirected : ¬ MocksObey misdirectedEnv fun _ _ _ => True := by
  intro hobey
  obtain ⟨s, hs, hL, s₁, hstep, hen, hreal⟩ : ∃ s,
      mockSteps misdirectedEnv 0 misdirectedEvents (mockInit fun _ => false) = some s ∧
      s.frames 0 = [.counting false 0 1 (returnOp 5)] ∧ ∃ s₁,
      mockStep misdirectedEnv s 0 (.should 2) = some (.quiet, s₁) ∧ s₁.enabled 0 = true ∧
      (mockStep misdirectedEnv s₁ 0 (.call false)).map Prod.fst = some .real :=
    ⟨_, rfl, rfl, _, rfl, rfl, rfl⟩
  obtain ⟨es, hrun⟩ := MockRun.nil.steps hs
  have hnext := hobey.counted (fun _ => false) es s hrun 0 false 0 1 (returnOp 5) [] 2 .quiet s₁ hL
    trivial hstep [] s₁ .nil
  rw [if_pos ⟨hen, .inr (by decide)⟩] at hnext
  obtain ⟨o', -, hperf⟩ := hnext
  rw [hreal] at hperf
  obtain ⟨o, -, ho⟩ := Option.map_eq_some_iff.mp hperf.symm
  cases ho

end Cldm
