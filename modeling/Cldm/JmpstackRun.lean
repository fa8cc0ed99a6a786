/-
Runs of the stack of jump buffers.

A run calls push, top and pop on a stack made by `cldm_jmpstack_init`, with an allocator
that may fail, and keeps the list of the elements pushed and not yet popped.

* `jmpstack_lifo` — as long as no reallocation fails, the stack is that list;
* `jmpstack_failed_push_loses` — a failed reallocation loses the elements;
* `jmpstack_free_releases` — `cldm_jmpstack_free` releases everything just where the
  storage is the array, or more elements are on the stack than the array holds;
* `jmpstack_free_leaks` — a block that is popped below that size is leaked.
-/
import Cldm.Jmpstack

namespace Cldm

open Prog BlockHeap

/-- A run of calls on a new stack to the elements on the stack, where the allocator
answers the pushes as `ok` allows. -/
inductive JmpRun (ok : JmpState → Answer → Prop) : JmpState → List ℕ → Prop
  | init {h : Heap} : h.obtained = [] → h.released = [] →
      JmpRun ok { stack := jmpstackInit, heap := h } []
  | push {s s' : JmpState} {L : List ℕ} {ans : Answer} {x : ℕ} {b : Bool} : JmpRun ok s L →
      JmpAnswerOk s ans → ok s ans → jmpstackPush ans x s = some (b, s') →
      JmpRun ok s' (if b then x :: L else L)
  | top {s : JmpState} {L : List ℕ} {x y : ℕ} : JmpRun ok s (x :: L) →
      jmpstackTop s = some y → JmpRun ok s (x :: L)
  | pop {s : JmpState} {L : List ℕ} {x : ℕ} : JmpRun ok s (x :: L) → JmpRun ok (jmpstackPop s) L

variable {s s' : JmpState} {L : List ℕ} {ok : JmpState → Answer → Prop} {ans : Answer} {x : ℕ}

/-- In every run in which no reallocation fails, the stack holds its elements, and owns
the block that it uses. -/
theorem JmpRun.rep (hok : ∀ s ans, ok s ans → NoReallocFails s ans) (h : JmpRun ok s L) :
    JmpRep s L ∧ Owns s.heap s.stack.block := by
  induction h with
  | @init h hobt hrel =>
    refine ⟨JmpRep.init h, ?_⟩
    show h.obtained = h.released ++ []
    rw [hobt, hrel, List.append_nil]
  | @push s s' L ans x b _ hans hallowed hpush ih =>
    obtain ⟨hrep, hown⟩ := ih
    by_cases hnull : s.stack.size = s.stack.capacity ∧ ans = none
    · -- the allocation of the first block fails
      obtain ⟨hfull, rfl⟩ := hnull
      have hstat := hok s none hallowed hfull rfl
      have hfail := jmpstackPush_no_room (x := x) hfull (jmpstackGrow_null_stat hstat)
      obtain ⟨rfl, rfl⟩ := Prod.mk.inj (Option.some.inj (hfail.symm.trans hpush))
      exact ⟨hrep, hown⟩
    · obtain ⟨s₁, hpush₁, hrep₁, hown₁, -⟩ :=
        hrep.push hans hown (fun hfull hnone => hnull ⟨hfull, hnone⟩) x
      obtain ⟨rfl, rfl⟩ := Prod.mk.inj (Option.some.inj (hpush₁.symm.trans hpush))
      exact ⟨hrep₁, hown₁⟩
  | top _ _ ih => exact ih
  | pop _ ih => exact ⟨ih.1.pop, ih.2⟩

/-! ### A last-in, first-out list -/

/-- The accessors see the list `L`, the topmost element first. -/
structure JmpReads (s : JmpState) (L : List ℕ) : Prop where
  size : s.stack.size = L.length
  contents : ∀ i < L.length, jmpstackLoad s i = L.reverse[i]?
  top : ∀ x M, L = x :: M → jmpstackTop s = some x

theorem JmpRep.reads (h : JmpRep s L) : JmpReads s L where
  size := h.size
  contents := fun _ hi => h.load hi
  top := by
    rintro x M rfl
    exact h.top

/-- The stack behaves as the list `L` in the next call.  A push may fail, and then
changes nothing, where no reallocation fails. -/
structure Lifo (s : JmpState) (L : List ℕ) : Prop where
  reads : JmpReads s L
  pop : ∀ x M, L = x :: M → JmpReads (jmpstackPop s) M
  push : ∀ ans x, JmpAnswerOk s ans → ∃ b s', jmpstackPush ans x s = some (b, s') ∧
    (b = true → JmpReads s' (x :: L)) ∧ ((b = false → s' = s) ↔ NoReallocFails s ans)

/-- A failed reallocation frees the block with the elements. -/
theorem JmpRep.push_null_dyn (h : JmpRep s L) (hfull : s.stack.size = s.stack.capacity)
    (hdyn : s.stack.capacity ≠ jmpstackStaticSize) (x : ℕ) :
    ∃ s', jmpstackPush none x s = some (false, s') ∧
      s'.heap.released = s.heap.released ++ [s.stack.dyn] ∧ ∀ i, jmpstackLoad s' i = none := by
  obtain ⟨ws, hw, -⟩ := h.words
  have hstatic := h.static
  have hcap : jmpstackStaticSize < s.stack.capacity := by omega
  refine ⟨_, jmpstackPush_no_room hfull (jmpstackGrow_null_dyn hcap hw), rfl, fun i => ?_⟩
  refine jmpstackLoad_none ?_ ?_ i
  · exact hcap
  · exact Function.update_self ..

theorem JmpRep.lifo (h : JmpRep s L) (hown : Owns s.heap s.stack.block) : Lifo s L where
  reads := h.reads
  pop := by
    rintro x M rfl
    exact h.pop.reads
  push := by
    intro ans x hans
    by_cases hnull : s.stack.size = s.stack.capacity ∧ ans = none
    · obtain ⟨hfull, rfl⟩ := hnull
      by_cases hstat : s.stack.capacity = jmpstackStaticSize
      · refine ⟨false, s, jmpstackPush_no_room hfull (jmpstackGrow_null_stat hstat),
          fun hb => absurd hb (by decide), ?_⟩
        exact ⟨fun _ _ _ => hstat, fun _ _ => rfl⟩
      · obtain ⟨s', hpush, hrel, -⟩ := h.push_null_dyn hfull hstat x
        refine ⟨false, s', hpush, fun hb => absurd hb (by decide), fun hsame => ?_,
          fun hno => absurd (hno hfull rfl) hstat⟩
        rw [hsame rfl] at hrel
        exact absurd hrel (by simp)
    · have hasked : s.stack.size = s.stack.capacity → ans ≠ none :=
        fun hfull hnone => hnull ⟨hfull, hnone⟩
      obtain ⟨s', hpush, hrep, -⟩ := h.push hans hown hasked x
      refine ⟨true, s', hpush, fun _ => hrep.reads, fun _ hfull hnone => ?_, ?_⟩
      · exact absurd hnone (hasked hfull)
      · exact fun _ hb => absurd hb (by decide)

/-- In every run in which no reallocation fails, the stack behaves as the list of the
elements pushed and not yet popped. -/
theorem jmpstack_lifo (h : JmpRun NoReallocFails s L) : Lifo s L := by
  obtain ⟨hrep, hown⟩ := h.rep fun _ _ hno => hno
  exact hrep.lifo hown

/-! ### Filling a stack -/

/-- A heap without blocks. -/
def emptyHeap : Heap where
  blocks := fun _ => none
  obtained := []
  released := []

/-- The allocator is asked in vain at no push. -/
def Granted (s : JmpState) (ans : Answer) : Prop := s.stack.size = s.stack.capacity → ans ≠ none

/-- The first block is granted at address 8, and no other request is. -/
def firstBlock (n : ℕ) : Answer := if n = jmpstackStaticSize then some (8, fun _ => 0) else none

/-- A stack can be filled up to twice the size of the array. -/
theorem exists_filled {n : ℕ} (hn : n ≤ 64) (hok : ∀ s ans, Granted s ans → ok s ans) :
    ∃ s L, JmpRun ok s L ∧ L.length = n ∧ JmpRep s L ∧ Owns s.heap s.stack.block ∧
      (n ≤ jmpstackStaticSize → s.stack.capacity = jmpstackStaticSize ∧ s.heap = emptyHeap) ∧
      (jmpstackStaticSize < n → s.stack.capacity = 64) := by
  have h32 : jmpstackStaticSize = 32 := rfl
  induction n with
  | zero =>
    exact ⟨_, [], .init (h := emptyHeap) rfl rfl, rfl, JmpRep.init _, rfl, fun _ => ⟨rfl, rfl⟩,
      fun h => absurd h (by omega)⟩
  | succ n ih =>
    obtain ⟨s, L, hrun, hlen, hrep, hown, hstat, hdyn⟩ := ih (by omega)
    have hsize := hrep.size
    have hans : JmpAnswerOk s (firstBlock s.stack.size) := by
      intro p junk hp
      have hfull : s.stack.size = jmpstackStaticSize := by
        by_contra hne
        rw [firstBlock, if_neg hne] at hp
        cases hp
      obtain ⟨hcap, hheap⟩ := hstat (by omega)
      rw [firstBlock, if_pos hfull] at hp
      obtain ⟨rfl, -⟩ := Prod.mk.inj (Option.some.inj hp)
      rw [jmpstackRequest_eq hrep, hcap, hheap]
      exact ⟨by decide, by decide, .inl rfl⟩
    have hasked : Granted s (firstBlock s.stack.size) := by
      intro hfull
      by_cases hle : n ≤ jmpstackStaticSize
      · rw [hfull, (hstat hle).1, firstBlock, if_pos rfl]
        exact Option.some_ne_none _
      · have hcap := hdyn (by omega)
        omega
    obtain ⟨s', hpush, hrep', hown', hgrown, hkept⟩ := hrep.push hans hown hasked 7
    have hrun' := hrun.push hans (hok s _ hasked) hpush
    refine ⟨s', _, hrun', by rw [if_pos rfl, List.length_cons, hlen], hrep', hown',
      fun hle => ?_, fun hlt => ?_⟩
    · obtain ⟨hcap, hheap⟩ := hstat (by omega)
      obtain ⟨hcap', hheap'⟩ := hkept (by omega)
      exact ⟨hcap'.trans hcap, (hheap' hcap).trans hheap⟩
    · by_cases hle : n ≤ jmpstackStaticSize
      · have hcap := (hstat hle).1
        have := hgrown (by omega)
        omega
      · have hcap := hdyn (by omega)
        rw [(hkept (by omega)).1, hcap]

theorem jmpstack_lifo_filled : ∃ s L, L.length = 64 ∧ Lifo s L := by
  have hok : ∀ s ans, Granted s ans → NoReallocFails s ans :=
    fun _ _ hgranted hfull hnone => absurd hnone (hgranted hfull)
  obtain ⟨s, L, hrun, hlen, -⟩ := exists_filled (Nat.le_refl 64) hok
  exact ⟨s, L, hlen, jmpstack_lifo hrun⟩

/-- The push of the 65th element can fail, and then the elements are lost: the topmost one
cannot be read. -/
theorem jmpstack_failed_push_loses : ∃ s s' x L, JmpRun (fun _ _ => True) s (x :: L) ∧
    jmpstackPush none 7 s = some (false, s') ∧ jmpstackTop s = some x ∧ s' ≠ s ∧
    JmpRun (fun _ _ => True) s' (x :: L) ∧ jmpstackTop s' = none := by
  obtain ⟨s, M, hrun, hlen, hrep, -, -, hdyn⟩ :=
    exists_filled (Nat.le_refl 64) fun _ _ _ => trivial
  obtain ⟨x, L, rfl⟩ := List.exists_cons_of_length_pos (l := M) (by omega)
  have hcap := hdyn (by decide)
  have hne : s.stack.capacity ≠ jmpstackStaticSize := by
    rw [hcap]
    decide
  obtain ⟨s', hpush, hrel, hload⟩ :=
    hrep.push_null_dyn (by rw [hrep.size, hlen, hcap]) hne 7
  refine ⟨s, s', x, L, hrun, hpush, hrep.top, fun hsame => ?_,
    hrun.push (fun _ _ h => absurd h (by simp)) trivial hpush, hload _⟩
  rw [hsame] at hrel
  exact absurd hrel (by simp)

/-! ### Releasing the storage -/

/-- What was obtained is released, each block once, and nothing is while the array is in
use. -/
def Releases (s s' : JmpState) : Prop :=
  s'.heap.released.Perm s'.heap.obtained ∧
    (s.stack.capacity = jmpstackStaticSize → s'.heap = s.heap)

/-- After every run in which all allocations succeed, `cldm_jmpstack_free` releases
everything if and only if the storage is the array, or more elements are on the stack than
the array holds. -/
theorem jmpstack_free_releases (h : JmpRun Granted s L) : ∃ s', jmpstackFree s = some s' ∧
    (Releases s s' ↔
      s.stack.capacity = jmpstackStaticSize ∨ jmpstackStaticSize < s.stack.size) := by
  obtain ⟨hrep, hown⟩ := h.rep fun _ _ hgranted hfull hnone => absurd hnone (hgranted hfull)
  have hle := hrep.le
  have hstatic := hrep.static
  by_cases hsize : jmpstackStaticSize < s.stack.size
  · obtain ⟨ws, hw, -⟩ := hrep.words
    have hcap : jmpstackStaticSize < s.stack.capacity := by omega
    rw [words_of_dyn hcap] at hw
    rw [block_of_dyn hcap] at hown
    obtain ⟨h', hh', hown'⟩ : ∃ h', s.heap.free s.stack.dyn = some h' ∧ Owns h' none :=
      ⟨_, free_eq hw, hown.free (free_eq hw)⟩
    have hfree : jmpstackFree s = some { s with heap := h' } := by
      rw [jmpstackFree, if_pos hsize, hh', Option.map_some]
    refine ⟨_, hfree, fun _ => .inr hsize, fun _ => ⟨?_, fun hstat => absurd hstat (by omega)⟩⟩
    exact hown'.perm_iff.mpr rfl
  · refine ⟨s, if_neg hsize, fun hrel => .inl ?_, fun hor => ⟨?_, fun _ => rfl⟩⟩
    · have hnone := hown.perm_iff.mp hrel.1
      by_contra hne
      rw [block_of_dyn (by omega)] at hnone
      cases hnone
    · have hstat := hor.resolve_right hsize
      exact hown.perm_iff.mpr (block_of_stat hstat)

theorem jmpstack_free_releases_full : ∃ s s' L, L.length = 64 ∧ JmpRun Granted s L ∧
    jmpstackFree s = some s' ∧ Releases s s' := by
  obtain ⟨s, L, hrun, hlen, hrep, -⟩ := exists_filled (Nat.le_refl 64) fun _ _ hgranted => hgranted
  obtain ⟨s', hfree, hiff⟩ := jmpstack_free_releases hrun
  refine ⟨s, s', L, hlen, hrun, hfree, hiff.mpr (.inr ?_)⟩
  rw [hrep.size, hlen]
  decide

/-- When 33 elements have been pushed and one has been popped, the block is not freed. -/
theorem jmpstack_free_leaks : ∃ s s' L, JmpRun Granted s L ∧ L.length = 32 ∧
    jmpstackFree s = some s' ∧ ¬ s'.heap.released.Perm s'.heap.obtained := by
  obtain ⟨s, M, hrun, hlen, hrep, hown, -, hdyn⟩ :=
    exists_filled (show 33 ≤ 64 by decide) fun _ _ hgranted => hgranted
  obtain ⟨x, L, rfl⟩ := List.exists_cons_of_length_pos (l := M) (by omega)
  have hL : L.length = 32 := Nat.succ.inj hlen
  have hcap := hdyn (by decide)
  refine ⟨jmpstackPop s, jmpstackPop s, L, hrun.pop, hL, if_neg ?_, fun hperm => ?_⟩
  · rw [hrep.pop.size, hL]
    decide
  · have hnone := hown.perm_iff.mp hperm
    rw [Jmpstack.block, hcap] at hnone
    cases hnone

end Cldm
