/-
The stack of jump buffers (`cldm_jmpstack.c`).

The storage is an array inside the structure until 32 elements are on the stack, and a
heap block from then on; the array and the pointer to the block share a union.  Which of
the two is in use is decided by the capacity everywhere but in `cldm_jmpstack_free`,
which asks for the size.

A state `JmpState` is a stack with the heap it allocates from.  `JmpRep s L` says that
`s` holds the elements `L`, the topmost first, and `JmpRun` is a run of calls on a stack
made by `cldm_jmpstack_init`.
-/
import Cldm.BlockHeap
import Cldm.FuelLoop

namespace Cldm

open Prog BlockHeap

/-- `struct cldm_jmpstack`.  The union is 32 words; `stat[i]` is word `i`. -/
structure Jmpstack where
  un : ℕ → ℕ
  size : ℕ
  capacity : ℕ

/-- `s_un.dyn`, which lies on the first word of the union. -/
def Jmpstack.dyn (stack : Jmpstack) : ℕ := stack.un 0

/-- A stack, with the heap. -/
structure JmpState where
  stack : Jmpstack
  heap : Heap

/-- `cldm_arrsize(s_un.stat)`. -/
abbrev jmpstackStaticSize : ℕ := 32

/-- `cldm_jmpstack_init()`. -/
def jmpstackInit : Jmpstack where
  un := fun _ => 0
  size := 0
  capacity := jmpstackStaticSize

/-- Where the elements lie. -/
inductive JmpStorage
  | stat
  | dyn (p : ℕ)

/-- `cldm_jmpstack_storage`. -/
def jmpstackStorage (stack : Jmpstack) : JmpStorage :=
  if jmpstackStaticSize < stack.capacity then .dyn stack.dyn else .stat

/-- Read `cldm_jmpstack_storage(stack)[i]`. -/
def jmpstackLoad (s : JmpState) (i : ℕ) : Option ℕ :=
  match jmpstackStorage s.stack with
  | .stat => if i < jmpstackStaticSize then some (s.stack.un i) else none
  | .dyn p => s.heap.load p i

/-- Write `cldm_jmpstack_storage(stack)[i]`. -/
def jmpstackStore (s : JmpState) (i x : ℕ) : Option JmpState :=
  match jmpstackStorage s.stack with
  | .stat =>
    if i < jmpstackStaticSize then
      some { s with stack := { s.stack with un := Function.update s.stack.un i x } }
    else none
  | .dyn p => (s.heap.store p i x).map fun h => { s with heap := h }

/-- An operation on the heap. -/
def onHeap {β : Type} (f : Heap → Option (β × Heap)) : Prog JmpState β :=
  fun s => (f s.heap).map fun r => (r.1, { s with heap := r.2 })

/-- The number of bytes a push asks for when the stack is full. -/
def jmpstackRequest (stack : Jmpstack) : ℕ := stack.capacity * 2 % 2 ^ 64 * 8 % 2 ^ 64

/-- `stack->s_un.dyn = buf; stack->capacity <<= 1u`. -/
def Jmpstack.adopt (stack : Jmpstack) (buf : ℕ) : Jmpstack where
  un := Function.update stack.un 0 buf
  size := stack.size
  capacity := stack.capacity * 2 % 2 ^ 64

/-- Go over to the block `buf`. -/
def jmpstackAdopt (buf : ℕ) : Prog JmpState Unit :=
  fun s => some ((), { s with stack := s.stack.adopt buf })

/-- The branch of `cldm_jmpstack_push` that enlarges a full stack; false if the memory
cannot be had. -/
def jmpstackGrow (ans : Answer) : Prog JmpState Bool := do
  let s ← get
  if s.stack.capacity = jmpstackStaticSize then
    let buf ← onHeap fun h => some (h.malloc ans (jmpstackRequest s.stack))
    if buf = 0 then
      return false
    else
      onHeap fun h =>
        (h.copyIn buf ((List.range jmpstackStaticSize).map s.stack.un)).map fun h => ((), h)
      jmpstackAdopt buf
      return true
  else
    let buf ← onHeap fun h => h.realloc ans s.stack.dyn (jmpstackRequest s.stack)
    if buf = 0 then
      onHeap fun h => (h.free s.stack.dyn).map fun h => ((), h)
      return false
    else
      jmpstackAdopt buf
      return true

/-- `cldm_jmpstack_storage(stack)[stack->size++] = jmpbuf`. -/
def jmpstackAppend (jmpbuf : ℕ) : Prog JmpState Unit := fun s =>
  (jmpstackStore s s.stack.size jmpbuf).map fun s' =>
    ((), { s' with stack := { s'.stack with size := (s.stack.size + 1) % 2 ^ 64 } })

/-- `cldm_jmpstack_push`; `ans` is the answer of the allocator, where it is asked. -/
def jmpstackPush (ans : Answer) (jmpbuf : ℕ) : Prog JmpState Bool := do
  let s ← get
  let ok ← if s.stack.size = s.stack.capacity then jmpstackGrow ans else pure true
  if ok then
    jmpstackAppend jmpbuf
    return true
  else
    return false

/-- `stack->size - 1`, which wraps around. -/
def jmpstackLast (stack : Jmpstack) : ℕ :=
  if stack.size = 0 then 2 ^ 64 - 1 else stack.size - 1

/-- `cldm_jmpstack_top`. -/
def jmpstackTop (s : JmpState) : Option ℕ := jmpstackLoad s (jmpstackLast s.stack)

/-- `cldm_jmpstack_pop`. -/
def jmpstackPop (s : JmpState) : JmpState :=
  { s with stack := { s.stack with size := jmpstackLast s.stack } }

/-- `cldm_jmpstack_free`. -/
def jmpstackFree (s : JmpState) : Option JmpState :=
  if jmpstackStaticSize < s.stack.size then
    (s.heap.free s.stack.dyn).map fun h => { s with heap := h }
  else some s

/-! ### The storage in use -/

/-- The heap block in use. -/
def Jmpstack.block (stack : Jmpstack) : Option ℕ :=
  if jmpstackStaticSize < stack.capacity then some stack.dyn else none

/-- The words of the storage in use. -/
def JmpState.words (s : JmpState) : Option (List ℕ) :=
  match s.stack.block with
  | none => some ((List.range jmpstackStaticSize).map s.stack.un)
  | some p => s.heap.blocks p

variable {s s' : JmpState} {ws : List ℕ} {i x p : ℕ}

theorem block_of_stat (h : s.stack.capacity = jmpstackStaticSize) : s.stack.block = none :=
  if_neg (by omega)

theorem block_of_dyn (h : jmpstackStaticSize < s.stack.capacity) :
    s.stack.block = some s.stack.dyn := if_pos h

theorem words_of_stat (h : s.stack.capacity = jmpstackStaticSize) :
    s.words = some ((List.range jmpstackStaticSize).map s.stack.un) := by
  rw [JmpState.words, block_of_stat h]

theorem words_of_dyn (h : jmpstackStaticSize < s.stack.capacity) :
    s.words = s.heap.blocks s.stack.dyn := by
  rw [JmpState.words, block_of_dyn h]

/-- A read sees the words of the storage in use. -/
theorem jmpstackLoad_eq (s : JmpState) (i : ℕ) :
    jmpstackLoad s i = s.words.bind fun ws => ws[i]? := by
  rw [jmpstackLoad, jmpstackStorage, JmpState.words, Jmpstack.block]
  by_cases hcap : jmpstackStaticSize < s.stack.capacity
  · rw [if_pos hcap, if_pos hcap]
    rfl
  · rw [if_neg hcap, if_neg hcap]
    show (if i < jmpstackStaticSize then some (s.stack.un i) else none) =
      ((List.range jmpstackStaticSize).map s.stack.un)[i]?
    rw [List.getElem?_map]
    by_cases hi : i < jmpstackStaticSize
    · rw [if_pos hi, List.getElem?_range hi, Option.map_some]
    · rw [if_neg hi, List.getElem?_eq_none (by rw [List.length_range]; omega), Option.map_none]

/-- Nothing can be read from a block that is gone. -/
theorem jmpstackLoad_none (hcap : jmpstackStaticSize < s.stack.capacity)
    (hp : s.heap.blocks s.stack.dyn = none) (i : ℕ) : jmpstackLoad s i = none := by
  rw [jmpstackLoad_eq, words_of_dyn hcap, hp, Option.bind_none]

/-- Storing a word with an index inside the storage. -/
theorem jmpstackStore_eq (hw : s.words = some ws) (hlen : ws.length = s.stack.capacity)
    (hcap : jmpstackStaticSize ≤ s.stack.capacity) (hi : i < s.stack.capacity) :
    ∃ s', jmpstackStore s i x = some s' ∧ s'.words = some (ws.set i x) ∧
      s'.stack.size = s.stack.size ∧ s'.stack.capacity = s.stack.capacity ∧
      s'.stack.block = s.stack.block ∧
      s'.heap.obtained = s.heap.obtained ∧ s'.heap.released = s.heap.released ∧
      (s.stack.capacity = jmpstackStaticSize → s'.heap = s.heap) := by
  rcases Nat.eq_or_lt_of_le hcap with hstat | hdyn
  · have hst : jmpstackStorage s.stack = .stat := if_neg (by omega)
    rw [words_of_stat hstat.symm] at hw
    refine ⟨{ s with stack := { s.stack with un := Function.update s.stack.un i x } }, ?_, ?_,
      rfl, rfl, ?_, rfl, rfl, fun _ => rfl⟩
    · simp only [jmpstackStore, hst]
      exact if_pos (by omega)
    · refine Eq.trans (words_of_stat hstat.symm) (congrArg some (List.ext_getElem? fun j => ?_))
      rw [← Option.some.inj hw]
      rw [List.getElem?_map, List.getElem?_set, List.getElem?_map]
      by_cases hj : j < jmpstackStaticSize
      · rw [List.getElem?_range hj, Option.map_some, Option.map_some]
        by_cases hji : i = j
        · subst hji
          rw [if_pos rfl, if_pos (by simpa using hj)]
          exact congrArg some (Function.update_self ..)
        · rw [if_neg hji]
          exact congrArg some (Function.update_of_ne (Ne.symm hji) ..)
      · have hrange : (List.range jmpstackStaticSize)[j]? = none :=
          List.getElem?_eq_none (by rw [List.length_range]; omega)
        rw [hrange, if_neg (by omega)]
        rfl
    · rw [block_of_stat hstat.symm]
      exact block_of_stat (s := { s with stack := { s.stack with un := _ } }) hstat.symm
  · have hst : jmpstackStorage s.stack = .dyn s.stack.dyn := if_pos hdyn
    rw [words_of_dyn hdyn] at hw
    refine ⟨{ s with heap := { s.heap with
      blocks := Function.update s.heap.blocks s.stack.dyn (some (ws.set i x)) } }, ?_, ?_,
      rfl, rfl, rfl, rfl, rfl, fun h => absurd h (by omega)⟩
    · simp only [jmpstackStore, hst]
      rw [store_eq hw (by omega)]
      rfl
    · exact Eq.trans (words_of_dyn hdyn) (Function.update_self ..)

/-! ### The elements -/

/-- The stack holds `L`, the topmost element first. -/
structure JmpRep (s : JmpState) (L : List ℕ) : Prop where
  size : s.stack.size = L.length
  le : s.stack.size ≤ s.stack.capacity
  static : jmpstackStaticSize ≤ s.stack.capacity
  lt : s.stack.capacity < 2 ^ 60
  words : ∃ ws, s.words = some ws ∧ ws.length = s.stack.capacity ∧
    ws.take L.length = L.reverse

variable {L : List ℕ}

theorem JmpRep.init (h : Heap) : JmpRep { stack := jmpstackInit, heap := h } [] := by
  have hlt : jmpstackStaticSize < 2 ^ 60 := by decide
  refine ⟨rfl, Nat.zero_le _, Nat.le_refl _, hlt, _, words_of_stat rfl, ?_, List.take_zero⟩
  rw [List.length_map, List.length_range]
  rfl

/-- Reading the elements, counted from the bottom. -/
theorem JmpRep.load (h : JmpRep s L) (hi : i < L.length) :
    jmpstackLoad s i = L.reverse[i]? := by
  obtain ⟨ws, hw, -, htake⟩ := h.words
  rw [jmpstackLoad_eq, hw, Option.bind_some, ← htake, List.getElem?_take_of_lt hi]

theorem JmpRep.last (h : JmpRep s (x :: L)) : jmpstackLast s.stack = L.length := by
  have hsize : s.stack.size = L.length + 1 := by rw [h.size, List.length_cons]
  rw [jmpstackLast, if_neg (by omega)]
  omega

/-- `cldm_jmpstack_top` returns the topmost element. -/
theorem JmpRep.top (h : JmpRep s (x :: L)) : jmpstackTop s = some x := by
  rw [jmpstackTop, h.last, h.load (by simp)]
  simp

/-- `cldm_jmpstack_pop` takes off the topmost element. -/
theorem JmpRep.pop (h : JmpRep s (x :: L)) : JmpRep (jmpstackPop s) L where
  size := by
    show jmpstackLast s.stack = L.length
    exact h.last
  le := by
    show jmpstackLast s.stack ≤ s.stack.capacity
    have hsize : s.stack.size = L.length + 1 := by rw [h.size, List.length_cons]
    have hle := h.le
    rw [h.last]
    omega
  static := h.static
  lt := h.lt
  words := by
    obtain ⟨ws, hw, hlen, htake⟩ := h.words
    refine ⟨ws, hw, hlen, ?_⟩
    rw [List.length_cons, List.reverse_cons] at htake
    calc ws.take L.length
      _ = (ws.take (L.length + 1)).take L.length := by
        rw [List.take_take, Nat.min_eq_left (Nat.le_succ _)]
      _ = L.reverse := by
        rw [htake, List.take_left' List.length_reverse]

/-- Where there is room, the element is stored above the others. -/
theorem JmpRep.append (h : JmpRep s L) (hroom : s.stack.size < s.stack.capacity) (x : ℕ) :
    ∃ s', jmpstackAppend x s = some ((), s') ∧ JmpRep s' (x :: L) ∧
      s'.stack.capacity = s.stack.capacity ∧ s'.stack.block = s.stack.block ∧
      s'.heap.obtained = s.heap.obtained ∧ s'.heap.released = s.heap.released ∧
      (s.stack.capacity = jmpstackStaticSize → s'.heap = s.heap) := by
  obtain ⟨ws, hw, hlen, htake⟩ := h.words
  obtain ⟨s', hs', hw', hsize', hcap', hblock', hobt', hrel', hheap'⟩ :=
    jmpstackStore_eq (x := x) hw hlen h.static hroom
  have hsize : (s.stack.size + 1) % 2 ^ 64 = L.length + 1 := by
    have hlt := h.lt
    rw [h.size] at *
    omega
  refine ⟨{ s' with stack := { s'.stack with size := (s.stack.size + 1) % 2 ^ 64 } }, ?_,
    ⟨hsize, ?_, ?_, ?_, ws.set s.stack.size x, ?_, ?_, ?_⟩, hcap', hblock', hobt', hrel', hheap'⟩
  · rw [jmpstackAppend, hs']
    rfl
  · show (s.stack.size + 1) % 2 ^ 64 ≤ s'.stack.capacity
    rw [hsize, hcap', ← h.size]
    exact hroom
  · exact hcap' ▸ h.static
  · exact hcap' ▸ h.lt
  · exact hw'
  · rw [List.length_set, hlen]
    exact hcap'.symm
  · rw [h.size] at hroom ⊢
    rw [List.length_cons, List.reverse_cons, List.take_add_one, List.take_set_of_le (Nat.le_refl _),
      htake, List.getElem?_set_self (by omega)]
    rfl

/-! ### Enlarging the storage -/

/-- The allocator keeps its promises when a push asks it. -/
def JmpAnswerOk (s : JmpState) (ans : Answer) : Prop :=
  AnswerOk s.heap s.stack.block (jmpstackRequest s.stack) ans

/-- The answer is not null, or the storage is the array. -/
def NoReallocFails (s : JmpState) (ans : Answer) : Prop :=
  s.stack.size = s.stack.capacity → ans = none → s.stack.capacity = jmpstackStaticSize

theorem jmpstackRequest_eq (h : JmpRep s L) : jmpstackRequest s.stack = s.stack.capacity * 16 := by
  have hlt := h.lt
  rw [jmpstackRequest]
  omega

@[simp] theorem adopt_dyn (stack : Jmpstack) (p : ℕ) : (stack.adopt p).dyn = p := by
  show Function.update stack.un 0 p 0 = p
  exact Function.update_self ..

theorem onHeap_some {β : Type} {f : Heap → Option (β × Heap)} {b : β} {h' : Heap}
    (hf : f s.heap = some (b, h')) : onHeap f s = some (b, { s with heap := h' }) := by
  rw [onHeap, hf]
  rfl

/-- The new block begins with the words of the array. -/
theorem jmpstackGrow_stat (junk : ℕ → ℕ) (hcap : s.stack.capacity = jmpstackStaticSize)
    (hw : s.words = some ws) (hp : p ≠ 0) (hle : ws.length ≤ jmpstackRequest s.stack / 8)
    (hown : Owns s.heap s.stack.block) : ∃ h',
      jmpstackGrow (some (p, junk)) s = some (true, { stack := s.stack.adopt p, heap := h' }) ∧
      h'.blocks p =
        some (ws ++ ((List.range (jmpstackRequest s.stack / 8)).map junk).drop ws.length) ∧
      Owns h' (some p) := by
  rw [words_of_stat hcap] at hw
  rw [block_of_stat hcap] at hown
  set h₁ := (s.heap.malloc (some (p, junk)) (jmpstackRequest s.stack)).2 with hh₁
  have hblock : h₁.blocks p = some ((List.range (jmpstackRequest s.stack / 8)).map junk) :=
    Function.update_self ..
  obtain ⟨h₂, hcopy, hblock₂, hown₂⟩ : ∃ h₂, h₁.copyIn p ws = some h₂ ∧ h₂.blocks p =
      some (ws ++ ((List.range (jmpstackRequest s.stack / 8)).map junk).drop ws.length) ∧
      Owns h₂ (some p) := by
    have hown₁ : Owns h₁ (some p) := hown.malloc
    refine ⟨_, copyIn_eq hblock (by rwa [List.length_map, List.length_range]), ?_, hown₁⟩
    exact Function.update_self ..
  refine ⟨h₂, ?_, hblock₂, hown₂⟩
  · refine bind_get ?_
    rw [if_pos hcap]
    refine bind_some (show _ = some (p, { s with heap := h₁ }) from rfl) ?_
    rw [if_neg hp]
    have hcopy' : (h₁.copyIn p ((List.range jmpstackStaticSize).map s.stack.un)).map
        (fun h => ((), h)) = some ((), h₂) := by
      rw [Option.some.inj hw, hcopy, Option.map_some]
    exact bind_some (onHeap_some hcopy') rfl

/-- The new block begins with the words of the old one. -/
theorem jmpstackGrow_dyn (junk : ℕ → ℕ) (hcap : jmpstackStaticSize < s.stack.capacity)
    (hw : s.words = some ws) (hp : p ≠ 0) (hle : ws.length ≤ jmpstackRequest s.stack / 8)
    (hown : Owns s.heap s.stack.block) : ∃ h',
      jmpstackGrow (some (p, junk)) s = some (true, { stack := s.stack.adopt p, heap := h' }) ∧
      h'.blocks p =
        some (ws ++ ((List.range (jmpstackRequest s.stack / 8)).map junk).drop ws.length) ∧
      Owns h' (some p) := by
  rw [words_of_dyn hcap] at hw
  rw [block_of_dyn hcap] at hown
  have hre : s.heap.realloc (some (p, junk)) s.stack.dyn (jmpstackRequest s.stack) = _ :=
    realloc_eq hw
  refine ⟨_, ?_, ?_, hown.realloc hre⟩
  · refine bind_get ?_
    rw [if_neg (by omega)]
    refine bind_some (onHeap_some hre) ?_
    rw [if_neg hp]
    rfl
  · rw [← realloc_words hle]
    exact Function.update_self ..

/-- A larger storage holds the elements as well. -/
theorem JmpRep.grow {junk : ℕ → ℕ} (h : JmpRep s L)
    (hok : JmpAnswerOk s (some (p, junk))) (hown : Owns s.heap s.stack.block) :
    ∃ s', jmpstackGrow (some (p, junk)) s = some (true, s') ∧ JmpRep s' L ∧
      s'.stack.size = s.stack.size ∧ s'.stack.capacity = s.stack.capacity * 2 ∧
      Owns s'.heap s'.stack.block := by
  obtain ⟨ws, hw, hlen, htake⟩ := h.words
  obtain ⟨hp, hbytes, -⟩ := hok p junk rfl
  have hstatic := h.static
  have h32 : jmpstackStaticSize = 32 := rfl
  have hreq := jmpstackRequest_eq h
  rw [hreq] at hbytes
  have hcap : s.stack.capacity * 2 % 2 ^ 64 = s.stack.capacity * 2 := by omega
  have hwords : jmpstackRequest s.stack / 8 = s.stack.capacity * 2 := by omega
  obtain ⟨h', hgrow, hblock, hown'⟩ := (Nat.eq_or_lt_of_le hstatic).elim
    (fun hstat => jmpstackGrow_stat junk hstat.symm hw hp (by omega) hown)
    (fun hdyn => jmpstackGrow_dyn junk hdyn hw hp (by omega) hown)
  have hdyn' : jmpstackStaticSize < (s.stack.adopt p).capacity := by
    show jmpstackStaticSize < s.stack.capacity * 2 % 2 ^ 64
    omega
  have hwords' : ({ stack := s.stack.adopt p, heap := h' } : JmpState).words =
      some (ws ++ ((List.range (jmpstackRequest s.stack / 8)).map junk).drop ws.length) := by
    refine (words_of_dyn hdyn').trans ?_
    show h'.blocks (s.stack.adopt p).dyn = _
    rw [adopt_dyn, hblock]
  refine ⟨_, hgrow, ⟨h.size, ?_, Nat.le_of_lt hdyn', ?_, _, hwords', ?_, ?_⟩, rfl, hcap, ?_⟩
  · have hle := h.le
    show s.stack.size ≤ s.stack.capacity * 2 % 2 ^ 64
    omega
  · show s.stack.capacity * 2 % 2 ^ 64 < 2 ^ 60
    omega
  · rw [List.length_append, List.length_drop, List.length_map, List.length_range]
    show _ = s.stack.capacity * 2 % 2 ^ 64
    omega
  · rw [List.take_append_of_le_length, htake]
    rw [hlen, ← h.size]
    exact h.le
  · show Owns h' (s.stack.adopt p).block
    rw [Jmpstack.block, if_pos hdyn', adopt_dyn]
    exact hown'

/-- Where the array is full and there is no memory, nothing is changed. -/
theorem jmpstackGrow_null_stat (hcap : s.stack.capacity = jmpstackStaticSize) :
    jmpstackGrow none s = some (false, s) := by
  refine bind_get ?_
  rw [if_pos hcap]
  rfl

/-- Where a block is full and there is no memory, the block is freed. -/
theorem jmpstackGrow_null_dyn (hcap : jmpstackStaticSize < s.stack.capacity)
    (hw : s.words = some ws) : jmpstackGrow none s = some (false, { s with heap :=
      { s.heap with
        blocks := Function.update s.heap.blocks s.stack.dyn none
        released := s.heap.released ++ [s.stack.dyn] } }) := by
  rw [words_of_dyn hcap] at hw
  refine bind_get ?_
  rw [if_neg (by omega)]
  have hre : s.heap.realloc none s.stack.dyn (jmpstackRequest s.stack) = some (0, s.heap) := by
    rw [Heap.realloc, hw]
    rfl
  refine bind_some (onHeap_some hre) ?_
  rw [if_pos rfl]
  refine bind_some (onHeap_some (b := ()) ?_) rfl
  rw [free_eq hw]
  rfl

/-! ### Pushing -/

/-- Where there is room, the allocator is not asked. -/
theorem jmpstackPush_room (hroom : s.stack.size ≠ s.stack.capacity) (ans : Answer)
    (happ : jmpstackAppend x s = some ((), s')) : jmpstackPush ans x s = some (true, s') := by
  refine bind_get ?_
  rw [if_neg hroom]
  exact bind_some (show _ = some (true, s) from rfl) (bind_some happ rfl)

/-- The element is stored in the larger storage. -/
theorem jmpstackPush_grow {s₁ : JmpState} {ans : Answer} (hfull : s.stack.size = s.stack.capacity)
    (hgrow : jmpstackGrow ans s = some (true, s₁)) (happ : jmpstackAppend x s₁ = some ((), s')) :
    jmpstackPush ans x s = some (true, s') := by
  refine bind_get ?_
  rw [if_pos hfull]
  exact bind_some hgrow (bind_some happ rfl)

theorem jmpstackPush_no_room {ans : Answer} (hfull : s.stack.size = s.stack.capacity)
    (hgrow : jmpstackGrow ans s = some (false, s')) : jmpstackPush ans x s = some (false, s') := by
  refine bind_get ?_
  rw [if_pos hfull]
  exact bind_some hgrow rfl

/-- A push adds its element when there is room, or the allocator grants it. -/
theorem JmpRep.push {ans : Answer} (h : JmpRep s L) (hok : JmpAnswerOk s ans)
    (hown : Owns s.heap s.stack.block) (hans : s.stack.size = s.stack.capacity → ans ≠ none)
    (x : ℕ) : ∃ s', jmpstackPush ans x s = some (true, s') ∧ JmpRep s' (x :: L) ∧
      Owns s'.heap s'.stack.block ∧
      (s.stack.size = s.stack.capacity → s'.stack.capacity = s.stack.capacity * 2) ∧
      (s.stack.size ≠ s.stack.capacity → s'.stack.capacity = s.stack.capacity ∧
        (s.stack.capacity = jmpstackStaticSize → s'.heap = s.heap)) := by
  by_cases hfull : s.stack.size = s.stack.capacity
  · obtain ⟨⟨p, junk⟩, rfl⟩ := Option.ne_none_iff_exists'.mp (hans hfull)
    obtain ⟨s₁, hgrow, hrep₁, hsize₁, hcap₁, hown₁⟩ := h.grow hok hown
    have hstatic := h.static
    have h32 : jmpstackStaticSize = 32 := rfl
    obtain ⟨s', happ, hrep', hcap', hblock', hobt', hrel', -⟩ := hrep₁.append (by omega) x
    refine ⟨s', jmpstackPush_grow hfull hgrow happ, hrep', ?_, fun _ => hcap'.trans hcap₁,
      fun hne => absurd hfull hne⟩
    rw [Owns, hobt', hrel', hblock']
    exact hown₁
  · have hle := h.le
    obtain ⟨s', happ, hrep', hcap', hblock', hobt', hrel', hheap'⟩ := h.append (by omega) x
    refine ⟨s', jmpstackPush_room hfull ans happ, hrep', ?_, fun heq => absurd heq hfull,
      fun _ => ⟨hcap', hheap'⟩⟩
    rw [Owns, hobt', hrel', hblock']
    exact hown

end Cldm
