/-
The operands of mocked functions, byte by byte.

The operand of an action lies in the union `un_act` of the context of a mock, where each
action stores a member of its own and leaves the bytes behind it as they were.  The bodies
of the six macros read the members back, and copy with sizes that they take from there,
from the parameters or from the return type.

* `mockPerform` — what a body does for an action;
* `mockPerform_refines` — on these bytes, it performs the action that the typed contexts of
  `Mock` have;
* `counter_counts` — after any history, `INCREMENT_COUNTER` counts up iff the bytes above
  the counter are zero;
* `counter_keeps_upper` — a value that was returned before shows up in the count;
* `mock_copy_fits` — when a copy stays inside both objects;
* `mock_copy_overflows` — a parameter that is larger than the return type.
-/
import Cldm.Bytes
import Cldm.Mock
import Mathlib.Data.List.Induction
import Mathlib.Tactic.IntervalCases

namespace Cldm

open Bytes

/-! ### The union -/

/-- The bytes of `un_act`, by their offset. -/
abbrev UnAct := ℕ → UInt8

/-- The `n` bytes from the offset `off` on. -/
def UnAct.read (u : UnAct) (off n : ℕ) : List UInt8 := (List.range n).map fun i => u (off + i)

/-- The number of `n` bytes at the offset `off`. -/
def UnAct.number (u : UnAct) (off n : ℕ) : ℕ := ofLe (u.read off n)

/-- Store a member of the union. -/
def UnAct.write (u : UnAct) (bs : List UInt8) : UnAct := fun i => bs.getD i (u i)

/-- The bytes of a member, without padding. -/
def memberBytes : MockAct → List UInt8
  | .invoke func => leBytes 8 func
  | .retval val => val
  | .counter n => leBytes 4 n
  | .paramidx idx => leBytes 4 idx
  | .assign lhs rhs size => leBytes 8 lhs ++ leBytes 8 rhs ++ leBytes 4 size
  | .assignParam addr idx dstsize => leBytes 8 addr ++ leBytes 4 idx ++ leBytes 4 dstsize

/-- The size of the padding at the end of a member; that of `struct cldm_assign_opdata` holds
anything after a store. -/
def memberPadding : MockAct → ℕ
  | .assign _ _ _ => 4
  | _ => 0

/-- What storing a member writes. -/
def storedBytes (act : MockAct) (pad : List UInt8) : List UInt8 :=
  memberBytes act ++ pad.take (memberPadding act)

@[simp] theorem UnAct.length_read (u : UnAct) (off n : ℕ) : (u.read off n).length = n := by
  rw [UnAct.read, List.length_map, List.length_range]

theorem UnAct.read_add (u : UnAct) (off n m : ℕ) :
    u.read off (n + m) = u.read off n ++ u.read (off + n) m := by
  rw [UnAct.read, List.range_add, List.map_append, List.map_map]
  simp only [UnAct.read, Function.comp_def, Nat.add_assoc]

theorem UnAct.read_congr {u u' : UnAct} {off n : ℕ} (h : ∀ i < n, u (off + i) = u' (off + i)) :
    u.read off n = u'.read off n :=
  List.map_congr_left fun i hi => h i (List.mem_range.mp hi)

theorem UnAct.write_of_le {u : UnAct} {bs : List UInt8} {i : ℕ} (h : bs.length ≤ i) :
    u.write bs i = u i := by
  rw [UnAct.write, List.getD_eq_getElem?_getD, List.getElem?_eq_none h, Option.getD_none]

theorem UnAct.read_write (u : UnAct) (bs cs : List UInt8) :
    (u.write (bs ++ cs)).read 0 bs.length = bs := by
  refine List.ext_getElem (UnAct.length_read ..) fun i hi hi' => ?_
  simp only [UnAct.read, List.getElem_map, List.getElem_range, UnAct.write, Nat.zero_add]
  rw [List.getD_eq_getElem?_getD, List.getElem?_append_left hi', List.getElem?_eq_getElem hi',
    Option.getD_some]

theorem UnAct.read_eq_zero_iff {u : UnAct} {off n : ℕ} :
    u.read off n = List.replicate n 0 ↔ ∀ i < n, u (off + i) = 0 := by
  rw [List.eq_replicate_iff]
  simp [UnAct.read]

/-- The parts of the bytes that a member consists of. -/
theorem UnAct.read_split {u : UnAct} {off n m : ℕ} {as bs : List UInt8}
    (h : u.read off (n + m) = as ++ bs) (has : as.length = n) :
    u.read off n = as ∧ u.read (off + n) m = bs := by
  rw [UnAct.read_add] at h
  exact List.append_inj h (by rw [UnAct.length_read, has])

/-! ### The bodies -/

/-- The six macros that generate mocks. -/
inductive MockBody
  | returning (kind : MockKind)
  | noreturnNullary
  | noreturnNAry
  deriving DecidableEq

/-- The operations with a case of their own in the `switch` of a body. -/
def MockBody.takes : MockBody → MockOp → Bool
  | .returning kind, op => kind.takes op
  | _, .invoke | _, .performReturn | _, .assign => true
  | .noreturnNAry, .assignParam => true
  | _, _ => false

/-- Whether the body returns a value. -/
def MockBody.returnsValue : MockBody → Bool
  | .returning .functionNullary | .returning .functionVariadic => true
  | _ => false

/-- The signature of a mocked function: `sizeof` of its return type and of its parameters. -/
structure MockSig where
  body : MockBody
  retSize : ℕ
  paramSizes : List ℕ

/-- The addresses of `rv` and of the parameters in one call. -/
structure MockAddrs where
  rv : ℕ
  params : ℕ → ℕ
  rv_lt : rv < 2 ^ 64
  params_lt : ∀ i, params i < 2 ^ 64

/-- The context of a mock for one thread. -/
structure MockBytes where
  invocations : ℤ
  op : MockOp
  unAct : UnAct

/-- What is seen of a call: the real function is called, a function is invoked, a value is
returned, or the bytes of an object are copied. -/
inductive MockEffect
  | real
  | invoked (func : ℕ)
  | returned (rv : List UInt8)
  | copied (dst src n : ℕ)
  | copiedPointee (param n : ℕ)
  deriving DecidableEq

/-- The cases of the `switch` of a body; none where the process exits or faults. -/
def mockCase (sig : MockSig) (addrs : MockAddrs) (u : UnAct) : MockOp → Option (MockEffect × UnAct)
  | .invoke => if u.number 0 8 = 0 then none else some (.invoked (u.number 0 8), u)
  | .performReturn =>
    some (.returned (if sig.body.returnsValue then u.read 0 sig.retSize else []), u)
  | .increment =>
    let u := u.write (leBytes 4 ((u.number 0 4 + 1) % 2 ^ 32))
    some (.returned (u.read 0 sig.retSize), u)
  | .returnParam =>
    sig.paramSizes[u.number 0 4]?.map fun size =>
      -- the sizes of the parameters are kept as `unsigned short`
      (.copied addrs.rv (addrs.params (u.number 0 4)) (size % 2 ^ 16), u)
  | .returnPointee =>
    sig.paramSizes[u.number 0 4]?.map fun _ =>
      (.copiedPointee (addrs.params (u.number 0 4)) sig.retSize, u)
  | .assign => some (.copied (u.number 0 8) (u.number 8 8) (u.number 16 4), u)
  | .assignParam =>
    sig.paramSizes[u.number 8 4]?.map fun _ =>
      (.copied (u.number 0 8) (addrs.params (u.number 8 4)) (u.number 12 4), u)

/-- The `switch` of a body. -/
def mockPerform (sig : MockSig) (addrs : MockAddrs) (op : MockOp) (u : UnAct) :
    Option (MockEffect × UnAct) :=
  if sig.body.takes op then mockCase sig addrs u op else none

/-- A call of the mock. -/
def mockCalled (sig : MockSig) (addrs : MockAddrs) (enabled : Bool) (m : MockBytes) :
    Option (MockEffect × MockBytes) :=
  if enabled = true ∧ m.invocations ≠ 0 then
    (mockPerform sig addrs m.op m.unAct).map fun r =>
      (r.1, ⟨mockDecrement m.invocations, m.op, r.2⟩)
  else
    some (.real, m)

/-- What happens to a context. -/
inductive MockUse
  /-- `WHEN_CALLED(f)` with its action and number; `pad` becomes the padding -/
  | configure (o : Opdata) (n : ℤ) (pad : List UInt8)
  | call (enabled : Bool) (addrs : MockAddrs)

/-- `cldm_set_mockop` and `cldm_should`, which converts the number to `int`, or a call. -/
def mockUse (sig : MockSig) (m : MockBytes) : MockUse → Option MockBytes
  | .configure o n pad =>
    if 0 ≤ n ∨ n = mockInfinite then
      some ⟨n.bmod (2 ^ 32), o.op, m.unAct.write (storedBytes o.unAct pad)⟩
    else none
  | .call enabled addrs => (mockCalled sig addrs enabled m).map Prod.snd

/-- A history of a context. -/
def mockUses (sig : MockSig) (es : List MockUse) (m : MockBytes) : Option MockBytes :=
  es.foldlM (mockUse sig) m

/-- `cldm_mock_populate_ctx_single`. -/
def mockBytesInit : MockBytes := ⟨0, .invoke, fun _ => 0⟩

/-! ### The typed contexts -/

section Typed

variable {sig : MockSig} {addrs : MockAddrs} {m m' : MockBytes} {o o' : Opdata} {u u' : UnAct}
  {e : MockEffect}

/-- The union holds the operand `act`. -/
def HoldsAct (u : UnAct) (act : MockAct) : Prop :=
  u.read 0 (memberBytes act).length = memberBytes act

/-- The numbers of an operand fit into their types. -/
def MockAct.InRange : MockAct → Prop
  | .invoke func => func < 2 ^ 64
  | .retval _ => True
  | .counter n => n < 2 ^ 32
  | .paramidx idx => idx < 2 ^ 32
  | .assign lhs rhs size => lhs < 2 ^ 64 ∧ rhs < 2 ^ 64 ∧ size < 2 ^ 32
  | .assignParam addr idx dstsize => addr < 2 ^ 64 ∧ idx < 2 ^ 32 ∧ dstsize < 2 ^ 32

theorem holdsAct_write (u : UnAct) (act : MockAct) (pad : List UInt8) :
    HoldsAct (u.write (storedBytes act pad)) act := u.read_write ..

theorem number_of_read {off n v : ℕ} (h : u.read off n = leBytes n v) (hv : v < 256 ^ n) :
    u.number off n = v := by
  rw [UnAct.number, h, ofLe_leBytes hv]

theorem HoldsAct.invoke {func : ℕ} (h : HoldsAct u (.invoke func)) (hfunc : func < 2 ^ 64) :
    u.number 0 8 = func := by
  have hread : u.read 0 8 = leBytes 8 func := by simpa only [HoldsAct, memberBytes, length_leBytes] using h
  exact number_of_read hread (by omega)

theorem HoldsAct.counter {n : ℕ} (h : HoldsAct u (.counter n)) (hn : n < 2 ^ 32) :
    u.number 0 4 = n := by
  have hread : u.read 0 4 = leBytes 4 n := by simpa only [HoldsAct, memberBytes, length_leBytes] using h
  exact number_of_read hread (by omega)

theorem HoldsAct.paramidx {idx : ℕ} (h : HoldsAct u (.paramidx idx)) (hidx : idx < 2 ^ 32) :
    u.number 0 4 = idx := HoldsAct.counter (n := idx) h hidx

theorem HoldsAct.assign {lhs rhs size : ℕ} (h : HoldsAct u (.assign lhs rhs size))
    (hrange : (MockAct.assign lhs rhs size).InRange) :
    u.number 0 8 = lhs ∧ u.number 8 8 = rhs ∧ u.number 16 4 = size := by
  obtain ⟨hlhs, hrhs, hsize⟩ := hrange
  have hread : u.read 0 (8 + 8 + 4) = leBytes 8 lhs ++ leBytes 8 rhs ++ leBytes 4 size := by
    simpa only [HoldsAct, memberBytes, List.length_append, length_leBytes] using h
  obtain ⟨hptrs, hcount⟩ := UnAct.read_split hread (by simp)
  obtain ⟨hdst, hsrc⟩ := UnAct.read_split hptrs (by simp)
  exact ⟨number_of_read hdst (by omega), number_of_read hsrc (by omega),
    number_of_read hcount (by omega)⟩

theorem HoldsAct.assignParam {addr idx dstsize : ℕ} (h : HoldsAct u (.assignParam addr idx dstsize))
    (hrange : (MockAct.assignParam addr idx dstsize).InRange) :
    u.number 0 8 = addr ∧ u.number 8 4 = idx ∧ u.number 12 4 = dstsize := by
  obtain ⟨haddr, hidx, hsize⟩ := hrange
  have hread : u.read 0 (8 + 4 + 4) = leBytes 8 addr ++ leBytes 4 idx ++ leBytes 4 dstsize := by
    simpa only [HoldsAct, memberBytes, List.length_append, length_leBytes] using h
  obtain ⟨hhead, hcount⟩ := UnAct.read_split hread (by simp)
  obtain ⟨hdst, hsrc⟩ := UnAct.read_split hhead (by simp)
  exact ⟨number_of_read hdst (by omega), number_of_read hsrc (by omega),
    number_of_read hcount (by omega)⟩

/-- On the bytes of its operand, a body performs the action of the typed context. -/
theorem mockPerform_refines {kind : MockKind} (hbody : sig.body = .returning kind)
    (hu : HoldsAct u o.unAct) (hrange : o.unAct.InRange)
    (h : mockSwitch kind sig.paramSizes.length o = some o') :
    ∃ e u', mockPerform sig addrs o.op u = some (e, u') ∧ o'.op = o.op ∧ HoldsAct u' o'.unAct ∧
      o'.unAct.InRange := by
  rcases o with ⟨op, act⟩
  rw [mockSwitch] at h
  split_ifs at h with htakes
  have hbodyTakes : sig.body.takes op = true := by rw [hbody]; exact htakes
  simp only at h hu hrange
  rw [mockPerform, if_pos hbodyTakes]
  split at h
  · split_ifs at h with hfunc
    obtain rfl := Option.some.inj h
    rw [← hu.invoke hrange] at hfunc
    simp only [mockCase, if_neg hfunc]
    exact ⟨_, u, rfl, trivial, hu, hrange⟩
  · obtain rfl := Option.some.inj h
    exact ⟨_, u, rfl, rfl, hu, hrange⟩
  · next n =>
    obtain rfl := Option.some.inj h
    have hlt : (n + 1) % 2 ^ 32 < 2 ^ 32 := Nat.mod_lt _ (by omega)
    have hwrite := holdsAct_write u (.counter ((n + 1) % 2 ^ 32)) []
    rw [storedBytes, List.take_nil, List.append_nil, memberBytes] at hwrite
    simp only [mockCase, hu.counter hrange]
    exact ⟨_, _, rfl, trivial, hwrite, hlt⟩
  · next idx =>
    split_ifs at h with hlt
    obtain rfl := Option.some.inj h
    simp only [mockCase, hu.paramidx hrange, List.getElem?_eq_getElem hlt, Option.map_some]
    exact ⟨_, u, rfl, trivial, hu, hrange⟩
  · next idx =>
    split_ifs at h with hlt
    obtain rfl := Option.some.inj h
    simp only [mockCase, hu.paramidx hrange, List.getElem?_eq_getElem hlt, Option.map_some]
    exact ⟨_, u, rfl, trivial, hu, hrange⟩
  · obtain rfl := Option.some.inj h
    exact ⟨_, u, rfl, rfl, hu, hrange⟩
  · next addr idx dstsize =>
    split_ifs at h with hlt
    obtain rfl := Option.some.inj h
    simp only [mockCase, (hu.assignParam hrange).2.1, List.getElem?_eq_getElem hlt, Option.map_some]
    exact ⟨_, u, rfl, trivial, hu, hrange⟩
  · exact absurd h (by simp)

/-- Only a counter changes when an action is performed. -/
theorem mockPerform_unchanged {op : MockOp} (hop : op ≠ .increment)
    (h : mockPerform sig addrs op u = some (e, u')) : u' = u := by
  rw [mockPerform] at h
  split_ifs at h
  cases op with
  | increment => exact absurd rfl hop
  | invoke =>
    simp only [mockCase] at h
    split_ifs at h
    exact (Prod.mk.inj (Option.some.inj h)).2.symm
  | performReturn => exact (Prod.mk.inj (Option.some.inj h)).2.symm
  | assign => exact (Prod.mk.inj (Option.some.inj h)).2.symm
  | returnParam =>
    obtain ⟨size, -, hsome⟩ := Option.map_eq_some_iff.mp h
    exact (Prod.mk.inj hsome).2.symm
  | returnPointee =>
    obtain ⟨size, -, hsome⟩ := Option.map_eq_some_iff.mp h
    exact (Prod.mk.inj hsome).2.symm
  | assignParam =>
    obtain ⟨size, -, hsome⟩ := Option.map_eq_some_iff.mp h
    exact (Prod.mk.inj hsome).2.symm

end Typed

/-! ### Histories -/

section Histories

variable {sig : MockSig} {addrs : MockAddrs} {m m' : MockBytes} {es es' : List MockUse} {u : MockUse}

/-- A call, not a configuration. -/
def MockUse.isCall : MockUse → Bool
  | .call _ _ => true
  | .configure _ _ _ => false

/-- A call while the mocks of the thread are enabled. -/
def MockUse.isEnabledCall : MockUse → Bool
  | .call enabled _ => enabled
  | .configure _ _ _ => false

/-- The byte that the last operand with a byte at the offset `i` stored there. -/
def lastStored (es : List MockUse) (i : ℕ) : UInt8 :=
  es.foldl (fun b u =>
    match u with
    | .configure o _ pad => (storedBytes o.unAct pad).getD i b
    | .call _ _ => b) 0

theorem mockUses_append :
    mockUses sig (es ++ es') m = (mockUses sig es m).bind (mockUses sig es') := by
  rw [mockUses, List.foldlM_append]
  rfl

theorem mockUses_snoc :
    mockUses sig (es ++ [u]) m = (mockUses sig es m).bind fun m => mockUse sig m u := by
  rw [mockUses_append]
  congr 1
  funext m
  rw [mockUses, List.foldlM_cons]
  cases mockUse sig m u <;> rfl

theorem mockUse_call {enabled : Bool} (h : mockUse sig m (.call enabled addrs) = some m') :
    ∃ e, mockCalled sig addrs enabled m = some (e, m') := by
  obtain ⟨⟨e, _⟩, hcall, rfl⟩ := Option.map_eq_some_iff.mp h
  exact ⟨e, hcall⟩

/-- A call leaves the operation and all bytes above the counter as they were. -/
theorem mockCalled_unchanged {enabled : Bool} {e : MockEffect}
    (h : mockCalled sig addrs enabled m = some (e, m')) :
    m'.op = m.op ∧ (∀ i, 4 ≤ i → m'.unAct i = m.unAct i) ∧
      (m.op ≠ .increment → m'.unAct = m.unAct) := by
  rw [mockCalled] at h
  split_ifs at h with hact
  · obtain ⟨⟨e', u⟩, hperf, heq⟩ := Option.map_eq_some_iff.mp h
    obtain ⟨-, rfl⟩ := Prod.mk.inj heq
    refine ⟨rfl, fun i hi => ?_, fun hop => mockPerform_unchanged hop hperf⟩
    by_cases hop : m.op = .increment
    · rw [mockPerform, hop] at hperf
      split_ifs at hperf
      obtain ⟨-, rfl⟩ := Prod.mk.inj (Option.some.inj hperf)
      exact UnAct.write_of_le (by rw [length_leBytes]; exact hi)
    · exact congrFun (mockPerform_unchanged hop hperf) i
  · obtain ⟨-, rfl⟩ := Prod.mk.inj (Option.some.inj h)
    exact ⟨rfl, fun _ _ => rfl, fun _ => rfl⟩

/-- The bytes above the counter are those that were stored there last. -/
theorem unAct_eq_lastStored (h : mockUses sig es mockBytesInit = some m) {i : ℕ} (hi : 4 ≤ i) :
    m.unAct i = lastStored es i := by
  induction es using List.reverseRecOn generalizing m with
  | nil =>
    obtain rfl := Option.some.inj h
    rfl
  | append_singleton es u ih =>
    rw [mockUses_snoc] at h
    obtain ⟨m₁, h₁, hu⟩ := Option.bind_eq_some_iff.mp h
    rw [lastStored, List.foldl_append, ← lastStored, ← ih h₁]
    cases u with
    | configure o n pad =>
      simp only [mockUse] at hu
      split_ifs at hu
      obtain rfl := Option.some.inj hu
      rfl
    | call enabled addrs =>
      obtain ⟨e, hcall⟩ := mockUse_call hu
      exact (mockCalled_unchanged hcall).2.1 i hi

end Histories

/-! ### Counters -/

section Counters

variable {sig : MockSig} {m m' : MockBytes} {es : List MockUse} {c : ℕ}

/-- A type that a number can be converted to: its size, and the bytes of the result.  Zero
becomes zero bytes in all of them. -/
structure RetType where
  size : ℕ
  convert : ℕ → List UInt8
  length_convert : ∀ n, (convert n).length = size
  convert_zero : convert 0 = List.replicate size 0

/-- An integer or a pointer: a conversion keeps the low bytes, and fills up with zeros. -/
def RetType.IsInteger (rt : RetType) : Prop := ∀ n < 2 ^ 32, rt.convert n = leBytes rt.size n

/-- `INCREMENT_COUNTER(c)`. -/
def incrementCounter (c : ℕ) : Opdata := ⟨.increment, .counter (c % 2 ^ 32)⟩

/-- After `SHOULD_REPEATEDLY(INCREMENT_COUNTER(c))`, every enabled call returns `c` plus the
number of enabled calls up to it, converted to the return type. -/
def CountsUp (sig : MockSig) (rt : RetType) (m : MockBytes) (c : ℕ) : Prop :=
  ∀ pad, ∀ calls : List MockUse, (∀ u ∈ calls, u.isCall = true) →
    ∃ m', mockUses sig (.configure (incrementCounter c) mockInfinite pad :: calls) m = some m' ∧
      ∀ addrs, ∃ m'', mockCalled sig addrs true m' =
        some (.returned (rt.convert ((c + calls.countP MockUse.isEnabledCall + 1) % 2 ^ 32)), m'')

/-- The context while a mock counts, `k` calls after the configuration. -/
structure Counting (m : MockBytes) (c k : ℕ) (m' : MockBytes) : Prop where
  invocations : m'.invocations = mockInfinite
  op : m'.op = .increment
  counter : HoldsAct m'.unAct (.counter ((c + k) % 2 ^ 32))
  upper : ∀ i, 4 ≤ i → m'.unAct i = m.unAct i

theorem counting_configure (sig : MockSig) (m : MockBytes) (c : ℕ) (pad : List UInt8) :
    ∃ m', mockUse sig m (.configure (incrementCounter c) mockInfinite pad) = some m' ∧
      Counting m c 0 m' := by
  refine ⟨⟨mockInfinite, .increment, m.unAct.write (storedBytes (.counter (c % 2 ^ 32)) pad)⟩,
    ?_, rfl, rfl, holdsAct_write _ _ pad, fun i hi => UnAct.write_of_le ?_⟩
  · have hinfinite : 0 ≤ mockInfinite ∨ mockInfinite = mockInfinite := .inr rfl
    rw [mockUse, if_pos hinfinite]
    rfl
  · simpa [storedBytes, memberBytes, memberPadding] using hi

/-- An enabled call returns the next number, with the bytes of the union above it. -/
theorem Counting.call {k : ℕ} (h : Counting m c k m') (htakes : sig.body.takes .increment = true)
    (hsize : 4 ≤ sig.retSize) (addrs : MockAddrs) :
    ∃ m'', mockCalled sig addrs true m' = some (.returned (leBytes 4 ((c + k + 1) % 2 ^ 32) ++
      m.unAct.read 4 (sig.retSize - 4)), m'') ∧ Counting m c (k + 1) m'' := by
  have hlt : (c + k) % 2 ^ 32 < 2 ^ 32 := Nat.mod_lt _ (by omega)
  have hnumber : m'.unAct.number 0 4 = (c + k) % 2 ^ 32 := h.counter.counter hlt
  have hnext : ((c + k) % 2 ^ 32 + 1) % 2 ^ 32 = (c + k + 1) % 2 ^ 32 := Nat.mod_add_mod ..
  let u := m'.unAct.write (leBytes 4 ((c + k + 1) % 2 ^ 32))
  have hperf : mockPerform sig addrs m'.op m'.unAct = some (.returned (u.read 0 sig.retSize), u) := by
    rw [mockPerform, h.op, if_pos htakes, mockCase, hnumber, hnext]
  have hlow : HoldsAct u (.counter ((c + k + 1) % 2 ^ 32)) := by
    have hwrite := holdsAct_write m'.unAct (.counter ((c + k + 1) % 2 ^ 32)) []
    rwa [storedBytes, List.take_nil, List.append_nil, memberBytes] at hwrite
  have hupper : ∀ i, 4 ≤ i → u i = m.unAct i := fun i hi =>
    (UnAct.write_of_le (by rw [length_leBytes]; exact hi)).trans (h.upper i hi)
  have hread : u.read 0 sig.retSize =
      leBytes 4 ((c + k + 1) % 2 ^ 32) ++ m.unAct.read 4 (sig.retSize - 4) := by
    obtain ⟨n, hn⟩ : ∃ n, sig.retSize = 4 + n := ⟨sig.retSize - 4, by omega⟩
    have hhead : u.read 0 4 = leBytes 4 ((c + k + 1) % 2 ^ 32) := by
      simpa only [HoldsAct, memberBytes, length_leBytes] using hlow
    have htail : u.read (0 + 4) n = m.unAct.read 4 n :=
      UnAct.read_congr fun i _ => hupper (4 + i) (Nat.le_add_right 4 i)
    rw [hn, UnAct.read_add, hhead, htail, Nat.add_sub_cancel_left]
  have henabled : true = true ∧ m'.invocations ≠ 0 := by
    rw [h.invocations]
    exact ⟨rfl, by decide⟩
  refine ⟨⟨mockDecrement m'.invocations, m'.op, u⟩, ?_, ?_, h.op, hlow, hupper⟩
  · rw [mockCalled, if_pos henabled, hperf, Option.map_some, hread]
  · rw [h.invocations]
    rfl

theorem Counting.calls {k : ℕ} (h : Counting m c k m') (htakes : sig.body.takes .increment = true)
    (hsize : 4 ≤ sig.retSize) (calls : List MockUse) (hcalls : ∀ u ∈ calls, u.isCall = true) :
    ∃ m'', mockUses sig calls m' = some m'' ∧
      Counting m c (k + calls.countP MockUse.isEnabledCall) m'' := by
  induction calls generalizing k m' with
  | nil => exact ⟨m', rfl, h⟩
  | cons u calls ih =>
    have hrest := fun u hu => hcalls u (List.mem_cons_of_mem _ hu)
    cases u with
    | configure o n pad => exact absurd (hcalls _ (List.mem_cons_self ..)) (by simp [MockUse.isCall])
    | call enabled addrs =>
      cases enabled with
      | true =>
        obtain ⟨m₁, hcall, h₁⟩ := h.call htakes hsize addrs
        obtain ⟨m₂, hrun, h₂⟩ := ih h₁ hrest
        refine ⟨m₂, ?_, ?_⟩
        · rw [mockUses, List.foldlM_cons, mockUse, hcall]
          exact hrun
        · rw [List.countP_cons_of_pos (by rfl), Nat.add_comm _ 1, ← Nat.add_assoc]
          exact h₂
      | false =>
        obtain ⟨m₂, hrun, h₂⟩ := ih h hrest
        refine ⟨m₂, ?_, ?_⟩
        · rw [mockUses, List.foldlM_cons, mockUse, mockCalled, if_neg (by simp)]
          exact hrun
        · rw [List.countP_cons_of_neg (by simp [MockUse.isEnabledCall])]
          exact h₂

/-- What the enabled call after `calls` returns. -/
theorem counter_value (htakes : sig.body.takes .increment = true) (hsize : 4 ≤ sig.retSize)
    (m : MockBytes) (c : ℕ) (pad : List UInt8) (calls : List MockUse)
    (hcalls : ∀ u ∈ calls, u.isCall = true) :
    ∃ m', mockUses sig (.configure (incrementCounter c) mockInfinite pad :: calls) m = some m' ∧
      ∀ addrs, ∃ m'', mockCalled sig addrs true m' = some (.returned
        (leBytes 4 ((c + calls.countP MockUse.isEnabledCall + 1) % 2 ^ 32) ++
          m.unAct.read 4 (sig.retSize - 4)), m'') := by
  obtain ⟨m₁, hconf, h₁⟩ := counting_configure sig m c pad
  obtain ⟨m₂, hrun, h₂⟩ := h₁.calls htakes hsize calls hcalls
  rw [Nat.zero_add] at h₂
  refine ⟨m₂, ?_, fun addrs => ?_⟩
  · rw [mockUses, List.foldlM_cons, hconf]
    exact hrun
  · obtain ⟨m₃, hcall, -⟩ := h₂.call htakes hsize addrs
    exact ⟨m₃, hcall⟩

/-- After any history, `INCREMENT_COUNTER` counts up as it should iff the return type is an
integer or a pointer and the last bytes that were stored above the counter are zero. -/
theorem counter_counts {rt : RetType} (htakes : sig.body.takes .increment = true)
    (hrt : sig.retSize = rt.size) (hsize : 4 ≤ rt.size)
    (h : mockUses sig es mockBytesInit = some m) (c : ℕ) :
    CountsUp sig rt m c ↔ (∀ i, 4 ≤ i → i < rt.size → lastStored es i = 0) ∧ rt.IsInteger := by
  have hvalue := counter_value htakes (by omega) m c
  constructor
  · intro hcounts
    -- the calls that come to the number `n`
    have hnext : ∀ n < 2 ^ 32, rt.convert n = leBytes 4 n ++ m.unAct.read 4 (rt.size - 4) := by
      intro n hn
      let addrs : MockAddrs := ⟨0, fun _ => 0, by omega, fun _ => by omega⟩
      let calls := List.replicate (n + 2 ^ 32 - 1 - c % 2 ^ 32) (MockUse.call true addrs)
      have hcalls : ∀ u ∈ calls, u.isCall = true := fun u hu => by
        rw [List.eq_of_mem_replicate hu]
        rfl
      have hcount : (c + calls.countP MockUse.isEnabledCall + 1) % 2 ^ 32 = n := by
        have hall : calls.countP MockUse.isEnabledCall = n + 2 ^ 32 - 1 - c % 2 ^ 32 := by
          rw [List.countP_replicate, if_pos (by rfl)]
        rw [hall]
        omega
      obtain ⟨m₁, hrun, hcall⟩ := hcounts [] calls hcalls
      obtain ⟨m₁', hrun', hcall'⟩ := hvalue [] calls hcalls
      obtain rfl := Option.some.inj (hrun.symm.trans hrun')
      obtain ⟨m₂, hret⟩ := hcall addrs
      obtain ⟨m₂', hret'⟩ := hcall' addrs
      have heq := (Prod.mk.inj (Option.some.inj (hret.symm.trans hret'))).1
      rw [hcount, MockEffect.returned.injEq, hrt] at heq
      exact heq
    have hzero : m.unAct.read 4 (rt.size - 4) = List.replicate (rt.size - 4) 0 := by
      have h0 := hnext 0 (by omega)
      have hsplit : List.replicate rt.size (0 : UInt8) =
          leBytes 4 0 ++ List.replicate (rt.size - 4) 0 := by
        rw [leBytes_zero, List.replicate_append_replicate, show 4 + (rt.size - 4) = rt.size by omega]
      rw [rt.convert_zero, hsplit] at h0
      exact (List.append_cancel_left h0).symm
    constructor
    · intro i hi hlt
      have hi4 := UnAct.read_eq_zero_iff.mp hzero (i - 4) (by omega)
      rw [show 4 + (i - 4) = i by omega] at hi4
      rw [← unAct_eq_lastStored h hi, hi4]
    · intro n hn
      rw [hnext n hn, hzero, ← leBytes_add (by omega), show 4 + (rt.size - 4) = rt.size by omega]
  · rintro ⟨hstored, hint⟩ pad calls hcalls
    obtain ⟨m₁, hrun, hcall⟩ := hvalue pad calls hcalls
    refine ⟨m₁, hrun, fun addrs => ?_⟩
    obtain ⟨m₂, hret⟩ := hcall addrs
    refine ⟨m₂, ?_⟩
    have hzero : m.unAct.read 4 (rt.size - 4) = List.replicate (rt.size - 4) 0 := by
      refine UnAct.read_eq_zero_iff.mpr fun i hi => ?_
      rw [unAct_eq_lastStored h (Nat.le_add_right 4 i)]
      exact hstored (4 + i) (by omega) (by omega)
    have hlt : (c + calls.countP MockUse.isEnabledCall + 1) % 2 ^ 32 < 2 ^ 32 :=
      Nat.mod_lt _ (by omega)
    rw [hret, hrt, hzero, hint _ hlt, ← leBytes_add hlt, show 4 + (rt.size - 4) = rt.size by omega]

/-- `long`, and a function without parameters that returns one. -/
def longRet : RetType := ⟨8, leBytes 8, length_leBytes 8, leBytes_zero 8⟩

/-- The addresses of a call. -/
def zeroAddrs : MockAddrs := ⟨0, fun _ => 0, by decide, fun _ => by decide⟩

theorem counter_counts_long : ∃ m,
    mockUses ⟨.returning .functionNullary, 8, []⟩ [.configure (incrementCounter 5) mockInfinite [],
      .call true zeroAddrs] mockBytesInit = some m ∧
    CountsUp ⟨.returning .functionNullary, 8, []⟩ longRet m 0 := by
  have hcounts := @counter_counts ⟨.returning .functionNullary, 8, []⟩ _
    [.configure (incrementCounter 5) mockInfinite [], .call true zeroAddrs] longRet rfl rfl
    (by decide) rfl 0
  refine ⟨_, rfl, hcounts.mpr ⟨fun i hi hlt => ?_, fun _ _ => rfl⟩⟩
  have hlt8 : i < 8 := hlt
  interval_cases i <;> rfl

/-- The function has returned `-1` once: the first count is not 1 but `-1` with the low
bytes of 1. -/
theorem counter_keeps_upper : ∃ m,
    mockUses ⟨.returning .functionNullary, 8, []⟩
      [.configure ⟨.performReturn, .retval (leBytes 8 (2 ^ 64 - 1))⟩ 1 [], .call true zeroAddrs]
      mockBytesInit = some m ∧
    ¬ CountsUp ⟨.returning .functionNullary, 8, []⟩ longRet m 0 := by
  refine ⟨_, rfl, fun hcounts => ?_⟩
  obtain ⟨m', hrun, hcall⟩ := hcounts [] [] (by simp)
  obtain ⟨m'', hret⟩ := hcall zeroAddrs
  obtain rfl := Option.some.inj hrun
  have hvalue := congrArg (Option.map Prod.fst) hret
  simp only [Option.map_some] at hvalue
  exact absurd hvalue (by decide)

end Counters

/-! ### Copies -/

section Copies

/-- An object of the program. -/
structure MockObject where
  addr : ℕ
  size : ℕ
  addr_lt : addr < 2 ^ 64

/-- The actions that copy between objects. -/
inductive CopyAction
  /-- `RETURN_PARAM(idx)` -/
  | returnParam (idx : ℕ)
  /-- `ASSIGN(lhs, rhs)` -/
  | assign (lhs rhs : MockObject)
  /-- `ASSIGN_PARAM(idx, lhs)` -/
  | assignParam (idx : ℕ) (lhs : MockObject)

/-- The operand of an action; indices and sizes are kept as `unsigned`. -/
def CopyAction.opdata : CopyAction → Opdata
  | .returnParam idx => ⟨.returnParam, .paramidx (idx % 2 ^ 32)⟩
  | .assign lhs rhs => ⟨.assign, .assign lhs.addr rhs.addr (lhs.size % 2 ^ 32)⟩
  | .assignParam idx lhs => ⟨.assignParam, .assignParam lhs.addr (idx % 2 ^ 32) (lhs.size % 2 ^ 32)⟩

/-- The parameter of an index that is in range. -/
def MockSig.param (sig : MockSig) (addrs : MockAddrs) (idx : ℕ) : Option MockObject :=
  sig.paramSizes[idx % 2 ^ 32]?.map fun size =>
    ⟨addrs.params (idx % 2 ^ 32), size, addrs.params_lt _⟩

/-- The destination and the source of an action. -/
def CopyAction.objects (sig : MockSig) (addrs : MockAddrs) :
    CopyAction → Option (MockObject × MockObject)
  | .returnParam idx => (sig.param addrs idx).map fun p => (⟨addrs.rv, sig.retSize, addrs.rv_lt⟩, p)
  | .assign lhs rhs => some (lhs, rhs)
  | .assignParam idx lhs => (sig.param addrs idx).map fun p => (lhs, p)

/-- When the number of bytes of an action is right for both objects. -/
def CopyAction.SizesFit (dst src : MockObject) : CopyAction → Prop
  | .returnParam _ => src.size % 2 ^ 16 ≤ dst.size
  | .assign _ _ | .assignParam _ _ => dst.size % 2 ^ 32 ≤ src.size

/-- The number of bytes that an action copies. -/
def CopyAction.count (dst src : MockObject) : CopyAction → ℕ
  | .returnParam _ => src.size % 2 ^ 16
  | .assign _ _ | .assignParam _ _ => dst.size % 2 ^ 32

/-- The bytes that are copied lie inside of both objects. -/
def CopyFits (dst src : MockObject) (e : MockEffect) : Prop :=
  ∃ n, e = .copied dst.addr src.addr n ∧ n ≤ dst.size ∧ n ≤ src.size

variable {sig : MockSig} {addrs : MockAddrs} {m m' : MockBytes} {es calls : List MockUse}
  {act : CopyAction} {dst src : MockObject} {e : MockEffect} {n : ℤ} {pad : List UInt8}

theorem CopyAction.op_ne (act : CopyAction) : act.opdata.op ≠ .increment := by
  cases act <;> exact MockOp.noConfusion

theorem CopyAction.inRange (act : CopyAction) : act.opdata.unAct.InRange := by
  have hmod : ∀ k : ℕ, k % 2 ^ 32 < 2 ^ 32 := fun k => Nat.mod_lt _ (by omega)
  cases act with
  | returnParam idx => exact hmod idx
  | assign lhs rhs => exact ⟨lhs.addr_lt, rhs.addr_lt, hmod _⟩
  | assignParam idx lhs => exact ⟨lhs.addr_lt, hmod idx, hmod _⟩

/-- Calls leave the operand of a copy as it was configured. -/
theorem mockUses_holds (act : CopyAction) (hop : m.op = act.opdata.op)
    (hu : HoldsAct m.unAct act.opdata.unAct) (hcalls : ∀ u ∈ calls, u.isCall = true)
    (h : mockUses sig calls m = some m') :
    m'.op = act.opdata.op ∧ HoldsAct m'.unAct act.opdata.unAct := by
  induction calls generalizing m with
  | nil =>
    obtain rfl := Option.some.inj h
    exact ⟨hop, hu⟩
  | cons u calls ih =>
    rw [mockUses, List.foldlM_cons] at h
    obtain ⟨m₁, h₁, hrest⟩ := Option.bind_eq_some_iff.mp h
    cases u with
    | configure o n pad => exact absurd (hcalls _ (List.mem_cons_self ..)) (by simp [MockUse.isCall])
    | call enabled addrs =>
      obtain ⟨e, hcall⟩ := mockUse_call h₁
      obtain ⟨hop₁, -, hsame⟩ := mockCalled_unchanged hcall
      have hsame₁ := hsame (by rw [hop]; exact act.op_ne)
      refine ih (hop₁.trans hop) ?_ (fun u hu => hcalls u (List.mem_cons_of_mem _ hu)) hrest
      rw [hsame₁]
      exact hu

/-- The copy that a body makes for the operand that it finds. -/
theorem mockCase_copy (hu : HoldsAct m.unAct act.opdata.unAct)
    (hobj : act.objects sig addrs = some (dst, src)) :
    mockCase sig addrs m.unAct act.opdata.op =
      some (.copied dst.addr src.addr (act.count dst src), m.unAct) := by
  have hrange := act.inRange
  cases act with
  | returnParam idx =>
    obtain ⟨p, hp, heq⟩ := Option.map_eq_some_iff.mp hobj
    obtain ⟨rfl, rfl⟩ := Prod.mk.inj heq
    obtain ⟨size, hsize, rfl⟩ := Option.map_eq_some_iff.mp hp
    simp only [CopyAction.opdata] at hu hrange ⊢
    rw [mockCase, hu.paramidx hrange, hsize, Option.map_some]
    rfl
  | assign lhs rhs =>
    obtain ⟨rfl, rfl⟩ := Prod.mk.inj (Option.some.inj hobj)
    simp only [CopyAction.opdata] at hu hrange ⊢
    obtain ⟨hlhs, hrhs, hsize⟩ := hu.assign hrange
    rw [mockCase, hlhs, hrhs, hsize]
    rfl
  | assignParam idx lhs =>
    obtain ⟨p, hp, heq⟩ := Option.map_eq_some_iff.mp hobj
    obtain ⟨rfl, rfl⟩ := Prod.mk.inj heq
    obtain ⟨size, hsize, rfl⟩ := Option.map_eq_some_iff.mp hp
    simp only [CopyAction.opdata] at hu hrange ⊢
    obtain ⟨hlhs, hidx, hcount⟩ := hu.assignParam hrange
    rw [mockCase, hlhs, hidx, hcount, hsize, Option.map_some]
    rfl

theorem CopyAction.sizesFit_iff :
    act.SizesFit dst src ↔ act.count dst src ≤ dst.size ∧ act.count dst src ≤ src.size := by
  cases act with
  | returnParam idx => exact (and_iff_left (Nat.mod_le ..)).symm
  | assign lhs rhs => exact (and_iff_right (Nat.mod_le ..)).symm
  | assignParam idx lhs => exact (and_iff_right (Nat.mod_le ..)).symm

/-- After any history, a mock that performs a copying action copies between the objects of
the action, and stays inside both iff their sizes fit. -/
theorem mock_copy_fits (hobj : act.objects sig addrs = some (dst, src))
    (hcalls : ∀ u ∈ calls, u.isCall = true)
    (h : mockUses sig (es ++ .configure act.opdata n pad :: calls) mockBytesInit = some m)
    (hcall : mockCalled sig addrs true m = some (e, m')) (hperf : e ≠ .real) :
    CopyFits dst src e ↔ act.SizesFit dst src := by
  rw [mockUses_append] at h
  obtain ⟨m₁, -, h⟩ := Option.bind_eq_some_iff.mp h
  rw [mockUses, List.foldlM_cons] at h
  obtain ⟨m₂, hconf, hrest⟩ := Option.bind_eq_some_iff.mp h
  rw [mockUse] at hconf
  split_ifs at hconf
  obtain rfl := Option.some.inj hconf
  obtain ⟨hop, hu⟩ := mockUses_holds act rfl (holdsAct_write _ _ pad) hcalls hrest
  rw [mockCalled] at hcall
  split_ifs at hcall with hact
  · obtain ⟨⟨e', u⟩, hswitch, heq⟩ := Option.map_eq_some_iff.mp hcall
    obtain ⟨rfl, -⟩ := Prod.mk.inj heq
    rw [mockPerform] at hswitch
    split_ifs at hswitch
    rw [hop, mockCase_copy hu hobj] at hswitch
    obtain ⟨rfl, -⟩ := Prod.mk.inj (Option.some.inj hswitch)
    rw [CopyAction.sizesFit_iff]
    constructor
    · rintro ⟨k, hk, hfit⟩
      rw [MockEffect.copied.injEq] at hk
      obtain ⟨-, -, rfl⟩ := hk
      exact hfit
    · exact fun hfit => ⟨_, rfl, hfit⟩
  · exact absurd (Prod.mk.inj (Option.some.inj hcall)).1.symm hperf

/-- The addresses of a call, with the parameters behind the return value. -/
def apartAddrs : MockAddrs := ⟨0x1000, fun i => if i = 0 then 0x2000 else 0x2008, by decide,
  fun i => by split <;> decide⟩

/-- A function that counts, and then returns its second parameter twice. -/
theorem mock_copy_fits_same_size : ∃ m m',
    mockUses ⟨.returning .functionVariadic, 8, [4, 8]⟩
      ([.configure (incrementCounter 5) mockInfinite [], .call true apartAddrs] ++
        .configure (CopyAction.returnParam 1).opdata 2 [] :: [.call true apartAddrs])
      mockBytesInit = some m ∧
    mockCalled ⟨.returning .functionVariadic, 8, [4, 8]⟩ apartAddrs true m =
      some (.copied 0x1000 0x2008 8, m') ∧
    CopyFits ⟨0x1000, 8, by decide⟩ ⟨0x2008, 8, by decide⟩ (.copied 0x1000 0x2008 8) := by
  refine ⟨_, _, rfl, rfl, ?_⟩
  exact (@mock_copy_fits ⟨.returning .functionVariadic, 8, [4, 8]⟩ apartAddrs _ _
    [.configure (incrementCounter 5) mockInfinite [], .call true apartAddrs]
    [.call true apartAddrs] (.returnParam 1) _ _ _ 2 [] rfl (by simp [MockUse.isCall]) rfl rfl
    (by decide)).mpr (show 8 % 2 ^ 16 ≤ 8 by decide)

/-- A parameter of 8 bytes is copied over a return value of one byte. -/
theorem mock_copy_overflows : ∃ m m' dst src,
    mockUses ⟨.returning .functionVariadic, 1, [8]⟩
      [.configure (CopyAction.returnParam 0).opdata 1 []] mockBytesInit = some m ∧
    (CopyAction.returnParam 0).objects ⟨.returning .functionVariadic, 1, [8]⟩ zeroAddrs =
      some (dst, src) ∧
    mockCalled ⟨.returning .functionVariadic, 1, [8]⟩ zeroAddrs true m =
      some (.copied dst.addr src.addr 8, m') ∧
    ¬ CopyFits dst src (.copied dst.addr src.addr 8) := by
  refine ⟨_, _, _, _, rfl, rfl, rfl, ?_⟩
  rintro ⟨n, hn, hdst, -⟩
  rw [MockEffect.copied.injEq] at hn
  obtain ⟨-, -, rfl⟩ := hn
  exact absurd hdst (by decide)

end Copies

end Cldm
