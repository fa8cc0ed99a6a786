/-
Threads in both directions.

An insertion keeps the threads on the left as well as those on the right: only
removals lose the left ones.  Here the invariant is stated by the neighbours that
a node has in key order, without the contexts of the descents.

* `rep_threads` — the threads of a subtree lead to the neighbours of its nodes;
* `rbValid_iff` — the invariant, in these terms;
* `rbtree_insert_valid` — an insertion keeps it.
-/
import Cldm.RbtreeRun

namespace Cldm

open Prog ColorTree

variable {α : Type} {m : RbMem α} {t : ColorTree α} {b : Side → RbPtr α}

/-- The neighbours of a node between `l₁` and `l₂`; `b` are those of the two ends. -/
def neighbour (b : Side → RbPtr α) (l₁ l₂ : List α) : Side → RbPtr α
  | .left => (l₁.getLast?.map .obj).getD (b .left)
  | .right => (l₂.head?.map .obj).getD (b .right)

/-- All threads of the nodes `l` lead to neighbours. -/
def Threaded (m : RbMem α) (b : Side → RbPtr α) (l : List α) : Prop :=
  ∀ l₁ a l₂, l = l₁ ++ a :: l₂ → ∀ d, (m (.obj a)).isThread d = true →
    (m (.obj a)).link d = neighbour b l₁ l₂ d

/-- A node of `L`, `k` and `R` lies in one of the three. -/
theorem append_cons_cases {L R l₁ l₂ : List α} {k a : α} (h : L ++ k :: R = l₁ ++ a :: l₂) :
    (∃ l₃, L = l₁ ++ a :: l₃ ∧ l₂ = l₃ ++ k :: R) ∨ (L = l₁ ∧ k = a ∧ R = l₂) ∨
      ∃ l₃, l₁ = L ++ k :: l₃ ∧ R = l₃ ++ a :: l₂ := by
  rcases List.append_eq_append_iff.mp h with ⟨l₃, rfl, hl⟩ | ⟨l₃, rfl, hl⟩
  · rcases l₃ with _ | ⟨x, l₃⟩
    · obtain ⟨rfl, rfl⟩ := List.cons.inj hl
      exact .inr (.inl ⟨(List.append_nil L).symm, rfl, rfl⟩)
    · obtain ⟨rfl, rfl⟩ := List.cons.inj hl
      exact .inr (.inr ⟨l₃, rfl, rfl⟩)
  · rcases l₃ with _ | ⟨x, l₃⟩
    · obtain ⟨rfl, rfl⟩ := List.cons.inj hl
      exact .inr (.inl ⟨List.append_nil l₁, rfl, rfl⟩)
    · obtain ⟨rfl, rfl⟩ := List.cons.inj hl
      exact .inl ⟨l₃, rfl, rfl⟩

theorem neighbour_left {l₁ l₂ R : List α} {k : α} (d : Side) :
    neighbour (Function.update b .right (.obj k)) l₁ l₂ d = neighbour b l₁ (l₂ ++ k :: R) d := by
  cases d with
  | left => rfl
  | right => cases l₂ <;> rfl

theorem neighbour_right {l₁ l₂ L : List α} {k : α} (d : Side) :
    neighbour (Function.update b .left (.obj k)) l₁ l₂ d = neighbour b (L ++ k :: l₁) l₂ d := by
  cases d with
  | left => cases h : l₁.getLast? <;> simp [neighbour, h, List.getLast?_cons]
  | right => rfl

/-- The threads around a node, from those of its children. -/
theorem threaded_node {L R : List α} {k : α} : Threaded m b (L ++ k :: R) ↔
    Threaded m (Function.update b .right (.obj k)) L ∧
      (∀ d, (m (.obj k)).isThread d = true → (m (.obj k)).link d = neighbour b L R d) ∧
      Threaded m (Function.update b .left (.obj k)) R := by
  constructor
  · intro h
    refine ⟨fun l₁ a l₂ hl d hd => ?_, h L k R rfl, fun l₁ a l₂ hl d hd => ?_⟩
    · rw [neighbour_left (R := R)]
      refine h l₁ a _ ?_ d hd
      rw [hl, List.append_assoc, List.cons_append]
    · rw [neighbour_right (L := L)]
      refine h _ a l₂ ?_ d hd
      rw [hl, List.append_assoc, List.cons_append]
  · rintro ⟨hL, hk, hR⟩ l₁ a l₂ hl d hd
    rcases append_cons_cases hl with ⟨l₃, rfl, rfl⟩ | ⟨rfl, rfl, rfl⟩ | ⟨l₃, rfl, rfl⟩
    · rw [← neighbour_left]
      exact hL l₁ a l₃ rfl d hd
    · exact hk d hd
    · rw [← neighbour_right]
      exact hR l₃ a l₂ rfl d hd

theorem linkRep_threads {q : RbPtr α} {d : Side} {c : RbPtr α} :
    LinkRep (fun _ => True) m q d t c ↔ LinkRep (fun _ => False) m q d t c ∧
      (t = nil → (m q).link d = c) := by
  rcases t with _ | ⟨x, l, k, r⟩
  · exact ⟨fun h => ⟨⟨h.1, False.elim⟩, fun _ => h.2 trivial⟩, fun h => ⟨h.1.1, fun _ => h.2 rfl⟩⟩
  · exact ⟨fun h => ⟨h, fun hnil => absurd hnil (by simp)⟩, fun h => h.1⟩

/-- The threads of a subtree lead to the neighbours of its nodes. -/
theorem rep_threads : Rep (fun _ => True) m t b ↔
    Rep (fun _ => False) m t b ∧ Threaded m b t.toList := by
  induction t generalizing b with
  | nil => exact iff_of_true trivial ⟨trivial, fun l₁ a l₂ hl => absurd hl (by simp [toList])⟩
  | node c l k r ihl ihr =>
    rw [show (node c l k r).toList = l.toList ++ k :: r.toList from rfl, threaded_node]
    simp only [Rep, linkRep_threads, ihl, ihr]
    -- a link of `k` is a thread iff the child on that side is empty
    have hleft : LinkRep (fun _ => False) m (.obj k) .left l (b .left) →
        ((l = nil → (m (.obj k)).link .left = b .left) ↔
          ((m (.obj k)).isThread .left = true →
            (m (.obj k)).link .left = neighbour b l.toList r.toList .left)) := by
      rcases l with _ | ⟨x, l', k', r'⟩
      · rintro ⟨hthread, -⟩
        exact ⟨fun h _ => h rfl, fun h _ => h hthread⟩
      · rintro ⟨hthread, -⟩
        exact iff_of_true (fun h => absurd h (by simp)) fun h => absurd (hthread.symm.trans h) (by simp)
    have hright : LinkRep (fun _ => False) m (.obj k) .right r (b .right) →
        ((r = nil → (m (.obj k)).link .right = b .right) ↔
          ((m (.obj k)).isThread .right = true →
            (m (.obj k)).link .right = neighbour b l.toList r.toList .right)) := by
      rcases r with _ | ⟨x, l', k', r'⟩
      · rintro ⟨hthread, -⟩
        exact ⟨fun h _ => h rfl, fun h _ => h hthread⟩
      · rintro ⟨hthread, -⟩
        exact iff_of_true (fun h => absurd h (by simp)) fun h => absurd (hthread.symm.trans h) (by simp)
    constructor
    · rintro ⟨hc, ⟨⟨hl, hl'⟩, hr, hr'⟩, ⟨hL, htL⟩, hR, htR⟩
      refine ⟨⟨hc, ⟨hl, hr⟩, hL, hR⟩, htL, fun d => ?_, htR⟩
      cases d with
      | left => exact (hleft hl).mp hl'
      | right => exact (hright hr).mp hr'
    · rintro ⟨⟨hc, ⟨hl, hr⟩, hL, hR⟩, htL, hk, htR⟩
      exact ⟨hc, ⟨⟨hl, (hleft hl).mpr (hk .left)⟩, hr, (hright hr).mpr (hk .right)⟩,
        ⟨hL, htL⟩, hR, htR⟩

/-! ### The invariant -/

/-- A threaded red-black search tree: the nodes of `t` are linked below a black
sentinel, and the threads lead to the neighbours in key order, at the ends to the
sentinel. -/
structure RbValid (compare : α → α → ℤ) (s : RbState α) (t : ColorTree α) : Prop where
  layout : ZRep (fun _ => False) s.mem [] t
  sentinel : t ≠ nil → (s.mem .sentinel).right = .sentinel
  threads : Threaded s.mem (fun _ => .sentinel) t.toList
  ordered : Ordered compare t.toList
  redBlack : ∃ n, t.RedBlack .black n
  size : s.size = t.toList.length

variable {compare : α → α → ℤ} {s : RbState α}

theorem rbValid_iff : RbValid compare s t ↔ RbInv (fun _ => True) compare s t := by
  have htop : CtxRep (fun _ => True) s.mem [] t ↔ CtxRep (fun _ => False) s.mem [] t ∧
      (t ≠ nil → (s.mem .sentinel).right = .sentinel) := by
    cases t <;> simp [CtxRep, SentinelRep, and_assoc]
  have hrep : Rep (fun _ => True) s.mem t (fun _ => .sentinel) ↔
      Rep (fun _ => False) s.mem t (fun _ => .sentinel) ∧
        Threaded s.mem (fun _ => .sentinel) t.toList := rep_threads
  constructor
  · intro h
    exact ⟨⟨htop.mpr ⟨h.layout.1, h.sentinel⟩, hrep.mpr ⟨h.layout.2, h.threads⟩⟩, h.ordered,
      h.redBlack, h.size⟩
  · intro h
    obtain ⟨hlayout, hsentinel⟩ := htop.mp h.rep.1
    obtain ⟨hnodes, hthreads⟩ := hrep.mp h.rep.2
    exact ⟨⟨hlayout, hnodes⟩, hsentinel, hthreads, h.ordered, h.redBlack, h.size⟩

/-- The state is a threaded red-black search tree of some nodes. -/
def IsRbtree (compare : α → α → ℤ) (s : RbState α) : Prop := ∃ t, RbValid compare s t

variable [DecidableEq α]

theorem rbtreeInit_valid (mem : RbMem α) : RbValid compare (rbtreeInit mem) nil := by
  refine ⟨⟨⟨?_, ?_⟩, trivial⟩, fun h => absurd rfl h, fun l₁ a l₂ hl => absurd hl (by simp [toList]), .nil, ⟨0, rfl, rfl⟩, rfl⟩
  · simp [rbtreeInit]
  · simp [rbtreeInit]

/-- `cldm_rbtree_insert` returns, and leaves a threaded red-black search tree, whether
the key is new or not. -/
theorem rbtree_insert_valid (hc : StrictTotal compare) (h : IsRbtree compare s) (x : α) :
    Total (rbtreeInsert compare x) (fun b s' => IsRbtree compare s' ∧
      (b = true ↔ ∀ a ∈ s.stored, compare a x ≠ 0) ∧
      s'.stored = if b then insert x s.stored else s.stored) s := by
  obtain ⟨t, h⟩ := h
  have hinv := rbValid_iff.mp h
  have ht : (fun _ => True : Side → Prop) .right := trivial
  refine (hinv.insert hc ht).mono ?_
  rintro b s' ⟨t', hinv', hres⟩
  refine ⟨⟨t', rbValid_iff.mpr hinv'⟩, ?_⟩
  rw [hinv.stored_eq, hinv'.stored_eq]
  rcases hres with ⟨rfl, hnew, l, r, hl, hl'⟩ | ⟨rfl, ⟨a, ha, hax⟩, hl'⟩
  · refine ⟨iff_of_true rfl hnew, ?_⟩
    ext a
    simp only [hl, hl', Set.mem_ofPred_eq, List.mem_append, List.mem_cons, if_true, Set.mem_insert_iff]
    tauto
  · rw [hl']
    exact ⟨iff_of_false (by simp) fun h => h a ha hax, rfl⟩

/-- Insertions alone leave a threaded red-black search tree. -/
theorem script_isRbtree {fuel : ℕ} {xs : List ℕ} {s : RbState ℕ} {l : List ℕ}
    (hr : script fuel (xs.map .insert) = some (s, l)) :
    IsRbtree byValue s ∧ s.stored = {a | a ∈ l} := by
  have hstored : s.stored = {a | a ∈ l} :=
    (script_rbRun hr fun x hx => absurd hx (by simp)).stored_eq byValue_strictTotal
  refine ⟨?_, hstored⟩
  clear hstored
  suffices h : ∀ s₀ l₀, IsRbtree byValue s₀ →
      (xs.map RbCall.insert).foldlM (fun s c => c.run fuel s) (s₀, l₀) = some (s, l) →
      IsRbtree byValue s from h _ _ ⟨nil, rbtreeInit_valid _⟩ hr
  clear hr
  induction xs with
  | nil =>
    rintro s₀ l₀ h hr
    obtain ⟨rfl, rfl⟩ := Prod.mk.inj (Option.some.inj hr)
    exact h
  | cons x xs ih =>
    rintro s₀ l₀ ⟨t, ht⟩ hr
    rw [List.map_cons, List.foldlM_cons] at hr
    obtain ⟨⟨s₁, l₁⟩, hc, hr⟩ := Option.bind_eq_some_iff.mp hr
    refine ih s₁ l₁ ?_ hr
    by_cases hx : x ∈ l₀
    · simp [RbCall.run, hx] at hc
    simp only [RbCall.run, hx, if_false, Option.map_eq_some_iff, Prod.mk.injEq] at hc
    obtain ⟨⟨b, s₁'⟩, hret, rfl, -⟩ := hc
    have hins := (rbValid_iff.mp ht).insert (x := x) byValue_strictTotal
      (show (fun _ => True : Side → Prop) .right from trivial)
    obtain ⟨t', hinv, -⟩ := hins.of_returns ((fuelMono_insert x).returns hret)
    exact ⟨t', rbValid_iff.mpr hinv⟩

/-- Inserting 3 below 2, the right child of the root 1, rotates 2 to the root. -/
theorem rbtree_insert_valid_run : ∃ s, s.stored = {a | a ∈ [2, 1]} ∧
    (s.mem .sentinel).left = .obj 1 ∧
      Total (rbtreeInsert byValue 3) (fun b s' => (IsRbtree byValue s' ∧
        (b = true ↔ ∀ a ∈ s.stored, byValue a 3 ≠ 0) ∧
        s'.stored = if b then insert 3 s.stored else s.stored) ∧
        (s'.mem .sentinel).left = .obj 2) s := by
  have hsome : (script 4 ([1, 2].map .insert)).isSome = true := by decide +kernel
  obtain ⟨⟨s, l⟩, hs⟩ := Option.isSome_iff_exists.mp hsome
  have hfacts : (script 4 ([1, 2].map .insert)).map (fun r => (r.2, (r.1.mem .sentinel).left,
      (rbtreeInsert byValue 3 4 r.1).map fun r => (r.2.mem .sentinel).left)) =
      some ([2, 1], .obj 1, some (.obj 2)) := by decide +kernel
  rw [hs] at hfacts
  simp only [Option.map_some, Option.some.injEq, Prod.mk.injEq, Option.map_eq_some_iff] at hfacts
  obtain ⟨rfl, hroot, ⟨b, s'⟩, hinsert, hroot'⟩ := hfacts
  obtain ⟨hvalid, hstored⟩ := script_isRbtree hs
  have hret := (fuelMono_insert 3).returns hinsert
  refine ⟨s, hstored, hroot, (rbtree_insert_valid byValue_strictTotal hvalid 3).also ?_⟩
  intro n b₁ s₁ hn
  obtain ⟨-, rfl⟩ := hret.unique ((fuelMono_insert 3).returns hn)
  exact hroot'

end Cldm
