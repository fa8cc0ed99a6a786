/-
Iterating over the tree, and whole runs of tree operations.

`cldm_rbtree_remove` leaves the right threads and the child links in order only
under the condition `RemovalOk` on the node it removes: the code reads the
links of the replacement node after it has overwritten them.  In every run
whose removals all meet it:

* `rbtree_iterates_sorted` — iterating visits the stored nodes in ascending
  order (without the condition it may never end:
  `rbtree_iteration_diverges`);
* `rbtree_refines_set` — the tree is a finite set keyed by the comparison
  (without the condition a removed node may still be found:
  `rbtree_finds_removed_node`).
-/
import Cldm.RbtreeInsert
import Cldm.RbtreeRemove
import Mathlib.Data.Set.Card

namespace Cldm

open Prog ColorTree

/-! ### Iteration -/

section Iteration

variable {α : Type} [DecidableEq α] {track : Side → Prop} {m : RbMem α} {k : ℕ}
  {compare : α → α → ℤ} {s : RbState α} {t : ColorTree α}

/-- The first node of a list, or the sentinel. -/
def headPtr : List α → RbPtr α
  | [] => .sentinel
  | a :: _ => .obj a

omit [DecidableEq α] in
@[simp] theorem headPtr_cons {a : α} {l : List α} : headPtr (a :: l) = .obj a := rfl

omit [DecidableEq α] in
@[simp] theorem headPtr_append {l l' : List α} :
    headPtr (l ++ l') = if l = [] then headPtr l' else headPtr l := by
  cases l <;> rfl

omit [DecidableEq α] in
/-- The right neighbour of a hole is the first node behind it. -/
theorem bounds_right (ctx : Context α) : bounds ctx .right = headPtr ctx.after := by
  induction ctx with
  | nil => rfl
  | cons f ctx ih =>
    obtain ⟨d, c, q, sib⟩ := f
    cases d with
    | left => simp [bounds, Context.after, headPtr]
    | right => simpa [bounds, Context.after] using ih

omit [DecidableEq α] in
/-- A key of a tree is the root of one of its subtrees. -/
theorem exists_zipper {a : α} (ha : a ∈ t.toList) :
    ∃ (ctx : Context α) (c : Color) (l r : ColorTree α), t = ctx.plug (node c l a r) := by
  suffices h : ∀ (ctx₀ : Context α), ∃ (ctx : Context α) (c : Color) (l r : ColorTree α),
      ctx₀.plug t = ctx.plug (node c l a r) from h []
  induction t with
  | nil => simp [toList] at ha
  | node c l q r ihl ihr =>
    intro ctx₀
    simp only [toList, List.mem_append, List.mem_cons] at ha
    rcases ha with ha | rfl | ha
    · exact ihl ha (⟨.left, c, q, r⟩ :: ctx₀)
    · exact ⟨ctx₀, c, l, r, rfl⟩
    · exact ihr ha (⟨.right, c, q, l⟩ :: ctx₀)

/-- `leftmost` finds the first node of a subtree. -/
theorem leftmost_spec {b : Side → RbPtr α} (h : Rep track m t b) {q : α}
    (hq : t.rootKey = some q) :
    Total (fun n => rbtreeLeftmost n (.obj q))
      (fun r s' => r = headPtr t.toList ∧ s' = ⟨m, k⟩) ⟨m, k⟩ := by
  let I : ℕ → RbPtr α → RbState α → Prop := fun j p s => s = ⟨m, k⟩ ∧
    ∃ (u : ColorTree α) (b : Side → RbPtr α) (q : α), Rep track m u b ∧ u.rootKey = some q ∧
      p = .obj q ∧ headPtr u.toList = headPtr t.toList ∧ j = u.toList.length
  have step : ∀ j p s, I j p s → Total (fun _ => rbtreeLeftmostBody p)
      (fun r s' => Sum.elim (fun p' => ∃ j' < j, I j' p' s')
        (fun r => r = headPtr t.toList ∧ s' = ⟨m, k⟩) r) s := by
    rintro j p _ ⟨rfl, u, b, q, hu, hq, rfl, hhead, rfl⟩
    refine Total.const ?_
    rcases u with _ | ⟨c, l, q', r⟩
    · simp [rootKey] at hq
    obtain rfl : q' = q := by simpa [rootKey] using hq
    obtain ⟨-, ⟨hl, -⟩, hl', -⟩ := hu
    rcases l with _ | ⟨cl, ll, ql, rl⟩
    · simp only [rbtreeLeftmostBody, wp_bind, ne_eq, reduceCtorEq, not_false_eq_true,
        wp_rbnodeIsThread, hl.1, Bool.not_true, Bool.false_eq_true, if_false, wp_pure]
      exact ⟨hhead, trivial⟩
    · simp only [rbtreeLeftmostBody, wp_bind, ne_eq, reduceCtorEq, not_false_eq_true,
        wp_rbnodeIsThread, hl.1, Bool.not_false, if_true, wp_link, hl.2, wp_pure]
      refine ⟨_, length_child .left c _ r q', rfl, _, _, ql, hl', rfl, rfl, ?_, rfl⟩
      rw [← hhead]
      simp [toList]
  exact total_loop step _ _ _ ⟨rfl, t, b, q, h, hq, rfl, rfl, rfl⟩

omit [DecidableEq α] in
/-- The nodes behind the root of a subtree. -/
theorem behind_eq {ctx : Context α} {c : Color} {l r : ColorTree α} {a : α} {l₁ l₂ : List α}
    (hl : (ctx.plug (node c l a r)).toList = l₁ ++ a :: l₂)
    (hnd : (ctx.plug (node c l a r)).toList.Nodup) : l₂ = r.toList ++ ctx.after := by
  have hplug : (ctx.plug (node c l a r)).toList =
      (ctx.before ++ l.toList) ++ a :: (r.toList ++ ctx.after) := by
    rw [Context.toList_plug]
    simp [toList]
  rw [hplug] at hl hnd
  obtain ⟨-, hcons, hdisj⟩ := List.nodup_append.mp hnd
  have ha₁ : a ∉ ctx.before ++ l.toList := fun h => hdisj a h a (List.mem_cons_self ..) rfl
  have ha₂ : a ∉ r.toList ++ ctx.after := (List.nodup_cons.mp hcons).1
  exact ((List.append_cons_inj_of_notMem ha₁ ha₂).mp hl).2.2.symm

omit [DecidableEq α] in
/-- A right thread leads to the next node. -/
theorem ZRep.right_thread (h : ZRep track m [] t) (hnd : t.toList.Nodup) (ht : track .right)
    {l₁ l₂ : List α} {a : α} (hl : t.toList = l₁ ++ a :: l₂)
    (hthread : (m (.obj a)).isThread .right = true) : (m (.obj a)).right = headPtr l₂ := by
  obtain ⟨ctx, c, l, r, rfl⟩ := exists_zipper (t := t) (a := a) (by simp [hl])
  obtain ⟨-, -, ⟨-, hr⟩, -⟩ := zRep_plug.mp h
  rcases r with _ | ⟨cr, lr, q, rr⟩
  · have hlink : (m (.obj a)).right = bounds ctx .right := hr.2 ht
    rw [hlink, behind_eq hl hnd, bounds_right]
    rfl
  · rw [hr.1] at hthread
    exact absurd hthread (by simp)

/-- `cldm_rbnode_successor` finds the next node. -/
theorem successor_spec (h : ZRep track m [] t) (hnd : t.toList.Nodup) (ht : track .right)
    {l₁ l₂ : List α} {a : α} (hl : t.toList = l₁ ++ a :: l₂) :
    Total (fun n => rbnodeSuccessor n (.obj a))
      (fun r s' => r = headPtr l₂ ∧ s' = ⟨m, k⟩) ⟨m, k⟩ := by
  refine Total.wp_bind ?_
  rw [wp_rbnodeHasChild (by simp)]
  cases hthread : (m (.obj a)).isThread .right with
  | true =>
    simp only [Bool.not_true, Bool.false_eq_true, if_false]
    refine Total.const ?_
    rw [wp_link (by simp)]
    exact ⟨h.right_thread hnd ht hl hthread, rfl⟩
  | false =>
    simp only [Bool.not_false, if_true]
    obtain ⟨ctx, c, l, r, rfl⟩ := exists_zipper (t := t) (a := a) (by simp [hl])
    obtain ⟨-, -, ⟨-, hr⟩, -, hr'⟩ := zRep_plug.mp h
    rcases r with _ | ⟨cr, lr, q, rr⟩
    · rw [hr.1] at hthread
      exact absurd hthread (by simp)
    · refine Total.wp_bind ?_
      rw [wp_link (by simp), hr.2]
      refine (leftmost_spec hr' rfl).mono ?_
      rintro p s' ⟨rfl, rfl⟩
      exact ⟨by rw [behind_eq hl hnd]; simp [toList], rfl⟩

/-- `cldm_rbtree_for_each` visits the nodes from left to right. -/
theorem RbInv.forEach (hc : StrictTotal compare) (ht : track .right)
    (h : RbInv track compare s t) :
    Returns rbtreeForEach s (t.toList.map .obj) s := by
  obtain ⟨m, k⟩ := s
  have hnd : t.toList.Nodup := h.ordered.nodup hc
  -- `l₁` has been visited, `l₂` is ahead
  let I : ℕ → RbPtr α × List (RbPtr α) → RbState α → Prop := fun j v s =>
    s = ⟨m, k⟩ ∧ ∃ l₁ l₂, t.toList = l₁ ++ l₂ ∧ v = (headPtr l₂, l₁.map .obj) ∧ j = l₂.length
  have step : ∀ j v s, I j v s → Total (fun n => rbtreeForEachBody n v)
      (fun r s' => Sum.elim (fun v' => ∃ j' < j, I j' v' s')
        (fun r => r = t.toList.map .obj ∧ s' = ⟨m, k⟩) r) s := by
    rintro j _ _ ⟨rfl, l₁, l₂, hl, rfl, rfl⟩
    rcases l₂ with _ | ⟨a, l₂⟩
    · refine Total.const ((wp_pure ..).mpr ?_)
      exact ⟨by rw [hl, List.append_nil], rfl⟩
    · refine Total.bind ((successor_spec (k := k) h.rep hnd ht hl).mono ?_)
      rintro r _ ⟨rfl, rfl⟩
      refine Total.const ((wp_pure ..).mpr ?_)
      exact ⟨l₂.length, by simp, rfl, l₁ ++ [a], l₂, by simp [hl], by simp, rfl⟩
  have hloop : Total (fun n => fuelLoop (rbtreeForEachBody n) n (headPtr t.toList, []))
      (fun r s' => r = t.toList.map .obj ∧ s' = ⟨m, k⟩) (⟨m, k⟩ : RbState α) :=
    total_loop step _ _ _ ⟨rfl, [], t.toList, rfl, rfl, rfl⟩
  have htotal : Total rbtreeForEach (fun r s' => r = t.toList.map .obj ∧ s' = ⟨m, k⟩)
      (⟨m, k⟩ : RbState α) := by
    refine Total.wp_bind ?_
    rw [wp_rbtreeSize]
    have hk : k = t.toList.length := h.size
    rcases t with _ | ⟨c, l, q, r⟩
    · obtain rfl : k = 0 := hk
      simp only [ne_eq, not_true_eq_false, if_false]
      exact Total.wp_bind ((wp_pure ..).mpr hloop)
    · have hne : k ≠ 0 := by simp [hk, toList]
      have hlink : (m .sentinel).link .left = .obj q := (h.rep.1.link_eq (k := q) rfl).2
      simp only [hne, ne_eq, not_false_eq_true, if_true]
      refine Total.wp_bind ?_
      rw [wp_rbroot, hlink]
      refine Total.bind ((leftmost_spec (k := k) h.rep.2 rfl).mono ?_)
      rintro _ _ ⟨rfl, rfl⟩
      exact hloop
  obtain ⟨r, s', hr, rfl, rfl⟩ := htotal
  exact hr

end Iteration

/-! ### The condition on removals -/

section Runs

variable {α : Type} [DecidableEq α] {compare : α → α → ℤ} {s s' : RbState α} {t : ColorTree α}
  {S : Set α}

/-- The removals that unlink their node properly: a stored node equal to `x` has
no left child and, unless it has a right child, is no right child itself; or its
left child is a leaf. -/
def RemovalOk (compare : α → α → ℤ) (s : RbState α) (x : α) : Prop :=
  ∀ f ∈ s.stored, compare f x = 0 →
    ((s.mem (.obj f)).isThread .left = true ∧ ((s.mem (.obj f)).isThread .right = false ∨
        ∀ g ∈ s.stored, (s.mem (.obj g)).isThread .right = false →
          (s.mem (.obj g)).right ≠ .obj f)) ∨
      ((s.mem (.obj f)).isThread .left = false ∧
        (s.mem (s.mem (.obj f)).left).isThread .left = true ∧
        (s.mem (s.mem (.obj f)).left).isThread .right = true)

omit [DecidableEq α] in
theorem LinkRep.isThread_iff {track : Side → Prop} {m : RbMem α} {q b : RbPtr α} {d : Side}
    (h : LinkRep track m q d t b) : (m q).isThread d = true ↔ t = nil := by
  cases t with
  | nil => exact iff_of_true h.1 rfl
  | node => rw [h.1]; simp

omit [DecidableEq α] in
/-- The condition as the descent meets it. -/
theorem RemovalOk.safe {track : Side → Prop} {x : α} (hok : RemovalOk compare s x)
    {ctx : Context α} (h : ZRep track s.mem ctx t)
    (hstored : ∀ a, a ∈ t.toList ∨ a ∈ ctxKeys ctx → a ∈ s.stored) :
    RemovalSafe compare x (side ctx) t := by
  induction t generalizing ctx with
  | nil => trivial
  | node c l q r ihl ihr =>
    have hl := zRep_branch (d := .left) |>.mp h
    have hr := zRep_branch (d := .right) |>.mp h
    have hmem : ∀ {u y : ColorTree α}, (∀ a, a ∈ u.toList ∨ a ∈ y.toList → a = q ∨ a ∈ l.toList ∨
        a ∈ r.toList) → ∀ d, ∀ a, a ∈ u.toList ∨ a ∈ ctxKeys (⟨d, c, q, y⟩ :: ctx) →
        a ∈ s.stored := by
      intro u y huy d a ha
      refine hstored a ?_
      simp only [toList, List.mem_append, List.mem_cons]
      rw [mem_ctxKeys_cons] at ha
      have := huy a
      tauto
    refine ⟨fun hq => ?_, fun _ => ihr hr (hmem (by tauto) .right),
      fun _ => ihl hl (hmem (by tauto) .left)⟩
    rcases hok q (hstored q (.inl (by simp [toList]))) hq with ⟨hleft, hright⟩ | ⟨hleft, hl₁, hl₂⟩
    · refine .inl ⟨hl.1.isThread_iff.mp hleft, ?_⟩
      rcases hright with hright | hparent
      · refine .inr fun hnil => ?_
        have hthread := hr.1.isThread_iff.mpr hnil
        simp only [holder, side] at hthread
        rw [hthread] at hright
        exact absurd hright (by simp)
      · -- a right child would be linked from its parent
        rcases ctx with _ | ⟨⟨d, cp, p, sib⟩, ctx⟩
        · exact .inl rfl
        · cases d with
          | left => exact .inl rfl
          | right =>
            obtain ⟨hthread, hlink⟩ := h.1.link_eq (k := q) rfl
            exact absurd hlink (hparent p (hstored p (.inr (mem_ctxKeys_cons.mpr (.inl rfl))))
              hthread)
    · obtain ⟨-, ⟨hlink, -⟩, hrep, -⟩ := h.2
      rcases l with _ | ⟨ca, la, a, ra⟩
      · rw [hlink.1] at hleft
        exact absurd hleft (by simp)
      · have hla : (s.mem (.obj q)).left = .obj a := hlink.2
        rw [hla] at hl₁ hl₂
        obtain ⟨-, ⟨hll, hlr⟩, -⟩ := hrep
        obtain rfl := hll.isThread_iff.mp hl₁
        obtain rfl := hlr.isThread_iff.mp hl₂
        exact .inr ⟨ca, a, rfl⟩

omit [DecidableEq α] in
theorem RemovalOk.safe_root {track : Side → Prop} {x : α} (hok : RemovalOk compare s x)
    (h : RbInv track compare s t) : RemovalSafe compare x .left t := by
  refine hok.safe h.rep fun a ha => ?_
  rw [h.mem_stored]
  simpa [ctxKeys, Context.before, Context.after] using ha

/-! ### Runs -/

/-- The side on which removals keep the threads. -/
def rightOnly (d : Side) : Prop := d = .right

theorem RbInv.clear {track : Side → Prop} (h : RbInv track compare s t) :
    wp rbtreeClear (fun _ s' => RbInv track compare s' nil) s := by
  obtain ⟨m, k⟩ := s
  simp only [rbtreeClear, wp_bind, ne_eq, reduceCtorEq, not_false_eq_true, wp_load, wp_store,
    wp_setSize]
  exact ⟨⟨⟨by simpa using h.rep.1.1, by simp⟩, trivial⟩, .nil, ⟨0, rfl, rfl⟩, rfl⟩

theorem rbInv_init (mem : RbMem α) : RbInv rightOnly compare (rbtreeInit mem) nil := by
  refine ⟨⟨⟨?_, ?_⟩, trivial⟩, .nil, ⟨0, rfl, rfl⟩, rfl⟩
  · simp [rbtreeInit]
  · simp [rbtreeInit]

/-- In a run whose removals are all in order, the state represents a red-black
search tree of the stored nodes. -/
theorem RbRun.inv (hc : StrictTotal compare) (h : RbRun compare (RemovalOk compare) s S) :
    ∃ t, RbInv rightOnly compare s t ∧ ∀ a, a ∈ S ↔ a ∈ t.toList := by
  have hright : rightOnly .right := rfl
  have hleft : ¬ rightOnly .left := by simp [rightOnly]
  induction h with
  | init mem => exact ⟨nil, rbInv_init mem, by simp [toList]⟩
  | @insert s s' S x b _ hx hret ih =>
    obtain ⟨t, hinv, hS⟩ := ih
    obtain ⟨t', hinv', hres⟩ :=
      (hinv.insert hc hright).of_returns hret
    refine ⟨t', hinv', fun a => ?_⟩
    rcases hres with ⟨rfl, -, l, r, hl, hl'⟩ | ⟨rfl, -, hl'⟩
    · simp only [if_true, Set.mem_insert_iff, hS, hl, hl', List.mem_append, List.mem_cons]
      tauto
    · simp [hS, hl']
  | @find s s' S x r _ hret ih =>
    obtain ⟨t, hinv, hS⟩ := ih
    obtain ⟨rfl, -⟩ := (hinv.find hc x).of_returns hret
    exact ⟨t, hinv, hS⟩
  | @remove s s' S x r _ hok hret ih =>
    obtain ⟨t, hinv, hS⟩ := ih
    obtain ⟨t', hinv', hres⟩ :=
      (hinv.remove hc hright hleft (hok.safe_root hinv)).of_returns hret
    refine ⟨t', hinv', fun a => ?_⟩
    have hnd := hinv.ordered.nodup hc
    rcases hres with ⟨f, l, l', -, rfl, hl, hl'⟩ | ⟨rfl, -, hl'⟩
    · rw [hl] at hnd
      obtain ⟨-, hcons, hdisj⟩ := List.nodup_append.mp hnd
      have hfl : f ∉ l := fun h => hdisj f h f (List.mem_cons_self ..) rfl
      have hfl' := (List.nodup_cons.mp hcons).1
      simp only [hS, hl, hl', List.mem_append, List.mem_cons, ne_eq,
        RbPtr.obj.injEq]
      constructor
      · rintro ⟨ha | rfl | ha, hne⟩
        · exact .inl ha
        · exact absurd rfl hne
        · exact .inr ha
      · rintro (ha | ha)
        · exact ⟨.inl ha, by rintro rfl; exact hfl ha⟩
        · exact ⟨.inr (.inr ha), by rintro rfl; exact hfl' ha⟩
    · simp [hS, hl']
  | clear _ hret ih =>
    obtain ⟨t, hinv, -⟩ := ih
    exact ⟨nil, (wp_of_some hret).mp hinv.clear, by simp [toList]⟩

/-- Iterating over the tree ends and visits exactly the nodes of `S`, each once
and in ascending order; the right threads lead to the next node. -/
def IteratesSorted (compare : α → α → ℤ) (s : RbState α) (S : Set α) : Prop :=
  ∃ l : List α, Returns rbtreeForEach s (l.map .obj) s ∧ l.Nodup ∧ Ordered compare l ∧
    (∀ a, a ∈ S ↔ a ∈ l) ∧
    ∀ l₁ a l₂, l = l₁ ++ a :: l₂ → (s.mem (.obj a)).isThread .right = true →
      (s.mem (.obj a)).right = headPtr l₂

/-- In every run whose removals are all in order, iterating visits the stored
nodes in ascending order. -/
theorem rbtree_iterates_sorted (hc : StrictTotal compare)
    (h : RbRun compare (RemovalOk compare) s S) : IteratesSorted compare s S := by
  obtain ⟨t, hinv, hS⟩ := h.inv hc
  have hnd := hinv.ordered.nodup hc
  have hright : rightOnly .right := rfl
  exact ⟨t.toList, hinv.forEach hc hright, hnd, hinv.ordered, hS,
    fun l₁ a l₂ hl hthread => hinv.rep.right_thread hnd hright hl hthread⟩

/-- The answer `r` of a search for `x` among the nodes `S`. -/
def FindsIn (compare : α → α → ℤ) (S : Set α) (x : α) (r : RbPtr α) : Prop :=
  (∃ a ∈ S, compare a x = 0 ∧ r = .obj a) ∨ (r = .null ∧ ∀ a ∈ S, compare a x ≠ 0)

/-- The state stands for the finite set `S` keyed by the comparison, and the
next call, whichever it is, behaves as on that set. -/
structure RefinesSet (compare : α → α → ℤ) (ok : RbState α → α → Prop) (s : RbState α)
    (S : Set α) : Prop where
  stored : s.stored = S
  keyed : ∀ a ∈ S, ∀ b ∈ S, compare a b = 0 → a = b
  insert : ∀ x ∉ S, Total (rbtreeInsert compare x) (fun b s' =>
    (b = true ↔ ∀ a ∈ S, compare a x ≠ 0) ∧ s'.stored = if b then Insert.insert x S else S) s
  find : ∀ x, Total (rbtreeFind compare x) (fun r s' =>
    FindsIn compare S x r ∧ s'.stored = S) s
  remove : ∀ x, ok s x → Total (rbtreeRemove compare x) (fun r s' =>
    FindsIn compare S x r ∧ s'.stored = {a ∈ S | r ≠ .obj a}) s
  clear : wp rbtreeClear (fun _ s' => s'.stored = ∅) s
  finite : S.Finite
  size : rbtreeSize s = some (S.ncard, s)
  empty : rbtreeEmpty s = some (decide (S.ncard = 0), s)

theorem RbRun.stored_eq (hc : StrictTotal compare) (h : RbRun compare (RemovalOk compare) s S) :
    s.stored = S := by
  obtain ⟨t, hinv, hS⟩ := h.inv hc
  exact Set.ext fun a => hinv.mem_stored.trans (hS a).symm

omit [DecidableEq α] in
/-- Equal nodes of an ordered list are the same. -/
theorem Ordered.eq_of_compare (hc : StrictTotal compare) {l : List α} (h : Ordered compare l)
    {a b : α} (ha : a ∈ l) (hb : b ∈ l) (hab : compare a b = 0) : a = b := by
  by_contra hne
  -- two different members are in order one way or the other
  let R : α → α → Prop := fun u v => 0 < compare u v ∨ 0 < compare v u
  have hsym : Std.Symm R := ⟨fun _ _ h => h.symm⟩
  have hR : l.Pairwise R := h.imp fun huv => .inl huv
  have hor : 0 < compare a b ∨ 0 < compare b a := hR.forall ha hb hne
  have hba := hc.eq_symm hab
  omega

omit [DecidableEq α] in
/-- Lists in order with equal nodes have the same keys in the same order. -/
theorem Ordered.map_eq (hc : StrictTotal compare) {κ : Type} {key : α → κ}
    (hkey : ∀ {a b}, compare a b = 0 → key a = key b) {l l' : List α} (h : Ordered compare l)
    (h' : Ordered compare l') (hsub : ∀ a ∈ l, ∃ b ∈ l', compare a b = 0)
    (hsub' : ∀ b ∈ l', ∃ a ∈ l, compare a b = 0) : l.map key = l'.map key := by
  induction l generalizing l' with
  | nil =>
    rcases l' with _ | ⟨b, l'⟩
    · rfl
    · obtain ⟨a, ha, -⟩ := hsub' b (List.mem_cons_self ..)
      exact absurd ha (by simp)
  | cons a l ih =>
    rcases l' with _ | ⟨b, l'⟩
    · obtain ⟨b, hb, -⟩ := hsub a (List.mem_cons_self ..)
      exact absurd hb (by simp)
    obtain ⟨ha, hl⟩ := List.pairwise_cons.mp h
    obtain ⟨hb, hl'⟩ := List.pairwise_cons.mp h'
    -- the least nodes are equal, since each has an equal one on the other side
    have hab : compare a b = 0 := by
      obtain ⟨b', hb', hab'⟩ := hsub a (List.mem_cons_self ..)
      obtain ⟨a', ha', hab''⟩ := hsub' b (List.mem_cons_self ..)
      rcases List.mem_cons.mp hb' with rfl | hb'
      · exact hab'
      rcases List.mem_cons.mp ha' with rfl | ha'
      · exact hab''
      have h₁ : 0 < compare b a :=
        hc.lt_trans (hb b' hb') (le_of_eq (hc.eq_symm hab').symm)
      have h₂ : 0 < compare a b := hc.lt_trans (ha a' ha') (le_of_eq hab''.symm)
      have := (hc.swap a b).mp h₂
      omega
    have hrest : ∀ u ∈ l, ∃ v ∈ l', compare u v = 0 := by
      intro u hu
      obtain ⟨v, hv, huv⟩ := hsub u (List.mem_cons_of_mem _ hu)
      rcases List.mem_cons.mp hv with rfl | hv
      · have hlt := hc.trans_lt (le_of_eq (hc.eq_symm hab).symm) (ha u hu)
        have := (hc.swap v u).mp hlt
        omega
      · exact ⟨v, hv, huv⟩
    have hrest' : ∀ v ∈ l', ∃ u ∈ l, compare u v = 0 := by
      intro v hv
      obtain ⟨u, hu, huv⟩ := hsub' v (List.mem_cons_of_mem _ hv)
      rcases List.mem_cons.mp hu with rfl | hu
      · have hlt := hc.trans_lt (le_of_eq hab.symm) (hb v hv)
        omega
      · exact ⟨u, hu, huv⟩
    rw [List.map_cons, List.map_cons, hkey hab, ih hl hl' hrest hrest']

/-- In every run whose removals are all in order, the tree is a finite set keyed
by the comparison. -/
theorem rbtree_refines_set (hc : StrictTotal compare)
    (h : RbRun compare (RemovalOk compare) s S) :
    RefinesSet compare (RemovalOk compare) s S := by
  obtain ⟨t, hinv, hS⟩ := h.inv hc
  have hSt : S = {a | a ∈ t.toList} := Set.ext hS
  have hnd := hinv.ordered.nodup hc
  have hcard : S.ncard = t.toList.length := by
    rw [hSt, ← List.toFinset_card_of_nodup hnd, ← Set.ncard_coe_finset]
    congr 1
    ext a
    simp
  have hright : rightOnly .right := rfl
  have hleft : ¬ rightOnly .left := by simp [rightOnly]
  constructor
  case stored => exact h.stored_eq hc
  case keyed =>
    intro a ha b hb hab
    exact hinv.ordered.eq_of_compare hc ((hS a).mp ha) ((hS b).mp hb) hab
  case insert =>
    intro x hx
    obtain ⟨b, s', hret, hres⟩ := hinv.insert (x := x) hc hright
    refine ⟨b, s', hret, ?_, (RbRun.insert h hx hret).stored_eq hc⟩
    obtain ⟨t', -, ⟨rfl, hne, -⟩ | ⟨rfl, ⟨a, ha, hax⟩, -⟩⟩ := hres
    · exact iff_of_true rfl fun a ha => hne a ((hS a).mp ha)
    · exact iff_of_false (by simp) fun hne => hne a ((hS a).mpr ha) hax
  case find =>
    intro x
    obtain ⟨r, s', hret, rfl, hres⟩ := hinv.find hc x
    refine ⟨r, s', hret, ?_, h.stored_eq hc⟩
    rcases hres with ⟨a, ha, hax, rfl⟩ | ⟨rfl, hne⟩
    · exact .inl ⟨a, (hS a).mpr ha, hax, rfl⟩
    · exact .inr ⟨rfl, fun a ha => hne a ((hS a).mp ha)⟩
  case remove =>
    intro x hok
    obtain ⟨r, s', hret, hres⟩ := hinv.remove hc hright hleft (hok.safe_root hinv)
    refine ⟨r, s', hret, ?_, (RbRun.remove h hok hret).stored_eq hc⟩
    obtain ⟨t', -, ⟨f, l, l', hfx, rfl, hl, -⟩ | ⟨rfl, hne, -⟩⟩ := hres
    · exact .inl ⟨f, (hS f).mpr (by simp [hl]), hfx, rfl⟩
    · exact .inr ⟨rfl, fun a ha => hne a ((hS a).mp ha)⟩
  case clear =>
    refine wp_mono hinv.clear fun _ s' hinv' => ?_
    exact hinv'.stored_eq.trans (by simp [toList])
  case finite => exact hSt ▸ List.finite_toSet t.toList
  case size => rw [hcard, ← hinv.size]; rfl
  case empty =>
    have hnil : t = nil ↔ t.toList.length = 0 := by
      cases t <;> simp [toList]
    rw [hinv.empty, hcard]
    simp only [hnil]

/-! ### Trees that are only inserted into -/

/-- The first nodes of a list with their keys. -/
def firsts (compare : α → α → ℤ) (xs : List α) : List α :=
  xs.foldl (fun acc x => if acc.any fun a => compare a x = 0 then acc else acc ++ [x]) []

/-- The tree after the nodes of a list have been inserted in turn. -/
def TreeOf (compare : α → α → ℤ) (xs : List α) (s : RbState α) : Prop :=
  ∃ t, RbInv rightOnly compare s t ∧ ∀ a, a ∈ t.toList ↔ a ∈ firsts compare xs

omit [DecidableEq α] in
theorem firsts_append (xs : List α) (x : α) : firsts compare (xs ++ [x]) =
    if ∃ a ∈ firsts compare xs, compare a x = 0 then firsts compare xs
    else firsts compare xs ++ [x] := by
  have hstep : firsts compare (xs ++ [x]) = if (firsts compare xs).any fun a => compare a x = 0
      then firsts compare xs else firsts compare xs ++ [x] := by
    rw [firsts, List.foldl_append, List.foldl_cons, List.foldl_nil, firsts]
  rw [hstep]
  simp only [List.any_eq_true, decide_eq_true_eq]

omit [DecidableEq α] in
theorem mem_of_mem_firsts {xs : List α} {a : α} (h : a ∈ firsts compare xs) : a ∈ xs := by
  induction xs using List.reverseRecOn with
  | nil => exact h
  | append_singleton xs x ih =>
    rw [firsts_append] at h
    split_ifs at h
    · exact List.mem_append_left _ (ih h)
    · rcases List.mem_append.mp h with h | h
      · exact List.mem_append_left _ (ih h)
      · exact List.mem_append_right _ h

omit [DecidableEq α] in
theorem exists_mem_firsts (hc : StrictTotal compare) {xs : List α} {x : α} (h : x ∈ xs) :
    ∃ a ∈ firsts compare xs, compare a x = 0 := by
  induction xs using List.reverseRecOn with
  | nil => exact absurd h (by simp)
  | append_singleton xs y ih =>
    rw [firsts_append]
    rcases List.mem_append.mp h with h | h
    · obtain ⟨a, ha, hax⟩ := ih h
      split_ifs
      · exact ⟨a, ha, hax⟩
      · exact ⟨a, List.mem_append_left _ ha, hax⟩
    · obtain rfl := List.mem_singleton.mp h
      split_ifs with hex
      · exact hex
      · exact ⟨x, by simp, hc.self x⟩

omit [DecidableEq α] in
/-- Nodes with different keys are all first. -/
theorem mem_firsts_iff (hc : StrictTotal compare) {xs : List α}
    (hkeyed : ∀ a ∈ xs, ∀ b ∈ xs, compare a b = 0 → a = b) {a : α} :
    a ∈ firsts compare xs ↔ a ∈ xs := by
  refine ⟨mem_of_mem_firsts, fun h => ?_⟩
  obtain ⟨b, hb, hba⟩ := exists_mem_firsts hc h
  rwa [← hkeyed b (mem_of_mem_firsts hb) a h hba]

theorem treeOf_init (mem : RbMem α) : TreeOf compare [] (rbtreeInit mem) :=
  ⟨nil, rbInv_init mem, fun _ => Iff.rfl⟩

theorem TreeOf.insert (hc : StrictTotal compare) {xs : List α} (h : TreeOf compare xs s) (x : α) :
    Total (rbtreeInsert compare x) (fun _ s' => TreeOf compare (xs ++ [x]) s') s := by
  obtain ⟨t, hinv, hmem⟩ := h
  have hright : rightOnly .right := rfl
  refine (hinv.insert hc hright).mono ?_
  rintro b s' ⟨t', hinv', ⟨-, hne, l, r, hl, hl'⟩ | ⟨-, ⟨a, ha, hax⟩, hl'⟩⟩
  · refine ⟨t', hinv', fun a => ?_⟩
    have hno : ¬ ∃ a ∈ firsts compare xs, compare a x = 0 := by
      rintro ⟨a, ha, hax⟩
      exact hne a ((hmem a).mpr ha) hax
    rw [firsts_append, if_neg hno, List.mem_append, List.mem_singleton, ← hmem, hl, hl']
    simp only [List.mem_append, List.mem_cons]
    tauto
  · refine ⟨t', hinv', fun b => ?_⟩
    rw [firsts_append, if_pos ⟨a, (hmem a).mp ha, hax⟩, hl', hmem]

/-- A tree is iterated in ascending order. -/
theorem TreeOf.forEach (hc : StrictTotal compare) {xs : List α} (h : TreeOf compare xs s) :
    ∃ l : List α, Returns rbtreeForEach s (l.map .obj) s ∧ Ordered compare l ∧
      (∀ a, a ∈ l ↔ a ∈ firsts compare xs) ∧ s.size = l.length ∧ s.stored = {a | a ∈ l} := by
  obtain ⟨t, hinv, hmem⟩ := h
  have hright : rightOnly .right := rfl
  exact ⟨t.toList, hinv.forEach hc hright, hinv.ordered, hmem, hinv.size, hinv.stored_eq⟩

end Runs

/-! ### Runs that break the tree -/

section Fuel

variable {α : Type} [DecidableEq α] {compare : α → α → ℤ}

theorem fuelMono_find (x : α) : FuelMono (rbtreeFind compare x) := by
  refine (FuelMono.const _).bind fun r => ?_
  exact FuelMono.loop (fun v => .const (rbtreeFindBody compare (.obj x) v)) _

theorem fuelMono_findParentOf (p : RbPtr α) : FuelMono (rbtreeFindParentOf compare p) := by
  refine (FuelMono.const _).bind fun r => ?_
  exact FuelMono.loop (fun v => .const (rbtreeFindParentBody compare p v)) _

theorem fuelMono_insert (x : α) : FuelMono (rbtreeInsert compare x) := by
  refine (FuelMono.const _).bind fun b => .ite _ (.const _) ?_
  refine (FuelMono.const _).bind fun _ => (FuelMono.const _).bind fun _ =>
    (FuelMono.const _).bind fun r => ?_
  refine FuelMono.bind (FuelMono.loop
    (fun v => .const (rbtreeInsertBody compare (.obj x) v)) _) fun e => ?_
  cases e with
  | present => exact .const _
  | leaf => exact .const _

theorem fuelMono_unlink (gp p found : RbPtr α) (dir : Side) :
    FuelMono (rbtreeUnlink compare gp p found dir) :=
  (fuelMono_findParentOf found).bind fun _ => .const _

theorem fuelMono_remove (x : α) : FuelMono (rbtreeRemove compare x) := by
  refine (FuelMono.const _).bind fun r => .ite _ (.const _) ?_
  refine (FuelMono.const _).bind fun _ => (FuelMono.const _).bind fun r => ?_
  refine FuelMono.bind (FuelMono.loop
    (fun v => .const (rbtreeRemoveBody compare (.obj x) v)) _) fun v => ?_
  refine .ite _ ?_ (.const _)
  exact (fuelMono_unlink _ _ _ _).bind fun _ => .const _

end Fuel

/-- A call of a script. -/
inductive RbCall where
  | insert (x : ℕ)
  | remove (x : ℕ)

/-- Ascending numbers. -/
def byValue (a b : ℕ) : ℤ := b - a

theorem byValue_strictTotal : StrictTotal byValue := by
  constructor <;> intros <;> simp only [byValue] at * <;> omega

/-- Run a call, keeping the list of the stored nodes. -/
def RbCall.run (fuel : ℕ) : RbCall → RbState ℕ × List ℕ → Option (RbState ℕ × List ℕ)
  | insert x, (s, l) =>
      if x ∈ l then none else
        (rbtreeInsert byValue x fuel s).map fun r => (r.2, if r.1 then x :: l else l)
  | remove x, (s, l) =>
      (rbtreeRemove byValue x fuel s).map fun r => (r.2, l.filter fun a => r.1 ≠ .obj a)

/-- The state of a fresh tree, and no stored nodes. -/
def freshTree : RbState ℕ × List ℕ :=
  (rbtreeInit fun _ => { left := .null, right := .null, color := .black, flags := 0 }, [])

theorem RbCall.run_rbRun {ok : RbState ℕ → ℕ → Prop} {fuel : ℕ} {c : RbCall}
    {s s' : RbState ℕ} {l l' : List ℕ} (h : RbRun byValue ok s {a | a ∈ l})
    (hr : c.run fuel (s, l) = some (s', l')) (hok : ∀ x, c = .remove x → ok s x) :
    RbRun byValue ok s' {a | a ∈ l'} := by
  cases c with
  | insert x =>
    by_cases hx : x ∈ l
    · simp [RbCall.run, hx] at hr
    simp only [RbCall.run, hx, if_false, Option.map_eq_some_iff, Prod.mk.injEq] at hr
    obtain ⟨⟨b, s₁⟩, hret, rfl, rfl⟩ := hr
    have hrun := RbRun.insert h hx ((fuelMono_insert x).returns hret)
    cases b with
    | true => simpa [Set.insert_def] using hrun
    | false => simpa using hrun
  | remove x =>
    simp only [RbCall.run, Option.map_eq_some_iff, Prod.mk.injEq] at hr
    obtain ⟨⟨r, s₁⟩, hret, rfl, rfl⟩ := hr
    have hrun := RbRun.remove h (hok x rfl) ((fuelMono_remove x).returns hret)
    simpa using hrun

/-- Run calls on a fresh tree. -/
def script (fuel : ℕ) (cs : List RbCall) : Option (RbState ℕ × List ℕ) :=
  cs.foldlM (fun s c => c.run fuel s) freshTree

theorem script_rbRun {ok : RbState ℕ → ℕ → Prop} {fuel : ℕ} {cs : List RbCall} {s : RbState ℕ}
    {l : List ℕ} (hr : script fuel cs = some (s, l))
    (hok : ∀ x, RbCall.remove x ∈ cs → ∀ s, ok s x) : RbRun byValue ok s {a | a ∈ l} := by
  suffices h : ∀ s₀ l₀, RbRun byValue ok s₀ {a | a ∈ l₀} →
      cs.foldlM (fun s c => c.run fuel s) (s₀, l₀) = some (s, l) →
      RbRun byValue ok s {a | a ∈ l} from
    h _ _ (by simpa using RbRun.init _) hr
  clear hr
  induction cs with
  | nil =>
    rintro s₀ l₀ h hr
    obtain ⟨rfl, rfl⟩ := Prod.mk.inj (Option.some.inj hr)
    exact h
  | cons c cs ih =>
    intro s₀ l₀ h hr
    rw [List.foldlM_cons] at hr
    obtain ⟨⟨s₁, l₁⟩, hc, hr⟩ := Option.bind_eq_some_iff.mp hr
    refine ih (fun x hx => hok x (List.mem_cons_of_mem _ hx)) s₁ l₁ ?_ hr
    exact RbCall.run_rbRun h hc fun x hx => hok x (hx ▸ List.mem_cons_self ..) s₀

/-- When the right thread of the leftmost node leads back to it, iterating never
ends. -/
theorem forEach_diverges {s : RbState ℕ} {a : ℕ} (hsize : s.size ≠ 0)
    (hroot : (s.mem .sentinel).left = .obj a) (hleft : (s.mem (.obj a)).isThread .left = true)
    (hright : (s.mem (.obj a)).isThread .right = true)
    (hlink : (s.mem (.obj a)).right = .obj a) (n : ℕ) : rbtreeForEach n s = none := by
  obtain ⟨m, k⟩ := s
  have hloop : fuelLoop (rbtreeForEachBody n) n (.obj a, []) ⟨m, k⟩ = none := by
    refine fuelLoop_diverges (I := fun v s' => s' = ⟨m, k⟩ ∧ v.1 = .obj a) ?_ n _ _ ⟨rfl, rfl⟩
    rintro ⟨_, visited⟩ _ ⟨rfl, rfl⟩
    refine ⟨(.obj a, visited ++ [.obj a]), ⟨m, k⟩, eq_some_of_wp ?_, rfl, rfl⟩
    have hlink' : (m (.obj a)).link .right = .obj a := hlink
    simp [rbtreeForEachBody, rbnodeSuccessor, hright, hlink']
  have hroot' : (m .sentinel).link .left = .obj a := hroot
  have hsize' : k ≠ 0 := hsize
  -- the leftmost node is found unless the fuel is zero
  have hbegin : rbtreeLeftmost n (.obj a) ⟨m, k⟩ = none ∨
      rbtreeLeftmost n (.obj a) ⟨m, k⟩ = some (.obj a, ⟨m, k⟩) := by
    cases n with
    | zero => exact .inl rfl
    | succ n =>
      refine .inr (fuelLoop_done (eq_some_of_wp ?_))
      simp [rbtreeLeftmostBody, hleft]
  have hroot₁ : rbroot (⟨m, k⟩ : RbState ℕ) = some (.obj a, ⟨m, k⟩) :=
    eq_some_of_wp (by simp [hroot'])
  have hsize₁ : rbtreeSize (⟨m, k⟩ : RbState ℕ) = some (k, ⟨m, k⟩) := rfl
  rw [rbtreeForEach, bind_apply, hsize₁, Option.bind_some]
  simp only [hsize', ne_eq, not_false_eq_true, if_true]
  rw [bind_apply, hroot₁, Option.bind_some, bind_apply]
  rcases hbegin with hb | hb
  · rw [hb]
    rfl
  · rw [hb]
    exact hloop

/-- Removing the right child of the root leaves the right thread of the root on
the root itself: iterating over the one node left never ends. -/
theorem rbtree_iteration_diverges : StrictTotal byValue ∧ ∃ s S,
    RbRun byValue (fun _ _ => True) s S ∧ (∀ n, rbtreeForEach n s = none) ∧
      ¬ IteratesSorted byValue s S := by
  have hsome : (script 4 [.insert 1, .insert 2, .remove 2]).isSome = true := by decide +kernel
  obtain ⟨⟨s, l⟩, hs⟩ := Option.isSome_iff_exists.mp hsome
  have hfacts : (script 4 [.insert 1, .insert 2, .remove 2]).map (fun r =>
      (r.1.size, (r.1.mem .sentinel).left, (r.1.mem (.obj 1)).isThread .left,
        (r.1.mem (.obj 1)).isThread .right, (r.1.mem (.obj 1)).right)) =
      some (1, .obj 1, true, true, .obj 1) := by decide +kernel
  rw [hs] at hfacts
  simp only [Option.map_some, Option.some.injEq, Prod.mk.injEq] at hfacts
  obtain ⟨hsize, hroot, hleft, hright, hlink⟩ := hfacts
  have hdiv := forEach_diverges (by omega) hroot hleft hright hlink
  refine ⟨byValue_strictTotal, s, {a | a ∈ l}, script_rbRun hs (fun _ _ _ => trivial), hdiv, ?_⟩
  rintro ⟨l', ⟨k, hret⟩, -⟩
  exact absurd ((hdiv k).symm.trans (hret k (Nat.le_refl k))) (by simp)

/-- After a removal from the middle of a right spine the left link of the new
root still leads to a node that a later removal returns: it is found although it
is no longer stored. -/
theorem rbtree_finds_removed_node : StrictTotal byValue ∧ ∃ s S,
    RbRun byValue (fun _ _ => True) s S ∧ 0 ∉ S ∧
      (∃ s', Returns (rbtreeFind byValue 0) s (.obj 0) s') ∧
      ¬ RefinesSet byValue (fun _ _ => True) s S := by
  have hsome : (script 4 [.insert 0, .insert 1, .remove 1, .insert 2, .remove 0]).isSome = true := by
    decide +kernel
  obtain ⟨⟨s, l⟩, hs⟩ := Option.isSome_iff_exists.mp hsome
  have hfacts : (script 4 [.insert 0, .insert 1, .remove 1, .insert 2, .remove 0]).map (fun r =>
      ((rbtreeFind byValue 0 4 r.1).map Prod.fst, r.2)) = some (some (.obj 0), [2]) := by
    decide +kernel
  rw [hs] at hfacts
  simp only [Option.map_some, Option.some.injEq, Prod.mk.injEq, Option.map_eq_some_iff] at hfacts
  obtain ⟨⟨⟨_, s'⟩, hfind, rfl⟩, rfl⟩ := hfacts
  have hret := (fuelMono_find 0).returns hfind
  refine ⟨byValue_strictTotal, s, _, script_rbRun hs (fun _ _ _ => trivial), by simp,
    ⟨s', hret⟩, fun href => ?_⟩
  obtain ⟨hfound, -⟩ := (href.find 0).of_returns hret
  rcases hfound with ⟨a, ha, h0, hr⟩ | ⟨hr, -⟩
  · obtain rfl : (0 : ℕ) = a := RbPtr.obj.inj hr
    simp at ha
  · exact absurd hr (by simp)

/-! ### A run in order -/

/-- Six insertions and the removal of the root, whose left child is a leaf; the removal
rotates 4 to the root. -/
theorem exists_run : ∃ s, RbRun byValue (RemovalOk byValue) s {a | a ∈ [6, 5, 4, 3, 1]} ∧
    (s.mem .sentinel).left = .obj 4 := by
  let cs : List RbCall := [.insert 1, .insert 2, .insert 3, .insert 4, .insert 5, .insert 6]
  have hsome : (script 12 cs).isSome = true := by decide +kernel
  obtain ⟨⟨s, l⟩, hs⟩ := Option.isSome_iff_exists.mp hsome
  have hlinks : (script 12 cs).map (fun r => ((r.1.mem (.obj 2)).isThread .left,
      (r.1.mem (.obj 2)).left, (r.1.mem (.obj 1)).isThread .left,
      (r.1.mem (.obj 1)).isThread .right)) = some (false, .obj 1, true, true) := by
    decide +kernel
  have hafter : (script 12 cs).map (fun r => ((RbCall.remove 2).run 12 r).map fun r =>
      (r.2, (r.1.mem .sentinel).left)) = some (some ([6, 5, 4, 3, 1], .obj 4)) := by
    decide +kernel
  rw [hs] at hlinks hafter
  simp only [Option.map_some, Option.some.injEq, Prod.mk.injEq, Option.map_eq_some_iff]
    at hlinks hafter
  obtain ⟨hinner, hchild, hleft, hright⟩ := hlinks
  obtain ⟨⟨s', l'⟩, hremove, rfl, hroot⟩ := hafter
  refine ⟨s', RbCall.run_rbRun (script_rbRun hs (by simp [cs])) hremove ?_, hroot⟩
  rintro _ ⟨⟩ f - hf
  obtain rfl : f = 2 := by simp only [byValue] at hf; omega
  exact .inr ⟨hinner, by rw [hchild]; exact hleft, by rw [hchild]; exact hright⟩

theorem rbtree_iterates_sorted_run : ∃ s, (s.mem .sentinel).left = .obj 4 ∧
    IteratesSorted byValue s {a | a ∈ [6, 5, 4, 3, 1]} := by
  obtain ⟨s, hs, hroot⟩ := exists_run
  exact ⟨s, hroot, rbtree_iterates_sorted byValue_strictTotal hs⟩

theorem rbtree_refines_set_run : ∃ s, (s.mem .sentinel).left = .obj 4 ∧
    RefinesSet byValue (RemovalOk byValue) s {a | a ∈ [6, 5, 4, 3, 1]} := by
  obtain ⟨s, hs, hroot⟩ := exists_run
  exact ⟨s, hroot, rbtree_refines_set byValue_strictTotal hs⟩

end Cldm
