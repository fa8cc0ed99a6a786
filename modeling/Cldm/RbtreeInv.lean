/-
The invariant of the threaded red-black tree, and searching.

`RbInv track compare s t` says that the state `s` represents the red-black
search tree `t` (`track` names the sides on which the threads are right).  The
stored nodes are the keys of `t` (`RbInv.stored`), so that `cldm_rbtree_find`,
`cldm_rbtree_size` and `cldm_rbtree_empty` can be read off it.

`Surrounds compare ctx x` is what a descent towards `x` knows: every node in
front of the hole comes before `x` and every node behind it after.
-/
import Cldm.RbtreeRep

namespace Cldm

open Prog ColorTree

/-! ### The order given by the comparison -/

namespace StrictTotal

variable {α : Type} {compare : α → α → ℤ} (hc : StrictTotal compare)
include hc

theorem self (a : α) : compare a a = 0 := by
  have h := hc.swap a a
  by_contra hne
  rcases lt_or_gt_of_ne hne with h' | h'
  · exact absurd (h.mpr h') (by omega)
  · exact absurd (h.mp h') (by omega)

theorem lt_trans {a b c : α} (hab : 0 < compare a b) (hbc : 0 ≤ compare b c) :
    0 < compare a c := by
  by_contra h
  have hca : 0 ≤ compare c a := by
    by_contra h'
    exact h ((hc.swap a c).mpr (by omega))
  have hba := hc.trans b c a hbc hca
  exact absurd ((hc.swap a b).mp hab) (by omega)

theorem trans_lt {a b c : α} (hab : 0 ≤ compare a b) (hbc : 0 < compare b c) :
    0 < compare a c := by
  by_contra h
  have hca : 0 ≤ compare c a := by
    by_contra h'
    exact h ((hc.swap a c).mpr (by omega))
  have hcb := hc.trans c a b hca hab
  exact absurd ((hc.swap b c).mp hbc) (by omega)

theorem nonneg_iff {a b : α} : 0 ≤ compare a b ↔ compare b a ≤ 0 := by
  have h := hc.swap b a
  constructor <;> intro h' <;> by_contra hn
  · exact absurd (h.mp (by omega)) (by omega)
  · exact absurd (h.mpr (by omega)) (by omega)

theorem eq_symm {a b : α} (h : compare a b = 0) : compare b a = 0 := by
  have h₁ := (hc.nonneg_iff (a := a) (b := b)).mp (by omega)
  have h₂ := (hc.nonneg_iff (a := b) (b := a)).mpr (by omega)
  omega

end StrictTotal

/-- The keys come in strictly ascending order. -/
def Ordered {α : Type} (compare : α → α → ℤ) (l : List α) : Prop :=
  l.Pairwise fun a b => 0 < compare a b

/-- The side of `a` on which `x` belongs. -/
def Toward {α : Type} (compare : α → α → ℤ) (a x : α) : Side → Prop
  | .left => compare a x < 0
  | .right => 0 < compare a x

/-- Nodes in front of the hole come before `x`, nodes behind it after. -/
structure Surrounds {α : Type} (compare : α → α → ℤ) (ctx : Context α) (x : α) : Prop where
  before : ∀ a ∈ ctx.before, 0 < compare a x
  after : ∀ a ∈ ctx.after, compare a x < 0

section Order

variable {α : Type} {compare : α → α → ℤ} {ctx : Context α}

theorem toward_rbdir {a x : α} (h : compare a x ≠ 0) :
    Toward compare a x (rbdir (compare a x > 0)) := by
  by_cases hpos : compare a x > 0
  · simp [rbdir, hpos, Toward]
  · simp only [rbdir, hpos, decide_false, Bool.false_eq_true, if_false, Toward]
    omega

theorem Toward.rbdir_eq {a x : α} {d : Side} (h : Toward compare a x d) :
    rbdir (compare a x > 0) = d := by
  cases d with
  | left =>
    have hneg : ¬ 0 < compare a x := by simp only [Toward] at h; omega
    simp [rbdir, hneg]
  | right =>
    have hpos : 0 < compare a x := h
    simp [rbdir, hpos]

/-- A node of a child lies on the side of that child. -/
theorem Ordered.toward (hc : StrictTotal compare) {d : Side} {c : Color} {u y : ColorTree α}
    {q a : α} (h : Ordered compare (branch d c u q y).toList) (ha : a ∈ u.toList) :
    Toward compare q a d := by
  cases d with
  | left =>
    exact (hc.swap a q).mp ((List.pairwise_append.mp h).2.2 a ha q (List.mem_cons_self ..))
  | right => exact (List.pairwise_cons.mp (List.pairwise_append.mp h).2.1).1 a ha

theorem Ordered.nodup (hc : StrictTotal compare) {l : List α} (h : Ordered compare l) :
    l.Nodup :=
  List.Pairwise.imp (fun {a b} hab he => by subst he; rw [hc.self a] at hab; omega) h

theorem Ordered.distinct (hc : StrictTotal compare) {t : ColorTree α}
    (h : Ordered compare (ctx.plug t).toList) : Distinct ctx t :=
  distinct_plug.mp (h.nodup hc)

theorem Ordered.of_plug {t : ColorTree α} (h : Ordered compare (ctx.plug t).toList) :
    Ordered compare t.toList := by
  rw [Context.toList_plug] at h
  exact (List.pairwise_append.mp (List.pairwise_append.mp h).1).2.1

theorem Ordered.of_plug_eq {t : ColorTree α} {l : List α} (h : Ordered compare l)
    (hl : (ctx.plug t).toList = l) : Ordered compare t.toList :=
  Ordered.of_plug (hl ▸ h)

/-- Going down on the side of `x` keeps the context around `x`. -/
theorem Surrounds.descend (hc : StrictTotal compare) {d : Side} {c : Color} {t y : ColorTree α}
    {q x : α} (hl : Ordered compare (branch d c t q y).toList) (h : Surrounds compare ctx x)
    (hd : Toward compare q x d) : Surrounds compare (⟨d, c, q, y⟩ :: ctx) x := by
  cases d with
  | left =>
    have hy : ∀ a ∈ y.toList, 0 < compare q a :=
      (List.pairwise_cons.mp (List.pairwise_append.mp hl).2.1).1
    refine ⟨h.before, fun a ha => ?_⟩
    simp only [Context.after, List.mem_cons, List.mem_append] at ha
    rcases ha with rfl | ha | ha
    · exact hd
    · have hxq : 0 < compare x q := (hc.swap x q).mpr hd
      exact (hc.swap x a).mp (hc.lt_trans hxq (hy a ha).le)
    · exact h.after a ha
  | right =>
    have hy : ∀ a ∈ y.toList, 0 < compare a q := fun a ha =>
      (List.pairwise_append.mp hl).2.2 a ha q (List.mem_cons_self ..)
    refine ⟨fun a ha => ?_, h.after⟩
    simp only [Context.before, List.mem_append, List.mem_singleton] at ha
    rcases ha with ha | ha | rfl
    · exact h.before a ha
    · exact hc.lt_trans (hy a ha) (le_of_lt hd)
    · exact hd

/-- When the context surrounds `x`, only the subtree can hold a node equal to it. -/
theorem Surrounds.mem_of_eq {t : ColorTree α} {x a : α} (h : Surrounds compare ctx x)
    (ha : a ∈ (ctx.plug t).toList) (hax : compare a x = 0) : a ∈ t.toList := by
  rw [Context.toList_plug, List.mem_append, List.mem_append] at ha
  rcases ha with (ha | ha) | ha
  · exact absurd (h.before a ha) (by omega)
  · exact ha
  · exact absurd (h.after a ha) (by omega)

/-- Around `x` and at an empty hole, no node of the tree is equal to `x`. -/
theorem Surrounds.ne_of_nil {x a : α} (h : Surrounds compare ctx x)
    (ha : a ∈ (ctx.plug nil).toList) : compare a x ≠ 0 := fun hax => by
  have hmem := h.mem_of_eq ha hax
  simp [toList] at hmem

theorem length_child (d : Side) (c : Color) (u y : ColorTree α) (q : α) :
    u.toList.length < (branch d c u q y).toList.length := by
  rw [(perm_toList_branch d c u y q).length_eq, List.length_cons, List.length_append]
  omega

end Order

/-! ### The invariant -/

/-- The state represents the red-black search tree `t`. -/
structure RbInv {α : Type} (track : Side → Prop) (compare : α → α → ℤ) (s : RbState α)
    (t : ColorTree α) : Prop where
  rep : ZRep track s.mem [] t
  ordered : Ordered compare t.toList
  redBlack : ∃ n, t.RedBlack .black n
  size : s.size = t.toList.length

section Reading

variable {α : Type} [DecidableEq α] {track : Side → Prop} {compare : α → α → ℤ} {s : RbState α}
  {t : ColorTree α}

omit [DecidableEq α] in
theorem ZRep.linked_root {m : RbMem α} {ctx : Context α} {a : α} (h : ZRep track m ctx t)
    (ha : a ∈ t.toList) (hr : ∀ k, t.rootKey = some k → Linked m (.obj k)) : Linked m (.obj a) := by
  induction t generalizing ctx with
  | nil => simp [toList] at ha
  | node c l k r ihl ihr =>
    have hk := hr k rfl
    simp only [toList, List.mem_append, List.mem_cons] at ha
    rcases ha with ha | rfl | ha
    · refine ihl (zRep_branch (d := .left) |>.mp h) ha fun j hj => ?_
      obtain ⟨hthread, hlink⟩ := h.child_link (d := .left) hj
      exact hlink ▸ hk.child hthread
    · exact hk
    · refine ihr (zRep_branch (d := .right) |>.mp h) ha fun j hj => ?_
      obtain ⟨hthread, hlink⟩ := h.child_link (d := .right) hj
      exact hlink ▸ hk.child hthread

omit [DecidableEq α] in
/-- A linked node is the root of a subtree. -/
theorem ZRep.linked_zipper {m : RbMem α} {p : RbPtr α} (h : ZRep track m [] t)
    (hp : Linked m p) :
    ∃ ctx sub a, Context.plug ctx sub = t ∧ sub.rootKey = some a ∧ p = .obj a := by
  -- a link that is no thread leads to a nonempty subtree
  have hroot : ∀ {ctx : Context α} {sub : ColorTree α}, ZRep track m ctx sub →
      (m (holder ctx)).isThread (side ctx) = false →
      ∃ a, sub.rootKey = some a ∧ (m (holder ctx)).link (side ctx) = .obj a := by
    intro ctx sub hz hthread
    rcases sub with _ | ⟨c, l, a, r⟩
    · rw [hz.1.isThread_iff.mpr rfl] at hthread
      exact absurd hthread (by simp)
    · exact ⟨a, rfl, (hz.1.link_eq rfl).2⟩
  induction hp with
  | root hthread =>
    obtain ⟨a, ha, hlink⟩ := hroot h hthread
    exact ⟨[], t, a, rfl, ha, hlink⟩
  | @child p d _ hthread ih =>
    obtain ⟨ctx, sub, a, hplug, ha, rfl⟩ := ih
    obtain ⟨c, x, k, y, rfl⟩ := exists_branch d (t := sub) (by rintro rfl; simp [rootKey] at ha)
    obtain rfl : k = a := by simpa using ha
    have hz : ZRep track m (⟨d, c, k, y⟩ :: ctx) x := by
      rw [← zRep_branch, ← zRep_plug, hplug]
      exact h
    obtain ⟨j, hj, hlink⟩ := hroot hz hthread
    exact ⟨⟨d, c, k, y⟩ :: ctx, x, j, hplug, hj, hlink⟩

omit [DecidableEq α] in
theorem mem_toList_plug {ctx : Context α} {sub : ColorTree α} {a : α}
    (ha : a ∈ sub.toList) : a ∈ (ctx.plug sub).toList := by
  rw [Context.toList_plug]
  exact List.mem_append_left _ (List.mem_append_right _ ha)

omit [DecidableEq α] in
/-- The stored nodes are the keys of the represented tree. -/
theorem ZRep.mem_stored (h : ZRep track s.mem [] t) {a : α} : a ∈ s.stored ↔ a ∈ t.toList := by
  constructor
  · intro ha
    obtain ⟨ctx, sub, b, rfl, hb, hab⟩ := h.linked_zipper ha
    obtain rfl := RbPtr.obj.inj hab
    exact mem_toList_plug (rootKey_mem hb)
  · intro ha
    refine h.linked_root ha fun k hk => ?_
    obtain ⟨hthread, hlink⟩ := h.1.link_eq hk
    exact hlink ▸ .root hthread

omit [DecidableEq α] in
theorem RbInv.mem_stored (h : RbInv track compare s t) {a : α} : a ∈ s.stored ↔ a ∈ t.toList :=
  h.rep.mem_stored

omit [DecidableEq α] in
theorem RbInv.stored_eq (h : RbInv track compare s t) : s.stored = {a | a ∈ t.toList} :=
  Set.ext fun _ => h.mem_stored

/-- `cldm_rbnode_make_black` on the root. -/
theorem wp_blacken_root {m : RbMem α} {k : ℕ} {a : α} (h : ZRep track m [] t) (ht : t.toList.Nodup)
    (ha : a ∈ t.toList) (hrb : ∃ c n, t.RedBlack c n) :
    wp (do rbnodeMakeBlack (← rbroot)) (fun _ s => s.size = k ∧ ZRep track s.mem [] (t.paint .black) ∧
      ∃ n, (t.paint .black).RedBlack .black n) ⟨m, k⟩ := by
  rcases t with _ | ⟨c, l, q, r⟩
  · simp [toList] at ha
  have hlink : (m .sentinel).link .left = .obj q := (h.1.link_eq (k := q) rfl).2
  simp only [wp_bind, wp_rbroot, hlink, ne_eq, reduceCtorEq, not_false_eq_true,
    wp_rbnodeMakeBlack, true_and]
  obtain ⟨c', n, hrb⟩ := hrb
  have hd : Distinct [] (node c l q r) := distinct_plug.mp ht
  exact ⟨h.paint hd rfl .black, hrb.exists_paint_black⟩

/-! ### Searching -/

/-- `cldm_rbtree_empty` tells whether the tree is empty. -/
theorem RbInv.empty (h : RbInv track compare s t) :
    rbtreeEmpty s = some (decide (t = nil), s) := by
  have hflags : ((s.mem .sentinel).flags = rbLeaf) = (t = nil) := by
    rcases t with _ | ⟨c, l, k, r⟩
    · exact propext (iff_of_true h.rep.1.2 rfl)
    · refine propext (iff_of_false ?_ (by simp))
      rw [h.rep.1.2.1]
      decide
  simp [rbtreeEmpty, bind_apply, load, hflags]

/-- `cldm_rbtree_find` returns a stored node equal to its argument, or null when
there is none. -/
theorem RbInv.find (hc : StrictTotal compare) (h : RbInv track compare s t) (x : α) :
    Total (rbtreeFind compare x) (fun r s' => s' = s ∧
      ((∃ a ∈ t.toList, compare a x = 0 ∧ r = .obj a) ∨
        (r = .null ∧ ∀ a ∈ t.toList, compare a x ≠ 0))) s := by
  obtain ⟨m, size⟩ := s
  -- the focus of the descent: `n` is the link into the hole of a context around `x`
  let I : ℕ → RbPtr α × RbPtr α × Side → RbState α → Prop := fun k v s =>
    s = ⟨m, size⟩ ∧ ∃ ctx sub, Context.plug ctx sub = t ∧ Surrounds compare ctx x ∧
      v = (holder ctx, (m (holder ctx)).link (side ctx), side ctx) ∧ k = sub.toList.length
  have step : ∀ k v s, I k v s → Total (fun _ => rbtreeFindBody compare (.obj x) v)
      (fun r s' => Sum.elim (fun v' => ∃ k' < k, I k' v' s') (fun r => s' = ⟨m, size⟩ ∧
        ((∃ a ∈ t.toList, compare a x = 0 ∧ r = .obj a) ∨
          (r = .null ∧ ∀ a ∈ t.toList, compare a x ≠ 0))) r) s := by
    rintro k _ _ ⟨rfl, ctx, sub, rfl, hs, rfl, rfl⟩
    have hz := zRep_plug.mp h.rep
    refine Total.const ?_
    rcases sub with _ | ⟨c, l, a, r⟩
    · have hthread := hz.1.isThread_iff.mpr rfl
      simp only [rbtreeFindBody, wp_bind, holder_ne_null, ne_eq, not_false_eq_true,
        wp_rbnodeIsThread, hthread, Bool.not_true, Bool.false_eq_true, if_false, wp_pure]
      exact ⟨trivial, .inr ⟨rfl, fun a ha => hs.ne_of_nil ha⟩⟩
    · obtain ⟨hthread, hlink⟩ := hz.1.link_eq (k := a) rfl
      simp only [rbtreeFindBody, wp_bind, holder_ne_null, ne_eq, not_false_eq_true,
        wp_rbnodeIsThread, hthread, Bool.not_false, if_true, hlink, wp_compareAt, wp_ite,
        wp_pure, reduceCtorEq, wp_link]
      split_ifs with hrel
      · exact ⟨trivial, .inl ⟨a, mem_toList_plug (by simp [toList]), hrel, rfl⟩⟩
      · set d := rbdir (compare a x > 0) with hd
        obtain ⟨u, v, hbranch⟩ := node_eq_branch d c l a r
        have hord : Ordered compare (branch d c u a v).toList := by
          rw [← hbranch]
          exact h.ordered.of_plug
        refine ⟨u.toList.length, ?_, rfl, ⟨d, c, a, v⟩ :: ctx, u, ?_, ?_, rfl, rfl⟩
        · rw [hbranch]
          exact length_child d c u v a
        · rw [hbranch]
          rfl
        · exact hs.descend hc hord (toward_rbdir hrel)
  have hstart : I t.toList.length (.sentinel, (m .sentinel).link .left, .left) ⟨m, size⟩ :=
    ⟨rfl, [], t, rfl, ⟨by simp [Context.before], by simp [Context.after]⟩, rfl, rfl⟩
  refine Total.wp_bind (g := fun r n =>
    fuelLoop (rbtreeFindBody compare (.obj x)) n (.sentinel, r, .left)) ?_
  rw [wp_rbroot]
  exact total_loop step _ _ _ hstart

/-- `cldm_rbtree_find_parent_of` finds the node above a stored node. -/
theorem findParentOf_spec (hc : StrictTotal compare) {m : RbMem α} {k : ℕ} {ctx : Context α}
    {sub : ColorTree α} {f : α} (h : ZRep track m ctx sub)
    (hord : Ordered compare (ctx.plug sub).toList) (hf : sub.rootKey = some f) :
    Total (rbtreeFindParentOf compare (.obj f)) (fun r s' => r = holder ctx ∧ s' = ⟨m, k⟩)
      ⟨m, k⟩ := by
  -- `low` is the part of the path that is still below
  let I : ℕ → RbPtr α × RbPtr α × Side → RbState α → Prop := fun j v s =>
    s = ⟨m, k⟩ ∧ ∃ low up, ctx = low ++ up ∧
      v = (holder up, (m (holder up)).link (side up), side up) ∧ j = low.length
  have step : ∀ j v s, I j v s → Total (fun _ => rbtreeFindParentBody compare (.obj f) v)
      (fun r s' => Sum.elim (fun v' => ∃ j' < j, I j' v' s')
        (fun r => r = holder ctx ∧ s' = ⟨m, k⟩) r) s := by
    rintro j _ _ ⟨rfl, low, up, rfl, rfl, rfl⟩
    refine Total.const ?_
    have hz : ZRep track m up (Context.plug low sub) := zRep_append.mpr h
    rcases List.eq_nil_or_concat low with rfl | ⟨low, g, rfl⟩
    · have hlink := (hz.1.link_eq hf).2
      simp [rbtreeFindParentBody, holder_ne_null, hlink]
    · rw [List.concat_eq_append] at hz h hord ⊢
      rw [Context.plug_append] at hz
      have hroot : (Context.plug [g] (Context.plug low sub)).rootKey = some g.key :=
        rootKey_branch _ _ _ _ _
      obtain ⟨hthread, hlink⟩ := hz.1.link_eq hroot
      rw [Context.plug_append, Context.plug_append] at hord
      have hmem : f ∈ (Context.plug low sub).toList := mem_toList_plug (rootKey_mem hf)
      have htoward : Toward compare g.key f g.side := hord.of_plug.toward hc hmem
      have hne : g.key ≠ f := by
        rintro rfl
        cases hs : g.side <;> simp only [hs, Toward, hc.self] at htoward <;> omega
      simp only [rbtreeFindParentBody, wp_bind, holder_ne_null, ne_eq, not_false_eq_true,
        wp_rbnodeIsThread, hthread, Bool.not_false, hlink, RbPtr.obj.injEq, hne, decide_true,
        Bool.and_self, if_true, wp_compareAt, htoward.rbdir_eq, reduceCtorEq, wp_link, wp_pure]
      exact ⟨low.length, by simp, rfl, low, g :: up, by simp, rfl, rfl⟩
  refine Total.wp_bind (g := fun r n =>
    fuelLoop (rbtreeFindParentBody compare (.obj f)) n (.sentinel, r, .left)) ?_
  rw [wp_rbroot]
  exact total_loop step _ _ _ ⟨rfl, ctx, [], by simp, rfl, rfl⟩

end Reading

end Cldm
