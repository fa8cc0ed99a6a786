/-
Rotations on the represented tree.

`rbtreeRotateSingle_rep` says what the rotation of `cldm_rbtree.c` does to a
represented subtree, for both directions at once.  `rotateSingle_relink` and
`rotateDouble_relink` add the write to the link above, which every caller
makes, so that the whole tree is represented again.

Threads that the representation does not track lead anywhere.  `NoneBack` says
that no right link of the tree comes to lead to an earlier node: a rotation
redirects links to children only.
-/
import Cldm.RbtreeRep

namespace Cldm

open Prog ColorTree

variable {α : Type} [DecidableEq α] {track : Side → Prop} {m m' : RbMem α} {k : ℕ}

/-- Whether the child behind a link is red, threads counting as black. -/
theorem wp_isRedSafe {q : RbPtr α} {d : Side} {x : ColorTree α} {b : RbPtr α}
    {b' : Side → RbPtr α} {Q : Bool → RbState α → Prop} (hq : q ≠ .null)
    (hl : LinkRep track m q d x b) (hx : Rep track m x b') :
    wp (rbnodeIsRedSafe q d) Q ⟨m, k⟩ ↔ Q x.isRed ⟨m, k⟩ := by
  rcases x with _ | ⟨c, l, a, r⟩
  · simp [rbnodeIsRedSafe, hq, hl.1, isRed]
  · have hc : (m (.obj a)).color = c := hx.1
    cases c <;> simp [rbnodeIsRedSafe, hq, hl.1, hl.2, hc, isRed]

omit [DecidableEq α] in
/-- What the memory must contain after a rotation of `a` in direction `d`. -/
theorem Rep.rotated {b : Side → RbPtr α} {d : Side} {c c' : Color} {x y z : ColorTree α} {a n : α}
    (h : Rep track m (branch d c x a (branch d c' y n z)) b)
    (hnd : (branch d c x a (branch d c' y n z)).toList.Nodup)
    (hac : (m' (.obj a)).color = .red) (hnc : (m' (.obj n)).color = .black)
    (had : (m' (.obj a)).isThread d = (m (.obj a)).isThread d ∧
      (m' (.obj a)).link d = (m (.obj a)).link d)
    (hnf : (m' (.obj n)).isThread d.flip = (m (.obj n)).isThread d.flip ∧
      (m' (.obj n)).link d.flip = (m (.obj n)).link d.flip)
    (hn : (m' (.obj n)).isThread d = false ∧ (m' (.obj n)).link d = .obj a)
    (ha : LinkRep track m' (.obj a) d.flip y (.obj n))
    (hm : ∀ q, q ≠ .obj a → q ≠ .obj n → m' q = m q) :
    Rep track m' (branch d .black (branch d .red x a y) n z) b := by
  obtain ⟨-, ⟨hax, -⟩, hx, hn'⟩ := rep_branch.mp h
  obtain ⟨-, ⟨-, hnz⟩, hy, hz⟩ := rep_branch.mp hn'
  obtain ⟨-, hin, hax', hai, hxi⟩ := nodup_branch hnd
  obtain ⟨-, -, hny', hnz', -⟩ := nodup_branch hin
  have hother : ∀ {t : ColorTree α}, a ∉ t.toList → n ∉ t.toList → ∀ e ∈ t.toList,
      m' (.obj e) = m (.obj e) := by
    intro t h₁ h₂ e he
    refine hm _ ?_ ?_
    · rintro ⟨rfl⟩; exact h₁ he
    · rintro ⟨rfl⟩; exact h₂ he
  have hnx : n ∉ x.toList := fun h => hxi n h (mem_toList_branch.mpr (.inl rfl))
  have hay : a ∉ y.toList := fun h => hai (mem_toList_branch.mpr (.inr (.inl h)))
  have haz : a ∉ z.toList := fun h => hai (mem_toList_branch.mpr (.inr (.inr h)))
  have hax₁ : LinkRep track m' (.obj a) d x (b d) := by
    cases x <;> simpa only [LinkRep, had.1, had.2] using hax
  have hnz₁ : LinkRep track m' (.obj n) d.flip z (b d.flip) := by
    rw [Function.update_of_ne (Side.flip_ne d)] at hnz
    cases z <;> simpa only [LinkRep, hnf.1, hnf.2] using hnz
  have hx₁ := hx.frame (hother hax' hnx)
  have hy₁ := hy.frame (hother hay hny')
  have hz₁ := hz.frame (hother haz hnz')
  rw [Function.update_comm (Side.ne_flip d)] at hy₁
  rw [Function.update_idem] at hz₁
  refine rep_branch.mpr ⟨hnc, ⟨?_, hnz₁⟩, rep_branch.mpr ⟨hac, ⟨?_, ?_⟩, ?_, hy₁⟩, hz₁⟩
  · cases d <;> exact hn
  · rwa [Function.update_of_ne (Side.ne_flip d)]
  · rwa [Function.update_self]
  · rwa [Function.update_idem]

/-- Every link that differs in `m'` is a child link there. -/
def Relinked (m m' : RbMem α) : Prop :=
  ∀ p e, (m' p).link e = (m p).link e ∨ (m' p).isThread e = false

omit [DecidableEq α] in
theorem relinked_of {a n : RbPtr α} {d : Side} (hm : ∀ q, q ≠ a → q ≠ n → m' q = m q)
    (ha : (m' a).link d = (m a).link d)
    (ha' : (m' a).link d.flip = (m a).link d.flip ∨ (m' a).isThread d.flip = false)
    (hn : (m' n).isThread d = false) (hn' : (m' n).link d.flip = (m n).link d.flip) :
    Relinked m m' := by
  intro q e
  by_cases hqn : q = n
  · subst hqn
    rcases Side.eq_or_eq_flip d e with rfl | rfl
    · exact .inr hn
    · exact .inl hn'
  by_cases hqa : q = a
  · subst hqa
    rcases Side.eq_or_eq_flip d e with rfl | rfl
    · exact .inl ha
    · exact ha'
  · exact .inl (by rw [hm q hqa hqn])

theorem rbtreeRotateSingle_rep {b : Side → RbPtr α} {d : Side} {c c' : Color}
    {x y z : ColorTree α} {a n : α} (h : Rep track m (branch d c x a (branch d c' y n z)) b)
    (hnd : (branch d c x a (branch d c' y n z)).toList.Nodup) :
    wp (rbtreeRotateSingle (.obj a) d) (fun r s => r = .obj n ∧ s.size = k ∧
      Rep track s.mem (branch d .black (branch d .red x a y) n z) b ∧
      (∀ q, q ≠ .obj a → q ≠ .obj n → s.mem q = m q) ∧ Relinked m s.mem ∧
      (s.mem (.obj n)).link d.flip = (m (.obj n)).link d.flip) ⟨m, k⟩ := by
  obtain ⟨-, ⟨-, han⟩, -, hn⟩ := rep_branch.mp h
  obtain ⟨-, ⟨hny, -⟩, -, -⟩ := rep_branch.mp hn
  obtain ⟨-, -, -, hai, -⟩ := nodup_branch hnd
  have hne : a ≠ n := fun h => hai (mem_toList_branch.mpr (.inl h))
  obtain ⟨hant, hanl⟩ : (m (.obj a)).isThread d.flip = false ∧
      (m (.obj a)).link d.flip = .obj n := by
    cases d <;> exact han
  rcases y with _ | ⟨cy, ly, ky, ry⟩
  · -- the inner subtree is empty: the thread from n to a becomes a child link
    have hnt : (m (.obj n)).isThread d = true := hny.1
    simp only [rbtreeRotateSingle, ne_eq, reduceCtorEq, not_false_eq_true, wp_bind, wp_link,
      hanl, wp_rbnodeIsThread, hnt, if_true, wp_rbnodeSetThread, wp_rbnodeUnsetThread,
      wp_setLink, wp_rbnodeMakeRed, wp_rbnodeMakeBlack, wp_pure]
    refine ⟨trivial, trivial, h.rotated hnd ?_ ?_ ?_ ?_ ?_ ?_ ?_, ?_,
      relinked_of (a := .obj a) (n := .obj n) (d := d) ?_ ?_ ?_ ?_ ?_, ?_⟩ <;>
      simp +contextual [hne, hne.symm, LinkRep, hanl]
  · obtain ⟨hnt, hnl⟩ := hny
    simp only [rbtreeRotateSingle, ne_eq, reduceCtorEq, not_false_eq_true, wp_bind, wp_link,
      hanl, wp_rbnodeIsThread, hnt, if_false, Bool.false_eq_true, hnl,
      wp_setLink, wp_rbnodeMakeRed, wp_rbnodeMakeBlack, wp_pure]
    refine ⟨trivial, trivial, h.rotated hnd ?_ ?_ ?_ ?_ ?_ ?_ ?_, ?_,
      relinked_of (a := .obj a) (n := .obj n) (d := d) ?_ ?_ ?_ ?_ ?_, ?_⟩ <;>
      simp +contextual [hne, hne.symm, LinkRep, hant, hnt]

/-! ### Right links -/

section NoneBack

omit [DecidableEq α]

/-- No right link comes to lead to an earlier one of `keys`. -/
def NoneBack (keys : List α) (m m' : RbMem α) : Prop :=
  ∀ a b, [a, b].Sublist keys → (m' (.obj b)).link .right = .obj a →
    (m (.obj b)).link .right = .obj a

theorem NoneBack.trans {keys : List α} {m'' : RbMem α} (h : NoneBack keys m m')
    (h' : NoneBack keys m' m'') : NoneBack keys m m'' :=
  fun a b hab hlink => h a b hab (h' a b hab hlink)

theorem noneBack_of_links {keys : List α} (h : ∀ q e, (m' q).link e = (m q).link e) :
    NoneBack keys m m' := by
  intro a b _ hlink
  rw [← hlink, h]

theorem not_sublist_swap {a b : α} {l : List α} (hl : l.Nodup) (h : [a, b].Sublist l) :
    ¬ [b, a].Sublist l := by
  induction l with
  | nil => exact fun _ => absurd (List.sublist_nil.mp h) (by simp)
  | cons c l ih =>
    obtain ⟨hc, hl⟩ := List.nodup_cons.mp hl
    intro h'
    rcases List.sublist_cons_iff.mp h with hab | ⟨r, hr, hb⟩
    · rcases List.sublist_cons_iff.mp h' with hba | ⟨r, hr, -⟩
      · exact ih hl hab hba
      · obtain ⟨rfl, -⟩ := List.cons.inj hr
        exact hc (hab.subset (List.mem_cons_of_mem a (List.mem_singleton_self b)))
    · obtain ⟨rfl, rfl⟩ := List.cons.inj hr
      rcases List.sublist_cons_iff.mp h' with hba | ⟨r, hr, -⟩
      · exact hc (hba.subset (List.mem_cons_of_mem b (List.mem_singleton_self a)))
      · obtain ⟨rfl, -⟩ := List.cons.inj hr
        exact hc (hb.subset (List.mem_singleton_self b))

/-- Every node is the root of a subtree. -/
theorem exists_plug_of_mem {t : ColorTree α} {b : α} (hb : b ∈ t.toList) :
    ∃ ctx c l r, Context.plug ctx (node c l b r) = t := by
  induction t with
  | nil => simp [toList] at hb
  | node c l k r ihl ihr =>
    simp only [toList, List.mem_append, List.mem_cons] at hb
    rcases hb with hb | rfl | hb
    · obtain ⟨ctx, c', l', r', rfl⟩ := ihl hb
      exact ⟨ctx ++ [⟨.left, c, k, r⟩], c', l', r', Context.plug_append _ _ _⟩
    · exact ⟨[], c, l, r, rfl⟩
    · obtain ⟨ctx, c', l', r', rfl⟩ := ihr hb
      exact ⟨ctx ++ [⟨.right, c, k, l⟩], c', l', r', Context.plug_append _ _ _⟩

theorem sublist_right_child {ctx : Context α} {c : Color} {l r : ColorTree α} {a b : α}
    (ha : r.rootKey = some a) : [b, a].Sublist (ctx.plug (node c l b r)).toList := by
  have hr : [b, a].Sublist (b :: r.toList) :=
    (List.singleton_sublist.mpr (rootKey_mem ha)).cons_cons b
  rw [Context.toList_plug]
  exact (hr.trans (List.sublist_append_right l.toList _)).trans
    ((List.sublist_append_right _ _).trans (List.sublist_append_left _ _))

theorem ZRep.noneBack {t : ColorTree α} (h : ZRep track m' [] t) (hnd : t.toList.Nodup)
    (hm : Relinked m m') : NoneBack t.toList m m' := by
  intro a b hab hlink
  rcases hm (.obj b) .right with heq | hthread
  · rwa [← heq]
  -- a child link leads to a later node
  obtain ⟨ctx, c, l, r, rfl⟩ := exists_plug_of_mem (b := b) (hab.subset (by simp))
  have hz : LinkRep track m' (.obj b) .right r (bounds ctx .right) := (zRep_plug.mp h).2.2.1.2
  rcases r with _ | ⟨c', l', a', r'⟩
  · exact absurd (hz.1.symm.trans hthread) (by simp)
  · obtain rfl : a' = a := RbPtr.obj.inj (hz.2.symm.trans hlink)
    exact absurd (sublist_right_child rfl) (not_sublist_swap hnd hab)

end NoneBack

omit [DecidableEq α] in
theorem holder_ne_obj {ctx : Context α} {t : ColorTree α} {a : α} (hd : Distinct ctx t)
    (ha : a ∈ t.toList) : RbPtr.obj a ≠ holder ctx := fun h =>
  hd.not_mem_ctx ha (holder_obj h.symm)

/-- Rotating `a` in direction `d` and linking the new root from above. -/
theorem rotateSingle_relink {ctx : Context α} {d : Side} {c c' : Color} {x y z : ColorTree α}
    {a n : α} (h : ZRep track m ctx (branch d c x a (branch d c' y n z)))
    (hd : Distinct ctx (branch d c x a (branch d c' y n z))) :
    wp (rbtreeRotateSingle (.obj a) d) (fun r s => r = .obj n ∧ s.size = k ∧
      ZRep track (Function.update s.mem (holder ctx)
        ((s.mem (holder ctx)).withLink (side ctx) (.obj n))) ctx
        (branch d .black (branch d .red x a y) n z) ∧
      (∀ q, q ≠ .obj a → q ≠ .obj n → s.mem q = m q) ∧
      NoneBack (ctx.plug (branch d c x a (branch d c' y n z))).toList m
        (Function.update s.mem (holder ctx)
          ((s.mem (holder ctx)).withLink (side ctx) (.obj n))) ∧
      (s.mem (.obj n)).link d.flip = (m (.obj n)).link d.flip) ⟨m, k⟩ := by
  refine wp_mono (rbtreeRotateSingle_rep h.2 hd.nodup) ?_
  rintro r s ⟨hr, hsize, hrep, hm, hlinks, hkept⟩
  have ha : a ∈ (branch d c x a (branch d c' y n z)).toList := mem_toList_branch.mpr (.inl rfl)
  have hn : n ∈ (branch d c x a (branch d c' y n z)).toList :=
    mem_toList_branch.mpr (.inr (.inr (mem_toList_branch.mpr (.inl rfl))))
  have hctx : CtxRep track s.mem ctx (branch d c x a (branch d c' y n z)) := by
    refine h.1.frame (hm _ (by simp) (by simp)) fun e he => hm _ ?_ ?_
    · rintro ⟨rfl⟩; exact hd.not_mem_ctx ha he
    · rintro ⟨rfl⟩; exact hd.not_mem_ctx hn he
  have hperm : (branch d .black (branch d .red x a y) n z).toList.Perm
      (branch d c x a (branch d c' y n z)).toList := by
    cases d <;> simp [branch, toList]
  have hz : ZRep track (Function.update s.mem (holder ctx)
      ((s.mem (holder ctx)).withLink (side ctx) (.obj n))) ctx
      (branch d .black (branch d .red x a y) n z) := by
    refine ⟨hctx.relink (rootKey_branch _ _ _ _ _) (rootKey_branch _ _ _ _ _) hd,
      hrep.frame fun e he => Function.update_of_ne ?_ _ _⟩
    exact holder_ne_obj hd (hperm.mem_iff.mp he)
  have hkeys : (ctx.plug (branch d .black (branch d .red x a y) n z)).toList =
      (ctx.plug (branch d c x a (branch d c' y n z))).toList := by
    rw [Context.toList_plug, Context.toList_plug]
    cases d <;> simp [branch, toList]
  have hthread := (hctx.link_eq (rootKey_branch _ _ _ _ _)).1
  refine ⟨hr, hsize, hz, hm, ?_, hkept⟩
  rw [← hkeys]
  refine (zRep_plug.mpr hz).noneBack (by rw [hkeys]; exact distinct_plug.mpr hd) ?_
  -- the link from above leads to a child before and after
  intro q e
  by_cases hq : q = holder ctx
  · subst hq
    rw [Function.update_self, Rbnode.isThread_withLink]
    rcases Side.eq_or_eq_flip (side ctx) e with rfl | rfl
    · exact .inr hthread
    · rw [Rbnode.link_withLink_flip]
      exact hlinks _ _
  · rw [Function.update_of_ne hq]
    exact hlinks q e

/-- Rotating the inner grandchild `q` of `a` to the top and linking it from above. -/
theorem rotateDouble_relink {ctx : Context α} {d : Side} {c c' c'' : Color}
    {w x y z : ColorTree α} {a n q : α}
    (h : ZRep track m ctx (branch d c x a (branch d c' (branch d c'' y q z) n w)))
    (hd : Distinct ctx (branch d c x a (branch d c' (branch d c'' y q z) n w))) :
    wp (rbtreeRotateDouble (.obj a) d) (fun r s => r = .obj q ∧ s.size = k ∧
      ZRep track (Function.update s.mem (holder ctx)
        ((s.mem (holder ctx)).withLink (side ctx) (.obj q))) ctx
        (branch d .black (branch d .red x a y) q (branch d .red z n w)) ∧
      (∀ p, p ≠ .obj a → p ≠ .obj n → p ≠ .obj q → s.mem p = m p) ∧
      NoneBack (ctx.plug (branch d c x a (branch d c' (branch d c'' y q z) n w))).toList m
        (Function.update s.mem (holder ctx)
          ((s.mem (holder ctx)).withLink (side ctx) (.obj q)))) ⟨m, k⟩ := by
  -- the inner rotation is at the child of a, in the other direction
  rw [← branch_flip d c, zRep_branch, ← branch_flip d c', ← branch_flip d c''] at h
  have hd' : Distinct (⟨d.flip, c, a, x⟩ :: ctx)
      (branch d.flip c' w n (branch d.flip c'' z q y)) := by
    rwa [distinct_cons, Frame.fill, branch_flip, branch_flip, branch_flip]
  have hlink := (h.1.link_eq (rootKey_branch _ _ _ _ _)).2
  simp only [holder, side] at hlink
  simp only [rbtreeRotateDouble, wp_bind, ne_eq, reduceCtorEq, not_false_eq_true, wp_link, hlink]
  refine wp_mono (rotateSingle_relink h hd') ?_
  rintro r ⟨m₁, k₁⟩ ⟨rfl, rfl, h₁, hm₁, hback₁, -⟩
  simp only [holder, side, zRep_cons, Frame.fill, branch_flip] at h₁
  simp only [holder, side, Context.plug, Frame.fill, branch_flip] at hback₁
  have hd₁ : Distinct ctx (branch d c x a (branch d .black y q (branch d .red z n w))) := by
    refine hd.congr ?_
    cases d <;> simp [branch, toList]
  rw [wp_bind, wp_setLink (by simp)]
  refine wp_mono (rotateSingle_relink h₁ hd₁) ?_
  rintro r ⟨m₂, k₂⟩ ⟨rfl, rfl, h₂, hm₂, hback₂, -⟩
  have hkeys : (ctx.plug (branch d c x a (branch d .black y q (branch d .red z n w)))).toList =
      (ctx.plug (branch d c x a (branch d c' (branch d c'' y q z) n w))).toList := by
    rw [Context.toList_plug, Context.toList_plug]
    cases d <;> simp [branch, toList]
  rw [hkeys] at hback₂
  refine ⟨rfl, rfl, h₂, fun p ha hn hq => ?_, hback₁.trans hback₂⟩
  exact (hm₂ p ha hq).trans ((Function.update_of_ne ha _ _).trans (hm₁ p hn hq))

end Cldm
