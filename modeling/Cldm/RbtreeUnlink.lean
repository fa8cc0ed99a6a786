/-
The end of a removal, and when it leaves a red-black search tree.

At the bottom of the tree `cldm_rbtree_remove` puts the last node `p` of the descent in
the place of the node `f` that it has found.  Where the right link of the node above `p`
does not lead to `p` as its left child, `p` is taken out and given the links of `f`
(`ZRep.detach`, `ZRep.substitute`); where it does, a child link to a node that is gone
is left behind (`Broken`).

* `ThreadsPass.right_ne` — under the condition no link misleads the code;
* `exists_pending`, `Pending.turn` — otherwise the descent leads to a link that does;
* `rbtree_remove_red_black` — the removal keeps the red-black conditions exactly under
  the condition;
* `rbtree_remove_breaks_links` — a run after which it does not.
-/
import Cldm.RbtreeLinks
import Cldm.RbtreeThreads

namespace Cldm

open Prog ColorTree

variable {α : Type} [DecidableEq α] {m : RbMem α} {k : ℕ} {compare : α → α → ℤ}

/-! ### Unlinking a node deep below -/

omit [DecidableEq α] in
theorem linksOnly_false {d : Side} : ¬ linksOnly d := id

/-- What the memory must contain once `p`, a node outside the tree, has taken the place
of `f`. -/
theorem ZRep.substitute {m' : RbMem α} {ctx : Context α} {c : Color} {l r : ColorTree α} {f p : α}
    (h : ZRep linksOnly m ctx (node c l f r)) (hd : Distinct ctx (node c l f r))
    (hp : p ∉ (ctx.plug (node c l f r)).toList) (hcol : (m' (.obj p)).color = c)
    (hnode : ∀ d, (m' (.obj p)).isThread d = (m (.obj f)).isThread d ∧
      (m' (.obj p)).link d = (m (.obj f)).link d)
    (hm : ∀ q, q ≠ .obj p → q ≠ .obj f → m' q = Function.update m (holder ctx)
      ((m (holder ctx)).withLink (side ctx) (.obj p)) q) :
    ZRep linksOnly m' ctx (node c l p r) := by
  obtain ⟨hctx, -, ⟨hl, hr⟩, hl', hr'⟩ := h
  obtain ⟨-, -, hfl, hfr, -⟩ := nodup_branch (d := .left) hd.nodup
  have hpkey : ∀ {a}, a ∈ ctxKeys ctx ∨ a ∈ (node c l f r).toList → RbPtr.obj a ≠ .obj p := by
    rintro a ha ⟨rfl⟩
    refine hp ?_
    rw [Context.toList_plug, List.mem_append, List.mem_append]
    rw [ctxKeys, List.mem_append] at ha
    tauto
  have hfctx : ∀ {a}, a ∈ ctxKeys ctx → RbPtr.obj a ≠ .obj f := by
    rintro a ha ⟨rfl⟩
    exact hd.not_mem_ctx (by simp [toList]) ha
  have hchild : ∀ {t : ColorTree α} {b b' : Side → RbPtr α}, f ∉ t.toList →
      (∀ a ∈ t.toList, a ∈ (node c l f r).toList) → Rep linksOnly m t b →
      Rep linksOnly m' t b' := by
    intro t b b' hft hsub ht
    refine (ht.frame fun a ha => ?_).congr_bounds fun d hd => absurd hd linksOnly_false
    rw [hm _ (hpkey (.inr (hsub a ha))) (by rintro ⟨rfl⟩; exact hft ha),
      Function.update_of_ne (holder_ne_obj hd (hsub a ha))]
  have hlink : ∀ {t : ColorTree α} {d : Side} {b b' : RbPtr α},
      LinkRep linksOnly m (.obj f) d t b → LinkRep linksOnly m' (.obj p) d t b' := by
    intro t d b b' ht
    obtain ⟨hthread, hlink⟩ := hnode d
    rcases t with _ | ⟨c, l, a, r⟩
    · exact ⟨hthread.trans ht.1, fun hd => absurd hd linksOnly_false⟩
    · exact ⟨hthread.trans ht.1, hlink.trans ht.2⟩
  refine ⟨?_, hcol, ⟨hlink hl, hlink hr⟩, hchild hfl (fun a ha => ?_) hl',
    hchild hfr (fun a ha => ?_) hr'⟩
  · have hrelink : CtxRep linksOnly (Function.update m (holder ctx)
        ((m (holder ctx)).withLink (side ctx) (.obj p))) ctx (node c l p r) :=
      hctx.relink rfl rfl hd
    exact hrelink.frame (hm _ (by simp) (by simp)) fun a ha => hm _ (hpkey (.inl ha)) (hfctx ha)
  · simp [toList, ha]
  · simp [toList, ha]

/-- What the memory must contain once the leaf `p`, the right child of `g`, has taken the
place of a node `f` further up. -/
theorem ZRep.replace_deep {m' : RbMem α} {mid up : Context α} {c cg : Color}
    {y sib : ColorTree α} {f g p : α}
    (h : ZRep linksOnly m (⟨.right, cg, g, sib⟩ :: mid ++ ⟨.left, c, f, y⟩ :: up)
      (node .red nil p nil))
    (hd : Distinct (⟨.right, cg, g, sib⟩ :: mid ++ ⟨.left, c, f, y⟩ :: up) (node .red nil p nil))
    (hgcol : (m' (.obj g)).color = (m (.obj g)).color)
    (hgflags : (m' (.obj g)).flags = ((m (.obj g)).flags &&& ~~~threadBit .right) |||
      ((m (.obj p)).flags &&& threadBit .right))
    (hgleft : (m' (.obj g)).link .left = (m (.obj g)).link .left)
    (hcol : (m' (.obj p)).color = (m (.obj f)).color)
    (hnode : ∀ d, (m' (.obj p)).isThread d = (m (.obj f)).isThread d ∧
      (m' (.obj p)).link d = (m (.obj f)).link d)
    (hm : ∀ q, q ≠ .obj p → q ≠ .obj f → q ≠ .obj g → m' q = Function.update m (holder up)
      ((m (holder up)).withLink (side up) (.obj p)) q) :
    ZRep linksOnly m' up
      (node c (Context.plug (⟨.right, cg, g, sib⟩ :: mid) nil) p y) := by
  set low : Context α := ⟨.right, cg, g, sib⟩ :: mid with hlow
  -- first `p` is taken out
  have hpctx : p ∉ ctxKeys (low ++ ⟨.left, c, f, y⟩ :: up) := hd.not_mem_ctx (by simp [toList])
  have hgctx : g ∈ ctxKeys (low ++ ⟨.left, c, f, y⟩ :: up) := mem_ctxKeys_cons.mpr (.inl rfl)
  have hgp : RbPtr.obj g ≠ .obj p := by
    rintro ⟨rfl⟩
    exact hpctx hgctx
  have hout : ZRep linksOnly (Function.update m (.obj g) (m' (.obj g)))
      (low ++ ⟨.left, c, f, y⟩ :: up) nil := by
    refine h.detach hd linksOnly_false ?_ ?_ ?_ fun q _ hq => Function.update_of_ne hq _ _
    · simpa [hlow, holder] using hgcol
    · simpa [hlow, holder, side] using hgflags
    · simpa [hlow, holder, side] using hgleft
  have hz : ZRep linksOnly (Function.update m (.obj g) (m' (.obj g))) up
      (node c (low.plug nil) f y) := zRep_branch (d := .left).mpr (zRep_append.mpr hout)
  have hkeys : (up.plug (node c (low.plug nil) f y)).toList =
      Context.before (low ++ ⟨.left, c, f, y⟩ :: up) ++
        Context.after (low ++ ⟨.left, c, f, y⟩ :: up) := by
    have happ := congrArg toList (Context.plug_append low (⟨.left, c, f, y⟩ :: up) nil)
    rw [Context.toList_plug] at happ
    simpa [toList, Context.plug, Frame.fill, branch] using happ.symm
  have hd' : Distinct up (node c (low.plug nil) f y) := by
    rw [← distinct_plug, hkeys]
    exact (List.nodup_append.mp hd).1
  -- then it takes the place of `f`
  have hmemg : g ∈ (node c (low.plug nil) f y).toList := by
    have hfill : g ∈ (Context.plug mid (Frame.fill ⟨.right, cg, g, sib⟩ nil)).toList :=
      mem_toList_plug (mem_toList_branch.mpr (.inl rfl))
    exact List.mem_append_left _ hfill
  have hgf : RbPtr.obj f ≠ .obj g := by
    rintro ⟨rfl⟩
    have hfill : f ∈ (Context.plug mid (Frame.fill ⟨.right, cg, f, sib⟩ nil)).toList :=
      mem_toList_plug (mem_toList_branch.mpr (.inl rfl))
    exact (nodup_branch (d := .left) hd'.nodup).2.2.1 hfill
  have hgup : holder up ≠ .obj g := (holder_ne_obj hd' hmemg).symm
  have hfcol : (m (.obj f)).color = c := by
    have := hz.2.1
    rwa [Function.update_of_ne hgf] at this
  refine hz.substitute hd' ?_ (hcol.trans hfcol) (fun d => ?_) fun q hqp hqf => ?_
  · rw [hkeys]
    exact hpctx
  · rw [Function.update_of_ne hgf]
    exact hnode d
  · rw [Function.update_of_ne hgup]
    by_cases hqg : q = .obj g
    · subst hqg
      rw [Function.update_of_ne hgup.symm, Function.update_self]
    · rw [hm q hqp hqf hqg, Function.update_apply, Function.update_apply,
        Function.update_of_ne hqg]

/-- A leaf `p` that is a right child takes the place of a node `f` further up. -/
theorem unlink_deep (hc : StrictTotal compare) {mid up : Context α} {c cg : Color}
    {y sib : ColorTree α} {f g p : α} (hy : y ≠ nil)
    (h : ZRep linksOnly m (⟨.right, cg, g, sib⟩ :: mid ++ ⟨.left, c, f, y⟩ :: up)
      (node .red nil p nil))
    (hord : Ordered compare (Context.plug
      (⟨.right, cg, g, sib⟩ :: mid ++ ⟨.left, c, f, y⟩ :: up) (node .red nil p nil)).toList)
    (hdir : rbdir ((m (holder up)).link .right = .obj f) = side up) :
    Total (rbtreeUnlink compare (.obj g) (.obj p) (.obj f) .right) (fun _ s' =>
      ZRep linksOnly s'.mem up
        (node c (Context.plug (⟨.right, cg, g, sib⟩ :: mid) nil) p y)) ⟨m, k⟩ := by
  have hd := hord.distinct hc
  have hz : ZRep linksOnly m up
      (node c (Context.plug (⟨.right, cg, g, sib⟩ :: mid) (node .red nil p nil)) f y) :=
    zRep_branch (d := .left).mpr (zRep_append.mpr h)
  have hord' : Ordered compare (up.plug (node c
      (Context.plug (⟨.right, cg, g, sib⟩ :: mid) (node .red nil p nil)) f y)).toList := by
    rw [Context.plug_append] at hord
    exact hord
  have hd' := hord'.distinct hc
  obtain ⟨hnd, -, hfL, -, hdisj⟩ := nodup_branch (d := .left) hd'.nodup
  have hpL : p ∈ (Context.plug (⟨.right, cg, g, sib⟩ :: mid) (node .red nil p nil)).toList :=
    mem_toList_plug (by simp [toList])
  have hgL : g ∈ (Context.plug (⟨.right, cg, g, sib⟩ :: mid) (node .red nil p nil)).toList := by
    have hfill : g ∈ (Context.plug mid
        (Frame.fill ⟨.right, cg, g, sib⟩ (node .red nil p nil))).toList :=
      mem_toList_plug (mem_toList_branch.mpr (.inl rfl))
    exact hfill
  have hpf : p ≠ f := by
    rintro rfl
    exact hfL hpL
  have hgf : g ≠ f := by
    rintro rfl
    exact hfL hgL
  have hgp : g ≠ p := by
    rintro rfl
    exact hd.not_mem_ctx (by simp [toList]) (mem_ctxKeys_cons.mpr (.inl rfl))
  have hup : RbPtr.obj f ≠ holder up := holder_ne_obj hd' (by simp [toList])
  have hupp : RbPtr.obj p ≠ holder up := holder_ne_obj hd' (List.mem_append_left _ hpL)
  have hupg : RbPtr.obj g ≠ holder up := holder_ne_obj hd' (List.mem_append_left _ hgL)
  have hglink : (m (.obj g)).link .right = .obj p := (h.1.link_eq (k := p) rfl).2
  -- neither child of `f` is `p`
  have hleft : (m (.obj f)).link .left ≠ .obj p := by
    obtain ⟨j, hj⟩ : ∃ j, (Context.plug (⟨.right, cg, g, sib⟩ :: mid)
        (node .red nil p nil)).rootKey = some j := by
      cases hroot : Context.plug (⟨.right, cg, g, sib⟩ :: mid) (node .red nil p nil) with
      | nil => simp [hroot, toList] at hpL
      | node c l j r => exact ⟨j, rfl⟩
    have hlink : (m (.obj f)).link .left = .obj j :=
      (ZRep.child_link (d := .left) hz hj).2
    rw [hlink]
    rintro ⟨rfl⟩
    have hmem := mem_of_rootKey_plug (by simp) hj
    exact (distinct_plug.mp hnd).not_mem_ctx (by simp [toList]) hmem
  have hright : (m (.obj f)).link .right ≠ .obj p := by
    obtain ⟨cy, ly, i, ry, rfl⟩ := exists_branch .left hy
    have hlink : (m (.obj f)).link .right = .obj i :=
      (ZRep.child_link (d := .right) hz (rootKey_branch _ _ _ _ _)).2
    rw [hlink]
    rintro ⟨rfl⟩
    exact hdisj p hpL (mem_toList_branch (d := .left).mpr (.inl rfl))
  refine Total.bind ((findParentOf_spec (k := k) hc hz hord' rfl).mono ?_)
  rintro _ _ ⟨rfl, rfl⟩
  refine Total.const ?_
  have hgdir : rbdir ((m (.obj g)).link .right = .obj p) = .right := by simp [hglink, rbdir]
  simp only [wp_bind, wp_link, holder_ne_null, ne_eq, not_false_eq_true, hdir, hgdir, reduceCtorEq]
  simp only [wp_rbnodeAssignThreadFrom, wp_setLink, wp_load, wp_store, wp_setSize, wp_link, wp_bind,
    holder_ne_null, ne_eq, not_false_eq_true, reduceCtorEq, Function.update_self,
    Function.update_of_ne, hupp, hupp.symm, hupg, hupg.symm, hpf.symm,
    hgf.symm, hgp, hgp.symm, RbPtr.obj.injEq, hleft, hright, if_false]
  refine h.replace_deep hd ?_ ?_ ?_ ?_ (fun d => ?_) fun q hqp hqf hqg => ?_
  · simp [hgf]
  · simp [hgf]
  · simp [hgf, Rbnode.withLink, Rbnode.withFlags, Rbnode.link]
  · simp [hpf, hupp, hgp.symm]
  · simp only [ne_eq, RbPtr.obj.injEq, hpf, hupp, hgp.symm, not_false_eq_true,
      Function.update_of_ne, Function.update_self]
    refine ⟨rfl, ?_⟩
    cases d <;> rfl
  · simp [Function.update_apply, hqp, hqf, hqg]

/-! ### Unlinking on the wrong side -/

/-- Child links lead to something that is no node. -/
def Broken (m : RbMem α) : Prop :=
  (∃ r, (m .sentinel).link .left = .obj r) ∧ ∃ q, Linked m q ∧ ∀ a, q ≠ .obj a

omit [DecidableEq α] in
theorem Broken.not_redBlackLinks (h : Broken m) : ¬ RedBlackLinks compare ⟨m, k⟩ := by
  rintro ⟨t, ht⟩
  obtain ⟨-, q, hq, hne⟩ := h
  obtain ⟨-, -, a, -, -, rfl⟩ := ht.layout.linked_zipper hq
  exact hne a rfl

omit [DecidableEq α] in
theorem Linked.congr {m' : RbMem α} {q : RbPtr α} (h : Linked m q)
    (hthread : ∀ q d, (m' q).isThread d = (m q).isThread d)
    (hlink : ∀ q d, (m' q).link d = (m q).link d) : Linked m' q := by
  induction h with
  | root hroot =>
    have hq : (m' .sentinel).left = (m .sentinel).left := hlink .sentinel .left
    rw [← hq]
    exact .root ((hthread _ _).trans hroot)
  | @child p d _ hchild ih =>
    rw [← hlink]
    exact ih.child ((hthread _ _).trans hchild)

omit [DecidableEq α] in
/-- The root of a subtree whose context is laid out is linked. -/
theorem CtxRep.linked {track : Side → Prop} {ctx : Context α} {t : ColorTree α} {a : α}
    (h : CtxRep track m ctx t) (ha : t.rootKey = some a) :
    Linked m (.obj a) ∧ ∃ r, (m .sentinel).link .left = .obj r := by
  obtain ⟨hthread, hlink⟩ := h.link_eq ha
  induction ctx generalizing t a with
  | nil => exact ⟨hlink ▸ .root hthread, a, hlink⟩
  | cons f ctx ih =>
    obtain ⟨hthread', hlink'⟩ := h.2.link_eq (rootKey_branch _ _ _ _ _)
    obtain ⟨hf, hroot⟩ := ih h.2 (rootKey_branch _ _ _ _ _) hthread' hlink'
    exact ⟨hlink ▸ hf.child hthread, hroot⟩

omit [DecidableEq α] in
/-- The left child link of a linked node leads to no node. -/
theorem broken_of_link {track : Side → Prop} {ctx : Context α} {t : ColorTree α} {a : α}
    (h : CtxRep track m ctx t) (ha : t.rootKey = some a)
    (hthread : (m (.obj a)).isThread .left = false)
    (hlink : ∀ b, (m (.obj a)).link .left ≠ .obj b) : Broken m := by
  obtain ⟨hlinked, hroot⟩ := h.linked ha
  exact ⟨hroot, _, hlinked.child hthread, hlink⟩

omit [DecidableEq α] in
/-- The left child of a linked node has been cleared. -/
theorem broken_of_child {track : Side → Prop} {ctx : Context α} {t : ColorTree α} {g f : α}
    (h : CtxRep track m ctx t) (hg : t.rootKey = some g)
    (hthread : (m (.obj g)).isThread .left = false) (hlink : (m (.obj g)).link .left = .obj f)
    (hf : m (.obj f) = { left := .null, right := .null, color := .black, flags := 0 }) :
    Broken m := by
  obtain ⟨hlinked, hroot⟩ := h.linked hg
  have hlinkedf : Linked m (.obj f) := hlink ▸ hlinked.child hthread
  refine ⟨hroot, (m (.obj f)).link .left, hlinkedf.child ?_, fun a => ?_⟩
  · simp [hf, Rbnode.isThread]
  · simp [hf, Rbnode.link]

/-- A leaf `f`, the left child of `g`, is unlinked from the right of `g`. -/
theorem unlink_astray (hc : StrictTotal compare) {up : Context α} {cg cf : Color}
    {y : ColorTree α} {f g : α}
    (h : ZRep linksOnly m (⟨.left, cg, g, y⟩ :: up) (node cf nil f nil))
    (hord : Ordered compare (Context.plug (⟨.left, cg, g, y⟩ :: up) (node cf nil f nil)).toList)
    (hback : (m (.obj g)).link .right = .obj f) :
    Total (rbtreeUnlink compare (.obj g) (.obj f) (.obj f) .left) (fun _ s' => Broken s'.mem)
      ⟨m, k⟩ := by
  have hd := hord.distinct hc
  have hgf : g ≠ f := by
    rintro rfl
    exact hd.frame_key.1 (by simp [toList])
  obtain ⟨hthread, hlink⟩ : (m (.obj g)).isThread .left = false ∧
      (m (.obj g)).link .left = .obj f := h.1.link_eq (k := f) rfl
  refine Total.bind ((findParentOf_spec (k := k) hc h hord rfl).mono ?_)
  rintro _ _ ⟨rfl, rfl⟩
  refine Total.const ?_
  have hdir : rbdir ((m (.obj g)).link .right = .obj f) = .right := by simp [hback, rbdir]
  simp only [holder, wp_bind, wp_link, ne_eq, not_false_eq_true, hdir, reduceCtorEq]
  simp only [wp_rbnodeAssignThreadFrom, wp_setLink, wp_load, wp_store, wp_setSize, wp_link, wp_bind,
    ne_eq, not_false_eq_true, reduceCtorEq, Function.update_self, Function.update_of_ne, hgf,
    hgf.symm, RbPtr.obj.injEq]
  have hother : ∀ {a}, a ∈ ctxKeys up → RbPtr.obj a ≠ .obj g ∧ RbPtr.obj a ≠ .obj f := by
    intro a ha
    constructor
    · rintro ⟨rfl⟩
      exact hd.frame_key.2.2 ha
    · rintro ⟨rfl⟩
      exact hd.not_mem_ctx (by simp [toList]) (mem_ctxKeys_cons.mpr (.inr (.inr ha)))
  refine broken_of_child (f := f) (h.1.2.frame ?_ fun a ha => ?_)
    (rootKey_branch _ _ _ _ _) ?_ ?_ ?_
  · simp
  · simp [(hother ha).1, (hother ha).2]
  · simp [hgf, hthread]
  · simpa [hgf, Rbnode.withLink, Rbnode.withFlags, Rbnode.link] using hlink
  · simp

/-- A leaf `a`, the left child of `f`, takes the place of `f` with a child link to itself,
which the code makes one to the sentinel. -/
theorem unlink_astray_above (hc : StrictTotal compare) {up : Context α} {c ca : Color} {f a : α}
    (h : ZRep linksOnly m up (node c (node ca nil a nil) f nil))
    (hord : Ordered compare (up.plug (node c (node ca nil a nil) f nil)).toList)
    (hdir : rbdir ((m (holder up)).link .right = .obj f) = side up)
    (hback : (m (.obj f)).link .right = .obj a) :
    Total (rbtreeUnlink compare (.obj f) (.obj a) (.obj f) .right) (fun _ s' => Broken s'.mem)
      ⟨m, k⟩ := by
  have hd := hord.distinct hc
  have hup : RbPtr.obj f ≠ holder up := holder_ne_obj hd (by simp [toList])
  have hupa : RbPtr.obj a ≠ holder up := holder_ne_obj hd (by simp [toList])
  have haf : a ≠ f := by
    rintro rfl
    exact (nodup_branch (d := .left) hd.nodup).2.2.1 (by simp [toList])
  obtain ⟨hthread, hlink⟩ : (m (.obj f)).isThread .left = false ∧
      (m (.obj f)).link .left = .obj a := ZRep.child_link (d := .left) h (j := a) rfl
  refine Total.bind ((findParentOf_spec (k := k) hc h hord rfl).mono ?_)
  rintro _ _ ⟨rfl, rfl⟩
  refine Total.const ?_
  have hdir' : rbdir ((m (.obj f)).link .right = .obj a) = .right := by simp [hback, rbdir]
  simp only [wp_bind, wp_link, holder_ne_null, ne_eq, not_false_eq_true, hdir, hdir', reduceCtorEq]
  simp only [wp_rbnodeAssignThreadFrom, wp_setLink, wp_load, wp_store, wp_setSize, wp_link, wp_bind,
    holder_ne_null, ne_eq, not_false_eq_true, reduceCtorEq, Function.update_self,
    Function.update_of_ne, hup, hup.symm, hupa, hupa.symm, haf, haf.symm, RbPtr.obj.injEq,
    Rbnode.link_withFlags, hlink, hback, if_true]
  have hrelink : CtxRep linksOnly (Function.update m (holder up)
      ((m (holder up)).withLink (side up) (.obj a))) up (node c nil a nil) :=
    h.1.relink rfl rfl hd
  have hother : ∀ {b}, b ∈ ctxKeys up → b ≠ f ∧ b ≠ a := by
    intro b hb
    constructor
    · rintro rfl
      exact hd.not_mem_ctx (by simp [toList]) hb
    · rintro rfl
      exact hd.not_mem_ctx (by simp [toList]) hb
  refine broken_of_link (a := a) (hrelink.frame ?_ fun b hb => ?_) rfl ?_ ?_
  · simp [Function.update_apply]
  · simp [Function.update_apply, (hother hb).1, (hother hb).2]
  · simp [haf, hupa, hthread]
  · simp [haf, hupa, Rbnode.withLink, Rbnode.withFlags, Rbnode.withColor, Rbnode.link]

/-! ### The links that mislead -/

section Condition

variable {s : RbState α} {t : ColorTree α} {x f a g : α}

omit [DecidableEq α] in
/-- Of two neighbours in key order one lies below the other. -/
theorem exists_adjacent {l₁ l₂ : List α} (h : t.toList = l₁ ++ a :: g :: l₂) :
    ∃ (ctx : Context α) (c : Color) (l r : ColorTree α),
      (t = ctx.plug (node c l g r) ∧ ∃ l', l.toList = l' ++ [a]) ∨
        (t = ctx.plug (node c l a r) ∧ ∃ l', r.toList = g :: l') := by
  induction t generalizing l₁ l₂ with
  | nil => simp [toList] at h
  | node c l q r ihl ihr =>
    rcases append_cons_cases h with ⟨l₃, hl, hl₂⟩ | ⟨-, rfl, hr⟩ | ⟨l₃, -, hr⟩
    · rcases l₃ with _ | ⟨b, l₃⟩
      · obtain ⟨rfl, -⟩ := List.cons.inj hl₂
        exact ⟨[], c, l, r, .inl ⟨rfl, l₁, hl⟩⟩
      · obtain ⟨rfl, -⟩ := List.cons.inj hl₂
        obtain ⟨ctx, c', l', r', hcase⟩ := ihl hl
        have hplace : ∀ u, node c (ctx.plug u) q r = Context.plug (ctx ++ [⟨.left, c, q, r⟩]) u :=
          fun u => (Context.plug_append ctx [⟨.left, c, q, r⟩] u).symm
        refine ⟨ctx ++ [⟨.left, c, q, r⟩], c', l', r',
          hcase.imp (And.imp_left fun ht => ?_) (And.imp_left fun ht => ?_)⟩
        · rw [ht, hplace]
        · rw [ht, hplace]
    · exact ⟨[], c, l, r, .inr ⟨rfl, l₂, hr⟩⟩
    · obtain ⟨ctx, c', l', r', hcase⟩ := ihr hr
      have hplace : ∀ u, node c l q (ctx.plug u) = Context.plug (ctx ++ [⟨.right, c, q, l⟩]) u :=
        fun u => (Context.plug_append ctx [⟨.right, c, q, l⟩] u).symm
      refine ⟨ctx ++ [⟨.right, c, q, l⟩], c', l', r',
        hcase.imp (And.imp_left fun ht => ?_) (And.imp_left fun ht => ?_)⟩
      · rw [ht, hplace]
      · rw [ht, hplace]

omit [DecidableEq α] in
/-- Under the condition the right link of a node does not lead to the node in front of it,
where the removal could see it. -/
theorem ThreadsPass.right_ne (hc : StrictTotal compare) (h : RbLinks compare s t)
    (hpass : ThreadsPass s f) {l₁ l₂ : List α} (hl : t.toList = l₁ ++ a :: g :: l₂)
    (hf : (f = a ∧ (s.mem (.obj f)).isThread .left = true) ∨
      (f = g ∧ (s.mem (.obj a)).isThread .right = true)) :
    (s.mem (.obj g)).link .right ≠ .obj a := by
  intro hback
  have hnd := h.ordered.nodup hc
  obtain ⟨n, hrb⟩ := h.redBlack
  have hlayout := h.layout
  have hstored : ∀ b ∈ t.toList, b ∈ s.stored := fun b hb => h.layout.mem_stored.mpr hb
  obtain ⟨ctx, c, l, r, ⟨rfl, l', hlast⟩ | ⟨rfl, l', hhead⟩⟩ := exists_adjacent hl
  · -- `a` is the last node in front of `g`
    have hz := zRep_plug.mp hlayout
    have hd := (distinct_plug.mp hnd).nodup
    have hal : a ∈ l.toList := by simp [hlast]
    have hr : r = nil := by
      by_contra hne
      obtain ⟨cr, lr, j, rr, rfl⟩ := exists_branch .left hne
      have hlink : (s.mem (.obj g)).link .right = .obj j :=
        (ZRep.child_link (d := .right) hz (rootKey_branch _ _ _ _ _)).2
      obtain rfl : j = a := RbPtr.obj.inj (hlink.symm.trans hback)
      exact (nodup_branch (d := .left) hd).2.2.2.2 j hal (mem_toList_branch.mpr (.inl rfl))
    subst hr
    have hlne : l ≠ nil := by
      rintro rfl
      simp [toList] at hal
    obtain ⟨c', n', hsub⟩ := Context.RedBlack.of_plug hrb
    obtain ⟨-, b, rfl⟩ := redBlack_branch_leaf (d := .left) hsub hlne
    obtain rfl : a = b := by simpa [toList] using hal
    have hchild : ChildOf s.mem g .left a := ZRep.child_link (d := .left) hz rfl
    exact hpass.inside g (hstored g (mem_toList_plug (by simp [toList]))) a hchild
      (hf.imp And.left And.left) hback
  · -- `g` is the first node behind `a`
    have hz := zRep_plug.mp hlayout
    have hgr : g ∈ r.toList := by simp [hhead]
    have hrne : r ≠ nil := by
      rintro rfl
      simp [toList] at hgr
    obtain ⟨-, ⟨hleft, hright⟩, -⟩ := hz.2
    rcases hf with ⟨rfl, hthread⟩ | ⟨rfl, hthread⟩
    · obtain rfl := hleft.isThread_iff.mp hthread
      obtain ⟨c', n', hsub⟩ := Context.RedBlack.of_plug hrb
      obtain ⟨-, b, rfl⟩ := redBlack_branch_leaf (d := .right) hsub hrne
      obtain rfl : g = b := by simpa [toList] using hgr
      have hchild : ChildOf s.mem f .right g := ZRep.child_link (d := .right) hz rfl
      exact hpass.beside hthread g hchild hback
    · exact hrne (hright.isThread_iff.mp hthread)

/-- Where the descent towards `f` meets the right link of `g` that leads to `a`: below it,
at `a`, or behind it. -/
inductive Pending (f a g : α) : Context α → ColorTree α → Prop where
  | inside {ctx low : Context α} {t : ColorTree α} : f = a ∨ f = g →
      t = low.plug (node .black (node .red nil a nil) g nil) → Pending f a g ctx t
  | beside {ctx low : Context α} {t : ColorTree α} : f = a →
      t = low.plug (node .black nil a (node .red nil g nil)) → Pending f a g ctx t
  | above {ctx : Context α} : f = a ∨ f = g →
      Pending f a g (⟨.left, .black, g, nil⟩ :: ctx) (node .red nil a nil)
  | bottom {e : Side} {ctx : Context α} : f = a ∧ e = .left ∨ f = g ∧ e = .right →
      Pending f a g (⟨e, .red, a, nil⟩ :: ⟨.left, .black, g, nil⟩ :: ctx) nil

omit [DecidableEq α] in
/-- Where the condition fails there is such a link. -/
theorem exists_pending (hc : StrictTotal compare) (h : RbLinks compare s t)
    (hf : f ∈ s.stored) (hnot : ¬ ThreadsPass s f) :
    ∃ a g, (s.mem (.obj g)).link .right = .obj a ∧ Pending f a g [] t := by
  have hnd := h.ordered.nodup hc
  obtain ⟨n, hrb⟩ := h.redBlack
  by_contra hnone
  push Not at hnone
  refine hnot ⟨fun g hg a hchild hfag hback => ?_, fun hthread g hchild hback => ?_⟩
  · obtain ⟨ctx, c, l, r, rfl⟩ := exists_zipper (h.layout.mem_stored.mp hg)
    have hz := zRep_plug.mp h.layout
    obtain ⟨-, ⟨hleft, hright⟩, -⟩ := hz.2
    have hlne : l ≠ nil := by
      rintro rfl
      exact absurd (hleft.1.symm.trans hchild.1) (by simp)
    -- a right child would be `a` as well
    have hr : r = nil := by
      by_contra hne
      obtain ⟨cr, lr, j, rr, rfl⟩ := exists_branch .left hne
      obtain ⟨cl, ll, i, rl, rfl⟩ := exists_branch .left hlne
      have hlink : (s.mem (.obj g)).link .right = .obj j := hright.2
      have hlink' : (s.mem (.obj g)).link .left = .obj i := hleft.2
      obtain rfl : j = a := RbPtr.obj.inj (hlink.symm.trans hback)
      obtain rfl : i = j := RbPtr.obj.inj (hlink'.symm.trans hchild.2)
      exact (nodup_branch (d := .left) (distinct_plug.mp hnd).nodup).2.2.2.2 i
        (mem_toList_branch.mpr (.inl rfl)) (mem_toList_branch.mpr (.inl rfl))
    subst hr
    obtain ⟨c', n', hsub⟩ := Context.RedBlack.of_plug hrb
    obtain ⟨rfl, b, rfl⟩ := redBlack_branch_leaf (d := .left) hsub hlne
    have hlink' : (s.mem (.obj g)).link .left = .obj b := hleft.2
    obtain rfl : b = a := RbPtr.obj.inj (hlink'.symm.trans hchild.2)
    exact hnone b g hback (.inside hfag rfl)
  · obtain ⟨ctx, c, l, r, rfl⟩ := exists_zipper (h.layout.mem_stored.mp hf)
    have hz := zRep_plug.mp h.layout
    obtain ⟨-, ⟨hleft, hright⟩, -⟩ := hz.2
    obtain rfl := hleft.isThread_iff.mp hthread
    have hrne : r ≠ nil := by
      rintro rfl
      exact absurd (hright.1.symm.trans hchild.1) (by simp)
    obtain ⟨c', n', hsub⟩ := Context.RedBlack.of_plug hrb
    obtain ⟨rfl, b, rfl⟩ := redBlack_branch_leaf (d := .right) hsub hrne
    have hlink : (s.mem (.obj f)).link .right = .obj b := hright.2
    obtain rfl : b = g := RbPtr.obj.inj (hlink.symm.trans hchild.2)
    exact hnone f b hback (.beside rfl rfl)

/-! ### The descent to such a link -/

omit [DecidableEq α] in
/-- A node equal to `f` lies on the same side as `f`. -/
theorem Toward.congr (hc : StrictTotal compare) {q : α} {d : Side} (h : Toward compare q f d)
    (hfx : compare f x = 0) : Toward compare q x d := by
  cases d with
  | left =>
    have hfq : 0 < compare f q := (hc.swap f q).mpr h
    have hxf : compare x f = 0 := hc.eq_symm hfx
    exact (hc.swap x q).mp (hc.trans_lt (by omega) hfq)
  | right => exact hc.lt_trans h (by omega)

omit [DecidableEq α] in
/-- The descent towards `f` comes to the root of a subtree that holds `f`, or stays above
it. -/
theorem root_or_below (hc : StrictTotal compare) {d : Side} {c : Color} {u y t : ColorTree α}
    {low : Context α} {q : α} (hord : Ordered compare (branch d c u q y).toList)
    (hfx : compare f x = 0) (hd : d = rbdir (compare q x > 0)) (hf : f ∈ t.toList)
    (ht : branch d c u q y = low.plug t) :
    branch d c u q y = t ∨ ∃ low' : Context α, u = low'.plug t := by
  rcases List.eq_nil_or_concat low with rfl | ⟨low', g, rfl⟩
  · exact .inl ht
  · rw [List.concat_eq_append, Context.plug_append] at ht
    have hfill : branch d c u q y = branch g.side g.color (Context.plug low' t) g.key g.sib := ht
    obtain rfl : q = g.key := by simpa using congrArg rootKey hfill
    rw [hfill] at hord
    have htoward : Toward compare g.key f g.side := hord.toward hc (mem_toList_plug hf)
    obtain rfl : d = g.side := hd.trans (htoward.congr hc hfx).rbdir_eq
    obtain ⟨-, hu, -, -⟩ := branch_inj.mp hfill
    exact .inr ⟨low', hu⟩

omit [DecidableEq α] in
/-- Nothing is rebalanced at a red node or above a red child. -/
theorem Lowered.eq_of_red {d : Side} {u y y' : ColorTree α} {ctx ctx' : Context α} {c c' : Color}
    (h : Lowered d u ctx c y ctx' c' y') (hred : c = .red ∨ u.isRed = true) :
    ctx' = ctx ∧ c' = c ∧ y' = y := by
  have hblack : u.isRed = false → ¬ (Color.black = .red ∨ u.isRed = true) := fun hu => by
    simp [hu]
  cases h with
  | stay => exact ⟨rfl, rfl, rfl⟩
  | top => exact ⟨rfl, rfl, rfl⟩
  | rotate hu => exact absurd hred (hblack hu)
  | flip hu => exact absurd hred (hblack hu)
  | single hu => exact absurd hred (hblack hu)
  | double hu => exact absurd hred (hblack hu)

omit [DecidableEq α] in
/-- A red child on the other side comes up. -/
theorem Lowered.eq_of_other {d : Side} {u a b y' : ColorTree α} {s : α} {ctx ctx' : Context α}
    {c' : Color} {y : ColorTree α} (h : Lowered d u ctx .black y ctx' c' y')
    (hu : u.isRed = false) (hy : y = branch d .red a s b) :
    ctx' = ⟨d, .black, s, b⟩ :: ctx ∧ c' = .red ∧ y' = a := by
  have hred : y.isRed = true := by simp [hy]
  cases h with
  | stay hstay => exact absurd hstay (by simp [hu])
  | top hyred => exact absurd (hred.symm.trans hyred) (by simp)
  | rotate =>
    obtain ⟨-, rfl, rfl, rfl⟩ := branch_inj.mp hy
    exact ⟨rfl, rfl, rfl⟩
  | flip _ hyred => exact absurd (hred.symm.trans hyred) (by simp)
  | single _ hyred => exact absurd (hred.symm.trans hyred) (by simp)
  | double _ hyred => exact absurd (hred.symm.trans hyred) (by simp)

omit [DecidableEq α] in
/-- Each turn comes nearer to the link, which stays as it is. -/
theorem Pending.turn (hc : StrictTotal compare) {keys : List α} {size : ℕ}
    {ctx ctx' : Context α} {u : ColorTree α} {v v' : RemoveVars α} {s s' : RbState α}
    (hord : Ordered compare keys) (hfx : compare f x = 0)
    (h : DescentAt linksOnly keys size ctx t v s) (hp : Pending f a g ctx t)
    (hback : (s.mem (.obj g)).link .right = .obj a)
    (hturn : Turned linksOnly compare keys size x ctx v s t ctx' u v' s') :
    Pending f a g ctx' u ∧ (s'.mem (.obj g)).link .right = .obj a := by
  cases hturn with
  | @intro d c c' u y y' q ctx' v' s' hdir hfound hlow hleft hat =>
    have hord' : Ordered compare (branch d c u q y).toList := hord.of_plug_eq h.toList_eq
    -- below the root nothing has changed
    have hbelow : ∀ {low : Context α} {t : ColorTree α}, u = low.plug t → g ∈ t.toList →
        (s'.mem (.obj g)).link .right = .obj a := by
      rintro low t rfl hg
      rw [hleft.spares.below g (mem_toList_plug hg)]
      exact hback
    have hkey : ∀ {c' l p r}, branch d c u q y = node c' l p r → q = p := fun h =>
      Option.some.inj ((rootKey_branch d c u q y).symm.trans (congrArg rootKey h))
    generalize ht : branch d c u q y = t at hp h
    cases hp with
    | @inside _ low _ hf hplug =>
      have hmem : f ∈ (node .black (node .red nil a nil) g nil).toList := by
        rcases hf with rfl | rfl <;> simp [toList]
      rcases root_or_below hc hord' hfx hdir hmem (ht.trans hplug) with hroot | ⟨low', rfl⟩
      · -- at `g` the way goes to its left child, which is red
        obtain rfl := hkey hroot
        obtain rfl : d = .left := by
          rcases hf with rfl | rfl
          · rw [hroot] at hord'
            have htoward : Toward compare q f .left :=
              Ordered.toward (d := .left) hc hord' (by simp [toList])
            exact hdir.trans (htoward.congr hc hfx).rbdir_eq
          · rw [hdir, hfx]
            rfl
        obtain ⟨rfl, rfl, -, rfl⟩ := node.inj hroot
        obtain ⟨rfl, rfl, rfl⟩ := hlow.eq_of_red (.inr rfl)
        rw [hleft.stay (.inr rfl)]
        exact ⟨.above hf, hback⟩
      · exact ⟨.inside hf rfl, hbelow rfl (by simp [toList])⟩
    | @beside _ low _ hf hplug =>
      subst hf
      have hmem : f ∈ (node .black nil f (node .red nil g nil)).toList := by simp [toList]
      rcases root_or_below hc hord' hfx hdir hmem (ht.trans hplug) with hroot | ⟨low', rfl⟩
      · -- at `f` its red right child comes up
        obtain rfl := hkey hroot
        obtain rfl : d = .left := by
          rw [hdir, hfx]
          rfl
        obtain ⟨rfl, rfl, -, hy⟩ := node.inj hroot
        obtain ⟨rfl, rfl, rfl⟩ := hlow.eq_of_other rfl hy
        refine ⟨.bottom (.inl ⟨rfl, rfl⟩), ?_⟩
        rw [← hback]
        exact hleft.rotate hy rfl
      · exact ⟨.beside rfl rfl, hbelow rfl (by simp [toList])⟩
    | @above ctx hf =>
      obtain ⟨rfl, rfl, hxy⟩ := node_inj_branch ht.symm
      obtain ⟨rfl, rfl⟩ : u = nil ∧ y = nil := by rcases hxy with h | h <;> exact h
      obtain ⟨rfl, rfl, rfl⟩ := hlow.eq_of_red (.inl rfl)
      rw [hleft.stay (.inl rfl)]
      refine ⟨.bottom (hf.imp (fun hfa => ⟨hfa, ?_⟩) fun hfg => ⟨hfg, ?_⟩), hback⟩
      · subst hfa
        rw [hdir, hfx]
        rfl
      · subst hfg
        have hkeys : (Context.plug ctx (branch .left .black (node .red nil a nil) f nil)).toList =
            keys := h.toList_eq
        have htoward : Toward compare f a .left :=
          (hord.of_plug_eq hkeys).toward hc (by simp [toList])
        have hpos : 0 < compare a x := hc.lt_trans ((hc.swap a f).mpr htoward) (by omega)
        simp [hdir, hpos, rbdir]
    | bottom => exact absurd ht (branch_ne_nil _ _ _ _ _)

end Condition

/-! ### The end of the descent -/

section Ends

variable {m₀ : RbMem α} {keys : List α} {size : ℕ} {x f : α} {ctx : Context α} {v : RemoveVars α}
  {s : RbState α} {t : ColorTree α}

omit [DecidableEq α] in
/-- The node above the bottom is a leaf; it is red or the only node. -/
theorem WalkAt.last_frame {d : Side} {c : Color} {p : α} {y : ColorTree α}
    (h : WalkAt compare m₀ keys size x (⟨d, c, p, y⟩ :: ctx) nil v s) :
    y = nil ∧ ctx.RedBlack .black 0 ∧ (c = .red ∨ ctx = []) := by
  obtain ⟨c₀, n₀, hnil, hctx⟩ := h.redBlack
  obtain ⟨rfl, rfl⟩ := hnil
  exact h.descended.leaf_frame hctx

omit [DecidableEq α] in
/-- The node to be unlinked is red or the only one. -/
theorem WalkAt.color_p (h : WalkAt compare m₀ keys size x ctx nil v s) (hfound : v.found ≠ .null) :
    (s.mem v.p).color = .red ∨ ∃ a, keys = [a] := by
  have hne : ctx ≠ [] := by
    rintro rfl
    rcases h.phase with ⟨hnull, -⟩ | ⟨f, -, -, hcl⟩
    · exact hfound hnull
    · cases hcl
  obtain ⟨⟨d, c, p, y⟩, rest, rfl⟩ := List.exists_cons_of_ne_nil hne
  obtain ⟨rfl, -, rfl | rfl⟩ := h.last_frame
  · left
    rw [h.p_eq]
    exact h.rep.1.1.1
  · refine .inr ⟨p, ?_⟩
    rw [← h.toList_eq]
    cases d <;> rfl

omit [DecidableEq α] in
theorem plug_sublist {t' : ColorTree α} (h : t'.toList.Sublist t.toList) :
    (ctx.plug t').toList.Sublist (ctx.plug t).toList := by
  rw [Context.toList_plug, Context.toList_plug]
  exact ((List.Sublist.refl _).append h).append (List.Sublist.refl _)

omit [DecidableEq α] in
/-- The root is not behind the right link of the sentinel if it has been found. -/
theorem WalkAt.found_ne (h : WalkAt compare m₀ keys size x ctx t v s)
    (hf : (ctx.plug t).rootKey = some f) (hfound : v.found = .obj f) :
    (s.mem .sentinel).link .right ≠ .obj f := by
  rw [h.sentinel]
  intro hz
  exact (h.apart f hf hz).2 hfound

/-- A red-black tree over some of the keys is laid out. -/
def LaidOut (keys : List α) (m : RbMem α) : Prop :=
  ∃ t, ZRep linksOnly m [] t ∧ t.toList.Sublist keys ∧ ∃ c n, t.RedBlack c n

/-- The left child of `f`, a leaf, takes its place. -/
theorem WalkAt.unlink_above (hc : StrictTotal compare) (hord : Ordered compare keys)
    {cp c : Color} {p : α} {yp y : ColorTree α} {up : Context α}
    (h : WalkAt compare m₀ keys size x (⟨.right, cp, p, yp⟩ :: ⟨.left, c, f, y⟩ :: up) nil v ⟨m, k⟩)
    (hfound : v.found = .obj f) (hne : (m (.obj f)).link .right ≠ .obj p) :
    Total (rbtreeUnlink compare (.obj f) (.obj p) (.obj f) .right)
      (fun _ s' => LaidOut keys s'.mem) ⟨m, k⟩ := by
  obtain ⟨rfl, -, rfl | hnil⟩ := h.last_frame
  swap
  · exact absurd hnil (by simp)
  obtain ⟨_, _, ⟨rfl, rfl⟩, -, -, hup⟩ := h.redBlack
  obtain ⟨rfl, hy, hup⟩ : c = .black ∧ (∃ cy, y.RedBlack cy 0) ∧ up.RedBlack .black 1 := by
    cases c with
    | red => exact absurd hup.1 (by simp)
    | black => exact ⟨rfl, hup⟩
  have hz : ZRep linksOnly m up (node .black (node .red nil p nil) f y) :=
    zRep_branch (d := .left).mpr (zRep_branch (d := .right).mpr h.rep)
  have hkeys : (up.plug (node .black (node .red nil p nil) f y)).toList = keys := h.toList_eq
  have hord' : Ordered compare (up.plug (node .black (node .red nil p nil) f y)).toList := by
    rwa [hkeys]
  have hdir : rbdir ((m (holder up)).link .right = .obj f) = side up := by
    refine hz.told_beside (hord'.distinct hc) rfl hup ?_
    rintro rfl
    exact h.found_ne rfl hfound
  refine (Cldm.unlink_above hc hz hord' hdir hne linksOnly_false).mono ?_
  rintro _ s' ⟨-, hz'⟩
  refine ⟨up.plug (node .black nil p y), zRep_plug.mpr hz', ?_,
    Context.redBlack_plug (n := 1) ⟨rfl, 0, rfl, ⟨.black, rfl, rfl⟩, hy⟩ hup⟩
  rw [← hkeys]
  exact plug_sublist ((List.sublist_cons_self f y.toList).cons_cons p)

/-- The last node, further below `f`, takes its place. -/
theorem WalkAt.unlink_deep (hc : StrictTotal compare) (hord : Ordered compare keys)
    {cp cg : Color} {p g : α} {yp sib : ColorTree α} {rest : Context α}
    (h : WalkAt compare m₀ keys size x (⟨.right, cp, p, yp⟩ :: ⟨.right, cg, g, sib⟩ :: rest) nil v
      ⟨m, k⟩) (hfound : v.found = .obj f) (hcl : Closing f rest) :
    Total (rbtreeUnlink compare (.obj g) (.obj p) (.obj f) .right)
      (fun _ s' => LaidOut keys s'.mem) ⟨m, k⟩ := by
  obtain ⟨mid, c, y, up, rfl, hafter⟩ := hcl.exists_append
  obtain ⟨rfl, hctx, rfl | hnil⟩ := h.last_frame
  swap
  · exact absurd hnil (by simp)
  obtain ⟨_, _, ⟨rfl, rfl⟩, -, -, hred⟩ := h.redBlack
  have hleaf : (node .red nil p nil).RedBlack .red 0 := ⟨rfl, ⟨rfl, rfl⟩, rfl, rfl⟩
  -- there is a black node below `f`, so `f` has a right child and is told apart
  obtain ⟨c₁, n₁, hfill, hrest⟩ := Context.redBlack_fill_pos hleaf hred (by simp)
  obtain ⟨c₂, n₂, hle, hplug, hup⟩ := Context.redBlack_plug_append hfill hrest
  obtain ⟨j, rfl⟩ : ∃ j, n₂ = j + 1 := ⟨n₂ - 1, by omega⟩
  have hy : y ≠ nil := hup.sib_ne_nil
  obtain ⟨c₃, n₃, hle', -, hup'⟩ := Context.redBlack_fill hplug hup
  obtain ⟨i, rfl⟩ : ∃ i, n₃ = i + 1 := ⟨n₃ - 1, by omega⟩
  have hz : ZRep linksOnly m (⟨.right, cg, g, sib⟩ :: mid ++ ⟨.left, c, f, y⟩ :: up)
      (node .red nil p nil) := zRep_branch (d := .right).mpr h.rep
  have hkeys : (Context.plug (⟨.right, cg, g, sib⟩ :: mid ++ ⟨.left, c, f, y⟩ :: up)
      (node .red nil p nil)).toList = keys := h.toList_eq
  have hkeys' : (up.plug (node c
      (Context.plug (⟨.right, cg, g, sib⟩ :: mid) (node .red nil p nil)) f y)).toList = keys := by
    rw [Context.plug_append] at hkeys
    exact hkeys
  have hord' := hkeys' ▸ hord
  have hdir : rbdir ((m (holder up)).link .right = .obj f) = side up := by
    have hzf : ZRep linksOnly m up
        (node c (Context.plug (⟨.right, cg, g, sib⟩ :: mid) (node .red nil p nil)) f y) :=
      zRep_branch (d := .left).mpr (zRep_append.mpr hz)
    refine hzf.told_beside (hord'.distinct hc) rfl hup' ?_
    rintro rfl
    refine h.found_ne ?_ hfound
    have hplug := Context.plug_append (⟨.right, .red, p, nil⟩ :: ⟨.right, cg, g, sib⟩ :: mid)
      [⟨.left, c, f, y⟩] nil
    exact congrArg rootKey hplug
  refine (Cldm.unlink_deep hc hy hz (hkeys.symm ▸ hord) hdir).mono ?_
  rintro _ s' hz'
  refine ⟨up.plug (node c (Context.plug (⟨.right, cg, g, sib⟩ :: mid) nil) p y),
    zRep_plug.mpr hz', ?_, ?_⟩
  · rw [← hkeys']
    refine plug_sublist ?_
    have hlow : Context.after (⟨.right, cg, g, sib⟩ :: mid) = [] := hafter
    simp only [toList, Context.toList_plug, hlow, List.append_nil, List.nil_append,
      List.append_assoc, List.cons_append]
    exact (List.Sublist.refl _).append ((List.sublist_cons_self f y.toList).cons_cons p)
  · -- `p` was red
    have hnil : (nil : ColorTree α).RedBlack .black 0 := ⟨rfl, rfl⟩
    have hctx' : Context.RedBlack (⟨.right, cg, g, sib⟩ :: mid ++ ⟨.left, c, f, y⟩ :: up)
        .black 0 := hctx
    obtain ⟨c₄, n₄, -, hplug', hup₄⟩ := Context.redBlack_plug_append hnil hctx'
    obtain ⟨c₅, n₅, -, hfill', hup₅⟩ := Context.redBlack_fill hplug' hup₄
    exact Context.redBlack_plug (redBlack_rekey.mp hfill') hup₅

/-- The node `f` that was met is unlinked, where the side of the last node is told right. -/
theorem WalkAt.unlink (hc : StrictTotal compare) (hord : Ordered compare keys)
    (h : WalkAt compare m₀ keys size x ctx nil v ⟨m, k⟩) (hfound : v.found = .obj f)
    (hcl : Closing f ctx)
    (htold : ∀ p g rest, ctx = p :: g :: rest → g.side = .left →
      (m (.obj g.key)).link .right ≠ .obj p.key) :
    Total (rbtreeUnlink compare v.gp v.p v.found v.dir) (fun _ s' => LaidOut keys s'.mem)
      ⟨m, k⟩ := by
  rw [hfound, h.p_eq, h.dir_eq]
  have hkeys := h.toList_eq
  cases hcl with
  | @here c y rest =>
    rw [h.grandparent.2 _ _ rfl]
    obtain ⟨rfl, hrest, -⟩ := h.last_frame
    have hz : ZRep linksOnly m rest (node c nil f nil) := zRep_branch (d := .left).mpr h.rep
    have hkeys' : (rest.plug (node c nil f nil)).toList = keys := hkeys
    have hdir : rbdir ((m (holder rest)).link .right = .obj f) = side rest := by
      refine hz.told rfl fun hside => ?_
      rcases rest with _ | ⟨g, rest⟩
      · exact h.root_ne rfl (by simp)
      · exact htold _ g rest rfl hside
    refine (unlink_leaf hc hz (hkeys' ▸ hord) hdir linksOnly_false).mono ?_
    rintro _ s' ⟨-, hz'⟩
    refine ⟨rest.plug nil, zRep_plug.mpr hz', ?_, Context.redBlack_plug (n := 0) ⟨rfl, rfl⟩ hrest⟩
    rw [← hkeys']
    exact plug_sublist (List.nil_sublist _)
  | @under p rest hside hcl =>
    obtain ⟨d, cp, p, yp⟩ := p
    obtain rfl : d = .right := hside
    cases hcl with
    | @here c y up =>
      rw [h.grandparent.2 _ _ rfl]
      exact h.unlink_above hc hord hfound (htold _ _ up rfl rfl)
    | @under g rest hside hcl =>
      obtain ⟨d, cg, g, sib⟩ := g
      obtain rfl : d = .right := hside
      rw [h.grandparent.2 _ _ rfl]
      exact h.unlink_deep hc hord hfound hcl

/-- At a link that misleads, the code unlinks on the wrong side. -/
theorem WalkAt.unlink_broken (hc : StrictTotal compare) (hord : Ordered compare keys) {a g : α}
    (h : WalkAt compare m₀ keys size x ctx nil v ⟨m, k⟩) (hfound : v.found = .obj f)
    (hp : Pending f a g ctx nil) (hback : (m (.obj g)).link .right = .obj a) :
    Total (rbtreeUnlink compare v.gp v.p v.found v.dir) (fun _ s' => Broken s'.mem) ⟨m, k⟩ := by
  have hlow : ∀ {low : Context α} {c : Color} {l r : ColorTree α} {b : α},
      (nil : ColorTree α) ≠ low.plug (node c l b r) := by
    intro low c l r b hnil
    have hb : b ∈ (low.plug (node c l b r)).toList := mem_toList_plug (by simp [toList])
    simp [← hnil, toList] at hb
  rw [hfound, h.p_eq, h.dir_eq]
  cases hp with
  | inside _ hplug => exact absurd hplug hlow
  | beside _ hplug => exact absurd hplug hlow
  | @bottom e up hf =>
    rw [h.grandparent.2 _ _ rfl]
    have hkeys := h.toList_eq
    rcases hf with ⟨rfl, rfl⟩ | ⟨rfl, rfl⟩
    · have hz : ZRep linksOnly m (⟨.left, .black, g, nil⟩ :: up) (node .red nil f nil) :=
        zRep_branch (d := .left).mpr h.rep
      have hkeys' : (Context.plug (⟨.left, .black, g, nil⟩ :: up) (node .red nil f nil)).toList =
          keys := hkeys
      exact unlink_astray hc hz (hkeys' ▸ hord) hback
    · have hz : ZRep linksOnly m up (node .black (node .red nil a nil) f nil) :=
        zRep_branch (d := .left).mpr (zRep_branch (d := .right).mpr h.rep)
      have hkeys' : (up.plug (node .black (node .red nil a nil) f nil)).toList = keys := hkeys
      have hord' := hkeys'.symm ▸ hord
      obtain ⟨_, _, ⟨rfl, rfl⟩, -, -, -, hup⟩ := h.redBlack
      refine unlink_astray_above hc hz hord' (hz.told_beside (hord'.distinct hc) rfl hup ?_) hback
      rintro rfl
      exact h.found_ne rfl hfound

omit [DecidableEq α] in
/-- What the descent has found, when `f` is stored and equal to the argument. -/
theorem WalkAt.found_eq (hc : StrictTotal compare) (hord : Ordered compare keys)
    (h : WalkAt compare m₀ keys size x ctx nil v s) (hf : f ∈ keys) (hfx : compare f x = 0) :
    v.found = .obj f ∧ Closing f ctx := by
  have hkeys := h.toList_eq
  rcases h.phase with ⟨-, hs⟩ | ⟨f', hf', hfx', hcl⟩
  · exact absurd hfx (hs.ne_of_nil (by rwa [hkeys]))
  · have hmem : f' ∈ keys := by
      rw [← hkeys, Context.toList_plug]
      exact List.mem_append_right _ hcl.mem_after
    have hle : 0 ≤ compare f f' := by
      have hxf := hc.eq_symm hfx'
      exact hc.trans f x f' (by omega) (by omega)
    have hle' : 0 ≤ compare f' f := by
      have hxf := hc.eq_symm hfx
      exact hc.trans f' x f (by omega) (by omega)
    have heq : compare f f' = 0 := by
      have := hc.nonneg_iff.mp hle'
      omega
    obtain rfl := hord.eq_of_compare hc hf hmem heq
    exact ⟨hf', hcl⟩

omit [DecidableEq α] in
/-- Under the condition the side of the last node is told right. -/
theorem WalkAt.told_of_pass (hc : StrictTotal compare) {s₀ : RbState α} (hl : RbLinks compare s₀ t)
    (h : WalkAt compare s₀.mem t.toList size x ctx nil v s) (hcl : Closing f ctx)
    (hpass : ThreadsPass s₀ f) {p g : Frame α} {rest : Context α} (hctx : ctx = p :: g :: rest)
    (hside : g.side = .left) : (s.mem (.obj g.key)).link .right ≠ .obj p.key := by
  subst hctx
  intro hback
  obtain ⟨e, cp, p, yp⟩ := p
  obtain ⟨d, cg, g, sib⟩ := g
  obtain rfl : d = .left := hside
  obtain ⟨rfl, -, -⟩ := h.last_frame
  -- `p` and `g` are neighbours
  have hkeys : t.toList = rest.before ++ p :: g :: (sib.toList ++ rest.after) := by
    rw [← h.toList_eq]
    have hplug : (Context.plug (⟨e, cp, p, nil⟩ :: ⟨.left, cg, g, sib⟩ :: rest) nil).toList =
        (rest.plug (node cg (node cp nil p nil) g sib)).toList := by
      cases e <;> rfl
    rw [hplug, Context.toList_plug]
    simp [toList]
  have hback₀ : (s₀.mem (.obj g)).link .right = .obj p := by
    refine h.noneBack p g ?_ hback
    rw [hkeys]
    exact ((List.nil_sublist _).cons_cons g).cons_cons p |>.trans (List.sublist_append_right _ _)
  have hthread : (s₀.mem (.obj p)).isThread e = true := h.bottom rfl _ _ rfl
  refine hpass.right_ne hc hl hkeys ?_ hback₀
  cases hcl with
  | here => exact .inl ⟨rfl, hthread⟩
  | under he hcl =>
    obtain rfl : e = .right := he
    cases hcl with
    | here => exact .inr ⟨rfl, hthread⟩
    | under hg => exact absurd hg (by simp)

end Ends

/-! ### The whole removal -/

section Removal

variable {s : RbState α} {t : ColorTree α} {x : α}

/-- The code after the loop, from a tree that is laid out. -/
theorem finish_links {keys : List α} (hc : StrictTotal compare) (hord : Ordered compare keys)
    (h : LaidOut keys m) {r : RbPtr α} :
    wp (do
      if !(← rbnodeIsThread .sentinel .left) then
        rbnodeMakeBlack (← rbroot)
      return r) (fun _ s' => RedBlackLinks compare s') ⟨m, k⟩ := by
  obtain ⟨t, hz, hsub, hrb⟩ := h
  have hord' : Ordered compare t.toList := List.Pairwise.sublist hsub hord
  refine wp_mono (wp_finish_removal hz (hord'.nodup hc) hrb) ?_
  rintro _ s' ⟨-, -, t', hz', hlist, hrb'⟩
  exact ⟨t', hz', hlist ▸ hord', hrb'⟩

theorem finish_broken (h : Broken m) {r : RbPtr α} :
    wp (do
      if !(← rbnodeIsThread .sentinel .left) then
        rbnodeMakeBlack (← rbroot)
      return r) (fun _ s' => Broken s'.mem) ⟨m, k⟩ := by
  obtain ⟨⟨q, hq⟩, p, hp, hne⟩ := h
  simp only [wp_bind, ne_eq, reduceCtorEq, not_false_eq_true, wp_rbnodeIsThread]
  cases (m .sentinel).isThread .left with
  | true =>
    simp only [Bool.not_true, Bool.false_eq_true, if_false, wp_pure]
    exact ⟨⟨q, hq⟩, p, hp, hne⟩
  | false =>
    simp only [Bool.not_false, if_true, wp_bind, wp_rbroot, hq, ne_eq, reduceCtorEq,
      not_false_eq_true, wp_rbnodeMakeBlack, wp_pure]
    refine ⟨⟨q, link_paint.trans hq⟩, p, hp.congr (fun p d => ?_) fun p d => link_paint, hne⟩
    by_cases hpq : p = .obj q
    · subst hpq
      rw [Function.update_self, Rbnode.isThread_withColor]
    · rw [Function.update_of_ne hpq]

/-- What holds after the loop holds after the call, if unlinking brings it about and the
end keeps it. -/
theorem total_removeEnd {v : RemoveVars α} {U : RbMem α → Prop} {Q : RbState α → Prop}
    (hend : ∀ {m k}, U m → wp (do
      if !(← rbnodeIsThread .sentinel .left) then
        rbnodeMakeBlack (← rbroot)
      return v.found) (fun _ s' => Q s') ⟨m, k⟩)
    (hnull : v.found = .null → U s.mem)
    (hunlink : v.found ≠ .null →
      Total (rbtreeUnlink compare v.gp v.p v.found v.dir) (fun _ s' => U s'.mem) s) :
    Total (rbtreeRemoveEnd compare v) (fun _ s' => Q s') s := by
  unfold rbtreeRemoveEnd
  by_cases hfound : v.found = .null
  · simp only [hfound, ne_eq, not_true_eq_false, if_false] at hend ⊢
    exact Total.const (hend (hnull hfound))
  · simp only [hfound, ne_eq, not_false_eq_true, if_true]
    refine Total.bind ((hunlink hfound).mono ?_)
    rintro _ ⟨m, k⟩ hU
    exact Total.const (hend hU)

/-- What holds at the end of the descent and after it holds after the call. -/
theorem total_remove (h : RbLinks compare s t) {Q : RbState α → Prop} (hempty : t = nil → Q s)
    (hdescent : Total (rbtreeRemoveDescent compare x) (fun v s₁ =>
      Total (rbtreeRemoveEnd compare v) (fun _ s' => Q s') s₁) s) :
    Total (rbtreeRemove compare x) (fun _ s' => Q s') s := by
  obtain ⟨m, k⟩ := s
  rw [rbtreeRemove_eq]
  refine Total.wp_bind ?_
  rw [wp_rbroot]
  by_cases hnull : (m .sentinel).link .left = .null
  · have ht : t = nil := by
      rcases t with _ | ⟨c, l, q, r⟩
      · rfl
      · have hlink : (m .sentinel).link .left = .obj q := (h.layout.1.link_eq (k := q) rfl).2
        exact absurd (hlink.symm.trans hnull) (by simp)
    simp only [hnull, if_true]
    exact Total.const ((wp_pure ..).mpr (hempty ht))
  · simp only [hnull, if_false]
    exact Total.bind hdescent

theorem unlinks_red (hc : StrictTotal compare) (h : RbLinks compare s t)
    (hapart : SentinelApart s) : UnlinksRed compare s x := by
  intro v s₁ hret hfound
  obtain ⟨ctx, hwalk, -⟩ := (total_descent hc h hapart (P := fun _ _ _ => True)
    (fun _ _ _ => trivial) (fun _ _ => trivial)).of_returns hret
  refine (hwalk.color_p hfound).imp id fun ⟨a, ha⟩ => ⟨a, ?_⟩
  ext b
  exact h.layout.mem_stored.trans (by simp [ha])

/-- A removal that no right link misleads keeps the red-black conditions. -/
theorem RbLinks.removes (hc : StrictTotal compare) (h : RbLinks compare s t)
    (hapart : SentinelApart s) (hpass : ∀ f ∈ s.stored, compare f x = 0 → ThreadsPass s f) :
    RemovesRedBlack compare s x := by
  refine ⟨?_, unlinks_red hc h hapart⟩
  have hgood : Total (rbtreeRemove compare x) (fun _ s' => RedBlackLinks compare s') s := by
    refine total_remove h (fun _ => ⟨t, h⟩) ((total_descent hc h hapart
      (P := fun _ _ _ => True) (fun _ _ _ => trivial) (fun _ _ => trivial)).mono ?_)
    rintro v ⟨m, k⟩ ⟨ctx, hwalk, -⟩
    have hkeys := hwalk.toList_eq
    refine total_removeEnd (fun hU => finish_links hc h.ordered hU) (fun hnull => ?_)
      fun hfound => ?_
    · obtain ⟨c, n, hnil, hctx⟩ := hwalk.redBlack
      refine ⟨ctx.plug nil, zRep_plug.mpr hwalk.rep, ?_, Context.redBlack_plug hnil hctx⟩
      rw [hkeys]
    · obtain ⟨f, hf, hfx, hcl⟩ := hwalk.phase.resolve_left fun h => hfound h.1
      have hstored : f ∈ s.stored := by
        rw [h.layout.mem_stored, ← hkeys, Context.toList_plug]
        exact List.mem_append_right _ hcl.mem_after
      exact hwalk.unlink hc h.ordered hf hcl fun p g rest hctx hside =>
        hwalk.told_of_pass hc h hcl (hpass f hstored hfx) hctx hside
  obtain ⟨r, s', hret, hlinks⟩ := hgood
  exact ⟨r, s', hret, hlinks⟩

/-- Where a right link misleads the removal, child links are broken after it. -/
theorem RbLinks.remove_broken (hc : StrictTotal compare) (h : RbLinks compare s t)
    (hapart : SentinelApart s) {f : α} (hf : f ∈ s.stored) (hfx : compare f x = 0)
    (hnot : ¬ ThreadsPass s f) :
    Total (rbtreeRemove compare x) (fun _ s' => Broken s'.mem) s := by
  obtain ⟨a, g, hback, hpend⟩ := exists_pending hc h hf hnot
  have hfkeys : f ∈ t.toList := h.layout.mem_stored.mp hf
  refine total_remove h ?_ ((total_descent hc h hapart
    (P := fun ctx u m => Pending f a g ctx u ∧ (m (.obj g)).link .right = .obj a) ?_ ?_).mono ?_)
  · rintro rfl
    simp [toList] at hfkeys
  · rintro ctx u v s₁ ctx' u' v' s₂ hwalk ⟨hp, hback⟩ hturn
    exact hp.turn hc h.ordered hfx hwalk.toDescentAt hback hturn
  · intro m hm
    exact ⟨hpend, by rw [hm _ (by simp), hback]⟩
  · rintro v ⟨m, k⟩ ⟨ctx, hwalk, hp, hback⟩
    obtain ⟨hfound, -⟩ := hwalk.found_eq hc h.ordered hfkeys hfx
    refine total_removeEnd (fun hU => finish_broken hU) (fun hnull => ?_) fun _ =>
      hwalk.unlink_broken hc h.ordered hfound hp hback
    exact absurd (hfound.symm.trans hnull) (by simp)

/-- `cldm_rbtree_remove` leaves a red-black search tree, having unlinked a red node or the
only one, if and only if no right link misleads the removal of the node it finds. -/
theorem rbtree_remove_red_black (hc : StrictTotal compare) (h : RedBlackLinks compare s)
    (hapart : SentinelApart s) (x : α) : RemovesRedBlack compare s x ↔
      ∀ f ∈ s.stored, compare f x = 0 → ThreadsPass s f := by
  obtain ⟨t, ht⟩ := h
  constructor
  · rintro ⟨⟨r, s', hret, hlinks⟩, -⟩ f hf hfx
    by_contra hnot
    have hbroken := (ht.remove_broken hc hapart hf hfx hnot).of_returns hret
    exact hbroken.not_redBlackLinks hlinks
  · exact fun hpass => ht.removes hc hapart hpass

/-! ### Trees with their threads in order -/

section InOrder

variable {track : Side → Prop}

omit [DecidableEq α] in
theorem RbInv.links (h : RbInv track compare s t) : RbLinks compare s t where
  layout := h.rep.untrack fun _ hd => absurd hd linksOnly_false
  ordered := h.ordered
  redBlack := h.redBlack

omit [DecidableEq α] in
/-- A right link leads to a later node, where the right threads are in order. -/
theorem RbInv.right_pos (hc : StrictTotal compare) (h : RbInv track compare s t)
    (ht : track .right) {g a : α} (hg : g ∈ t.toList)
    (hlink : (s.mem (.obj g)).link .right = .obj a) : 0 < compare g a := by
  have hnd := h.ordered.nodup hc
  have hrep := h.rep
  have hord := h.ordered
  obtain ⟨ctx, c, l, r, rfl⟩ := exists_zipper hg
  obtain ⟨-, ⟨-, hright⟩, -⟩ := (zRep_plug.mp hrep).2
  rcases r with _ | ⟨cr, lr, j, rr⟩
  · -- a thread leads to the next node
    have hplug : (ctx.plug (node c l g nil)).toList =
        (ctx.before ++ l.toList) ++ g :: ctx.after := by
      rw [Context.toList_plug]
      simp [toList]
    have hnext : (s.mem (.obj g)).link .right = headPtr ctx.after :=
      hrep.right_thread hnd ht hplug hright.1
    rw [hplug] at hord
    have hafter := (List.pairwise_cons.mp (List.pairwise_append.mp hord).2.1).1
    cases hl : ctx.after with
    | nil =>
      rw [hlink, hl] at hnext
      exact absurd hnext (by simp [headPtr])
    | cons b l₂ =>
      rw [hlink, hl] at hnext
      obtain rfl := RbPtr.obj.inj hnext
      exact hafter a (by simp [hl])
  · obtain rfl : j = a := RbPtr.obj.inj (hright.2.symm.trans hlink)
    exact Ordered.toward (d := .right) hc hord.of_plug (by simp [toList])

omit [DecidableEq α] in
/-- A child lies on its side. -/
theorem RbInv.child_toward (hc : StrictTotal compare) (h : RbInv track compare s t) {g a : α}
    {d : Side} (hg : g ∈ t.toList) (hchild : ChildOf s.mem g d a) : Toward compare g a d := by
  have hrep := h.rep
  have hord := h.ordered
  obtain ⟨ctx, c, l, r, rfl⟩ := exists_zipper hg
  obtain ⟨u, y, hbranch⟩ := node_eq_branch d c l g r
  rw [hbranch] at hrep hord
  have hz := zRep_branch.mp (zRep_plug.mp hrep)
  rcases u with _ | ⟨cu, lu, j, ru⟩
  · exact absurd ((hz.1.isThread_iff.mpr rfl).symm.trans hchild.1) (by simp)
  · have hlink : (s.mem (.obj g)).link d = .obj j := (hz.1.link_eq (k := j) rfl).2
    obtain rfl : j = a := RbPtr.obj.inj (hlink.symm.trans hchild.2)
    exact hord.of_plug.toward hc (by simp [toList])

omit [DecidableEq α] in
/-- Where the right threads are in order no right link misleads a removal. -/
theorem RbInv.threadsPass (hc : StrictTotal compare) (h : RbInv track compare s t)
    (ht : track .right) (f : α) (hf : f ∈ s.stored) : ThreadsPass s f where
  inside g hg a hchild _ hback := by
    have hpos := h.right_pos hc ht (h.mem_stored.mp hg) hback
    have hneg : compare g a < 0 := h.child_toward hc (h.mem_stored.mp hg) hchild
    omega
  beside _ g hchild hback := by
    have hfkeys := h.mem_stored.mp hf
    have hpos : 0 < compare f g := h.child_toward hc hfkeys hchild
    have hlinked : Linked s.mem (.obj g) := by
      have hlink := Linked.child hf hchild.1
      rwa [hchild.2] at hlink
    have hpos' := h.right_pos hc ht (h.mem_stored.mp hlinked) hback
    have hneg := (hc.swap g f).mp hpos'
    omega

omit [DecidableEq α] in
theorem RbInv.sentinelApart (h : RbInv track compare s t) (ht : track .right) :
    SentinelApart s := by
  intro a ha _ hright
  have hkeys := h.mem_stored.mp ha
  rcases t with _ | ⟨c, l, q, r⟩
  · simp [toList] at hkeys
  · have hsent : (s.mem .sentinel).link .right = .sentinel := h.rep.1.2.2.2 ht
    exact absurd (hsent.symm.trans hright) (by simp)

/-- From a tree with its right threads in order every removal keeps the red-black
conditions, whatever becomes of the threads. -/
theorem RbInv.removes (hc : StrictTotal compare) (h : RbInv track compare s t)
    (ht : track .right) (x : α) : RemovesRedBlack compare s x :=
  h.links.removes hc (h.sentinelApart ht) fun f hf _ => h.threadsPass hc ht f hf

end InOrder

/-- From the tree of a run with five nodes every removal keeps the red-black conditions. -/
theorem rbtree_remove_red_black_run : ∃ s,
    RbRun byValue (RemovalOk byValue) s {a | a ∈ [6, 5, 4, 3, 1]} ∧
      (s.mem .sentinel).left = .obj 4 ∧ ∀ x, RemovesRedBlack byValue s x := by
  obtain ⟨s, hs, hroot⟩ := exists_run
  obtain ⟨t, hinv, -⟩ := hs.inv byValue_strictTotal
  have hlinks : RedBlackLinks byValue s := ⟨t, hinv.links⟩
  have hright : rightOnly .right := rfl
  refine ⟨s, hs, hroot, fun x => ?_⟩
  refine (rbtree_remove_red_black byValue_strictTotal hlinks (hinv.sentinelApart hright) x).mpr ?_
  exact fun f hf _ => hinv.threadsPass byValue_strictTotal hright f hf

/-- After the removal of the right child of the root, a node inserted there has its right
link lead back to the root: removing the root then leaves child links to it. -/
theorem rbtree_remove_breaks_links : StrictTotal byValue ∧ ∃ s S,
    RbRun byValue (fun _ _ => True) s S ∧ RedBlackLinks byValue s ∧ SentinelApart s ∧
      ¬ RemovesRedBlack byValue s 0 := by
  have hsome : (script 4 [.insert 0, .insert 1, .remove 1, .insert 2]).isSome = true := by
    decide +kernel
  obtain ⟨⟨s, l⟩, hs⟩ := Option.isSome_iff_exists.mp hsome
  -- 0 with the red right child 2
  have hsentinel : (script 4 [.insert 0, .insert 1, .remove 1, .insert 2]).map (fun r =>
      ((r.1.mem .sentinel).color, (r.1.mem .sentinel).flags, (r.1.mem .sentinel).left,
        (r.1.mem .sentinel).right)) = some (.black, threadBit .right, .obj 0, .sentinel) := by
    decide +kernel
  have hzero : (script 4 [.insert 0, .insert 1, .remove 1, .insert 2]).map (fun r =>
      ((r.1.mem (.obj 0)).color, (r.1.mem (.obj 0)).isThread .left,
        (r.1.mem (.obj 0)).isThread .right, (r.1.mem (.obj 0)).right)) =
      some (.black, true, false, .obj 2) := by decide +kernel
  have htwo : (script 4 [.insert 0, .insert 1, .remove 1, .insert 2]).map (fun r =>
      ((r.1.mem (.obj 2)).color, (r.1.mem (.obj 2)).isThread .left,
        (r.1.mem (.obj 2)).isThread .right)) = some (.red, true, true) := by decide +kernel
  -- after the removal 2 with the left child 0, which is cleared
  have hafter : ((script 4 [.insert 0, .insert 1, .remove 1, .insert 2]).bind fun r =>
      rbtreeRemove byValue 0 4 r.1).map (fun r =>
        (((r.2.mem .sentinel).isThread .left, (r.2.mem .sentinel).left),
          ((r.2.mem (.obj 2)).isThread .left, (r.2.mem (.obj 2)).left),
          (r.2.mem (.obj 0)).isThread .left, (r.2.mem (.obj 0)).left)) =
      some ((false, .obj 2), (false, .obj 0), false, .null) := by decide +kernel
  rw [hs] at hsentinel hzero htwo hafter
  simp only [Option.map_some, Option.some.injEq, Prod.mk.injEq] at hsentinel hzero htwo
  obtain ⟨hcol, hflags, hroot, hsent⟩ := hsentinel
  obtain ⟨hcol₀, hleft₀, hright₀, hlink₀⟩ := hzero
  obtain ⟨hcol₂, hleft₂, hright₂⟩ := htwo
  simp only [Option.bind_some, Option.map_eq_some_iff, Prod.mk.injEq] at hafter
  obtain ⟨⟨r, m, k⟩, hremove, ⟨hroot', hlroot⟩, ⟨hthread₂, hl₂⟩, hthread₀, hl₀⟩ := hafter
  have hlinks : RbLinks byValue s (node .black nil 0 (node .red nil 2 nil)) :=
    { layout := ⟨⟨hcol, hflags, hroot, fun hd => absurd hd linksOnly_false⟩, hcol₀,
        ⟨⟨hleft₀, fun hd => absurd hd linksOnly_false⟩, hright₀, hlink₀⟩, trivial, hcol₂,
        ⟨⟨hleft₂, fun hd => absurd hd linksOnly_false⟩,
          hright₂, fun hd => absurd hd linksOnly_false⟩, trivial, trivial⟩
      ordered := by simp [Ordered, toList, byValue]
      redBlack := ⟨1, rfl, 0, rfl, ⟨.black, rfl, rfl⟩, .red, rfl, ⟨rfl, rfl⟩, rfl, rfl⟩ }
  refine ⟨byValue_strictTotal, s, _, script_rbRun hs (fun _ _ _ => trivial), ⟨_, hlinks⟩, ?_, ?_⟩
  · intro a _ _ hright
    exact absurd (hsent.symm.trans hright) (by simp)
  · rintro ⟨⟨r', s', hret, hlinks'⟩, -⟩
    obtain ⟨-, rfl⟩ := ((fuelMono_remove 0).returns hremove).unique hret
    have hlinked₂ : Linked m (.obj 2) := hlroot ▸ .root hroot'
    have hlinked₀ : Linked m (.obj 0) := hl₂ ▸ hlinked₂.child hthread₂
    have hbroken : Broken m :=
      ⟨⟨2, hlroot⟩, _, hlinked₀.child hthread₀, fun a ha => by
        rw [show (m (.obj 0)).link .left = .null from hl₀] at ha
        exact absurd ha (by simp)⟩
    exact hbroken.not_redBlackLinks hlinks'

end Removal

end Cldm
