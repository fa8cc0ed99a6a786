/-
The node memory represents a coloured tree.

`Rep track m t b` says that the nodes of `t` are laid out in the memory `m` as
the code keeps them: colours, child links, thread flags, and, on the sides
where `track` holds, threads to the in-order neighbours, which at the two ends
of `t` are `b .left` and `b .right`.  `CtxRep` is the same for a context with
the sentinel at its top, and `ZRep` for a context with a subtree in its hole.

Descending one level only moves a frame from the subtree to the context
(`zRep_cons`), so the states of a descent all represent one tree.  The other
lemmas say what the accessors of the source return on a represented node, that
writing to other nodes keeps a representation (`Rep.frame`, `CtxRep.frame`),
and that a link to a new subtree root re-establishes one (`CtxRep.relink`).
-/
import Cldm.Rbtree

namespace Cldm

open Prog ColorTree

/-! ### Fields of an updated node -/

namespace Rbnode

variable {α : Type} (n : Rbnode α) (d : Side) (v : RbPtr α) (c : Color) (f : BitVec 8)

@[simp] theorem link_withLink_self : (n.withLink d v).link d = v := by cases d <;> rfl

@[simp] theorem link_withLink_flip : (n.withLink d v).link d.flip = n.link d.flip := by
  cases d <;> rfl

@[simp] theorem link_withLink_flip' : (n.withLink d.flip v).link d = n.link d := by
  cases d <;> rfl

@[simp] theorem color_withLink : (n.withLink d v).color = n.color := by cases d <;> rfl

@[simp] theorem flags_withLink : (n.withLink d v).flags = n.flags := by cases d <;> rfl

@[simp] theorem isThread_withLink (e : Side) : (n.withLink d v).isThread e = n.isThread e := by
  cases d <;> rfl

@[simp] theorem link_withColor : (n.withColor c).link d = n.link d := by cases d <;> rfl

@[simp] theorem color_withColor : (n.withColor c).color = c := rfl

@[simp] theorem flags_withColor : (n.withColor c).flags = n.flags := rfl

@[simp] theorem isThread_withColor : (n.withColor c).isThread d = n.isThread d := rfl

@[simp] theorem link_withFlags : (n.withFlags f).link d = n.link d := by cases d <;> rfl

@[simp] theorem color_withFlags : (n.withFlags f).color = n.color := rfl

@[simp] theorem flags_withFlags : (n.withFlags f).flags = f := rfl

theorem bit_or (f : BitVec 8) (d e : Side) :
    decide ((f ||| threadBit d) &&& threadBit e ≠ 0) =
      (decide (d = e) || decide (f &&& threadBit e ≠ 0)) := by
  revert f
  cases d <;> cases e <;> decide

theorem bit_and_not (f : BitVec 8) (d e : Side) :
    decide ((f &&& ~~~threadBit d) &&& threadBit e ≠ 0) =
      (decide (d ≠ e) && decide (f &&& threadBit e ≠ 0)) := by
  revert f
  cases d <;> cases e <;> decide

@[simp] theorem isThread_set (n' : Rbnode α) (e : Side) :
    (n.withFlags (n'.flags ||| threadBit d)).isThread e = (decide (d = e) || n'.isThread e) :=
  bit_or n'.flags d e

@[simp] theorem isThread_unset (n' : Rbnode α) (e : Side) :
    (n.withFlags (n'.flags &&& ~~~threadBit d)).isThread e =
      (decide (d ≠ e) && n'.isThread e) :=
  bit_and_not n'.flags d e

theorem bit_assign (f g : BitVec 8) (d e : Side) :
    (((f &&& ~~~threadBit d) ||| (g &&& threadBit d)) &&& threadBit e) =
      if d = e then g &&& threadBit e else f &&& threadBit e := by
  have hor : ∀ a b c : BitVec 8, (a ||| b) &&& c = (a &&& c) ||| (b &&& c) := by
    intro a b c
    ext i
    simp [Bool.and_or_distrib_right]
  rw [hor, BitVec.and_assoc, BitVec.and_assoc]
  cases d <;> cases e <;> simp [threadBit]

@[simp] theorem isThread_assign (n' p : Rbnode α) (e : Side) :
    (n.withFlags ((n'.flags &&& ~~~threadBit d) ||| (p.flags &&& threadBit d))).isThread e =
      if d = e then p.isThread e else n'.isThread e := by
  simp only [isThread, flags_withFlags, bit_assign]
  split_ifs <;> rfl

@[simp] theorem isThread_leaf : (n.withFlags rbLeaf).isThread d = true := by
  cases d <;> simp [isThread, withFlags, rbLeaf, threadBit]

end Rbnode

/-! ### Running the accessors -/

section Accessors

variable {α : Type} [DecidableEq α] {m : RbMem α} {k : ℕ} {p q : RbPtr α}

@[simp] theorem wp_load (hp : p ≠ .null) {Q : Rbnode α → RbState α → Prop} :
    wp (load p) Q ⟨m, k⟩ ↔ Q (m p) ⟨m, k⟩ := wp_of_some (if_neg hp)

@[simp] theorem wp_store (hp : p ≠ .null) {n : Rbnode α} {Q : Unit → RbState α → Prop} :
    wp (store p n) Q ⟨m, k⟩ ↔ Q () ⟨Function.update m p n, k⟩ := wp_of_some (if_neg hp)

omit [DecidableEq α] in
@[simp] theorem wp_setSize {f : ℕ → ℕ} {Q : Unit → RbState α → Prop} :
    wp (setSize f) Q ⟨m, k⟩ ↔ Q () ⟨m, f k⟩ := wp_of_some rfl

@[simp] theorem wp_link (hp : p ≠ .null) {d : Side} {Q : RbPtr α → RbState α → Prop} :
    wp (link p d) Q ⟨m, k⟩ ↔ Q ((m p).link d) ⟨m, k⟩ := by
  simp [link, hp]

@[simp] theorem wp_setLink (hp : p ≠ .null) {d : Side} {v : RbPtr α}
    {Q : Unit → RbState α → Prop} :
    wp (setLink p d v) Q ⟨m, k⟩ ↔ Q () ⟨Function.update m p ((m p).withLink d v), k⟩ := by
  simp [setLink, hp]

@[simp] theorem wp_rbroot {Q : RbPtr α → RbState α → Prop} :
    wp rbroot Q ⟨m, k⟩ ↔ Q ((m .sentinel).link .left) ⟨m, k⟩ := by
  simp [rbroot]

@[simp] theorem wp_rbnodeMakeRed (hp : p ≠ .null) {Q : Unit → RbState α → Prop} :
    wp (rbnodeMakeRed p) Q ⟨m, k⟩ ↔
      Q () ⟨Function.update m p ((m p).withColor .red), k⟩ := by
  simp [rbnodeMakeRed, hp]

@[simp] theorem wp_rbnodeMakeBlack (hp : p ≠ .null) {Q : Unit → RbState α → Prop} :
    wp (rbnodeMakeBlack p) Q ⟨m, k⟩ ↔
      Q () ⟨Function.update m p ((m p).withColor .black), k⟩ := by
  simp [rbnodeMakeBlack, hp]

@[simp] theorem wp_rbnodeIsRed (hp : p ≠ .null) {Q : Bool → RbState α → Prop} :
    wp (rbnodeIsRed p) Q ⟨m, k⟩ ↔ Q ((m p).color = .red) ⟨m, k⟩ := by
  simp [rbnodeIsRed, hp]

@[simp] theorem wp_rbnodeMakeLeaf (hp : p ≠ .null) {Q : Unit → RbState α → Prop} :
    wp (rbnodeMakeLeaf p) Q ⟨m, k⟩ ↔
      Q () ⟨Function.update m p ((m p).withFlags rbLeaf), k⟩ := by
  simp [rbnodeMakeLeaf, hp]

@[simp] theorem wp_rbnodeIsThread (hp : p ≠ .null) {d : Side} {Q : Bool → RbState α → Prop} :
    wp (rbnodeIsThread p d) Q ⟨m, k⟩ ↔ Q ((m p).isThread d) ⟨m, k⟩ := by
  simp [rbnodeIsThread, hp]

@[simp] theorem wp_rbnodeHasChild (hp : p ≠ .null) {d : Side} {Q : Bool → RbState α → Prop} :
    wp (rbnodeHasChild p d) Q ⟨m, k⟩ ↔ Q (!(m p).isThread d) ⟨m, k⟩ := by
  simp [rbnodeHasChild, hp]

@[simp] theorem wp_rbnodeSetThread (hp : p ≠ .null) {d : Side} {Q : Unit → RbState α → Prop} :
    wp (rbnodeSetThread p d) Q ⟨m, k⟩ ↔
      Q () ⟨Function.update m p ((m p).withFlags ((m p).flags ||| threadBit d)), k⟩ := by
  simp [rbnodeSetThread, hp]

@[simp] theorem wp_rbnodeUnsetThread (hp : p ≠ .null) {d : Side}
    {Q : Unit → RbState α → Prop} :
    wp (rbnodeUnsetThread p d) Q ⟨m, k⟩ ↔
      Q () ⟨Function.update m p ((m p).withFlags ((m p).flags &&& ~~~threadBit d)), k⟩ := by
  simp [rbnodeUnsetThread, hp]

@[simp] theorem wp_rbnodeAssignThreadFrom (hp : p ≠ .null) (hq : q ≠ .null) {d : Side}
    {Q : Unit → RbState α → Prop} :
    wp (rbnodeAssignThreadFrom p q d) Q ⟨m, k⟩ ↔
      Q () ⟨Function.update m p ((m p).withFlags
        (((m p).flags &&& ~~~threadBit d) ||| ((m q).flags &&& threadBit d))), k⟩ := by
  simp [rbnodeAssignThreadFrom, hp, hq]

omit [DecidableEq α] in
@[simp] theorem wp_compareAt {compare : α → α → ℤ} {a b : α} {Q : ℤ → RbState α → Prop} :
    wp (compareAt compare (.obj a) (.obj b)) Q ⟨m, k⟩ ↔ Q (compare a b) ⟨m, k⟩ :=
  wp_of_some rfl

omit [DecidableEq α] in
@[simp] theorem wp_rbtreeSize {Q : ℕ → RbState α → Prop} :
    wp rbtreeSize Q ⟨m, k⟩ ↔ Q k ⟨m, k⟩ := wp_of_some rfl

end Accessors

/-! ### Representing a tree -/

section Representation

variable {α : Type} (track : Side → Prop) (m : RbMem α)

/-- The link of `q` on side `d` leads to `t`: a child link to its root, or a
thread, which on a tracked side leads to `b`. -/
def LinkRep (q : RbPtr α) (d : Side) (t : ColorTree α) (b : RbPtr α) : Prop :=
  match t with
  | nil => (m q).isThread d = true ∧ (track d → (m q).link d = b)
  | node _ _ k _ => (m q).isThread d = false ∧ (m q).link d = .obj k

/-- `t` is laid out in the memory; `b` are the neighbours of its two ends. -/
def Rep : ColorTree α → (Side → RbPtr α) → Prop
  | nil, _ => True
  | node c l k r, b =>
      (m (.obj k)).color = c ∧
      (LinkRep track m (.obj k) .left l (b .left) ∧
        LinkRep track m (.obj k) .right r (b .right)) ∧
      Rep l (Function.update b .right (.obj k)) ∧ Rep r (Function.update b .left (.obj k))

attribute [grind =] Rep

/-- The sentinel above the tree `t`; its right link is a thread to itself. -/
def SentinelRep (t : ColorTree α) : Prop :=
  (m .sentinel).color = .black ∧
    match t with
    | nil => (m .sentinel).flags = rbLeaf
    | node _ _ k _ => (m .sentinel).flags = threadBit .right ∧
        (m .sentinel).left = .obj k ∧ (track .right → (m .sentinel).right = .sentinel)

/-- The in-order neighbours of the hole of a context. -/
def bounds : Context α → Side → RbPtr α
  | [] => fun _ => .sentinel
  | f :: ctx => Function.update (bounds ctx) f.side.flip (.obj f.key)

/-- The context is laid out in the memory around a subtree `t`. -/
def CtxRep : Context α → ColorTree α → Prop
  | [], t => SentinelRep track m t
  | f :: ctx, t =>
      ((m (.obj f.key)).color = f.color ∧
        LinkRep track m (.obj f.key) f.side t (bounds ctx f.side) ∧
        LinkRep track m (.obj f.key) f.side.flip f.sib (bounds ctx f.side.flip) ∧
        Rep track m f.sib (Function.update (bounds ctx) f.side (.obj f.key))) ∧
      CtxRep ctx (f.fill t)

attribute [grind =] bounds CtxRep

/-- A tree in its context is laid out in the memory. -/
def ZRep (ctx : Context α) (t : ColorTree α) : Prop :=
  CtxRep track m ctx t ∧ Rep track m t (bounds ctx)

variable {track m}

theorem rep_branch {d : Side} {c : Color} {x y : ColorTree α} {k : α} {b : Side → RbPtr α} :
    Rep track m (branch d c x k y) b ↔
      (m (.obj k)).color = c ∧
      (LinkRep track m (.obj k) d x (b d) ∧ LinkRep track m (.obj k) d.flip y (b d.flip)) ∧
      Rep track m x (Function.update b d.flip (.obj k)) ∧
      Rep track m y (Function.update b d (.obj k)) := by
  cases d
  · exact Iff.rfl
  · simp only [branch, Rep, Side.flip_right]
    tauto

theorem ctxRep_cons {f : Frame α} {ctx : Context α} {t : ColorTree α} :
    CtxRep track m (f :: ctx) t ↔
      ((m (.obj f.key)).color = f.color ∧
        LinkRep track m (.obj f.key) f.side t (bounds ctx f.side) ∧
        LinkRep track m (.obj f.key) f.side.flip f.sib (bounds ctx f.side.flip) ∧
        Rep track m f.sib (Function.update (bounds ctx) f.side (.obj f.key))) ∧
      CtxRep track m ctx (f.fill t) := Iff.rfl

/-- Moving a frame between the subtree and its context changes nothing. -/
theorem zRep_cons {f : Frame α} {ctx : Context α} {t : ColorTree α} :
    ZRep track m (f :: ctx) t ↔ ZRep track m ctx (f.fill t) := by
  unfold ZRep
  rw [ctxRep_cons, Frame.fill, rep_branch]
  simp only [bounds]
  tauto

/-- The same for a subtree given as a branch. -/
theorem zRep_branch {d : Side} {c : Color} {x y : ColorTree α} {k : α} {ctx : Context α} :
    ZRep track m ctx (branch d c x k y) ↔ ZRep track m (⟨d, c, k, y⟩ :: ctx) x :=
  (zRep_cons (f := ⟨d, c, k, y⟩)).symm

theorem zRep_append {low up : Context α} {t : ColorTree α} :
    ZRep track m up (low.plug t) ↔ ZRep track m (low ++ up) t := by
  induction low generalizing t with
  | nil => exact Iff.rfl
  | cons f low ih => exact ih.trans zRep_cons.symm

theorem zRep_plug {ctx : Context α} {t : ColorTree α} :
    ZRep track m [] (ctx.plug t) ↔ ZRep track m ctx t := by
  rw [zRep_append, List.append_nil]

/-! ### Frame lemmas -/

theorem LinkRep.frame {m' : RbMem α} {q : RbPtr α} {d : Side} {t : ColorTree α} {b : RbPtr α}
    (h : LinkRep track m q d t b) (hq : m' q = m q) : LinkRep track m' q d t b := by
  cases t with
  | nil => simpa only [LinkRep, hq] using h
  | node => simpa only [LinkRep, hq] using h

theorem Rep.frame {m' : RbMem α} {t : ColorTree α} {b : Side → RbPtr α} (h : Rep track m t b)
    (hm : ∀ a ∈ t.toList, m' (.obj a) = m (.obj a)) : Rep track m' t b := by
  induction t generalizing b with
  | nil => trivial
  | node c l k r ihl ihr =>
    obtain ⟨hc, ⟨hl, hr⟩, hl', hr'⟩ := h
    have hk : m' (.obj k) = m (.obj k) := hm k (by simp [toList])
    exact ⟨by rw [hk]; exact hc, ⟨hl.frame hk, hr.frame hk⟩,
      ihl hl' fun a ha => hm a (by simp [toList, ha]),
      ihr hr' fun a ha => hm a (by simp [toList, ha])⟩

theorem LinkRep.congr_bound {q : RbPtr α} {d : Side} {t : ColorTree α} {b b' : RbPtr α}
    (h : LinkRep track m q d t b) (hb : track d → b = b') : LinkRep track m q d t b' := by
  cases t with
  | nil => exact ⟨h.1, fun ht => (h.2 ht).trans (hb ht)⟩
  | node => exact h

/-- Only the tracked threads look at the neighbours. -/
theorem Rep.congr_bounds {t : ColorTree α} {b b' : Side → RbPtr α} (h : Rep track m t b)
    (hb : ∀ d, track d → b d = b' d) : Rep track m t b' := by
  induction t generalizing b b' with
  | nil => trivial
  | node c l k r ihl ihr =>
    obtain ⟨hc, ⟨hl, hr⟩, hl', hr'⟩ := h
    have hup : ∀ (e : Side) (d : Side), track d →
        Function.update b e (.obj k) d = Function.update b' e (.obj k) d := by
      intro e d ht
      by_cases hd : d = e
      · subst hd
        rw [Function.update_self, Function.update_self]
      · rw [Function.update_of_ne hd, Function.update_of_ne hd, hb d ht]
    exact ⟨hc, ⟨hl.congr_bound (hb _), hr.congr_bound (hb _)⟩, ihl hl' (hup _), ihr hr' (hup _)⟩

/-- A memory that is right on more sides is right on fewer. -/
theorem LinkRep.untrack {track' : Side → Prop} {q : RbPtr α} {d : Side} {t : ColorTree α}
    {b : RbPtr α} (h : LinkRep track m q d t b) (ht : ∀ d, track' d → track d) :
    LinkRep track' m q d t b := by
  cases t with
  | nil => exact ⟨h.1, fun hd => h.2 (ht d hd)⟩
  | node => exact h

theorem Rep.untrack {track' : Side → Prop} {t : ColorTree α} {b : Side → RbPtr α}
    (h : Rep track m t b) (ht : ∀ d, track' d → track d) : Rep track' m t b := by
  induction t generalizing b with
  | nil => trivial
  | node c l k r ihl ihr =>
    obtain ⟨hc, ⟨hl, hr⟩, hl', hr'⟩ := h
    exact ⟨hc, ⟨hl.untrack ht, hr.untrack ht⟩, ihl hl', ihr hr'⟩

theorem ZRep.untrack {track' : Side → Prop} {t : ColorTree α} (h : ZRep track m [] t)
    (ht : ∀ d, track' d → track d) : ZRep track' m [] t := by
  refine ⟨?_, h.2.untrack ht⟩
  cases t with
  | nil => exact h.1
  | node =>
    obtain ⟨hcolor, hflags, hleft, hright⟩ := h.1
    exact ⟨hcolor, hflags, hleft, fun hd => hright (ht _ hd)⟩

/-- The keys of a context. -/
def ctxKeys (ctx : Context α) : List α := ctx.before ++ ctx.after

theorem mem_ctxKeys_cons {f : Frame α} {ctx : Context α} {a : α} :
    a ∈ ctxKeys (f :: ctx) ↔ a = f.key ∨ a ∈ f.sib.toList ∨ a ∈ ctxKeys ctx := by
  obtain ⟨d, c, k, sib⟩ := f
  cases d <;>
    simp only [ctxKeys, Context.before, Context.after, List.mem_append, List.mem_cons,
      List.not_mem_nil, or_false] <;> tauto

theorem CtxRep.frame {m' : RbMem α} {ctx : Context α} {t : ColorTree α}
    (h : CtxRep track m ctx t) (hs : m' .sentinel = m .sentinel)
    (hm : ∀ a ∈ ctxKeys ctx, m' (.obj a) = m (.obj a)) : CtxRep track m' ctx t := by
  induction ctx generalizing t with
  | nil => simpa only [CtxRep, SentinelRep, hs] using h
  | cons f ctx ih =>
    obtain ⟨⟨hc, ht, hs', hr⟩, hctx⟩ := h
    have hk := hm f.key (mem_ctxKeys_cons.mpr (.inl rfl))
    exact ⟨⟨by rw [hk]; exact hc, ht.frame hk, hs'.frame hk,
      hr.frame fun a ha => hm a (mem_ctxKeys_cons.mpr (.inr (.inl ha)))⟩,
      ih hctx fun a ha => hm a (mem_ctxKeys_cons.mpr (.inr (.inr ha)))⟩

theorem ZRep.frame {m' : RbMem α} {ctx : Context α} {t : ColorTree α} (h : ZRep track m ctx t)
    (hs : m' .sentinel = m .sentinel)
    (hm : ∀ a, a ∈ ctxKeys ctx ∨ a ∈ t.toList → m' (.obj a) = m (.obj a)) :
    ZRep track m' ctx t :=
  ⟨h.1.frame hs fun a ha => hm a (.inl ha), h.2.frame fun a ha => hm a (.inr ha)⟩

/-! ### Distinct keys -/

/-- No key occurs twice in the tree or its context. -/
def Distinct (ctx : Context α) (t : ColorTree α) : Prop := (ctxKeys ctx ++ t.toList).Nodup

theorem perm_toList_branch (d : Side) (c : Color) (x y : ColorTree α) (k : α) :
    (branch d c x k y).toList.Perm (k :: (x.toList ++ y.toList)) := by
  cases d with
  | left => exact List.perm_middle
  | right => exact List.perm_middle.trans (List.perm_append_comm.cons k)

theorem perm_ctxKeys_cons (f : Frame α) (ctx : Context α) :
    (ctxKeys (f :: ctx)).Perm (f.key :: (f.sib.toList ++ ctxKeys ctx)) := by
  obtain ⟨d, c, k, sib⟩ := f
  cases d with
  | left =>
    refine List.perm_middle.trans (List.Perm.cons k ?_)
    simp only [ctxKeys, ← List.append_assoc]
    exact List.perm_append_comm.append_right _
  | right =>
    simp only [ctxKeys, Context.before, Context.after]
    have h : (ctx.before ++ (sib.toList ++ [k])).Perm (k :: (sib.toList ++ ctx.before)) := by
      refine List.perm_append_comm.trans ?_
      simp only [List.append_assoc, List.singleton_append]
      exact List.perm_middle
    simpa using h.append_right ctx.after

theorem distinct_cons {f : Frame α} {ctx : Context α} {t : ColorTree α} :
    Distinct (f :: ctx) t ↔ Distinct ctx (f.fill t) := by
  refine List.Perm.nodup_iff ?_
  have h₁ := (perm_ctxKeys_cons f ctx).append_right t.toList
  have h₂ := (perm_toList_branch f.side f.color t f.sib f.key).append_left (ctxKeys ctx)
  refine h₁.trans (List.Perm.trans ?_ h₂.symm)
  refine List.Perm.trans ?_ List.perm_middle.symm
  refine List.Perm.cons f.key ?_
  have h₃ : ((f.sib.toList ++ ctxKeys ctx) ++ t.toList).Perm
      ((t.toList ++ f.sib.toList) ++ ctxKeys ctx) := by
    rw [List.append_assoc t.toList]
    exact List.perm_append_comm
  exact h₃.trans List.perm_append_comm

theorem distinct_plug {ctx : Context α} {t : ColorTree α} :
    (ctx.plug t).toList.Nodup ↔ Distinct ctx t := by
  rw [Context.toList_plug]
  refine List.Perm.nodup_iff ?_
  simp only [ctxKeys, List.append_assoc]
  exact List.perm_append_comm.append_left _

theorem Distinct.not_mem_ctx {ctx : Context α} {t : ColorTree α} (h : Distinct ctx t) {a : α}
    (ha : a ∈ t.toList) : a ∉ ctxKeys ctx := fun hc =>
  (List.nodup_append.mp h).2.2 a hc a ha rfl

theorem Distinct.nodup {ctx : Context α} {t : ColorTree α} (h : Distinct ctx t) :
    t.toList.Nodup := (List.nodup_append.mp h).2.1

/-- The node above a hole is not in the hole, nor in the rest of the context. -/
theorem Distinct.frame_key {f : Frame α} {ctx : Context α} {t : ColorTree α}
    (h : Distinct (f :: ctx) t) :
    f.key ∉ t.toList ∧ f.key ∉ f.sib.toList ∧ f.key ∉ ctxKeys ctx := by
  rw [distinct_cons] at h
  have hk := nodup_branch h.nodup
  exact ⟨hk.2.2.1, hk.2.2.2.1, h.not_mem_ctx (mem_toList_branch.mpr (.inl rfl))⟩

theorem Distinct.congr {ctx : Context α} {t t' : ColorTree α} (h : Distinct ctx t)
    (ht : t'.toList.Perm t.toList) : Distinct ctx t' :=
  (List.Perm.nodup_iff (ht.append_left _)).mpr h

/-! ### The link into a hole -/

/-- The node whose link leads into the hole. -/
def holder : Context α → RbPtr α
  | [] => .sentinel
  | f :: _ => .obj f.key

/-- The side of that link. -/
def side : Context α → Side
  | [] => .left
  | f :: _ => f.side

theorem holder_ne_null (ctx : Context α) : holder ctx ≠ .null := by
  cases ctx <;> simp [holder]

theorem holder_obj {ctx : Context α} {a : α} (h : holder ctx = .obj a) : a ∈ ctxKeys ctx := by
  rcases ctx with _ | ⟨f, ctx⟩
  · simp [holder] at h
  · simp only [holder, RbPtr.obj.injEq] at h
    exact mem_ctxKeys_cons.mpr (.inl h.symm)

theorem CtxRep.link_eq {ctx : Context α} {t : ColorTree α} {k : α} (h : CtxRep track m ctx t)
    (hk : t.rootKey = some k) :
    (m (holder ctx)).isThread (side ctx) = false ∧ (m (holder ctx)).link (side ctx) = .obj k := by
  rcases t with _ | ⟨c, l, k', r⟩
  · simp [rootKey] at hk
  · obtain rfl : k' = k := by simpa [rootKey] using hk
    rcases ctx with _ | ⟨f, ctx⟩
    · obtain ⟨-, hf, hl, -⟩ := h
      exact ⟨by simp only [holder, side, Rbnode.isThread, hf]; decide, hl⟩
    · exact h.1.2.1

theorem CtxRep.isThread_iff {ctx : Context α} {t : ColorTree α} (h : CtxRep track m ctx t) :
    (m (holder ctx)).isThread (side ctx) = true ↔ t = nil := by
  rcases t with _ | ⟨c, l, k, r⟩
  · refine iff_of_true ?_ rfl
    rcases ctx with _ | ⟨f, ctx⟩
    · have hf : (m .sentinel).flags = rbLeaf := h.2
      simp only [holder, side, Rbnode.isThread, hf]
      decide
    · exact h.1.2.1.1
  · rw [(h.link_eq (k := k) rfl).1]
    simp

/-- The neighbour of a hole is the sentinel or a node of the context. -/
theorem bounds_eq (ctx : Context α) (d : Side) :
    bounds ctx d = .sentinel ∨ ∃ a ∈ ctxKeys ctx, bounds ctx d = .obj a := by
  induction ctx with
  | nil => exact .inl rfl
  | cons f ctx ih =>
    by_cases hd : d = f.side.flip
    · subst hd
      exact .inr ⟨f.key, mem_ctxKeys_cons.mpr (.inl rfl), by simp [bounds]⟩
    · rw [bounds, Function.update_of_ne hd]
      rcases ih with h | ⟨a, ha, h⟩
      · exact .inl h
      · exact .inr ⟨a, mem_ctxKeys_cons.mpr (.inr (.inr ha)), h⟩

theorem rootKey_mem {t : ColorTree α} {k : α} (h : t.rootKey = some k) : k ∈ t.toList := by
  rcases t with _ | ⟨c, l, k', r⟩
  · simp [rootKey] at h
  · simp only [rootKey, Option.some.injEq] at h
    simp [toList, h]

/-- A right link that is not the child link into the hole does not lead to the
root of the subtree in it: right threads lead to the sentinel or up the context. -/
theorem ZRep.right_ne {ctx : Context α} {t : ColorTree α} {k : α} (h : ZRep track m ctx t)
    (hd : Distinct ctx t) (ht : track .right) (hk : t.rootKey = some k)
    (hs : side ctx = .left) : (m (holder ctx)).link .right ≠ .obj k := by
  have hkt : k ∉ ctxKeys ctx := hd.not_mem_ctx (rootKey_mem hk)
  rcases ctx with _ | ⟨⟨d, c, q, sib⟩, ctx⟩
  · rcases t with _ | ⟨c, l, k', r⟩
    · simp [rootKey] at hk
    · have hr : (m .sentinel).link .right = .sentinel := h.1.2.2.2 ht
      simp [holder, hr]
  · obtain rfl : d = .left := hs
    have hsib : LinkRep track m (.obj q) .right sib (bounds ctx .right) := h.1.1.2.2.1
    rcases sib with _ | ⟨c', l', k', r'⟩
    · have hr : (m (.obj q)).link .right = bounds ctx .right := hsib.2 ht
      simp only [holder, hr]
      rcases bounds_eq ctx .right with hb | ⟨a, ha, hb⟩
      · simp [hb]
      · rw [hb]
        rintro ⟨rfl⟩
        exact hkt (mem_ctxKeys_cons.mpr (.inr (.inr ha)))
    · have hr : (m (.obj q)).link .right = .obj k' := hsib.2
      simp only [holder, hr]
      rintro ⟨rfl⟩
      exact hkt (mem_ctxKeys_cons.mpr (.inr (.inl (by simp [toList]))))

variable [DecidableEq α]

/-- Comparing the right link of a node with its child tells the child's side, unless the
right link of the node leads to its left child. -/
theorem ZRep.told {ctx : Context α} {t : ColorTree α} {k : α} (h : ZRep track m ctx t)
    (hk : t.rootKey = some k)
    (hne : side ctx = .left → (m (holder ctx)).link .right ≠ .obj k) :
    rbdir ((m (holder ctx)).link .right = .obj k) = side ctx := by
  cases hs : side ctx with
  | right =>
    have hlink := (h.1.link_eq hk).2
    rw [hs] at hlink
    simp [hlink, rbdir]
  | left => simp [hne hs, rbdir]

theorem ZRep.rbdir_right {ctx : Context α} {t : ColorTree α} {k : α} (h : ZRep track m ctx t)
    (hd : Distinct ctx t) (ht : track .right) (hk : t.rootKey = some k) :
    rbdir ((m (holder ctx)).link .right = .obj k) = side ctx :=
  h.told hk (h.right_ne hd ht hk)

/-! ### Writing to the memory -/

omit [DecidableEq α] in
theorem LinkRep.congr_root {q : RbPtr α} {d : Side} {t t' : ColorTree α} {b : RbPtr α} {k : α}
    (h : LinkRep track m q d t b) (ht : t.rootKey = some k) (ht' : t'.rootKey = some k) :
    LinkRep track m q d t' b := by
  rcases t with _ | ⟨c, l, k₁, r⟩ <;> rcases t' with _ | ⟨c', l', k₂, r'⟩ <;>
    simp only [rootKey, Option.some.injEq, reduceCtorEq] at ht ht'
  subst ht ht'
  exact h

omit [DecidableEq α] in
/-- Only the root key of a nonempty subtree matters to its context. -/
theorem CtxRep.congr_root {ctx : Context α} {t t' : ColorTree α} {k : α}
    (h : CtxRep track m ctx t) (ht : t.rootKey = some k) (ht' : t'.rootKey = some k) :
    CtxRep track m ctx t' := by
  induction ctx generalizing t t' k with
  | nil =>
    rcases t with _ | ⟨c, l, k₁, r⟩ <;> rcases t' with _ | ⟨c', l', k₂, r'⟩ <;>
      simp only [rootKey, Option.some.injEq, reduceCtorEq] at ht ht'
    subst ht ht'
    exact h
  | cons f ctx ih =>
    exact ⟨⟨h.1.1, h.1.2.1.congr_root ht ht', h.1.2.2⟩,
      ih h.2 (rootKey_branch _ _ _ _ _) (rootKey_branch _ _ _ _ _)⟩

/-- The link into the hole, redirected to another subtree root. -/
theorem CtxRep.relink {ctx : Context α} {t t' : ColorTree α} {k k' : α}
    (h : CtxRep track m ctx t) (ht : t.rootKey = some k) (ht' : t'.rootKey = some k')
    (hd : Distinct ctx t) :
    CtxRep track (Function.update m (holder ctx)
      ((m (holder ctx)).withLink (side ctx) (.obj k'))) ctx t' := by
  rcases t' with _ | ⟨c', l', k₂, r'⟩
  · simp [rootKey] at ht'
  obtain rfl : k₂ = k' := by simpa [rootKey] using ht'
  rcases t with _ | ⟨c, l, k₁, r⟩
  · simp [rootKey] at ht
  rcases ctx with _ | ⟨⟨d, fc, q, sib⟩, ctx⟩
  · obtain ⟨hc, hf, hl, hr⟩ := h
    exact ⟨by simp [holder, side, Rbnode.withLink, hc],
      by simp [holder, side, Rbnode.withLink, hf], by simp [holder, side, Rbnode.withLink],
      fun ht => by simp [holder, side, Rbnode.withLink, hr ht]⟩
  · obtain ⟨⟨hc, hl, hs, hrep⟩, hctx⟩ := h
    obtain ⟨-, hsib, hq⟩ := hd.frame_key
    simp only [holder, side] at *
    refine ⟨⟨by simp [hc], ⟨by simp [hl.1], by simp⟩, ?_, ?_⟩, ?_⟩
    · rcases sib with _ | ⟨cs, ls, ks, rs⟩
      · exact ⟨by simp [hs.1], fun ht => by simp [hs.2 ht]⟩
      · exact ⟨by simp [hs.1], by simp [hs.2]⟩
    · refine hrep.frame fun a ha => Function.update_of_ne ?_ _ _
      rintro ⟨rfl⟩
      exact hsib ha
    · refine (hctx.frame ?_ fun a ha => Function.update_of_ne ?_ _ _).congr_root
        (rootKey_branch _ _ _ _ _) (rootKey_branch _ _ _ _ _)
      · simp
      · rintro ⟨rfl⟩
        exact hq ha

/-- A node of a represented tree painted in another colour. -/
theorem ZRep.paint {ctx : Context α} {t : ColorTree α} {k : α} (h : ZRep track m ctx t)
    (hd : Distinct ctx t) (hk : t.rootKey = some k) (c : Color) :
    ZRep track (Function.update m (.obj k) ((m (.obj k)).withColor c)) ctx (t.paint c) := by
  rcases t with _ | ⟨c', l, k', r⟩
  · simp [rootKey] at hk
  obtain rfl : k' = k := by simpa [rootKey] using hk
  obtain ⟨hctx, hc, ⟨hl, hr⟩, hl', hr'⟩ := h
  have hkc : k' ∉ ctxKeys ctx := hd.not_mem_ctx (by simp [toList])
  obtain ⟨-, -, hkl, hkr, -⟩ := nodup_branch (d := .left) hd.nodup
  have hlink : ∀ (d : Side) (x : ColorTree α) (b : RbPtr α), LinkRep track m (.obj k') d x b →
      LinkRep track (Function.update m (.obj k') ((m (.obj k')).withColor c)) (.obj k') d x b := by
    intro d x b hx
    rcases x with _ | ⟨cx, lx, kx, rx⟩
    · exact ⟨by simp [hx.1], fun ht => by simp [hx.2 ht]⟩
    · exact ⟨by simp [hx.1], by simp [hx.2]⟩
  have hne : ∀ {x : ColorTree α}, k' ∉ x.toList → ∀ a ∈ x.toList,
      Function.update m (.obj k') ((m (.obj k')).withColor c) (.obj a) = m (.obj a) := by
    intro x hx a ha
    refine Function.update_of_ne ?_ _ _
    rintro ⟨rfl⟩
    exact hx ha
  refine ⟨(hctx.frame (by simp) fun a ha => Function.update_of_ne ?_ _ _).congr_root
    (k := k') rfl rfl, by simp, ⟨hlink _ _ _ hl, hlink _ _ _ hr⟩, hl'.frame (hne hkl),
    hr'.frame (hne hkr)⟩
  rintro ⟨rfl⟩
  exact hkc ha

omit [DecidableEq α] in
theorem Distinct.of_toList {ctx ctx' : Context α} {t t' : ColorTree α} (h : Distinct ctx t)
    (hl : (ctx'.plug t').toList = (ctx.plug t).toList) : Distinct ctx' t' := by
  rw [← distinct_plug, hl, distinct_plug]
  exact h

omit [DecidableEq α] in
theorem Distinct.paint {ctx : Context α} {t : ColorTree α} (h : Distinct ctx t) (c : Color) :
    Distinct ctx (t.paint c) := by
  rwa [Distinct, toList_paint]

omit [DecidableEq α] in
theorem distinct_branch {d : Side} {c : Color} {x y : ColorTree α} {q : α} {ctx : Context α} :
    Distinct ctx (branch d c x q y) ↔ Distinct (⟨d, c, q, y⟩ :: ctx) x :=
  (distinct_cons (f := ⟨d, c, q, y⟩)).symm

omit [DecidableEq α] in
/-- The child link of a node on side `d`. -/
theorem ZRep.child_link {ctx : Context α} {d : Side} {c : Color} {x y : ColorTree α} {q j : α}
    (h : ZRep track m ctx (branch d c x q y)) (hx : x.rootKey = some j) :
    (m (.obj q)).isThread d = false ∧ (m (.obj q)).link d = .obj j :=
  (zRep_branch.mp h).1.link_eq hx

/-- Painting a child. -/
theorem ZRep.paint_child {ctx : Context α} {d : Side} {c : Color} {x y : ColorTree α} {q j : α}
    (h : ZRep track m ctx (branch d c x q y)) (hd : Distinct ctx (branch d c x q y))
    (hx : x.rootKey = some j) (c' : Color) :
    ZRep track (Function.update m (.obj j) ((m (.obj j)).withColor c')) ctx
      (branch d c (x.paint c') q y) :=
  zRep_branch.mpr ((zRep_branch.mp h).paint (distinct_branch.mp hd) hx c')

end Representation

end Cldm
