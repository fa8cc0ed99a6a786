/-
Insertion into the represented tree.

`cldm_rbtree_insert` rebalances on its way down: at a node with two red
children it recolours, and rotates when the parent is red as well.  `Balanced`
lists what that can do to the context and the subtree
(`wp_rbtreeBalanceInsertion`); it keeps the keys, the red-black conditions and
the place of the new key (`Balanced.toList_eq`, `.redBlack`, `.surrounds`).

After a rotation the pointers to the grandparents are stale for one or two
turns.  The loop invariant has therefore two forms, `InsertAt` and, in the turn
after a double rotation, `DoubleAt`; a subtree that is `Cold` needs no
rebalancing at its root, so that the stale pointers are never used.

* `RbInv.insert` — an insertion returns, stores exactly the new node unless an
  equal one is there, and keeps the invariant.
-/
import Cldm.RbtreeInv
import Cldm.RbtreeRotate

namespace Cldm

open Prog ColorTree

variable {α : Type} [DecidableEq α] {track : Side → Prop} {m : RbMem α} {k : ℕ}

/-! ### Rebalancing -/

/-- Recolouring a node whose children are both present or both absent. -/
theorem wp_balanceInsertionRecolor {ctx : Context α} {c : Color} {l r : ColorTree α} {q : α}
    (h : ZRep track m ctx (node c l q r)) (hd : Distinct ctx (node c l q r))
    (hlr : l = nil ↔ r = nil) :
    wp (balanceInsertionRecolor (.obj q)) (fun _ s => s.size = k ∧
      ZRep track s.mem ctx (node .red (l.paint .black) q (r.paint .black))) ⟨m, k⟩ := by
  have h₁ := h.paint hd (k := q) rfl .red
  simp only [balanceInsertionRecolor, wp_bind, ne_eq, reduceCtorEq, not_false_eq_true,
    wp_rbnodeMakeRed, wp_and, wp_rbnodeHasChild, wp_ite]
  set m₁ := Function.update m (.obj q) ((m (.obj q)).withColor .red) with hm₁
  obtain ⟨-, ⟨hl, hr⟩, -⟩ := h₁.2
  rcases l with _ | ⟨cl, ll, kl, rl⟩
  · obtain rfl := hlr.mp rfl
    simp only [hl.1, Bool.not_true, Bool.false_eq_true, if_false, wp_pure]
    exact ⟨trivial, h₁⟩
  · rcases r with _ | ⟨cr, lr, kr, rr⟩
    · exact absurd (hlr.mpr rfl) (by simp)
    have h₂ := ZRep.paint_child (d := .left) h₁ (hd.paint .red) (j := kl) rfl .black
    have hr₂ := (ZRep.child_link (d := .right) h₂ (j := kr) rfl).2
    have h₃ := ZRep.paint_child (d := .right) h₂
      (hd.of_toList (by simp [Context.toList_plug, branch, toList, ColorTree.paint]))
      (j := kr) rfl .black
    simp only [hl.1, hr.1, hl.2, hr₂, Bool.not_false, if_true, ne_eq, reduceCtorEq,
      not_false_eq_true, wp_bind, wp_link, wp_rbnodeMakeBlack]
    exact ⟨trivial, h₃⟩

/-- Below a black node nothing has to be rotated. -/
theorem wp_balanceInsertionRotate_black {n p gp ggp : RbPtr α} {Q : Unit → RbState α → Prop}
    (hp : p ≠ .null) (hc : (m p).color = .black) :
    wp (balanceInsertionRotate n p gp ggp) Q ⟨m, k⟩ ↔ Q () ⟨m, k⟩ := by
  simp [balanceInsertionRotate, hp, hc]

/-- Below a red node on the same side of its own parent, one rotation. -/
theorem wp_balanceInsertionRotate_single {ctx : Context α} {t s₀ s₁ : ColorTree α} {d : Side}
    {c : Color} {q p g : α} (h : ZRep track m (⟨d, .red, p, s₀⟩ :: ⟨d, c, g, s₁⟩ :: ctx) t)
    (hd : Distinct (⟨d, .red, p, s₀⟩ :: ⟨d, c, g, s₁⟩ :: ctx) t) (ht : track .right)
    (hq : t.rootKey = some q) :
    wp (balanceInsertionRotate (.obj q) (.obj p) (.obj g) (holder ctx)) (fun _ s => s.size = k ∧
      ZRep track s.mem ctx (branch d .black t p (branch d .red s₀ g s₁))) ⟨m, k⟩ := by
  have hpc : (m (.obj p)).color = .red := h.1.1.1
  -- gp is painted red before the links are compared
  have hgd := distinct_cons.mp (distinct_cons.mp hd)
  have h₁ := (zRep_cons.mp (zRep_cons.mp h)).paint hgd (rootKey_branch _ _ _ _ _) .red
  simp only [Frame.fill, paint_branch] at h₁ hgd
  set m₁ := Function.update m (.obj g) ((m (.obj g)).withColor .red) with hm₁
  have hd₁ : Distinct ctx (branch d .red (branch d .red t p s₀) g s₁) := by
    simpa only [paint_branch] using hgd.paint .red
  have hggpdir := h₁.rbdir_right hd₁ ht (rootKey_branch _ _ _ _ _)
  have hgpdir : rbdir ((m₁ (.obj g)).link .right = .obj p) = d :=
    (zRep_branch.mp h₁).rbdir_right (distinct_branch.mp hd₁) ht (rootKey_branch _ _ _ _ _)
  have hpdir : rbdir ((m₁ (.obj p)).link .right = .obj q) = d :=
    (zRep_branch.mp (zRep_branch.mp h₁)).rbdir_right
      (distinct_branch.mp (distinct_branch.mp hd₁)) ht hq
  simp only [balanceInsertionRotate, wp_bind, ne_eq, reduceCtorEq, not_false_eq_true,
    wp_rbnodeIsRed, hpc, decide_true, if_true, wp_rbnodeMakeRed, wp_link, ← hm₁,
    holder_ne_null, hpdir, hgpdir, hggpdir, not_true_eq_false, if_false]
  have h₂ := h₁
  have hd₂ := hd₁
  rw [← branch_flip d .red _ g, ← branch_flip d .red _ p] at h₂ hd₂
  refine wp_mono (rotateSingle_relink h₂ hd₂) ?_
  rintro r ⟨m₂, k₂⟩ ⟨rfl, rfl, h₃, -⟩
  simp only [branch_flip] at h₃
  have hd₃ : Distinct ctx (branch d .black t p (branch d .red s₀ g s₁)) :=
    hd₁.congr (by cases d <;> simp [branch, toList])
  have h₄ := h₃.paint hd₃ (rootKey_branch _ _ _ _ _) .black
  rw [wp_bind, wp_setLink (holder_ne_null ctx), wp_rbnodeMakeBlack (by simp)]
  exact ⟨rfl, by simpa only [paint_branch] using h₄⟩

/-- Below a red node on the other side of its parent, two rotations. -/
theorem wp_balanceInsertionRotate_double {ctx : Context α} {x y s₀ s₁ : ColorTree α} {d : Side}
    {c c' : Color} {q p g : α}
    (h : ZRep track m (⟨d.flip, .red, p, s₀⟩ :: ⟨d, c, g, s₁⟩ :: ctx) (branch d c' x q y))
    (hd : Distinct (⟨d.flip, .red, p, s₀⟩ :: ⟨d, c, g, s₁⟩ :: ctx) (branch d c' x q y))
    (ht : track .right) :
    wp (balanceInsertionRotate (.obj q) (.obj p) (.obj g) (holder ctx)) (fun _ s => s.size = k ∧
      ZRep track s.mem ctx
        (branch d .black (branch d .red s₀ p x) q (branch d .red y g s₁))) ⟨m, k⟩ := by
  have hpc : (m (.obj p)).color = .red := h.1.1.1
  have hgd := distinct_cons.mp (distinct_cons.mp hd)
  have h₁ := (zRep_cons.mp (zRep_cons.mp h)).paint hgd (rootKey_branch _ _ _ _ _) .red
  simp only [Frame.fill, paint_branch] at h₁ hgd
  set m₁ := Function.update m (.obj g) ((m (.obj g)).withColor .red) with hm₁
  have hd₁ : Distinct ctx
      (branch d .red (branch d.flip .red (branch d c' x q y) p s₀) g s₁) := by
    simpa only [paint_branch] using hgd.paint .red
  have hggpdir := h₁.rbdir_right hd₁ ht (rootKey_branch _ _ _ _ _)
  have hgpdir : rbdir ((m₁ (.obj g)).link .right = .obj p) = d :=
    (zRep_branch.mp h₁).rbdir_right (distinct_branch.mp hd₁) ht (rootKey_branch _ _ _ _ _)
  have hpdir : rbdir ((m₁ (.obj p)).link .right = .obj q) = d.flip :=
    (zRep_branch.mp (zRep_branch.mp h₁)).rbdir_right
      (distinct_branch.mp (distinct_branch.mp hd₁)) ht (rootKey_branch _ _ _ _ _)
  simp only [balanceInsertionRotate, wp_bind, ne_eq, reduceCtorEq, not_false_eq_true,
    wp_rbnodeIsRed, hpc, decide_true, if_true, wp_rbnodeMakeRed, wp_link, ← hm₁,
    holder_ne_null, hpdir, hgpdir, hggpdir, Side.flip_ne]
  have h₂ := h₁
  have hd₂ := hd₁
  rw [← branch_flip d .red _ g, ← branch_flip d c'] at h₂ hd₂
  refine wp_mono (rotateDouble_relink h₂ hd₂) ?_
  rintro r ⟨m₂, k₂⟩ ⟨rfl, rfl, h₃, -⟩
  simp only [branch_flip] at h₃
  have hd₃ : Distinct ctx (branch d .black (branch d .red s₀ p x) q (branch d .red y g s₁)) :=
    hd₁.congr (by cases d <;> simp [branch, toList])
  have h₄ := h₃.paint hd₃ (rootKey_branch _ _ _ _ _) .black
  rw [wp_bind, wp_setLink (holder_ne_null ctx), wp_rbnodeMakeBlack (by simp)]
  exact ⟨rfl, by simpa only [paint_branch] using h₄⟩

/-- What the rebalancing at a node `q` with children `l` and `r` makes of the
context and the subtree. -/
inductive Balanced (l : ColorTree α) (q : α) (r : ColorTree α) :
    Context α → Context α → ColorTree α → Prop where
  | keep {ctx : Context α} : (∀ f ∈ ctx.head?, f.color = .black) →
      Balanced l q r ctx ctx (node .red l q r)
  | single {ctx : Context α} {d : Side} {p g : α} {s₀ s₁ : ColorTree α} : s₁.isRed = false →
      Balanced l q r (⟨d, .red, p, s₀⟩ :: ⟨d, .black, g, s₁⟩ :: ctx)
        (⟨d, .black, p, branch d .red s₀ g s₁⟩ :: ctx) (node .red l q r)
  | double {ctx : Context α} {d : Side} {p g : α} {s₀ s₁ x y : ColorTree α} :
      s₁.isRed = false → node .red l q r = branch d .red x q y →
      Balanced l q r (⟨d.flip, .red, p, s₀⟩ :: ⟨d, .black, g, s₁⟩ :: ctx) ctx
        (branch d .black (branch d .red s₀ p x) q (branch d .red y g s₁))

omit [DecidableEq α] in
theorem Balanced.toList_eq {l r t : ColorTree α} {q : α} {ctx ctx' : Context α}
    (h : Balanced l q r ctx ctx' t) :
    (ctx'.plug t).toList = (ctx.plug (node .red l q r)).toList := by
  cases h with
  | keep => rfl
  | @single ctx d p g s₀ s₁ =>
    cases d <;> simp [Context.toList_plug, Context.before, Context.after, branch, toList]
  | @double ctx d p g s₀ s₁ x y _ hxy =>
    rw [hxy]
    cases d <;> simp [Context.toList_plug, Context.before, Context.after, branch, toList]

omit [DecidableEq α] in
theorem Balanced.redBlack {l r t : ColorTree α} {q : α} {ctx ctx' : Context α} {n : ℕ}
    (h : Balanced l q r ctx ctx' t) (hl : l.RedBlack .black n) (hr : r.RedBlack .black n)
    (hctx : ctx.RedBlack .black n) : ∃ c n', t.RedBlack c n' ∧ ctx'.RedBlack c n' := by
  cases h with
  | keep hblack =>
    refine ⟨.red, n, ⟨rfl, hl, hr⟩, ?_⟩
    rcases ctx with _ | ⟨⟨d, c, k, sib⟩, ctx⟩
    · trivial
    · obtain rfl : c = .black := hblack _ rfl
      exact hctx
  | single hs₁ =>
    obtain ⟨-, hs₀, ⟨c, hc⟩, hrest⟩ := hctx
    obtain rfl := hc.eq_black hs₁
    exact ⟨.red, n, ⟨rfl, hl, hr⟩, ⟨.red, redBlack_branch_red.mpr ⟨rfl, hs₀, hc⟩⟩, hrest⟩
  | double hs₁ hxy =>
    obtain ⟨-, hs₀, ⟨c, hc⟩, hrest⟩ := hctx
    obtain rfl := hc.eq_black hs₁
    have hred : (node .red l q r).RedBlack .red n := ⟨rfl, hl, hr⟩
    rw [hxy] at hred
    obtain ⟨-, hx, hy⟩ := redBlack_branch_red.mp hred
    exact ⟨.black, n + 1, redBlack_branch_black.mpr ⟨rfl, n, rfl,
      ⟨.red, redBlack_branch_red.mpr ⟨rfl, hs₀, hx⟩⟩,
      .red, redBlack_branch_red.mpr ⟨rfl, hy, hc⟩⟩, hrest⟩

omit [DecidableEq α] in
theorem Surrounds.tail {compare : α → α → ℤ} {f : Frame α} {ctx : Context α} {x : α}
    (h : Surrounds compare (f :: ctx) x) : Surrounds compare ctx x := by
  obtain ⟨d, c, k, sib⟩ := f
  cases d with
  | left => exact ⟨h.before, fun a ha => h.after a (by simp [Context.after, ha])⟩
  | right => exact ⟨fun a ha => h.before a (by simp [Context.before, ha]), h.after⟩

omit [DecidableEq α] in
theorem Surrounds.toward {compare : α → α → ℤ} {f : Frame α} {ctx : Context α} {x : α}
    (h : Surrounds compare (f :: ctx) x) : Toward compare f.key x f.side := by
  obtain ⟨d, c, k, sib⟩ := f
  cases d with
  | left => exact h.after k (by simp [Context.after])
  | right => exact h.before k (by simp [Context.before])

omit [DecidableEq α] in
theorem Balanced.surrounds {compare : α → α → ℤ} {l r t : ColorTree α} {q x : α}
    {ctx ctx' : Context α} (h : Balanced l q r ctx ctx' t) (hs : Surrounds compare ctx x) :
    Surrounds compare ctx' x := by
  cases h with
  | keep => exact hs
  | @single ctx d p g s₀ s₁ =>
    have hb : Context.before (⟨d, .black, p, branch d .red s₀ g s₁⟩ :: ctx) =
        Context.before (⟨d, .red, p, s₀⟩ :: ⟨d, .black, g, s₁⟩ :: ctx) := by
      cases d <;> simp [Context.before, branch, toList]
    have ha : Context.after (⟨d, .black, p, branch d .red s₀ g s₁⟩ :: ctx) =
        Context.after (⟨d, .red, p, s₀⟩ :: ⟨d, .black, g, s₁⟩ :: ctx) := by
      cases d <;> simp [Context.after, branch, toList]
    exact ⟨hb ▸ hs.before, ha ▸ hs.after⟩
  | double => exact hs.tail.tail

/-- The pointers of the descent to the ancestors of the parent are right as far
as a rotation needs them. -/
def AncestorsAt (ctx : Context α) (gp ggp : RbPtr α) : Prop :=
  match ctx with
  | [] => True
  | f :: rest => gp = holder rest ∧ (f.color = .red →
      match rest with
      | [] => False
      | g :: rest' => ggp = holder rest' ∧ g.sib.isRed = false)

theorem wp_rbtreeBalanceInsertion {ctx : Context α} {c : Color} {l r : ColorTree α} {q : α}
    {gp ggp : RbPtr α} {n : ℕ} (h : ZRep track m ctx (node c l q r))
    (hd : Distinct ctx (node c l q r)) (ht : track .right) (hlr : l = nil ↔ r = nil)
    (hrb : ctx.RedBlack .black n) (hanc : AncestorsAt ctx gp ggp) :
    wp (rbtreeBalanceInsertion (.obj q) (holder ctx) gp ggp) (fun _ s => s.size = k ∧
      ∃ ctx' t', Balanced (l.paint .black) q (r.paint .black) ctx ctx' t' ∧
        ZRep track s.mem ctx' t') ⟨m, k⟩ := by
  rw [rbtreeBalanceInsertion, wp_bind]
  refine wp_mono (wp_balanceInsertionRecolor h hd hlr) ?_
  rintro _ ⟨m₁, k₁⟩ ⟨rfl, h₁⟩
  have hd₁ : Distinct ctx (node .red (l.paint .black) q (r.paint .black)) :=
    hd.congr (by simp [toList])
  rcases ctx with _ | ⟨⟨d₀, c₀, p, s₀⟩, ctx⟩
  · have hblack : (m₁ (holder ([] : Context α))).color = .black := h₁.1.1
    rw [wp_balanceInsertionRotate_black (holder_ne_null _) hblack]
    exact ⟨rfl, [], _, .keep (by simp), h₁⟩
  cases c₀ with
  | black =>
    rw [wp_balanceInsertionRotate_black (holder_ne_null _) h₁.1.1.1]
    exact ⟨rfl, _, _, .keep (by simp), h₁⟩
  | red =>
    obtain ⟨rfl, hanc⟩ := hanc
    rcases ctx with _ | ⟨⟨d₁, c₁, g, s₁⟩, ctx⟩
    · exact (hanc rfl).elim
    obtain ⟨rfl, hs₁⟩ := hanc rfl
    obtain rfl : c₁ = .black := by
      cases c₁ with
      | black => rfl
      | red => exact absurd hrb.2.2.1 (by simp)
    rcases Side.eq_or_eq_flip d₁ d₀ with rfl | rfl
    · refine wp_mono (wp_balanceInsertionRotate_single h₁ hd₁ ht rfl) ?_
      rintro _ s ⟨hsize, h₂⟩
      exact ⟨hsize, _, _, .single hs₁, zRep_branch.mp h₂⟩
    · obtain ⟨x, y, hxy⟩ := node_eq_branch d₁ .red (l.paint .black) q (r.paint .black)
      rw [hxy] at h₁ hd₁
      refine wp_mono (wp_balanceInsertionRotate_double h₁ hd₁ ht) ?_
      rintro _ s ⟨hsize, h₂⟩
      exact ⟨hsize, _, _, .double hs₁ hxy, h₂⟩

/-! ### One turn of the descent -/

/-- A subtree at which neither a recolouring nor a rotation takes place. -/
def Cold : ColorTree α → Prop
  | nil => False
  | node c l _ r => c = .black ∧ l.isRed = false ∧ r.isRed = false

omit [DecidableEq α] in
theorem cold_branch {d : Side} {c : Color} {x y : ColorTree α} {q : α} :
    Cold (branch d c x q y) ↔ c = .black ∧ x.isRed = false ∧ y.isRed = false := by
  cases d with
  | left => exact Iff.rfl
  | right => exact and_congr_right fun _ => and_comm

omit [DecidableEq α] in
theorem Cold.exists_rootKey {t : ColorTree α} (h : Cold t) : ∃ j, t.rootKey = some j := by
  rcases t with _ | ⟨c, l, j, r⟩
  · exact h.elim
  · exact ⟨j, rfl⟩

omit [DecidableEq α] in
theorem Cold.isRed_eq {t : ColorTree α} (h : Cold t) : t.isRed = false := by
  rcases t with _ | ⟨c, l, j, r⟩
  · rfl
  · obtain ⟨rfl, -⟩ := h
    rfl

omit [DecidableEq α] in
theorem cold_paint {t : ColorTree α} {n : ℕ} (h : t.RedBlack .red n) :
    Cold (t.paint .black) := by
  rcases t with _ | ⟨_ | _, l, j, r⟩
  · exact absurd h.1 (by simp)
  · exact absurd h.1 (by simp)
  · exact ⟨rfl, h.2.1.isRed_black, h.2.2.isRed_black⟩

variable (track) (compare : α → α → ℤ) (keys : List α) (size : ℕ) (x : α)

/-- The descent towards `x` stands at the root of `t`. -/
structure FocusAt (ctx : Context α) (t : ColorTree α) (n : RbPtr α) (s : RbState α) : Prop where
  rep : ZRep track s.mem ctx t
  toList_eq : (ctx.plug t).toList = keys
  redBlack : ∃ c n, t.RedBlack c n ∧ ctx.RedBlack c n
  surrounds : Surrounds compare ctx x
  size_eq : s.size = size
  n_eq : ∃ q, t.rootKey = some q ∧ n = .obj q

/-- The loop invariant of the descent. -/
structure InsertAt (ctx : Context α) (t : ColorTree α) (ggp gp p n : RbPtr α)
    (s : RbState α) : Prop extends FocusAt track compare keys size x ctx t n s where
  p_eq : p = holder ctx
  root : ctx = [] → t.isRed = false
  sibling : ∀ f ∈ ctx.head?, t.isRed = true → f.sib.isRed = false
  ancestors : Cold t ∨ AncestorsAt ctx gp ggp

/-- The turn after a double rotation: the way goes on to the cold child `u`. -/
structure DoubleAt (ctx : Context α) (d : Side) (u : ColorTree α) (n : RbPtr α)
    (s : RbState α) : Prop where
  cold : Cold u
  focus : ∃ a v, FocusAt track compare keys size x ctx (branch d .red u a v) n s ∧
    Toward compare a x d

/-- What holds when the descent is over. -/
def InsertExitAt : InsertExit α → RbState α → Prop
  | .present, s => ∃ t, ZRep track s.mem [] t ∧ t.toList = keys ∧
      (∃ n, t.RedBlack .black n) ∧ s.size = size ∧ ∃ a ∈ keys, compare a x = 0
  | .leaf gp p n d, s => ∃ ctx c q y,
      ZRep track s.mem (⟨d, c, q, y⟩ :: ctx) nil ∧
      (Context.plug (⟨d, c, q, y⟩ :: ctx) nil).toList = keys ∧
      Context.RedBlack (⟨d, c, q, y⟩ :: ctx) .black 0 ∧
      Surrounds compare (⟨d, c, q, y⟩ :: ctx) x ∧ s.size = size ∧ p = holder ctx ∧
      n = .obj q ∧ AncestorsAt (⟨d, c, q, y⟩ :: ctx) p gp

variable {track compare keys size x}

/-- The comparison and the step down. -/
theorem FocusAt.descend {ctx : Context α} {t : ColorTree α} {gp p n : RbPtr α} {s : RbState α}
    {Q : (RbPtr α × RbPtr α × RbPtr α × RbPtr α) ⊕ InsertExit α → RbState α → Prop}
    (h : FocusAt track compare keys size x ctx t n s) (hkeys : keys.Nodup)
    (hpresent : ∀ s', InsertExitAt track compare keys size x .present s' → Q (.inr .present) s')
    (hleaf : ∀ d c q y, t = branch d c nil q y → n = .obj q → Toward compare q x d →
      Q (.inr (.leaf gp p n d)) s)
    (hchild : ∀ d c u q y j, t = branch d c u q y → u.rootKey = some j → n = .obj q →
      Toward compare q x d → Q (.inl (gp, p, n, .obj j)) s) :
    wp (rbtreeInsertDescend compare (.obj x) gp p n) Q s := by
  obtain ⟨m, k⟩ := s
  obtain ⟨q, hq, rfl⟩ := h.n_eq
  simp only [rbtreeInsertDescend, wp_bind, wp_compareAt, wp_ite]
  split_ifs with hrel
  · have hqt : q ∈ (ctx.plug t).toList := mem_toList_plug (rootKey_mem hq)
    obtain ⟨c, n, ht, hctx⟩ := h.redBlack
    have hblack := wp_blacken_root (k := k) (zRep_plug.mpr h.rep)
      (by rw [h.toList_eq]; exact hkeys) hqt (Context.redBlack_plug ht hctx)
    rw [wp_bind] at hblack
    refine wp_mono hblack ?_
    intro r s₁ hmake
    rw [wp_bind]
    refine wp_mono hmake ?_
    rintro _ s' ⟨hsize, hrep, hrb⟩
    rw [wp_pure]
    refine hpresent s' ⟨_, hrep, ?_, hrb, hsize.trans h.size_eq, q, h.toList_eq ▸ hqt, hrel⟩
    rw [toList_paint, h.toList_eq]
  · rcases t with _ | ⟨c, l, q', r⟩
    · simp [rootKey] at hq
    obtain rfl : q' = q := by simpa [rootKey] using hq
    set d := rbdir (compare q' x > 0) with hd
    obtain ⟨u, y, hbranch⟩ := node_eq_branch d c l q' r
    have hz := h.rep
    rw [hbranch, zRep_branch] at hz
    have htoward := toward_rbdir hrel
    rw [← hd] at htoward
    rcases u with _ | ⟨cu, lu, j, ru⟩
    · have hthread := hz.1.isThread_iff.mpr rfl
      simp only [holder, side] at hthread
      simp only [ne_eq, reduceCtorEq, not_false_eq_true, wp_rbnodeIsThread, hthread, if_true,
        wp_pure]
      exact hleaf d c q' y hbranch rfl htoward
    · obtain ⟨hthread, hlink⟩ := hz.1.link_eq (k := j) rfl
      simp only [holder, side] at hthread hlink
      simp only [ne_eq, reduceCtorEq, not_false_eq_true, wp_rbnodeIsThread, hthread, wp_bind,
        wp_link, hlink, wp_pure, Bool.false_eq_true, if_false]
      exact hchild d c _ q' y j hbranch rfl rfl htoward

omit [DecidableEq α] in
/-- Going down to a child on the side of `x`. -/
theorem FocusAt.child {ctx : Context α} {d : Side} {c : Color} {u y : ColorTree α} {q j : α}
    {n : RbPtr α} {s : RbState α} (hc : StrictTotal compare) (hord : Ordered compare keys)
    (h : FocusAt track compare keys size x ctx (branch d c u q y) n s)
    (hd : Toward compare q x d) (hj : u.rootKey = some j) :
    FocusAt track compare keys size x (⟨d, c, q, y⟩ :: ctx) u (.obj j) s := by
  obtain ⟨c', n', ht, hctx⟩ := h.redBlack
  have hord' : Ordered compare (branch d c u q y).toList :=
    hord.of_plug_eq h.toList_eq
  exact ⟨zRep_branch.mp h.rep, h.toList_eq, Context.redBlack_down ht hctx,
    h.surrounds.descend hc hord' hd, h.size_eq, j, hj, rfl⟩

omit [DecidableEq α] in
/-- After a step down from a root that needed no rotation, the ancestors are
right. -/
theorem InsertAt.ancestors_child {ctx : Context α} {d : Side} {c : Color} {u y : ColorTree α}
    {q : α} {ggp gp p n : RbPtr α} {s : RbState α}
    (h : InsertAt track compare keys size x ctx (branch d c u q y) ggp gp p n s) :
    AncestorsAt (⟨d, c, q, y⟩ :: ctx) p gp := by
  refine ⟨h.p_eq, ?_⟩
  rintro rfl
  rcases ctx with _ | ⟨f, rest⟩
  · have hroot := h.root rfl
    simp at hroot
  · refine ⟨?_, h.sibling f rfl (by simp)⟩
    rcases h.ancestors with hcold | hanc
    · exact absurd (cold_branch.mp hcold).1 (by simp)
    · exact hanc.1

/-- The invariant of the loop of `cldm_rbtree_insert`, with a bound on the turns
left. -/
def InsertInv (track : Side → Prop) (compare : α → α → ℤ) (keys : List α) (size : ℕ) (x : α)
    (k : ℕ) (v : RbPtr α × RbPtr α × RbPtr α × RbPtr α) (s : RbState α) : Prop :=
  (∃ ctx t, InsertAt track compare keys size x ctx t v.1 v.2.1 v.2.2.1 v.2.2.2 s ∧
    k = 2 * t.toList.length) ∨
  ∃ ctx d u, DoubleAt track compare keys size x ctx d u v.2.2.2 s ∧
    k = 2 * u.toList.length + 1

/-- The postcondition of one turn. -/
def InsertPost (track : Side → Prop) (compare : α → α → ℤ) (keys : List α) (size : ℕ) (x : α)
    (k : ℕ) (r : (RbPtr α × RbPtr α × RbPtr α × RbPtr α) ⊕ InsertExit α) (s : RbState α) : Prop :=
  Sum.elim (fun v => ∃ k' < k, InsertInv track compare keys size x k' v s)
    (fun e => InsertExitAt track compare keys size x e s) r

omit [DecidableEq α] in
/-- A cold child needs no pointers to its grandparents. -/
theorem FocusAt.insertAt_of_cold {f : Frame α} {ctx : Context α} {t : ColorTree α}
    {ggp gp p n : RbPtr α} {s : RbState α}
    (h : FocusAt track compare keys size x (f :: ctx) t n s) (ht : Cold t)
    (hp : p = holder (f :: ctx)) :
    InsertAt track compare keys size x (f :: ctx) t ggp gp p n s :=
  { h with
    p_eq := hp
    root := fun h => absurd h (by simp)
    sibling := fun _ _ hred => absurd hred (by simp [ht.isRed_eq])
    ancestors := .inl ht }

/-- A turn without rebalancing. -/
theorem InsertAt.step_down (hc : StrictTotal compare) (hord : Ordered compare keys)
    {ctx : Context α} {t : ColorTree α} {ggp gp p n : RbPtr α} {s : RbState α}
    (h : InsertAt track compare keys size x ctx t ggp gp p n s)
    (hred : ∀ d c u q y, t = branch d c u q y → u.isRed = true → y.isRed = false) :
    wp (rbtreeInsertDescend compare (.obj x) gp p n)
      (InsertPost track compare keys size x (2 * t.toList.length)) s := by
  refine h.toFocusAt.descend (hord.nodup hc) (fun s' hs' => hs') ?_ ?_
  · rintro d c q y rfl rfl hd
    have hord' : Ordered compare (branch d c nil q y).toList :=
      hord.of_plug_eq h.toList_eq
    obtain ⟨c', n', ht, hctx⟩ := h.redBlack
    obtain ⟨c'', n'', hnil, hctx'⟩ := Context.redBlack_down ht hctx
    obtain ⟨rfl, rfl⟩ := redBlack_nil.mp hnil
    exact ⟨ctx, c, q, y, zRep_branch.mp h.rep, h.toList_eq, hctx',
      h.surrounds.descend hc hord' hd, h.size_eq, h.p_eq, rfl, h.ancestors_child⟩
  · rintro d c u q y j rfl hj rfl hd
    refine ⟨2 * u.toList.length, ?_, .inl ⟨⟨d, c, q, y⟩ :: ctx, u, ?_, rfl⟩⟩
    · have := length_child d c u y q
      omega
    · have hanc := h.ancestors_child
      exact
        { h.toFocusAt.child hc hord hd hj with
          p_eq := rfl
          root := fun h => absurd h (by simp)
          sibling := by
            rintro f ⟨⟩ hu
            exact hred d c u q y rfl hu
          ancestors := .inr hanc }

/-- A turn after a double rotation. -/
theorem DoubleAt.step_down (hc : StrictTotal compare) (hord : Ordered compare keys)
    {ctx : Context α} {d : Side} {u : ColorTree α} {gp p n : RbPtr α} {s : RbState α}
    (h : DoubleAt track compare keys size x ctx d u n s) :
    wp (rbtreeInsertDescend compare (.obj x) gp p n)
      (InsertPost track compare keys size x (2 * u.toList.length + 1)) s := by
  obtain ⟨hcold, a, v, hfocus, ha⟩ := h
  obtain ⟨j₀, hj₀⟩ := hcold.exists_rootKey
  -- the comparison at a leads to u again
  have hsame : ∀ {e q}, n = .obj q → Toward compare q x e → e = d := by
    rintro e q rfl he
    obtain ⟨q', hq', hn⟩ := hfocus.n_eq
    rw [rootKey_branch, Option.some.injEq] at hq'
    obtain rfl : q = a := by rw [hq']; exact RbPtr.obj.inj hn
    cases d <;> cases e <;> simp only [Toward, reduceCtorEq] at ha he ⊢ <;> omega
  refine hfocus.descend (hord.nodup hc) (fun s' hs' => hs') ?_ ?_
  · rintro e c q y hbranch hn he
    obtain rfl := hsame hn he
    obtain ⟨-, rfl, -⟩ := branch_inj.mp hbranch
    exact absurd hj₀ (by simp [rootKey])
  · rintro e c u' q y j hbranch hj hn he
    obtain rfl := hsame hn he
    obtain ⟨-, rfl, rfl, rfl⟩ := branch_inj.mp hbranch
    exact ⟨2 * u.toList.length, by omega, .inl ⟨⟨e, .red, a, v⟩ :: ctx, u,
      (hfocus.child hc hord ha hj).insertAt_of_cold hcold hn, rfl⟩⟩

/-- The descent after a recolouring that left the node where it was. -/
theorem FocusAt.step_recolored (hc : StrictTotal compare) (hord : Ordered compare keys)
    {ctx : Context α} {l r : ColorTree α} {q : α} {gp p n : RbPtr α} {s : RbState α} {b : ℕ}
    (h : FocusAt track compare keys size x ctx (node .red l q r) n s)
    (hl : Cold l) (hr : Cold r) (hlb : l.toList.length < b) (hrb : r.toList.length < b) :
    wp (rbtreeInsertDescend compare (.obj x) gp p n)
      (InsertPost track compare keys size x (2 * b)) s := by
  have hcold : ∀ {d c u q' y}, node .red l q r = branch d c u q' y →
      Cold u ∧ u.toList.length < b := by
    intro d c u q' y hbranch
    obtain ⟨-, -, ⟨rfl, rfl⟩ | ⟨rfl, rfl⟩⟩ := node_inj_branch hbranch
    · exact ⟨hl, hlb⟩
    · exact ⟨hr, hrb⟩
  refine h.descend (hord.nodup hc) (fun s' hs' => hs') ?_ ?_
  · rintro d c q' y hbranch - -
    exact (hcold hbranch).1.elim
  · rintro d c u q' y j hbranch hj rfl hd
    obtain ⟨hu, hub⟩ := hcold hbranch
    rw [hbranch] at h
    exact ⟨2 * u.toList.length, by omega, .inl ⟨⟨d, c, q', y⟩ :: ctx, u,
      (h.child hc hord hd hj).insertAt_of_cold hu rfl, rfl⟩⟩

/-- The descent after a double rotation. -/
theorem FocusAt.step_double (hc : StrictTotal compare) (hord : Ordered compare keys)
    {ctx : Context α} {d : Side} {u v w z : ColorTree α} {a g q : α} {gp p n : RbPtr α}
    {s : RbState α} {b : ℕ}
    (h : FocusAt track compare keys size x ctx
      (branch d .black (branch d .red v a u) q (branch d .red w g z)) n s)
    (ha : Toward compare a x d.flip) (hg : Toward compare g x d)
    (hu : Cold u) (hw : Cold w) (hub : u.toList.length < b) (hwb : w.toList.length < b) :
    wp (rbtreeInsertDescend compare (.obj x) gp p n)
      (InsertPost track compare keys size x (2 * b)) s := by
  refine h.descend (hord.nodup hc) (fun s' hs' => hs') ?_ ?_
  · rintro e c q' y hbranch - -
    rcases Side.eq_or_eq_flip d e with rfl | rfl
    · obtain ⟨-, habs, -⟩ := branch_inj.mp hbranch
      exact absurd habs (branch_ne_nil _ _ _ _ _)
    · rw [branch_flip] at hbranch
      obtain ⟨-, -, -, habs⟩ := branch_inj.mp hbranch
      exact absurd habs (branch_ne_nil _ _ _ _ _)
  · rintro e c t q' y j hbranch hj rfl he
    rw [hbranch] at h
    have hchild := h.child hc hord he hj
    rcases Side.eq_or_eq_flip d e with rfl | rfl
    · obtain ⟨rfl, rfl, rfl, rfl⟩ := branch_inj.mp hbranch
      rw [← branch_flip e .red u] at hchild
      exact ⟨2 * u.toList.length + 1, by omega, .inr ⟨_, _, u,
        ⟨hu, a, v, hchild, ha⟩, rfl⟩⟩
    · rw [branch_flip] at hbranch
      obtain ⟨rfl, rfl, rfl, rfl⟩ := branch_inj.mp hbranch
      exact ⟨2 * w.toList.length + 1, by omega, .inr ⟨_, _, w,
        ⟨hw, g, z, hchild, hg⟩, rfl⟩⟩

/-- A turn at a node with two red children. -/
theorem InsertAt.step_flip (hc : StrictTotal compare) (hord : Ordered compare keys)
    (htrack : track .right) {ctx : Context α} {c : Color} {l r : ColorTree α} {q : α}
    {ggp gp p n : RbPtr α} {s : RbState α}
    (h : InsertAt track compare keys size x ctx (node c l q r) ggp gp p n s)
    (hl : l.isRed = true) (hr : r.isRed = true) :
    wp (do rbtreeBalanceInsertion n p gp ggp; rbtreeInsertDescend compare (.obj x) gp p n)
      (InsertPost track compare keys size x (2 * (node c l q r).toList.length)) s := by
  obtain ⟨m, k⟩ := s
  obtain ⟨c₀, n₀, ht, hctx⟩ := h.redBlack
  -- the node is black, its children are red
  obtain ⟨rfl, rfl, j, hl', hr'⟩ : c = .black ∧ c₀ = .black ∧ ∃ j, l.RedBlack .red j ∧
      r.RedBlack .red j ∧ n₀ = j + 1 := by
    cases c with
    | red => exact absurd (ht.2.1.isRed_black) (by simp [hl])
    | black =>
      obtain ⟨rfl, j, rfl, ⟨cl, hl'⟩, cr, hr'⟩ := ht
      obtain rfl := hl'.isRed_iff.mp hl
      obtain rfl := hr'.isRed_iff.mp hr
      exact ⟨rfl, rfl, j, hl', hr', rfl⟩
  obtain ⟨hr', rfl⟩ := hr'
  have hd : Distinct ctx (node .black l q r) :=
    Ordered.distinct hc (by rw [h.toList_eq]; exact hord)
  have hanc : AncestorsAt ctx gp ggp := by
    rcases h.ancestors with hcold | hanc
    · exact absurd hcold.2.1 (by simp [hl])
    · exact hanc
  have hlr : l = nil ↔ r = nil := by
    refine iff_of_false ?_ ?_ <;> rintro rfl <;> simp [isRed] at hl hr
  obtain ⟨q', hq', rfl⟩ := h.n_eq
  obtain rfl : q = q' := by simpa [rootKey] using hq'
  rw [h.p_eq, wp_bind]
  refine wp_mono (wp_rbtreeBalanceInsertion h.rep hd htrack hlr hctx hanc) ?_
  rintro _ s' ⟨hsize, ctx', t', hbal, hz⟩
  have hkeys : (ctx'.plug t').toList = keys := by
    rw [hbal.toList_eq, ← h.toList_eq, Context.toList_plug, Context.toList_plug]
    simp [toList]
  have hrb := hbal.redBlack hl'.paint_black hr'.paint_black hctx
  have hs := hbal.surrounds h.surrounds
  have hlb : (l.paint .black).toList.length < (node .black l q r).toList.length := by
    rw [toList_paint]
    exact length_child .left .black l r q
  have hrb' : (r.paint .black).toList.length < (node .black l q r).toList.length := by
    rw [toList_paint]
    exact length_child .right .black r l q
  have hlc := cold_paint hl'
  have hrc := cold_paint hr'
  cases hbal with
  | keep hblack =>
    exact FocusAt.step_recolored hc hord
      ⟨hz, hkeys, hrb, hs, hsize.trans h.size_eq, q, rfl, rfl⟩ hlc hrc hlb hrb'
  | single hs₁ =>
    exact FocusAt.step_recolored hc hord
      ⟨hz, hkeys, hrb, hs, hsize.trans h.size_eq, q, rfl, rfl⟩ hlc hrc hlb hrb'
  | double hs₁ hxy =>
    have hsurr := h.surrounds
    obtain ⟨-, -, hxy | hxy⟩ := node_inj_branch hxy <;> obtain ⟨rfl, rfl⟩ := hxy
    · exact FocusAt.step_double hc hord
        ⟨hz, hkeys, hrb, hs, hsize.trans h.size_eq, q, by simp, rfl⟩
        hsurr.toward hsurr.tail.toward hlc hrc hlb hrb'
    · exact FocusAt.step_double hc hord
        ⟨hz, hkeys, hrb, hs, hsize.trans h.size_eq, q, by simp, rfl⟩
        hsurr.toward hsurr.tail.toward hrc hlc hrb' hlb

/-- One turn of the loop of `cldm_rbtree_insert`. -/
theorem InsertInv.step (hc : StrictTotal compare) (hord : Ordered compare keys)
    (htrack : track .right) {b : ℕ} {v : RbPtr α × RbPtr α × RbPtr α × RbPtr α} {s : RbState α}
    (h : InsertInv track compare keys size x b v s) :
    wp (rbtreeInsertBody compare (.obj x) v) (InsertPost track compare keys size x b) s := by
  obtain ⟨ggp, gp, p, n⟩ := v
  -- the two children of the focus decide whether to rebalance
  have hbody : ∀ {ctx c l q r}, FocusAt track compare keys size x ctx (node c l q r) n s →
      wp (if l.isRed && r.isRed then do
            rbtreeBalanceInsertion n p gp ggp
            rbtreeInsertDescend compare (.obj x) gp p n
          else rbtreeInsertDescend compare (.obj x) gp p n)
        (InsertPost track compare keys size x b) s →
      wp (rbtreeInsertBody compare (.obj x) (ggp, gp, p, n))
        (InsertPost track compare keys size x b) s := by
    intro ctx c l q r hf hwp
    obtain ⟨m, k⟩ := s
    obtain ⟨q', hq', rfl⟩ := hf.n_eq
    obtain rfl : q = q' := by simpa [rootKey] using hq'
    obtain ⟨-, ⟨hl, hr⟩, hl', hr'⟩ := hf.rep.2
    have hq : (RbPtr.obj q : RbPtr α) ≠ .null := by simp
    rw [rbtreeInsertBody, wp_bind, wp_and, wp_isRedSafe hq hl hl']
    cases hlr : l.isRed with
    | false => simpa [hlr] using hwp
    | true =>
      simp only [if_true]
      rw [wp_isRedSafe hq hr hr']
      simpa [hlr] using hwp
  rcases h with ⟨ctx, t, h, rfl⟩ | ⟨ctx, d, u, h, rfl⟩
  · rcases t with _ | ⟨c, l, q, r⟩
    · obtain ⟨q, hq, -⟩ := h.n_eq
      simp [rootKey] at hq
    refine hbody h.toFocusAt ?_
    split_ifs with hred
    · obtain ⟨hl, hr⟩ := (Bool.and_eq_true _ _).mp hred
      exact h.step_flip hc hord htrack hl hr
    · refine h.step_down hc hord fun d c' u q' y hbranch hu => ?_
      obtain ⟨-, -, ⟨rfl, rfl⟩ | ⟨rfl, rfl⟩⟩ := node_inj_branch hbranch
      · simpa [hu] using hred
      · simpa [hu] using hred
  · obtain ⟨a, w, hfocus, ha⟩ := h.focus
    have hstep : wp (rbtreeInsertDescend compare (.obj x) gp p n)
        (InsertPost track compare keys size x (2 * u.toList.length + 1)) s := h.step_down hc hord
    cases d with
    | left =>
      refine hbody hfocus ?_
      rw [h.cold.isRed_eq, Bool.false_and, if_neg (by simp)]
      exact hstep
    | right =>
      refine hbody hfocus ?_
      rw [h.cold.isRed_eq, Bool.and_false, if_neg (by simp)]
      exact hstep

/-! ### The whole insertion -/

omit [DecidableEq α] in
/-- What the memory must contain once the new leaf `x` hangs on side `d` of `q`. -/
theorem ZRep.attach {m' : RbMem α} {ctx : Context α} {d : Side} {c c₀ : Color} {y : ColorTree α}
    {q : α} (h : ZRep track m (⟨d, c, q, y⟩ :: ctx) nil)
    (hd : Distinct (⟨d, c, q, y⟩ :: ctx) nil) (hx : x ∉ ctxKeys (⟨d, c, q, y⟩ :: ctx))
    (hxc : (m' (.obj x)).color = c₀)
    (hxd : (m' (.obj x)).isThread d = true ∧ (m' (.obj x)).link d = (m (.obj q)).link d)
    (hxf : (m' (.obj x)).isThread d.flip = true ∧ (m' (.obj x)).link d.flip = .obj q)
    (hqc : (m' (.obj q)).color = (m (.obj q)).color)
    (hqd : (m' (.obj q)).isThread d = false ∧ (m' (.obj q)).link d = .obj x)
    (hqf : (m' (.obj q)).isThread d.flip = (m (.obj q)).isThread d.flip ∧
      (m' (.obj q)).link d.flip = (m (.obj q)).link d.flip)
    (hm : ∀ p, p ≠ .obj x → p ≠ .obj q → m' p = m p) :
    ZRep track m' (⟨d, c, q, y⟩ :: ctx) (node c₀ nil x nil) := by
  obtain ⟨⟨⟨hc, hnil, hy, hy'⟩, hctx⟩, -⟩ := h
  obtain ⟨-, hqy, hqctx⟩ := hd.frame_key
  have hxq : ∀ {a : α}, a ∈ y.toList ∨ a ∈ ctxKeys ctx → m' (.obj a) = m (.obj a) := by
    intro a ha
    refine hm _ ?_ ?_ <;> rintro ⟨rfl⟩
    · exact hx (mem_ctxKeys_cons.mpr (.inr ha))
    · exact ha.elim hqy hqctx
  refine ⟨⟨⟨hqc.trans hc, hqd, ?_, hy'.frame fun a ha => hxq (.inl ha)⟩, ?_⟩, hxc, ?_, trivial,
    trivial⟩
  · cases y <;> simpa only [LinkRep, hqf.1, hqf.2] using hy
  · refine (hctx.frame (hm _ (by simp) (by simp)) fun a ha => hxq (.inr ha)).congr_root
      (rootKey_branch _ _ _ _ _) (rootKey_branch _ _ _ _ _)
  · have hb : (fun e => LinkRep track m' (.obj x) e (nil : ColorTree α)
        (bounds (⟨d, c, q, y⟩ :: ctx) e)) d ∧ (fun e => LinkRep track m' (.obj x) e
        (nil : ColorTree α) (bounds (⟨d, c, q, y⟩ :: ctx) e)) d.flip := by
      refine ⟨⟨hxd.1, fun ht => ?_⟩, hxf.1, fun _ => ?_⟩
      · rw [hxd.2, hnil.2 ht]
        simp [bounds]
      · rw [hxf.2]
        simp [bounds]
    cases d with
    | left => exact hb
    | right => exact hb.symm

omit [DecidableEq α] in
theorem Ordered.insert (hc : StrictTotal compare) {ctx : Context α} {l : List α}
    (h : Ordered compare (ctx.plug nil).toList) (hs : Surrounds compare ctx x)
    (hl : l = ctx.before ++ [x] ++ ctx.after) : Ordered compare l := by
  subst hl
  rw [Context.toList_plug] at h
  simp only [Ordered, toList, List.append_nil, List.append_assoc,
    List.singleton_append] at h ⊢
  obtain ⟨hb, ha, hab⟩ := List.pairwise_append.mp h
  refine List.pairwise_append.mpr ⟨hb, List.pairwise_cons.mpr ⟨?_, ha⟩, ?_⟩
  · exact fun a hmem => (hc.swap x a).mpr (hs.after a hmem)
  · intro a hmem b hb'
    rcases List.mem_cons.mp hb' with rfl | hb'
    · exact hs.before a hmem
    · exact hab a hmem b hb'

variable {s : RbState α} {t : ColorTree α}

/-- What an insertion does to the stored nodes. -/
def InsertResult (track : Side → Prop) (compare : α → α → ℤ) (x : α) (t : ColorTree α)
    (b : Bool) (s : RbState α) : Prop :=
  ∃ t', RbInv track compare s t' ∧
    ((b = true ∧ (∀ a ∈ t.toList, compare a x ≠ 0) ∧
      ∃ l r, t.toList = l ++ r ∧ t'.toList = l ++ x :: r) ∨
    (b = false ∧ (∃ a ∈ t.toList, compare a x = 0) ∧ t'.toList = t.toList))

/-- Insertion into an empty tree. -/
theorem RbInv.insert_empty (h : RbInv track compare s nil) :
    Total (rbtreeInsert compare x) (InsertResult track compare x nil) s := by
  obtain ⟨m, k⟩ := s
  refine Total.wp_bind ?_
  rw [wp_of_some h.empty]
  simp only [decide_true, if_true]
  refine Total.const ?_
  simp only [wp_bind, ne_eq, reduceCtorEq, not_false_eq_true, wp_store, wp_setLink,
    wp_rbnodeUnsetThread, wp_setSize, wp_pure]
  obtain ⟨hcol, hflags⟩ := h.rep.1
  refine ⟨node .black nil x nil, ⟨⟨⟨?_, ?_, ?_, ?_⟩, ?_, ⟨?_, ?_⟩, trivial, trivial⟩, ?_,
    ⟨1, rfl, 0, rfl, ⟨.black, rfl, rfl⟩, .black, rfl, rfl⟩, rfl⟩,
    .inl ⟨rfl, by simp [toList], [], [], rfl, rfl⟩⟩
  · simpa using hcol
  · simp only [ne_eq, reduceCtorEq, not_false_eq_true, Function.update_self,
      Function.update_of_ne, Rbnode.flags_withLink, Rbnode.flags_withFlags]
    rw [hflags]
    decide
  · simp [Rbnode.withLink, Rbnode.withFlags]
  · simp [Rbnode.withLink]
  · simp
  · simp [LinkRep, Rbnode.isThread, rbLeaf, threadBit, Rbnode.link, bounds]
  · simp [LinkRep, Rbnode.isThread, rbLeaf, threadBit, Rbnode.link, bounds]
  · simp [Ordered, toList]

/-- Hanging the new leaf below `q`, rebalancing, and painting the root black. -/
theorem wp_insert_leaf (hc : StrictTotal compare) (htrack : track .right)
    {gp p n : RbPtr α} {d : Side} (h : InsertExitAt track compare t.toList t.toList.length x
      (.leaf gp p n d) s) (hord : Ordered compare t.toList) :
    wp (do
      rbnodeMakeLeaf (.obj x)
      setLink (.obj x) d (← link n d)
      setLink (.obj x) d.flip n
      setLink n d (.obj x)
      rbnodeUnsetThread n d
      rbtreeBalanceInsertion (.obj x) n p gp
      rbnodeMakeBlack (← rbroot)
      setSize fun size => size + 1
      return true) (InsertResult track compare x t) s := by
  obtain ⟨m, k⟩ := s
  obtain ⟨ctx, c, q, y, hz, hkeys, hrb, hs, hsize, rfl, rfl, hanc⟩ := h
  set ctx' : Context α := ⟨d, c, q, y⟩ :: ctx with hctx'
  -- a node that is in the tree would have been found equal to itself
  have hx : x ∉ t.toList := by
    intro hx
    rw [← hkeys] at hx
    exact hs.ne_of_nil hx (hc.self x)
  have hord' : Ordered compare (ctx'.plug nil).toList := by rw [hkeys]; exact hord
  have hd := hord'.distinct hc
  have hxc : x ∉ ctxKeys ctx' := by
    have : ctxKeys ctx' = t.toList := by
      rw [← hkeys, Context.toList_plug]
      simp [ctxKeys, toList]
    rwa [this]
  have hxq : x ≠ q := fun h => hxc (mem_ctxKeys_cons.mpr (.inl h))
  simp only [wp_bind, ne_eq, reduceCtorEq, not_false_eq_true, wp_rbnodeMakeLeaf, wp_link,
    wp_setLink, wp_rbnodeUnsetThread, Function.update_self, Function.update_of_ne,
    RbPtr.obj.injEq, hxq.symm, Function.update_idem]
  have hd₁ : Distinct ctx' (node (m (.obj x)).color nil x nil) := by
    refine List.nodup_append.mpr ⟨(List.nodup_append.mp hd).1, by simp [toList], ?_⟩
    rintro a ha b hb rfl
    rw [show (node (m (.obj x)).color nil x nil).toList = [x] from rfl, List.mem_singleton] at hb
    exact hxc (hb ▸ ha)
  refine wp_mono (wp_rbtreeBalanceInsertion (hz.attach hd hxc ?_ ?_ ?_ ?_ ?_ ?_ ?_)
    hd₁ htrack Iff.rfl hrb hanc) ?_
  · simp [hxq]
  · simp [hxq]
  · simp [hxq]
  · simp
  · simp
  · simp
  · simp +contextual
  · rintro _ ⟨m₁, k₁⟩ ⟨rfl, ctx₁, t₁, hbal, h₁⟩
    have hb : ∃ c' n', t₁.RedBlack c' n' ∧ ctx₁.RedBlack c' n' :=
      hbal.redBlack (n := 0) ⟨rfl, rfl⟩ ⟨rfl, rfl⟩ hrb
    obtain ⟨c', n', ht₁, hctx₁⟩ := hb
    have hlist : (ctx₁.plug t₁).toList = ctx'.before ++ [x] ++ ctx'.after := by
      rw [hbal.toList_eq, Context.toList_plug]
      rfl
    have hord₁ : Ordered compare (ctx₁.plug t₁).toList := hord'.insert hc hs hlist
    have hblack := wp_blacken_root (k := k₁) (zRep_plug.mpr h₁) (hord₁.nodup hc)
      (a := x) (by simp [hlist]) (Context.redBlack_plug ht₁ hctx₁)
    rw [wp_bind] at hblack ⊢
    refine wp_mono hblack ?_
    intro r s₂ hmake
    rw [wp_bind]
    refine wp_mono hmake ?_
    rintro _ ⟨m₃, k₃⟩ ⟨rfl, h₃, hrb₃⟩
    simp only [wp_bind, wp_setSize, wp_pure]
    have hkeys' : t.toList = ctx'.before ++ ctx'.after := by
      rw [← hkeys, Context.toList_plug]
      simp [toList]
    refine ⟨(ctx₁.plug t₁).paint .black, ⟨h₃, ?_, hrb₃, ?_⟩, .inl ⟨rfl, ?_, ctx'.before,
      ctx'.after, hkeys', ?_⟩⟩
    · rwa [toList_paint]
    · have hk : k₃ = t.toList.length := hsize
      rw [hk, toList_paint, hlist, hkeys']
      simp only [List.length_append, List.length_singleton]
      omega
    · exact fun a ha => hs.ne_of_nil (by rwa [hkeys])
    · rw [toList_paint, hlist]
      simp

/-- `cldm_rbtree_insert` stores the new node unless an equal one is there, and
tells which. -/
theorem RbInv.insert (hc : StrictTotal compare) (htrack : track .right)
    (h : RbInv track compare s t) :
    Total (rbtreeInsert compare x) (InsertResult track compare x t) s := by
  by_cases ht : t = nil
  · subst ht
    exact h.insert_empty
  obtain ⟨m, k⟩ := s
  obtain ⟨q, hq⟩ : ∃ q, t.rootKey = some q := by
    rcases t with _ | ⟨c, l, q, r⟩
    · exact absurd rfl ht
    · exact ⟨q, rfl⟩
  refine Total.wp_bind ?_
  rw [wp_of_some h.empty]
  simp only [ht, decide_false, Bool.false_eq_true, if_false]
  -- the stack nodes are not part of the tree
  refine Total.wp_bind ?_
  rw [wp_store (by simp)]
  refine Total.wp_bind ?_
  rw [wp_store (by simp)]
  refine Total.wp_bind ?_
  rw [wp_rbroot]
  have hz : ∀ v w, ZRep track (Function.update (Function.update m .gpLocal v) .ggpLocal w) [] t :=
    fun v w => h.rep.frame (by simp) (by simp)
  obtain ⟨n, hrb⟩ := h.redBlack
  have hstart : ∀ v w, InsertInv track compare t.toList t.toList.length x (2 * t.toList.length)
      (.ggpLocal, .gpLocal, .sentinel, .obj q)
      ⟨Function.update (Function.update m .gpLocal v) .ggpLocal w, k⟩ := fun v w =>
    .inl ⟨[], t, { rep := hz v w, toList_eq := rfl, redBlack := ⟨_, n, hrb, trivial⟩
                   surrounds := ⟨by simp [Context.before], by simp [Context.after]⟩
                   size_eq := h.size, n_eq := ⟨q, hq, rfl⟩, p_eq := rfl
                   root := fun _ => hrb.isRed_black, sibling := by simp
                   ancestors := .inr trivial }, rfl⟩
  have hlink : ∀ v w, (Function.update (Function.update m .gpLocal v) .ggpLocal w
      (.sentinel : RbPtr α)).link .left = .obj q := fun v w => ((hz v w).1.link_eq hq).2
  rw [hlink]
  have step : ∀ b v s, InsertInv track compare t.toList t.toList.length x b v s →
      Total (fun _ => rbtreeInsertBody compare (.obj x) v) (fun r s' =>
        Sum.elim (fun v' => ∃ b' < b, InsertInv track compare t.toList t.toList.length x b' v' s')
          (fun e => InsertExitAt track compare t.toList t.toList.length x e s') r) s :=
    fun b v s hI => Total.const (hI.step hc h.ordered htrack)
  refine Total.bind ((total_loop step _ _ _ (hstart _ _)).mono ?_)
  rintro e s' he
  cases e with
  | present =>
    obtain ⟨t', hrep, hkeys, hrb', hsize, hmem⟩ := he
    refine Total.const ((wp_pure ..).mpr ⟨t', ⟨hrep, ?_, hrb', ?_⟩, .inr ⟨rfl, hmem, hkeys⟩⟩)
    · rw [hkeys]
      exact h.ordered
    · rw [hsize, hkeys]
  | leaf gp p n d => exact Total.const (wp_insert_leaf hc htrack he h.ordered)

end Cldm
