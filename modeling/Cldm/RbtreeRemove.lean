/-
Removal from the represented tree.

`cldm_rbtree_remove` walks down to the predecessor of the node to be removed
and sees to it, one node at a time, that the node it leaves is red or that the
child it goes to is.  `Lowered` lists what one turn can do to the context
(`wp_lower`); it keeps the keys (`Lowered.around_eq`) and re-establishes the
colours (`Lowered.descended`).
-/
import Cldm.RbtreeInv
import Cldm.RbtreeRotate

namespace Cldm

open Prog ColorTree

variable {α : Type} [DecidableEq α] {track : Side → Prop} {m : RbMem α} {k : ℕ}

/-! ### The colours of the descent -/

/-- The colours when the descent of `cldm_rbtree_remove` stands at a subtree
that may be empty: the node above or the root of the subtree is red, except at
the top of the tree. -/
def Descended (ctx : Context α) (t : ColorTree α) : Prop :=
  match ctx with
  | [] => t.isRed = false
  | f :: rest => f.color = .red ∨ t.isRed = true ∨ (rest = [] ∧ f.sib.isRed = false)

omit [DecidableEq α] in
/-- At the bottom the node above is a leaf; it is red or the only node. -/
theorem Descended.leaf_frame {d : Side} {c : Color} {q : α} {y : ColorTree α} {rest : Context α}
    (h : Descended (⟨d, c, q, y⟩ :: rest) nil)
    (hctx : Context.RedBlack (⟨d, c, q, y⟩ :: rest) .black 0) :
    y = nil ∧ rest.RedBlack .black 0 ∧ (c = .red ∨ rest = []) := by
  rcases h with hc | hnil | ⟨rfl, hy⟩
  · obtain rfl : c = .red := hc
    exact ⟨hctx.2.1.eq_nil, hctx.2.2.to_black, .inl rfl⟩
  · exact absurd hnil (by simp [isRed])
  · refine ⟨?_, trivial, .inr rfl⟩
    cases c with
    | red => exact hctx.2.1.eq_nil
    | black =>
      obtain ⟨⟨cy, hy'⟩, -⟩ := hctx
      obtain rfl := hy'.eq_black hy
      exact hy'.eq_nil

/-- What one turn makes of a node of colour `c` above the subtree `u`, with
other child `y`, and of the context of that node. -/
inductive Lowered (d : Side) (u : ColorTree α) :
    Context α → Color → ColorTree α → Context α → Color → ColorTree α → Prop where
  | stay {ctx : Context α} {c : Color} {y : ColorTree α} : c = .red ∨ u.isRed = true →
      Lowered d u ctx c y ctx c y
  | top {y : ColorTree α} : y.isRed = false → Lowered d u [] .black y [] .black y
  | rotate {ctx : Context α} {a b : ColorTree α} {s : α} : u.isRed = false →
      Lowered d u ctx .black (branch d .red a s b) (⟨d, .black, s, b⟩ :: ctx) .red a
  | flip {ctx : Context α} {e : Side} {c cs : Color} {y a b : ColorTree α} {p s : α} :
      u.isRed = false → y.isRed = false → a.isRed = false → b.isRed = false →
      Lowered d u (⟨e, c, p, branch e cs a s b⟩ :: ctx) .black y
        (⟨e, .black, p, branch e .red a s b⟩ :: ctx) .red y
  | single {ctx : Context α} {e : Side} {c cs : Color} {y a b : ColorTree α} {p s : α} :
      u.isRed = false → y.isRed = false → a.isRed = false → b.isRed = true →
      Lowered d u (⟨e, c, p, branch e cs a s b⟩ :: ctx) .black y
        (⟨e, .black, p, a⟩ :: ⟨e, .red, s, b.paint .black⟩ :: ctx) .red y
  | double {ctx : Context α} {e : Side} {c cs : Color} {y a b z : ColorTree α} {p i s : α} :
      u.isRed = false → y.isRed = false →
      Lowered d u (⟨e, c, p, branch e cs (branch e .red a i b) s z⟩ :: ctx) .black y
        (⟨e, .black, p, a⟩ :: ⟨e, .red, i, branch e .black b s z⟩ :: ctx) .red y

section Colors

variable {d : Side} {u y y' : ColorTree α} {ctx ctx' : Context α} {c c' : Color} {q : α}

omit [DecidableEq α] in
/-- The nodes on both sides of `u` stay the same. -/
theorem Lowered.around_eq (h : Lowered d u ctx c y ctx' c' y') :
    Context.before (⟨d, c', q, y'⟩ :: ctx') = Context.before (⟨d, c, q, y⟩ :: ctx) ∧
      Context.after (⟨d, c', q, y'⟩ :: ctx') = Context.after (⟨d, c, q, y⟩ :: ctx) := by
  cases h with
  | stay => exact ⟨rfl, rfl⟩
  | top => exact ⟨rfl, rfl⟩
  | rotate => cases d <;> simp [Context.before, Context.after, branch, toList]
  | @flip _ e => cases d <;> cases e <;> simp [Context.before, Context.after, branch, toList]
  | @single _ e => cases d <;> cases e <;> simp [Context.before, Context.after, branch, toList]
  | @double _ e => cases d <;> cases e <;> simp [Context.before, Context.after, branch, toList]

omit [DecidableEq α] in
theorem Lowered.toList_eq (h : Lowered d u ctx c y ctx' c' y') :
    (ctx'.plug (branch d c' u q y')).toList = (ctx.plug (branch d c u q y)).toList := by
  have hplug : ∀ {c : Color} {ctx : Context α} {y : ColorTree α},
      ctx.plug (branch d c u q y) = Context.plug (⟨d, c, q, y⟩ :: ctx) u := rfl
  rw [hplug, hplug, Context.toList_plug, Context.toList_plug, h.around_eq.1, h.around_eq.2]

omit [DecidableEq α] in
theorem Lowered.surrounds {compare : α → α → ℤ} {x : α} (h : Lowered d u ctx c y ctx' c' y')
    (hs : Surrounds compare (⟨d, c, q, y⟩ :: ctx) x) :
    Surrounds compare (⟨d, c', q, y'⟩ :: ctx') x :=
  ⟨h.around_eq.1 ▸ hs.before, h.around_eq.2 ▸ hs.after⟩

omit [DecidableEq α] in
/-- Beside a black node without red children there is a black sibling. -/
theorem Descended.sibling {e : Side} {p : α} {sib : ColorTree α} {rest : Context α} {c₀ : Color}
    {n : ℕ} (hdesc : Descended (⟨e, c, p, sib⟩ :: rest) (branch d .black u q y))
    (ht : (branch d .black u q y).RedBlack c₀ n)
    (hctx : Context.RedBlack (⟨e, c, p, sib⟩ :: rest) c₀ n) (hu : u.isRed = false)
    (hy : y.isRed = false) :
    ∃ j, u.RedBlack .black j ∧ y.RedBlack .black j ∧ sib.RedBlack .black (j + 1) ∧
      rest.RedBlack .red (j + 1) := by
  obtain ⟨rfl, j, rfl, ⟨cu, hu'⟩, ⟨cy, hy'⟩⟩ := redBlack_branch_black.mp ht
  obtain rfl := hu'.eq_black hu
  obtain rfl := hy'.eq_black hy
  refine ⟨j, hu', hy', ?_⟩
  cases c with
  | red => exact hctx.2
  | black =>
    obtain ⟨⟨cs, hs⟩, hrest⟩ := hctx
    rcases hdesc with hdesc | hdesc | ⟨rfl, hsib⟩
    · exact absurd hdesc (by simp)
    · exact absurd hdesc (by simp)
    · obtain rfl := hs.eq_black hsib
      exact ⟨hs, trivial⟩

omit [DecidableEq α] in
/-- The children of a black tree, given as a branch. -/
theorem redBlack_branch_children {e : Side} {cs : Color} {a b : ColorTree α} {s : α} {j : ℕ}
    (h : (branch e cs a s b).RedBlack .black (j + 1)) :
    (∃ ca, a.RedBlack ca j) ∧ ∃ cb, b.RedBlack cb j := by
  cases cs with
  | red => exact absurd (redBlack_branch_red.mp h).1 (by simp)
  | black =>
    obtain ⟨-, j', hj, ha, hb⟩ := redBlack_branch_black.mp h
    obtain rfl : j' = j := by omega
    exact ⟨ha, hb⟩

omit [DecidableEq α] in
/-- The red-black conditions hold again one level further down, and so does
`Descended`. -/
theorem Lowered.descended (h : Lowered d u ctx c y ctx' c' y') {c₀ : Color} {n : ℕ}
    (ht : (branch d c u q y).RedBlack c₀ n) (hctx : ctx.RedBlack c₀ n)
    (hdesc : Descended ctx (branch d c u q y)) :
    Descended (⟨d, c', q, y'⟩ :: ctx') u ∧
      ∃ c₁ n₁, u.RedBlack c₁ n₁ ∧ Context.RedBlack (⟨d, c', q, y'⟩ :: ctx') c₁ n₁ := by
  cases h with
  | stay hred =>
    exact ⟨hred.imp id .inl, Context.redBlack_down ht hctx⟩
  | top hy => exact ⟨.inr (.inr ⟨rfl, hy⟩), Context.redBlack_down ht hctx⟩
  | rotate hu =>
    obtain ⟨rfl, j, rfl, ⟨cu, hu'⟩, ⟨_, hy⟩⟩ := redBlack_branch_black.mp ht
    obtain ⟨-, ha, hb⟩ := redBlack_branch_red.mp hy
    obtain rfl := hu'.eq_black hu
    exact ⟨.inl rfl, .black, j, hu', rfl, ha, ⟨_, hb⟩, hctx⟩
  | flip hu hy ha hb =>
    obtain ⟨j, hu', hy', hsib, hrest⟩ := hdesc.sibling ht hctx hu hy
    obtain ⟨⟨ca, ha'⟩, cb, hb'⟩ := redBlack_branch_children hsib
    obtain rfl := ha'.eq_black ha
    obtain rfl := hb'.eq_black hb
    exact ⟨.inl rfl, .black, j, hu', rfl, hy',
      ⟨.red, redBlack_branch_red.mpr ⟨rfl, ha', hb'⟩⟩, hrest.to_black⟩
  | single hu hy ha hb =>
    obtain ⟨j, hu', hy', hsib, hrest⟩ := hdesc.sibling ht hctx hu hy
    obtain ⟨⟨ca, ha'⟩, cb, hb'⟩ := redBlack_branch_children hsib
    obtain rfl := ha'.eq_black ha
    obtain rfl := hb'.isRed_iff.mp hb
    exact ⟨.inl rfl, .black, j, hu', rfl, hy', ⟨_, ha'⟩, rfl, hb'.paint_black, hrest⟩
  | double hu hy =>
    obtain ⟨j, hu', hy', hsib, hrest⟩ := hdesc.sibling ht hctx hu hy
    obtain ⟨⟨ci, hi⟩, cz, hz⟩ := redBlack_branch_children hsib
    obtain ⟨-, ha, hb⟩ := redBlack_branch_red.mp hi
    exact ⟨.inl rfl, .black, j, hu', rfl, hy', ⟨_, ha⟩, rfl,
      redBlack_branch_black.mpr ⟨rfl, j, rfl, ⟨_, hb⟩, _, hz⟩, hrest⟩

end Colors

/-! ### Rebalancing -/

/-- Comparing right links tells the side on which the subtree in the hole hangs, and
the side of the node above. -/
structure SidesTold (m : RbMem α) (ctx : Context α) (t : ColorTree α) : Prop where
  parent : ∀ q, t.rootKey = some q → rbdir ((m (holder ctx)).link .right = .obj q) = side ctx
  grandparent : ∀ f rest, ctx = f :: rest →
    rbdir ((m (holder rest)).link .right = .obj f.key) = side rest

theorem ZRep.sidesTold {ctx : Context α} {t : ColorTree α} (h : ZRep track m ctx t)
    (hd : Distinct ctx t) (ht : track .right) : SidesTold m ctx t where
  parent _ hq := h.rbdir_right hd ht hq
  grandparent := by
    rintro f rest rfl
    exact (zRep_cons.mp h).rbdir_right (distinct_cons.mp hd) ht (rootKey_branch _ _ _ _ _)

/-- What the rebalancing above a subtree `u` leaves alone. -/
structure Spares (keys : List α) (u : ColorTree α) (m m' : RbMem α) : Prop where
  sentinel : (m' .sentinel).link .right = (m .sentinel).link .right
  below : ∀ a ∈ u.toList, m' (.obj a) = m (.obj a)
  noneBack : NoneBack keys m m'

theorem link_paint {p q : RbPtr α} {c : Color} {e : Side} :
    (Function.update m p ((m p).withColor c) q).link e = (m q).link e := by
  by_cases hq : q = p
  · subst hq
    rw [Function.update_self, Rbnode.link_withColor]
  · rw [Function.update_of_ne hq]

theorem sentinel_relink {ctx : Context α} {v : RbPtr α} :
    (Function.update m (holder ctx) ((m (holder ctx)).withLink (side ctx) v) .sentinel).link .right =
      (m .sentinel).link .right := by
  rcases ctx with _ | ⟨f, ctx⟩
  · simp [holder, side, Rbnode.link, Rbnode.withLink]
  · rw [Function.update_of_ne (by simp [holder])]

/-- After the link into a hole around `u` is redirected. -/
theorem Spares.relink {keys : List α} {ctx : Context α} {u t : ColorTree α} {m₁ : RbMem α}
    {v : RbPtr α} (hd : Distinct ctx t) (hu : ∀ a ∈ u.toList, a ∈ t.toList)
    (hs : m₁ .sentinel = m .sentinel) (hm : ∀ a ∈ u.toList, m₁ (.obj a) = m (.obj a))
    (hback : NoneBack keys m
      (Function.update m₁ (holder ctx) ((m₁ (holder ctx)).withLink (side ctx) v))) :
    Spares keys u m
      (Function.update m₁ (holder ctx) ((m₁ (holder ctx)).withLink (side ctx) v)) where
  sentinel := by rw [sentinel_relink, hs]
  below a ha := by rw [Function.update_of_ne (holder_ne_obj hd (hu a ha)), hm a ha]
  noneBack := hback

omit [DecidableEq α] in
/-- After changes of colours outside `u`. -/
theorem Spares.recolor {keys : List α} {u : ColorTree α} {m₁ m₂ : RbMem α}
    (h : Spares keys u m m₁) (hm : ∀ a ∈ u.toList, m₂ (.obj a) = m₁ (.obj a))
    (hlinks : ∀ q e, (m₂ q).link e = (m₁ q).link e) : Spares keys u m m₂ where
  sentinel := (hlinks _ _).trans h.sentinel
  below a ha := (hm a ha).trans (h.below a ha)
  noneBack := h.noneBack.trans (noneBack_of_links hlinks)

/-- The recolouring after a rotation at the parent: the new top red, its
children black. -/
theorem wp_recolor_top {ctx : Context α} {e : Side} {c : Color} {l r : ColorTree α} {s i j : α}
    {p : RbPtr α} (h : ZRep track m ctx (branch e c l s r)) (hd : Distinct ctx (branch e c l s r))
    (hl : l.rootKey = some i) (hr : r.rootKey = some j) :
    wp (do
      rbnodeMakeRed (← link (holder ctx) (side ctx))
      rbnodeMakeBlack (← link (← link (holder ctx) (side ctx)) .left)
      rbnodeMakeBlack (← link (← link (holder ctx) (side ctx)) .right)
      return p) (fun p' s' => p' = p ∧ s'.size = k ∧
        ZRep track s'.mem ctx (branch e .red (l.paint .black) s (r.paint .black)) ∧
        (∀ q, q ≠ .obj s → q ≠ .obj i → q ≠ .obj j → s'.mem q = m q) ∧
        ∀ q e, (s'.mem q).link e = (m q).link e) ⟨m, k⟩ := by
  -- stated for the left child first, whichever side `e` is
  have key : ∀ {l r : ColorTree α} {i j : α}, ZRep track m ctx (node c l s r) →
      Distinct ctx (node c l s r) → l.rootKey = some i → r.rootKey = some j →
      wp (do
        rbnodeMakeRed (← link (holder ctx) (side ctx))
        rbnodeMakeBlack (← link (← link (holder ctx) (side ctx)) .left)
        rbnodeMakeBlack (← link (← link (holder ctx) (side ctx)) .right)
        return p) (fun p' s' => p' = p ∧ s'.size = k ∧
          ZRep track s'.mem ctx (node .red (l.paint .black) s (r.paint .black)) ∧
          (∀ q, q ≠ .obj s → q ≠ .obj i → q ≠ .obj j → s'.mem q = m q) ∧
          ∀ q e, (s'.mem q).link e = (m q).link e) ⟨m, k⟩ := by
    intro l r i j h hd hl hr
    have h₁ := h.paint hd (k := s) rfl .red
    have h₂ := ZRep.paint_child (d := .left) h₁ (hd.paint .red) hl .black
    have hd₂ : Distinct ctx (node .red (l.paint .black) s r) := hd.congr (by simp [toList])
    have h₃ := ZRep.paint_child (d := .right) h₂ hd₂ hr .black
    have e₀ := (h.1.link_eq (k := s) rfl).2
    have e₁ := (h₁.1.link_eq (k := s) rfl).2
    have e₁' := (ZRep.child_link (d := .left) h₁ hl).2
    have e₂ := (h₂.1.link_eq (k := s) rfl).2
    have e₂' := (ZRep.child_link (d := .right) h₂ hr).2
    rw [wp_bind, wp_link (holder_ne_null ctx), e₀, wp_bind, wp_rbnodeMakeRed (by simp), wp_bind,
      wp_link (holder_ne_null ctx), e₁, wp_bind, wp_link (by simp), e₁', wp_bind,
      wp_rbnodeMakeBlack (by simp), wp_bind, wp_link (holder_ne_null ctx), e₂, wp_bind,
      wp_link (by simp), e₂', wp_bind, wp_rbnodeMakeBlack (by simp), wp_pure]
    refine ⟨rfl, rfl, h₃, fun q hs hi hj => ?_, fun q e => ?_⟩
    · dsimp only
      rw [Function.update_of_ne hj, Function.update_of_ne hi, Function.update_of_ne hs]
    · dsimp only
      rw [link_paint, link_paint, link_paint]
  cases e with
  | left => exact key h hd hl hr
  | right =>
    refine wp_mono (key h hd hr hl) ?_
    rintro _ _ ⟨hp, hsize, hz, hm, hlinks⟩
    exact ⟨hp, hsize, hz, fun q hs hi hj => hm q hs hj hi, hlinks⟩

/-- The grandparent is right when there is one. -/
def GrandparentAt (ctx : Context α) (gp : RbPtr α) : Prop :=
  gp ≠ .null ∧ ∀ f rest, ctx = f :: rest → gp = holder rest

/-- A child of `n` is red: one rotation at `n`. -/
theorem wp_lower_rotate {ctx : Context α} {d : Side} {u a b : ColorTree α} {q s : α}
    {gp : RbPtr α} (h : ZRep track m ctx (branch d .black u q (branch d .red a s b)))
    (hd : Distinct ctx (branch d .black u q (branch d .red a s b)))
    (ht : SidesTold m ctx (branch d .black u q (branch d .red a s b))) (hgp : gp ≠ .null) :
    wp (rbtreeBalanceRemoval (.obj q) (holder ctx) gp d) (fun p s' => p = .obj s ∧ s'.size = k ∧
      ZRep track s'.mem (⟨d, .black, s, b⟩ :: ctx) (branch d .red u q a) ∧
      Spares (ctx.plug (branch d .black u q (branch d .red a s b))).toList u m s'.mem ∧
      (s'.mem (.obj s)).link d.flip = (m (.obj s)).link d.flip) ⟨m, k⟩ := by
  have hpdir := ht.parent q (rootKey_branch _ _ _ _ _)
  have hz := h
  rw [← branch_flip, zRep_branch] at hz
  have hred := hz.1.1.2.1
  simp only [rbtreeBalanceRemoval, wp_bind, wp_link, holder_ne_null, hgp, ne_eq,
    not_false_eq_true, hpdir]
  rw [wp_isRedSafe (by simp) hred hz.2]
  simp only [isRed_branch, decide_true, if_true]
  rw [wp_bind]
  refine wp_mono (rotateSingle_relink h hd) ?_
  rintro r ⟨m₁, k₁⟩ ⟨rfl, rfl, h₁, hm₁, hback, hkept⟩
  have hlink := (h₁.1.link_eq (rootKey_branch _ _ _ _ _)).2
  rw [wp_bind, wp_setLink (holder_ne_null ctx), wp_link (holder_ne_null ctx), hlink]
  obtain ⟨-, -, hqu, -, hus⟩ := nodup_branch hd.nodup
  have hs : s ∈ (branch d .red a s b).toList := mem_toList_branch.mpr (.inl rfl)
  refine ⟨rfl, rfl, zRep_branch.mp h₁, ?_, ?_⟩
  · refine .relink hd (fun e he => mem_toList_branch.mpr (.inr (.inl he)))
      (hm₁ _ (by simp) (by simp)) (fun e he => hm₁ _ ?_ ?_) hback
    · rintro ⟨rfl⟩
      exact hqu he
    · rintro ⟨rfl⟩
      exact hus _ he hs
  · have hne : RbPtr.obj s ≠ holder ctx :=
      holder_ne_obj hd (mem_toList_branch.mpr (.inr (.inr hs)))
    dsimp only
    rw [Function.update_of_ne hne]
    exact hkept

theorem wp_eitherRed {e : Side} {c : Color} {a b : ColorTree α} {s : α} {bd : Side → RbPtr α}
    {Q : Bool → RbState α → Prop} (h : Rep track m (branch e c a s b) bd) :
    wp (rbnodeIsRedSafe (.obj s) .left <||> rbnodeIsRedSafe (.obj s) .right) Q ⟨m, k⟩ ↔
      Q (a.isRed || b.isRed) ⟨m, k⟩ := by
  have key : ∀ {l r : ColorTree α}, Rep track m (node c l s r) bd →
      (wp (rbnodeIsRedSafe (.obj s) .left <||> rbnodeIsRedSafe (.obj s) .right) Q ⟨m, k⟩ ↔
        Q (l.isRed || r.isRed) ⟨m, k⟩) := by
    rintro l r ⟨-, ⟨hl, hr⟩, hl', hr'⟩
    rw [wp_or, wp_isRedSafe (by simp) hl hl']
    cases hred : l.isRed with
    | true => simp
    | false => simp [wp_isRedSafe (k := k) (Q := Q) (by simp : RbPtr.obj s ≠ .null) hr hr']
  cases e with
  | left => exact key h
  | right =>
    rw [Bool.or_comm]
    exact key h

/-- No child of `n` is red: a rotation at the parent or a change of colours. -/
theorem wp_lower_sibling {rest : Context α} {d e : Side} {c cs : Color} {u y a b : ColorTree α}
    {q p s : α}
    (h : ZRep track m (⟨e, c, p, branch e cs a s b⟩ :: rest) (branch d .black u q y))
    (hd : Distinct (⟨e, c, p, branch e cs a s b⟩ :: rest) (branch d .black u q y))
    (ht : SidesTold m (⟨e, c, p, branch e cs a s b⟩ :: rest) (branch d .black u q y))
    (hu : u.isRed = false) (hy : y.isRed = false) :
    wp (rbtreeBalanceRemoval (.obj q) (.obj p) (holder rest) d) (fun p' s' => s'.size = k ∧
      Spares (Context.plug (⟨e, c, p, branch e cs a s b⟩ :: rest) (branch d .black u q y)).toList u
        m s'.mem ∧
      ∃ ctx' c' y', Lowered d u (⟨e, c, p, branch e cs a s b⟩ :: rest) .black y ctx' c' y' ∧
        p' = holder ctx' ∧ ZRep track s'.mem ctx' (branch d c' u q y')) ⟨m, k⟩ := by
  have hpdir : rbdir ((m (.obj p)).link .right = .obj q) = e :=
    ht.parent q (rootKey_branch _ _ _ _ _)
  have hp : ZRep track m rest (branch e c (branch d .black u q y) p (branch e cs a s b)) :=
    zRep_cons.mp h
  have hdp : Distinct rest (branch e c (branch d .black u q y) p (branch e cs a s b)) :=
    distinct_cons.mp hd
  have hgpdir : rbdir ((m (holder rest)).link .right = .obj p) = side rest :=
    ht.grandparent _ rest rfl
  -- the nodes of u are none of those around it
  obtain ⟨-, -, hqu, -, -⟩ := nodup_branch hd.nodup
  obtain ⟨-, -, hpq, -, hsib⟩ := nodup_branch hdp.nodup
  have hqmem : ∀ {x}, x ∈ u.toList → x ∈ (branch d .black u q y).toList := fun hx =>
    mem_toList_branch.mpr (.inr (.inl hx))
  have hxu : ∀ {x}, x ∈ u.toList → x ∈ (branch e c (branch d .black u q y) p (branch e cs a s b)).toList :=
    fun hx => mem_toList_branch.mpr (.inr (.inl (hqmem hx)))
  have hxq : ∀ {x}, x ∈ u.toList → RbPtr.obj x ≠ .obj q := by
    rintro x hx ⟨rfl⟩
    exact hqu hx
  have hxp : ∀ {x}, x ∈ u.toList → RbPtr.obj x ≠ .obj p := by
    rintro x hx ⟨rfl⟩
    exact hpq (hqmem hx)
  have hxs : ∀ {x z}, x ∈ u.toList → z ∈ (branch e cs a s b).toList → RbPtr.obj x ≠ .obj z := by
    rintro x z hx hz ⟨rfl⟩
    exact hsib x (hqmem hx) hz
  have hn : ZRep track m (⟨d.flip, .black, q, u⟩ :: ⟨e, c, p, branch e cs a s b⟩ :: rest) y := by
    rw [← zRep_branch, branch_flip]
    exact h
  have hzs : ZRep track m (⟨e.flip, c, p, branch d .black u q y⟩ :: rest)
      (branch e cs a s b) := by
    rw [← zRep_branch, branch_flip]
    exact hp
  obtain ⟨hsthread, hslink⟩ : (m (.obj p)).isThread e.flip = false ∧
      (m (.obj p)).link e.flip = .obj s := hzs.1.link_eq (rootKey_branch _ _ _ _ _)
  obtain ⟨-, ⟨hla, hlb⟩, hra, hrb⟩ := rep_branch.mp hzs.2
  simp only [rbtreeBalanceRemoval, wp_bind, wp_link, holder_ne_null, ne_eq, reduceCtorEq,
    not_false_eq_true, hpdir, hgpdir]
  rw [wp_isRedSafe (by simp) hn.1.1.2.1 hn.2]
  simp only [hy, Bool.false_eq_true, if_false, wp_bind, wp_rbnodeIsThread, ne_eq, reduceCtorEq,
    not_false_eq_true, hsthread, Bool.not_false, if_true, wp_link, hslink]
  rw [wp_eitherRed hzs.2]
  cases ha : a.isRed with
  | true =>
    obtain ⟨a', i, b', rfl⟩ : ∃ a' i b', a = branch e .red a' i b' := by
      rcases a with _ | ⟨_ | _, l, i, r⟩
      · simp [isRed] at ha
      · simp [isRed] at ha
      · obtain ⟨a', b', hab⟩ := node_eq_branch e .red l i r
        exact ⟨a', i, b', hab⟩
    simp only [Bool.true_or, if_true, wp_bind]
    rw [wp_isRedSafe (by simp) hla hra]
    simp only [ha, if_true]
    rw [wp_bind]
    refine wp_mono (rotateDouble_relink hp hdp) ?_
    rintro r ⟨m₁, k₁⟩ ⟨rfl, rfl, h₁, hm₁, hback⟩
    have hd₁ : Distinct rest (branch e .black (branch e .red (branch d .black u q y) p a') i
        (branch e .red b' s b)) := hdp.congr (by cases e <;> simp [branch, toList])
    have h₂ := (zRep_branch.mp (zRep_branch.mp h₁)).paint
      (distinct_branch.mp (distinct_branch.mp hd₁)) (rootKey_branch _ _ _ _ _) .red
    rw [paint_branch, ← zRep_branch, ← zRep_branch] at h₂
    have hd₂ : Distinct rest (branch e .black (branch e .red (branch d .red u q y) p a') i
        (branch e .red b' s b)) := hd₁.congr (by cases e <;> cases d <;> simp [branch, toList])
    rw [wp_bind, wp_setLink (holder_ne_null rest), wp_bind, wp_rbnodeMakeRed (by simp)]
    refine wp_mono (wp_recolor_top h₂ hd₂ (rootKey_branch _ _ _ _ _)
      (rootKey_branch _ _ _ _ _)) ?_
    rintro _ s' ⟨rfl, hsize, h₃, hm₃, hlinks⟩
    rw [paint_branch, paint_branch] at h₃
    have hi : i ∈ (branch e cs (branch e .red a' i b') s b).toList :=
      mem_toList_branch.mpr (.inr (.inl (mem_toList_branch.mpr (.inl rfl))))
    have hs : s ∈ (branch e cs (branch e .red a' i b') s b).toList :=
      mem_toList_branch.mpr (.inl rfl)
    have hspares := Spares.relink hdp (fun x => hxu) (hm₁ _ (by simp) (by simp) (by simp))
      (fun x hx => hm₁ _ (hxp hx) (hxs hx hs) (hxs hx hi)) hback
    refine ⟨hsize, hspares.recolor (fun x hx => ?_) (fun x f => ?_), _, _, _, .double hu hy, rfl,
      zRep_branch.mp (zRep_branch.mp h₃)⟩
    · rw [hm₃ _ (hxs hx hi) (hxp hx) (hxs hx hs), Function.update_of_ne (hxq hx)]
    · rw [hlinks, link_paint]
  | false =>
    cases hb : b.isRed with
    | true =>
      obtain ⟨j, hj⟩ : ∃ j, b.rootKey = some j := by
        rcases b with _ | ⟨c, l, j, r⟩
        · simp [isRed] at hb
        · exact ⟨j, rfl⟩
      simp only [Bool.or_true, if_true, wp_bind]
      rw [wp_isRedSafe (by simp) hla hra]
      simp only [ha, Bool.false_eq_true, if_false, wp_bind]
      rw [wp_isRedSafe (by simp) hlb hrb]
      simp only [hb, if_true]
      rw [wp_bind]
      refine wp_mono (rotateSingle_relink hp hdp) ?_
      rintro r ⟨m₁, k₁⟩ ⟨rfl, rfl, h₁, hm₁, hback, -⟩
      have hd₁ : Distinct rest (branch e .black (branch e .red (branch d .black u q y) p a) s b) :=
        hdp.congr (by cases e <;> simp [branch, toList])
      have h₂ := (zRep_branch.mp (zRep_branch.mp h₁)).paint
        (distinct_branch.mp (distinct_branch.mp hd₁)) (rootKey_branch _ _ _ _ _) .red
      rw [paint_branch, ← zRep_branch, ← zRep_branch] at h₂
      have hd₂ : Distinct rest (branch e .black (branch e .red (branch d .red u q y) p a) s b) :=
        hd₁.congr (by cases e <;> cases d <;> simp [branch, toList])
      rw [wp_bind, wp_setLink (holder_ne_null rest), wp_bind, wp_rbnodeMakeRed (by simp)]
      refine wp_mono (wp_recolor_top h₂ hd₂ (rootKey_branch _ _ _ _ _) hj) ?_
      rintro _ s' ⟨rfl, hsize, h₃, hm₃, hlinks⟩
      rw [paint_branch] at h₃
      have hs : s ∈ (branch e cs a s b).toList := mem_toList_branch.mpr (.inl rfl)
      have hjs : j ∈ (branch e cs a s b).toList :=
        mem_toList_branch.mpr (.inr (.inr (rootKey_mem hj)))
      have hspares := Spares.relink hdp (fun x => hxu) (hm₁ _ (by simp) (by simp))
        (fun x hx => hm₁ _ (hxp hx) (hxs hx hs)) hback
      refine ⟨hsize, hspares.recolor (fun x hx => ?_) (fun x f => ?_), _, _, _,
        .single hu hy ha hb, rfl, zRep_branch.mp (zRep_branch.mp h₃)⟩
      · rw [hm₃ _ (hxs hx hs) (hxp hx) (hxs hx hjs), Function.update_of_ne (hxq hx)]
      · rw [hlinks, link_paint]
    | false =>
      have h₁ := h.paint hd (rootKey_branch _ _ _ _ _) .red
      rw [paint_branch, zRep_cons, Frame.fill, ← branch_flip] at h₁
      have hd₁ : Distinct rest (branch e.flip c (branch e cs a s b) p (branch d .red u q y)) :=
        hdp.congr (by cases e <;> cases d <;> simp [branch, toList])
      have h₂ := h₁.paint_child hd₁ (rootKey_branch _ _ _ _ _) .red
      have hd₂ : Distinct rest (branch e.flip c (branch e .red a s b) p (branch d .red u q y)) :=
        hdp.congr (by cases e <;> cases d <;> simp [branch, toList])
      rw [paint_branch] at h₂
      have h₃ := h₂.paint hd₂ (rootKey_branch _ _ _ _ _) .black
      rw [paint_branch, branch_flip, zRep_branch] at h₃
      simp only [Bool.or_false, Bool.false_eq_true, if_false, wp_bind, ne_eq, reduceCtorEq,
        not_false_eq_true, wp_rbnodeMakeRed, wp_rbnodeMakeBlack, wp_pure]
      have hs : s ∈ (branch e cs a s b).toList := mem_toList_branch.mpr (.inl rfl)
      have hstart : Spares (Context.plug (⟨e, c, p, branch e cs a s b⟩ :: rest)
          (branch d .black u q y)).toList u m m := ⟨rfl, fun _ _ => rfl, fun _ _ _ h => h⟩
      refine ⟨trivial, hstart.recolor (fun x hx => ?_) (fun x f => ?_), _, _, _,
        .flip hu hy ha hb, rfl, h₃⟩
      · rw [Function.update_of_ne (hxp hx), Function.update_of_ne (hxs hx hs),
          Function.update_of_ne (hxq hx)]
      · rw [link_paint, link_paint, link_paint]

/-- What one turn leaves alone: the memory below the node `q`, all of it where nothing is
rebalanced, and the outer link of a red child that comes up. -/
structure LeavesAlone (ctx : Context α) (d : Side) (c : Color) (u : ColorTree α) (q : α)
    (y : ColorTree α) (m m' : RbMem α) : Prop where
  spares : Spares (ctx.plug (branch d c u q y)).toList u m m'
  stay : c = .red ∨ u.isRed = true → m' = m
  rotate : ∀ {a s b}, y = branch d .red a s b → u.isRed = false →
    (m' (.obj s)).link d.flip = (m (.obj s)).link d.flip

/-- The rebalancing of one turn of the loop of `cldm_rbtree_remove`. -/
theorem wp_lower {ctx : Context α} {d : Side} {c c₀ : Color} {u y : ColorTree α} {q : α}
    {gp : RbPtr α} {n : ℕ} (h : ZRep track m ctx (branch d c u q y))
    (hd : Distinct ctx (branch d c u q y))
    (ht : c = .black → u.isRed = false → SidesTold m ctx (branch d c u q y))
    (hrb : (branch d c u q y).RedBlack c₀ n) (hctx : ctx.RedBlack c₀ n)
    (hdesc : Descended ctx (branch d c u q y)) (hgp : GrandparentAt ctx gp) :
    wp (do
      if ← rbnodeIsRed (.obj q) <||> rbnodeIsRedSafe (.obj q) d then
        pure (holder ctx)
      else
        rbtreeBalanceRemoval (.obj q) (holder ctx) gp d) (fun p' s' => s'.size = k ∧
      LeavesAlone ctx d c u q y m s'.mem ∧
      ∃ ctx' c' y', Lowered d u ctx c y ctx' c' y' ∧ p' = holder ctx' ∧
        ZRep track s'.mem ctx' (branch d c' u q y')) ⟨m, k⟩ := by
  obtain ⟨hcol, ⟨hlu, -⟩, hu, -⟩ := rep_branch.mp h.2
  have hsame : LeavesAlone ctx d c u q y m m :=
    ⟨⟨rfl, fun _ _ => rfl, fun _ _ _ h => h⟩, fun _ => rfl, fun _ _ => rfl⟩
  rw [wp_bind, wp_or, wp_rbnodeIsRed (by simp), hcol]
  cases c with
  | red => simpa using ⟨hsame, _, _, _, Lowered.stay (.inl rfl), rfl, h⟩
  | black =>
    simp only [reduceCtorEq, decide_false, Bool.false_eq_true, if_false]
    rw [wp_isRedSafe (by simp) hlu hu]
    cases hured : u.isRed with
    | true => simpa using ⟨hsame, _, _, _, Lowered.stay (.inr hured), rfl, h⟩
    | false =>
      have ht := ht rfl hured
      have hmoved : ¬ (Color.black = .red ∨ u.isRed = true) := by simp [hured]
      simp only [Bool.false_eq_true, if_false]
      cases hyred : y.isRed with
      | true =>
        obtain ⟨a, s, b, rfl⟩ : ∃ a s b, y = branch d .red a s b := by
          rcases y with _ | ⟨_ | _, l, s, r⟩
          · simp [isRed] at hyred
          · simp [isRed] at hyred
          · obtain ⟨a, b, hab⟩ := node_eq_branch d .red l s r
            exact ⟨a, s, b, hab⟩
        refine wp_mono (wp_lower_rotate h hd ht hgp.1) ?_
        rintro _ s' ⟨rfl, hsize, h₁, hspares, hkept⟩
        refine ⟨hsize, ⟨hspares, fun h => absurd h hmoved, ?_⟩, _, _, _, .rotate hured, rfl, h₁⟩
        intro a' s₁ b' heq _
        obtain ⟨-, -, rfl, -⟩ := branch_inj.mp heq
        exact hkept
      | false =>
        rcases ctx with _ | ⟨⟨e, cp, p, sib⟩, rest⟩
        · -- at the top the right link of the sentinel is a thread
          have hz : ZRep track m [⟨d.flip, .black, q, u⟩] y := by
            rw [← zRep_branch, branch_flip]
            exact h
          have hpdir : rbdir ((m .sentinel).link .right = .obj q) = .left :=
            ht.parent q (rootKey_branch _ _ _ _ _)
          have hthread : (m .sentinel).isThread .right = true := by
            have hflags : (m .sentinel).flags = threadBit .right := by
              cases d <;> exact h.1.2.1
            simp [Rbnode.isThread, hflags, threadBit]
          simp only [rbtreeBalanceRemoval, holder, wp_bind, wp_link, hgp.1, ne_eq, reduceCtorEq,
            not_false_eq_true, hpdir]
          rw [wp_isRedSafe (by simp) hz.1.1.2.1 hz.2]
          simp only [hyred, Bool.false_eq_true, if_false, wp_bind, wp_rbnodeIsThread, ne_eq,
            reduceCtorEq, not_false_eq_true, Side.flip_left, hthread, Bool.not_true, wp_pure]
          exact ⟨trivial, hsame, _, _, _, .top hyred, rfl, h⟩
        · obtain ⟨j, -, -, hsib, -⟩ := hdesc.sibling hrb hctx hured hyred
          obtain ⟨cs, a, s, b, rfl⟩ := exists_branch e (t := sib) (by
            rintro rfl
            exact absurd hsib.2 (by omega))
          obtain rfl := hgp.2 _ _ rfl
          refine wp_mono (wp_lower_sibling h hd ht hured hyred) ?_
          rintro p' s' ⟨hsize, hspares, hlow⟩
          refine ⟨hsize, ⟨hspares, fun h => absurd h hmoved, ?_⟩, hlow⟩
          rintro a' s₁ b' rfl _
          simp at hyred

/-! ### The descent -/

/-- The condition under which removing the node equal to `x` unlinks it
properly, on the subtree on side `d`: the node has no left child and is no right
child itself unless it has a right child, or its left child is a leaf. -/
def RemovalSafe (compare : α → α → ℤ) (x : α) : Side → ColorTree α → Prop
  | _, nil => True
  | d, node _ l q r =>
      (compare q x = 0 → l = nil ∧ (d = .left ∨ r ≠ nil) ∨ ∃ c a, l = node c nil a nil) ∧
      (0 < compare q x → RemovalSafe compare x .right r) ∧
      (compare q x < 0 → RemovalSafe compare x .left l)

attribute [grind =] RemovalSafe

section Descent

variable {d : Side} {u y y' : ColorTree α} {ctx ctx' : Context α} {c c' : Color} {q : α}

omit [DecidableEq α] in
/-- A node without left child ends up on the left of its parent if it was, or
if it has a right child. -/
theorem Lowered.side_left (h : Lowered .left nil ctx c y ctx' c' y') {c₀ : Color} {n : ℕ}
    (ht : (branch .left c nil q y).RedBlack c₀ n) (hs : side ctx = .left ∨ y ≠ nil) :
    side ctx' = .left := by
  -- a node with one child is black, and the child red
  have hy : c = .red ∨ y.isRed = false → side ctx = .left := by
    intro hcy
    rcases hs with hs | hs
    · exact hs
    refine absurd ?_ hs
    cases c with
    | red =>
      obtain ⟨-, hnil, hy⟩ := redBlack_branch_red.mp ht
      obtain rfl : n = 0 := hnil.2
      exact hy.eq_nil
    | black =>
      obtain ⟨-, j, -, ⟨_, hnil⟩, cy, hy⟩ := redBlack_branch_black.mp ht
      obtain rfl : j = 0 := hnil.2
      obtain rfl := hy.eq_black (hcy.resolve_left (by simp))
      exact hy.eq_nil
  cases h with
  | stay hred => exact hy (.inl (hred.resolve_right (by simp [isRed])))
  | top => rfl
  | rotate => rfl
  | flip _ hyred => exact hy (.inr hyred)
  | single _ hyred => exact hy (.inr hyred)
  | double _ hyred => exact hy (.inr hyred)

omit [DecidableEq α] in
/-- Below a node without other child the frame above stays in place. -/
theorem Lowered.keep_frame {f : Frame α} (h : Lowered d u (f :: ctx) c y ctx' c' y')
    (hy : y = nil) :
    y' = nil ∧ ∃ cf sib rest, ctx' = ⟨f.side, cf, f.key, sib⟩ :: rest := by
  cases h with
  | stay => exact ⟨hy, f.color, f.sib, ctx, rfl⟩
  | rotate => exact absurd hy (branch_ne_nil _ _ _ _ _)
  | flip => exact ⟨hy, _, _, _, rfl⟩
  | single => exact ⟨hy, _, _, _, rfl⟩
  | double => exact ⟨hy, _, _, _, rfl⟩

/-- Where the descent stands once it has met the node `f` to be removed. -/
inductive FoundAt (f : α) : Context α → ColorTree α → Prop where
  | leaf {c : Color} {y : ColorTree α} {ctx : Context α} : side ctx = .left →
      FoundAt f (⟨.left, c, f, y⟩ :: ctx) nil
  | above {c ca : Color} {a : α} {y : ColorTree α} {ctx : Context α} :
      FoundAt f (⟨.left, c, f, y⟩ :: ctx) (node ca nil a nil)
  | below {c ca : Color} {a : α} {y : ColorTree α} {ctx : Context α} :
      FoundAt f (⟨.right, ca, a, nil⟩ :: ⟨.left, c, f, y⟩ :: ctx) nil

/-- Where the loop of `cldm_rbtree_remove` stands. -/
structure DescentAt (track : Side → Prop) (keys : List α) (size : ℕ) (ctx : Context α)
    (t : ColorTree α) (v : RemoveVars α) (s : RbState α) : Prop where
  rep : ZRep track s.mem ctx t
  toList_eq : (ctx.plug t).toList = keys
  redBlack : ∃ c n, t.RedBlack c n ∧ ctx.RedBlack c n
  descended : Descended ctx t
  size_eq : s.size = size
  p_eq : v.p = holder ctx
  dir_eq : v.dir = side ctx
  n_eq : ∀ q, t.rootKey = some q → v.n = .obj q
  grandparent : GrandparentAt ctx v.gp

/-- One turn, from a node `q` above the subtree `u` that the argument `x` belongs to. -/
inductive Turned (track : Side → Prop) (compare : α → α → ℤ) (keys : List α) (size : ℕ) (x : α)
    (ctx : Context α) (v : RemoveVars α) (s : RbState α) :
    ColorTree α → Context α → ColorTree α → RemoveVars α → RbState α → Prop where
  | intro {d : Side} {c c' : Color} {u y y' : ColorTree α} {q : α} {ctx' : Context α}
      {v' : RemoveVars α} {s' : RbState α} : d = rbdir (compare q x > 0) →
      v'.found = (if compare q x = 0 then .obj q else v.found) →
      Lowered d u ctx c y ctx' c' y' → LeavesAlone ctx d c u q y s.mem s'.mem →
      DescentAt track keys size (⟨d, c', q, y'⟩ :: ctx') u v' s' →
      Turned track compare keys size x ctx v s (branch d c u q y) (⟨d, c', q, y'⟩ :: ctx') u v' s'

/-- The loop invariant of `cldm_rbtree_remove`. -/
structure RemoveAt (track : Side → Prop) (compare : α → α → ℤ) (keys : List α) (size : ℕ) (x : α)
    (ctx : Context α) (t : ColorTree α) (v : RemoveVars α) (s : RbState α) : Prop
    extends DescentAt track keys size ctx t v s where
  phase : (v.found = .null ∧ Surrounds compare ctx x ∧ RemovalSafe compare x (side ctx) t) ∨
    ∃ f, v.found = .obj f ∧ compare f x = 0 ∧ FoundAt f ctx t

variable {compare : α → α → ℤ} {keys : List α} {size : ℕ} {x : α}

omit [DecidableEq α] in
/-- The phase after one turn. -/
theorem RemoveAt.next_phase (hc : StrictTotal compare) (hord : Ordered compare keys)
    {v : RemoveVars α} {s : RbState α}
    (h : RemoveAt track compare keys size x ctx (branch d c u q y) v s)
    (hd : d = rbdir (compare q x > 0)) (hlow : Lowered d u ctx c y ctx' c' y')
    {found : RbPtr α} (hfound : found = if compare q x = 0 then .obj q else v.found) :
    (found = .null ∧ Surrounds compare (⟨d, c', q, y'⟩ :: ctx') x ∧
        RemovalSafe compare x d u) ∨
      ∃ f, found = .obj f ∧ compare f x = 0 ∧ FoundAt f (⟨d, c', q, y'⟩ :: ctx') u := by
  have hord' : Ordered compare (branch d c u q y).toList :=
    hord.of_plug_eq h.toList_eq
  rcases h.phase with ⟨hnull, hs, hsafe⟩ | ⟨f, hf, hfx, hat⟩
  · by_cases hrel : compare q x = 0
    · obtain rfl : d = .left := by rw [hd, hrel]; rfl
      rw [if_pos hrel] at hfound
      refine .inr ⟨q, hfound, hrel, ?_⟩
      rcases hsafe.1 hrel with ⟨rfl, hside⟩ | ⟨ca, a, rfl⟩
      · obtain ⟨c₀, n, ht, -⟩ := h.redBlack
        exact .leaf (hlow.side_left ht hside)
      · exact .above
    · rw [if_neg hrel] at hfound
      have htoward := toward_rbdir hrel
      rw [← hd] at htoward
      refine .inl ⟨hfound.trans hnull, hlow.surrounds (hs.descend hc hord' htoward), ?_⟩
      cases d with
      | left => exact hsafe.2.2 htoward
      | right => exact hsafe.2.1 htoward
  · -- the predecessor comes before x, so the way goes to its right
    generalize ht : branch d c u q y = t at hat h
    cases hat with
    | leaf => exact absurd ht (branch_ne_nil _ _ _ _ _)
    | below => exact absurd ht (branch_ne_nil _ _ _ _ _)
    | @above _ _ a =>
      obtain ⟨rfl, rfl, hxy⟩ := node_inj_branch ht.symm
      obtain ⟨rfl, rfl⟩ : u = nil ∧ y = nil := by rcases hxy with h | h <;> exact h
      have hqf : 0 < compare a f := by
        have hlist := h.toList_eq ▸ hord
        rw [Context.toList_plug] at hlist
        exact (List.pairwise_append.mp hlist).2.2 a (by simp [toList]) f (by simp [Context.after])
      have hpos : 0 < compare a x := hc.lt_trans hqf (by omega)
      obtain rfl : d = .right := by simp [hd, hpos, rbdir]
      rw [if_neg (by omega)] at hfound
      obtain ⟨rfl, cf, sib, rest, rfl⟩ := hlow.keep_frame rfl
      exact .inr ⟨f, hfound.trans hf, hfx, .below⟩

/-- The postcondition of one turn, with a bound on the turns left before it. -/
def RemovePost (track : Side → Prop) (compare : α → α → ℤ) (keys : List α) (size : ℕ) (x : α)
    (k : ℕ) (r : RemoveVars α ⊕ RemoveVars α) (s : RbState α) : Prop :=
  Sum.elim (fun v => ∃ k' < k, ∃ ctx t,
      RemoveAt track compare keys size x ctx t v s ∧ k' = t.toList.length)
    (fun v => ∃ ctx, RemoveAt track compare keys size x ctx nil v s) r

/-- One turn of the loop of `cldm_rbtree_remove`, where the sides are told right if it
rebalances. -/
theorem DescentAt.turn {t : ColorTree α} {v : RemoveVars α} {s : RbState α}
    (h : DescentAt track keys size ctx t v s) (hdist : Distinct ctx t)
    (ht : ∀ {d c u q y}, t = branch d c u q y → c = .black → u.isRed = false →
      SidesTold s.mem ctx t) :
    wp (rbtreeRemoveBody compare (.obj x) v) (fun r s' => Sum.elim
      (fun v' => ∃ ctx' u, Turned track compare keys size x ctx v s t ctx' u v' s')
      (fun v' => t = nil ∧ v' = v ∧ s' = s) r) s := by
  obtain ⟨m, k⟩ := s
  have hp : v.p ≠ .null := by rw [h.p_eq]; exact holder_ne_null ctx
  rcases t with _ | ⟨c, l, q, r⟩
  · have hthread := h.rep.1.isThread_iff.mpr rfl
    rw [← h.p_eq, ← h.dir_eq] at hthread
    simp only [rbtreeRemoveBody, wp_bind, ne_eq, hp, not_false_eq_true, wp_rbnodeIsThread,
      hthread, Bool.not_true, Bool.false_eq_true, if_false, wp_pure]
    exact ⟨trivial, rfl, trivial⟩
  have hthread := (h.rep.1.link_eq (k := q) rfl).1
  rw [← h.p_eq, ← h.dir_eq] at hthread
  simp only [rbtreeRemoveBody, wp_bind, ne_eq, hp, not_false_eq_true, wp_rbnodeIsThread,
    hthread, Bool.not_false, if_true, h.n_eq q rfl, wp_compareAt]
  generalize hd : rbdir (compare q x > 0) = d
  obtain ⟨u, y, hbranch⟩ := node_eq_branch d c l q r
  rw [hbranch] at h hdist ht ⊢
  obtain ⟨c₀, n, hrb, hctx⟩ := h.redBlack
  -- what follows the rebalancing
  have hnext : ∀ p' s', (s'.size = k ∧ LeavesAlone ctx d c u q y m s'.mem ∧
      ∃ ctx' c' y', Lowered d u ctx c y ctx' c' y' ∧
        p' = holder ctx' ∧ ZRep track s'.mem ctx' (branch d c' u q y')) →
      wp (do return .inl { gp := p', p := .obj q, n := ← link (.obj q) d,
                           found := if compare q x = 0 then .obj q else v.found, dir := d })
        (fun r s' => Sum.elim
          (fun v' => ∃ ctx' u', Turned track compare keys size x ctx v ⟨m, k⟩ (branch d c u q y)
            ctx' u' v' s')
          (fun v' => branch d c u q y = nil ∧ v' = v ∧ s' = ⟨m, k⟩) r) s' := by
    rintro p' ⟨m', k'⟩ ⟨rfl, hleft, ctx', c', y', hlow, rfl, hz⟩
    rw [wp_bind, wp_link (by simp), wp_pure]
    obtain ⟨hdesc, hrb'⟩ := hlow.descended hrb hctx h.descended
    refine ⟨⟨d, c', q, y'⟩ :: ctx', u, .intro hd.symm rfl hlow hleft ?_⟩
    exact
      { rep := zRep_branch.mp hz
        toList_eq := hlow.toList_eq.trans h.toList_eq
        redBlack := hrb'
        descended := hdesc
        size_eq := h.size_eq
        p_eq := rfl
        dir_eq := rfl
        n_eq := fun j hj => (hz.child_link hj).2
        grandparent := ⟨holder_ne_null ctx', by rintro f rest ⟨⟩; rfl⟩ }
  have hlower := wp_lower (k := k) h.rep hdist (ht rfl) hrb hctx h.descended h.grandparent
  rw [wp_bind] at hlower
  rw [h.p_eq]
  refine wp_mono hlower ?_
  intro b s₁ hb
  cases b with
  | true =>
    simp only [if_true, wp_pure] at hb ⊢
    rw [wp_bind, wp_pure]
    exact hnext _ _ hb
  | false =>
    simp only [Bool.false_eq_true, if_false] at hb ⊢
    rw [wp_bind]
    exact wp_mono hb hnext

theorem RemoveAt.step (hc : StrictTotal compare) (hord : Ordered compare keys)
    (htrack : track .right) {t : ColorTree α} {v : RemoveVars α} {s : RbState α}
    (h : RemoveAt track compare keys size x ctx t v s) :
    wp (rbtreeRemoveBody compare (.obj x) v)
      (RemovePost track compare keys size x t.toList.length) s := by
  have hdist : Distinct ctx t := Ordered.distinct hc (by rw [h.toList_eq]; exact hord)
  have htold : SidesTold s.mem ctx t := h.rep.sidesTold hdist htrack
  refine wp_mono (h.toDescentAt.turn hdist fun _ _ _ => htold) ?_
  rintro (v' | v') s' hturn
  · obtain ⟨ctx', u, hturned⟩ := hturn
    cases hturned with
    | intro hd hfound hlow hleft hat =>
      exact ⟨u.toList.length, length_child _ _ _ _ _, _, u,
        ⟨hat, h.next_phase hc hord hd hlow hfound⟩, rfl⟩
  · obtain ⟨rfl, rfl, rfl⟩ := hturn
    exact ⟨ctx, h⟩

end Descent

/-! ### Unlinking -/

omit [DecidableEq α] in
/-- What the memory must contain once the leaf `f` is gone. -/
theorem ZRep.detach {m' : RbMem α} {ctx : Context α} {c : Color} {f : α}
    (h : ZRep track m ctx (node c nil f nil)) (hd : Distinct ctx (node c nil f nil))
    (htrack : ¬ track (side ctx))
    (hcol : (m' (holder ctx)).color = (m (holder ctx)).color)
    (hflags : (m' (holder ctx)).flags = ((m (holder ctx)).flags &&& ~~~threadBit (side ctx)) |||
      ((m (.obj f)).flags &&& threadBit (side ctx)))
    (hkept : (m' (holder ctx)).link (side ctx).flip = (m (holder ctx)).link (side ctx).flip)
    (hm : ∀ q, q ≠ .obj f → q ≠ holder ctx → m' q = m q) : ZRep track m' ctx nil := by
  have hleaf : ∀ e, (m (.obj f)).isThread e = true := by
    intro e
    cases e with
    | left => exact h.2.2.1.1.1
    | right => exact h.2.2.1.2.1
  have hassign : ∀ e, (m' (holder ctx)).isThread e =
      if side ctx = e then (m (.obj f)).isThread e else (m (holder ctx)).isThread e := by
    intro e
    have := Rbnode.isThread_assign (m' (holder ctx)) (side ctx) (m (holder ctx)) (m (.obj f)) e
    rw [← this, ← hflags]
    rfl
  have hthread : (m' (holder ctx)).isThread (side ctx) = true := by
    rw [hassign, if_pos rfl]
    exact hleaf _
  have hflip : (m' (holder ctx)).isThread (side ctx).flip =
      (m (holder ctx)).isThread (side ctx).flip := by
    rw [hassign, if_neg (Side.ne_flip _)]
  refine ⟨?_, trivial⟩
  rcases ctx with _ | ⟨⟨d, cp, p, sib⟩, ctx⟩
  · have hbit : (m (.obj f)).flags &&& threadBit .left = threadBit .left := by
      have hne : (m (.obj f)).flags &&& threadBit .left ≠ 0 := by
        simpa [Rbnode.isThread] using hleaf .left
      revert hne
      generalize (m (.obj f)).flags = fl
      revert fl
      decide
    refine ⟨hcol.trans h.1.1, ?_⟩
    change (m' .sentinel).flags = rbLeaf
    simp only [holder, side] at hflags
    rw [hflags, h.1.2.1, hbit]
    decide
  · obtain ⟨⟨hc, -, hs, hrep⟩, hctx⟩ := h.1
    obtain ⟨hpf, hps, hpc⟩ := hd.frame_key
    have hf : f ∉ sib.toList ∧ f ∉ ctxKeys ctx := by
      have hfc := hd.not_mem_ctx (a := f) (by simp [toList])
      rw [mem_ctxKeys_cons] at hfc
      tauto
    have hother : ∀ {a : α}, a ∈ sib.toList ∨ a ∈ ctxKeys ctx → m' (.obj a) = m (.obj a) := by
      intro a ha
      refine hm _ ?_ ?_
      · rintro ⟨rfl⟩; exact ha.elim hf.1 hf.2
      · rintro ⟨rfl⟩; exact ha.elim hps hpc
    simp only [holder, side] at *
    refine ⟨⟨hcol.trans hc, ⟨?_, fun ht => absurd ht htrack⟩, ?_, hrep.frame fun a ha =>
      hother (.inl ha)⟩, ?_⟩
    · exact hthread
    · cases sib <;> simpa only [LinkRep, hflip, hkept] using hs
    · exact (hctx.frame (hm _ (by simp) (by simp)) fun a ha => hother (.inr ha)).congr_root
        (rootKey_branch _ _ _ _ _) (rootKey_branch _ _ _ _ _)

omit [DecidableEq α] in
/-- What the memory must contain once the leaf `a` has taken the place of its
parent `f`. -/
theorem ZRep.replace {m' : RbMem α} {ctx : Context α} {c ca : Color} {y : ColorTree α} {a f : α}
    (h : ZRep track m ctx (node c (node ca nil a nil) f y))
    (hd : Distinct ctx (node c (node ca nil a nil) f y)) (htrack : ¬ track .left)
    (hctx : CtxRep track m' ctx (node c nil a y))
    (hcol : (m' (.obj a)).color = c) (hleft : (m' (.obj a)).isThread .left = true)
    (hright : (m' (.obj a)).isThread .right = (m (.obj f)).isThread .right ∧
      (m' (.obj a)).link .right = (m (.obj f)).link .right)
    (hm : ∀ b ∈ y.toList, m' (.obj b) = m (.obj b)) :
    ZRep track m' ctx (node c nil a y) := by
  obtain ⟨-, -, ⟨-, hry⟩, -, hy⟩ := h
  refine ⟨hctx, hcol, ⟨⟨hleft, fun ht => absurd ht htrack⟩, ?_⟩, trivial, ?_⟩
  · cases y <;> simpa only [LinkRep, hright.1, hright.2] using hry
  · refine (hy.frame hm).congr_bounds fun d ht => ?_
    have hdl : d ≠ .left := by
      rintro rfl
      exact htrack ht
    rw [Function.update_of_ne hdl, Function.update_of_ne hdl]

section Unlink

variable {compare : α → α → ℤ} {ctx : Context α} {c ca : Color} {y : ColorTree α} {a f : α}

/-- A leaf is unlinked, where the comparison tells its side. -/
theorem unlink_leaf (hc : StrictTotal compare) (h : ZRep track m ctx (node c nil f nil))
    (hord : Ordered compare (ctx.plug (node c nil f nil)).toList)
    (hdir : rbdir ((m (holder ctx)).link .right = .obj f) = side ctx)
    (htrack : ¬ track (side ctx)) :
    Total (rbtreeUnlink compare (holder ctx) (.obj f) (.obj f) .left)
      (fun _ s' => s'.size = k - 1 ∧ ZRep track s'.mem ctx nil) ⟨m, k⟩ := by
  have hd := hord.distinct hc
  have hne : RbPtr.obj f ≠ holder ctx := holder_ne_obj hd (by simp [toList])
  refine Total.bind ((findParentOf_spec (k := k) hc h hord rfl).mono ?_)
  rintro _ _ ⟨rfl, rfl⟩
  refine Total.const ?_
  simp only [wp_bind, wp_link, holder_ne_null, ne_eq, not_false_eq_true, hdir, reduceCtorEq,
    wp_rbnodeAssignThreadFrom, wp_setLink, wp_load, wp_store, wp_setSize,
    Function.update_self, Function.update_of_ne, hne, hne.symm]
  refine ⟨trivial, h.detach hd htrack ?_ ?_ ?_ ?_⟩
  · simp [hne.symm]
  · simp [hne.symm]
  · simp [hne.symm]
  · intro q hq hq'
    simp [hq, hq']

/-- A node whose left child is a leaf is replaced by it. -/
theorem unlink_above (hc : StrictTotal compare)
    (h : ZRep track m ctx (node c (node ca nil a nil) f y))
    (hord : Ordered compare (ctx.plug (node c (node ca nil a nil) f y)).toList)
    (hdir : rbdir ((m (holder ctx)).link .right = .obj f) = side ctx)
    (hlink' : (m (.obj f)).link .right ≠ .obj a) (hleft : ¬ track .left) :
    Total (rbtreeUnlink compare (.obj f) (.obj a) (.obj f) .right)
      (fun _ s' => s'.size = k - 1 ∧ ZRep track s'.mem ctx (node c nil a y)) ⟨m, k⟩ := by
  have hd := hord.distinct hc
  have hz : ZRep track m (⟨.left, c, f, y⟩ :: ctx) (node ca nil a nil) :=
    zRep_branch (d := .left).mp h
  have hdir' : rbdir ((m (.obj f)).link .right = .obj a) = .left := by simp [hlink', rbdir]
  have hne : RbPtr.obj f ≠ holder ctx := holder_ne_obj hd (by simp [toList])
  have hne' : RbPtr.obj a ≠ holder ctx := holder_ne_obj hd (by simp [toList])
  have haf : a ≠ f := by
    rintro rfl
    exact (nodup_branch (d := .left) hd.nodup).2.2.1 (by simp [toList])
  refine Total.bind ((findParentOf_spec (k := k) hc h hord rfl).mono ?_)
  rintro _ _ ⟨rfl, rfl⟩
  refine Total.const ?_
  have hlink : (m (.obj f)).link .left = .obj a := (hz.1.link_eq (k := a) rfl).2
  simp only [wp_bind, wp_link, holder_ne_null, ne_eq, not_false_eq_true, hdir, hdir', reduceCtorEq]
  simp only [wp_rbnodeAssignThreadFrom, wp_setLink, wp_load, wp_store, wp_setSize, wp_link, wp_bind,
    holder_ne_null, ne_eq, not_false_eq_true, reduceCtorEq, Function.update_self,
    Function.update_of_ne, hne, hne.symm, hne', hne'.symm, haf, haf.symm, RbPtr.obj.injEq,
    Rbnode.link_withFlags, hlink, hlink', if_true, if_false]
  have hrelink : CtxRep track (Function.update m (holder ctx)
      ((m (holder ctx)).withLink (side ctx) (.obj a))) ctx (node c nil a y) :=
    h.1.relink rfl rfl hd
  have hca : a ∉ ctxKeys ctx := hd.not_mem_ctx (by simp [toList])
  have hcf : f ∉ ctxKeys ctx := hd.not_mem_ctx (by simp [toList])
  obtain ⟨-, hyd, -, hfy, hay⟩ := nodup_branch (d := .left) hd.nodup
  have hya : a ∉ y.toList := hay a (by simp [toList])
  have hyh : ∀ b ∈ y.toList, RbPtr.obj b ≠ holder ctx := fun b hb =>
    holder_ne_obj hd (by simp [toList, hb])
  refine ⟨trivial, h.replace hd hleft ?_ ?_ ?_ ?_ ?_⟩
  · -- outside a and f only the link from above has changed
    refine hrelink.frame ?_ ?_
    · simp [Function.update_apply]
    · intro b hb
      have hba : b ≠ a := fun h => hca (h ▸ hb)
      have hbf : b ≠ f := fun h => hcf (h ▸ hb)
      simp [Function.update_apply, hba, hbf]
  · simp [haf, hne', h.2.1]
  · have hthread : (m (.obj a)).isThread .left = true := h.2.2.2.1.2.1.1.1
    simp [haf, hne', hthread]
  · simp only [ne_eq, RbPtr.obj.injEq, haf, hne', not_false_eq_true, Function.update_of_ne,
      Function.update_self]
    refine ⟨by simp, ?_⟩
    simp [Rbnode.withLink, Rbnode.withFlags, Rbnode.withColor, Rbnode.link]
  · intro b hb
    have hba : b ≠ a := fun h => hya (h ▸ hb)
    have hbf : b ≠ f := fun h => hfy (h ▸ hb)
    simp [hba, hbf, hyh b hb]

end Unlink

/-! ### The whole removal -/

variable {compare : α → α → ℤ} {s : RbState α} {t : ColorTree α} {x : α}

/-- What a removal does to the stored nodes. -/
def RemoveResult (track : Side → Prop) (compare : α → α → ℤ) (x : α) (t : ColorTree α)
    (r : RbPtr α) (s : RbState α) : Prop :=
  ∃ t', RbInv track compare s t' ∧
    ((∃ f l l', compare f x = 0 ∧ r = .obj f ∧ t.toList = l ++ f :: l' ∧ t'.toList = l ++ l') ∨
      (r = .null ∧ (∀ a ∈ t.toList, compare a x ≠ 0) ∧ t'.toList = t.toList))

/-- The end of `cldm_rbtree_remove`: the root of a nonempty tree is painted black. -/
theorem wp_finish_removal {r : RbPtr α} (h : ZRep track m [] t) (hnd : t.toList.Nodup)
    (hrb : ∃ c n, t.RedBlack c n) :
    wp (do
      if !(← rbnodeIsThread .sentinel .left) then
        rbnodeMakeBlack (← rbroot)
      return r) (fun r' s' => r' = r ∧ s'.size = k ∧ ∃ t', ZRep track s'.mem [] t' ∧
        t'.toList = t.toList ∧ ∃ n, t'.RedBlack .black n) ⟨m, k⟩ := by
  rw [wp_bind, wp_rbnodeIsThread (by simp)]
  rcases t with _ | ⟨c, l, q, r'⟩
  · have hthread : (m .sentinel).isThread .left = true := h.1.isThread_iff.mpr rfl
    simp only [hthread, Bool.not_true, Bool.false_eq_true, if_false, wp_pure]
    exact ⟨trivial, trivial, nil, h, rfl, 0, rfl, rfl⟩
  · have hthread : (m .sentinel).isThread .left = false := (h.1.link_eq (k := q) rfl).1
    have hblack := wp_blacken_root (k := k) h hnd (a := q) (by simp [toList]) hrb
    rw [wp_bind] at hblack
    simp only [hthread, Bool.not_false, if_true, wp_bind]
    refine wp_mono hblack fun p s₁ hmake => ?_
    rw [wp_bind]
    refine wp_mono hmake ?_
    rintro _ s₂ ⟨hsize, hz, hrb'⟩
    rw [wp_pure]
    exact ⟨rfl, hsize, _, hz, toList_paint _ _, hrb'⟩

/-- A node that was met is unlinked; the colours stay in order. -/
theorem RemoveAt.unlink (hc : StrictTotal compare) (hright : track .right) (hleft : ¬ track .left)
    {keys : List α} {size : ℕ} {ctx : Context α} {v : RemoveVars α} {f : α}
    (h : RemoveAt track compare keys size x ctx nil v ⟨m, k⟩) (hord : Ordered compare keys)
    (hfound : v.found = .obj f) (hat : FoundAt f ctx nil) :
    Total (rbtreeUnlink compare v.gp v.p v.found v.dir) (fun _ s' => s'.size = k - 1 ∧
      ∃ t' l l', ZRep track s'.mem [] t' ∧ keys = l ++ f :: l' ∧ t'.toList = l ++ l' ∧
        ∃ c n, t'.RedBlack c n) ⟨m, k⟩ := by
  obtain ⟨c₀, n₀, hnil, hctx⟩ := h.redBlack
  obtain ⟨rfl, rfl⟩ := hnil
  rw [hfound, h.p_eq, h.dir_eq]
  have hkeys := h.toList_eq
  cases hat with
  | @leaf c y rest hside =>
    rw [h.grandparent.2 _ _ rfl]
    -- with no left child and the right colours there is no right child either
    obtain ⟨rfl, hrest, -⟩ := h.descended.leaf_frame hctx
    have hz : ZRep track m rest (node c nil f nil) := zRep_branch (d := .left).mpr h.rep
    have hord' : Ordered compare (rest.plug (node c nil f nil)).toList := by
      rw [← hkeys] at hord
      exact hord
    have hdir : rbdir ((m (holder rest)).link .right = .obj f) = side rest :=
      hz.rbdir_right (hord'.distinct hc) hright rfl
    refine (unlink_leaf hc hz hord' hdir (by rwa [hside])).mono ?_
    rintro _ s' ⟨hsize, hz'⟩
    refine ⟨hsize, rest.plug nil, rest.before, rest.after, zRep_plug.mpr hz', ?_, ?_,
      Context.redBlack_plug (c := .black) (n := 0) ⟨rfl, rfl⟩ hrest⟩
    · rw [← hkeys, Context.toList_plug]
      simp [Context.before, Context.after, toList]
    · rw [Context.toList_plug]
      simp [toList]
  | @below c ca a y rest =>
    rw [h.grandparent.2 _ _ rfl]
    obtain rfl : ca = .red := by
      rcases h.descended with hc' | hc' | ⟨hc', -⟩
      · exact hc'
      · exact absurd hc' (by simp [isRed])
      · exact absurd hc' (by simp)
    obtain ⟨rfl, hy, hrest⟩ : c = .black ∧ (∃ cy, y.RedBlack cy 0) ∧ rest.RedBlack .black 1 := by
      obtain ⟨-, -, hup⟩ := hctx
      cases c with
      | red => exact absurd hup.1 (by simp)
      | black => exact ⟨rfl, hup⟩
    have hz : ZRep track m rest (node .black (node .red nil a nil) f y) :=
      zRep_branch (d := .left).mpr (zRep_branch (d := .right).mpr h.rep)
    have hord' : Ordered compare (rest.plug (node .black (node .red nil a nil) f y)).toList := by
      rw [← hkeys] at hord
      exact hord
    have hd := hord'.distinct hc
    have hlink : (m (.obj f)).link .right ≠ .obj a :=
      (zRep_branch (d := .left).mp hz).right_ne (distinct_branch (d := .left).mp hd) hright rfl rfl
    refine (unlink_above hc hz hord' (hz.rbdir_right hd hright rfl) hlink hleft).mono ?_
    rintro _ s' ⟨hsize, hz'⟩
    refine ⟨hsize, rest.plug (node .black nil a y), rest.before ++ [a], y.toList ++ rest.after,
      zRep_plug.mpr hz', ?_, ?_, Context.redBlack_plug (c := .black) (n := 1)
        ⟨rfl, 0, rfl, ⟨.black, rfl, rfl⟩, hy⟩ hrest⟩
    · rw [← hkeys, Context.toList_plug]
      simp [Context.before, Context.after, toList]
    · rw [Context.toList_plug]
      simp [toList]

/-- `cldm_rbtree_remove` unlinks the node equal to its argument and returns it,
provided that the removal is safe. -/
theorem RbInv.remove (hc : StrictTotal compare) (hright : track .right) (hleft : ¬ track .left)
    (h : RbInv track compare s t) (hsafe : RemovalSafe compare x .left t) :
    Total (rbtreeRemove compare x) (RemoveResult track compare x t) s := by
  obtain ⟨m, k⟩ := s
  have hnd : t.toList.Nodup := h.ordered.nodup hc
  refine Total.wp_bind ?_
  rw [wp_rbroot]
  by_cases hnull : (m .sentinel).link .left = .null
  · have ht : t = nil := by
      rcases t with _ | ⟨c, l, q, r⟩
      · rfl
      · have hlink : (m .sentinel).link .left = .obj q := (h.rep.1.link_eq (k := q) rfl).2
        exact absurd (hlink.symm.trans hnull) (by simp)
    subst ht
    simp only [hnull, if_true]
    exact Total.const ((wp_pure ..).mpr ⟨nil, h, .inr ⟨rfl, by simp [toList], rfl⟩⟩)
  simp only [hnull, if_false]
  refine Total.wp_bind ?_
  rw [wp_store (by simp)]
  refine Total.wp_bind ?_
  rw [wp_rbroot]
  generalize hm' : Function.update m .gpLocal _ = m'
  have hz : ZRep track m' [] t := h.rep.frame (by simp [← hm']) (by simp [← hm'])
  obtain ⟨n, hrb⟩ := h.redBlack
  -- the descent
  let I : ℕ → RemoveVars α → RbState α → Prop := fun j v s => ∃ ctx u,
    RemoveAt track compare t.toList k x ctx u v s ∧ j = u.toList.length
  have step : ∀ j v s, I j v s → Total (fun _ => rbtreeRemoveBody compare (.obj x) v)
      (fun r s' => Sum.elim (fun v' => ∃ j' < j, I j' v' s')
        (fun v' => ∃ ctx, RemoveAt track compare t.toList k x ctx nil v' s') r) s := by
    rintro j v s ⟨ctx, u, hat, rfl⟩
    exact Total.const (hat.step hc h.ordered hright)
  have hstart : I t.toList.length
      ⟨.gpLocal, .sentinel, (m' .sentinel).link .left, .null, .left⟩ ⟨m', k⟩ :=
    ⟨[], t,
      { rep := hz, toList_eq := rfl, redBlack := ⟨_, n, hrb, trivial⟩
        descended := hrb.isRed_black, size_eq := rfl, p_eq := rfl, dir_eq := rfl
        n_eq := fun q hq => (hz.1.link_eq hq).2
        grandparent := ⟨by simp, by simp⟩
        phase := .inl ⟨rfl, ⟨by simp [Context.before], by simp [Context.after]⟩, hsafe⟩ }, rfl⟩
  refine Total.bind ((total_loop step _ _ _ hstart).mono ?_)
  rintro v ⟨m₁, k₁⟩ ⟨ctx, hat⟩
  obtain rfl : k₁ = k := hat.size_eq
  rcases hat.phase with ⟨hnone, hs, -⟩ | ⟨f, hf, hfx, hfat⟩
  · simp only [hnone, ne_eq, not_true_eq_false, if_false]
    obtain ⟨c, n', hnil, hctx⟩ := hat.redBlack
    have hkeys := hat.toList_eq
    refine Total.const (wp_mono (wp_finish_removal (zRep_plug.mpr hat.rep) (by rwa [hkeys])
      (Context.redBlack_plug hnil hctx)) ?_)
    rintro _ s' ⟨rfl, hsize, t', hz', hlist, hrb'⟩
    rw [hkeys] at hlist
    refine ⟨t', ⟨hz', ?_, hrb', ?_⟩, .inr ⟨rfl, fun a ha => hs.ne_of_nil (by rwa [hkeys]), hlist⟩⟩
    · rw [hlist]
      exact h.ordered
    · rw [hsize, hlist]
      exact h.size
  · have hne : v.found ≠ .null := by simp [hf]
    simp only [hne, ne_eq, not_false_eq_true, if_true]
    refine Total.bind ((hat.unlink hc hright hleft h.ordered hf hfat).mono ?_)
    rintro _ ⟨m₂, k₂⟩ ⟨rfl, t₁, l, l', hz₁, hkeys, hlist₁, hrb₁⟩
    have hsub : t₁.toList.Sublist t.toList := by
      rw [hlist₁, hkeys]
      exact List.Sublist.append (List.Sublist.refl l) (List.sublist_cons_self f l')
    refine Total.const (wp_mono (wp_finish_removal hz₁ (hnd.sublist hsub) hrb₁) ?_)
    rintro _ s' ⟨rfl, hsize, t', hz', hlist, hrb'⟩
    refine ⟨t', ⟨hz', ?_, hrb', ?_⟩, .inl ⟨f, l, l', hfx, hf, hkeys, hlist.trans hlist₁⟩⟩
    · rw [hlist]
      exact List.Pairwise.sublist hsub h.ordered
    · have hk : k₁ = t.toList.length := h.size
      rw [hsize, hk, hlist, hlist₁, hkeys]
      simp only [List.length_append, List.length_cons]
      omega

end Cldm
