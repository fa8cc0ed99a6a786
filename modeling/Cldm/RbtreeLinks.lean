/-
Removal from a tree whose child links are right, whatever its threads are.

`cldm_rbtree_remove` tells the side of a child by comparing the right link of the
node above with it, so a right thread that leads to the left child misleads it.
During the descent the colours rule that out; at its end they do not, and the code
unlinks the wrong side.  The steps of the descent are those of `RbtreeRemove`, taken
here without any thread in the invariant.

* `RedBlackLinks` — the red-black conditions over child links;
* `WalkAt` — the loop invariant; `total_walk` runs the loop with it;
* `ThreadsPass` — no right link misleads the removal of a node.
-/
import Cldm.RbtreeRun

namespace Cldm

open Prog ColorTree

/-! ### The conditions over child links -/

section Conditions

variable {α : Type}

/-- No thread is looked at. -/
def linksOnly (_ : Side) : Prop := False

/-- The nodes of `t` are linked below a black sentinel, whose right link is a thread; they
are in order, the root is black, and the colours are in order. -/
structure RbLinks (compare : α → α → ℤ) (s : RbState α) (t : ColorTree α) : Prop where
  layout : ZRep linksOnly s.mem [] t
  ordered : Ordered compare t.toList
  redBlack : ∃ n, t.RedBlack .black n

/-- The child links form a red-black search tree. -/
def RedBlackLinks (compare : α → α → ℤ) (s : RbState α) : Prop := ∃ t, RbLinks compare s t

/-- `a` is the child of `q` on side `d`. -/
def ChildOf (m : RbMem α) (q : α) (d : Side) (a : α) : Prop :=
  (m (.obj q)).isThread d = false ∧ (m (.obj q)).link d = .obj a

/-- No right link misleads the removal of `f`: that of a node does not lead to its left
child, where one of the two is `f`; and where `f` has no left child, that of its right
child does not lead back to `f`. -/
structure ThreadsPass (s : RbState α) (f : α) : Prop where
  inside : ∀ g ∈ s.stored, ∀ a, ChildOf s.mem g .left a → f = a ∨ f = g →
    (s.mem (.obj g)).link .right ≠ .obj a
  beside : (s.mem (.obj f)).isThread .left = true → ∀ g, ChildOf s.mem f .right g →
    (s.mem (.obj g)).link .right ≠ .obj f

/-- The right link of the sentinel does not lead to the root. -/
def SentinelApart (s : RbState α) : Prop :=
  ∀ a ∈ s.stored, (s.mem .sentinel).link .left = .obj a → (s.mem .sentinel).link .right ≠ .obj a

variable [DecidableEq α]

/-- The loop of `cldm_rbtree_remove`. -/
def rbtreeRemoveDescent (compare : α → α → ℤ) (node : α) (fuel : ℕ) :
    Prog (RbState α) (RemoveVars α) := do
  store .gpLocal { left := .sentinel, right := .null, color := .black, flags := 0 }
  fuelLoop (rbtreeRemoveBody compare (.obj node)) fuel
    { gp := .gpLocal, p := .sentinel, n := ← rbroot, found := .null, dir := .left }

/-- What follows the loop of `cldm_rbtree_remove`. -/
def rbtreeRemoveEnd (compare : α → α → ℤ) (v : RemoveVars α) (fuel : ℕ) :
    Prog (RbState α) (RbPtr α) := do
  if v.found ≠ .null then
    rbtreeUnlink compare v.gp v.p v.found v.dir fuel
  if !(← rbnodeIsThread .sentinel .left) then
    rbnodeMakeBlack (← rbroot)
  return v.found

theorem rbtreeRemove_eq (compare : α → α → ℤ) (node : α) :
    rbtreeRemove compare node = fun fuel => (do
      if (← rbroot) = .null then
        return .null
      else
        rbtreeRemoveEnd compare (← rbtreeRemoveDescent compare node fuel) fuel) := by
  funext fuel
  simp only [rbtreeRemove, rbtreeRemoveDescent, rbtreeRemoveEnd, bind_assoc]

/-- The node that is unlinked from its parent is red or the only one. -/
def UnlinksRed (compare : α → α → ℤ) (s : RbState α) (x : α) : Prop :=
  ∀ v s₁, Returns (rbtreeRemoveDescent compare x) s v s₁ → v.found ≠ .null →
    (s₁.mem v.p).color = .red ∨ ∃ a, s.stored = {a}

/-- `cldm_rbtree_remove` returns and leaves a red-black search tree, having unlinked a red
node or the only one. -/
def RemovesRedBlack (compare : α → α → ℤ) (s : RbState α) (x : α) : Prop :=
  (∃ r s', Returns (rbtreeRemove compare x) s r s' ∧ RedBlackLinks compare s') ∧
    UnlinksRed compare s x

end Conditions

/-! ### The nodes above a hole -/

section Contexts

variable {α : Type} {ctx : Context α} {t t' : ColorTree α}

/-- The root of a tree, with another subtree of the same root in the hole. -/
theorem rootKey_plug_congr (h : t.rootKey = t'.rootKey) :
    (ctx.plug t).rootKey = (ctx.plug t').rootKey := by
  induction ctx generalizing t t' with
  | nil => exact h
  | cons f ctx ih =>
    have hfill : (f.fill t).rootKey = (f.fill t').rootKey := by simp [Frame.fill]
    exact ih hfill

/-- Below a node the root stays the same whatever is in the hole. -/
theorem rootKey_plug_cons {f f' : Frame α} (h : f.key = f'.key) (t t' : ColorTree α) :
    (Context.plug (f :: ctx) t).rootKey = (Context.plug (f' :: ctx) t').rootKey := by
  have hfill : (f.fill t).rootKey = (f'.fill t').rootKey := by simp [Frame.fill, h]
  exact rootKey_plug_congr hfill

theorem mem_of_rootKey_plug {k : α} (hctx : ctx ≠ []) (h : (ctx.plug t).rootKey = some k) :
    k ∈ ctxKeys ctx := by
  induction ctx generalizing t with
  | nil => exact absurd rfl hctx
  | cons f ctx ih =>
    rcases ctx with _ | ⟨g, ctx⟩
    · have hk : f.key = k := by simpa [Context.plug, Frame.fill] using h
      exact mem_ctxKeys_cons.mpr (.inl hk.symm)
    · exact mem_ctxKeys_cons.mpr (.inr (.inr (ih (by simp) h)))

/-- The link `z` does not lead to the root while the descent is next to it, nor to a root
that has been found. -/
def RootApart (z found : RbPtr α) (ctx : Context α) (t : ColorTree α) : Prop :=
  ∀ k, (ctx.plug t).rootKey = some k → z = .obj k → 2 ≤ ctx.length ∧ found ≠ .obj k

/-- `f` has been met: the way went to its left and then to the right only. -/
inductive Closing (f : α) : Context α → Prop where
  | here {c : Color} {y : ColorTree α} {ctx : Context α} : Closing f (⟨.left, c, f, y⟩ :: ctx)
  | under {g : Frame α} {ctx : Context α} : g.side = .right → Closing f ctx →
      Closing f (g :: ctx)

theorem Closing.exists_append {f : α} (h : Closing f ctx) :
    ∃ (low : Context α) (c : Color) (y : ColorTree α) (up : Context α),
      ctx = low ++ ⟨.left, c, f, y⟩ :: up ∧ low.after = [] := by
  induction h with
  | here => exact ⟨[], _, _, _, rfl, rfl⟩
  | @under g ctx hg _ ih =>
    obtain ⟨low, c, y, up, rfl, hafter⟩ := ih
    exact ⟨g :: low, c, y, up, rfl, by simp [Context.after, hg, hafter]⟩

theorem Closing.mem_after {f : α} (h : Closing f ctx) : f ∈ ctx.after := by
  induction h with
  | here => simp [Context.after]
  | under hg _ ih => simpa [Context.after, hg] using ih

theorem Closing.exists_key {f : α} (h : Closing f ctx) : ∃ g ∈ ctx, g.key = f := by
  induction h with
  | here => exact ⟨_, List.mem_cons_self .., rfl⟩
  | under _ _ ih =>
    obtain ⟨g, hg, hk⟩ := ih
    exact ⟨g, List.mem_cons_of_mem _ hg, hk⟩

end Contexts

section Lowering

variable {α : Type} {d : Side} {u y y' : ColorTree α} {ctx ctx' : Context α} {c c' : Color}
  {q f : α}

theorem Lowered.closing (h : Lowered .right u ctx c y ctx' c' y') (hcl : Closing f ctx) :
    Closing f ctx' := by
  cases h with
  | stay => exact hcl
  | top => exact hcl
  | rotate => exact .under rfl hcl
  | flip =>
    cases hcl with
    | here => exact .here
    | under hg hrest => exact .under hg hrest
  | single =>
    cases hcl with
    | here => exact .here
    | under hg hrest => exact .under hg (.under hg hrest)
  | double =>
    cases hcl with
    | here => exact .here
    | under hg hrest => exact .under hg (.under hg hrest)

/-- A node beside the only node above a subtree is neither that node nor the root of the
subtree. -/
theorem root_apart {g : Frame α} {s : α} (hd : Distinct [g] (branch d c u q y))
    (hs : s ∈ g.sib.toList) : s ≠ q ∧ ∀ g' ∈ [g], g'.key ≠ s := by
  obtain ⟨-, -, -, hkey, hdisj⟩ := nodup_branch (distinct_cons.mp hd).nodup
  refine ⟨?_, fun g' hg' => ?_⟩
  · rintro rfl
    exact hdisj s (mem_toList_branch.mpr (.inl rfl)) hs
  · obtain rfl := List.mem_singleton.mp hg'
    rintro rfl
    exact hkey hs

/-- The root stays the same, or a node that is not on the path takes its place. -/
theorem Lowered.root_cases (h : Lowered d u ctx c y ctx' c' y')
    (hd : Distinct ctx (branch d c u q y)) :
    ((ctx'.plug (branch d c' u q y')).rootKey = (ctx.plug (branch d c u q y)).rootKey ∧
        ctx.length ≤ ctx'.length) ∨
      (ctx' ≠ [] ∧ ∃ s, (ctx'.plug (branch d c' u q y')).rootKey = some s ∧ s ≠ q ∧
        ∀ g ∈ ctx, g.key ≠ s) := by
  cases h with
  | stay => exact .inl ⟨rfl, Nat.le_refl _⟩
  | top => exact .inl ⟨rfl, Nat.le_refl _⟩
  | @rotate _ _ b s =>
    rcases ctx with _ | ⟨g, ctx⟩
    · refine .inr ⟨by simp, s, rootKey_branch _ _ _ _ _, ?_, by simp⟩
      rintro rfl
      exact (nodup_branch hd.nodup).2.2.2.1 (mem_toList_branch.mpr (.inl rfl))
    · refine .inl ⟨?_, by simp⟩
      exact rootKey_plug_cons (rfl : g.key = g.key) (branch d .black (branch d .red u q y') s b) _
  | flip => exact .inl ⟨rootKey_plug_cons (by rfl) _ _, by simp⟩
  | @single rest e cp cs _ a b p s =>
    rcases rest with _ | ⟨g, rest⟩
    · refine .inr ⟨by simp, s, rootKey_branch _ _ _ _ _, ?_⟩
      exact root_apart hd (mem_toList_branch.mpr (.inl rfl))
    · refine .inl ⟨?_, by simp⟩
      exact rootKey_plug_cons (rfl : g.key = g.key)
        (branch e .red (branch e .black (branch d .red u q y) p a) s (b.paint .black)) _
  | @double rest e cp cs _ a b z p i s =>
    rcases rest with _ | ⟨g, rest⟩
    · refine .inr ⟨by simp, i, rootKey_branch _ _ _ _ _, ?_⟩
      exact root_apart hd (mem_toList_branch.mpr
        (.inr (.inl (mem_toList_branch.mpr (.inl rfl)))))
    · refine .inl ⟨?_, by simp⟩
      exact rootKey_plug_cons (rfl : g.key = g.key)
        (branch e .red (branch e .black (branch d .red u q y) p a) i (branch e .black b s z)) _

end Lowering

/-! ### The descent -/

section Descent

variable {α : Type} [DecidableEq α] {m m₀ : RbMem α} {k : ℕ} {compare : α → α → ℤ}
  {keys : List α} {size : ℕ} {x : α}

omit [DecidableEq α] in
/-- The right link of a node leads to its right child, not to its left one. -/
theorem ZRep.right_ne_of_sib {track : Side → Prop} {f : Frame α} {ctx : Context α}
    {t : ColorTree α} {q : α} (h : ZRep track m (f :: ctx) t) (hd : Distinct (f :: ctx) t)
    (hside : f.side = .left) (hsib : f.sib ≠ nil) (hq : q ∈ t.toList) :
    (m (.obj f.key)).link .right ≠ .obj q := by
  obtain ⟨d, c, p, sib⟩ := f
  obtain rfl : d = .left := hside
  obtain ⟨cs, l, j, r, rfl⟩ := exists_branch .left hsib
  have hlink : (m (.obj p)).link .right = .obj j := h.1.1.2.2.1.2
  obtain ⟨-, -, -, -, hdisj⟩ := nodup_branch (distinct_cons.mp hd).nodup
  rw [hlink]
  rintro ⟨rfl⟩
  have hq' : q ∈ (branch .left cs l q r).toList := mem_toList_branch.mpr (.inl rfl)
  exact hdisj q hq hq'

/-- Beside a subtree with a black node in it the side is told right. -/
theorem ZRep.told_beside {track : Side → Prop} {ctx : Context α} {t : ColorTree α} {q : α}
    {c : Color} {n : ℕ} (h : ZRep track m ctx t) (hd : Distinct ctx t) (hq : t.rootKey = some q)
    (hctx : ctx.RedBlack c (n + 1)) (htop : ctx = [] → (m .sentinel).link .right ≠ .obj q) :
    rbdir ((m (holder ctx)).link .right = .obj q) = side ctx := by
  refine h.told hq fun hside => ?_
  rcases ctx with _ | ⟨f, ctx⟩
  · exact htop rfl
  · exact h.right_ne_of_sib hd hside hctx.sib_ne_nil (rootKey_mem hq)

/-- The loop invariant of `cldm_rbtree_remove` over child links; `m₀` is the memory
before. -/
structure WalkAt (compare : α → α → ℤ) (m₀ : RbMem α) (keys : List α) (size : ℕ) (x : α)
    (ctx : Context α) (t : ColorTree α) (v : RemoveVars α) (s : RbState α) : Prop
    extends DescentAt linksOnly keys size ctx t v s where
  same : ∀ a ∈ t.toList, s.mem (.obj a) = m₀ (.obj a)
  sentinel : (s.mem .sentinel).link .right = (m₀ .sentinel).link .right
  noneBack : NoneBack keys m₀ s.mem
  bottom : t = nil → ∀ f rest, ctx = f :: rest → (m₀ (.obj f.key)).isThread f.side = true
  apart : RootApart ((m₀ .sentinel).link .right) v.found ctx t
  phase : (v.found = .null ∧ Surrounds compare ctx x) ∨
    ∃ f, v.found = .obj f ∧ compare f x = 0 ∧ Closing f ctx

variable {ctx ctx' : Context α} {t u : ColorTree α} {v v' : RemoveVars α} {s s' : RbState α}

omit [DecidableEq α] in
/-- The root is not behind the right link of the sentinel while the descent is next to it. -/
theorem WalkAt.root_ne (h : WalkAt compare m₀ keys size x ctx t v s) {q : α}
    (hq : (ctx.plug t).rootKey = some q) (hlen : ctx.length < 2) :
    (s.mem .sentinel).link .right ≠ .obj q := by
  rw [h.sentinel]
  intro hz
  obtain ⟨hlen', -⟩ := h.apart q hq hz
  omega

/-- Where the loop rebalances, the sides are told right. -/
theorem WalkAt.sidesTold (h : WalkAt compare m₀ keys size x ctx t v s) (hd : Distinct ctx t)
    {d : Side} {y : ColorTree α} {q : α} (ht : t = branch d .black u q y) :
    SidesTold s.mem ctx t := by
  obtain ⟨c₀, n, hrb, hctx⟩ := h.redBlack
  obtain ⟨j, rfl⟩ : ∃ j, n = j + 1 := by
    rw [ht] at hrb
    obtain ⟨-, j, hj, -⟩ := redBlack_branch_black.mp hrb
    exact ⟨j, hj⟩
  constructor
  · intro p hp
    refine h.rep.told_beside hd hp hctx ?_
    rintro rfl
    exact h.root_ne hp (by simp)
  · rintro f rest rfl
    obtain ⟨c', n', hle, -, hrest⟩ := Context.redBlack_fill hrb hctx
    obtain ⟨i, rfl⟩ : ∃ i, n' = i + 1 := ⟨n' - 1, by omega⟩
    refine (zRep_cons.mp h.rep).told_beside (distinct_cons.mp hd) (rootKey_branch _ _ _ _ _) hrest ?_
    rintro rfl
    exact h.root_ne (rootKey_branch _ _ _ _ _) (by simp)

omit [DecidableEq α] in
theorem RootApart.lowered {z found found' : RbPtr α} {d : Side} {c c' : Color}
    {y y' : ColorTree α} {q : α} (h : RootApart z found ctx (branch d c u q y))
    (hd : Distinct ctx (branch d c u q y)) (hlow : Lowered d u ctx c y ctx' c' y')
    (hfound : ∀ f, found' = .obj f → f = q ∨ found = .obj f)
    (hpath : ∀ f, found = .obj f → ∃ g ∈ ctx, g.key = f) :
    RootApart z found' (⟨d, c', q, y'⟩ :: ctx') u := by
  intro k hk hz
  change (ctx'.plug (branch d c' u q y')).rootKey = some k at hk
  rcases hlow.root_cases hd with ⟨hroot, hle⟩ | ⟨hne, s, hs, hsq, hpath'⟩
  · rw [hroot] at hk
    obtain ⟨hlen, hne⟩ := h k hk hz
    refine ⟨by simp only [List.length_cons]; omega, fun hf => ?_⟩
    rcases hfound k hf with rfl | hold
    · -- the root is above `q`
      have hctx : ctx ≠ [] := by
        rintro rfl
        simp at hlen
      exact hd.not_mem_ctx (mem_toList_branch.mpr (.inl rfl)) (mem_of_rootKey_plug hctx hk)
    · exact hne hold
  · obtain rfl : s = k := Option.some.inj (hs.symm.trans hk)
    have hlen : 0 < ctx'.length := List.length_pos_iff.mpr hne
    refine ⟨by simp only [List.length_cons]; omega, fun hf => ?_⟩
    rcases hfound s hf with rfl | hold
    · exact hsq rfl
    · obtain ⟨g, hg, hkey⟩ := hpath s hold
      exact hpath' g hg hkey

omit [DecidableEq α] in
/-- The phase after one turn. -/
theorem WalkAt.next_phase (hc : StrictTotal compare) (hord : Ordered compare keys) {d : Side}
    {c c' : Color} {y y' : ColorTree α} {q : α} {found : RbPtr α}
    (h : WalkAt compare m₀ keys size x ctx (branch d c u q y) v s)
    (hd : d = rbdir (compare q x > 0)) (hlow : Lowered d u ctx c y ctx' c' y')
    (hfound : found = if compare q x = 0 then .obj q else v.found) :
    (found = .null ∧ Surrounds compare (⟨d, c', q, y'⟩ :: ctx') x) ∨
      ∃ f, found = .obj f ∧ compare f x = 0 ∧ Closing f (⟨d, c', q, y'⟩ :: ctx') := by
  have hord' : Ordered compare (branch d c u q y).toList := hord.of_plug_eq h.toList_eq
  rcases h.phase with ⟨hnull, hs⟩ | ⟨f, hf, hfx, hcl⟩
  · by_cases hrel : compare q x = 0
    · obtain rfl : d = .left := by rw [hd, hrel]; rfl
      rw [if_pos hrel] at hfound
      exact .inr ⟨q, hfound, hrel, .here⟩
    · rw [if_neg hrel] at hfound
      have htoward := toward_rbdir hrel
      rw [← hd] at htoward
      exact .inl ⟨hfound.trans hnull, hlow.surrounds (hs.descend hc hord' htoward)⟩
  · -- the nodes below come before `f`, so the way goes to their right
    have hqf : 0 < compare q f := by
      have hlist := h.toList_eq ▸ hord
      rw [Context.toList_plug] at hlist
      exact (List.pairwise_append.mp hlist).2.2 q
        (List.mem_append_right _ (mem_toList_branch.mpr (.inl rfl))) f hcl.mem_after
    have hpos : 0 < compare q x := hc.lt_trans hqf (by omega)
    obtain rfl : d = .right := by simp [hd, hpos, rbdir]
    rw [if_neg (by omega)] at hfound
    exact .inr ⟨f, hfound.trans hf, hfx, .under rfl (hlow.closing hcl)⟩

omit [DecidableEq α] in
/-- One turn keeps the invariant. -/
theorem WalkAt.next (hc : StrictTotal compare) (hord : Ordered compare keys)
    (h : WalkAt compare m₀ keys size x ctx t v s)
    (hturn : Turned linksOnly compare keys size x ctx v s t ctx' u v' s') :
    WalkAt compare m₀ keys size x ctx' u v' s' := by
  have hd : Distinct ctx t := Ordered.distinct hc (by rw [h.toList_eq]; exact hord)
  cases hturn with
  | @intro d c c' u y y' q ctx' v' s' hdir hfound hlow hleft hat =>
    have hkeys := h.toList_eq
    have hspares := hleft.spares
    rw [hkeys] at hspares
    have hmem : ∀ a ∈ u.toList, a ∈ (branch d c u q y).toList := fun a ha =>
      mem_toList_branch.mpr (.inr (.inl ha))
    exact
      { toDescentAt := hat
        same := fun a ha => (hspares.below a ha).trans (h.same a (hmem a ha))
        sentinel := hspares.sentinel.trans h.sentinel
        noneBack := h.noneBack.trans hspares.noneBack
        bottom := by
          rintro rfl f rest ⟨rfl, rfl⟩
          obtain ⟨-, ⟨hlink, -⟩, -⟩ := rep_branch.mp h.rep.2
          rw [← h.same q (mem_toList_branch.mpr (.inl rfl))]
          exact hlink.1
        apart := by
          refine h.apart.lowered hd hlow (fun f hf => ?_) (fun f hf => ?_)
          · rw [hfound] at hf
            split_ifs at hf
            · exact .inl (RbPtr.obj.inj hf).symm
            · exact .inr hf
          · rcases h.phase with ⟨hnull, -⟩ | ⟨f', hf', -, hcl⟩
            · exact absurd (hnull.symm.trans hf) (by simp)
            · obtain rfl := RbPtr.obj.inj (hf'.symm.trans hf)
              exact hcl.exists_key
        phase := h.next_phase hc hord hdir hlow hfound }

/-- The loop ends at the bottom of the tree, with whatever else its turns keep. -/
theorem total_walk (hc : StrictTotal compare) (hord : Ordered compare keys)
    {P : Context α → ColorTree α → RbMem α → Prop}
    (hP : ∀ {ctx t v s ctx' u v' s'}, WalkAt compare m₀ keys size x ctx t v s → P ctx t s.mem →
      Turned linksOnly compare keys size x ctx v s t ctx' u v' s' → P ctx' u s'.mem)
    (h : WalkAt compare m₀ keys size x ctx t v s) (hstart : P ctx t s.mem) :
    Total (fun n => fuelLoop (rbtreeRemoveBody compare (.obj x)) n v) (fun v' s' => ∃ ctx',
      WalkAt compare m₀ keys size x ctx' nil v' s' ∧ P ctx' nil s'.mem) s := by
  let I : ℕ → RemoveVars α → RbState α → Prop := fun j v s => ∃ ctx t,
    WalkAt compare m₀ keys size x ctx t v s ∧ P ctx t s.mem ∧ j = t.toList.length
  have step : ∀ j v s, I j v s → Total (fun _ => rbtreeRemoveBody compare (.obj x) v)
      (fun r s' => Sum.elim (fun v' => ∃ j' < j, I j' v' s') (fun v' => ∃ ctx',
        WalkAt compare m₀ keys size x ctx' nil v' s' ∧ P ctx' nil s'.mem) r) s := by
    rintro j v s ⟨ctx, t, hat, hp, rfl⟩
    have hd : Distinct ctx t := Ordered.distinct hc (by rw [hat.toList_eq]; exact hord)
    refine Total.const (wp_mono (hat.toDescentAt.turn hd ?_) ?_)
    · rintro d c u q y ht rfl -
      exact hat.sidesTold hd ht
    · rintro (v' | v') s' hturn
      · obtain ⟨ctx', u, hturned⟩ := hturn
        refine ⟨u.toList.length, ?_, ctx', u, hat.next hc hord hturned, hP hat hp hturned, rfl⟩
        cases hturned with
        | intro => exact length_child _ _ _ _ _
      · obtain ⟨rfl, rfl, rfl⟩ := hturn
        exact ⟨ctx, hat, hp⟩
  exact total_loop step _ _ _ ⟨ctx, t, h, hstart, rfl⟩

/-- The loop of `cldm_rbtree_remove`, from its start. -/
theorem total_descent (hc : StrictTotal compare) (h : RbLinks compare s t)
    (hapart : SentinelApart s) {P : Context α → ColorTree α → RbMem α → Prop}
    (hP : ∀ {ctx t' v s₁ ctx' u v' s'},
      WalkAt compare s.mem t.toList s.size x ctx t' v s₁ → P ctx t' s₁.mem →
      Turned linksOnly compare t.toList s.size x ctx v s₁ t' ctx' u v' s' → P ctx' u s'.mem)
    (hstart : ∀ m, (∀ q, q ≠ .gpLocal → m q = s.mem q) → P [] t m) :
    Total (rbtreeRemoveDescent compare x) (fun v s' => ∃ ctx,
      WalkAt compare s.mem t.toList s.size x ctx nil v s' ∧ P ctx nil s'.mem) s := by
  obtain ⟨m, k⟩ := s
  refine Total.wp_bind ?_
  rw [wp_store (by simp)]
  refine Total.wp_bind ?_
  rw [wp_rbroot]
  generalize hm' : Function.update m .gpLocal _ = m'
  have hother : ∀ q, q ≠ .gpLocal → m' q = m q := fun q hq => by
    rw [← hm', Function.update_of_ne hq]
  have hlink : ∀ q, q ≠ .gpLocal → (m' q).link .right = (m q).link .right := fun q hq => by
    rw [hother q hq]
  have hz : ZRep linksOnly m' [] t :=
    h.layout.frame (hother _ (by simp)) fun a _ => hother _ (by simp)
  obtain ⟨n, hrb⟩ := h.redBlack
  refine total_walk hc h.ordered hP ?_ (hstart m' hother)
  exact
    { rep := hz
      toList_eq := rfl
      redBlack := ⟨_, n, hrb, trivial⟩
      descended := hrb.isRed_black
      size_eq := rfl
      p_eq := rfl
      dir_eq := rfl
      n_eq := fun q hq => (hz.1.link_eq hq).2
      grandparent := ⟨by simp, by simp⟩
      same := fun a _ => hother _ (by simp)
      sentinel := hlink _ (by simp)
      noneBack := fun a b _ hback => (hlink _ (by simp)).symm.trans hback
      bottom := fun _ f rest hnil => absurd hnil (by simp)
      apart := by
        intro q hq hsent
        have hmem : q ∈ RbState.stored (⟨m, k⟩ : RbState α) :=
          h.layout.mem_stored.mpr (rootKey_mem hq)
        exact absurd hsent (hapart q hmem (h.layout.1.link_eq hq).2)
      phase := .inl ⟨rfl, by simp [Context.before], by simp [Context.after]⟩ }

end Descent

end Cldm
