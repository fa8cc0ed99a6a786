/-
The checker of the red-black conditions, and the insertions of the fuzzing driver.

`rbtree_adheres_to_rbproperties` goes through a tree and returns its black height, or
one of four negative numbers.  It compares a child with its parent only, and accepts a
red root.  `Verdict` says what an answer means, and `wp_adheres` that every answer on a
tree that is laid out has that meaning.

* `Violates` — the violation that a negative answer reports;
* `rbtree_checker_exact` — the checker accepts exactly the trees that adhere;
* `PlainIn`, `plainIn_insert` — insertions set no other flags than the thread bits;
* `rbtree_fuzz_insertions_adhere` — no insertion of the fuzzing driver is reported.
-/
import Cldm.RbtreeUnlink

namespace Cldm

open Prog ColorTree

/-! ### The checker -/

/-- `RBTREE_RED_VIOLATION`. -/
def rbtreeRedViolation : ℤ := -0x1

/-- `RBTREE_LEFT_CHILD_VIOLATION`. -/
def rbtreeLeftChildViolation : ℤ := -0x2

/-- `RBTREE_RIGHT_CHILD_VIOLATION`. -/
def rbtreeRightChildViolation : ℤ := -0x4

/-- `RBTREE_HEIGHT_VIOLATION`. -/
def rbtreeHeightViolation : ℤ := -0x8

section Checker

variable {α : Type} [DecidableEq α]

def rbtreeIsLeaf (node : RbPtr α) : Prog (RbState α) Bool := do
  return (← load node).flags &&& rbLeaf = rbLeaf

def rbtreeIsRed (node : RbPtr α) : Prog (RbState α) Bool := do
  return (← load node).color = .red

def rbtreeIsBlack (node : RbPtr α) : Prog (RbState α) Bool := do
  return (← load node).color = .black

def rbtreeIsRedSafe (node : RbPtr α) (dir : Side) : Prog (RbState α) Bool := do
  if (← load node).isThread dir then
    return false
  else
    rbtreeIsRed (← link node dir)

/-- The comparison of a child with its parent, the lesser one first. -/
def childViolation (compare : α → α → ℤ) (node : RbPtr α) : Side → Prog (RbState α) Bool
  | .left => do return (← compareAt compare (← link node .left) node) ≤ 0
  | .right => do return (← compareAt compare node (← link node .right)) ≤ 0

/-- `fuel` bounds the depth of the recursion. -/
def rbtreeAdheresToRbproperties (compare : α → α → ℤ) : ℕ → RbPtr α → Prog (RbState α) ℤ
  | 0, _ => fun _ => none
  | fuel + 1, p => do
    if ← rbtreeIsRed p <&&> (rbtreeIsRedSafe p .left <||> rbtreeIsRedSafe p .right) then
      return rbtreeRedViolation
    else if ← rbnodeHasChild p .left <&&> childViolation compare p .left then
      return rbtreeLeftChildViolation
    else if ← rbnodeHasChild p .right <&&> childViolation compare p .right then
      return rbtreeRightChildViolation
    else
      let hcontrib : ℤ := if ← rbtreeIsBlack p then 1 else 0
      if (← load p).flags = 0 then
        let lheight ← rbtreeAdheresToRbproperties compare fuel (← link p .left)
        if lheight < 0 then
          return lheight
        else
          let rheight ← rbtreeAdheresToRbproperties compare fuel (← link p .right)
          if rheight < 0 then
            return rheight
          else if lheight ≠ rheight then
            return rbtreeHeightViolation
          else
            return lheight + hcontrib
      else if !(← rbtreeIsLeaf p) then
        let rnode ← if (← load p).isThread .right then link p .left else link p .right
        let rval ← rbtreeAdheresToRbproperties compare fuel rnode
        if rval < 0 then
          return rval
        else if rval > 0 then
          return rbtreeHeightViolation
        else
          return hcontrib
      else
        return hcontrib

attribute [grind =] rbtreeAdheresToRbproperties

end Checker

/-! ### What it checks -/

section Verdicts

variable {α : Type} {compare : α → α → ℤ} {c c' : Color} {l r t : ColorTree α} {k a : α} {n j : ℕ}

/-- Every child is on the right side of its parent. -/
def ParentsOrdered (compare : α → α → ℤ) : ColorTree α → Prop
  | nil => True
  | node _ l k r =>
      (∀ a, l.rootKey = some a → 0 < compare a k) ∧ (∀ a, r.rootKey = some a → 0 < compare k a) ∧
        ParentsOrdered compare l ∧ ParentsOrdered compare r

attribute [grind =] ParentsOrdered

/-- The colours are in order below a root of any colour, and the children beside their
parents. -/
def Adheres (compare : α → α → ℤ) (t : ColorTree α) (n : ℕ) : Prop :=
  (∃ c, t.RedBlack c n) ∧ ParentsOrdered compare t

/-- A subtree of `t` breaks the condition that the number reports. -/
inductive Violates (compare : α → α → ℤ) : ColorTree α → ℤ → Prop where
  | red {l r : ColorTree α} {k : α} : l.isRed = true ∨ r.isRed = true →
      Violates compare (node .red l k r) rbtreeRedViolation
  | leftChild {c : Color} {l r : ColorTree α} {k a : α} : l.rootKey = some a →
      compare a k ≤ 0 → Violates compare (node c l k r) rbtreeLeftChildViolation
  | rightChild {c : Color} {l r : ColorTree α} {k a : α} : r.rootKey = some a →
      compare k a ≤ 0 → Violates compare (node c l k r) rbtreeRightChildViolation
  | height {c : Color} {l r : ColorTree α} {k : α} {i j : ℕ} : Adheres compare l i →
      Adheres compare r j → i ≠ j → Violates compare (node c l k r) rbtreeHeightViolation
  | inLeft {c : Color} {l r : ColorTree α} {k : α} {v : ℤ} : Violates compare l v →
      Violates compare (node c l k r) v
  | inRight {c : Color} {l r : ColorTree α} {k : α} {v : ℤ} : Violates compare r v →
      Violates compare (node c l k r) v

/-- What the answer `v` says about `t`. -/
def Verdict (compare : α → α → ℤ) (t : ColorTree α) (v : ℤ) : Prop :=
  (∃ n : ℕ, v = n ∧ Adheres compare t n) ∨ (v < 0 ∧ Violates compare t v)

theorem exists_rootKey (h : t ≠ nil) : ∃ a, t.rootKey = some a := by
  cases t with
  | nil => exact absurd rfl h
  | node c l k r => exact ⟨k, rfl⟩

theorem adheres_nil : Adheres compare nil 0 := ⟨⟨.black, rfl, rfl⟩, trivial⟩

/-- A red-black tree has one black height. -/
theorem RedBlack.height_unique {i j : ℕ} (h : t.RedBlack c i) (h' : t.RedBlack c' j) : i = j := by
  induction t generalizing c c' i j with
  | nil => exact h.2.trans h'.2.symm
  | node ct l k r ihl _ =>
    cases ct with
    | red => exact ihl h.2.1 h'.2.1
    | black =>
      obtain ⟨-, i, rfl, ⟨cl, hl⟩, -⟩ := h
      obtain ⟨-, j, rfl, ⟨cl', hl'⟩, -⟩ := h'
      rw [ihl hl hl']

/-- A node above two subtrees of one black height. -/
theorem redBlack_node {cl cr : Color} (hl : l.RedBlack cl n) (hr : r.RedBlack cr n)
    (hred : ¬ (c = .red ∧ (l.isRed = true ∨ r.isRed = true))) :
    (node c l k r).RedBlack c (n + if c = .black then 1 else 0) := by
  cases c with
  | red =>
    have hlr : l.isRed = false ∧ r.isRed = false := by simpa using hred
    obtain rfl := hl.eq_black hlr.1
    obtain rfl := hr.eq_black hlr.2
    exact ⟨rfl, hl, hr⟩
  | black => exact ⟨rfl, n, rfl, ⟨cl, hl⟩, cr, hr⟩

theorem Adheres.node (hl : Adheres compare l n) (hr : Adheres compare r n)
    (hred : ¬ (c = .red ∧ (l.isRed = true ∨ r.isRed = true)))
    (hleft : ∀ a, l.rootKey = some a → 0 < compare a k)
    (hright : ∀ a, r.rootKey = some a → 0 < compare k a) :
    Adheres compare (ColorTree.node c l k r) (n + if c = .black then 1 else 0) := by
  obtain ⟨⟨cl, hl⟩, hlo⟩ := hl
  obtain ⟨⟨cr, hr⟩, hro⟩ := hr
  exact ⟨⟨c, redBlack_node hl hr hred⟩, hleft, hright, hlo, hro⟩

/-- The subtrees of a tree that adheres. -/
theorem Adheres.children (h : Adheres compare (ColorTree.node c l k r) n) :
    ∃ j, Adheres compare l j ∧ Adheres compare r j := by
  obtain ⟨⟨c₀, hrb⟩, -, -, hlo, hro⟩ := h
  cases c with
  | red => exact ⟨n, ⟨⟨_, hrb.2.1⟩, hlo⟩, ⟨_, hrb.2.2⟩, hro⟩
  | black =>
    obtain ⟨-, j, -, hl, hr⟩ := hrb
    exact ⟨j, ⟨hl, hlo⟩, hr, hro⟩

theorem Adheres.unique {i : ℕ} (h : Adheres compare t i) (h' : Adheres compare t j) : i = j := by
  obtain ⟨⟨c, h⟩, -⟩ := h
  obtain ⟨⟨c', h'⟩, -⟩ := h'
  exact RedBlack.height_unique h h'

/-- A report is true. -/
theorem Violates.not_adheres {v : ℤ} (h : Violates compare t v) : ¬ Adheres compare t n := by
  induction h generalizing n with
  | @red l r k hred =>
    rintro ⟨⟨c, -, hl, hr⟩, -⟩
    rcases hred with hred | hred
    · exact absurd hred (by simp [hl.isRed_black])
    · exact absurd hred (by simp [hr.isRed_black])
  | leftChild ha hle =>
    rintro ⟨-, hleft, -⟩
    exact absurd (hleft _ ha) (by omega)
  | rightChild ha hle =>
    rintro ⟨-, -, hright, -⟩
    exact absurd (hright _ ha) (by omega)
  | height hl hr hne =>
    intro h
    obtain ⟨j, hl', hr'⟩ := h.children
    exact hne ((hl.unique hl').trans (hr'.unique hr))
  | inLeft _ ih =>
    intro h
    obtain ⟨j, hl, -⟩ := h.children
    exact ih hl
  | inRight _ ih =>
    intro h
    obtain ⟨j, -, hr⟩ := h.children
    exact ih hr

theorem Verdict.nonneg_iff {v : ℤ} (h : Verdict compare t v) :
    0 ≤ v ↔ ∃ n, Adheres compare t n := by
  rcases h with ⟨n, rfl, had⟩ | ⟨hneg, hviol⟩
  · exact iff_of_true (by omega) ⟨n, had⟩
  · refine iff_of_false (by omega) ?_
    rintro ⟨n, had⟩
    exact hviol.not_adheres had

end Verdicts

/-! ### Every answer is a verdict -/

section Run

variable {α : Type} [DecidableEq α] {compare : α → α → ℤ} {m : RbMem α} {size : ℕ}

/-- No flag but the two thread bits is set. -/
def PlainFlag (f : BitVec 8) : Prop := f &&& ~~~rbLeaf = 0

instance (f : BitVec 8) : Decidable (PlainFlag f) := inferInstanceAs (Decidable (_ = _))

/-- The nodes have no other flags than the thread bits. -/
def PlainFlags (m : RbMem α) (keys : List α) : Prop := ∀ a ∈ keys, PlainFlag (m (.obj a)).flags

omit [DecidableEq α] in
theorem flags_eq_zero_iff {x : Rbnode α} (h : PlainFlag x.flags) :
    x.flags = 0 ↔ x.isThread .left = false ∧ x.isThread .right = false := by
  have hbits : ∀ f : BitVec 8, PlainFlag f →
      (f = 0 ↔ decide (f &&& threadBit .left ≠ 0) = false ∧
        decide (f &&& threadBit .right ≠ 0) = false) := by
    decide
  exact hbits x.flags h

omit [DecidableEq α] in
theorem flags_leaf_iff {x : Rbnode α} (h : PlainFlag x.flags) :
    x.flags &&& rbLeaf = rbLeaf ↔ x.isThread .left = true ∧ x.isThread .right = true := by
  have hbits : ∀ f : BitVec 8, PlainFlag f →
      (f &&& rbLeaf = rbLeaf ↔ decide (f &&& threadBit .left ≠ 0) = true ∧
        decide (f &&& threadBit .right ≠ 0) = true) := by
    decide
  exact hbits x.flags h

@[simp] theorem wp_rbtreeIsLeaf {p : RbPtr α} (hp : p ≠ .null) {Q : Bool → RbState α → Prop} :
    wp (rbtreeIsLeaf p) Q ⟨m, size⟩ ↔
      Q (decide ((m p).flags &&& rbLeaf = rbLeaf)) ⟨m, size⟩ := by
  simp [rbtreeIsLeaf, hp]

@[simp] theorem wp_rbtreeIsRed {p : RbPtr α} (hp : p ≠ .null) {Q : Bool → RbState α → Prop} :
    wp (rbtreeIsRed p) Q ⟨m, size⟩ ↔ Q (decide ((m p).color = .red)) ⟨m, size⟩ := by
  simp [rbtreeIsRed, hp]

@[simp] theorem wp_rbtreeIsBlack {p : RbPtr α} (hp : p ≠ .null) {Q : Bool → RbState α → Prop} :
    wp (rbtreeIsBlack p) Q ⟨m, size⟩ ↔ Q (decide ((m p).color = .black)) ⟨m, size⟩ := by
  simp [rbtreeIsBlack, hp]

theorem wp_rbtreeIsRedSafe {track : Side → Prop} {q : RbPtr α} {d : Side} {x : ColorTree α}
    {b : RbPtr α} {b' : Side → RbPtr α} {Q : Bool → RbState α → Prop} (hq : q ≠ .null)
    (hl : LinkRep track m q d x b) (hx : Rep track m x b') :
    wp (rbtreeIsRedSafe q d) Q ⟨m, size⟩ ↔ Q x.isRed ⟨m, size⟩ := by
  rcases x with _ | ⟨c, l, a, r⟩
  · simp [rbtreeIsRedSafe, hq, hl.1, isRed]
  · have hc : (m (.obj a)).color = c := hx.1
    cases c <;> simp [rbtreeIsRedSafe, hq, hl.1, hl.2, hc, isRed]

omit [DecidableEq α] in
theorem any_rootKey_iff (t : ColorTree α) (f : α → ℤ) :
    (t.rootKey.any fun a => decide (f a ≤ 0)) = true ↔ ∃ a, t.rootKey = some a ∧ f a ≤ 0 := by
  rw [Option.any_eq_true]
  simp only [decide_eq_true_eq]

omit [DecidableEq α] in
theorem not_any_rootKey {t : ColorTree α} {f : α → ℤ}
    (h : ¬ (t.rootKey.any fun a => decide (f a ≤ 0)) = true) :
    ∀ a, t.rootKey = some a → 0 < f a := by
  intro a ha
  by_contra hle
  exact h ((any_rootKey_iff t f).mpr ⟨a, ha, not_lt.mp hle⟩)

/-- The check of the colours. -/
theorem wp_red_check {track : Side → Prop} {c : Color} {l r : ColorTree α} {k : α}
    {b b' : Side → RbPtr α} {bl br : RbPtr α} {Q : Bool → RbState α → Prop}
    (hcol : (m (.obj k)).color = c) (hl : LinkRep track m (.obj k) .left l bl)
    (hr : LinkRep track m (.obj k) .right r br) (hl' : Rep track m l b) (hr' : Rep track m r b') :
    wp (rbtreeIsRed (.obj k) <&&>
        (rbtreeIsRedSafe (.obj k) .left <||> rbtreeIsRedSafe (.obj k) .right)) Q ⟨m, size⟩ ↔
      Q (decide (c = .red) && (l.isRed || r.isRed)) ⟨m, size⟩ := by
  have hne : (RbPtr.obj k : RbPtr α) ≠ .null := by simp
  rw [wp_and, wp_rbtreeIsRed hne, hcol]
  cases c with
  | black => simp
  | red =>
    simp only [decide_true, if_true, wp_or, wp_rbtreeIsRedSafe hne hl hl',
      wp_rbtreeIsRedSafe hne hr hr']
    cases l.isRed <;> simp

/-- The check of the left child. -/
theorem wp_left_child {track : Side → Prop} {k : α} {x : ColorTree α} {b : RbPtr α}
    {Q : Bool → RbState α → Prop} (hl : LinkRep track m (.obj k) .left x b) :
    wp (rbnodeHasChild (.obj k) .left <&&> childViolation compare (.obj k) .left) Q ⟨m, size⟩ ↔
      Q (x.rootKey.any fun a => compare a k ≤ 0) ⟨m, size⟩ := by
  rcases x with _ | ⟨c, l, a, r⟩
  · simp [hl.1, rootKey]
  · simp [hl.1, hl.2, childViolation, rootKey]

/-- The check of the right child. -/
theorem wp_right_child {track : Side → Prop} {k : α} {x : ColorTree α} {b : RbPtr α}
    {Q : Bool → RbState α → Prop} (hl : LinkRep track m (.obj k) .right x b) :
    wp (rbnodeHasChild (.obj k) .right <&&> childViolation compare (.obj k) .right) Q ⟨m, size⟩ ↔
      Q (x.rootKey.any fun a => compare k a ≤ 0) ⟨m, size⟩ := by
  rcases x with _ | ⟨c, l, a, r⟩
  · simp [hl.1, rootKey]
  · simp [hl.1, hl.2, childViolation, rootKey]

omit [DecidableEq α] in
theorem LinkRep.link_child {track : Side → Prop} {q b : RbPtr α} {d : Side} {t : ColorTree α}
    {a : α} (h : LinkRep track m q d t b) (ha : t.rootKey = some a) :
    (m q).link d = .obj a := by
  cases t with
  | nil => exact absurd ha (by simp [rootKey])
  | node c l k r =>
    obtain rfl : k = a := Option.some.inj ha
    exact h.2

omit [DecidableEq α] in
/-- The end of a call on a node with one child. -/
theorem wp_only_child {t x : ColorTree α} {v h : ℤ} {s : RbState α} (hv : Verdict compare x v)
    (hviol : Violates compare x v → Violates compare t v)
    (hheight : ∀ {n : ℕ}, 0 < n → Adheres compare x n →
      Violates compare t rbtreeHeightViolation)
    (hadh : Adheres compare x 0 → Verdict compare t h) :
    wp (if v < 0 then pure v else if v > 0 then pure rbtreeHeightViolation else pure h)
      (fun w s' => s' = s ∧ Verdict compare t w) s := by
  rcases hv with ⟨n, rfl, had⟩ | ⟨hneg, hx⟩
  · rw [if_neg (by omega)]
    split_ifs with hpos
    · exact (wp_pure ..).mpr ⟨rfl, .inr ⟨by decide, hheight (by omega) had⟩⟩
    · obtain rfl : n = 0 := by omega
      exact (wp_pure ..).mpr ⟨rfl, hadh had⟩
  · rw [if_pos hneg]
    exact (wp_pure ..).mpr ⟨rfl, .inr ⟨hneg, hviol hx⟩⟩

/-- The answer on a tree that is laid out. -/
theorem wp_adheres {t : ColorTree α} {b : Side → RbPtr α} {k : α} {fuel : ℕ}
    (h : Rep linksOnly m t b) (hflags : PlainFlags m t.toList) (hk : t.rootKey = some k)
    (hfuel : t.toList.length ≤ fuel) :
    wp (rbtreeAdheresToRbproperties compare fuel (.obj k))
      (fun v s' => s' = ⟨m, size⟩ ∧ Verdict compare t v) ⟨m, size⟩ := by
  induction t generalizing b k fuel with
  | nil => exact absurd hk (by simp [rootKey])
  | node c l k' r ihl ihr =>
    obtain rfl : k' = k := Option.some.inj hk
    obtain ⟨hcol, ⟨hl, hr⟩, hl', hr'⟩ := h
    obtain ⟨fuel, rfl⟩ : ∃ f, fuel = f + 1 :=
      ⟨fuel - 1, by simp only [toList, List.length_append, List.length_cons] at hfuel; omega⟩
    have hplain : PlainFlag (m (.obj k')).flags := hflags k' (by simp [toList])
    have hfl : l.toList.length ≤ fuel ∧ r.toList.length ≤ fuel := by
      simp only [toList, List.length_append, List.length_cons] at hfuel
      omega
    have hpl : PlainFlags m l.toList := fun a ha => hflags a (by simp [toList, ha])
    have hpr : PlainFlags m r.toList := fun a ha => hflags a (by simp [toList, ha])
    have hne : (RbPtr.obj k' : RbPtr α) ≠ .null := by simp
    rw [rbtreeAdheresToRbproperties, wp_bind, wp_red_check hcol hl hr hl' hr']
    -- a red node with a red child
    by_cases hred : (decide (c = .red) && (l.isRed || r.isRed)) = true
    · rw [if_pos hred]
      obtain ⟨rfl, hchild⟩ : c = .red ∧ (l.isRed = true ∨ r.isRed = true) := by simpa using hred
      exact (wp_pure ..).mpr ⟨rfl, .inr ⟨by decide, .red hchild⟩⟩
    have hred' : ¬ (c = .red ∧ (l.isRed = true ∨ r.isRed = true)) := by simpa using hred
    rw [if_neg hred, wp_bind, wp_left_child hl]
    -- only the child itself is compared, not what lies below it
    by_cases hleft : (l.rootKey.any fun a => compare a k' ≤ 0) = true
    · rw [if_pos hleft]
      obtain ⟨a, ha, hle⟩ := (any_rootKey_iff ..).mp hleft
      exact (wp_pure ..).mpr ⟨rfl, .inr ⟨by decide, .leftChild ha hle⟩⟩
    have hleft' := not_any_rootKey hleft
    rw [if_neg hleft, wp_bind, wp_right_child hr]
    by_cases hright : (r.rootKey.any fun a => compare k' a ≤ 0) = true
    · rw [if_pos hright]
      obtain ⟨a, ha, hle⟩ := (any_rootKey_iff ..).mp hright
      exact (wp_pure ..).mpr ⟨rfl, .inr ⟨by decide, .rightChild ha hle⟩⟩
    have hright' := not_any_rootKey hright
    -- from here on only the heights are compared
    have hnode : ∀ {n : ℕ}, Adheres compare l n → Adheres compare r n → Verdict compare
        (node c l k' r) (n + if decide (c = .black) = true then 1 else 0) := by
      intro n hal har
      refine .inl ⟨n + if c = .black then 1 else 0, ?_, hal.node har hred' hleft' hright'⟩
      cases c <;> simp
    rw [if_neg hright, wp_bind, wp_rbtreeIsBlack hne, hcol, wp_bind, wp_load hne]
    -- the thread bits tell which children there are
    have hzero := flags_eq_zero_iff hplain
    have hleaf := flags_leaf_iff hplain
    rw [hl.isThread_iff, hr.isThread_iff] at hleaf
    rw [← Bool.not_eq_true, ← Bool.not_eq_true, hl.isThread_iff, hr.isThread_iff] at hzero
    have hthread := hr.isThread_iff
    by_cases hln : l = nil
    · rw [if_neg fun h => (hzero.mp h).1 hln, wp_bind, wp_rbtreeIsLeaf hne]
      subst hln
      by_cases hrn : r = nil
      · subst hrn
        rw [decide_eq_true (hleaf.mpr ⟨rfl, rfl⟩), Bool.not_true, if_neg Bool.false_ne_true]
        refine (wp_pure ..).mpr ⟨rfl, ?_⟩
        simpa using hnode adheres_nil adheres_nil
      · obtain ⟨a, ha⟩ := exists_rootKey hrn
        rw [decide_eq_false fun h => hrn (hleaf.mp h).2, Bool.not_false, if_pos rfl, wp_bind,
          wp_load hne, if_neg fun h => hrn (hthread.mp h), wp_bind, wp_link hne, hr.link_child ha,
          wp_bind]
        refine wp_mono (ihr hr' hpr ha hfl.2) ?_
        rintro v s' ⟨rfl, hv⟩
        exact wp_only_child hv .inRight (fun hn had => .height adheres_nil had hn.ne)
          fun had => by simpa using hnode adheres_nil had
    · obtain ⟨a, ha⟩ := exists_rootKey hln
      by_cases hrn : r = nil
      · rw [if_neg fun h => (hzero.mp h).2 hrn, wp_bind, wp_rbtreeIsLeaf hne,
          decide_eq_false fun h => hln (hleaf.mp h).1, Bool.not_false, if_pos rfl, wp_bind,
          wp_load hne, if_pos (hthread.mpr hrn), wp_bind, wp_link hne, hl.link_child ha, wp_bind]
        subst hrn
        refine wp_mono (ihl hl' hpl ha hfl.1) ?_
        rintro v s' ⟨rfl, hv⟩
        exact wp_only_child hv .inLeft (fun hn had => .height had adheres_nil hn.ne')
          fun had => by simpa using hnode had adheres_nil
      · obtain ⟨b', hb'⟩ := exists_rootKey hrn
        rw [if_pos (hzero.mpr ⟨hln, hrn⟩), wp_bind, wp_link hne, hl.link_child ha, wp_bind]
        refine wp_mono (ihl hl' hpl ha hfl.1) ?_
        rintro v s' ⟨rfl, ⟨i, rfl, hi⟩ | ⟨hneg, hviol⟩⟩
        swap
        · rw [if_pos hneg]
          exact (wp_pure ..).mpr ⟨rfl, .inr ⟨hneg, hviol.inLeft⟩⟩
        rw [if_neg (by omega), wp_bind, wp_link hne, hr.link_child hb', wp_bind]
        refine wp_mono (ihr hr' hpr hb' hfl.2) ?_
        rintro v s' ⟨rfl, ⟨j, rfl, hj⟩ | ⟨hneg, hviol⟩⟩
        swap
        · rw [if_pos hneg]
          exact (wp_pure ..).mpr ⟨rfl, .inr ⟨hneg, hviol.inRight⟩⟩
        rw [if_neg (by omega)]
        by_cases hij : i = j
        · subst hij
          rw [if_neg (by simp)]
          exact (wp_pure ..).mpr ⟨rfl, hnode hi hj⟩
        · rw [if_pos (by omega)]
          exact (wp_pure ..).mpr ⟨rfl, .inr ⟨by decide, .height hi hj hij⟩⟩

theorem fuelMono_adheres (k : RbPtr α) :
    FuelMono fun fuel => rbtreeAdheresToRbproperties compare fuel k := by
  intro fuel
  induction fuel generalizing k with
  | zero => exact fun s r h => absurd h (by simp [rbtreeAdheresToRbproperties])
  | succ fuel ih =>
    simp only [rbtreeAdheresToRbproperties]
    refine (Le.refl _).bind fun _ => .ite _ (.refl _) ?_
    refine (Le.refl _).bind fun _ => .ite _ (.refl _) ?_
    refine (Le.refl _).bind fun _ => .ite _ (.refl _) ?_
    refine (Le.refl _).bind fun _ => (Le.refl _).bind fun _ => .ite _ ?_ ?_
    · refine (Le.refl _).bind fun _ => (ih _).bind fun _ => .ite _ (.refl _) ?_
      exact (Le.refl _).bind fun _ => (ih _).bind fun _ => .refl _
    · refine (Le.refl _).bind fun _ => .ite _ ?_ (.refl _)
      refine (Le.refl _).bind fun _ => .ite _ ?_ ?_
      · exact (Le.refl _).bind fun _ => (ih _).bind fun _ => .refl _
      · exact (Le.refl _).bind fun _ => (ih _).bind fun _ => .refl _

/-- The answer on the whole tree. -/
theorem total_adheres {s : RbState α} {t : ColorTree α} (ht : t ≠ nil)
    (h : ZRep linksOnly s.mem [] t) (hflags : PlainFlags s.mem t.toList) :
    Total (fun fuel => do rbtreeAdheresToRbproperties compare fuel (← rbroot))
      (fun v s' => s' = s ∧ Verdict compare t v) s := by
  obtain ⟨m, size⟩ := s
  obtain ⟨k, hk⟩ := exists_rootKey ht
  have hroot : (m .sentinel).link .left = .obj k := (h.1.link_eq hk).2
  refine Total.wp_bind ?_
  rw [wp_rbroot, hroot]
  obtain ⟨v, s', hv, hQ⟩ := @wp_adheres α _ compare m size t _ k _ h.2 hflags hk le_rfl
  exact ⟨v, s', (fuelMono_adheres _).returns hv, hQ⟩

/-- What a call of the checker tells about the tree `t` in the state `s`. -/
def ChecksExactly (compare : α → α → ℤ) (s : RbState α) (t : ColorTree α) : Prop :=
  ∃ v, Returns (fun fuel => do rbtreeAdheresToRbproperties compare fuel (← rbroot)) s v s ∧
    (0 ≤ v ↔ ∃ n, Adheres compare t n) ∧ (∀ n, Adheres compare t n → v = n) ∧
      (v < 0 → Violates compare t v)

/-- On a tree that is laid out, whatever its colours, order and threads, the checker
returns the black height if and only if the tree adheres, and else reports a condition
that it breaks. -/
theorem rbtree_checker_exact (s : RbState α) (t : ColorTree α) (ht : t ≠ nil)
    (h : ZRep linksOnly s.mem [] t) (hflags : PlainFlags s.mem t.toList) :
    ChecksExactly compare s t := by
  obtain ⟨v, _, hret, rfl, hv⟩ := @total_adheres α _ compare s t ht h hflags
  refine ⟨v, hret, hv.nonneg_iff, fun n had => ?_, fun hneg => ?_⟩
  · rcases hv with ⟨j, rfl, hj⟩ | ⟨-, hviol⟩
    · rw [had.unique hj]
    · exact absurd had hviol.not_adheres
  · rcases hv with ⟨j, rfl, -⟩ | ⟨-, hviol⟩
    · exact absurd hneg (by omega)
    · exact hviol

/-- Two nodes, the lesser one on the right of the other. -/
def misplacedState : RbState ℕ where
  mem
    | .sentinel => { left := .obj 2, right := .sentinel, color := .black, flags := 0x02 }
    | .obj 2 => { left := .sentinel, right := .obj 1, color := .black, flags := 0x01 }
    | _ => { left := .obj 2, right := .sentinel, color := .red, flags := 0x03 }
  size := 2

theorem rbtree_checker_exact_misplaced :
    ChecksExactly byValue misplacedState (node .black nil 2 (node .red nil 1 nil)) := by
  refine rbtree_checker_exact misplacedState _ (by simp) ⟨⟨rfl, rfl, rfl, fun h => h.elim⟩, rfl,
    ⟨⟨by decide, fun h => h.elim⟩, by decide, rfl⟩, trivial, rfl,
    ⟨⟨by decide, fun h => h.elim⟩, by decide, fun h => h.elim⟩, trivial, trivial⟩ ?_
  intro a ha
  rcases List.mem_pair.mp ha with rfl | rfl
  · decide
  · decide

end Run

/-! ### Flags -/

section Flags

variable {α : Type} [DecidableEq α] {compare : α → α → ℤ} {keys : List α}

/-- The flags of these nodes are thread bits. -/
def PlainIn (keys : List α) (s : RbState α) : Prop := PlainFlags s.mem keys

theorem plainFlag_unset (d : Side) (f : BitVec 8) (h : PlainFlag f) :
    PlainFlag (f &&& ~~~threadBit d) := by
  revert f
  cases d <;> decide

theorem plainFlag_set (d : Side) (f : BitVec 8) (h : PlainFlag f) :
    PlainFlag (f ||| threadBit d) := by
  revert f
  cases d <;> decide

theorem keeps_load (p : RbPtr α) : Preserves (PlainIn keys) (load p) := by
  refine .of_reads fun s b s' h => ?_
  unfold load at h
  split_ifs at h
  exact (Prod.mk.inj (Option.some.inj h)).2.symm

/-- Writing a node with plain flags. -/
theorem keeps_store {p : RbPtr α} {n : Rbnode α} (hn : PlainFlag n.flags) :
    Preserves (PlainIn keys) (store p n) := by
  intro s b s' hI h a ha
  unfold store at h
  split_ifs at h
  obtain ⟨-, rfl⟩ := Prod.mk.inj (Option.some.inj h)
  by_cases hp : RbPtr.obj a = p
  · simpa [← hp] using hn
  · simpa [Function.update_of_ne hp] using hI a ha

/-- Changing a node so that plain flags stay plain. -/
theorem keeps_modify (p : RbPtr α) {f : Rbnode α → Rbnode α}
    (hf : ∀ n, PlainFlag n.flags → PlainFlag (f n).flags) :
    Preserves (PlainIn keys) (do store p (f (← load p))) := by
  intro s b s' hI h a ha
  obtain ⟨n, s₁, hload, hstore⟩ := bind_eq_some.mp h
  unfold load at hload
  unfold store at hstore
  split_ifs at hload hstore
  obtain ⟨rfl, rfl⟩ := Prod.mk.inj (Option.some.inj hload)
  obtain ⟨-, rfl⟩ := Prod.mk.inj (Option.some.inj hstore)
  by_cases hp : RbPtr.obj a = p
  · subst hp
    simpa using hf _ (hI a ha)
  · simpa [Function.update_of_ne hp] using hI a ha

omit [DecidableEq α] in
theorem keeps_setSize (f : ℕ → ℕ) :
    Preserves (PlainIn keys) (setSize f : Prog (RbState α) Unit) := by
  intro s b s' hI h
  obtain ⟨-, rfl⟩ := Prod.mk.inj (Option.some.inj h)
  exact hI

omit [DecidableEq α] in
theorem keeps_compareAt (l r : RbPtr α) : Preserves (PlainIn keys) (compareAt compare l r) := by
  refine .of_reads fun s b s' h => ?_
  unfold compareAt at h
  split at h
  · exact (Prod.mk.inj (Option.some.inj h)).2.symm
  · exact absurd h (by simp)

theorem keeps_link (p : RbPtr α) (d : Side) : Preserves (PlainIn keys) (link p d) :=
  (keeps_load p).bind fun _ => .pure _

theorem keeps_setLink (p : RbPtr α) (d : Side) (v : RbPtr α) :
    Preserves (PlainIn keys) (setLink p d v) :=
  keeps_modify p fun n h => by rwa [Rbnode.flags_withLink]

theorem keeps_makeRed (p : RbPtr α) : Preserves (PlainIn keys) (rbnodeMakeRed p) :=
  keeps_modify p fun _ h => h

theorem keeps_makeBlack (p : RbPtr α) : Preserves (PlainIn keys) (rbnodeMakeBlack p) :=
  keeps_modify p fun _ h => h

theorem keeps_isRed (p : RbPtr α) : Preserves (PlainIn keys) (rbnodeIsRed p) :=
  (keeps_load p).bind fun _ => .pure _

theorem keeps_isThread (p : RbPtr α) (d : Side) : Preserves (PlainIn keys) (rbnodeIsThread p d) :=
  (keeps_load p).bind fun _ => .pure _

theorem keeps_unsetThread (p : RbPtr α) (d : Side) :
    Preserves (PlainIn keys) (rbnodeUnsetThread p d) :=
  keeps_modify p fun n h => plainFlag_unset d n.flags h

theorem keeps_setThread (p : RbPtr α) (d : Side) : Preserves (PlainIn keys) (rbnodeSetThread p d) :=
  keeps_modify p fun n h => plainFlag_set d n.flags h

theorem keeps_isRedSafe (p : RbPtr α) (d : Side) : Preserves (PlainIn keys) (rbnodeIsRedSafe p d) :=
  (keeps_isThread p d).bind fun _ => .ite _ (.pure _) ((keeps_link p d).bind keeps_isRed)

theorem keeps_hasChild (p : RbPtr α) (d : Side) : Preserves (PlainIn keys) (rbnodeHasChild p d) :=
  (keeps_isThread p d).bind fun _ => .pure _

theorem keeps_rotateSingle (root : RbPtr α) (dir : Side) :
    Preserves (PlainIn keys) (rbtreeRotateSingle root dir) := by
  refine (keeps_link root dir.flip).bind fun n => (keeps_isThread n dir).bind fun b => ?_
  have hend : Preserves (PlainIn keys) (do
      setLink n dir root
      rbnodeMakeRed root
      rbnodeMakeBlack n
      return n) :=
    (keeps_setLink n dir root).bind fun _ => (keeps_makeRed root).bind fun _ =>
      (keeps_makeBlack n).bind fun _ => .pure _
  refine .ite _ ?_ ?_
  · exact (keeps_setThread root dir.flip).bind fun _ => (keeps_unsetThread n dir).bind fun _ => hend
  · exact (keeps_link n dir).bind fun v => (keeps_setLink root dir.flip v).bind fun _ => hend

theorem keeps_rotateDouble (root : RbPtr α) (dir : Side) :
    Preserves (PlainIn keys) (rbtreeRotateDouble root dir) :=
  (keeps_link root dir.flip).bind fun n => (keeps_rotateSingle n dir.flip).bind fun v =>
    (keeps_setLink root dir.flip v).bind fun _ => keeps_rotateSingle root dir

theorem keeps_balanceInsertion (n p gp ggp : RbPtr α) :
    Preserves (PlainIn keys) (rbtreeBalanceInsertion n p gp ggp) := by
  refine Preserves.bind ?_ fun _ => ?_
  · refine (keeps_makeRed n).bind fun _ =>
      ((keeps_hasChild n .left).and (keeps_hasChild n .right)).bind fun _ => .ite _ ?_ (.pure _)
    exact (keeps_link n .left).bind fun l => (keeps_makeBlack l).bind fun _ =>
      (keeps_link n .right).bind fun r => keeps_makeBlack r
  · refine (keeps_isRed p).bind fun _ => .ite _ ?_ (.pure _)
    refine (keeps_makeRed gp).bind fun _ => (keeps_link p .right).bind fun _ =>
      (keeps_link gp .right).bind fun _ => (keeps_link ggp .right).bind fun _ => .ite _ ?_ ?_
    · exact (keeps_rotateDouble _ _).bind fun v => (keeps_setLink _ _ v).bind fun _ =>
        keeps_makeBlack n
    · exact (keeps_rotateSingle _ _).bind fun v => (keeps_setLink _ _ v).bind fun _ =>
        keeps_makeBlack p

theorem keeps_insertBody (x : RbPtr α) (v : RbPtr α × RbPtr α × RbPtr α × RbPtr α) :
    Preserves (PlainIn keys) (rbtreeInsertBody compare x v) := by
  obtain ⟨ggp, gp, p, n⟩ := v
  have hdescend : Preserves (PlainIn keys) (rbtreeInsertDescend compare x gp p n) := by
    refine (keeps_compareAt n x).bind fun _ => .ite _ ?_ ?_
    · exact (keeps_link .sentinel .left).bind fun q => (keeps_makeBlack q).bind fun _ => .pure _
    · exact (keeps_isThread n _).bind fun _ => .ite _ (.pure _)
        ((keeps_link n _).bind fun _ => .pure _)
  refine ((keeps_isRedSafe n .left).and (keeps_isRedSafe n .right)).bind fun _ => .ite _ ?_ hdescend
  exact (keeps_balanceInsertion n p gp ggp).bind fun _ => hdescend

/-- A node that is written with plain flags joins those that have them. -/
theorem plainIn_store {x : α} {n : Rbnode α} {s s' : RbState α} {b : Unit} (hI : PlainIn keys s)
    (hn : PlainFlag n.flags) (h : store (.obj x) n s = some (b, s')) : PlainIn (x :: keys) s' := by
  have hkeys : PlainIn keys s' := keeps_store hn s b s' hI h
  intro a ha
  rcases List.mem_cons.mp ha with rfl | ha
  · unfold store at h
    rw [if_neg (by simp)] at h
    obtain ⟨-, rfl⟩ := Prod.mk.inj (Option.some.inj h)
    simpa using hn
  · exact hkeys a ha

omit [DecidableEq α] in
theorem PlainIn.of_cons {x : α} {s : RbState α} (h : PlainIn (x :: keys) s) : PlainIn keys s :=
  fun a ha => h a (List.mem_cons_of_mem x ha)

/-- After an insertion the flags are plain, those of the node as well if it was stored. -/
theorem plainIn_insert {x : α} {fuel : ℕ} {s s' : RbState α} {b : Bool} (hI : PlainIn keys s)
    (h : rbtreeInsert compare x fuel s = some (b, s')) :
    PlainIn keys s' ∧ (b = true → PlainIn (x :: keys) s') := by
  have hleaf : PlainFlag rbLeaf := by decide
  have hzero : PlainFlag 0 := by decide
  obtain ⟨e, s₁, hempty, h⟩ := bind_eq_some.mp h
  have hI₁ : PlainIn keys s₁ :=
    ((keeps_load .sentinel).bind fun _ => Preserves.pure _) s e s₁ hI hempty
  split_ifs at h
  · -- the first node
    obtain ⟨_, s₂, hstore, h⟩ := bind_eq_some.mp h
    have hrest : Preserves (PlainIn (x :: keys)) (do
        setLink .sentinel .left (.obj x)
        rbnodeUnsetThread .sentinel .left
        setLink .sentinel .right .sentinel
        setSize fun _ => 1
        return true) :=
      (keeps_setLink _ _ _).bind fun _ => (keeps_unsetThread _ _).bind fun _ =>
        (keeps_setLink _ _ _).bind fun _ => (keeps_setSize _).bind fun _ => .pure _
    have hall := hrest s₂ b s' (plainIn_store hI₁ hleaf hstore) h
    exact ⟨hall.of_cons, fun _ => hall⟩
  · obtain ⟨_, s₂, hgp, h⟩ := bind_eq_some.mp h
    obtain ⟨_, s₃, hggp, h⟩ := bind_eq_some.mp h
    obtain ⟨q, s₄, hroot, h⟩ := bind_eq_some.mp h
    obtain ⟨exit, s₅, hloop, h⟩ := bind_eq_some.mp h
    have hI₃ := keeps_store hzero s₂ _ s₃ (keeps_store hzero s₁ _ s₂ hI₁ hgp) hggp
    have hI₄ := keeps_link .sentinel .left s₃ q s₄ hI₃ hroot
    have hI₅ := Preserves.loop (fun v => keeps_insertBody (.obj x) v) fuel _ s₄ exit s₅ hI₄ hloop
    cases exit with
    | present =>
      obtain ⟨rfl, rfl⟩ := Prod.mk.inj (Option.some.inj h)
      exact ⟨hI₅, fun hb => absurd hb (by simp)⟩
    | leaf gp p n dir =>
      obtain ⟨_, s₆, hmake, h⟩ := bind_eq_some.mp h
      obtain ⟨n', s₇, hload, hstore⟩ := bind_eq_some.mp hmake
      have hI₆ := plainIn_store (keeps_load _ s₅ n' s₇ hI₅ hload) hleaf hstore
      have hrest : Preserves (PlainIn (x :: keys)) (do
          setLink (.obj x) dir (← link n dir)
          setLink (.obj x) dir.flip n
          setLink n dir (.obj x)
          rbnodeUnsetThread n dir
          rbtreeBalanceInsertion (.obj x) n p gp
          rbnodeMakeBlack (← rbroot)
          setSize fun size => size + 1
          return true) :=
        (keeps_link _ _).bind fun _ => (keeps_setLink _ _ _).bind fun _ =>
          (keeps_setLink _ _ _).bind fun _ => (keeps_setLink _ _ _).bind fun _ =>
          (keeps_unsetThread _ _).bind fun _ => (keeps_balanceInsertion _ _ _ _).bind fun _ =>
          (keeps_link _ _).bind fun _ => (keeps_makeBlack _).bind fun _ =>
          (keeps_setSize _).bind fun _ => .pure _
      have hall := hrest s₆ b s' hI₆ h
      exact ⟨hall.of_cons, fun _ => hall⟩

end Flags

/-! ### The insertions of the fuzzing driver -/

/-- `fuzznodecmp`. -/
def fuzznodecmp {α : Type} (fuzznodeval : α → UInt8) (l r : α) : ℤ :=
  (fuzznodeval r).toNat - (fuzznodeval l).toNat

theorem fuzznodecmp_strictTotal {α : Type} (fuzznodeval : α → UInt8) :
    StrictTotal (fuzznodecmp fuzznodeval) := by
  constructor <;> intros <;> simp only [fuzznodecmp] at * <;> omega

section Fuzz

variable {α : Type} [DecidableEq α] {compare : α → α → ℤ}

/-- One turn of the first loop of `rbtree_fuzz`; `false` is a violation.  The index is an
`unsigned`, the number of nodes a `size_t`. -/
def rbtreeFuzzBody (compare : α → α → ℤ) (nodes : List α) (fuel i : ℕ) :
    Prog (RbState α) (ℕ ⊕ Bool) :=
  match nodes[i]? with
  | some x => do
    let _ ← rbtreeInsert compare x fuel
    let prop ← rbtreeAdheresToRbproperties compare fuel (← rbroot)
    return if prop < 0 then .inr false else .inl ((i + 1) % 2 ^ 32)
  | none => return .inr true

/-- The first loop of `rbtree_fuzz`. -/
def rbtreeFuzzInsert (compare : α → α → ℤ) (nodes : List α) (fuel : ℕ) : Prog (RbState α) Bool :=
  fuelLoop (rbtreeFuzzBody compare nodes fuel) fuel 0

variable {s : RbState α} {t : ColorTree α}

omit [DecidableEq α] in
/-- Nodes in order are in order beside their parents. -/
theorem Ordered.parentsOrdered (h : Ordered compare t.toList) : ParentsOrdered compare t := by
  induction t with
  | nil => trivial
  | node c l k r ihl ihr =>
    obtain ⟨hl, hkr, hlk⟩ := List.pairwise_append.mp h
    obtain ⟨hk, hr⟩ := List.pairwise_cons.mp hkr
    exact ⟨fun a ha => hlk a (rootKey_mem ha) k (List.mem_cons_self ..),
      fun a ha => hk a (rootKey_mem ha), ihl hl, ihr hr⟩

/-- A tree that is kept by the invariant, with plain flags. -/
def Checkable (compare : α → α → ℤ) (s : RbState α) : Prop :=
  ∃ t, RbInv rightOnly compare s t ∧ PlainIn t.toList s

/-- An insertion leaves a tree that can be checked, and is not empty. -/
theorem Checkable.insert (hc : StrictTotal compare) (h : Checkable compare s) (x : α) :
    Total (rbtreeInsert compare x) (fun _ s' => ∃ t, t ≠ nil ∧ RbInv rightOnly compare s' t ∧
      PlainIn t.toList s') s := by
  obtain ⟨t, hinv, hplain⟩ := h
  have hright : rightOnly .right := rfl
  refine ((hinv.insert (x := x) hc hright).also fun n b s' => plainIn_insert hplain).mono ?_
  rintro b s' ⟨⟨t', hinv', ⟨rfl, -, l, r, hl, hl'⟩ | ⟨rfl, ⟨a, ha, -⟩, hl'⟩⟩, hkeys, hall⟩
  · refine ⟨t', ?_, hinv', fun a ha => hall rfl a ?_⟩
    · rintro rfl
      simp [toList] at hl'
    · rw [hl'] at ha
      rw [hl]
      simp only [List.mem_append, List.mem_cons] at ha ⊢
      tauto
  · refine ⟨t', ?_, hinv', hl' ▸ hkeys⟩
    rintro rfl
    rw [← hl'] at ha
    simp [toList] at ha

/-- The checker has no complaint about it. -/
theorem checker_accepts (ht : t ≠ nil) (hinv : RbInv rightOnly compare s t)
    (hplain : PlainIn t.toList s) :
    Total (fun fuel => do rbtreeAdheresToRbproperties compare fuel (← rbroot))
      (fun v s' => 0 ≤ v ∧ s' = s) s := by
  obtain ⟨n, hrb⟩ := hinv.redBlack
  have had : Adheres compare t n := ⟨⟨.black, hrb⟩, hinv.ordered.parentsOrdered⟩
  refine (total_adheres ht hinv.links.layout hplain).mono ?_
  rintro v s' ⟨hs, hv⟩
  exact ⟨hv.nonneg_iff.mpr ⟨n, had⟩, hs⟩

variable {nodes : List α} {x : α} {i : ℕ}

theorem rbtreeFuzzBody_eq (hx : nodes[i]? = some x) :
    (fun fuel => rbtreeFuzzBody compare nodes fuel i) = fun fuel =>
      rbtreeInsert compare x fuel >>= fun _ =>
        (do rbtreeAdheresToRbproperties compare fuel (← rbroot)) >>= fun prop =>
          return if prop < 0 then .inr false else .inl ((i + 1) % 2 ^ 32) := by
  funext fuel
  simp only [rbtreeFuzzBody, hx, bind_assoc]

theorem fuelMono_fuzzBody (nodes : List α) (i : ℕ) :
    FuelMono fun fuel => rbtreeFuzzBody compare nodes fuel i := by
  rcases hx : nodes[i]? with _ | x
  · simp only [rbtreeFuzzBody, hx]
    exact .const _
  · rw [rbtreeFuzzBody_eq hx]
    exact (fuelMono_insert x).bind fun _ =>
      ((FuelMono.const _).bind fun r => fuelMono_adheres r).bind fun _ => .const _

/-- A turn inserts its node, and the checker has no complaint. -/
theorem Checkable.fuzzBody (hc : StrictTotal compare) (h : Checkable compare s)
    (hx : nodes[i]? = some x) : Total (fun fuel => rbtreeFuzzBody compare nodes fuel i)
      (fun r s' => r = .inl ((i + 1) % 2 ^ 32) ∧ Checkable compare s' ∧
        ∀ done, TreeOf compare done s → TreeOf compare (done ++ [x]) s') s := by
  rw [rbtreeFuzzBody_eq hx]
  refine Total.bind ((h.insert hc x).with_returns.mono ?_)
  rintro b s' ⟨hret, t, ht, hinv, hplain⟩
  refine Total.bind ((checker_accepts ht hinv hplain).mono ?_)
  rintro v _ ⟨hv, rfl⟩
  refine Total.const ((wp_pure ..).mpr ⟨if_neg (not_lt.mpr hv), ⟨t, hinv, hplain⟩, ?_⟩)
  exact fun done htree => (htree.insert hc x).of_returns hret

/-- An `unsigned` counts the nodes: all of them are inserted. -/
theorem Checkable.fuzzInsert (hc : StrictTotal compare) (h : Checkable compare s)
    (htree : TreeOf compare [] s) (hfew : nodes.length < 2 ^ 32) :
    Total (rbtreeFuzzInsert compare nodes)
      (fun ok s' => ok = true ∧ TreeOf compare nodes s') s := by
  let J : ℕ → ℕ → RbState α → Prop := fun b i s' => i + b = nodes.length ∧
    Checkable compare s' ∧ TreeOf compare (nodes.take i) s'
  refine total_loop (I := J) ?_ nodes.length 0 s ⟨Nat.zero_add _, h, htree⟩
  rintro b i s' ⟨hb, hcheck, htree'⟩
  rcases b with _ | b
  · -- all nodes are in the tree
    have hnone : nodes[i]? = none := List.getElem?_eq_none (by omega)
    simp only [rbtreeFuzzBody, hnone]
    rw [List.take_of_length_le (by omega)] at htree'
    exact Total.const ((wp_pure ..).mpr ⟨rfl, htree'⟩)
  · have hlt : i < nodes.length := by omega
    refine (hcheck.fuzzBody hc (List.getElem?_eq_getElem hlt)).mono ?_
    rintro r s'' ⟨rfl, hcheck', hinsert⟩
    have hnext := hinsert _ htree'
    rw [← List.take_succ_eq_append_getElem hlt] at hnext
    refine ⟨b, Nat.lt_succ_self b, ?_⟩
    rw [Nat.mod_eq_of_lt (by omega)]
    exact ⟨by omega, hcheck', hnext⟩

/-- With more nodes the index wraps around, and the loop inserts them again and again. -/
theorem Checkable.fuzzInsert_wraps (hc : StrictTotal compare) (h : Checkable compare s)
    (hmany : 2 ^ 32 ≤ nodes.length) (n : ℕ) : rbtreeFuzzInsert compare nodes n s = none := by
  by_contra hsome
  obtain ⟨⟨ok, s'⟩, hrun⟩ := Option.ne_none_iff_exists'.mp hsome
  refine fuelLoop_partial (I := fun i s => i < 2 ^ 32 ∧ Checkable compare s)
    (Q := fun _ _ => False) ?_ n 0 s ok s' ⟨by decide, h⟩ hrun
  rintro i s₁ r s₂ ⟨hi, hcheck⟩ hbody
  have hlt : i < nodes.length := by omega
  obtain ⟨rfl, hcheck', -⟩ := (hcheck.fuzzBody hc (List.getElem?_eq_getElem hlt)).of_returns
    ((fuelMono_fuzzBody nodes i).returns hbody)
  exact ⟨Nat.mod_lt _ (by decide), hcheck'⟩

/-- Whatever bytes the fuzzing driver inserts, its checker reports no violation, and the tree
stores the first node of every byte; the insertions end if and only if an `unsigned` counts
the bytes. -/
theorem rbtree_fuzz_insertions_adhere (fuzznodeval : α → UInt8) (mem : RbMem α)
    (nodes : List α) : Total (rbtreeFuzzInsert (fuzznodecmp fuzznodeval) nodes)
      (fun ok s' => ok = true ∧ TreeOf (fuzznodecmp fuzznodeval) nodes s') (rbtreeInit mem) ↔
      nodes.length < 2 ^ 32 := by
  have hc := fuzznodecmp_strictTotal fuzznodeval
  have hinit : Checkable (fuzznodecmp fuzznodeval) (rbtreeInit mem) :=
    ⟨nil, rbInv_init mem, fun _ ha => absurd ha (by simp [toList])⟩
  constructor
  · rintro ⟨ok, s', ⟨k, hrun⟩, -⟩
    by_contra hmany
    have hnone := hinit.fuzzInsert_wraps hc (not_lt.mp hmany) k
    exact absurd (hnone.symm.trans (hrun k (Nat.le_refl k))) (by simp)
  · exact hinit.fuzzInsert hc (treeOf_init mem)

end Fuzz

end Cldm
