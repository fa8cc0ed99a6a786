/-
Coloured binary trees and their contexts.

A `ColorTree α` is a binary tree whose nodes carry a colour and a key.  The
two children are treated alike: `branch d c x k y` is the node with child `x`
on side `d` and child `y` on the other side, so that a statement about a
rotation is made once for both directions.

* `RedBlack t c n` — `t` has root colour `c`, no red node with a red child and
  `n` black nodes on every path (`redBlack_branch_red`, `redBlack_branch_black`);
* `Context` — the path from a subtree up to the root; `plug` puts a subtree
  back, `before` and `after` are the keys around the hole in key order
  (`toList_plug`);
* `Context.RedBlack` — the hole accepts a subtree of the given root colour and
  black height (`redBlack_plug`).
-/
import Mathlib.Data.List.Basic
import Mathlib.Data.List.Nodup
import Mathlib.Tactic.Common

/-- The two sides of a binary node. -/
inductive Side where
  | left
  | right
  deriving DecidableEq, Repr

namespace Side

/-- The other side. -/
def flip : Side → Side
  | left => right
  | right => left

@[simp] theorem flip_left : left.flip = right := rfl

@[simp] theorem flip_right : right.flip = left := rfl

@[simp] theorem flip_flip (d : Side) : d.flip.flip = d := by cases d <;> rfl

@[simp] theorem flip_ne (d : Side) : d.flip ≠ d := by cases d <;> decide

@[simp] theorem ne_flip (d : Side) : d ≠ d.flip := by cases d <;> decide

theorem eq_or_eq_flip (d e : Side) : e = d ∨ e = d.flip := by
  cases d <;> cases e <;> simp

end Side

/-- The colours of a red-black tree. -/
inductive Color where
  | black
  | red
  deriving DecidableEq, Repr

/-- Binary trees with a colour and a key at each node. -/
inductive ColorTree (α : Type) where
  | nil
  | node (color : Color) (l : ColorTree α) (key : α) (r : ColorTree α)
  deriving DecidableEq, Repr

namespace ColorTree

variable {α : Type}

/-- The keys from left to right. -/
def toList : ColorTree α → List α
  | nil => []
  | node _ l k r => l.toList ++ k :: r.toList

/-- Whether the root is a red node. -/
def isRed : ColorTree α → Bool
  | node .red _ _ _ => true
  | _ => false

/-- The key at the root. -/
def rootKey : ColorTree α → Option α
  | nil => none
  | node _ _ k _ => some k

/-- The tree with its root coloured `c`. -/
def paint (c : Color) : ColorTree α → ColorTree α
  | nil => nil
  | node _ l k r => node c l k r

/-- The node with child `x` on side `d` and child `y` on the other side. -/
def branch (d : Side) (c : Color) (x : ColorTree α) (k : α) (y : ColorTree α) : ColorTree α :=
  match d with
  | .left => node c x k y
  | .right => node c y k x

theorem branch_flip (d : Side) (c : Color) (x : ColorTree α) (k : α) (y : ColorTree α) :
    branch d.flip c x k y = branch d c y k x := by
  cases d <;> rfl

@[simp] theorem branch_ne_nil (d : Side) (c : Color) (x : ColorTree α) (k : α)
    (y : ColorTree α) : branch d c x k y ≠ nil := by
  cases d <;> simp [branch]

@[simp] theorem rootKey_branch (d : Side) (c : Color) (x : ColorTree α) (k : α)
    (y : ColorTree α) : (branch d c x k y).rootKey = some k := by
  cases d <;> rfl

@[simp] theorem paint_branch (d : Side) (c c' : Color) (x : ColorTree α) (k : α)
    (y : ColorTree α) : (branch d c x k y).paint c' = branch d c' x k y := by
  cases d <;> rfl

@[simp] theorem isRed_branch (d : Side) (c : Color) (x : ColorTree α) (k : α)
    (y : ColorTree α) : (branch d c x k y).isRed = decide (c = .red) := by
  cases d <;> cases c <;> rfl

@[simp] theorem toList_paint (c : Color) (t : ColorTree α) : (t.paint c).toList = t.toList := by
  cases t <;> rfl

@[simp] theorem paint_eq_nil (c : Color) (t : ColorTree α) : t.paint c = nil ↔ t = nil := by
  cases t <;> simp [paint]

/-- A nonempty tree is a branch whichever side is named first. -/
theorem exists_branch (d : Side) {t : ColorTree α} (h : t ≠ nil) :
    ∃ c x k y, t = branch d c x k y := by
  cases t with
  | nil => exact absurd rfl h
  | node c l k r =>
    cases d with
    | left => exact ⟨c, l, k, r, rfl⟩
    | right => exact ⟨c, r, k, l, rfl⟩

theorem node_eq_branch (d : Side) (c : Color) (l : ColorTree α) (k : α) (r : ColorTree α) :
    ∃ x y, node c l k r = branch d c x k y := by
  cases d with
  | left => exact ⟨l, r, rfl⟩
  | right => exact ⟨r, l, rfl⟩

theorem branch_inj {d : Side} {c c' : Color} {x x' y y' : ColorTree α} {k k' : α} :
    branch d c x k y = branch d c' x' k' y' ↔ c = c' ∧ x = x' ∧ k = k' ∧ y = y' := by
  cases d
  · exact node.injEq .. ▸ Iff.rfl
  · simp only [branch, node.injEq]
    tauto

theorem node_inj_branch {d : Side} {c c' : Color} {l r u y : ColorTree α} {q q' : α}
    (h : node c l q r = branch d c' u q' y) :
    c = c' ∧ q = q' ∧ (u = l ∧ y = r ∨ u = r ∧ y = l) := by
  cases d with
  | left =>
    obtain ⟨rfl, rfl, rfl, rfl⟩ := node.inj h
    exact ⟨rfl, rfl, .inl ⟨rfl, rfl⟩⟩
  | right =>
    obtain ⟨rfl, rfl, rfl, rfl⟩ := node.inj h
    exact ⟨rfl, rfl, .inr ⟨rfl, rfl⟩⟩

theorem mem_toList_branch {d : Side} {c : Color} {x y : ColorTree α} {k a : α} :
    a ∈ (branch d c x k y).toList ↔ a = k ∨ a ∈ x.toList ∨ a ∈ y.toList := by
  cases d <;> simp only [branch, toList, List.mem_append, List.mem_cons] <;> tauto

theorem nodup_branch {d : Side} {c : Color} {x y : ColorTree α} {k : α}
    (h : (branch d c x k y).toList.Nodup) :
    x.toList.Nodup ∧ y.toList.Nodup ∧ k ∉ x.toList ∧ k ∉ y.toList ∧
      ∀ a ∈ x.toList, a ∉ y.toList := by
  cases d <;> simp only [branch, toList, List.nodup_append, List.nodup_cons, List.mem_cons] at h
  · exact ⟨h.1, h.2.1.2, fun hk => h.2.2 k hk k (.inl rfl) rfl, h.2.1.1,
      fun a hx hy => h.2.2 a hx a (.inr hy) rfl⟩
  · exact ⟨h.2.1.2, h.1, h.2.1.1, fun hk => h.2.2 k hk k (.inl rfl) rfl,
      fun a hx hy => h.2.2 a hy a (.inr hx) rfl⟩

/-! ### The red-black conditions -/

/-- Root colour `c` (black when empty), no red node with a red child, and `n`
black nodes on every path from the root. -/
def RedBlack : ColorTree α → Color → ℕ → Prop
  | nil, c, n => c = .black ∧ n = 0
  | node .red l _ r, c, n => c = .red ∧ l.RedBlack .black n ∧ r.RedBlack .black n
  | node .black l _ r, c, n =>
      c = .black ∧ ∃ m, n = m + 1 ∧ (∃ c, l.RedBlack c m) ∧ ∃ c, r.RedBlack c m

@[simp] theorem redBlack_nil {c : Color} {n : ℕ} :
    (nil : ColorTree α).RedBlack c n ↔ c = .black ∧ n = 0 := Iff.rfl

theorem redBlack_branch_red {d : Side} {x y : ColorTree α} {k : α} {c : Color} {n : ℕ} :
    (branch d .red x k y).RedBlack c n ↔
      c = .red ∧ x.RedBlack .black n ∧ y.RedBlack .black n := by
  cases d
  · exact Iff.rfl
  · exact and_congr_right fun _ => and_comm

theorem redBlack_branch_black {d : Side} {x y : ColorTree α} {k : α} {c : Color} {n : ℕ} :
    (branch d .black x k y).RedBlack c n ↔
      c = .black ∧ ∃ m, n = m + 1 ∧ (∃ c, x.RedBlack c m) ∧ ∃ c, y.RedBlack c m := by
  cases d
  · exact Iff.rfl
  · exact and_congr_right fun _ => exists_congr fun _ => and_congr_right fun _ => and_comm

theorem RedBlack.isRed_iff {t : ColorTree α} {c : Color} {n : ℕ} (h : t.RedBlack c n) :
    t.isRed = true ↔ c = .red := by
  rcases t with _ | ⟨_ | _, l, k, r⟩ <;> simp [h.1, isRed]

theorem RedBlack.isRed_black {t : ColorTree α} {n : ℕ} (h : t.RedBlack .black n) :
    t.isRed = false := by
  cases ht : t.isRed with
  | false => rfl
  | true => exact absurd (h.isRed_iff.mp ht) (by simp)

theorem RedBlack.eq_black {t : ColorTree α} {c : Color} {n : ℕ} (h : t.RedBlack c n)
    (ht : t.isRed = false) : c = .black := by
  cases c with
  | black => rfl
  | red => exact absurd (h.isRed_iff.mpr rfl) (by simp [ht])

/-- A black subtree of black height zero is empty. -/
theorem RedBlack.eq_nil {t : ColorTree α} (h : t.RedBlack .black 0) : t = nil := by
  rcases t with _ | ⟨_ | _, l, k, r⟩
  · rfl
  · obtain ⟨-, m, hm, -⟩ := h
    exact absurd hm (by omega)
  · exact absurd h.1 (by simp)

/-- Beside an empty child there is none or a red leaf. -/
theorem redBlack_branch_leaf {d : Side} {c c' : Color} {x : ColorTree α} {k : α} {n : ℕ}
    (h : (branch d c x k nil).RedBlack c' n) (hx : x ≠ nil) :
    c = .black ∧ ∃ a, x = node .red nil a nil := by
  cases c with
  | red =>
    obtain ⟨-, hx', hnil⟩ := redBlack_branch_red.mp h
    obtain rfl : n = 0 := hnil.2
    exact absurd hx'.eq_nil hx
  | black =>
    obtain ⟨-, j, -, ⟨cx, hx'⟩, cy, hnil⟩ := redBlack_branch_black.mp h
    obtain rfl : j = 0 := hnil.2
    rcases x with _ | ⟨_ | _, l, a, r⟩
    · exact absurd rfl hx
    · obtain ⟨-, m, hm, -⟩ := hx'
      exact absurd hm (by omega)
    · obtain ⟨-, hl, hr⟩ := hx'
      exact ⟨rfl, a, by rw [hl.eq_nil, hr.eq_nil]⟩

/-- The colours do not depend on the key. -/
theorem redBlack_rekey {c c' : Color} {l r : ColorTree α} {k k' : α} {n : ℕ} :
    (node c l k r).RedBlack c' n ↔ (node c l k' r).RedBlack c' n := by
  cases c <;> exact Iff.rfl

/-- Painting the root of a red tree black adds one to its black height. -/
theorem RedBlack.paint_black {t : ColorTree α} {n : ℕ} (h : t.RedBlack .red n) :
    (t.paint .black).RedBlack .black (n + 1) := by
  rcases t with _ | ⟨_ | _, l, k, r⟩
  · exact absurd h.1 (by simp)
  · exact absurd h.1 (by simp)
  · exact ⟨rfl, n, rfl, ⟨_, h.2.1⟩, _, h.2.2⟩

/-- A root painted black leaves a red-black tree. -/
theorem RedBlack.exists_paint_black {t : ColorTree α} {c : Color} {n : ℕ}
    (h : t.RedBlack c n) : ∃ m, (t.paint .black).RedBlack .black m := by
  rcases t with _ | ⟨_ | _, l, k, r⟩
  · exact ⟨0, rfl, rfl⟩
  · exact ⟨n, rfl, h.2⟩
  · exact ⟨n + 1, rfl, n, rfl, ⟨_, h.2.1⟩, _, h.2.2⟩

end ColorTree

open ColorTree

/-! ### Contexts -/

/-- One step of the path from a subtree to the root: the subtree hangs on side
`side` of the node `key`, whose other child is `sib`. -/
structure Frame (α : Type) where
  side : Side
  color : Color
  key : α
  sib : ColorTree α

/-- The node of a frame with `t` in its hole. -/
def Frame.fill {α : Type} (f : Frame α) (t : ColorTree α) : ColorTree α :=
  branch f.side f.color t f.key f.sib

/-- The path from a subtree up to the root, innermost node first. -/
abbrev Context (α : Type) := List (Frame α)

namespace Context

variable {α : Type}

/-- The whole tree: `t` put back into its context. -/
def plug : Context α → ColorTree α → ColorTree α
  | [], t => t
  | f :: ctx, t => plug ctx (f.fill t)

attribute [grind =] plug

theorem plug_append (low up : Context α) (t : ColorTree α) :
    plug (low ++ up) t = plug up (plug low t) := by
  induction low generalizing t with
  | nil => rfl
  | cons f low ih => exact ih (f.fill t)

/-- The keys in front of the hole. -/
def before : Context α → List α
  | [] => []
  | f :: ctx =>
      match f.side with
      | .left => before ctx
      | .right => before ctx ++ (f.sib.toList ++ [f.key])

/-- The keys behind the hole. -/
def after : Context α → List α
  | [] => []
  | f :: ctx =>
      match f.side with
      | .left => f.key :: (f.sib.toList ++ after ctx)
      | .right => after ctx

attribute [grind =] before after

theorem toList_plug (ctx : Context α) (t : ColorTree α) :
    (plug ctx t).toList = before ctx ++ t.toList ++ after ctx := by
  induction ctx generalizing t with
  | nil => simp [plug, before, after]
  | cons f ctx ih =>
    obtain ⟨d, c, k, sib⟩ := f
    cases d <;> simp [plug, before, after, ih, Frame.fill, branch, toList]

/-- The hole accepts a subtree with root colour `c` and black height `n`. -/
def RedBlack : Context α → Color → ℕ → Prop
  | [], _, _ => True
  | f :: ctx, c, n =>
      match f.color with
      | .red => c = .black ∧ f.sib.RedBlack .black n ∧ RedBlack ctx .red n
      | .black => (∃ c', f.sib.RedBlack c' n) ∧ RedBlack ctx .black (n + 1)

attribute [grind =] RedBlack

@[simp] theorem redBlack_nil {c : Color} {n : ℕ} : RedBlack ([] : Context α) c n := trivial

/-- A hole that accepts a red root accepts a black one. -/
theorem RedBlack.to_black {ctx : Context α} {c : Color} {n : ℕ} (h : RedBlack ctx c n) :
    RedBlack ctx .black n := by
  rcases ctx with _ | ⟨⟨d, _ | _, k, sib⟩, ctx⟩
  · trivial
  · exact h
  · exact ⟨rfl, h.2⟩

/-- Going down to a child. -/
theorem redBlack_down {d : Side} {fc : Color} {x y : ColorTree α} {k : α} {ctx : Context α}
    {c : Color} {n : ℕ} (ht : (branch d fc x k y).RedBlack c n) (hc : RedBlack ctx c n) :
    ∃ c' n', x.RedBlack c' n' ∧ RedBlack (⟨d, fc, k, y⟩ :: ctx) c' n' := by
  cases fc with
  | red =>
    obtain ⟨rfl, hx, hy⟩ := redBlack_branch_red.mp ht
    exact ⟨.black, n, hx, rfl, hy, hc⟩
  | black =>
    obtain ⟨rfl, m, rfl, ⟨c', hx⟩, hy⟩ := redBlack_branch_black.mp ht
    exact ⟨c', m, hx, hy, hc⟩

/-- The node above the hole, with a subtree of the right colours in it. -/
theorem redBlack_fill {f : Frame α} {ctx : Context α} {t : ColorTree α} {c : Color} {n : ℕ}
    (ht : t.RedBlack c n) (hc : RedBlack (f :: ctx) c n) :
    ∃ c' n', n ≤ n' ∧ (f.fill t).RedBlack c' n' ∧ RedBlack ctx c' n' := by
  obtain ⟨d, fc, k, sib⟩ := f
  cases fc with
  | black =>
    exact ⟨.black, n + 1, by omega,
      redBlack_branch_black.mpr ⟨rfl, n, rfl, ⟨c, ht⟩, hc.1⟩, hc.2⟩
  | red =>
    exact ⟨.red, n, Nat.le_refl n, redBlack_branch_red.mpr ⟨rfl, hc.1 ▸ ht, hc.2.1⟩, hc.2.2⟩

/-- A node with a child has a black node at or below it. -/
theorem redBlack_fill_pos {f : Frame α} {ctx : Context α} {t : ColorTree α} {c : Color} {n : ℕ}
    (ht : t.RedBlack c n) (hc : RedBlack (f :: ctx) c n) (hne : t ≠ nil) :
    ∃ c' n', (f.fill t).RedBlack c' (n' + 1) ∧ RedBlack ctx c' (n' + 1) := by
  obtain ⟨c', n', hle, hfill, hctx⟩ := redBlack_fill ht hc
  suffices hpos : 0 < n' by
    obtain ⟨j, rfl⟩ : ∃ j, n' = j + 1 := ⟨n' - 1, by omega⟩
    exact ⟨c', j, hfill, hctx⟩
  rcases Nat.eq_zero_or_pos n with rfl | hn
  · -- the child is a red leaf
    obtain ⟨d, fc, k, sib⟩ := f
    cases c with
    | black => exact absurd ht.eq_nil hne
    | red =>
      cases fc with
      | red => exact absurd hc.1 (by simp)
      | black =>
        obtain ⟨-, j, rfl, -⟩ := redBlack_branch_black.mp hfill
        exact Nat.succ_pos j
  · exact Nat.lt_of_lt_of_le hn hle

/-- The lower part of a path, with a subtree of the right colours at its end. -/
theorem redBlack_plug_append {low up : Context α} {t : ColorTree α} {c : Color} {n : ℕ}
    (ht : t.RedBlack c n) (hc : RedBlack (low ++ up) c n) :
    ∃ c' n', n ≤ n' ∧ (plug low t).RedBlack c' n' ∧ RedBlack up c' n' := by
  induction low generalizing t c n with
  | nil => exact ⟨c, n, Nat.le_refl n, ht, hc⟩
  | cons f low ih =>
    obtain ⟨c₁, n₁, hn₁, ht₁, hc₁⟩ := redBlack_fill ht hc
    obtain ⟨c₂, n₂, hn₂, h⟩ := ih ht₁ hc₁
    exact ⟨c₂, n₂, Nat.le_trans hn₁ hn₂, h⟩

theorem redBlack_plug {ctx : Context α} {t : ColorTree α} {c : Color} {n : ℕ}
    (ht : t.RedBlack c n) (hc : RedBlack ctx c n) : ∃ c' n', (plug ctx t).RedBlack c' n' := by
  have hc' : RedBlack (ctx ++ []) c n := by rwa [List.append_nil]
  obtain ⟨c', n', -, h, -⟩ := redBlack_plug_append ht hc'
  exact ⟨c', n', h⟩

/-- A subtree of a red-black tree is one. -/
theorem RedBlack.of_plug {ctx : Context α} {t : ColorTree α} {c : Color} {n : ℕ}
    (h : (plug ctx t).RedBlack c n) : ∃ c' n', t.RedBlack c' n' := by
  induction ctx generalizing t with
  | nil => exact ⟨c, n, h⟩
  | cons f ctx ih =>
    obtain ⟨c', n', hfill⟩ := ih h
    have hnil : RedBlack ([] : Context α) c' n' := redBlack_nil
    obtain ⟨c'', n'', ht, -⟩ := redBlack_down hfill hnil
    exact ⟨c'', n'', ht⟩

/-- Beside a subtree with a black node in it there is another one. -/
theorem RedBlack.sib_ne_nil {f : Frame α} {ctx : Context α} {c : Color} {n : ℕ}
    (h : RedBlack (f :: ctx) c (n + 1)) : f.sib ≠ nil := by
  obtain ⟨d, fc, k, sib⟩ := f
  rintro rfl
  cases fc with
  | black =>
    obtain ⟨⟨c', hsib⟩, -⟩ := h
    exact absurd hsib.2 (by omega)
  | red =>
    obtain ⟨-, hsib, -⟩ := h
    exact absurd hsib.2 (by omega)

end Context
