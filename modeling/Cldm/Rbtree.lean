/-
The threaded red-black tree of `cldm_rbtree.c`, as the code runs it.

Nodes live in a memory `RbMem α`: the sentinel inside the tree, the
two stack nodes the descents start from, and one node object for every `a : α`.
Every function of the source is a program over that memory which fails on a
null dereference; the loops carry fuel (`Prog.fuelLoop`).

`Linked` is the set of nodes reachable through child links, and `RbRun` the
states a sequence of calls on a fresh tree can lead to, with the set of nodes
that are stored.  The comparison is a parameter: `StrictTotal` says that it
orders the nodes by some key.
-/
import Cldm.FuelLoop
import Cldm.ColorTree
import Mathlib.Data.Set.Insert
import Mathlib.Logic.Function.Basic

namespace Cldm

open Prog

/-- The addresses a tree operation works with. -/
inductive RbPtr (α : Type) where
  | null
  | sentinel
  | gpLocal
  | ggpLocal
  | obj (a : α)
  deriving DecidableEq, Repr

/-- `struct cldm_rbnode`. -/
structure Rbnode (α : Type) where
  left : RbPtr α
  right : RbPtr α
  color : Color
  /-- Bit 0 set: the left link is a thread; bit 1 set: the right link is. -/
  flags : BitVec 8

/-- The memory of the nodes. -/
abbrev RbMem (α : Type) := RbPtr α → Rbnode α

/-- A `struct cldm_rbtree` (its sentinel is at `RbPtr.sentinel`) together with
the memory that holds the node objects. -/
structure RbState (α : Type) where
  mem : RbMem α
  size : ℕ

/-- `CLDM_RBLEAF`: both links are threads. -/
def rbLeaf : BitVec 8 := 0x03

/-- `1 << dir`. -/
def threadBit : Side → BitVec 8
  | .left => 0x01
  | .right => 0x02

/-- `(enum cldm_rbdir) cond`. -/
def rbdir (c : Bool) : Side := if c then .right else .left

namespace Rbnode

variable {α : Type}

/-- The `link` macro, read. -/
def link (n : Rbnode α) : Side → RbPtr α
  | .left => n.left
  | .right => n.right

/-- The `link` macro, assigned to. -/
def withLink (n : Rbnode α) (d : Side) (v : RbPtr α) : Rbnode α :=
  match d with
  | .left => { n with left := v }
  | .right => { n with right := v }

def withColor (n : Rbnode α) (c : Color) : Rbnode α := { n with color := c }

def withFlags (n : Rbnode α) (f : BitVec 8) : Rbnode α := { n with flags := f }

/-- `cldm_rbnode_is_thread` on a node. -/
def isThread (n : Rbnode α) (d : Side) : Bool := n.flags &&& threadBit d ≠ 0

end Rbnode

section Programs

variable {α : Type} [DecidableEq α]

/-! ### Memory accesses -/

/-- Dereference a pointer. -/
def load (p : RbPtr α) : Prog (RbState α) (Rbnode α) := fun s =>
  if p = .null then none else some (s.mem p, s)

/-- Assign to the node behind a pointer. -/
def store (p : RbPtr α) (n : Rbnode α) : Prog (RbState α) Unit := fun s =>
  if p = .null then none else some ((), { s with mem := Function.update s.mem p n })

def setSize (f : ℕ → ℕ) : Prog (RbState α) Unit := fun s =>
  some ((), { s with size := f s.size })

def link (p : RbPtr α) (d : Side) : Prog (RbState α) (RbPtr α) := do
  return (← load p).link d

def setLink (p : RbPtr α) (d : Side) (v : RbPtr α) : Prog (RbState α) Unit := do
  store p ((← load p).withLink d v)

/-- `cldm_rbroot`. -/
def rbroot : Prog (RbState α) (RbPtr α) := link .sentinel .left

def rbnodeMakeRed (p : RbPtr α) : Prog (RbState α) Unit := do
  store p ((← load p).withColor .red)

def rbnodeMakeBlack (p : RbPtr α) : Prog (RbState α) Unit := do
  store p ((← load p).withColor .black)

def rbnodeIsRed (p : RbPtr α) : Prog (RbState α) Bool := do
  return (← load p).color = .red

def rbnodeMakeLeaf (p : RbPtr α) : Prog (RbState α) Unit := do
  store p ((← load p).withFlags rbLeaf)

def rbnodeIsThread (p : RbPtr α) (d : Side) : Prog (RbState α) Bool := do
  return (← load p).isThread d

def rbnodeUnsetThread (p : RbPtr α) (d : Side) : Prog (RbState α) Unit := do
  let n ← load p
  store p (n.withFlags (n.flags &&& ~~~threadBit d))

def rbnodeSetThread (p : RbPtr α) (d : Side) : Prog (RbState α) Unit := do
  let n ← load p
  store p (n.withFlags (n.flags ||| threadBit d))

def rbnodeAssignThreadFrom (dst src : RbPtr α) (d : Side) : Prog (RbState α) Unit := do
  let n ← load dst
  let m ← load src
  store dst (n.withFlags ((n.flags &&& ~~~threadBit d) ||| (m.flags &&& threadBit d)))

def rbnodeIsRedSafe (p : RbPtr α) (d : Side) : Prog (RbState α) Bool := do
  if ← rbnodeIsThread p d then
    return false
  else
    rbnodeIsRed (← link p d)

def rbnodeHasChild (p : RbPtr α) (d : Side) : Prog (RbState α) Bool := do
  return !(← rbnodeIsThread p d)

/-- A call of the comparison; both arguments must be node objects. -/
def compareAt (compare : α → α → ℤ) (l r : RbPtr α) : Prog (RbState α) ℤ := fun s =>
  match l, r with
  | .obj a, .obj b => some (compare a b, s)
  | _, _ => none

/-! ### Rotations and rebalancing -/

def rbtreeRotateSingle (root : RbPtr α) (dir : Side) : Prog (RbState α) (RbPtr α) := do
  let n ← link root dir.flip
  if ← rbnodeIsThread n dir then
    -- the links already refer to the right nodes, only the flags change
    rbnodeSetThread root dir.flip
    rbnodeUnsetThread n dir
  else
    setLink root dir.flip (← link n dir)
  setLink n dir root
  rbnodeMakeRed root
  rbnodeMakeBlack n
  return n

def rbtreeRotateDouble (root : RbPtr α) (dir : Side) : Prog (RbState α) (RbPtr α) := do
  setLink root dir.flip (← rbtreeRotateSingle (← link root dir.flip) dir.flip)
  rbtreeRotateSingle root dir

/-- The recolouring at the start of `cldm_rbtree_balance_insertion`. -/
def balanceInsertionRecolor (n : RbPtr α) : Prog (RbState α) Unit := do
  rbnodeMakeRed n
  if ← rbnodeHasChild n .left <&&> rbnodeHasChild n .right then
    rbnodeMakeBlack (← link n .left)
    rbnodeMakeBlack (← link n .right)

/-- The rotation at its end, under a red parent. -/
def balanceInsertionRotate (n p gp ggp : RbPtr α) : Prog (RbState α) Unit := do
  if ← rbnodeIsRed p then
    rbnodeMakeRed gp
    let pdir := rbdir ((← link p .right) = n)
    let gpdir := rbdir ((← link gp .right) = p)
    let ggpdir := rbdir ((← link ggp .right) = gp)
    if pdir ≠ gpdir then
      setLink ggp ggpdir (← rbtreeRotateDouble gp gpdir.flip)
      rbnodeMakeBlack n
    else
      setLink ggp ggpdir (← rbtreeRotateSingle gp gpdir.flip)
      rbnodeMakeBlack p

def rbtreeBalanceInsertion (n p gp ggp : RbPtr α) : Prog (RbState α) Unit := do
  balanceInsertionRecolor n
  balanceInsertionRotate n p gp ggp

/-- Returns the new value of the caller's `p`. -/
def rbtreeBalanceRemoval (n p gp : RbPtr α) (dir : Side) : Prog (RbState α) (RbPtr α) := do
  let pdir := rbdir ((← link p .right) = n)
  let gpdir := rbdir ((← link gp .right) = p)
  if ← rbnodeIsRedSafe n dir.flip then
    setLink p pdir (← rbtreeRotateSingle n dir)
    link p pdir
  else if !(← rbnodeIsThread p pdir.flip) then
    let sibling ← link p pdir.flip
    if ← rbnodeIsRedSafe sibling .left <||> rbnodeIsRedSafe sibling .right then
      if ← rbnodeIsRedSafe sibling pdir then
        setLink gp gpdir (← rbtreeRotateDouble p pdir)
      else if ← rbnodeIsRedSafe sibling pdir.flip then
        setLink gp gpdir (← rbtreeRotateSingle p pdir)
      rbnodeMakeRed n
      rbnodeMakeRed (← link gp gpdir)
      rbnodeMakeBlack (← link (← link gp gpdir) .left)
      rbnodeMakeBlack (← link (← link gp gpdir) .right)
      return p
    else
      rbnodeMakeRed n
      rbnodeMakeRed sibling
      rbnodeMakeBlack p
      return p
  else
    return p

/-! ### The operations -/

variable (compare : α → α → ℤ)

/-- One iteration of the loop of `cldm_rbtree_find_parent_of`, on `(p, n, dir)`. -/
def rbtreeFindParentBody (node : RbPtr α) :
    RbPtr α × RbPtr α × Side → Prog (RbState α) ((RbPtr α × RbPtr α × Side) ⊕ RbPtr α)
  | (p, n, dir) => do
    if !(← rbnodeIsThread p dir) && n ≠ node then
      let relation ← compareAt compare n node
      let dir := rbdir (relation > 0)
      return .inl (n, ← link n dir, dir)
    else
      return .inr p

def rbtreeFindParentOf (node : RbPtr α) (fuel : ℕ) : Prog (RbState α) (RbPtr α) := do
  fuelLoop (rbtreeFindParentBody compare node) fuel (.sentinel, ← rbroot, .left)

def rbtreeEmpty : Prog (RbState α) Bool := do
  return (← load .sentinel).flags = rbLeaf

def rbtreeSize : Prog (RbState α) ℕ := fun s => some (s.size, s)

def rbtreeClear : Prog (RbState α) Unit := do
  store .sentinel ((← load .sentinel).withFlags rbLeaf)
  setSize fun _ => 0

/-- How the descent of `cldm_rbtree_insert` ends. -/
inductive InsertExit (α : Type) where
  | present
  | leaf (gp p n : RbPtr α) (dir : Side)

/-- The rest of an iteration of the loop of `cldm_rbtree_insert`, after the
rebalancing: compare, and leave the loop or go down. -/
def rbtreeInsertDescend (node gp p n : RbPtr α) :
    Prog (RbState α) ((RbPtr α × RbPtr α × RbPtr α × RbPtr α) ⊕ InsertExit α) := do
  let relation ← compareAt compare n node
  if relation = 0 then
    -- already in tree
    rbnodeMakeBlack (← rbroot)
    return .inr .present
  else
    let dir := rbdir (relation > 0)
    if ← rbnodeIsThread n dir then
      return .inr (.leaf gp p n dir)
    else
      return .inl (gp, p, n, ← link n dir)

/-- One iteration of the loop of `cldm_rbtree_insert`, on `(ggp, gp, p, n)`. -/
def rbtreeInsertBody (node : RbPtr α) : RbPtr α × RbPtr α × RbPtr α × RbPtr α →
    Prog (RbState α) ((RbPtr α × RbPtr α × RbPtr α × RbPtr α) ⊕ InsertExit α)
  | (ggp, gp, p, n) => do
    if ← rbnodeIsRedSafe n .left <&&> rbnodeIsRedSafe n .right then
      -- percolate red colouring upwards
      rbtreeBalanceInsertion n p gp ggp
    rbtreeInsertDescend compare node gp p n

def rbtreeInsert (node : α) (fuel : ℕ) : Prog (RbState α) Bool := do
  if ← rbtreeEmpty then
    store (.obj node) { left := .sentinel, right := .sentinel, color := .black, flags := rbLeaf }
    setLink .sentinel .left (.obj node)
    rbnodeUnsetThread .sentinel .left
    setLink .sentinel .right .sentinel
    setSize fun _ => 1
    return true
  else
    store .gpLocal { left := .sentinel, right := .null, color := .black, flags := 0 }
    store .ggpLocal { left := .gpLocal, right := .null, color := .black, flags := 0 }
    match ← fuelLoop (rbtreeInsertBody compare (.obj node)) fuel
        (.ggpLocal, .gpLocal, .sentinel, ← rbroot) with
    | .present => return false
    | .leaf gp p n dir =>
      rbnodeMakeLeaf (.obj node)
      setLink (.obj node) dir (← link n dir)
      setLink (.obj node) dir.flip n
      setLink n dir (.obj node)
      rbnodeUnsetThread n dir
      rbtreeBalanceInsertion (.obj node) n p gp
      rbnodeMakeBlack (← rbroot)
      setSize fun size => size + 1
      return true

/-- One iteration of the loop of `cldm_rbtree_find`, on `(p, n, dir)`. -/
def rbtreeFindBody (node : RbPtr α) :
    RbPtr α × RbPtr α × Side → Prog (RbState α) ((RbPtr α × RbPtr α × Side) ⊕ RbPtr α)
  | (p, n, dir) => do
    if !(← rbnodeIsThread p dir) then
      let relation ← compareAt compare n node
      if relation = 0 then
        return .inr n
      else
        let dir := rbdir (relation > 0)
        return .inl (n, ← link n dir, dir)
    else
      return .inr .null

def rbtreeFind (node : α) (fuel : ℕ) : Prog (RbState α) (RbPtr α) := do
  fuelLoop (rbtreeFindBody compare (.obj node)) fuel (.sentinel, ← rbroot, .left)

/-- The variables of the loop of `cldm_rbtree_remove`. -/
structure RemoveVars (α : Type) where
  gp : RbPtr α
  p : RbPtr α
  n : RbPtr α
  found : RbPtr α
  dir : Side

/-- One iteration of the loop of `cldm_rbtree_remove`. -/
def rbtreeRemoveBody (node : RbPtr α) (v : RemoveVars α) :
    Prog (RbState α) (RemoveVars α ⊕ RemoveVars α) := do
  if !(← rbnodeIsThread v.p v.dir) then
    let relation ← compareAt compare v.n node
    let found := if relation = 0 then v.n else v.found
    let dir := rbdir (relation > 0)
    -- balance while descending
    let p ← if ← rbnodeIsRed v.n <||> rbnodeIsRedSafe v.n dir then
        pure v.p
      else
        rbtreeBalanceRemoval v.n v.p v.gp dir
    return .inl { gp := p, p := v.n, n := ← link v.n dir, found := found, dir := dir }
  else
    return .inr v

/-- The part of `cldm_rbtree_remove` that replaces `found` with `p`. -/
def rbtreeUnlink (gp p found : RbPtr α) (dir : Side) (fuel : ℕ) : Prog (RbState α) Unit := do
  let fparent ← rbtreeFindParentOf compare found fuel
  let fdir := rbdir ((← link fparent .right) = found)
  let gpdir := rbdir ((← link gp .right) = p)
  -- make gp adopt p's thread flag in direction gpdir
  rbnodeAssignThreadFrom gp p gpdir
  -- replace found with p
  let fleft ← link found .left
  setLink p .left (if fleft = p then .sentinel else fleft)
  let fright ← link found .right
  setLink p .right (if fright = p then .sentinel else fright)
  store p ((← load p).withColor (← load found).color)
  store p ((← load p).withFlags (← load found).flags)
  setLink fparent fdir p
  setLink gp gpdir (← link p dir)
  store found { left := .null, right := .null, color := .black, flags := 0 }
  setSize fun size => size - 1

def rbtreeRemove (node : α) (fuel : ℕ) : Prog (RbState α) (RbPtr α) := do
  if (← rbroot) = .null then
    return .null
  else
    store .gpLocal { left := .sentinel, right := .null, color := .black, flags := 0 }
    let v ← fuelLoop (rbtreeRemoveBody compare (.obj node)) fuel
      { gp := .gpLocal, p := .sentinel, n := ← rbroot, found := .null, dir := .left }
    if v.found ≠ .null then
      rbtreeUnlink compare v.gp v.p v.found v.dir fuel
    if !(← rbnodeIsThread .sentinel .left) then
      rbnodeMakeBlack (← rbroot)
    return v.found

/-! ### Iteration -/

def rbtreeLeftmostBody (node : RbPtr α) : Prog (RbState α) (RbPtr α ⊕ RbPtr α) := do
  if !(← rbnodeIsThread node .left) then
    return .inl (← link node .left)
  else
    return .inr node

def rbtreeLeftmost (fuel : ℕ) (node : RbPtr α) : Prog (RbState α) (RbPtr α) :=
  fuelLoop rbtreeLeftmostBody fuel node

def rbnodeSuccessor (fuel : ℕ) (node : RbPtr α) : Prog (RbState α) (RbPtr α) := do
  if ← rbnodeHasChild node .right then
    rbtreeLeftmost fuel (← link node .right)
  else
    link node .right

/-- One turn of `cldm_rbtree_for_each`, with the nodes visited so far. -/
def rbtreeForEachBody (fuel : ℕ) :
    RbPtr α × List (RbPtr α) → Prog (RbState α) ((RbPtr α × List (RbPtr α)) ⊕ List (RbPtr α))
  | (iter, visited) => do
    if iter ≠ .sentinel then
      return .inl (← rbnodeSuccessor fuel iter, visited ++ [iter])
    else
      return .inr visited

/-- The nodes that `cldm_rbtree_for_each` visits, in order. -/
def rbtreeForEach (fuel : ℕ) : Prog (RbState α) (List (RbPtr α)) := do
  let begin' ← if (← rbtreeSize) ≠ 0 then rbtreeLeftmost fuel (← rbroot) else pure .sentinel
  fuelLoop (rbtreeForEachBody fuel) fuel (begin', [])

/-! ### Runs -/

/-- The nodes reachable from the root through child links. -/
inductive Linked (mem : RbMem α) : RbPtr α → Prop where
  | root : (mem .sentinel).isThread .left = false → Linked mem (mem .sentinel).left
  | child {p : RbPtr α} {d : Side} :
      Linked mem p → (mem p).isThread d = false → Linked mem ((mem p).link d)

/-- The node objects stored in the tree. -/
def RbState.stored (s : RbState α) : Set α := fun a => Linked s.mem (.obj a)

/-- The comparison orders the nodes by a key: it is antisymmetric up to the
sign and transitive.  `compare a b` is positive when `b` comes after `a`. -/
structure StrictTotal (compare : α → α → ℤ) : Prop where
  swap : ∀ a b, 0 < compare a b ↔ compare b a < 0
  trans : ∀ a b c, 0 ≤ compare a b → 0 ≤ compare b c → 0 ≤ compare a c

/-- `cldm_rbtree_init()`, in any memory. -/
def rbtreeInit (mem : RbMem α) : RbState α where
  mem := Function.update mem .sentinel
    { left := .null, right := .null, color := .black, flags := rbLeaf }
  size := 0

/-- The states `s` that calls on a fresh tree lead to, together with the set `S`
of nodes that are stored according to the answers: those for which an insertion
returned true and that no removal has returned since.  Only nodes outside `S`
are inserted, and removals are made where `ok` holds. -/
inductive RbRun (ok : RbState α → α → Prop) : RbState α → Set α → Prop where
  | init (mem : RbMem α) : RbRun ok (rbtreeInit mem) ∅
  | insert {s s' : RbState α} {S : Set α} {node : α} {b : Bool} : RbRun ok s S → node ∉ S →
      Returns (rbtreeInsert compare node) s b s' →
      RbRun ok s' (if b then Insert.insert node S else S)
  | find {s s' : RbState α} {S : Set α} {node : α} {r : RbPtr α} : RbRun ok s S →
      Returns (rbtreeFind compare node) s r s' → RbRun ok s' S
  | remove {s s' : RbState α} {S : Set α} {node : α} {r : RbPtr α} : RbRun ok s S → ok s node →
      Returns (rbtreeRemove compare node) s r s' → RbRun ok s' {a ∈ S | r ≠ .obj a}
  | clear {s s' : RbState α} {S : Set α} : RbRun ok s S → rbtreeClear s = some ((), s') →
      RbRun ok s' ∅

end Programs

end Cldm
