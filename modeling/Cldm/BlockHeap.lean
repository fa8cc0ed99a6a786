/-
Heap blocks, with an account of who gets and who gives back.

A heap maps the addresses of its live blocks to their words of eight bytes.  The
allocator is an oracle: the answer to a request says whether it succeeds, where the new
block lies and what it holds.  The use of a block that is not live is a fault.

* `Heap.malloc`, `Heap.realloc`, `Heap.free` — the functions of the C library;
* `AnswerOk` — what the C library promises of an answer;
* `Owns` — one owner has got blocks, has given back all but one, and still holds that one.
-/
import Mathlib.Algebra.Group.Nat.Defs
import Mathlib.Data.List.Basic
import Mathlib.Logic.Function.Basic
import Mathlib.Tactic.Common

namespace BlockHeap

/-- The answer to a request: the address of the new block, and its words where nothing is
copied to; `none` is a null pointer. -/
abbrev Answer := Option (ℕ × (ℕ → ℕ))

/-- The live blocks, and the addresses that were obtained and released, in order. -/
structure Heap where
  blocks : ℕ → Option (List ℕ)
  obtained : List ℕ
  released : List ℕ

/-- `malloc(nbytes)`. -/
def Heap.malloc (h : Heap) (ans : Answer) (nbytes : ℕ) : ℕ × Heap :=
  match ans with
  | none => (0, h)
  | some (p, junk) =>
    (p, { h with
      blocks := Function.update h.blocks p (some ((List.range (nbytes / 8)).map junk))
      obtained := h.obtained ++ [p] })

/-- `realloc(p, nbytes)` of a live block. -/
def Heap.realloc (h : Heap) (ans : Answer) (p nbytes : ℕ) : Option (ℕ × Heap) :=
  (h.blocks p).map fun ws =>
    match ans with
    | none => (0, h)
    | some (q, junk) =>
      (q, { blocks := Function.update (Function.update h.blocks p none) q
              (some ((List.range (nbytes / 8)).map fun i => ws.getD i (junk i)))
            obtained := h.obtained ++ [q]
            released := h.released ++ [p] })

/-- `free(p)` of a live block. -/
def Heap.free (h : Heap) (p : ℕ) : Option Heap :=
  (h.blocks p).map fun _ =>
    { h with blocks := Function.update h.blocks p none, released := h.released ++ [p] }

/-- Write words to the front of a block. -/
def Heap.copyIn (h : Heap) (p : ℕ) (words : List ℕ) : Option Heap :=
  (h.blocks p).bind fun ws =>
    if words.length ≤ ws.length then
      some { h with blocks := Function.update h.blocks p (some (words ++ ws.drop words.length)) }
    else none

/-- Write the word with index `i` of a block. -/
def Heap.store (h : Heap) (p i x : ℕ) : Option Heap :=
  (h.blocks p).bind fun ws =>
    if i < ws.length then some { h with blocks := Function.update h.blocks p (some (ws.set i x)) }
    else none

/-- Read the word with index `i` of a block. -/
def Heap.load (h : Heap) (p i : ℕ) : Option ℕ := (h.blocks p).bind fun ws => ws[i]?

/-- What the C library promises of the answer to a request for `nbytes`: a new block is
not null, does not lie on a live one, other than the block `old` that is reallocated, and
has at most `PTRDIFF_MAX` bytes. -/
def AnswerOk (h : Heap) (old : Option ℕ) (nbytes : ℕ) (ans : Answer) : Prop :=
  ∀ p junk, ans = some (p, junk) → p ≠ 0 ∧ nbytes < 2 ^ 63 ∧ ((h.blocks p).isNone ∨ some p = old)

variable {h h' : Heap} {p q i x nbytes : ℕ} {ws words : List ℕ} {junk : ℕ → ℕ}

/-- Everything that was obtained has been released, but for the block `p`, if any. -/
def Owns (h : Heap) (p : Option ℕ) : Prop := h.obtained = h.released ++ p.toList

theorem Owns.malloc (ho : Owns h none) : Owns (h.malloc (some (p, junk)) nbytes).2 (some p) := by
  show h.obtained ++ [p] = h.released ++ [p]
  rw [ho, Option.toList_none, List.append_nil]

theorem realloc_eq (hp : h.blocks p = some ws) : h.realloc (some (q, junk)) p nbytes =
    some (q, { blocks := Function.update (Function.update h.blocks p none) q
                 (some ((List.range (nbytes / 8)).map fun i => ws.getD i (junk i)))
               obtained := h.obtained ++ [q]
               released := h.released ++ [p] }) := by
  rw [Heap.realloc, hp]
  rfl

/-- A block that is made larger keeps its words. -/
theorem realloc_words {n : ℕ} (hle : ws.length ≤ n) :
    (List.range n).map (fun i => ws.getD i (junk i)) =
      ws ++ ((List.range n).map junk).drop ws.length := by
  refine List.ext_getElem? fun i => ?_
  rw [List.getElem?_map, List.getElem?_append, List.getElem?_drop, List.getElem?_map]
  by_cases hi : i < ws.length
  · rw [if_pos hi, List.getElem?_range (by omega), Option.map_some, List.getD_eq_getElem?_getD,
      List.getElem?_eq_getElem hi, Option.getD_some]
  · rw [if_neg hi, Nat.add_sub_of_le (by omega)]
    refine Option.map_congr fun j hj => ?_
    obtain ⟨hlt, hji⟩ := List.getElem?_eq_some_iff.mp hj
    obtain rfl : i = j := by rw [← hji, List.getElem_range]
    rw [List.getD_eq_getElem?_getD, List.getElem?_eq_none (by omega), Option.getD_none]

theorem Owns.realloc (ho : Owns h (some p)) (hr : h.realloc (some (q, junk)) p nbytes = some (q, h')) :
    Owns h' (some q) := by
  obtain ⟨ws, -, heq⟩ := Option.map_eq_some_iff.mp hr
  obtain ⟨-, rfl⟩ := Prod.mk.inj heq
  show h.obtained ++ [q] = (h.released ++ [p]) ++ [q]
  rw [ho, Option.toList_some]

theorem free_eq (hp : h.blocks p = some ws) : h.free p =
    some { h with blocks := Function.update h.blocks p none, released := h.released ++ [p] } := by
  rw [Heap.free, hp]
  rfl

theorem Owns.free (ho : Owns h (some p)) (hf : h.free p = some h') : Owns h' none := by
  obtain ⟨ws, -, rfl⟩ := Option.map_eq_some_iff.mp hf
  show h.obtained = (h.released ++ [p]) ++ []
  rw [ho, Option.toList_some, List.append_nil]

theorem store_eq (hp : h.blocks p = some ws) (hi : i < ws.length) : h.store p i x =
    some { h with blocks := Function.update h.blocks p (some (ws.set i x)) } := by
  rw [Heap.store, hp, Option.bind_some, if_pos hi]

theorem copyIn_eq (hp : h.blocks p = some ws) (hle : words.length ≤ ws.length) :
    h.copyIn p words =
      some { h with blocks := Function.update h.blocks p (some (words ++ ws.drop words.length)) } := by
  rw [Heap.copyIn, hp, Option.bind_some, if_pos hle]

theorem load_eq (hp : h.blocks p = some ws) : h.load p i = ws[i]? := by
  rw [Heap.load, hp, Option.bind_some]

/-- Whether an owner holds a block decides whether everything was released. -/
theorem Owns.perm_iff {b : Option ℕ} (ho : Owns h b) :
    h.released.Perm h.obtained ↔ b = none := by
  rw [ho]
  constructor
  · intro hperm
    have hlen := hperm.length_eq
    rw [List.length_append] at hlen
    cases b with
    | none => rfl
    | some p => exact absurd hlen (by simp)
  · rintro rfl
    rw [Option.toList_none, List.append_nil]

end BlockHeap
