/-
Descriptors, open files and streams of a process.

A descriptor leads to an open file, an open file to a file of the file system.  A
stream writes through a descriptor and keeps what it is given until it is flushed.
A system call fails when `faults` says so, and then sets `errno`.

* `Descriptors` — the table of the descriptors (`lowest_closed`, `table_dup2`);
* `World` — the process and its file system, with the variables of the program;
* `fopen` to `remove` — the calls;
* `Standing` — the descriptors and the streams of a state, and what each call does to
  them (`Standing.fopen_write` to `Standing.remove`).
-/
import Cldm.FuelLoop
import Mathlib.Algebra.Order.Ring.Int
import Mathlib.Logic.Function.Basic

namespace Stdio

open Prog Function

/-! ### Descriptors -/

/-- Where the descriptors lead, a bound from which on they are closed, and the number of files
opened so far. -/
structure Descriptors where
  table : ℤ → Option ℕ
  top : ℕ
  opened : ℕ
  closed : ∀ d, d < 0 ∨ (top : ℤ) ≤ d → table d = none
  known : ∀ d f, table d = some f → f < opened

namespace Descriptors

variable {t : Descriptors} {d : ℤ} {f : ℕ}

/-- The lowest descriptor that is closed. -/
def lowest (t : Descriptors) : ℤ :=
  ((List.range t.top).find? fun d : ℕ => (t.table d).isNone).getD t.top

/-- Let `d` lead to the open file `f`. -/
def point (t : Descriptors) (d : ℤ) (f : ℕ) (hd : 0 ≤ d) (hf : f < t.opened) : Descriptors where
  table := update t.table d (some f)
  top := max t.top (d.toNat + 1)
  opened := t.opened
  closed := by
    intro d' hd'
    rw [update_of_ne (by omega)]
    exact t.closed d' (by omega)
  known := by
    intro d' f' h
    by_cases hne : d' = d
    · subst hne
      rw [update_self] at h
      exact Option.some.inj h ▸ hf
    · rw [update_of_ne hne] at h
      exact t.known d' f' h

/-- Number a new open file. -/
def grow (t : Descriptors) : Descriptors where
  table := t.table
  top := t.top
  opened := t.opened + 1
  closed := t.closed
  known := fun d f h => Nat.lt_succ_of_lt (t.known d f h)

/-- `close`. -/
def close (t : Descriptors) (d : ℤ) : Descriptors where
  table := update t.table d none
  top := t.top
  opened := t.opened
  closed := by
    intro d' hd'
    by_cases hne : d' = d
    · rw [hne, update_self]
    · rw [update_of_ne hne]
      exact t.closed d' hd'
  known := by
    intro d' f h
    by_cases hne : d' = d
    · rw [hne, update_self] at h
      exact absurd h (by simp)
    · rw [update_of_ne hne] at h
      exact t.known d' f h

/-- `dup2`, where it is possible. -/
def dup2 (t : Descriptors) (oldfd newfd : ℤ) : Option Descriptors :=
  if h : (t.table oldfd).isSome ∧ 0 ≤ newfd then
    some (t.point newfd ((t.table oldfd).get h.1) h.2 (t.known _ _ (Option.some_get h.1).symm))
  else none

@[simp] theorem table_close : (t.close d).table = update t.table d none := rfl

@[simp] theorem opened_close : (t.close d).opened = t.opened := rfl

theorem nonneg_of_open (h : t.table d = some f) : 0 ≤ d := by
  by_contra hd
  rw [t.closed d (.inl (by omega))] at h
  exact absurd h (by simp)

theorem lowest_closed : t.table t.lowest = none := by
  rw [lowest]
  cases hfind : (List.range t.top).find? fun d : ℕ => (t.table d).isNone with
  | none => exact t.closed _ (.inr (le_refl _))
  | some d =>
    have hnone := List.find?_some hfind
    exact Option.isNone_iff_eq_none.mp hnone

theorem lowest_nonneg : 0 ≤ t.lowest := by
  rw [lowest]
  cases (List.range t.top).find? fun d : ℕ => (t.table d).isNone with
  | none => exact Int.natCast_nonneg t.top
  | some d => exact Int.natCast_nonneg d

/-- An open descriptor is not the lowest closed one. -/
theorem ne_lowest (h : t.table d = some f) : d ≠ t.lowest := by
  rintro rfl
  rw [lowest_closed] at h
  exact absurd h (by simp)

/-- Let the lowest closed descriptor lead to a new open file. -/
def openLowest (t : Descriptors) : Descriptors :=
  t.grow.point t.lowest t.opened lowest_nonneg (Nat.lt_succ_self t.opened)

@[simp] theorem table_openLowest : t.openLowest.table = update t.table t.lowest (some t.opened) := rfl

@[simp] theorem opened_openLowest : t.openLowest.opened = t.opened + 1 := rfl

theorem table_dup2 {newfd : ℤ} (h : t.table d = some f) (hnew : 0 ≤ newfd) :
    ∃ t', t.dup2 d newfd = some t' ∧ t'.table = update t.table newfd (some f) ∧
      t'.opened = t.opened := by
  have hsome : (t.table d).isSome ∧ 0 ≤ newfd := ⟨by simp [h], hnew⟩
  refine ⟨_, dif_pos hsome, ?_, rfl⟩
  show update t.table newfd (some ((t.table d).get hsome.1)) = _
  simp [h]

end Descriptors

/-! ### The process -/

/-- An open file: its file, whether it is open for appending, and the offset. -/
structure OpenFile where
  inode : ℕ
  append : Bool
  offset : ℕ

/-- A stream and what it has not written yet. -/
structure Stream where
  fd : ℤ
  pending : List UInt8

/-- A process, its file system, and the variables `γ` of its program. -/
structure World (γ : Type) where
  fds : Descriptors
  files : ℕ → OpenFile
  links : List UInt8 → Option ℕ
  data : ℕ → List UInt8
  inodes : ℕ
  streams : List (Option Stream)
  /-- The error of each system call to come; behind the list, none fails. -/
  faults : List (Option ℕ)
  errno : ℕ
  vars : γ

/-- `fopen`'s modes. -/
inductive Mode
  | read
  | write

/-- `ENOENT`. -/
abbrev enoent : ℕ := 2

/-- `EBADF`. -/
abbrev ebadf : ℕ := 9

/-- The stream of the standard output. -/
abbrev stdout : ℕ := 1

/-- The stream of the standard error output. -/
abbrev stderr : ℕ := 2

variable {γ : Type}

theorem wp_modify (f : World γ → World γ) (Q : PUnit → World γ → Prop) (s : World γ) :
    wp (modify f : Prog (World γ) PUnit) Q s ↔ Q ⟨⟩ (f s) := wp_of_some rfl

/-! ### The calls -/

/-- Whether the next system call fails. -/
def fails : Prog (World γ) Bool := fun s =>
  match s.faults with
  | [] => some (false, s)
  | none :: faults => some (false, { s with faults })
  | some errno :: faults => some (true, { s with faults, errno })

/-- The file at a path, which is created if there is none. -/
def create (path : List UInt8) : Prog (World γ) ℕ := fun s =>
  match s.links path with
  | some inode => some (inode, s)
  | none => some (s.inodes, { s with
      links := update s.links path (some s.inodes)
      data := update s.data s.inodes []
      inodes := s.inodes + 1 })

/-- A new open file at the lowest closed descriptor. -/
def openInode (inode : ℕ) (append : Bool) : Prog (World γ) ℤ := fun s =>
  some (s.fds.lowest, { s with
    fds := s.fds.openLowest
    files := update s.files s.fds.opened ⟨inode, append, 0⟩ })

/-- `open` with `O_RDWR | O_CREAT | O_APPEND`. -/
def openAppend (path : List UInt8) : Prog (World γ) ℤ := do
  if ← fails then
    return -1
  openInode (← create path) true

/-- A new stream that writes through the descriptor. -/
def fdopen (fd : ℤ) : Prog (World γ) ℕ := fun s =>
  some (s.streams.length, { s with streams := s.streams ++ [some ⟨fd, []⟩] })

/-- `fopen`. -/
def fopen (path : List UInt8) (mode : Mode) : Prog (World γ) (Option ℕ) := do
  if ← fails then
    return none
  match mode with
  | .read =>
    match (← get).links path with
    | none =>
      modify fun s => { s with errno := enoent }
      return none
    | some inode => return some (← fdopen (← openInode inode false))
  | .write =>
    let inode ← create path
    modify fun s => { s with data := update s.data inode [] }
    return some (← fdopen (← openInode inode false))

/-- The stream behind a `FILE *`; the use of a closed one is undefined. -/
def stream (fp : ℕ) : Prog (World γ) Stream := fun s =>
  s.streams[fp]?.join.map fun st => (st, s)

/-- `fileno`. -/
def fileno (fp : ℕ) : Prog (World γ) ℤ := do
  return (← stream fp).fd

/-- The bytes `bs` of a file after `new` has been written at the offset. -/
def overwrite (bs : List UInt8) (offset : ℕ) (new : List UInt8) : List UInt8 :=
  if new = [] then bs
  else bs.take offset ++ List.replicate (offset - bs.length) 0 ++ new ++
    bs.drop (offset + new.length)

/-- `write`: behind the end of a file that is open for appending, else at the offset. -/
def write (fd : ℤ) (bytes : List UInt8) : Prog (World γ) Unit := fun s =>
  match s.fds.table fd with
  | none => some ((), { s with errno := ebadf })
  | some f =>
    let o := s.files f
    let offset := if o.append then (s.data o.inode).length else o.offset
    some ((), { s with
      data := update s.data o.inode (overwrite (s.data o.inode) offset bytes)
      files := update s.files f { o with offset := offset + bytes.length } })

/-- `fflush`. -/
def fflush (fp : ℕ) : Prog (World γ) Unit := do
  let st ← stream fp
  write st.fd st.pending
  modify fun s => { s with streams := s.streams.set fp (some { st with pending := [] }) }

/-- `fprintf` of a text. -/
def fprintf (fp : ℕ) (text : List UInt8) : Prog (World γ) Unit := do
  let st ← stream fp
  modify fun s =>
    { s with streams := s.streams.set fp (some { st with pending := st.pending ++ text }) }

/-- `close`. -/
def close (fd : ℤ) : Prog (World γ) Unit :=
  modify fun s => { s with fds := s.fds.close fd }

/-- `fclose`. -/
def fclose (fp : ℕ) : Prog (World γ) Unit := do
  fflush fp
  close (← fileno fp)
  modify fun s => { s with streams := s.streams.set fp none }

/-- `dup2`. -/
def dup2 (oldfd newfd : ℤ) : Prog (World γ) ℤ := do
  if ← fails then
    return -1
  match (← get).fds.dup2 oldfd newfd with
  | none =>
    modify fun s => { s with errno := ebadf }
    return -1
  | some fds =>
    modify fun s => { s with fds }
    return newfd

/-- `dup`. -/
def dup (fd : ℤ) : Prog (World γ) ℤ := do
  dup2 fd (← get).fds.lowest

/-- The first line of the bytes, or as much of it as `n` bytes hold. -/
def lineChunk : ℕ → List UInt8 → List UInt8
  | 0, _ => []
  | _, [] => []
  | n + 1, b :: bs => if b = 10 then [b] else b :: lineChunk n bs

attribute [grind =] lineChunk

/-- `fgets`: what it has put into a buffer of `size` bytes, without the terminator. -/
def fgets (size fp : ℕ) : Prog (World γ) (Option (List UInt8)) := do
  let st ← stream fp
  let s ← get
  match s.fds.table st.fd with
  | none => return none
  | some f =>
    let o := s.files f
    let rest := (s.data o.inode).drop o.offset
    if rest = [] then
      return none
    let line := lineChunk (size - 1) rest
    set { s with files := update s.files f { o with offset := o.offset + line.length } }
    return some line

/-- `fstat`: the size of an open file. -/
def fstat (fd : ℤ) : Prog (World γ) (Option ℕ) := do
  if ← fails then
    return none
  let s ← get
  match s.fds.table fd with
  | none =>
    set { s with errno := ebadf }
    return none
  | some f => return some (s.data (s.files f).inode).length

/-- `stat`, for whether there is a file at the path. -/
def stat (path : List UInt8) : Prog (World γ) ℤ := do
  if ← fails then
    return -1
  match (← get).links path with
  | none =>
    modify fun s => { s with errno := enoent }
    return -1
  | some _ => return 0

/-- `remove`. -/
def remove (path : List UInt8) : Prog (World γ) ℤ := do
  if ← fails then
    return -1
  match (← get).links path with
  | none =>
    modify fun s => { s with errno := enoent }
    return -1
  | some _ =>
    modify fun s => { s with links := update s.links path none }
    return 0

/-! ### The descriptors and the streams of a state -/

/-- The state has the descriptors `t`, the streams write through `l`, the variables are `v`,
and no system call fails. -/
structure Standing (s : World γ) (t : Descriptors) (l : List (Option ℤ)) (v : γ) : Prop where
  fds : s.fds = t
  streams : s.streams.map (Option.map Stream.fd) = l
  vars : s.vars = v
  faults : s.faults = []

namespace Standing

variable {s : World γ} {t : Descriptors} {l : List (Option ℤ)} {v : γ} {d : ℤ} {fp : ℕ}

theorem fails (h : Standing s t l v) {Q : Bool → World γ → Prop} (hQ : Q false s) :
    wp Stdio.fails Q s := by
  refine ⟨false, s, ?_, hQ⟩
  rw [Stdio.fails, h.faults]

/-- A stream and its descriptor. -/
theorem exists_stream (h : Standing s t l v) (hfp : l[fp]? = some (some d)) :
    ∃ st : Stream, s.streams[fp]? = some (some st) ∧ st.fd = d := by
  rw [← h.streams, List.getElem?_map] at hfp
  obtain ⟨st, hst, hd⟩ := Option.map_eq_some_iff.mp hfp
  obtain ⟨st, rfl, hfd⟩ := Option.map_eq_some_iff.mp hd
  exact ⟨st, hst, hfd⟩

theorem stream (h : Standing s t l v) (hfp : l[fp]? = some (some d))
    {Q : Stream → World γ → Prop}
    (hQ : ∀ st : Stream, s.streams[fp]? = some (some st) → st.fd = d → Q st s) :
    wp (Stdio.stream fp) Q s := by
  obtain ⟨st, hst, hd⟩ := h.exists_stream hfp
  refine ⟨st, s, ?_, hQ st hst hd⟩
  rw [Stdio.stream, hst]
  rfl

theorem fileno (h : Standing s t l v) (hfp : l[fp]? = some (some d)) {Q : ℤ → World γ → Prop}
    (hQ : Q d s) : wp (Stdio.fileno fp) Q s := by
  rw [Stdio.fileno, wp_bind]
  refine h.stream hfp fun st _ hd => ?_
  rw [wp_pure, hd]
  exact hQ

/-- What a stream holds back does not matter. -/
theorem set (h : Standing s t l v) (hfp : l[fp]? = some (some d)) {st : Stream}
    (hd : st.fd = d) : Standing { s with streams := s.streams.set fp (some st) } t l v where
  fds := h.fds
  streams := by
    obtain ⟨hlt, hl⟩ := List.getElem?_eq_some_iff.mp hfp
    rw [List.map_set, h.streams, Option.map_some, hd, ← hl]
    exact List.set_getElem_self hlt
  vars := h.vars
  faults := h.faults

theorem write (h : Standing s t l v) {bytes : List UInt8} {Q : Unit → World γ → Prop}
    (hQ : ∀ s', Standing s' t l v → s'.streams = s.streams → Q () s') :
    wp (Stdio.write d bytes) Q s := by
  unfold Stdio.write
  cases hf : s.fds.table d with
  | none =>
    refine ⟨(), _, by simp only [hf]; rfl, ?_⟩
    exact hQ _ ⟨h.fds, h.streams, h.vars, h.faults⟩ rfl
  | some f =>
    refine ⟨(), _, by simp only [hf]; rfl, ?_⟩
    exact hQ _ ⟨h.fds, h.streams, h.vars, h.faults⟩ rfl

theorem fflush (h : Standing s t l v) (hfp : l[fp]? = some (some d))
    {Q : Unit → World γ → Prop} (hQ : ∀ s', Standing s' t l v → Q () s') :
    wp (Stdio.fflush fp) Q s := by
  rw [Stdio.fflush, wp_bind]
  refine h.stream hfp fun st _ hd => ?_
  rw [wp_bind]
  refine h.write fun s₁ h₁ _ => ?_
  exact ⟨_, _, rfl, hQ _ (h₁.set hfp hd)⟩

theorem create (h : Standing s t l v) {path : List UInt8} {Q : ℕ → World γ → Prop}
    (hQ : ∀ i s', Standing s' t l v → Q i s') : wp (Stdio.create path) Q s := by
  unfold Stdio.create
  cases hi : s.links path with
  | none =>
    refine ⟨s.inodes, _, by simp only [hi]; rfl, ?_⟩
    exact hQ _ _ ⟨h.fds, h.streams, h.vars, h.faults⟩
  | some i => exact ⟨i, s, by simp only [hi], hQ i s h⟩

theorem openInode (h : Standing s t l v) {i : ℕ} {append : Bool} {Q : ℤ → World γ → Prop}
    (hQ : ∀ s', Standing s' t.openLowest l v → Q t.lowest s') :
    wp (Stdio.openInode i append) Q s := by
  refine ⟨_, _, rfl, ?_⟩
  rw [h.fds]
  exact hQ _ ⟨rfl, h.streams, h.vars, h.faults⟩

theorem openAppend (h : Standing s t l v) {path : List UInt8} {Q : ℤ → World γ → Prop}
    (hQ : ∀ s', Standing s' t.openLowest l v → Q t.lowest s') :
    wp (Stdio.openAppend path) Q s := by
  rw [Stdio.openAppend, wp_bind]
  refine h.fails ?_
  simp only [Bool.false_eq_true, if_false]
  rw [wp_bind]
  exact h.create fun i s₁ h₁ => h₁.openInode hQ

theorem fdopen (h : Standing s t l v) {Q : ℕ → World γ → Prop}
    (hQ : ∀ s', Standing s' t (l ++ [some d]) v → Q l.length s') : wp (Stdio.fdopen d) Q s := by
  refine ⟨_, _, rfl, ?_⟩
  have hlen : s.streams.length = l.length := by rw [← h.streams, List.length_map]
  rw [hlen]
  refine hQ _ ⟨h.fds, ?_, h.vars, h.faults⟩
  rw [List.map_append, h.streams]
  rfl

/-- A file opened for writing. -/
theorem fopen_write (h : Standing s t l v) {path : List UInt8}
    {Q : Option ℕ → World γ → Prop}
    (hQ : ∀ s', Standing s' t.openLowest (l ++ [some t.lowest]) v → Q (some l.length) s') :
    wp (Stdio.fopen path .write) Q s := by
  rw [Stdio.fopen, wp_bind]
  refine h.fails ?_
  simp only [Bool.false_eq_true, if_false]
  rw [wp_bind]
  refine h.create fun i s₁ h₁ => ?_
  have h₂ : Standing { s₁ with data := update s₁.data i [] } t l v :=
    ⟨h₁.fds, h₁.streams, h₁.vars, h₁.faults⟩
  rw [wp_bind, wp_modify, wp_bind]
  refine h₂.openInode fun s₃ h₃ => ?_
  rw [wp_bind]
  refine h₃.fdopen fun s₄ h₄ => ?_
  rw [wp_pure]
  exact hQ s₄ h₄

theorem close (h : Standing s t l v) {Q : Unit → World γ → Prop}
    (hQ : ∀ s', Standing s' (t.close d) l v → Q () s') : wp (Stdio.close d) Q s := by
  refine ⟨_, _, rfl, hQ _ ⟨?_, h.streams, h.vars, h.faults⟩⟩
  rw [← h.fds]

theorem fclose (h : Standing s t l v) (hfp : l[fp]? = some (some d))
    {Q : Unit → World γ → Prop} (hQ : ∀ s', Standing s' (t.close d) (l.set fp none) v → Q () s') :
    wp (Stdio.fclose fp) Q s := by
  rw [Stdio.fclose, wp_bind]
  refine h.fflush hfp fun s₁ h₁ => ?_
  rw [wp_bind]
  refine h₁.fileno hfp ?_
  rw [wp_bind]
  refine h₁.close fun s₂ h₂ => ?_
  refine ⟨_, _, rfl, hQ _ ⟨h₂.fds, ?_, h₂.vars, h₂.faults⟩⟩
  rw [List.map_set, h₂.streams, Option.map_none]

theorem dup2 (h : Standing s t l v) {newfd : ℤ} {f : ℕ} (hd : t.table d = some f)
    (hnew : 0 ≤ newfd) {Q : ℤ → World γ → Prop}
    (hQ : ∀ t' s', t'.table = update t.table newfd (some f) → t'.opened = t.opened →
      Standing s' t' l v → Q newfd s') : wp (Stdio.dup2 d newfd) Q s := by
  obtain ⟨t', ht', htable, hopened⟩ := t.table_dup2 hd hnew
  rw [Stdio.dup2, wp_bind]
  refine h.fails ?_
  simp only [Bool.false_eq_true, if_false, wp_bind, wp_get, h.fds, ht', wp_modify]
  rw [wp_pure]
  exact hQ t' _ htable hopened ⟨rfl, h.streams, h.vars, h.faults⟩

theorem dup (h : Standing s t l v) {f : ℕ} (hd : t.table d = some f) {Q : ℤ → World γ → Prop}
    (hQ : ∀ t' s', t'.table = update t.table t.lowest (some f) → t'.opened = t.opened →
      Standing s' t' l v → Q t.lowest s') : wp (Stdio.dup d) Q s := by
  rw [Stdio.dup, wp_bind, wp_get, h.fds]
  exact h.dup2 hd Descriptors.lowest_nonneg hQ

theorem stat (h : Standing s t l v) {path : List UInt8} {Q : ℤ → World γ → Prop}
    (hQ : ∀ r s', Standing s' t l v → (r = 0 → (s'.links path).isSome) → Q r s') :
    wp (Stdio.stat path) Q s := by
  rw [Stdio.stat, wp_bind]
  refine h.fails ?_
  simp only [Bool.false_eq_true, if_false, wp_bind, wp_get]
  cases hlink : s.links path with
  | none =>
    rw [wp_bind, wp_modify, wp_pure]
    exact hQ _ _ ⟨h.fds, h.streams, h.vars, h.faults⟩ fun hr => absurd hr (by decide)
  | some i =>
    rw [wp_pure]
    exact hQ _ _ h fun _ => by rw [hlink, Option.isSome_some]

theorem remove (h : Standing s t l v) {path : List UInt8} (hlink : (s.links path).isSome)
    {Q : ℤ → World γ → Prop} (hQ : ∀ s', Standing s' t l v → Q 0 s') :
    wp (Stdio.remove path) Q s := by
  obtain ⟨i, hi⟩ := Option.isSome_iff_exists.mp hlink
  rw [Stdio.remove, wp_bind]
  refine h.fails ?_
  simp only [Bool.false_eq_true, if_false, wp_bind, wp_get, hi]
  rw [wp_modify, wp_pure]
  exact hQ _ ⟨h.fds, h.streams, h.vars, h.faults⟩

end Standing

/-! ### The lines of a file -/

theorem lineChunk_append_drop (n : ℕ) (bs : List UInt8) :
    lineChunk n bs ++ bs.drop (lineChunk n bs).length = bs := by
  refine List.prefix_iff_eq_append.mp ?_
  induction n generalizing bs with
  | zero => exact List.nil_prefix
  | succ n ih =>
    rcases bs with _ | ⟨b, bs⟩
    · exact List.nil_prefix
    · rw [lineChunk]
      split_ifs
      · exact ⟨bs, rfl⟩
      · exact List.cons_prefix_cons.mpr ⟨rfl, ih bs⟩

theorem length_lineChunk_le (n : ℕ) (bs : List UInt8) : (lineChunk n bs).length ≤ n := by
  induction n generalizing bs with
  | zero => exact le_refl 0
  | succ n ih =>
    rcases bs with _ | ⟨b, bs⟩
    · exact Nat.zero_le _
    · rw [lineChunk]
      split_ifs
      · exact Nat.le_add_left 1 n
      · exact Nat.succ_le_succ (ih bs)

theorem length_lineChunk_pos {n : ℕ} {bs : List UInt8} (hn : 0 < n) (hbs : bs ≠ []) :
    0 < (lineChunk n bs).length := by
  obtain ⟨n, rfl⟩ : ∃ n', n = n' + 1 := ⟨n - 1, by omega⟩
  rcases bs with _ | ⟨b, bs⟩
  · exact absurd rfl hbs
  · rw [lineChunk]
    split_ifs <;> exact Nat.succ_pos _

/-- A line that fits ends in its newline. -/
theorem getLast?_lineChunk {n j : ℕ} {bs : List UInt8} (hj : j < n) (hnl : bs[j]? = some 10) :
    (lineChunk n bs).getLast? = some 10 := by
  induction n generalizing j bs with
  | zero => exact absurd hj (Nat.not_lt_zero j)
  | succ n ih =>
    rcases bs with _ | ⟨b, bs⟩
    · exact absurd hnl (by simp)
    · rw [lineChunk]
      split_ifs with hb
      · rw [hb, List.getLast?_singleton]
      · obtain ⟨j, rfl⟩ : ∃ j', j = j' + 1 := by
          refine ⟨j - 1, (Nat.succ_pred_eq_of_ne_zero ?_).symm⟩
          rintro rfl
          exact hb (Option.some.inj hnl)
        have hlast := ih (j := j) (by omega) (by rwa [List.getElem?_cons_succ] at hnl)
        rw [List.getLast?_cons, hlast, Option.getD_some]

/-! ### Reading and writing through streams -/

section

variable {s : World γ} {fp out offset f : ℕ} {bs text : List UInt8} {d : ℤ} {st : Stream}

/-- What a stream has been given and not yet written. -/
def received (s : World γ) (fp : ℕ) : List UInt8 :=
  (s.streams[fp]?.join.map Stream.pending).getD []

theorem received_eq (h : s.streams[fp]? = some (some st)) : received s fp = st.pending := by
  rw [received, h]
  rfl

/-- The stream reads the file `bs` from the offset on. -/
structure Reading (s : World γ) (fp : ℕ) (bs : List UInt8) (offset : ℕ) (d : ℤ) (f : ℕ) :
    Prop where
  stream : s.streams[fp]? = some (some ⟨d, []⟩)
  leads : s.fds.table d = some f
  bytes : s.data (s.files f).inode = bs
  offset : (s.files f).offset = offset

/-- The stream can be written to, and has received the text. -/
def Writing (s : World γ) (fp : ℕ) (text : List UInt8) : Prop :=
  ∃ d, s.streams[fp]? = some (some ⟨d, text⟩)

theorem Writing.received (h : Writing s fp text) : Stdio.received s fp = text := by
  obtain ⟨d, hd⟩ := h
  exact received_eq hd

theorem wp_stream (h : s.streams[fp]? = some (some st)) {Q : Stream → World γ → Prop} :
    wp (stream fp) Q s ↔ Q st s := by
  refine wp_of_some ?_
  rw [stream, h]
  rfl

/-- `fprintf` changes no other stream. -/
theorem Writing.fprintf (h : Writing s out text) (more : List UInt8)
    {Q : Unit → World γ → Prop}
    (hQ : ∀ s', Writing s' out (text ++ more) → s'.faults = s.faults →
      (∀ fp bs offset d f, fp ≠ out → Reading s fp bs offset d f → Reading s' fp bs offset d f) →
      Q () s') : wp (fprintf out more) Q s := by
  obtain ⟨d, hd⟩ := h
  have hlt : out < s.streams.length := (List.getElem?_eq_some_iff.mp hd).1
  rw [Stdio.fprintf, wp_bind, wp_stream hd, wp_modify]
  refine hQ _ ⟨d, ?_⟩ rfl fun fp bs offset d' f hne hr => ⟨?_, hr.leads, hr.bytes, hr.offset⟩
  · rw [List.getElem?_set_self hlt]
  · rw [List.getElem?_set_ne hne.symm, hr.stream]

/-- `fgets` reads the next line, or has come to the end. -/
theorem Reading.fgets (h : Reading s fp bs offset d f) (size : ℕ)
    {Q : Option (List UInt8) → World γ → Prop} (hend : bs.drop offset = [] → Q none s)
    (hline : ∀ s', bs.drop offset ≠ [] →
      Reading s' fp bs (offset + (lineChunk (size - 1) (bs.drop offset)).length) d f →
      (∀ out text, Writing s out text → Writing s' out text) →
      Q (some (lineChunk (size - 1) (bs.drop offset))) s') : wp (fgets size fp) Q s := by
  rw [Stdio.fgets, wp_bind, wp_stream h.stream, wp_bind, wp_get]
  simp only [h.leads, h.bytes, h.offset]
  rw [wp_ite]
  split_ifs with hrest
  · rw [wp_pure]
    exact hend hrest
  · rw [wp_bind, wp_set, wp_pure]
    refine hline _ hrest ⟨h.stream, h.leads, ?_, ?_⟩ fun out text hw => hw
    · simp only [update_self]
      exact h.bytes
    · simp only [update_self]

theorem overwrite_length (bs new : List UInt8) : overwrite bs bs.length new = bs ++ new := by
  rw [overwrite]
  split_ifs with hnew
  · rw [hnew, List.append_nil]
  · rw [List.take_length, Nat.sub_self, List.replicate_zero, List.append_nil,
      List.drop_eq_nil_of_le (Nat.le_add_right _ _), List.append_nil]

/-- `write` through an open descriptor. -/
theorem wp_write (hd : s.fds.table d = some f) (bytes : List UInt8) {Q : Unit → World γ → Prop} :
    wp (write d bytes) Q s ↔ Q () { s with
      data := update s.data (s.files f).inode (overwrite (s.data (s.files f).inode)
        (if (s.files f).append then (s.data (s.files f).inode).length else (s.files f).offset) bytes)
      files := update s.files f { s.files f with
        offset := (if (s.files f).append then (s.data (s.files f).inode).length
          else (s.files f).offset) + bytes.length } } := by
  refine wp_of_some ?_
  simp only [write, hd]

/-- Flushing a stream that appends to its file. -/
theorem wp_fflush_append {pending : List UInt8} (h : s.streams[fp]? = some (some ⟨d, pending⟩))
    (hd : s.fds.table d = some f) (happend : (s.files f).append = true)
    {Q : Unit → World γ → Prop}
    (hQ : ∀ s', s'.data (s.files f).inode = s.data (s.files f).inode ++ pending →
      s'.links = s.links → s'.faults = s.faults →
      (∀ out text, out ≠ fp → Writing s out text → Writing s' out text) → Q () s') :
    wp (fflush fp) Q s := by
  rw [fflush, wp_bind, wp_stream h, wp_bind, wp_write hd, wp_modify]
  refine hQ _ ?_ rfl rfl fun out text hne hw => ?_
  · simp only [update_self, happend, if_true, overwrite_length]
  · obtain ⟨d', hd'⟩ := hw
    exact ⟨d', by rw [List.getElem?_set_ne hne.symm]; exact hd'⟩

/-- A file opened for reading. -/
theorem wp_fopen_read (hfaults : s.faults = []) {path : List UInt8} {i : ℕ}
    (hlink : s.links path = some i) {Q : Option ℕ → World γ → Prop}
    (hQ : ∀ s' fp d f, Reading s' fp (s.data i) 0 d f → s'.faults = [] →
      (∀ out text, Writing s out text → Writing s' out text ∧ fp ≠ out) → Q (some fp) s') :
    wp (fopen path .read) Q s := by
  rw [fopen, wp_bind]
  refine ⟨false, s, by rw [fails, hfaults], ?_⟩
  simp only [Bool.false_eq_true, if_false, wp_bind, wp_get, hlink]
  refine ⟨_, _, rfl, _, _, rfl, ?_⟩
  refine hQ _ _ _ s.fds.opened ⟨List.getElem?_concat_length, ?_, ?_, ?_⟩ hfaults
    fun out text hw => ?_
  · exact update_self ..
  · simp only [update_self]
  · simp only [update_self]
  · obtain ⟨d, hd⟩ := hw
    have hlt : out < s.streams.length := (List.getElem?_eq_some_iff.mp hd).1
    exact ⟨⟨d, by rw [List.getElem?_append_left hlt]; exact hd⟩, by simp only; omega⟩

theorem Reading.fileno (h : Reading s fp bs offset d f) {Q : ℤ → World γ → Prop} (hQ : Q d s) :
    wp (fileno fp) Q s := by
  rw [Stdio.fileno, wp_bind, wp_stream h.stream, wp_pure]
  exact hQ

theorem Reading.fstat (h : Reading s fp bs offset d f) (hfaults : s.faults = [])
    {Q : Option ℕ → World γ → Prop} (hQ : Q (some bs.length) s) : wp (fstat d) Q s := by
  rw [Stdio.fstat, wp_bind]
  refine ⟨false, s, by rw [fails, hfaults], ?_⟩
  simp only [Bool.false_eq_true, if_false, wp_bind, wp_get, h.leads, wp_pure, h.bytes]
  exact hQ

/-- Closing a stream that has been read changes no other stream. -/
theorem Reading.fclose (h : Reading s fp bs offset d f) {Q : Unit → World γ → Prop}
    (hQ : ∀ s', (∀ out text, out ≠ fp → Writing s out text → Writing s' out text) → Q () s') :
    wp (fclose fp) Q s := by
  have hlt : fp < s.streams.length := (List.getElem?_eq_some_iff.mp h.stream).1
  rw [Stdio.fclose, wp_bind, fflush, wp_bind, wp_stream h.stream, wp_bind, wp_write h.leads,
    wp_modify, wp_bind, Stdio.fileno, wp_bind, wp_stream (List.getElem?_set_self hlt), wp_pure,
    wp_bind, close, wp_modify, wp_modify]
  refine hQ _ fun out text hne hw => ?_
  obtain ⟨d', hd'⟩ := hw
  refine ⟨d', ?_⟩
  rw [List.getElem?_set_ne hne.symm]
  show (s.streams.set fp _)[out]? = _
  rw [List.getElem?_set_ne hne.symm]
  exact hd'

end

end Stdio
