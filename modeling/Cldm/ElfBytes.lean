/-
Images as lists of bytes.

`elfImage_of_bytes` says what has to be checked of the bytes of an image with a symbol
table and a string table; every check can be evaluated.
-/
import Cldm.Elf

namespace Cldm

open Prog Bytes

/-- The bytes `bs` from address `p` on. -/
def memOf (p : ℕ) (bs : List UInt8) : Mem := fun a => if p ≤ a then bs[a - p]? else none

/-- A section header. -/
def shdrBytes (shType shOffset shSize : ℕ) : List UInt8 :=
  leBytes 4 0 ++ leBytes 4 shType ++ List.replicate 16 0 ++ leBytes 8 shOffset ++
    leBytes 8 shSize ++ List.replicate 24 0

/-- A symbol. -/
def symBytes (sym : ElfSym) : List UInt8 :=
  leBytes 4 sym.stName ++ leBytes 2 0 ++ leBytes 2 sym.stShndx ++ leBytes 8 sym.stValue ++
    leBytes 8 0

/-- An image with a symbol table and a string table. -/
def imageBytes (syms : List ElfSym) (table : List UInt8) : List UInt8 :=
  List.replicate 40 0 ++ leBytes 8 64 ++ List.replicate 10 0 ++ leBytes 2 64 ++ leBytes 2 2 ++
    leBytes 2 0 ++ shdrBytes 2 192 (syms.length * symSize) ++
    shdrBytes 3 (192 + syms.length * symSize) table.length ++ syms.flatMap symBytes ++ table

/-- What it contains. -/
def imageContents (syms : List ElfSym) (table : List UInt8) : ElfContents where
  shoff := 64
  shentsize := 64
  shdrs := [⟨2, 192, syms.length * symSize⟩, ⟨3, 192 + syms.length * symSize, table.length⟩]
  symtab := ⟨2, 192, syms.length * symSize⟩
  syms := syms
  strtab := ⟨3, 192 + syms.length * symSize, table.length⟩
  table := table

/-- The map of an image at address `p`. -/
def imageMap (p : ℕ) (syms : List ElfSym) (table : List UInt8) : Elfmap where
  addr := p
  strtab := ⟨p + (192 + syms.length * symSize), table.length - 1⟩
  baseaddr := 0x10000

/-- The bytes of the symbol `sym` lie at address `p`. -/
def symOk (mem : Mem) (p : ℕ) (sym : ElfSym) : Bool :=
  match bytesAt mem p symSize with
  | some bs => decide (sym =
      { stName := field bs 0 4, stShndx := field bs 6 2, stValue := field bs 8 8 })
  | none => false

/-- The bytes of the section header `shdr` lie at address `p`. -/
def shdrOk (mem : Mem) (p : ℕ) (shdr : ElfShdr) : Bool :=
  match bytesAt mem p shdrSize with
  | some bs => decide (shdr =
      { shType := field bs 4 4, shOffset := field bs 24 8, shSize := field bs 32 8 })
  | none => false

theorem shdrAt_of_ok {mem : Mem} {p : ℕ} {shdr : ElfShdr} (h : shdrOk mem p shdr = true) :
    ShdrAt mem p shdr := by
  rw [shdrOk] at h
  cases hbs : bytesAt mem p shdrSize with
  | none =>
    rw [hbs] at h
    exact absurd h Bool.false_ne_true
  | some bs =>
    rw [hbs] at h
    exact ⟨bs, hbs, of_decide_eq_true h⟩

theorem symAt_of_ok {mem : Mem} {p : ℕ} {sym : ElfSym} (h : symOk mem p sym = true) :
    SymAt mem p sym := by
  rw [symOk] at h
  cases hbs : bytesAt mem p symSize with
  | none =>
    rw [hbs] at h
    exact absurd h Bool.false_ne_true
  | some bs =>
    rw [hbs] at h
    exact ⟨bs, hbs, of_decide_eq_true h⟩

/-- What has to be checked of the bytes of such an image. -/
theorem elfImage_of_bytes {mem : Mem} {p : ℕ} {syms : List ElfSym} {table : List UInt8}
    (hp : 0 < p) (hhead : (bytesAt mem (p + 40) 8).map ofLe = some 64 ∧
      (bytesAt mem (p + 58) 2).map ofLe = some 64 ∧ (bytesAt mem (p + 60) 2).map ofLe = some 2)
    (hsymtab : shdrOk mem (p + 64) (imageContents syms table).symtab = true)
    (hstrtab : shdrOk mem (p + 128) (imageContents syms table).strtab = true)
    (hsyms : (List.range syms.length).all fun j => (syms[j]?).all fun sym =>
      symOk mem (p + 192 + j * symSize) sym)
    (hnames : syms.all fun sym => sym.stShndx < 2 ∧ sym.stName < table.length)
    (htable : bytesAt mem (p + (192 + syms.length * symSize)) table.length = some table)
    (hlast : table.getLast? = some 0) (hsize : table.length < 2 ^ 64) :
    ElfImage mem (imageMap p syms table) (imageContents syms table) := by
  have hsym := shdrAt_of_ok hsymtab
  have hstr := shdrAt_of_ok hstrtab
  have hpos : 0 < table.length := by
    rcases table with _ | ⟨b, bs⟩
    · exact absurd hlast (by simp)
    · exact Nat.succ_pos _
  simp only [List.all_eq_true, decide_eq_true_eq] at hnames
  refine ⟨hp, hhead.1, hhead.2.1, hhead.2.2, ?_, ?_, rfl, ?_, ?_, ?_, ?_, htable, hlast⟩
  · rintro (_ | _ | i) shdr hi
    · obtain rfl := Option.some.inj hi
      exact hsym
    · obtain rfl := Option.some.inj hi
      exact hstr
    · exact absurd hi (by simp [imageContents])
  · refine ⟨[], [(imageContents syms table).strtab], rfl, rfl, ?_⟩
    intro shdr hshdr
    rw [List.nil_append, List.mem_singleton] at hshdr
    rw [hshdr]
    show 3 ≠ 2
    omega
  · intro j sym hj
    have hlt : j < syms.length := (List.getElem?_eq_some_iff.mp hj).1
    rw [List.all_eq_true] at hsyms
    have := hsyms j (List.mem_range.mpr hlt)
    rw [show syms[j]? = some sym from hj] at this
    exact symAt_of_ok this
  · exact fun sym hmem _ _ => (hnames sym hmem).1
  · exact fun sym hmem => (hnames sym hmem).2
  · refine ⟨1, rfl, fun s => bind_some (readShdr_eq hstr s) ?_⟩
    have : (table.length + (2 ^ 64 - 1)) % 2 ^ 64 = table.length - 1 := by omega
    show some (({ addr := _, size := (table.length + (2 ^ 64 - 1)) % 2 ^ 64 } : Strtab), s) = _
    rw [this]
    rfl

end Cldm
