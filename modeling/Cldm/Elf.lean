/-
Symbol lookup in the mapped image (`cldm_elf.c`).

The image is read byte by byte from memory, at the offsets of the structures of
`elf.h`.  `ElfImage` says what an image with one symbol table and its string
table contains.

* `elfSym`, `elfSymaddr`, `elfSymlookup`, `mapStrtab` — the functions of the
  source;
* `lookupOf` — the address of the first symbol with a name;
* `ElfImage.symlookup` — on such an image, a lookup finds that symbol.
-/
import Cldm.CString

namespace Cldm

open Prog Bytes

/-- `Elf64_Shdr`. -/
structure ElfShdr where
  shType : ℕ
  shOffset : ℕ
  shSize : ℕ
  deriving DecidableEq, Repr

/-- `Elf64_Sym`. -/
structure ElfSym where
  stName : ℕ
  stShndx : ℕ
  stValue : ℕ
  deriving DecidableEq, Repr

/-- `struct cldm_strtab`. -/
structure Strtab where
  addr : ℕ
  size : ℕ
  deriving DecidableEq, Repr

/-- `struct cldm_elfmap`. -/
structure Elfmap where
  addr : ℕ
  strtab : Strtab
  baseaddr : ℕ

/-- `SHT_SYMTAB`. -/
abbrev shtSymtab : ℕ := 2

/-- `STN_UNDEF`. -/
abbrev stnUndef : ℕ := 0

/-- `SHN_UNDEF`. -/
abbrev shnUndef : ℕ := 0

/-- `SHN_ABS`. -/
abbrev shnAbs : ℕ := 0xfff1

/-- `sizeof(Elf64_Shdr)`. -/
abbrev shdrSize : ℕ := 64

/-- `sizeof(Elf64_Sym)`. -/
abbrev symSize : ℕ := 24

section Definitions

variable {σ : Type}

/-- The field of `n` bytes at offset `off` of a structure. -/
def field (bs : List UInt8) (off n : ℕ) : ℕ := ofLe ((bs.drop off).take n)

/-- Read a number of `n` bytes. -/
def readField (mem : Mem) (p n : ℕ) : Prog σ ℕ := do
  let bs ← readBytes mem p n
  return ofLe bs

/-- `cldm_memcpy(&shdr, p, sizeof(shdr))`. -/
def readShdr (mem : Mem) (p : ℕ) : Prog σ ElfShdr := do
  let bs ← readBytes mem p shdrSize
  return { shType := field bs 4 4, shOffset := field bs 24 8, shSize := field bs 32 8 }

/-- `cldm_memcpy(&sym, p, sizeof(sym))`. -/
def readSym (mem : Mem) (p : ℕ) : Prog σ ElfSym := do
  let bs ← readBytes mem p symSize
  return { stName := field bs 0 4, stShndx := field bs 6 2, stValue := field bs 8 8 }

/-- `cldm_elf_shdr`. -/
def elfShdr (mem : Mem) (map : Elfmap) (n : ℕ) : Prog σ ℕ := do
  let shoff ← readField mem (map.addr + 40) 8
  let shentsize ← readField mem (map.addr + 58) 2
  return map.addr + shoff + n * shentsize

/-- `cldm_map_strtab`. -/
def mapStrtab (mem : Mem) (mapaddr hdr : ℕ) : Prog σ Strtab := do
  let shdr ← readShdr mem hdr
  return { addr := mapaddr + shdr.shOffset, size := (shdr.shSize + (2 ^ 64 - 1)) % 2 ^ 64 }

/-- One turn of the inner loop of `cldm_elf_sym`, over the symbols of a table. -/
def elfSymBody (mem : Mem) (map : Elfmap) (symbol : ℕ) (shdr : ElfShdr) (fuel j : ℕ) :
    Prog σ (ℕ ⊕ Option ℕ) := do
  if j < shdr.shSize then
    let addr := map.addr + shdr.shOffset + j
    let sym ← readSym mem addr
    if sym.stName ≠ stnUndef then
      let diff ← strcmp mem symbol (map.strtab.addr + sym.stName) fuel
      return if diff = 0 then .inr (some addr) else .inl ((j + symSize) % 2 ^ 64)
    else
      return .inl ((j + symSize) % 2 ^ 64)
  else
    return .inr none

/-- One turn of the outer loop of `cldm_elf_sym`, over the sections. -/
def elfSymSectionBody (mem : Mem) (map : Elfmap) (symbol fuel i : ℕ) : Prog σ (ℕ ⊕ ℕ) := do
  let shnum ← readField mem (map.addr + 60) 2
  if i < shnum then
    let hdr ← elfShdr mem map i
    let shdr ← readShdr mem hdr
    if shdr.shType = shtSymtab then
      let found ← fuelLoop (elfSymBody mem map symbol shdr fuel) fuel 0
      match found with
      | some addr => return .inr addr
      | none => return .inl ((i + 1) % 2 ^ 16)
    else
      return .inl ((i + 1) % 2 ^ 16)
  else
    return .inr 0

/-- `cldm_elf_sym`; 0 for a null pointer. -/
def elfSym (mem : Mem) (map : Elfmap) (symbol fuel : ℕ) : Prog σ ℕ :=
  fuelLoop (elfSymSectionBody mem map symbol fuel) fuel 0

/-- `cldm_elf_symaddr`.  The section header that it copies is not used. -/
def elfSymaddr (mem : Mem) (map : Elfmap) (sym : ElfSym) : Prog σ ℕ := do
  if sym.stShndx = shnUndef then
    return 0
  else if sym.stShndx = shnAbs then
    return sym.stValue
  else
    let hdr ← elfShdr mem map sym.stShndx
    let _ ← readShdr mem hdr
    return (map.baseaddr + sym.stValue) % 2 ^ 64

/-- `cldm_elf_symlookup`; 0 for a null pointer. -/
def elfSymlookup (mem : Mem) (map : Elfmap) (symname fuel : ℕ) : Prog σ ℕ := do
  let symaddr ← elfSym mem map symname fuel
  if symaddr = 0 then
    return 0
  else
    let sym ← readSym mem symaddr
    elfSymaddr mem map sym

end Definitions

/-! ### Memory -/

/-- The memory that cannot be written. -/
def readOnly (writable : ℕ → Bool) (mem : Mem) : Mem := fun a => if writable a then none else mem a

theorem part_readOnly (writable : ℕ → Bool) (mem : Mem) : Bytes.Part (readOnly writable mem) mem := by
  intro a b h
  rw [readOnly] at h
  split_ifs at h
  exact h

theorem readOnly_store {writable : ℕ → Bool} {mem : Mem} {p : ℕ} {bs : List UInt8}
    (h : ∀ i < bs.length, writable (p + i) = true) :
    readOnly writable (store mem p bs) = readOnly writable mem := by
  funext a
  rw [readOnly, readOnly]
  by_cases ha : p ≤ a ∧ a < p + bs.length
  · have hw := h (a - p) (by omega)
    rw [Nat.add_sub_of_le ha.1] at hw
    rw [if_pos hw, if_pos hw]
  · rw [store_of_notMem (by omega)]

/-! ### Images -/

/-- What an image contains: its section headers and where they lie, the section
of the symbol table and the symbols, the section of the string table and its
bytes. -/
structure ElfContents where
  shoff : ℕ
  shentsize : ℕ
  shdrs : List ElfShdr
  symtab : ElfShdr
  syms : List ElfSym
  strtab : ElfShdr
  table : List UInt8

/-- The address of a section header. -/
def ElfContents.hdr (c : ElfContents) (map : Elfmap) (i : ℕ) : ℕ :=
  map.addr + c.shoff + i * c.shentsize

/-- The bytes at address `p` are those of the section header `shdr`. -/
def ShdrAt (mem : Mem) (p : ℕ) (shdr : ElfShdr) : Prop :=
  ∃ bs, bytesAt mem p shdrSize = some bs ∧
    shdr = { shType := field bs 4 4, shOffset := field bs 24 8, shSize := field bs 32 8 }

/-- The bytes at address `p` are those of the symbol `sym`. -/
def SymAt (mem : Mem) (p : ℕ) (sym : ElfSym) : Prop :=
  ∃ bs, bytesAt mem p symSize = some bs ∧
    sym = { stName := field bs 0 4, stShndx := field bs 6 2, stValue := field bs 8 8 }

/-- An image with one symbol table and its string table is mapped. -/
structure ElfImage (mem : Mem) (map : Elfmap) (c : ElfContents) : Prop where
  addr_pos : 0 < map.addr
  shoff : (bytesAt mem (map.addr + 40) 8).map ofLe = some c.shoff
  shentsize : (bytesAt mem (map.addr + 58) 2).map ofLe = some c.shentsize
  shnum : (bytesAt mem (map.addr + 60) 2).map ofLe = some c.shdrs.length
  shdrs : ∀ i shdr, c.shdrs[i]? = some shdr → ShdrAt mem (c.hdr map i) shdr
  /-- There is exactly one symbol table. -/
  symtab : ∃ before after, c.shdrs = before ++ c.symtab :: after ∧
    c.symtab.shType = shtSymtab ∧ ∀ shdr ∈ before ++ after, shdr.shType ≠ shtSymtab
  symSize_eq : c.symtab.shSize = c.syms.length * symSize
  syms : ∀ j sym, c.syms[j]? = some sym →
    SymAt mem (map.addr + c.symtab.shOffset + j * symSize) sym
  /-- Symbols are undefined, absolute or defined in a section, and their names lie in
  the string table. -/
  shndx : ∀ sym ∈ c.syms, sym.stShndx ≠ shnUndef → sym.stShndx ≠ shnAbs →
    sym.stShndx < c.shdrs.length
  stName_lt : ∀ sym ∈ c.syms, sym.stName < c.table.length
  strtab : ∃ i, c.shdrs[i]? = some c.strtab ∧
    ∀ s : Unit, mapStrtab mem map.addr (c.hdr map i) s = some (map.strtab, s)
  table : bytesAt mem (map.addr + c.strtab.shOffset) c.strtab.shSize = some c.table
  terminated : c.table.getLast? = some 0

/-- The name at an offset of a string table. -/
def nameAt (table : List UInt8) (off : ℕ) : List UInt8 := (table.drop off).takeWhile (· ≠ 0)

/-- The name of a symbol. -/
def ElfContents.nameOf (c : ElfContents) (sym : ElfSym) : List UInt8 := nameAt c.table sym.stName

/-- The first symbol with a name. -/
def ElfContents.symNamed (c : ElfContents) (name : List UInt8) : Option ElfSym :=
  c.syms.find? fun sym => sym.stName ≠ stnUndef ∧ c.nameOf sym = name

/-- The address of a symbol; 0 for an undefined one. -/
def symaddrOf (map : Elfmap) (sym : ElfSym) : ℕ :=
  if sym.stShndx = shnUndef then 0
  else if sym.stShndx = shnAbs then sym.stValue
  else (map.baseaddr + sym.stValue) % 2 ^ 64

/-- The address of the first symbol with a name; 0 if there is none. -/
def lookupOf (map : Elfmap) (c : ElfContents) (name : List UInt8) : ℕ :=
  match c.symNamed name with
  | none => 0
  | some sym => symaddrOf map sym

section Lookup

variable {σ : Type} {mem mem' : Mem} {map : Elfmap} {c : ElfContents} {name : List UInt8} {p : ℕ}

theorem ElfImage.part (h : ElfImage mem map c) (hpart : Part mem mem') :
    ElfImage mem' map c := by
  have hfield : ∀ {q n v : ℕ}, (bytesAt mem q n).map ofLe = some v →
      (bytesAt mem' q n).map ofLe = some v := by
    intro q n v hv
    obtain ⟨bs, hbs, hv⟩ := Option.map_eq_some_iff.mp hv
    rw [hpart.bytesAt hbs, Option.map_some, hv]
  have hshdr : ∀ {q shdr}, ShdrAt mem q shdr → ShdrAt mem' q shdr :=
    fun ⟨bs, hbs, heq⟩ => ⟨bs, hpart.bytesAt hbs, heq⟩
  obtain ⟨i, hi, hmap⟩ := h.strtab
  refine ⟨h.addr_pos, hfield h.shoff, hfield h.shentsize, hfield h.shnum,
    fun i shdr hi => hshdr (h.shdrs i shdr hi), h.symtab, h.symSize_eq, ?_, h.shndx, h.stName_lt,
    ⟨i, hi, ?_⟩, hpart.bytesAt h.table, h.terminated⟩
  · intro j sym hj
    obtain ⟨bs, hbs, heq⟩ := h.syms j sym hj
    exact ⟨bs, hpart.bytesAt hbs, heq⟩
  · intro s
    obtain ⟨shdr, s₁, hread, hpure⟩ := bind_eq_some.mp (hmap s)
    obtain ⟨bs, s₂, hbytes, hdec⟩ := bind_eq_some.mp hread
    obtain ⟨hbs, rfl⟩ := readBytes_some hbytes
    exact bind_some (bind_some (readBytes_eq (hpart.bytesAt hbs) _) hdec) hpure

theorem field_lt (bs : List UInt8) (off n : ℕ) : field bs off n < 256 ^ n := by
  refine (ofLe_lt _).trans_le (Nat.pow_le_pow_right (by omega) ?_)
  rw [List.length_take]
  exact Nat.min_le_left ..

theorem readField_eq {q n v : ℕ} (h : (bytesAt mem q n).map ofLe = some v) (s : σ) :
    (readField mem q n : Prog σ ℕ) s = some (v, s) := by
  obtain ⟨bs, hbs, rfl⟩ := Option.map_eq_some_iff.mp h
  exact bind_some (readBytes_eq hbs s) rfl

theorem readShdr_eq {shdr : ElfShdr} (h : ShdrAt mem p shdr) (s : σ) :
    (readShdr mem p : Prog σ ElfShdr) s = some (shdr, s) := by
  obtain ⟨bs, hbs, rfl⟩ := h
  exact bind_some (readBytes_eq hbs s) rfl

theorem readSym_eq {sym : ElfSym} (h : SymAt mem p sym) (s : σ) :
    (readSym mem p : Prog σ ElfSym) s = some (sym, s) := by
  obtain ⟨bs, hbs, rfl⟩ := h
  exact bind_some (readBytes_eq hbs s) rfl

theorem ElfImage.elfShdr_eq (h : ElfImage mem map c) (i : ℕ) (s : σ) :
    (elfShdr mem map i : Prog σ ℕ) s = some (c.hdr map i, s) :=
  bind_some (readField_eq h.shoff s) (bind_some (readField_eq h.shentsize s) rfl)

/-- The string table as the collection reads it. -/
theorem ElfImage.strtab_eq (h : ElfImage mem map c) :
    map.strtab.addr = map.addr + c.strtab.shOffset ∧ map.strtab.size + 1 = c.table.length ∧
      bytesAt mem map.strtab.addr c.table.length = some c.table := by
  obtain ⟨i, hi, hmap⟩ := h.strtab
  have hmap' : mapStrtab mem map.addr (c.hdr map i) () = _ :=
    bind_some (readShdr_eq (h.shdrs i _ hi) ()) rfl
  rw [hmap ()] at hmap'
  have hlen := length_bytesAt h.table
  have hpos : 0 < c.table.length := by
    have hlast := h.terminated
    rcases hc : c.table with _ | ⟨b, bs⟩
    · rw [hc] at hlast
      exact absurd hlast (by simp)
    · exact Nat.succ_pos _
  have hlt : c.strtab.shSize < 2 ^ 64 := by
    obtain ⟨bs, -, heq⟩ := h.shdrs i _ hi
    rw [heq]
    exact field_lt bs 32 8
  obtain ⟨hmap, -⟩ := Prod.mk.inj (Option.some.inj hmap')
  rw [hmap]
  refine ⟨rfl, ?_, hlen ▸ h.table⟩
  show (c.strtab.shSize + (2 ^ 64 - 1)) % 2 ^ 64 + 1 = c.table.length
  omega

/-- The string at the name of a symbol. -/
theorem ElfImage.strAt_nameAt (h : ElfImage mem map c) {off : ℕ} (hoff : off < c.table.length) :
    StrAt mem (map.strtab.addr + off) (nameAt c.table off) := by
  obtain ⟨-, -, htable⟩ := h.strtab_eq
  have hacc : Accessible mem (map.strtab.addr + off) (c.table.length - 1 - off) := by
    intro i hi
    rw [Nat.add_assoc, (bytesAt_eq_iff.mp htable).2 (off + i) (by omega),
      List.getElem?_eq_getElem (by omega)]
    rfl
  have h0 : mem (map.strtab.addr + off + (c.table.length - 1 - off)) = some 0 := by
    rw [show map.strtab.addr + off + (c.table.length - 1 - off) =
      map.strtab.addr + (c.table.length - 1) by omega,
      (bytesAt_eq_iff.mp htable).2 _ (by omega), ← List.getLast?_eq_getElem?]
    exact h.terminated
  obtain ⟨n, hn, hstr⟩ := exists_stringAt hacc h0
  obtain ⟨bs, rfl, hbs⟩ := hstr.exists_strAt
  have hdrop : c.table.drop off = bs ++ 0 :: c.table.drop (off + bs.length + 1) := by
    refine List.ext_getElem? fun i => ?_
    rw [List.getElem?_drop]
    rcases Nat.lt_trichotomy i bs.length with hlt | rfl | hgt
    · rw [List.getElem?_append_left hlt, ← (bytesAt_eq_iff.mp htable).2 _ (by omega),
        ← Nat.add_assoc, (bytesAt_eq_iff.mp hbs.bytesAt).2 i hlt]
    · rw [List.getElem?_append_right (Nat.le_refl _), Nat.sub_self,
        ← (bytesAt_eq_iff.mp htable).2 _ (by omega), ← Nat.add_assoc, hbs.stringAt.1]
      rfl
    · rw [List.getElem?_append_right (by omega),
        show i - bs.length = (i - bs.length - 1) + 1 by omega, List.getElem?_cons_succ,
        List.getElem?_drop]
      congr 1
      omega
  have hname : nameAt c.table off = bs := by
    rw [nameAt, hdrop, List.takeWhile_append_of_pos]
    · simp
    · intro b hb
      have hne : b ≠ 0 := by
        rintro rfl
        exact hbs.nonzero hb
      simpa using hne
  rw [hname]
  exact hbs

/-- The inner loop of `cldm_elf_sym` finds the first symbol with the name. -/
theorem ElfImage.symbols (h : ElfImage mem map c) (hp : StrAt mem p name) (s : σ) :
    Total (fun n => fuelLoop (elfSymBody mem map p c.symtab n) n 0) (fun r s' => s' = s ∧
      match c.symNamed name with
      | none => r = none
      | some sym => ∃ k, c.syms[k]? = some sym ∧
          r = some (map.addr + c.symtab.shOffset + k * symSize)) s := by
  let P : ElfSym → Bool := fun sym => sym.stName ≠ stnUndef ∧ c.nameOf sym = name
  have hlt : c.symtab.shSize < 2 ^ 64 := by
    obtain ⟨before, after, hsplit, -⟩ := h.symtab
    obtain ⟨bs, -, heq⟩ := h.shdrs before.length c.symtab (by rw [hsplit]; simp)
    rw [heq]
    exact field_lt bs 32 8
  have hsize := h.symSize_eq
  -- after `k` turns, the name is looked for among the symbols from `k` on
  let I : ℕ → ℕ → σ → Prop := fun b j s' => s' = s ∧ ∃ k ≤ c.syms.length, j = k * symSize ∧
    c.symNamed name = (c.syms.drop k).find? P ∧ b = c.syms.length - k
  refine total_loop (I := I) ?_ c.syms.length 0 s
    ⟨rfl, 0, Nat.zero_le _, (Nat.zero_mul _).symm, rfl, rfl⟩
  rintro b j s' ⟨rfl, k, hk, rfl, hfind, rfl⟩
  rcases Nat.lt_or_eq_of_le hk with hlt' | rfl
  · have hget : c.syms[k]? = some c.syms[k] := List.getElem?_eq_getElem hlt'
    have hj : k * symSize < c.symtab.shSize := by
      rw [hsize]
      exact Nat.mul_lt_mul_of_pos_right hlt' (by decide)
    have hnext : (k * symSize + symSize) % 2 ^ 64 = (k + 1) * symSize := by
      rw [← Nat.succ_mul]
      refine Nat.mod_eq_of_lt (lt_of_le_of_lt ?_ hlt)
      rw [hsize]
      exact Nat.mul_le_mul_right _ hlt'
    have hcont : ¬ P c.syms[k] = true → I (c.syms.length - (k + 1)) ((k + 1) * symSize) s' := by
      intro hno
      refine ⟨rfl, k + 1, hlt', rfl, ?_, rfl⟩
      rw [hfind, List.drop_eq_getElem_cons hlt', List.find?_cons_of_neg hno]
    simp only [elfSymBody, if_pos hj]
    refine Total.wp_bind ((wp_of_some (readSym_eq (h.syms k _ hget) s')).mpr ?_)
    by_cases h0 : c.syms[k].stName ≠ stnUndef
    · simp only [if_pos h0]
      have hname := h.strAt_nameAt (h.stName_lt _ (List.getElem_mem hlt'))
      refine Total.bind ((strcmp_spec hp hname s').mono ?_)
      rintro d s'' ⟨rfl, rfl⟩
      refine Total.const ((wp_pure ..).mpr ?_)
      by_cases hd : strcmpOf name (nameAt c.table c.syms[k].stName) = 0
      · have heq := (strcmpOf_eq_zero hp.nonzero hname.nonzero).mp hd
        have hP : P c.syms[k] = true := by
          simp only [P, decide_eq_true_eq]
          exact ⟨h0, heq.symm⟩
        rw [if_pos hd, hfind, List.drop_eq_getElem_cons hlt', List.find?_cons_of_pos hP]
        exact ⟨rfl, k, hget, rfl⟩
      · rw [if_neg hd, hnext]
        refine ⟨_, Nat.sub_lt_sub_left hlt' (Nat.lt_succ_self k), hcont ?_⟩
        simp only [P, decide_eq_true_eq]
        rintro ⟨-, heq⟩
        exact hd ((strcmpOf_eq_zero hp.nonzero hname.nonzero).mpr heq.symm)
    · simp only [if_neg h0]
      refine Total.const ((wp_pure ..).mpr ?_)
      rw [hnext]
      refine ⟨_, Nat.sub_lt_sub_left hlt' (Nat.lt_succ_self k), hcont ?_⟩
      simp only [P, decide_eq_true_eq]
      exact fun hP => h0 hP.1
  · have hj : ¬ c.syms.length * symSize < c.symtab.shSize := by
      rw [hsize]
      exact Nat.lt_irrefl _
    simp only [elfSymBody, if_neg hj]
    refine Total.const ((wp_pure ..).mpr ⟨rfl, ?_⟩)
    rw [hfind, List.drop_length]
    rfl

/-- `cldm_elf_sym` finds the first symbol with the name. -/
theorem ElfImage.sym (h : ElfImage mem map c) (hp : StrAt mem p name) (s : σ) :
    Total (elfSym mem map p) (fun r s' => s' = s ∧
      match c.symNamed name with
      | none => r = 0
      | some sym => ∃ k, c.syms[k]? = some sym ∧
          r = map.addr + c.symtab.shOffset + k * symSize) s := by
  obtain ⟨before, after, hsplit, htype, hother⟩ := h.symtab
  have hnum : c.shdrs.length < 2 ^ 16 := by
    obtain ⟨bs, hbs, heq⟩ := Option.map_eq_some_iff.mp h.shnum
    have := ofLe_lt bs
    rw [length_bytesAt hbs] at this
    omega
  have hlen : before.length < c.shdrs.length := by
    rw [hsplit]
    simp
  -- the symbol table has been searched in vain once `i` is beyond it
  let I : ℕ → ℕ → σ → Prop := fun b i s' => s' = s ∧ i ≤ c.shdrs.length ∧
    (before.length < i → c.symNamed name = none) ∧ b = c.shdrs.length - i
  refine total_loop (I := I) ?_ c.shdrs.length 0 s
    ⟨rfl, Nat.zero_le _, fun hlt => absurd hlt (Nat.not_lt_zero _), rfl⟩
  rintro b i s' ⟨rfl, hi, hbeyond, rfl⟩
  refine Total.wp_bind ((wp_of_some (readField_eq h.shnum s')).mpr ?_)
  rcases Nat.lt_or_eq_of_le hi with hlt | rfl
  · obtain ⟨shdr, hget⟩ : ∃ shdr, c.shdrs[i]? = some shdr :=
      ⟨_, List.getElem?_eq_getElem hlt⟩
    have hnext : (i + 1) % 2 ^ 16 = i + 1 := Nat.mod_eq_of_lt (by omega)
    simp only [if_pos hlt]
    refine Total.wp_bind ((wp_of_some (h.elfShdr_eq i s')).mpr ?_)
    refine Total.wp_bind ((wp_of_some (readShdr_eq (h.shdrs i _ hget) s')).mpr ?_)
    have hat : i = before.length → shdr = c.symtab := by
      rintro rfl
      rw [hsplit, List.getElem?_append_right (Nat.le_refl _), Nat.sub_self] at hget
      exact (Option.some.inj hget).symm
    have hcont : (i = before.length → c.symNamed name = none) →
        I (c.shdrs.length - (i + 1)) (i + 1) s' := by
      refine fun hnone => ⟨rfl, hlt, fun hle => ?_, rfl⟩
      rcases Nat.lt_or_eq_of_le (Nat.le_of_lt_succ hle) with h' | h'
      · exact hbeyond h'
      · exact hnone h'.symm
    by_cases hsym : shdr.shType = shtSymtab
    · simp only [if_pos hsym]
      have hieq : i = before.length := by
        by_contra hne
        refine hother shdr ?_ hsym
        rw [hsplit] at hget
        rcases Nat.lt_or_gt_of_ne hne with h' | h'
        · rw [List.getElem?_append_left h'] at hget
          exact List.mem_append_left _ (List.mem_of_getElem? hget)
        · rw [List.getElem?_append_right (by omega),
            show i - before.length = (i - before.length - 1) + 1 by omega,
            List.getElem?_cons_succ] at hget
          exact List.mem_append_right _ (List.mem_of_getElem? hget)
      rw [hat hieq]
      refine Total.bind ((h.symbols hp s').mono ?_)
      rintro r s'' ⟨rfl, hr⟩
      cases hfound : c.symNamed name with
      | none =>
        rw [hfound] at hr
        subst hr
        refine Total.const ((wp_pure ..).mpr ?_)
        rw [hnext]
        exact ⟨_, Nat.sub_lt_sub_left hlt (Nat.lt_succ_self i), hcont fun _ => hfound⟩
      | some sym =>
        rw [hfound] at hr
        obtain ⟨k, hk, rfl⟩ := hr
        exact Total.const ((wp_pure ..).mpr ⟨rfl, k, hk, rfl⟩)
    · simp only [if_neg hsym]
      refine Total.const ((wp_pure ..).mpr ?_)
      rw [hnext]
      refine ⟨_, Nat.sub_lt_sub_left hlt (Nat.lt_succ_self i), hcont ?_⟩
      intro hieq
      rw [hat hieq] at hsym
      exact absurd htype hsym
  · simp only [if_neg (Nat.lt_irrefl _)]
    refine Total.const ((wp_pure ..).mpr ⟨rfl, ?_⟩)
    rw [hbeyond hlen]

/-- A lookup by name returns the address of the first symbol with that name, or
null. -/
theorem ElfImage.symlookup (h : ElfImage mem map c) (hp : StrAt mem p name) (s : σ) :
    Total (elfSymlookup mem map p) (fun r s' => r = lookupOf map c name ∧ s' = s) s := by
  refine Total.bind ((h.sym hp s).mono ?_)
  rintro r s' ⟨rfl, hr⟩
  rw [lookupOf]
  cases hfound : c.symNamed name with
  | none =>
    rw [hfound] at hr
    simp only [hr, if_true]
    exact Total.const ((wp_pure ..).mpr ⟨rfl, rfl⟩)
  | some sym =>
    rw [hfound] at hr
    obtain ⟨k, hk, rfl⟩ := hr
    have hne : map.addr + c.symtab.shOffset + k * symSize ≠ 0 := by
      have := h.addr_pos
      omega
    simp only [if_neg hne]
    refine Total.wp_bind ((wp_of_some (readSym_eq (h.syms k sym hk) s')).mpr ?_)
    refine Total.const ?_
    rw [elfSymaddr, symaddrOf]
    by_cases hundef : sym.stShndx = shnUndef
    · rw [if_pos hundef, if_pos hundef]
      exact (wp_pure ..).mpr ⟨rfl, rfl⟩
    · rw [if_neg hundef, if_neg hundef]
      by_cases habs : sym.stShndx = shnAbs
      · rw [if_pos habs, if_pos habs]
        exact (wp_pure ..).mpr ⟨rfl, rfl⟩
      · rw [if_neg habs, if_neg habs]
        have hlt := h.shndx sym (List.mem_of_getElem? hk) hundef habs
        have hshdr := h.shdrs _ _ (List.getElem?_eq_getElem hlt)
        rw [wp_bind, wp_of_some (h.elfShdr_eq _ s'), wp_bind, wp_of_some (readShdr_eq hshdr s')]
        exact (wp_pure ..).mpr ⟨rfl, rfl⟩

end Lookup

/-! ### More fuel -/

section Fuel

variable {σ : Type} (mem : Mem) (map : Elfmap)

theorem fuelMono_elfSym (symbol : ℕ) : FuelMono (elfSym mem map symbol : ℕ → Prog σ ℕ) := by
  refine .loop (fun i => ?_) 0
  refine (FuelMono.const _).bind fun shnum => .ite _ ?_ (.const _)
  refine (FuelMono.const _).bind fun hdr => (FuelMono.const _).bind fun shdr => .ite _ ?_ (.const _)
  refine FuelMono.bind (.loop (fun j => ?_) 0) fun found => ?_
  · refine .ite _ ((FuelMono.const _).bind fun sym => .ite _ ?_ (.const _)) (.const _)
    exact FuelMono.bind (fuelMono_strcmp _ _ _) fun _ => .const _
  · cases found with
    | none => exact .const _
    | some addr => exact .const _

theorem fuelMono_elfSymlookup (symname : ℕ) :
    FuelMono (elfSymlookup mem map symname : ℕ → Prog σ ℕ) :=
  (fuelMono_elfSym mem map symname).bind fun _ => .const _

end Fuel

end Cldm
