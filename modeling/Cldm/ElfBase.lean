/-
The base address of the executable (`cldm_elf_baseaddr`).

The base address is computed from the address of `main` and the lowest virtual address of
the program headers, and `cldm_elf_symlookup` adds it to the value of a symbol.

* `elfBaseaddr_spec` — the base address is the load bias less the lowest virtual address;
* `elf_symlookup_loaded` — symbols are found where they are loaded just when some program
  header has the virtual address 0;
* `elf_symlookup_misses` — an executable with its lowest segment at 0x400000.
-/
import Cldm.ElfBytes

namespace Cldm

open Prog Bytes

/-- `Elf64_Phdr`. -/
structure ElfPhdr where
  pVaddr : ℕ
  deriving DecidableEq, Repr

/-- `sizeof(Elf64_Phdr)`. -/
abbrev phdrSize : ℕ := 56

/-- `ET_EXEC`. -/
abbrev etExec : ℕ := 2

/-- `ET_DYN`. -/
abbrev etDyn : ℕ := 3

section Definitions

variable {σ : Type}

/-- `cldm_elf_is_executable`. -/
def elfIsExecutable (mem : Mem) (map : Elfmap) : Prog σ Bool := do
  let type ← readField mem (map.addr + 16) 2
  return type = etExec ∨ type = etDyn

/-- `cldm_memcpy(&phdr, p, sizeof(phdr))`. -/
def readPhdr (mem : Mem) (p : ℕ) : Prog σ ElfPhdr := do
  let bs ← readBytes mem p phdrSize
  return { pVaddr := field bs 16 8 }

/-- `baseaddr ^ ((p_vaddr ^ baseaddr) & -(p_vaddr < baseaddr))`. -/
def lowerVaddr (vaddr baseaddr : ℕ) : ℕ :=
  baseaddr ^^^ ((vaddr ^^^ baseaddr) &&& (if vaddr < baseaddr then 2 ^ 64 - 1 else 0))

/-- One turn of the loop of `cldm_elf_baseaddr`, with the index and the lowest address.
The product is a signed one. -/
def elfBaseBody (mem : Mem) (map : Elfmap) (v : ℕ × ℕ) : Prog σ ((ℕ × ℕ) ⊕ ℕ) := do
  let phnum ← readField mem (map.addr + 56) 2
  if v.1 < phnum then
    let phoff ← readField mem (map.addr + 32) 8
    let phentsize ← readField mem (map.addr + 54) 2
    if v.1 * phentsize < 2 ^ 31 then
      let phdr ← readPhdr mem (map.addr + phoff + v.1 * phentsize)
      return .inl ((v.1 + 1) % 2 ^ 16, lowerVaddr phdr.pVaddr v.2)
    else
      failure
  else
    return .inr v.2

/-- `cldm_elf_baseaddr`, where the string `"main"` lies at `mainName` and the function at
`main`; 0 for a null pointer. -/
def elfBaseaddr (mem : Mem) (map : Elfmap) (mainName main fuel : ℕ) : Prog σ ℕ := do
  let baseaddr ← fuelLoop (elfBaseBody mem map) fuel (0, 2 ^ 64 - 1)
  let relmain ← elfSym mem map mainName fuel
  let sym ← readSym mem relmain
  if sym.stShndx = shnUndef then
    return 0
  else if sym.stShndx = shnAbs then
    return 0
  else
    let hdr ← elfShdr mem map sym.stShndx
    let _ ← readShdr mem hdr
    return ((main + (2 ^ 64 - sym.stValue)) % 2 ^ 64 + (2 ^ 64 - baseaddr)) % 2 ^ 64

end Definitions

/-! ### Program headers -/

/-- The bytes at address `p` are those of the program header `phdr`. -/
def PhdrAt (mem : Mem) (p : ℕ) (phdr : ElfPhdr) : Prop :=
  ∃ bs, bytesAt mem p phdrSize = some bs ∧ phdr = { pVaddr := field bs 16 8 }

/-- The program headers of an image, `off` bytes after its beginning. -/
structure PhdrsAt (mem : Mem) (map : Elfmap) (off : ℕ) (phdrs : List ElfPhdr) : Prop where
  phoff : (bytesAt mem (map.addr + 32) 8).map ofLe = some off
  phentsize : (bytesAt mem (map.addr + 54) 2).map ofLe = some phdrSize
  phnum : (bytesAt mem (map.addr + 56) 2).map ofLe = some phdrs.length
  phdrs : ∀ i phdr, phdrs[i]? = some phdr →
    PhdrAt mem (map.addr + off + i * phdrSize) phdr

/-- The symbol is defined in a section. -/
def ElfSym.Defined (sym : ElfSym) : Prop := sym.stShndx ≠ shnUndef ∧ sym.stShndx ≠ shnAbs

/-- `"main"`. -/
def mainStr : List UInt8 := [109, 97, 105, 110]

/-- Every symbol that is defined in a section is found at its value plus the load bias `b`. -/
def FindsLoaded {σ : Type} (mem : Mem) (map : Elfmap) (c : ElfContents) (b : ℕ) (s : σ) : Prop :=
  ∀ name p sym, StrAt mem p name → c.symNamed name = some sym → sym.Defined →
    Returns (elfSymlookup mem map p) s ((sym.stValue + b) % 2 ^ 64) s

/-- The lowest virtual address. -/
def lowestVaddr (phdrs : List ElfPhdr) : ℕ :=
  phdrs.foldl (fun low phdr => min phdr.pVaddr low) (2 ^ 64 - 1)

section Lookup

variable {σ : Type} {mem : Mem} {map : Elfmap} {c : ElfContents} {off p q b : ℕ}
  {phdrs : List ElfPhdr} {sym : ElfSym} {name : List UInt8}

theorem foldl_min_le (low : ℕ) :
    phdrs.foldl (fun low phdr => min phdr.pVaddr low) low ≤ low := by
  induction phdrs generalizing low with
  | nil => exact Nat.le_refl _
  | cons phdr phdrs ih => exact (ih _).trans (Nat.min_le_right ..)

theorem foldl_min_eq_zero (low : ℕ) (hlow : low ≠ 0) :
    phdrs.foldl (fun low phdr => min phdr.pVaddr low) low = 0 ↔
      ∃ phdr ∈ phdrs, phdr.pVaddr = 0 := by
  induction phdrs generalizing low with
  | nil => simpa using hlow
  | cons phdr phdrs ih =>
    simp only [List.foldl_cons, List.mem_cons, exists_eq_or_imp]
    by_cases h0 : phdr.pVaddr = 0
    · refine ⟨fun _ => .inl h0, fun _ => Nat.le_zero.mp ((foldl_min_le _).trans ?_)⟩
      rw [h0, Nat.zero_min]
    · rw [ih _ (by omega), or_iff_right h0]

/-- The exclusive or in `cldm_elf_baseaddr` is a minimum. -/
theorem lowerVaddr_eq {v low : ℕ} (hv : v < 2 ^ 64) (hlow : low < 2 ^ 64) :
    lowerVaddr v low = min v low := by
  rw [lowerVaddr]
  split_ifs with hlt
  · rw [Nat.and_two_pow_sub_one_of_lt_two_pow (Nat.xor_lt_two_pow hv hlow), Nat.xor_comm v,
      ← Nat.xor_assoc, Nat.xor_self, Nat.zero_xor, Nat.min_eq_left (Nat.le_of_lt hlt)]
  · rw [Nat.and_zero, Nat.xor_zero, Nat.min_eq_right (Nat.le_of_not_lt hlt)]

theorem readPhdr_eq {phdr : ElfPhdr} (h : PhdrAt mem p phdr) (s : σ) :
    (readPhdr mem p : Prog σ ElfPhdr) s = some (phdr, s) := by
  obtain ⟨bs, hbs, rfl⟩ := h
  exact bind_some (readBytes_eq hbs s) rfl

/-- The loop of `cldm_elf_baseaddr` computes the lowest virtual address. -/
theorem PhdrsAt.lowest (h : PhdrsAt mem map off phdrs) (s : σ) :
    Total (fun n => fuelLoop (elfBaseBody mem map) n (0, 2 ^ 64 - 1))
      (fun r s' => r = lowestVaddr phdrs ∧ r < 2 ^ 64 ∧ s' = s) s := by
  have hnum : phdrs.length < 2 ^ 16 := by
    obtain ⟨bs, hbs, heq⟩ := Option.map_eq_some_iff.mp h.phnum
    have := ofLe_lt bs
    rw [length_bytesAt hbs] at this
    omega
  -- the headers from the index on still have to be taken into account
  let I : ℕ → ℕ × ℕ → σ → Prop := fun k v s' => s' = s ∧ v.1 ≤ phdrs.length ∧ v.2 < 2 ^ 64 ∧
    lowestVaddr phdrs =
      (phdrs.drop v.1).foldl (fun low phdr => min phdr.pVaddr low) v.2 ∧ k = phdrs.length - v.1
  refine total_loop (I := I) ?_ phdrs.length (0, 2 ^ 64 - 1) s
    ⟨rfl, Nat.zero_le _, by decide, rfl, rfl⟩
  rintro k ⟨i, low⟩ s' ⟨rfl, hi, hlow, hrest, rfl⟩
  dsimp only at hi hlow hrest
  refine Total.wp_bind ((wp_of_some (readField_eq h.phnum s')).mpr ?_)
  rcases Nat.lt_or_eq_of_le hi with hlt | rfl
  · have hget : phdrs[i]? = some phdrs[i] := List.getElem?_eq_getElem hlt
    have hphdr := h.phdrs i _ hget
    have hvaddr : phdrs[i].pVaddr < 2 ^ 64 := by
      obtain ⟨bs, -, heq⟩ := hphdr
      rw [heq]
      exact field_lt bs 16 8
    have hprod : i * phdrSize < 2 ^ 31 := by
      show i * 56 < 2 ^ 31
      omega
    have hnext : (i + 1) % 2 ^ 16 = i + 1 := Nat.mod_eq_of_lt (by omega)
    simp only [if_pos hlt]
    refine Total.wp_bind ((wp_of_some (readField_eq h.phoff s')).mpr ?_)
    refine Total.wp_bind ((wp_of_some (readField_eq h.phentsize s')).mpr ?_)
    simp only [if_pos hprod]
    refine Total.wp_bind ((wp_of_some (readPhdr_eq hphdr s')).mpr ?_)
    refine Total.const ((wp_pure ..).mpr ?_)
    rw [hnext, lowerVaddr_eq hvaddr hlow]
    refine ⟨_, Nat.sub_lt_sub_left hlt (Nat.lt_succ_self i), rfl, hlt,
      (Nat.min_le_right ..).trans_lt hlow, ?_, rfl⟩
    rw [hrest, List.drop_eq_getElem_cons hlt, List.foldl_cons]
  · simp only [if_neg (Nat.lt_irrefl _)]
    refine Total.const ((wp_pure ..).mpr ?_)
    rw [hrest, List.drop_length, List.foldl_nil]
    exact ⟨rfl, hlow, rfl⟩

/-- The base address, from the address `b + st_value` of `main`. -/
theorem elfBaseaddr_spec (h : ElfImage mem map c) (hph : PhdrsAt mem map off phdrs)
    (hq : StrAt mem q name) (hmain : c.symNamed name = some sym) (hdef : sym.Defined) (b : ℕ)
    (s : σ) : Total (elfBaseaddr mem map q ((sym.stValue + b) % 2 ^ 64)) (fun r s' =>
      r < 2 ^ 64 ∧ (r + lowestVaddr phdrs) % 2 ^ 64 = b % 2 ^ 64 ∧ s' = s) s := by
  refine Total.bind ((hph.lowest s).mono ?_)
  rintro low s' ⟨rfl, hlow, rfl⟩
  refine Total.bind ((h.sym hq s').mono ?_)
  rintro r s' ⟨rfl, hr⟩
  rw [hmain] at hr
  obtain ⟨k, hk, rfl⟩ := hr
  have hsym := h.syms k sym hk
  have hval : sym.stValue < 2 ^ 64 := by
    obtain ⟨bs, -, heq⟩ := hsym
    rw [heq]
    exact field_lt bs 8 8
  refine Total.wp_bind ((wp_of_some (readSym_eq hsym s')).mpr ?_)
  rw [if_neg hdef.1, if_neg hdef.2]
  have hlt := h.shndx sym (List.mem_of_getElem? hk) hdef.1 hdef.2
  have hshdr := h.shdrs _ _ (List.getElem?_eq_getElem hlt)
  refine Total.const ?_
  rw [wp_bind, wp_of_some (h.elfShdr_eq _ s'), wp_bind, wp_of_some (readShdr_eq hshdr s')]
  refine (wp_pure ..).mpr ⟨Nat.mod_lt _ (by decide), ?_, rfl⟩
  omega

theorem lowestVaddr_eq_zero : lowestVaddr phdrs = 0 ↔ ∃ phdr ∈ phdrs, phdr.pVaddr = 0 :=
  foldl_min_eq_zero _ (by decide)

/-- A symbol is found at its value plus the base address. -/
theorem ElfImage.symlookup_base (h : ElfImage mem map c) (base : ℕ) (hp : StrAt mem p name)
    (hsym : c.symNamed name = some sym) (hdef : sym.Defined) (s : σ) :
    Returns (elfSymlookup mem { map with baseaddr := base } p) s
      ((base + sym.stValue) % 2 ^ 64) s := by
  have himage : ElfImage mem { map with baseaddr := base } c := { h with }
  obtain ⟨r, s', hr, rfl, rfl⟩ := himage.symlookup hp s
  have heq : lookupOf { map with baseaddr := base } c name = (base + sym.stValue) % 2 ^ 64 := by
    rw [lookupOf, hsym]
    exact (if_neg hdef.1).trans (if_neg hdef.2)
  rwa [heq] at hr

/-- With a base address that is `b` less the lowest virtual address, the symbols are found
only if that is 0. -/
theorem findsLoaded_iff {base : ℕ} (h : ElfImage mem map c) (hq : StrAt mem q name)
    (hsym : c.symNamed name = some sym) (hdef : sym.Defined)
    (hsum : (base + lowestVaddr phdrs) % 2 ^ 64 = b % 2 ^ 64) (s : σ) :
    FindsLoaded mem { map with baseaddr := base } c b s ↔ ∃ phdr ∈ phdrs, phdr.pVaddr = 0 := by
  have hlow : lowestVaddr phdrs < 2 ^ 64 := (foldl_min_le _).trans_lt (by decide)
  rw [← lowestVaddr_eq_zero]
  constructor
  · intro hall
    have hfound := h.symlookup_base base hq hsym hdef s
    have := (hfound.unique (hall name q sym hq hsym hdef)).1
    omega
  · intro hzero name p sym hp hsym hdef
    have heq : (sym.stValue + b) % 2 ^ 64 = (base + sym.stValue) % 2 ^ 64 := by omega
    rw [heq]
    exact h.symlookup_base base hp hsym hdef s

/-- With the base address that `cldm_elf_baseaddr` computes, `cldm_elf_symlookup` finds the
symbols where they are loaded if and only if some program header has the virtual address 0. -/
theorem elf_symlookup_loaded (h : ElfImage mem map c) (hph : PhdrsAt mem map off phdrs)
    (hq : StrAt mem q mainStr) (hmain : c.symNamed mainStr = some sym) (hdef : sym.Defined)
    (b : ℕ) (s : σ) : ∃ base,
      Returns (elfBaseaddr mem map q ((sym.stValue + b) % 2 ^ 64)) s base s ∧
      (FindsLoaded mem { map with baseaddr := base } c b s ↔
        ∃ phdr ∈ phdrs, phdr.pVaddr = 0) := by
  obtain ⟨base, s', hret, -, hsum, rfl⟩ := elfBaseaddr_spec h hph hq hmain hdef b s
  exact ⟨base, hret, findsLoaded_iff h hq hmain hdef hsum s'⟩

end Lookup

/-! ### An executable -/

/-- `main` and `f`. -/
def mainTable : List UInt8 := 0 :: mainStr ++ [0, 102, 0]

/-- The symbols of the two functions. -/
def mainSyms (vaddr : ℕ) : List ElfSym := [⟨0, 0, 0⟩, ⟨1, 1, vaddr + 0x100⟩, ⟨6, 1, vaddr + 0x200⟩]

/-- An executable with one segment, at `vaddr`, and the string `main` after its end. -/
def mainBytes (vaddr : ℕ) : List UInt8 :=
  List.replicate 16 0 ++ leBytes 2 etExec ++ List.replicate 14 0 ++ leBytes 8 272 ++
    leBytes 8 64 ++ List.replicate 6 0 ++ leBytes 2 phdrSize ++ leBytes 2 1 ++ leBytes 2 64 ++
    leBytes 2 2 ++ leBytes 2 0 ++ shdrBytes 2 192 72 ++ shdrBytes 3 264 mainTable.length ++
    (mainSyms vaddr).flatMap symBytes ++ mainTable ++ List.replicate 16 0 ++ leBytes 8 vaddr ++
    List.replicate 32 0 ++ mainStr ++ [0]

/-- The map of the executable at address 4096. -/
def mainMap (vaddr : ℕ) : Elfmap := imageMap 4096 (mainSyms vaddr) mainTable

theorem main_image {vaddr : ℕ} (h : vaddr = 0 ∨ vaddr = 0x400000) :
    ElfImage (memOf 4096 (mainBytes vaddr)) (mainMap vaddr)
        (imageContents (mainSyms vaddr) mainTable) ∧
      PhdrsAt (memOf 4096 (mainBytes vaddr)) (mainMap vaddr) 272 [⟨vaddr⟩] ∧
      StrAt (memOf 4096 (mainBytes vaddr)) (4096 + 328) mainStr ∧
      (imageContents (mainSyms vaddr) mainTable).symNamed mainStr =
        some ⟨1, 1, vaddr + 0x100⟩ := by
  have hphdr : PhdrAt (memOf 4096 (mainBytes vaddr)) (4096 + 272) ⟨vaddr⟩ := by
    refine ⟨List.replicate 16 0 ++ leBytes 8 vaddr ++ List.replicate 32 0, ?_, ?_⟩
    all_goals rcases h with rfl | rfl <;> decide +kernel
  rcases h with rfl | rfl
  all_goals
    refine ⟨?_, ⟨by decide +kernel, by decide +kernel, by decide +kernel, ?_⟩, ⟨?_, by decide⟩,
      by decide +kernel⟩
    · exact elfImage_of_bytes (by decide) (by decide +kernel) (by decide +kernel)
        (by decide +kernel) (by decide +kernel) (by decide +kernel) (by decide +kernel)
        (by decide +kernel) (by decide +kernel)
    · rintro (_ | i) phdr hi
      · obtain rfl := Option.some.inj hi
        exact hphdr
      · exact absurd hi (by simp)
    · show bytesAt _ _ 5 = some _
      decide +kernel

theorem elf_symlookup_loaded_zero : ∃ base,
    Returns (elfBaseaddr (memOf 4096 (mainBytes 0)) (mainMap 0) (4096 + 328) 0x555500000100) ()
      base () ∧
    FindsLoaded (memOf 4096 (mainBytes 0)) { mainMap 0 with baseaddr := base }
      (imageContents (mainSyms 0) mainTable) 0x555500000000 () := by
  obtain ⟨himage, hph, hq, hmain⟩ := main_image (.inl rfl)
  obtain ⟨base, hbase, hiff⟩ :=
    elf_symlookup_loaded himage hph hq hmain ⟨by decide, by decide⟩ 0x555500000000 ()
  exact ⟨base, hbase, hiff.mpr ⟨_, List.mem_singleton_self _, rfl⟩⟩

/-- An executable that is not relocated, with its only segment at 0x400000: the symbols are
not found where they are. -/
theorem elf_symlookup_misses : ∃ base,
    elfIsExecutable (memOf 4096 (mainBytes 0x400000)) (mainMap 0x400000) () = some (true, ()) ∧
    Returns (elfBaseaddr (memOf 4096 (mainBytes 0x400000)) (mainMap 0x400000) (4096 + 328) 0x400100)
      () base () ∧
    ¬ FindsLoaded (memOf 4096 (mainBytes 0x400000)) { mainMap 0x400000 with baseaddr := base }
      (imageContents (mainSyms 0x400000) mainTable) 0 () := by
  obtain ⟨himage, hph, hq, hmain⟩ := main_image (.inr rfl)
  have hdef : ElfSym.Defined ⟨1, 1, 0x400000 + 0x100⟩ := ⟨by decide, by decide⟩
  obtain ⟨base, s', hbase, -, hsum, rfl⟩ := elfBaseaddr_spec himage hph hq hmain hdef 0 ()
  refine ⟨base, by decide +kernel, hbase, fun hall => ?_⟩
  obtain ⟨phdr, hmem, hzero⟩ := (findsLoaded_iff himage hq hmain hdef hsum ()).mp hall
  rw [List.mem_singleton.mp hmem] at hzero
  exact absurd hzero (by decide)

end Cldm
