/-
Mapping an executable (`cldm_map_elf`).

The bytes of the file are the memory at the address that `mmap` returns.  The string
tables `.strtab` and `.dynstr` are found by their names, and the last one with a name
counts.

* `mapSectionsOf` — the string tables, from the sections;
* `SectionsAt.mapSections` — `cldm_elf_map_sections` finds them;
* `map_elf_symlookup` — after `cldm_map_elf`, the symbols are found where they are
  loaded just where some program header has the virtual address 0;
* `map_elf_closes` — every run that opens the file closes it.
-/
import Cldm.ElfBase
import Cldm.ElfNeeded

namespace Cldm

open Prog Bytes

/-- `SHT_STRTAB`. -/
abbrev shtStrtab : ℕ := 3

/-- The calls by `cldm_map_elf`: `open` and `mmap` where they succeed, `munmap` and `close`. -/
inductive MapCall where
  | opened
  | mapped
  | unmapped
  | closed
  deriving DecidableEq, Repr

/-- The answers of `open`, `fstat` and `mmap`. -/
structure MapEnv where
  opens : Bool
  fstats : Bool
  mmap : Option ℕ

section Definitions

variable {σ : Type}

/-- `cldm_elf_shstrtab`; 0 for a null pointer. -/
def elfShstrtab (mem : Mem) (map : Elfmap) : Prog σ ℕ := do
  let shstrndx ← readField mem (map.addr + 62) 2
  if shstrndx = shnUndef then
    return 0
  else
    let hdr ← elfShdr mem map shstrndx
    let shdr ← readShdr mem hdr
    return map.addr + shdr.shOffset

/-- One turn of the loop of `cldm_elf_map_sections`, with the index and the two headers. -/
def mapSectionsBody (mem : Mem) (map : ElfDynmap) (strtabName dynstrName fuel : ℕ)
    (v : ℕ × ℕ × ℕ) : Prog σ ((ℕ × ℕ × ℕ) ⊕ (ℕ × ℕ)) := do
  let shnum ← readField mem (map.addr + 60) 2
  if v.1 < shnum then
    let addr ← elfShdr mem map.toElfmap v.1
    let shdr ← readShdr mem addr
    let shName ← readField mem addr 4
    if shdr.shType = shtStrtab then
      let diff ← strcmp mem (map.shstrtab + shName) strtabName fuel
      if diff = 0 then
        return .inl ((v.1 + 1) % 2 ^ 16, addr, v.2.2)
      else
        let diff ← strcmp mem (map.shstrtab + shName) dynstrName fuel
        return if diff = 0 then .inl ((v.1 + 1) % 2 ^ 16, v.2.1, addr)
          else .inl ((v.1 + 1) % 2 ^ 16, v.2)
    else
      return .inl ((v.1 + 1) % 2 ^ 16, v.2)
  else
    return .inr v.2

/-- `if(hdr) cldm_map_strtab(strtab, mapaddr, hdr)`. -/
def mapStrtabIf (mem : Mem) (strtab : Strtab) (mapaddr hdr : ℕ) : Prog σ Strtab :=
  if hdr = 0 then return strtab else mapStrtab mem mapaddr hdr

/-- `cldm_elf_map_sections`, where the two names lie at `strtabName` and `dynstrName`. -/
def elfMapSections (mem : Mem) (map : ElfDynmap) (strtabName dynstrName fuel : ℕ) :
    Prog σ (ElfDynmap × ℕ) := do
  let hdrs ← fuelLoop (mapSectionsBody mem map strtabName dynstrName fuel) fuel (0, 0, 0)
  let strtab ← mapStrtabIf mem map.strtab map.addr hdrs.1
  let dynstr ← mapStrtabIf mem map.dynstr map.addr hdrs.2
  return ({ map with strtab, dynstr },
    (if hdrs.1 = 0 then 0 else 1) + (if hdrs.2 = 0 then 0 else 1))

def mapCall (c : MapCall) : Prog (List MapCall) Unit := modify (· ++ [c])

/-- `cldm_map_elf` from the mapping of the file to the label `epilogue`. -/
def mapElfImage (mem : Mem) (addr strtabName dynstrName mainName main fuel : ℕ) :
    Prog (List MapCall) (ElfDynmap × ℤ) := do
  let map : ElfDynmap :=
    { addr, strtab := ⟨0, 0⟩, baseaddr := 0, shstrtab := 0, dynstr := ⟨0, 0⟩ }
  let shstrtab ← elfShstrtab mem map.toElfmap
  if shstrtab = 0 then
    mapCall .unmapped
    return (map, -1)
  else
    let mapped ← elfMapSections mem { map with shstrtab } strtabName dynstrName fuel
    if mapped.2 ≠ 2 then
      return (mapped.1, -1)
    else
      let baseaddr ← elfBaseaddr mem mapped.1.toElfmap mainName main fuel
      return ({ mapped.1 with baseaddr }, if baseaddr = 0 then -1 else 0)

/-- `cldm_map_elf` from the opening of the file to the label `epilogue`; a file that is
mapped has the bytes that memory has there. -/
def mapElfFile (mem : Mem) (env : MapEnv) (map : ElfDynmap)
    (strtabName dynstrName mainName main fuel : ℕ) : Prog (List MapCall) (ElfDynmap × ℤ) :=
  match env.fstats, env.mmap with
  | true, some addr => do
    mapCall .mapped
    mapElfImage mem addr strtabName dynstrName mainName main fuel
  | _, _ => return (map, -1)

/-- `cldm_map_elf`. -/
def mapElf (mem : Mem) (env : MapEnv) (map : ElfDynmap)
    (strtabName dynstrName mainName main fuel : ℕ) : Prog (List MapCall) (ElfDynmap × ℤ) := do
  if env.opens then
    mapCall .opened
    let result ← mapElfFile mem env map strtabName dynstrName mainName main fuel
    mapCall .closed
    return result
  else
    return (map, -1)

end Definitions

/-! ### Sections -/

/-- `".strtab"`. -/
def strtabStr : List UInt8 := [46, 115, 116, 114, 116, 97, 98]

/-- `".dynstr"`. -/
def dynstrStr : List UInt8 := [46, 100, 121, 110, 115, 116, 114]

/-- The section is a string table with the name. -/
def DynSection.IsTable (name : List UInt8) (sec : DynSection) : Bool :=
  sec.shdr.shType = shtStrtab ∧ sec.name = name

/-- The last string table with a name. -/
def lastTable (name : List UInt8) (secs : List DynSection) : Option DynSection :=
  secs.reverse.find? (·.IsTable name)

/-- A string table in the image at `addr`, less its last byte. -/
def strtabOf (addr : ℕ) (shdr : ElfShdr) : Strtab :=
  ⟨addr + shdr.shOffset, (shdr.shSize + (2 ^ 64 - 1)) % 2 ^ 64⟩

/-- What `cldm_elf_map_sections` makes of a map, and the number of tables that it finds. -/
def mapSectionsOf (map : ElfDynmap) (secs : List DynSection) : ElfDynmap × ℕ :=
  let table (name : List UInt8) (strtab : Strtab) :=
    ((lastTable name secs).map fun sec => strtabOf map.addr sec.shdr).getD strtab
  ({ map with strtab := table strtabStr map.strtab, dynstr := table dynstrStr map.dynstr },
    (lastTable strtabStr secs).toList.length + (lastTable dynstrStr secs).toList.length)

/-- The section headers of an image, `off` bytes after its beginning and `entsize` bytes
each, and the names of the sections. -/
structure SectionsAt (mem : Mem) (map : ElfDynmap) (off entsize : ℕ)
    (secs : List DynSection) : Prop where
  addr_pos : 0 < map.addr
  shoff : (bytesAt mem (map.addr + 40) 8).map ofLe = some off
  shentsize : (bytesAt mem (map.addr + 58) 2).map ofLe = some entsize
  shnum : (bytesAt mem (map.addr + 60) 2).map ofLe = some secs.length
  secs : ∀ i sec, secs[i]? = some sec → ShdrAt mem (map.addr + off + i * entsize) sec.shdr ∧
    (bytesAt mem (map.addr + off + i * entsize) 4).map ofLe = some sec.shName ∧
    StrAt mem (map.shstrtab + sec.shName) sec.name

section Sections

variable {σ : Type} {mem : Mem} {map : ElfDynmap} {off entsize p q hdr : ℕ}
  {secs : List DynSection} {name : List UInt8} {sec : DynSection}

theorem lastTable_snoc : lastTable name (secs ++ [sec]) =
    if sec.IsTable name then some sec else lastTable name secs := by
  rw [lastTable, List.reverse_append, List.reverse_singleton, List.singleton_append,
    List.find?_cons]
  cases sec.IsTable name <;> rfl

theorem DynSection.isTable_iff :
    sec.IsTable name = true ↔ sec.shdr.shType = shtStrtab ∧ sec.name = name := by
  rw [IsTable, decide_eq_true_iff]

/-- A pointer to the header of the last string table with a name; null if there is none. -/
def HdrOf (mem : Mem) (name : List UInt8) (secs : List DynSection) (hdr : ℕ) : Prop :=
  match lastTable name secs with
  | none => hdr = 0
  | some sec => hdr ≠ 0 ∧ ShdrAt mem hdr sec.shdr

theorem HdrOf.found (htable : sec.IsTable name = true) (hpos : hdr ≠ 0)
    (hshdr : ShdrAt mem hdr sec.shdr) : HdrOf mem name (secs ++ [sec]) hdr := by
  rw [HdrOf, lastTable_snoc, if_pos htable]
  exact ⟨hpos, hshdr⟩

theorem HdrOf.skip (h : HdrOf mem name secs hdr) (htable : ¬ sec.IsTable name = true) :
    HdrOf mem name (secs ++ [sec]) hdr := by
  rwa [HdrOf, lastTable_snoc, if_neg htable]

theorem HdrOf.ne_zero_iff (h : HdrOf mem name secs hdr) :
    (if hdr = 0 then 0 else 1) = (lastTable name secs).toList.length := by
  rw [HdrOf] at h
  cases hlast : lastTable name secs with
  | none =>
    rw [hlast] at h
    exact if_pos h
  | some sec =>
    rw [hlast] at h
    exact if_neg h.1

theorem HdrOf.mapStrtab (h : HdrOf mem name secs hdr) (strtab : Strtab) (addr : ℕ) (s : σ) :
    (mapStrtabIf mem strtab addr hdr : Prog σ Strtab) s =
      some (((lastTable name secs).map fun sec => strtabOf addr sec.shdr).getD strtab, s) := by
  rw [HdrOf] at h
  cases hlast : lastTable name secs with
  | none =>
    rw [hlast] at h
    rw [mapStrtabIf, if_pos h]
    rfl
  | some sec =>
    rw [hlast] at h
    rw [mapStrtabIf, if_neg h.1]
    exact bind_some (readShdr_eq h.2 s) rfl

theorem SectionsAt.elfShdr_eq (h : SectionsAt mem map off entsize secs) (i : ℕ) (s : σ) :
    (elfShdr mem map.toElfmap i : Prog σ ℕ) s = some (map.addr + off + i * entsize, s) :=
  bind_some (readField_eq h.shoff s) (bind_some (readField_eq h.shentsize s) rfl)

/-- The loop ends with the headers of the last tables. -/
theorem SectionsAt.headers (h : SectionsAt mem map off entsize secs)
    (hp : StrAt mem p strtabStr) (hq : StrAt mem q dynstrStr) (s : σ) :
    Total (fun fuel => fuelLoop (mapSectionsBody mem map p q fuel) fuel (0, 0, 0))
      (fun r s' => s' = s ∧ HdrOf mem strtabStr secs r.1 ∧ HdrOf mem dynstrStr secs r.2) s := by
  have hnum : secs.length < 2 ^ 16 := by
    obtain ⟨bs, hbs, heq⟩ := Option.map_eq_some_iff.mp h.shnum
    have := ofLe_lt bs
    rw [length_bytesAt hbs] at this
    omega
  -- after `i` turns, the headers are those among the first `i` sections
  let I : ℕ → ℕ × ℕ × ℕ → σ → Prop := fun b v s' => s' = s ∧ v.1 ≤ secs.length ∧
    b = secs.length - v.1 ∧ HdrOf mem strtabStr (secs.take v.1) v.2.1 ∧
    HdrOf mem dynstrStr (secs.take v.1) v.2.2
  refine total_loop (I := I) ?_ secs.length (0, 0, 0) s ⟨rfl, Nat.zero_le _, rfl, rfl, rfl⟩
  rintro b ⟨i, hdr₁, hdr₂⟩ s' ⟨rfl, hi, rfl, h₁, h₂⟩
  dsimp only at hi h₁ h₂ ⊢
  refine Total.wp_bind ((wp_of_some (readField_eq h.shnum s')).mpr ?_)
  by_cases hlt : i < secs.length
  · obtain ⟨sec, hget⟩ : ∃ sec, secs[i]? = some sec := ⟨_, List.getElem?_eq_getElem hlt⟩
    obtain ⟨hshdr, hfield, hname⟩ := h.secs i _ hget
    have hpos : map.addr + off + i * entsize ≠ 0 := by
      have := h.addr_pos
      omega
    have hnext : (i + 1) % 2 ^ 16 = i + 1 := Nat.mod_eq_of_lt (by omega)
    have htake : secs.take (i + 1) = secs.take i ++ [sec] := by
      rw [List.take_add_one, hget]
      rfl
    have hturn : ∀ {x y : ℕ}, HdrOf mem strtabStr (secs.take i ++ [sec]) x →
        HdrOf mem dynstrStr (secs.take i ++ [sec]) y →
        ∃ b' < secs.length - i, I b' ((i + 1) % 2 ^ 16, x, y) s' := by
      intro x y hx hy
      rw [hnext]
      refine ⟨secs.length - (i + 1), by omega, rfl, hlt, rfl, ?_, ?_⟩
      · rw [htake]
        exact hx
      · rw [htake]
        exact hy
    simp only [if_pos hlt]
    refine Total.wp_bind ((wp_of_some (h.elfShdr_eq i s')).mpr ?_)
    refine Total.wp_bind ((wp_of_some (readShdr_eq hshdr s')).mpr ?_)
    refine Total.wp_bind ((wp_of_some (readField_eq hfield s')).mpr ?_)
    by_cases htype : sec.shdr.shType = shtStrtab
    · simp only [if_pos htype]
      refine Total.bind ((strcmp_spec hname hp s').mono ?_)
      rintro d s'' ⟨rfl, rfl⟩
      have htable : ∀ {str : List UInt8}, 0 ∉ str →
          (sec.IsTable str = true ↔ strcmpOf sec.name str = 0) := fun hstr => by
        rw [DynSection.isTable_iff, strcmpOf_eq_zero hname.nonzero hstr]
        exact and_iff_right htype
      by_cases hstrtab : strcmpOf sec.name strtabStr = 0
      · -- the other name is not compared
        have hother : ¬ sec.IsTable dynstrStr = true := by
          rw [DynSection.isTable_iff, (strcmpOf_eq_zero hname.nonzero hp.nonzero).mp hstrtab]
          exact fun hsame => absurd hsame.2 (by decide)
        simp only [if_pos hstrtab]
        exact Total.const ((wp_pure ..).mpr
          (hturn (.found ((htable hp.nonzero).mpr hstrtab) hpos hshdr) (h₂.skip hother)))
      · have hskip := h₁.skip (mt (htable hp.nonzero).mp hstrtab)
        simp only [if_neg hstrtab]
        refine Total.bind ((strcmp_spec hname hq s'').mono ?_)
        rintro d s' ⟨rfl, rfl⟩
        refine Total.const ((wp_pure ..).mpr ?_)
        by_cases hdynstr : strcmpOf sec.name dynstrStr = 0
        · rw [if_pos hdynstr]
          exact hturn hskip (.found ((htable hq.nonzero).mpr hdynstr) hpos hshdr)
        · rw [if_neg hdynstr]
          exact hturn hskip (h₂.skip (mt (htable hq.nonzero).mp hdynstr))
    · have hother : ∀ {str : List UInt8}, ¬ sec.IsTable str = true := fun htable =>
        htype (DynSection.isTable_iff.mp htable).1
      simp only [if_neg htype]
      exact Total.const ((wp_pure ..).mpr (hturn (h₁.skip hother) (h₂.skip hother)))
  · obtain rfl : i = secs.length := by omega
    simp only [if_neg (Nat.lt_irrefl _)]
    refine Total.const ((wp_pure ..).mpr ?_)
    rw [List.take_length] at h₁ h₂
    exact ⟨rfl, h₁, h₂⟩

/-- `cldm_elf_map_sections` maps the last tables with the two names. -/
theorem SectionsAt.mapSections (h : SectionsAt mem map off entsize secs)
    (hp : StrAt mem p strtabStr) (hq : StrAt mem q dynstrStr) (s : σ) :
    Total (elfMapSections mem map p q) (fun r s' => r = mapSectionsOf map secs ∧ s' = s) s := by
  refine Total.bind ((h.headers hp hq s).mono ?_)
  rintro ⟨hdr₁, hdr₂⟩ s' ⟨rfl, h₁, h₂⟩
  refine Total.wp_bind ((wp_of_some (h₁.mapStrtab _ _ s')).mpr ?_)
  refine Total.wp_bind ((wp_of_some (h₂.mapStrtab _ _ s')).mpr ?_)
  refine Total.const ((wp_pure ..).mpr ⟨?_, rfl⟩)
  dsimp only at h₁ h₂ ⊢
  rw [h₁.ne_zero_iff, h₂.ne_zero_iff]
  rfl

end Sections

/-! ### A file that is mapped -/

/-- The map of an image at `addr`, with its string table. -/
def ElfContents.mapAt (c : ElfContents) (addr : ℕ) : Elfmap where
  addr := addr
  strtab := strtabOf addr c.strtab
  baseaddr := 0

/-- An executable at `addr`: its image, its sections with their names, and both string
tables. -/
structure ElfFile (mem : Mem) (addr : ℕ) (c : ElfContents) (secs : List DynSection) : Prop where
  image : ElfImage mem (c.mapAt addr) c
  shdrs : c.shdrs = secs.map (·.shdr)
  /-- The section with the names. -/
  names : ∃ i names, i ≠ shnUndef ∧ (bytesAt mem (addr + 62) 2).map ofLe = some i ∧
    secs[i]? = some names ∧ ∀ j sec, secs[j]? = some sec →
      (bytesAt mem (addr + c.shoff + j * c.shentsize) 4).map ofLe = some sec.shName ∧
      StrAt mem (addr + names.shdr.shOffset + sec.shName) sec.name
  strtab : (lastTable strtabStr secs).map (·.shdr) = some c.strtab
  dynstr : (lastTable dynstrStr secs).isSome = true

section Mapping

variable {mem : Mem} {c : ElfContents} {secs : List DynSection} {addr off p q m : ℕ}
  {phdrs : List ElfPhdr} {sym : ElfSym}

/-- The string table of the image at `addr` that the last table with the name is. -/
def lastStrtab (addr : ℕ) (name : List UInt8) (secs : List DynSection) : Option Strtab :=
  (lastTable name secs).map fun sec => strtabOf addr sec.shdr

/-- Both tables are found, and the map is that of the image. -/
theorem ElfFile.mapSectionsOf_eq (h : ElfFile mem addr c secs) (shstrtab : ℕ) :
    ∃ dynstr, lastStrtab addr dynstrStr secs = some dynstr ∧
      mapSectionsOf ⟨⟨addr, ⟨0, 0⟩, 0⟩, shstrtab, ⟨0, 0⟩⟩ secs =
        (⟨c.mapAt addr, shstrtab, dynstr⟩, 2) := by
  obtain ⟨sec, hsec, hshdr⟩ := Option.map_eq_some_iff.mp h.strtab
  obtain ⟨dyn, hdyn⟩ := Option.isSome_iff_exists.mp h.dynstr
  refine ⟨strtabOf addr dyn.shdr, congrArg (Option.map _) hdyn, ?_⟩
  simp only [mapSectionsOf, hsec, hdyn, Option.map_some, Option.getD_some, Option.toList_some,
    List.length_singleton, ElfContents.mapAt, ← hshdr]

theorem ElfFile.lastStrtab_eq (h : ElfFile mem addr c secs) :
    lastStrtab addr strtabStr secs = some (c.mapAt addr).strtab := by
  obtain ⟨sec, hsec, hshdr⟩ := Option.map_eq_some_iff.mp h.strtab
  rw [lastStrtab, hsec, Option.map_some, hshdr]
  rfl

/-- With the section names, the sections can be told apart. -/
theorem ElfFile.sectionsAt (h : ElfFile mem addr c secs) (s : List MapCall) :
    ∃ shstrtab ≠ 0, elfShstrtab mem ⟨addr, ⟨0, 0⟩, 0⟩ s = some (shstrtab, s) ∧
      SectionsAt mem ⟨⟨addr, ⟨0, 0⟩, 0⟩, shstrtab, ⟨0, 0⟩⟩ c.shoff c.shentsize secs := by
  obtain ⟨i, names, hi, hndx, hnames, hsecs⟩ := h.names
  have himage := h.image
  -- the headers of the image are those of the sections
  have hshdr : ∀ j sec, secs[j]? = some sec → ShdrAt mem (c.hdr (c.mapAt addr) j) sec.shdr := by
    intro j sec hj
    refine himage.shdrs j _ ?_
    rw [h.shdrs, List.getElem?_map, hj]
    rfl
  have hpos : 0 < addr := himage.addr_pos
  refine ⟨addr + names.shdr.shOffset, by omega, ?_, hpos, himage.shoff, himage.shentsize, ?_, ?_⟩
  · refine bind_some (readField_eq hndx s) ?_
    rw [if_neg hi]
    refine bind_some (himage.elfShdr_eq i s) ?_
    exact bind_some (readShdr_eq (hshdr i _ hnames) s) rfl
  · have hnum := himage.shnum
    rwa [h.shdrs, List.length_map] at hnum
  · exact fun j sec hj => ⟨hshdr j sec hj, hsecs j sec hj⟩

/-- The mapping of a file that is well formed. -/
theorem ElfFile.mapImage (h : ElfFile mem addr c secs) (hph : PhdrsAt mem (c.mapAt addr) off phdrs)
    (hp : StrAt mem p strtabStr) (hq : StrAt mem q dynstrStr) (hm : StrAt mem m mainStr)
    (hmain : c.symNamed mainStr = some sym) (hdef : sym.Defined) (b : ℕ) (s : List MapCall) :
    Total (mapElfImage mem addr p q m ((sym.stValue + b) % 2 ^ 64)) (fun r s' =>
      ∃ base, r.1.toElfmap = { c.mapAt addr with baseaddr := base } ∧
        lastStrtab addr dynstrStr secs = some r.1.dynstr ∧
        r.2 = (if base = 0 then -1 else 0) ∧ (base + lowestVaddr phdrs) % 2 ^ 64 = b % 2 ^ 64 ∧
        s' = s) s := by
  obtain ⟨shstrtab, hpos, hread, hsecs⟩ := h.sectionsAt s
  obtain ⟨dynstr, hdynstr, hmapped⟩ := h.mapSectionsOf_eq shstrtab
  refine Total.wp_bind ((wp_of_some hread).mpr ?_)
  simp only [if_neg hpos]
  refine Total.bind ((hsecs.mapSections hp hq s).mono ?_)
  rintro r s' ⟨rfl, rfl⟩
  -- both tables are there, so that the symbols can be looked up
  rw [hmapped]
  simp only [ne_eq, not_true_eq_false, if_false]
  refine Total.bind ((elfBaseaddr_spec h.image hph hm hmain hdef b s').mono ?_)
  rintro base s'' ⟨-, hbase, rfl⟩
  exact Total.const ((wp_pure ..).mpr ⟨base, rfl, hdynstr, rfl, hbase, rfl⟩)

/-- The file stays mapped and is closed, and the string tables of the map are the last ones
with their names.  The symbols are then found where they are loaded
if and only if some program header has the virtual address 0. -/
theorem map_elf_symlookup (h : ElfFile mem addr c secs)
    (hph : PhdrsAt mem (c.mapAt addr) off phdrs) (hp : StrAt mem p strtabStr)
    (hq : StrAt mem q dynstrStr) (hm : StrAt mem m mainStr)
    (hmain : c.symNamed mainStr = some sym) (hdef : sym.Defined) (b : ℕ) (map : ElfDynmap)
    (s : List MapCall) : ∃ map',
      Returns (mapElf mem ⟨true, true, some addr⟩ map p q m ((sym.stValue + b) % 2 ^ 64)) s
        (map', if map'.baseaddr = 0 then -1 else 0) (s ++ [.opened, .mapped, .closed]) ∧
      map'.addr = addr ∧ lastStrtab addr strtabStr secs = some map'.strtab ∧
      lastStrtab addr dynstrStr secs = some map'.dynstr ∧
      (FindsLoaded mem map'.toElfmap c b () ↔ ∃ phdr ∈ phdrs, phdr.pVaddr = 0) := by
  have hrun : Total (mapElf mem ⟨true, true, some addr⟩ map p q m ((sym.stValue + b) % 2 ^ 64))
      (fun r s' => ∃ base, r.1.toElfmap = { c.mapAt addr with baseaddr := base } ∧
        lastStrtab addr dynstrStr secs = some r.1.dynstr ∧ r.2 = (if base = 0 then -1 else 0) ∧
        (base + lowestVaddr phdrs) % 2 ^ 64 = b % 2 ^ 64 ∧
        s' = s ++ [.opened, .mapped, .closed]) s := by
    refine Total.wp_bind ⟨(), s ++ [.opened], rfl, ?_⟩
    refine Total.bind (Total.wp_bind ⟨(), s ++ [.opened] ++ [.mapped], rfl, ?_⟩)
    refine (h.mapImage hph hp hq hm hmain hdef b _).mono ?_
    rintro r s' ⟨base, hmap, hdynstr, hr, hbase, rfl⟩
    refine Total.const ⟨r, s ++ [.opened] ++ [.mapped] ++ [.closed], rfl, base, hmap, hdynstr, hr,
      hbase, ?_⟩
    simp only [List.append_assoc, List.cons_append, List.nil_append]
  obtain ⟨⟨map', r⟩, s', hret, base, hmap, hdynstr, rfl, hbase, rfl⟩ := hrun
  dsimp only at hmap hdynstr
  refine ⟨map', ?_, congrArg Elfmap.addr hmap, ?_, hdynstr, ?_⟩
  · rw [show map'.baseaddr = base from congrArg Elfmap.baseaddr hmap]
    exact hret
  · rw [h.lastStrtab_eq]
    exact congrArg some (congrArg Elfmap.strtab hmap).symm
  · rw [hmap]
    exact findsLoaded_iff h.image hm hmain hdef hbase ()

end Mapping

/-! ### An executable with both string tables -/

/-- A section header with the offset of its name. -/
def namedShdrBytes (shName : ℕ) (shdr : ElfShdr) : List UInt8 :=
  leBytes 4 shName ++ (shdrBytes shdr.shType shdr.shOffset shdr.shSize).drop 4

/-- The names of its sections. -/
def sectionNames : List UInt8 := 0 :: strtabStr ++ 0 :: dynstrStr ++ [0]

/-- Its sections: the symbols, their names, an empty string, and the section names. -/
def fileSections : List DynSection :=
  [⟨⟨shtSymtab, 320, 72⟩, 0, []⟩, ⟨⟨shtStrtab, 392, 8⟩, 1, strtabStr⟩,
    ⟨⟨shtStrtab, 400, 1⟩, 9, dynstrStr⟩, ⟨⟨shtStrtab, 400, 17⟩, 0, []⟩]

/-- Its bytes, with one segment at 0. -/
def fileBytes : List UInt8 :=
  List.replicate 16 0 ++ leBytes 2 etDyn ++ List.replicate 14 0 ++ leBytes 8 417 ++
    leBytes 8 64 ++ List.replicate 6 0 ++ leBytes 2 phdrSize ++ leBytes 2 1 ++ leBytes 2 64 ++
    leBytes 2 4 ++ leBytes 2 3 ++
    fileSections.flatMap (fun sec => namedShdrBytes sec.shName sec.shdr) ++
    (mainSyms 0).flatMap symBytes ++ mainTable ++ sectionNames ++ List.replicate phdrSize 0

/-- What it contains. -/
def fileContents : ElfContents where
  shoff := 64
  shentsize := 64
  shdrs := fileSections.map (·.shdr)
  symtab := ⟨shtSymtab, 320, 72⟩
  syms := mainSyms 0
  strtab := ⟨shtStrtab, 392, 8⟩
  table := mainTable

/-- The section header `shdr` lies `k` bytes after the beginning of an image. -/
def shdrIn (bs : List UInt8) (k : ℕ) (shdr : ElfShdr) : Bool :=
  let part := (bs.drop k).take shdrSize
  k + shdrSize ≤ bs.length ∧
    shdr = { shType := field part 4 4, shOffset := field part 24 8, shSize := field part 32 8 }

/-- The symbol `sym` lies `k` bytes after the beginning of an image. -/
def symIn (bs : List UInt8) (k : ℕ) (sym : ElfSym) : Bool :=
  let part := (bs.drop k).take symSize
  k + symSize ≤ bs.length ∧
    sym = { stName := field part 0 4, stShndx := field part 6 2, stValue := field part 8 8 }

/-- The string `str` lies `k` bytes after the beginning of an image. -/
def strIn (bs : List UInt8) (k : ℕ) (str : List UInt8) : Bool :=
  k + (str.length + 1) ≤ bs.length ∧ (bs.drop k).take (str.length + 1) = str ++ [0] ∧ 0 ∉ str

section Parts

variable {p k : ℕ} {bs : List UInt8}

theorem bytesAt_memOf {n : ℕ} (h : k + n ≤ bs.length) :
    bytesAt (memOf p bs) (p + k) n = some ((bs.drop k).take n) := by
  refine bytesAt_eq_iff.mpr ⟨by rw [List.length_take, List.length_drop]; omega, fun i hi => ?_⟩
  rw [memOf, if_pos (by omega), List.getElem?_take_of_lt hi, List.getElem?_drop]
  congr 1
  omega

theorem shdrAt_memOf {shdr : ElfShdr} (h : shdrIn bs k shdr = true) :
    ShdrAt (memOf p bs) (p + k) shdr := by
  obtain ⟨hlen, heq⟩ := of_decide_eq_true h
  exact ⟨_, bytesAt_memOf hlen, heq⟩

theorem symAt_memOf {sym : ElfSym} (h : symIn bs k sym = true) :
    SymAt (memOf p bs) (p + k) sym := by
  obtain ⟨hlen, heq⟩ := of_decide_eq_true h
  exact ⟨_, bytesAt_memOf hlen, heq⟩

theorem strAt_memOf {str : List UInt8} (h : strIn bs k str = true) :
    StrAt (memOf p bs) (p + k) str := by
  obtain ⟨hlen, heq, hnonzero⟩ := of_decide_eq_true h
  exact ⟨by rw [bytesAt_memOf hlen, heq], hnonzero⟩

/-- What holds of every member of a list, by an evaluation. -/
theorem forall_getElem?_of_all {α : Type} {l : List α} {P : ℕ → α → Prop} (ok : ℕ → α → Bool)
    (hok : ∀ i x, ok i x = true → P i x)
    (h : ((List.range l.length).all fun i => (l[i]?).all (ok i)) = true) (i : ℕ) (x : α)
    (hi : l[i]? = some x) : P i x := by
  have hlt := (List.getElem?_eq_some_iff.mp hi).1
  have hall := List.all_eq_true.mp h i (List.mem_range.mpr hlt)
  rw [hi] at hall
  exact hok i x hall

end Parts

theorem file_image : ElfImage (memOf 4096 fileBytes) (fileContents.mapAt 4096) fileContents where
  addr_pos := by decide
  shoff := by decide +kernel
  shentsize := by decide +kernel
  shnum := by decide +kernel
  shdrs := by
    refine forall_getElem?_of_all (fun i => shdrIn fileBytes (64 + i * 64)) (fun i shdr h => ?_)
      (by decide +kernel)
    rw [ElfContents.hdr, Nat.add_assoc]
    exact shdrAt_memOf h
  symtab := ⟨[], fileContents.shdrs.tail, rfl, rfl, by decide⟩
  symSize_eq := rfl
  syms := by
    refine forall_getElem?_of_all (fun j => symIn fileBytes (320 + j * symSize))
      (fun j sym h => ?_) (by decide +kernel)
    rw [Nat.add_assoc]
    exact symAt_memOf h
  shndx := by decide
  stName_lt := by decide
  strtab := ⟨1, rfl, fun s => bind_some (readShdr_eq (shdrAt_memOf (p := 4096) (k := 128)
    (by decide +kernel)) s) rfl⟩
  table := (bytesAt_memOf (p := 4096) (k := 392) (by decide +kernel)).trans (by decide +kernel)
  terminated := by decide

theorem file_mapped : ElfFile (memOf 4096 fileBytes) 4096 fileContents fileSections where
  image := file_image
  shdrs := rfl
  names := by
    refine ⟨3, ⟨⟨shtStrtab, 400, 17⟩, 0, []⟩, by decide, by decide +kernel, rfl, ?_⟩
    refine forall_getElem?_of_all (fun j sec => 64 + j * 64 + 4 ≤ fileBytes.length &&
      ofLe ((fileBytes.drop (64 + j * 64)).take 4) = sec.shName &&
      strIn fileBytes (400 + sec.shName) sec.name) (fun j sec h => ?_) (by decide +kernel)
    simp only [Bool.and_eq_true, decide_eq_true_iff] at h
    obtain ⟨⟨hlen, hname⟩, hstr⟩ := h
    constructor
    · rw [Nat.add_assoc]
      exact (congrArg (Option.map ofLe) (bytesAt_memOf hlen)).trans (congrArg some hname)
    · rw [Nat.add_assoc]
      exact strAt_memOf hstr
  strtab := by decide
  dynstr := by decide

/-- The tables of its map, where its symbols are found. -/
theorem map_elf_symlookup_main : ∃ map',
    Returns (mapElf (memOf 4096 fileBytes) ⟨true, true, some 4096⟩ neededMap 4497 4505 4489
      0x555500000100) [] (map', if map'.baseaddr = 0 then -1 else 0)
      [.opened, .mapped, .closed] ∧
    map'.strtab = ⟨4096 + 392, 7⟩ ∧ map'.dynstr = ⟨4096 + 400, 0⟩ ∧
    FindsLoaded (memOf 4096 fileBytes) map'.toElfmap fileContents 0x555500000000 () := by
  have hphdr : PhdrAt (memOf 4096 fileBytes) (4096 + 417) ⟨0⟩ :=
    ⟨List.replicate phdrSize 0, (bytesAt_memOf (by decide +kernel)).trans (by decide +kernel),
      by decide +kernel⟩
  have hph : PhdrsAt (memOf 4096 fileBytes) (fileContents.mapAt 4096) 417 [⟨0⟩] := by
    refine ⟨by decide +kernel, by decide +kernel, by decide +kernel, ?_⟩
    rintro (_ | i) phdr hi
    · obtain rfl := Option.some.inj hi
      exact hphdr
    · exact absurd hi (by simp)
  obtain ⟨map', hret, -, hstrtab, hdynstr, hfinds⟩ :=
    map_elf_symlookup file_mapped hph (strAt_memOf (p := 4096) (k := 401) (by decide +kernel))
      (strAt_memOf (p := 4096) (k := 409) (by decide +kernel))
      (strAt_memOf (p := 4096) (k := 393) (by decide +kernel))
      (show fileContents.symNamed mainStr = some ⟨1, 1, 0x100⟩ by decide +kernel)
      ⟨by decide, by decide⟩ 0x555500000000 neededMap []
  exact ⟨map', hret, (Option.some.inj hstrtab).symm, (Option.some.inj hdynstr).symm,
    hfinds.mpr ⟨⟨0⟩, List.mem_singleton_self _, rfl⟩⟩

/-! ### Every run -/

section Runs

variable {σ : Type} {I : σ → Prop} {mem : Mem}

theorem preserves_readField (p n : ℕ) : Preserves I (readField mem p n) :=
  (Preserves.of_reads fun _ _ _ h => (readBytes_some h).2).bind fun _ => .pure _

theorem preserves_readShdr (p : ℕ) : Preserves I (readShdr mem p) :=
  (Preserves.of_reads fun _ _ _ h => (readBytes_some h).2).bind fun _ => .pure _

theorem preserves_readSym (p : ℕ) : Preserves I (readSym mem p) :=
  (Preserves.of_reads fun _ _ _ h => (readBytes_some h).2).bind fun _ => .pure _

theorem preserves_elfShdr (map : Elfmap) (n : ℕ) : Preserves I (elfShdr mem map n) :=
  (preserves_readField _ _).bind fun _ => (preserves_readField _ _).bind fun _ => .pure _

theorem preserves_strcmp (p q fuel : ℕ) : Preserves I (strcmp mem p q fuel) := by
  refine .loop (fun i => ?_) fuel 0
  exact (preserves_readByte _).bind fun _ => (preserves_readByte _).bind fun _ =>
    .ite _ (.pure _) (.ite _ (.pure _) (.pure _))

theorem preserves_elfShstrtab (map : Elfmap) : Preserves I (elfShstrtab mem map) :=
  (preserves_readField _ _).bind fun _ => .ite _ (.pure _)
    ((preserves_elfShdr _ _).bind fun _ => (preserves_readShdr _).bind fun _ => .pure _)

theorem preserves_mapStrtabIf (strtab : Strtab) (mapaddr hdr : ℕ) :
    Preserves I (mapStrtabIf mem strtab mapaddr hdr) :=
  .ite _ (.pure _) ((preserves_readShdr _).bind fun _ => .pure _)

theorem preserves_elfMapSections (map : ElfDynmap) (p q fuel : ℕ) :
    Preserves I (elfMapSections mem map p q fuel) := by
  refine Preserves.bind (.loop (fun v => ?_) fuel _) fun _ =>
    (preserves_mapStrtabIf _ _ _).bind fun _ => (preserves_mapStrtabIf _ _ _).bind fun _ => .pure _
  refine (preserves_readField _ _).bind fun _ => .ite _ ?_ (.pure _)
  refine (preserves_elfShdr _ _).bind fun _ => (preserves_readShdr _).bind fun _ =>
    (preserves_readField _ _).bind fun _ => .ite _ ?_ (.pure _)
  exact (preserves_strcmp _ _ _).bind fun _ => .ite _ (.pure _)
    ((preserves_strcmp _ _ _).bind fun _ => .pure _)

theorem preserves_elfSym (map : Elfmap) (symbol fuel : ℕ) :
    Preserves I (elfSym mem map symbol fuel) := by
  have htable : ∀ shdr j, Preserves I (elfSymBody mem map symbol shdr fuel j) := fun shdr j =>
    .ite _ ((preserves_readSym _).bind fun _ =>
      .ite _ ((preserves_strcmp _ _ _).bind fun _ => .pure _) (.pure _)) (.pure _)
  refine .loop (fun i => ?_) fuel 0
  refine (preserves_readField _ _).bind fun _ => .ite _ ?_ (.pure _)
  refine (preserves_elfShdr _ _).bind fun _ => (preserves_readShdr _).bind fun shdr =>
    .ite _ ?_ (.pure _)
  refine (Preserves.loop (htable shdr) fuel 0).bind fun found => ?_
  cases found <;> exact .pure _

theorem preserves_elfBaseaddr (map : Elfmap) (mainName main fuel : ℕ) :
    Preserves I (elfBaseaddr mem map mainName main fuel) := by
  refine Preserves.bind (.loop (fun v => ?_) fuel _) fun _ => ?_
  · refine (preserves_readField _ _).bind fun _ => .ite _ ?_ (.pure _)
    refine (preserves_readField _ _).bind fun _ => (preserves_readField _ _).bind fun _ =>
      .ite _ ?_ (.of_reads fun _ _ _ h => nomatch h)
    exact (Preserves.of_reads fun _ _ _ h => (readBytes_some h).2).bind (fun _ => .pure _)
      |>.bind fun _ => .pure _
  · refine (preserves_elfSym _ _ _).bind fun _ => (preserves_readSym _).bind fun _ => ?_
    exact .ite _ (.pure _) (.ite _ (.pure _)
      ((preserves_elfShdr _ _).bind fun _ => (preserves_readShdr _).bind fun _ => .pure _))

end Runs

/-- The answer `r` of a run and the calls that it made: what is opened is closed, nothing
is unmapped that was not mapped, and a file is loaded only where its base address is known. -/
structure MapOutcome (r : ElfDynmap × ℤ) (calls : List MapCall) : Prop where
  closed : calls.count .opened = calls.count .closed
  unmapped : calls.count .unmapped ≤ calls.count .mapped
  status : r.2 = 0 ∨ r.2 = -1
  loaded : r.2 = 0 → calls = [.opened, .mapped, .closed] ∧ r.1.baseaddr ≠ 0

section Outcomes

variable {mem : Mem} {addr p q m main fuel : ℕ} {r : ElfDynmap × ℤ} {s s' : List MapCall}

/-- Only without the section names is the file unmapped. -/
theorem mapElfImage_outcome (h : mapElfImage mem addr p q m main fuel s = some (r, s')) :
    s' = s ∧ (r.2 = -1 ∨ r.2 = 0 ∧ r.1.baseaddr ≠ 0) ∨ s' = s ++ [.unmapped] ∧ r.2 = -1 := by
  obtain ⟨shstrtab, s₁, hread, h⟩ := bind_eq_some.mp h
  -- whatever is only read adds no call
  have hs₁ : s₁ = s := preserves_elfShstrtab (I := (· = s)) _ s _ _ rfl hread
  rw [hs₁] at h
  by_cases hnames : shstrtab = 0
  · simp only [if_pos hnames] at h
    obtain ⟨rfl, rfl⟩ := Prod.mk.inj (Option.some.inj h)
    exact .inr ⟨rfl, rfl⟩
  simp only [if_neg hnames] at h
  obtain ⟨mapped, s₂, hmap, h⟩ := bind_eq_some.mp h
  have hs₂ : s₂ = s := preserves_elfMapSections (I := (· = s)) _ _ _ _ s _ _ rfl hmap
  rw [hs₂] at h
  by_cases htables : mapped.2 ≠ 2
  · simp only [if_pos htables] at h
    obtain ⟨rfl, rfl⟩ := Prod.mk.inj (Option.some.inj h)
    exact .inl ⟨rfl, .inl rfl⟩
  simp only [if_neg htables] at h
  obtain ⟨base, s₃, hbase, h⟩ := bind_eq_some.mp h
  have hs₃ : s₃ = s := preserves_elfBaseaddr (I := (· = s)) _ _ _ _ s _ _ rfl hbase
  rw [hs₃] at h
  obtain ⟨rfl, rfl⟩ := Prod.mk.inj (Option.some.inj h)
  refine .inl ⟨rfl, ?_⟩
  by_cases hzero : base = 0
  · exact .inl (if_pos hzero)
  · exact .inr ⟨if_neg hzero, hzero⟩

/-- Whatever the file contains and wherever `cldm_map_elf` gives up, it closes the file. -/
theorem map_elf_closes (env : MapEnv) (map : ElfDynmap)
    (h : mapElf mem env map p q m main fuel s = some (r, s')) :
    ∃ calls, s' = s ++ calls ∧ MapOutcome r calls := by
  obtain ⟨opens, fstats, mmap⟩ := env
  have hgiven : ∀ calls : List MapCall, calls.count .opened = calls.count .closed →
      calls.count .unmapped ≤ calls.count .mapped → r.2 = -1 → MapOutcome r calls :=
    fun calls hclosed hunmapped hr =>
      ⟨hclosed, hunmapped, .inr hr, fun h0 => absurd (hr.symm.trans h0) (by decide)⟩
  cases opens with
  | false =>
    obtain ⟨rfl, rfl⟩ := Prod.mk.inj (Option.some.inj h)
    exact ⟨[], (List.append_nil _).symm, hgiven _ rfl (Nat.le_refl _) rfl⟩
  | true =>
    -- what is left when there is no mapping
    have hearly : mapElf mem ⟨true, fstats, mmap⟩ map p q m main fuel s =
        some ((map, -1), s ++ [.opened] ++ [.closed]) →
        ∃ calls, s' = s ++ calls ∧ MapOutcome r calls := by
      intro hrun
      obtain ⟨rfl, rfl⟩ := Prod.mk.inj (Option.some.inj (hrun.symm.trans h))
      exact ⟨[.opened, .closed], by simp, hgiven _ rfl (Nat.le_refl _) rfl⟩
    cases fstats with
    | false => exact hearly rfl
    | true =>
      cases mmap with
      | none => exact hearly rfl
      | some addr =>
        -- the calls before the image is looked at compute
        obtain ⟨r', s₁, himage, hclose⟩ := bind_eq_some.mp
          (show (mapElfImage mem addr p q m main fuel >>= fun result => mapCall .closed >>=
            fun _ => pure result) (s ++ [.opened] ++ [.mapped]) = some (r, s') from h)
        obtain ⟨rfl, rfl⟩ := Prod.mk.inj (Option.some.inj hclose)
        rcases mapElfImage_outcome himage with ⟨rfl, hr | ⟨hr, hbase⟩⟩ | ⟨rfl, hr⟩
        · exact ⟨[.opened, .mapped, .closed], by simp, hgiven _ rfl (by decide) hr⟩
        · exact ⟨[.opened, .mapped, .closed], by simp, rfl, by decide, .inl hr,
            fun _ => ⟨rfl, hbase⟩⟩
        · exact ⟨[.opened, .mapped, .unmapped, .closed], by simp, hgiven _ rfl (by decide) hr⟩

/-- The executable with both string tables is mapped and stays so. -/
theorem map_elf_closes_main : ∃ map' calls,
    mapElf (memOf 4096 fileBytes) ⟨true, true, some 4096⟩ neededMap 4497 4505 4489 0x555500000100 20
      [] = some ((map', 0), calls) ∧ MapOutcome (map', 0) calls ∧
      calls = [.opened, .mapped, .closed] ∧ map'.baseaddr ≠ 0 := by
  have hrun : (mapElf (memOf 4096 fileBytes) ⟨true, true, some 4096⟩ neededMap 4497 4505 4489
      0x555500000100 20 []).map (fun x => x.1.2) = some 0 := by
    decide +kernel
  obtain ⟨⟨⟨map', r⟩, s'⟩, hret, hr⟩ := Option.map_eq_some_iff.mp hrun
  dsimp only at hr
  subst hr
  obtain ⟨calls, hcalls, hout⟩ := map_elf_closes _ _ hret
  rw [List.nil_append] at hcalls
  subst hcalls
  exact ⟨map', _, hret, hout, hout.loaded rfl⟩

end Outcomes

end Cldm
