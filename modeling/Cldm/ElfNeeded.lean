/-
The libraries that the executable needs (`cldm_elf_read_needed`).

The names of the `DT_NEEDED` entries are copied to a buffer one after the other, each with
its terminator.  Writes outside the buffer are faults.

* `readNeededOf` — the value returned, from the lengths of the names;
* `elfReadNeeded_spec` — a run of `cldm_elf_read_needed`;
* `elf_read_needed_list` — the value is negative or tells the length of the whole list just
  where the buffer is not empty and no part of the names fills it exactly, or there is only
  one name;
* `elf_read_needed_truncates` — two names, the first of which fills the buffer.
-/
import Cldm.ElfBytes
import Mathlib.Data.List.Forall2

namespace Cldm

open Prog Bytes

/-- The part of `struct cldm_elfmap` that is used here as well. -/
structure ElfDynmap extends Elfmap where
  shstrtab : ℕ
  dynstr : Strtab

/-- `Elf64_Dyn`. -/
structure ElfDyn where
  dTag : ℕ
  dVal : ℕ
  deriving DecidableEq, Repr

/-- `sizeof(Elf64_Dyn)`. -/
abbrev dynSize : ℕ := 16

/-- `SHT_DYNAMIC`. -/
abbrev shtDynamic : ℕ := 6

/-- `DT_NEEDED`. -/
abbrev dtNeeded : ℕ := 1

/-- The buffer can be written. -/
def inBuffer (buffer bufsize a : ℕ) : Bool := buffer ≤ a ∧ a < buffer + bufsize

section Definitions

variable {σ : Type}

/-- One turn of the loop of `cldm_elf_section`. -/
def elfSectionBody (mem : Mem) (map : ElfDynmap) (type secname fuel i : ℕ) : Prog σ (ℕ ⊕ ℕ) := do
  let shnum ← readField mem (map.addr + 60) 2
  if i < shnum then
    let addr ← elfShdr mem map.toElfmap i
    let shdr ← readShdr mem addr
    let shName ← readField mem addr 4
    if shdr.shType = type then
      let diff ← strcmp mem (map.shstrtab + shName) secname fuel
      return if diff = 0 then .inr addr else .inl ((i + 1) % 2 ^ 16)
    else
      return .inl ((i + 1) % 2 ^ 16)
  else
    return .inr 0

/-- `cldm_elf_section`; 0 for a null pointer. -/
def elfSection (mem : Mem) (map : ElfDynmap) (type secname fuel : ℕ) : Prog σ ℕ :=
  fuelLoop (elfSectionBody mem map type secname fuel) fuel 0

/-- `cldm_memcpy(&dyn, p, sizeof(dyn))`. -/
def readDyn (mem : Mem) (p : ℕ) : Prog σ ElfDyn := do
  let bs ← readBytes mem p dynSize
  return { dTag := field bs 0 8, dVal := field bs 8 8 }

/-- Write bytes; a fault where memory cannot be written. -/
def writeTo (writable : ℕ → Bool) (p : ℕ) (bs : List UInt8) : Prog Mem Unit := fun mem =>
  if ∀ i < bs.length, writable (p + i) = true ∧ (mem (p + i)).isSome = true then
    some ((), store mem p bs)
  else none

/-- `cldm_strscpy`; it returns the length or `-E2BIG`. -/
def strscpyTo (writable : ℕ → Bool) (dst src dstsize fuel : ℕ) : Prog Mem ℤ := do
  let mem ← get
  let srclen ← strlen mem src fuel
  if srclen < dstsize then
    let bytes ← readBytes mem src (srclen + 1)
    writeTo writable dst bytes
    return srclen
  else
    let bytes ← readBytes mem src dstsize
    writeTo writable dst bytes
    writeTo writable (dst + dstsize - 1) [0]
    return -7

/-- One turn of the loop of `cldm_elf_read_needed`, with the index and the offset. -/
def readNeededBody (map : ElfDynmap) (shdr : ElfShdr) (buffer bufsize fuel : ℕ) (v : ℕ × ℕ) :
    Prog Mem ((ℕ × ℕ) ⊕ ℤ) := do
  if v.1 < shdr.shSize then
    let mem ← get
    let dyn ← readDyn mem (map.addr + shdr.shOffset + v.1)
    if dyn.dTag = dtNeeded then
      let nbytes ← strscpyTo (inBuffer buffer bufsize) (buffer + v.2) (map.dynstr.addr + dyn.dVal)
        ((bufsize + 2 ^ 64 - v.2) % 2 ^ 64) fuel
      if nbytes < 0 ∨ bufsize ≤ (v.2 + nbytes.toNat + 1) % 2 ^ 64 then
        return .inr nbytes
      else
        return .inl ((v.1 + dynSize) % 2 ^ 64, v.2 + nbytes.toNat + 1)
    else
      return .inl ((v.1 + dynSize) % 2 ^ 64, v.2)
  else
    return .inr (v.2 - 1)

/-- `cldm_elf_read_needed`, where the string `".dynamic"` lies at `dynName`. -/
def elfReadNeeded (map : ElfDynmap) (dynName buffer bufsize fuel : ℕ) : Prog Mem ℤ := do
  let mem ← get
  let dynamic ← elfSection mem map shtDynamic dynName fuel
  if dynamic = 0 then
    return -1
  else
    let shdr ← readShdr mem dynamic
    fuelLoop (readNeededBody map shdr buffer bufsize fuel) fuel (0, 0)

end Definitions

/-! ### The dynamic section -/

/-- A section: its header, the offset of its name, and the name. -/
structure DynSection where
  shdr : ElfShdr
  shName : ℕ
  name : List UInt8

/-- What an image contains that has a dynamic section: the sections, the entries, and the
names of the libraries that are needed. -/
structure DynContents where
  shoff : ℕ
  shentsize : ℕ
  secs : List DynSection
  dynamic : DynSection
  dyns : List ElfDyn
  needed : List (List UInt8)

/-- The address of a section header. -/
def DynContents.hdr (c : DynContents) (map : ElfDynmap) (i : ℕ) : ℕ :=
  map.addr + c.shoff + i * c.shentsize

/-- The bytes at address `p` are those of the entry `dyn`. -/
def DynAt (mem : Mem) (p : ℕ) (dyn : ElfDyn) : Prop :=
  ∃ bs, bytesAt mem p dynSize = some bs ∧ dyn = { dTag := field bs 0 8, dVal := field bs 8 8 }

/-- `".dynamic"`. -/
def dynamicStr : List UInt8 := [46, 100, 121, 110, 97, 109, 105, 99]

/-- An image with a dynamic section is mapped. -/
structure DynImage (mem : Mem) (map : ElfDynmap) (c : DynContents) : Prop where
  addr_pos : 0 < map.addr
  shoff : (bytesAt mem (map.addr + 40) 8).map ofLe = some c.shoff
  shentsize : (bytesAt mem (map.addr + 58) 2).map ofLe = some c.shentsize
  shnum : (bytesAt mem (map.addr + 60) 2).map ofLe = some c.secs.length
  secs : ∀ i sec, c.secs[i]? = some sec → ShdrAt mem (c.hdr map i) sec.shdr ∧
    (bytesAt mem (c.hdr map i) 4).map ofLe = some sec.shName ∧
    StrAt mem (map.shstrtab + sec.shName) sec.name
  /-- `c.dynamic` is the first dynamic section with its name. -/
  dynamic : ∃ before after, c.secs = before ++ c.dynamic :: after ∧
    (c.dynamic.shdr.shType = shtDynamic ∧ c.dynamic.name = dynamicStr) ∧
    ∀ sec ∈ before, ¬ (sec.shdr.shType = shtDynamic ∧ sec.name = dynamicStr)
  shSize_eq : c.dynamic.shdr.shSize = c.dyns.length * dynSize
  dyns : ∀ j dyn, c.dyns[j]? = some dyn →
    DynAt mem (map.addr + c.dynamic.shdr.shOffset + j * dynSize) dyn
  needed : List.Forall₂ (fun dyn name => StrAt mem (map.dynstr.addr + dyn.dVal) name)
    (c.dyns.filter fun dyn => dyn.dTag = dtNeeded) c.needed

/-- The value that `cldm_elf_read_needed` returns, from the offset `off` on. -/
def readNeededOf (bufsize : ℕ) : ℕ → List (List UInt8) → ℤ
  | off, [] => off - 1
  | off, name :: names =>
    if bufsize ≤ off + name.length then -7
    else if off + name.length + 1 = bufsize then name.length
    else readNeededOf bufsize (off + name.length + 1) names

attribute [grind =] readNeededOf

section Reading

variable {σ : Type} {mem mem' s s' : Mem} {map : ElfDynmap} {c : DynContents}
  {buffer bufsize p q off : ℕ} {name : List UInt8} {w : ℕ → Bool}

theorem readDyn_eq {dyn : ElfDyn} (h : DynAt mem p dyn) (t : σ) :
    (readDyn mem p : Prog σ ElfDyn) t = some (dyn, t) := by
  obtain ⟨bs, hbs, rfl⟩ := h
  exact bind_some (readBytes_eq hbs t) rfl

theorem DynImage.part (h : DynImage mem map c) (hpart : Part mem mem') :
    DynImage mem' map c := by
  have hfield : ∀ {q n v : ℕ}, (bytesAt mem q n).map ofLe = some v →
      (bytesAt mem' q n).map ofLe = some v := by
    intro q n v hv
    obtain ⟨bs, hbs, hv⟩ := Option.map_eq_some_iff.mp hv
    rw [hpart.bytesAt hbs, Option.map_some, hv]
  refine ⟨h.addr_pos, hfield h.shoff, hfield h.shentsize, hfield h.shnum, fun i sec hi => ?_,
    h.dynamic, h.shSize_eq, fun j dyn hj => ?_, h.needed.imp fun _ _ => hpart.strAt⟩
  · obtain ⟨⟨bs, hbs, heq⟩, hname, hstr⟩ := h.secs i sec hi
    exact ⟨⟨bs, hpart.bytesAt hbs, heq⟩, hfield hname, hpart.strAt hstr⟩
  · obtain ⟨bs, hbs, heq⟩ := h.dyns j dyn hj
    exact ⟨bs, hpart.bytesAt hbs, heq⟩

theorem DynImage.elfShdr_eq (h : DynImage mem map c) (i : ℕ) (t : σ) :
    (elfShdr mem map.toElfmap i : Prog σ ℕ) t = some (c.hdr map i, t) :=
  bind_some (readField_eq h.shoff t) (bind_some (readField_eq h.shentsize t) rfl)

/-- `cldm_elf_section` finds the dynamic section. -/
theorem DynImage.section (h : DynImage mem map c) (hq : StrAt mem q dynamicStr) (t : σ) :
    Total (elfSection mem map shtDynamic q) (fun r t' => t' = t ∧ r ≠ 0 ∧
      ShdrAt mem r c.dynamic.shdr) t := by
  obtain ⟨before, after, hsplit, hdyn, hbefore⟩ := h.dynamic
  have hnum : c.secs.length < 2 ^ 16 := by
    obtain ⟨bs, hbs, heq⟩ := Option.map_eq_some_iff.mp h.shnum
    have := ofLe_lt bs
    rw [length_bytesAt hbs] at this
    omega
  have hlen : before.length < c.secs.length := by
    rw [hsplit]
    simp
  -- the sections before the dynamic one are passed over
  let I : ℕ → ℕ → σ → Prop := fun b i t' => t' = t ∧ i ≤ before.length ∧ b = before.length - i
  refine total_loop (I := I) ?_ before.length 0 t ⟨rfl, Nat.zero_le _, rfl⟩
  rintro b i t' ⟨rfl, hi, rfl⟩
  have hlt : i < c.secs.length := by omega
  obtain ⟨sec, hget⟩ : ∃ sec, c.secs[i]? = some sec := ⟨_, List.getElem?_eq_getElem hlt⟩
  obtain ⟨hshdr, hfield, hname⟩ := h.secs i _ hget
  have hnext : (i + 1) % 2 ^ 16 = i + 1 := Nat.mod_eq_of_lt (by omega)
  -- any other section is one of those before
  have hcont : ¬ (sec.shdr.shType = shtDynamic ∧ sec.name = dynamicStr) →
      I (before.length - (i + 1)) (i + 1) t' ∧ before.length - (i + 1) < before.length - i := by
    intro hother
    have hne : i ≠ before.length := by
      rintro rfl
      rw [hsplit, List.getElem?_append_right (Nat.le_refl _), Nat.sub_self] at hget
      rw [← Option.some.inj hget] at hother
      exact hother hdyn
    exact ⟨⟨rfl, by omega, rfl⟩, by omega⟩
  have hhere : sec.shdr.shType = shtDynamic ∧ sec.name = dynamicStr →
      sec = c.dynamic := by
    intro hthis
    rcases Nat.lt_or_eq_of_le hi with hlt' | rfl
    · rw [hsplit, List.getElem?_append_left hlt'] at hget
      exact absurd hthis (hbefore _ (List.mem_of_getElem? hget))
    · rw [hsplit, List.getElem?_append_right (Nat.le_refl _), Nat.sub_self] at hget
      exact (Option.some.inj hget).symm
  refine Total.wp_bind ((wp_of_some (readField_eq h.shnum t')).mpr ?_)
  simp only [if_pos hlt]
  refine Total.wp_bind ((wp_of_some (h.elfShdr_eq i t')).mpr ?_)
  refine Total.wp_bind ((wp_of_some (readShdr_eq hshdr t')).mpr ?_)
  refine Total.wp_bind ((wp_of_some (readField_eq hfield t')).mpr ?_)
  by_cases htype : sec.shdr.shType = shtDynamic
  · simp only [if_pos htype]
    refine Total.bind ((strcmp_spec hname hq t').mono ?_)
    rintro d t'' ⟨rfl, rfl⟩
    refine Total.const ((wp_pure ..).mpr ?_)
    by_cases hd : strcmpOf sec.name dynamicStr = 0
    · have hsame := hhere ⟨htype, (strcmpOf_eq_zero hname.nonzero hq.nonzero).mp hd⟩
      have hpos := h.addr_pos
      rw [hsame] at hshdr
      rw [if_pos hd]
      refine ⟨rfl, ?_, hshdr⟩
      rw [DynContents.hdr]
      omega
    · rw [if_neg hd, hnext]
      obtain ⟨hI, hdec⟩ := hcont fun hthis =>
        hd ((strcmpOf_eq_zero hname.nonzero hq.nonzero).mpr hthis.2)
      exact ⟨_, hdec, hI⟩
  · simp only [if_neg htype]
    refine Total.const ((wp_pure ..).mpr ?_)
    rw [hnext]
    obtain ⟨hI, hdec⟩ := hcont fun hthis => htype hthis.1
    exact ⟨_, hdec, hI⟩

/-! ### Copying a name -/

theorem writeTo_eq {bs : List UInt8}
    (h : ∀ i < bs.length, w (p + i) = true ∧ (s (p + i)).isSome = true) :
    writeTo w p bs s = some ((), store s p bs) := if_pos h

/-- A name that fits is copied with its terminator. -/
theorem strscpyTo_fits {dst src dstsize : ℕ} (h : StrAt s src name) (hfits : name.length < dstsize)
    (hw : ∀ i < dstsize, w (dst + i) = true ∧ (s (dst + i)).isSome = true) :
    Total (strscpyTo w dst src dstsize) (fun r s' => r = name.length ∧
      s' = store s dst (name ++ [0])) s := by
  refine Total.wp_bind ((wp_get ..).mpr (((strlen_spec h.stringAt s).mono ?_).bind))
  rintro len _ ⟨rfl, rfl⟩
  simp only [if_pos hfits]
  refine Total.wp_bind ((wp_of_some (readBytes_eq h.bytes _)).mpr ?_)
  refine Total.wp_bind ((wp_of_some (writeTo_eq fun i hi => hw i ?_)).mpr ?_)
  · rw [List.length_append, List.length_singleton] at hi
    omega
  · exact Total.const ((wp_pure ..).mpr ⟨rfl, rfl⟩)

/-- Of a name that does not fit, the front is copied. -/
theorem strscpyTo_long {dst src dstsize : ℕ} (h : StrAt s src name) (hlong : dstsize ≤ name.length)
    (hpos : 0 < dstsize) (hw : ∀ i < dstsize, w (dst + i) = true ∧ (s (dst + i)).isSome = true) :
    Total (strscpyTo w dst src dstsize) (fun r s' => r = -7 ∧ readOnly w s' = readOnly w s) s := by
  refine Total.wp_bind ((wp_get ..).mpr (((strlen_spec h.stringAt s).mono ?_).bind))
  rintro len s' ⟨rfl, rfl⟩
  simp only [if_neg (Nat.not_lt.mpr hlong)]
  have hread := bytesAt_take h.bytesAt hlong
  have hlen : (name.take dstsize).length = dstsize := by
    rw [List.length_take, Nat.min_eq_left hlong]
  refine Total.wp_bind ((wp_of_some (readBytes_eq hread _)).mpr ?_)
  refine Total.wp_bind ((wp_of_some (writeTo_eq fun i hi => hw i (hlen ▸ hi))).mpr ?_)
  have hlast : dst + dstsize - 1 = dst + (dstsize - 1) := by omega
  rw [hlast]
  refine Total.wp_bind ((wp_of_some (writeTo_eq fun i hi => ?_)).mpr ?_)
  · have hi' : dst + (dstsize - 1) + i = dst + (dstsize - 1) := by
      rw [List.length_singleton] at hi
      omega
    rw [hi']
    obtain ⟨hw₁, hw₂⟩ := hw (dstsize - 1) (by omega)
    exact ⟨hw₁, isSome_store hw₂⟩
  · refine Total.const ((wp_pure ..).mpr ⟨rfl, ?_⟩)
    rw [readOnly_store, readOnly_store]
    · exact fun i hi => (hw i (hlen ▸ hi)).1
    · intro i hi
      have hi' : dst + (dstsize - 1) + i = dst + (dstsize - 1) := by
        rw [List.length_singleton] at hi
        omega
      rw [hi']
      exact (hw (dstsize - 1) (by omega)).1

/-- Where nothing can be written, the terminator of an empty copy is a fault. -/
theorem strscpyTo_empty {dst src : ℕ} (hw : ∀ a, w a = false) (n : ℕ) :
    strscpyTo w dst src 0 n s = none := by
  rw [← Option.not_isSome_iff_eq_none, Option.isSome_iff_exists]
  rintro ⟨r, h⟩
  obtain ⟨m, s₁, -, h⟩ := bind_eq_some.mp h
  obtain ⟨len, s₂, -, h⟩ := bind_eq_some.mp h
  rw [if_neg (Nat.not_lt_zero _)] at h
  obtain ⟨bs, s₃, -, h⟩ := bind_eq_some.mp h
  obtain ⟨_, s₄, -, h⟩ := bind_eq_some.mp h
  obtain ⟨_, s₅, hwrite, -⟩ := bind_eq_some.mp h
  simp only [writeTo] at hwrite
  split_ifs at hwrite with hall
  have := (hall 0 (by simp)).1
  rw [hw] at this
  cases this

/-! ### The loop over the entries -/

theorem fuelMono_strscpyTo (w : ℕ → Bool) (dst src dstsize : ℕ) :
    FuelMono (strscpyTo w dst src dstsize) :=
  (FuelMono.const _).bind fun _ => (fuelMono_strlen _ _).bind fun _ => .const _

theorem fuelMono_readNeededBody (map : ElfDynmap) (shdr : ElfShdr) (buffer bufsize : ℕ)
    (v : ℕ × ℕ) : FuelMono fun n => readNeededBody map shdr buffer bufsize n v := by
  refine .ite _ ?_ (.const _)
  refine (FuelMono.const _).bind fun _ => (FuelMono.const _).bind fun _ => .ite _ ?_ (.const _)
  exact (fuelMono_strscpyTo _ _ _ _).bind fun _ => .const _

theorem fuelMono_elfSection (mem : Mem) (map : ElfDynmap) (type secname : ℕ) :
    FuelMono (elfSection mem map type secname : ℕ → Prog σ ℕ) := by
  refine .loop (fun i => ?_) 0
  refine (FuelMono.const _).bind fun _ => .ite _ ?_ (.const _)
  refine (FuelMono.const _).bind fun _ => (FuelMono.const _).bind fun _ =>
    (FuelMono.const _).bind fun _ => .ite _ ?_ (.const _)
  exact (fuelMono_strcmp _ _ _).bind fun _ => .const _

/-- The buffer is an object apart from the image. -/
structure BufferAt (s : Mem) (buffer bufsize : ℕ) : Prop where
  lt : bufsize < 2 ^ 63
  accessible : Accessible s buffer bufsize

/-- The part of the list that is in the buffer before a turn of the loop. -/
structure Copied (s : Mem) (names : List (List UInt8)) (buffer bufsize : ℕ)
    (done rest : List (List UInt8)) (s' : Mem) : Prop where
  split : names = done ++ rest
  readOnly_eq : readOnly (inBuffer buffer bufsize) s' = readOnly (inBuffer buffer bufsize) s
  object : BufferAt s' buffer bufsize
  bytes : bytesAt s' buffer (tableBytes done).length = some (tableBytes done)
  lt : (tableBytes done).length < bufsize ∨ bufsize = 0 ∧ done = []
  result : readNeededOf bufsize 0 names = readNeededOf bufsize (tableBytes done).length rest

/-- What `cldm_elf_read_needed` leaves: nothing outside the buffer is changed, and where
the value returned tells the length of the list, the list is in the buffer. -/
structure ReadNeeded (s : Mem) (names : List (List UInt8)) (buffer bufsize : ℕ) (r : ℤ)
    (s' : Mem) : Prop where
  nonempty : bufsize ≠ 0
  readOnly_eq : readOnly (inBuffer buffer bufsize) s' = readOnly (inBuffer buffer bufsize) s
  result : r = readNeededOf bufsize 0 names
  bytes : r + 1 = (tableBytes names).length →
    bytesAt s' buffer (tableBytes names).length = some (tableBytes names)

theorem inBuffer_iff {a : ℕ} : inBuffer buffer bufsize a = true ↔
    buffer ≤ a ∧ a < buffer + bufsize := decide_eq_true_iff

/-- A name behind those that are in the buffer. -/
theorem bytesAt_store_append {as : List UInt8} (bs : List UInt8) (h : bytesAt s p as.length = some as) :
    bytesAt (store s (p + as.length) bs) p (as ++ bs).length = some (as ++ bs) := by
  refine bytesAt_eq_iff.mpr ⟨rfl, fun i hi => ?_⟩
  rw [List.length_append] at hi
  rw [List.getElem?_append]
  by_cases hlt : i < as.length
  · rw [store_of_notMem (by omega), if_pos hlt]
    exact (bytesAt_eq_iff.mp h).2 i hlt
  · rw [store_of_mem (by omega), if_neg hlt]
    congr 1
    omega

variable {names done rest : List (List UInt8)}

/-- Where the buffer is empty, the first name makes the run fail. -/
theorem Copied.pos (h : Copied s names buffer bufsize done rest s') (hne : bufsize ≠ 0) :
    (tableBytes done).length < bufsize := h.lt.resolve_right fun hzero => hne hzero.1

/-- Copying the next name. -/
theorem Copied.next (h : Copied s names buffer bufsize done (name :: rest) s')
    (hsrc : StrAt s' p name) (hne : bufsize ≠ 0) :
    Total (strscpyTo (inBuffer buffer bufsize) (buffer + (tableBytes done).length) p
      ((bufsize + 2 ^ 64 - (tableBytes done).length) % 2 ^ 64)) (fun r s'' =>
      if r < 0 ∨ bufsize ≤ ((tableBytes done).length + r.toNat + 1) % 2 ^ 64 then
        ReadNeeded s names buffer bufsize r s''
      else r.toNat = name.length ∧
        Copied s names buffer bufsize (done ++ [name]) rest s'') s' := by
  have hoff := h.pos hne
  have hlt := h.object.lt
  have hdst : (bufsize + 2 ^ 64 - (tableBytes done).length) % 2 ^ 64 =
      bufsize - (tableBytes done).length := by omega
  rw [hdst]
  have hw : ∀ i < bufsize - (tableBytes done).length,
      inBuffer buffer bufsize (buffer + (tableBytes done).length + i) = true ∧
      (s' (buffer + (tableBytes done).length + i)).isSome = true := by
    intro i hi
    refine ⟨inBuffer_iff.mpr (by omega), ?_⟩
    rw [Nat.add_assoc]
    exact h.object.accessible _ (by omega)
  have hresult := h.result
  rw [readNeededOf] at hresult
  by_cases hfits : name.length < bufsize - (tableBytes done).length
  · rw [if_neg (by omega)] at hresult
    refine (strscpyTo_fits hsrc hfits hw).mono ?_
    rintro r s'' ⟨rfl, rfl⟩
    have hro : readOnly (inBuffer buffer bufsize)
        (store s' (buffer + (tableBytes done).length) (name ++ [0])) =
        readOnly (inBuffer buffer bufsize) s := by
      rw [readOnly_store fun i hi => (hw i ?_).1, h.readOnly_eq]
      rw [List.length_append, List.length_singleton] at hi
      omega
    have hbytes := bytesAt_store_append (name ++ [0]) h.bytes
    have htable : tableBytes done ++ (name ++ [0]) = tableBytes (done ++ [name]) := by
      rw [tableBytes_append]
      exact congrArg (tableBytes done ++ ·) (List.append_nil _).symm
    have hlen := length_tableBytes_snoc done name
    rw [htable] at hbytes
    rw [Int.toNat_natCast]
    by_cases hfull : (tableBytes done).length + name.length + 1 = bufsize
    · -- the value is the length of the last name that was copied
      rw [if_pos hfull] at hresult
      rw [if_pos (.inr (by omega))]
      refine ⟨hne, hro, hresult.symm, fun hall => ?_⟩
      have hrest : rest = [] := by
        rw [h.split, tableBytes_append, List.length_append, length_tableBytes_cons] at hall
        cases rest with
        | nil => rfl
        | cons x xs =>
          rw [length_tableBytes_cons] at hall
          omega
      rw [h.split, hrest]
      exact hbytes
    · rw [if_neg hfull] at hresult
      rw [if_neg (by omega)]
      refine ⟨rfl, ?_, hro, ⟨hlt, h.object.accessible.store _ _⟩, hbytes, .inl (by omega), ?_⟩
      · rw [h.split, List.append_assoc]
        rfl
      · rw [hresult, hlen]
  · rw [if_pos (by omega)] at hresult
    refine (strscpyTo_long hsrc (by omega) (by omega) hw).mono ?_
    rintro r s'' ⟨rfl, hro⟩
    rw [if_pos (.inl (by decide))]
    refine ⟨hne, hro.trans h.readOnly_eq, hresult.symm, fun hall => ?_⟩
    omega

/-- The loop of `cldm_elf_read_needed`; it fails on an empty buffer. -/
theorem readNeeded_loop (h : DynImage (readOnly (inBuffer buffer bufsize) s) map c)
    (hbuf : BufferAt s buffer bufsize) (hneeded : c.needed ≠ []) :
    Settles (fun n => fuelLoop (readNeededBody map c.dynamic.shdr buffer bufsize n) n (0, 0))
      (ReadNeeded s c.needed buffer bufsize) (bufsize = 0) s := by
  have hsize := h.shSize_eq
  have hlt : c.dynamic.shdr.shSize < 2 ^ 64 := by
    obtain ⟨before, after, hsplit, -⟩ := h.dynamic
    obtain ⟨⟨bs, -, heq⟩, -⟩ := h.secs before.length c.dynamic (by rw [hsplit]; simp)
    rw [heq]
    exact field_lt bs 32 8
  -- the names of the entries from the index on are still to be copied
  let I : ℕ → ℕ × ℕ → Mem → Prop := fun k v s' => ∃ done rest j,
    v = (j * dynSize, (tableBytes done).length) ∧ j ≤ c.dyns.length ∧
    Copied s c.needed buffer bufsize done rest s' ∧
    List.Forall₂ (fun dyn name => StrAt (readOnly (inBuffer buffer bufsize) s)
      (map.dynstr.addr + dyn.dVal) name)
      ((c.dyns.drop j).filter fun dyn => dyn.dTag = dtNeeded) rest ∧
    k = c.dyns.length - j
  have hstart : Copied s c.needed buffer bufsize [] c.needed s :=
    ⟨rfl, rfl, hbuf, rfl, (Nat.eq_zero_or_pos bufsize).symm.imp_right fun h0 => ⟨h0, rfl⟩, rfl⟩
  refine settles_loop (I := I) (fuelMono_readNeededBody map _ buffer bufsize) ?_ c.dyns.length (0, 0)
    s ⟨[], c.needed, 0, rfl, Nat.zero_le _, hstart, h.needed, rfl⟩
  rintro k _ s' ⟨done, rest, j, rfl, hj, hcopied, hrest, rfl⟩
  have hpart : Part (readOnly (inBuffer buffer bufsize) s) s' :=
    hcopied.readOnly_eq ▸ part_readOnly _ s'
  rcases Nat.lt_or_eq_of_le hj with hlt' | rfl
  · have hget : c.dyns[j]? = some c.dyns[j] := List.getElem?_eq_getElem hlt'
    have hjlt : j * dynSize < c.dynamic.shdr.shSize := by
      rw [hsize]
      exact Nat.mul_lt_mul_of_pos_right hlt' (by decide)
    have hnext : (j * dynSize + dynSize) % 2 ^ 64 = (j + 1) * dynSize := by
      rw [← Nat.succ_mul]
      refine Nat.mod_eq_of_lt (lt_of_le_of_lt ?_ hlt)
      rw [hsize]
      exact Nat.mul_le_mul_right _ hlt'
    rw [List.drop_eq_getElem_cons hlt', List.filter_cons] at hrest
    simp only [readNeededBody, if_pos hjlt]
    refine Settles.wp_bind ((wp_get ..).mpr ?_)
    refine Settles.wp_bind ((wp_of_some (readDyn_eq ((h.part hpart).dyns j _ hget) s')).mpr ?_)
    by_cases htag : c.dyns[j].dTag = dtNeeded
    · rw [if_pos (by simpa using htag)] at hrest
      obtain ⟨name, rest', hname, hrest', rfl⟩ := List.forall₂_cons_left_iff.mp hrest
      simp only [if_pos htag]
      by_cases h0 : bufsize = 0
      · subst h0
        have hdone : done = [] := (hcopied.lt.resolve_left (Nat.not_lt_zero _)).2
        subst hdone
        refine .inr ⟨rfl, fun n => ?_⟩
        have hw : ∀ a, inBuffer buffer 0 a = false := fun a => decide_eq_false (by omega)
        have hzero : (0 + 2 ^ 64 - (tableBytes []).length) % 2 ^ 64 = 0 := by decide
        dsimp only
        rw [bind_apply, hzero, strscpyTo_empty hw]
        rfl
      · refine Settles.bind (fuelMono_strscpyTo _ _ _ _)
          ((hcopied.next (hpart.strAt hname) h0).settles.mono ?_)
        intro r s'' hr
        refine .const (.inl ?_)
        by_cases hstop : r < 0 ∨ bufsize ≤ ((tableBytes done).length + r.toNat + 1) % 2 ^ 64
        · rw [if_pos hstop] at hr ⊢
          exact (wp_pure ..).mpr hr
        · rw [if_neg hstop] at hr ⊢
          refine (wp_pure ..).mpr ⟨_, Nat.sub_lt_sub_left hlt' (Nat.lt_succ_self j),
            done ++ [name], rest', j + 1, ?_, hlt', hr.2, hrest', rfl⟩
          rw [hnext, hr.1, length_tableBytes_snoc]
    · rw [if_neg (by simpa using htag)] at hrest
      simp only [if_neg htag]
      refine .const (.inl ((wp_pure ..).mpr ?_))
      rw [hnext]
      exact ⟨_, Nat.sub_lt_sub_left hlt' (Nat.lt_succ_self j), done, rest, j + 1, rfl, hlt', hcopied,
        hrest, rfl⟩
  · have hjlt : ¬ c.dyns.length * dynSize < c.dynamic.shdr.shSize := by
      rw [hsize]
      exact Nat.lt_irrefl _
    simp only [readNeededBody, if_neg hjlt]
    refine .const (.inl ((wp_pure ..).mpr ?_))
    rw [List.drop_length, List.filter_nil, List.forall₂_nil_left_iff] at hrest
    subst hrest
    have hall : c.needed = done := by
      rw [hcopied.split, List.append_nil]
    have hbytes := hcopied.bytes
    have hpos : (tableBytes done).length < bufsize := by
      refine hcopied.lt.resolve_right fun hzero => hneeded ?_
      rw [hall, hzero.2]
    refine ⟨by omega, hcopied.readOnly_eq, hcopied.result.symm, fun _ => ?_⟩
    rw [hall]
    exact hbytes

/-- A run of `cldm_elf_read_needed` ends, but on an empty buffer. -/
theorem elfReadNeeded_spec (h : DynImage (readOnly (inBuffer buffer bufsize) s) map c)
    (hq : StrAt (readOnly (inBuffer buffer bufsize) s) q dynamicStr)
    (hbuf : BufferAt s buffer bufsize) (hneeded : c.needed ≠ []) :
    Settles (elfReadNeeded map q buffer bufsize) (ReadNeeded s c.needed buffer bufsize)
      (bufsize = 0) s := by
  have hpart := part_readOnly (inBuffer buffer bufsize) s
  refine Settles.wp_bind ((wp_get ..).mpr ?_)
  refine Settles.bind (fuelMono_elfSection _ _ _ _)
    (((h.part hpart).section (hpart.strAt hq) s).settles.mono ?_)
  rintro r s' ⟨rfl, hr, hshdr⟩
  simp only [if_neg hr]
  refine Settles.wp_bind ((wp_of_some (readShdr_eq hshdr s')).mpr ?_)
  exact readNeeded_loop h hbuf hneeded

/-! ### The value returned -/

theorem length_lt_tableBytes {x : List UInt8} {xs : List (List UInt8)} (hx : x ∈ xs) :
    x.length < (tableBytes xs).length := by
  induction xs with
  | nil => exact absurd hx List.not_mem_nil
  | cons y ys ih =>
    rw [length_tableBytes_cons]
    rcases List.mem_cons.mp hx with rfl | hx
    · omega
    · have := ih hx
      omega

/-- A list that is no longer than one of its names consists of that name. -/
theorem length_eq_one_of_tableBytes {x : List UInt8} {xs : List (List UInt8)} (hx : x ∈ xs)
    (h : (tableBytes xs).length = x.length + 1) : xs.length = 1 := by
  rcases xs with _ | ⟨y, _ | ⟨z, zs⟩⟩
  · exact absurd hx List.not_mem_nil
  · rfl
  · rw [length_tableBytes_cons] at h
    rcases List.mem_cons.mp hx with rfl | hx
    · rw [length_tableBytes_cons] at h
      omega
    · have := length_lt_tableBytes hx
      omega

/-- The first `k` names fill the rest of the buffer exactly, for some `k`. -/
def FillsFrom (bufsize off : ℕ) (names : List (List UInt8)) : Prop :=
  ∃ k, off + (tableBytes (names.take k)).length = bufsize

theorem fillsFrom_cons (hoff : off < bufsize) : FillsFrom bufsize off (name :: names) ↔
    FillsFrom bufsize (off + name.length + 1) names := by
  constructor
  · rintro ⟨_ | k, hk⟩
    · rw [List.take_zero] at hk
      exact absurd hk (Nat.ne_of_lt hoff)
    · refine ⟨k, ?_⟩
      rw [List.take_succ_cons, length_tableBytes_cons] at hk
      omega
  · rintro ⟨k, hk⟩
    refine ⟨k + 1, ?_⟩
    rw [List.take_succ_cons, length_tableBytes_cons]
    omega

theorem FillsFrom.le (h : FillsFrom bufsize off names) : off ≤ bufsize := by
  obtain ⟨k, hk⟩ := h
  omega

/-- Where some names fill the buffer, the length of one of them is returned. -/
theorem readNeededOf_fills (hoff : off < bufsize) (h : FillsFrom bufsize off names) :
    ∃ name ∈ names, readNeededOf bufsize off names = name.length := by
  induction names generalizing off with
  | nil =>
    obtain ⟨k, hk⟩ := h
    rw [List.take_nil] at hk
    exact absurd hk (Nat.ne_of_lt hoff)
  | cons name names ih =>
    rw [fillsFrom_cons hoff] at h
    have hle := h.le
    rw [readNeededOf, if_neg (by omega)]
    by_cases hfull : off + name.length + 1 = bufsize
    · rw [if_pos hfull]
      exact ⟨name, List.mem_cons_self .., rfl⟩
    · rw [if_neg hfull]
      obtain ⟨x, hx, heq⟩ := ih (by omega) h
      exact ⟨x, List.mem_cons_of_mem _ hx, heq⟩

/-- Otherwise the value is negative, or tells the length of the list. -/
theorem readNeededOf_not_fills (h : ¬ FillsFrom bufsize off names) (hoff : off < bufsize) :
    readNeededOf bufsize off names < 0 ∨
      readNeededOf bufsize off names + 1 = (off + (tableBytes names).length : ℕ) := by
  induction names generalizing off with
  | nil =>
    refine .inr ?_
    rw [readNeededOf]
    show (off : ℤ) - 1 + 1 = ((off + 0 : ℕ) : ℤ)
    omega
  | cons name names ih =>
    rw [fillsFrom_cons hoff] at h
    rw [readNeededOf]
    by_cases hlong : bufsize ≤ off + name.length
    · rw [if_pos hlong]
      exact .inl (by decide)
    · have hfull : off + name.length + 1 ≠ bufsize := fun heq => h ⟨0, heq⟩
      rw [if_neg hlong, if_neg hfull, length_tableBytes_cons, ← Nat.add_assoc, ← Nat.add_assoc]
      exact ih h (by omega)

/-- `cldm_elf_read_needed` returns a negative value, or `r ≥ 0` where the list of all names
fills the buffer up to index `r`; it changes nothing outside the buffer. -/
def ReadsNeeded (map : ElfDynmap) (q buffer bufsize : ℕ) (names : List (List UInt8)) (s : Mem) :
    Prop :=
  Total (elfReadNeeded map q buffer bufsize) (fun r s' =>
    readOnly (inBuffer buffer bufsize) s' = readOnly (inBuffer buffer bufsize) s ∧
    (r < 0 ∨ ∃ n : ℕ, r = n ∧ bytesAt s' buffer (n + 1) = some (tableBytes names))) s

/-- This is so if and only if the buffer is not empty and no part of the names, from the
first one on, fills it exactly, or there is only one name. -/
theorem elf_read_needed_list (h : DynImage (readOnly (inBuffer buffer bufsize) s) map c)
    (hq : StrAt (readOnly (inBuffer buffer bufsize) s) q dynamicStr)
    (hbuf : BufferAt s buffer bufsize) (hneeded : c.needed ≠ []) :
    ReadsNeeded map q buffer bufsize c.needed s ↔
      bufsize ≠ 0 ∧ (c.needed.length = 1 ∨
        ∀ k, (tableBytes (c.needed.take k)).length ≠ bufsize) := by
  have hspec := elfReadNeeded_spec h hq hbuf hneeded
  have hfills : FillsFrom bufsize 0 c.needed ↔
      ∃ k, (tableBytes (c.needed.take k)).length = bufsize := by
    simp only [FillsFrom, Nat.zero_add]
  rw [← not_exists, ← hfills]
  constructor
  · rintro ⟨r, s', hret, -, hr⟩
    obtain ⟨hne, -, hresult, -⟩ := hspec.of_returns hret
    refine ⟨hne, or_iff_not_imp_right.mpr fun hfill => ?_⟩
    obtain ⟨name, hname, heq⟩ := readNeededOf_fills (by omega) (not_not.mp hfill)
    rw [← hresult] at heq
    obtain ⟨n, hn, hbytes⟩ := hr.resolve_left (by omega)
    have hlen := length_bytesAt hbytes
    exact length_eq_one_of_tableBytes hname (by omega)
  · rintro ⟨hne, hor⟩
    refine (hspec.total hne).mono ?_
    rintro r s' ⟨-, hro, rfl, hbytes⟩
    refine ⟨hro, ?_⟩
    have hvalue : readNeededOf bufsize 0 c.needed < 0 ∨
        readNeededOf bufsize 0 c.needed + 1 = (tableBytes c.needed).length := by
      by_cases hfill : FillsFrom bufsize 0 c.needed
      · obtain ⟨x, hx⟩ := List.length_eq_one_iff.mp (hor.resolve_right (not_not.mpr hfill))
        obtain ⟨name, hname, heq⟩ := readNeededOf_fills (by omega) hfill
        rw [hx, List.mem_singleton] at hname
        rw [heq, hx, length_tableBytes_cons, hname]
        exact .inr rfl
      · have := readNeededOf_not_fills hfill (by omega)
        rwa [Nat.zero_add] at this
    obtain ⟨x, hx⟩ := List.exists_mem_of_ne_nil _ hneeded
    have hpos := length_lt_tableBytes hx
    refine hvalue.imp_right fun hlen => ⟨(tableBytes c.needed).length - 1, by omega, ?_⟩
    rw [Nat.sub_add_cancel (by omega)]
    exact hbytes hlen

end Reading

/-! ### Two libraries -/

/-- An image that needs the libraries `a` and `b`. -/
def neededBytes : List UInt8 :=
  List.replicate 40 0 ++ leBytes 8 64 ++ List.replicate 10 0 ++ leBytes 2 64 ++ leBytes 2 1 ++
    leBytes 2 0 ++ shdrBytes shtDynamic 128 32 ++ leBytes 8 dtNeeded ++ leBytes 8 0 ++
    leBytes 8 dtNeeded ++ leBytes 8 2 ++ dynamicStr ++ [0, 97, 0, 98, 0]

/-- Its map at address 4096. -/
def neededMap : ElfDynmap where
  addr := 4096
  strtab := ⟨0, 0⟩
  baseaddr := 0
  shstrtab := 4096 + 160
  dynstr := ⟨4096 + 169, 3⟩

/-- What it contains. -/
def neededContents : DynContents where
  shoff := 64
  shentsize := 64
  secs := [⟨⟨shtDynamic, 128, 32⟩, 0, dynamicStr⟩]
  dynamic := ⟨⟨shtDynamic, 128, 32⟩, 0, dynamicStr⟩
  dyns := [⟨dtNeeded, 0⟩, ⟨dtNeeded, 2⟩]
  needed := [[97], [98]]

/-- The image, and a buffer at address 8192. -/
def neededMem (bufsize : ℕ) : Mem := fun a =>
  if a < 8192 then memOf 4096 neededBytes a else if a < 8192 + bufsize then some 0 else none

theorem needed_readOnly (bufsize : ℕ) :
    readOnly (inBuffer 8192 bufsize) (neededMem bufsize) = memOf 4096 neededBytes := by
  funext a
  rw [readOnly, neededMem]
  by_cases ha : a < 8192
  · rw [if_neg (by rw [inBuffer_iff]; omega), if_pos ha]
  · have hmem : memOf 4096 neededBytes a = none := by
      have : neededBytes.length = 173 := by decide +kernel
      rw [memOf, if_pos (by omega), List.getElem?_eq_none (by omega)]
    rw [if_neg ha, hmem]
    by_cases hlt : a < 8192 + bufsize
    · rw [if_pos (inBuffer_iff.mpr ⟨by omega, hlt⟩)]
    · rw [if_neg (by rw [inBuffer_iff]; omega), if_neg hlt]

theorem needed_image : DynImage (memOf 4096 neededBytes) neededMap neededContents ∧
    StrAt (memOf 4096 neededBytes) (4096 + 160) dynamicStr := by
  have hname : StrAt (memOf 4096 neededBytes) (4096 + 160) dynamicStr :=
    ⟨by decide +kernel, by decide⟩
  refine ⟨⟨by decide, by decide +kernel, by decide +kernel, by decide +kernel, ?_,
    ⟨[], [], rfl, ⟨rfl, rfl⟩, fun _ h => absurd h List.not_mem_nil⟩, rfl, ?_, ?_⟩, hname⟩
  · rintro (_ | i) sec hi
    · obtain rfl := Option.some.inj hi
      exact ⟨shdrAt_of_ok (by decide +kernel), by decide +kernel, hname⟩
    · exact absurd hi (by simp [neededContents])
  · rintro (_ | _ | i) dyn hi
    · obtain rfl := Option.some.inj hi
      exact ⟨leBytes 8 dtNeeded ++ leBytes 8 0, by decide +kernel, by decide +kernel⟩
    · obtain rfl := Option.some.inj hi
      exact ⟨leBytes 8 dtNeeded ++ leBytes 8 2, by decide +kernel, by decide +kernel⟩
    · exact absurd hi (by simp [neededContents])
  · exact .cons ⟨by decide +kernel, by decide⟩ (.cons ⟨by decide +kernel, by decide⟩ .nil)

theorem needed_buffer {bufsize : ℕ} (h : bufsize < 2 ^ 63) :
    BufferAt (neededMem bufsize) 8192 bufsize := by
  refine ⟨h, fun i hi => ?_⟩
  rw [neededMem, if_neg (by omega), if_pos (by omega)]
  rfl

theorem elf_read_needed_list_two :
    ReadsNeeded neededMap (4096 + 160) 8192 16 neededContents.needed (neededMem 16) := by
  refine (elf_read_needed_list ?_ ?_ (needed_buffer (by decide)) (by decide)).mpr
    ⟨by decide, .inr fun k => ?_⟩
  · rw [needed_readOnly]
    exact needed_image.1
  · rw [needed_readOnly]
    exact needed_image.2
  · have hle : (tableBytes (neededContents.needed.take k)).length ≤ 4 := by
      rcases k with _ | _ | k
      · decide
      · decide
      · rw [List.take_of_length_le (show 2 ≤ k + 2 by omega)]
        decide
    omega

/-- The names `a` and `b` and a buffer of two bytes: the value is 1, as if `a` were the
whole list. -/
theorem elf_read_needed_truncates :
    (∃ s', Returns (elfReadNeeded neededMap (4096 + 160) 8192 2) (neededMem 2) 1 s') ∧
    ¬ ReadsNeeded neededMap (4096 + 160) 8192 2 neededContents.needed (neededMem 2) := by
  have hspec : Settles (elfReadNeeded neededMap (4096 + 160) 8192 2)
      (ReadNeeded (neededMem 2) neededContents.needed 8192 2) (2 = 0) (neededMem 2) := by
    refine elfReadNeeded_spec ?_ ?_ (needed_buffer (by decide)) (by decide)
    · rw [needed_readOnly]
      exact needed_image.1
    · rw [needed_readOnly]
      exact needed_image.2
  obtain ⟨r, s', hret, -, -, hr, -⟩ := hspec.total (by decide)
  have hone : r = 1 := hr.trans (by decide)
  rw [hone] at hret
  refine ⟨⟨s', hret⟩, fun hall => ?_⟩
  obtain ⟨-, hneg | ⟨n, hn, hbytes⟩⟩ := hall.of_returns hret
  · exact absurd hneg (by decide)
  · have hlen := length_bytesAt hbytes
    have hfour : (tableBytes neededContents.needed).length = 4 := by decide
    omega

end Cldm
