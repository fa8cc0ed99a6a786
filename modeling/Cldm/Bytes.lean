/-
Memory as a partial map from addresses to bytes.

An address without a byte cannot be accessed; a program that tries faults.

* `bytesAt` — the bytes of an area, if all of them can be read;
* `store` — the memory after writing an area, and what it leaves unchanged;
* `leBytes`, `ofLe` — little-endian numbers (`ofLe_leBytes`);
* `strlen` — the length of a terminated string (`strlen_spec`).
-/
import Cldm.FuelLoop
import Mathlib.Data.Nat.Find
import Mathlib.Tactic.Ring

namespace Bytes

open Prog

/-- A memory of bytes. -/
abbrev Mem := ℕ → Option UInt8

variable {σ : Type} {mem : Mem} {p n : ℕ} {bs : List UInt8}

/-! ### Reading -/

/-- The `n` bytes from address `p` on. -/
def bytesAt (mem : Mem) : ℕ → ℕ → Option (List UInt8)
  | _, 0 => some []
  | p, n + 1 =>
    match mem p, bytesAt mem (p + 1) n with
    | some b, some bs => some (b :: bs)
    | _, _ => none

attribute [grind =] bytesAt

/-- Read memory; a fault where it cannot be read. -/
def readBytes (mem : Mem) (p n : ℕ) : Prog σ (List UInt8) :=
  fun s => (bytesAt mem p n).map fun bs => (bs, s)

theorem bytesAt_succ : bytesAt mem p (n + 1) = some bs ↔
    ∃ b bs', bs = b :: bs' ∧ mem p = some b ∧ bytesAt mem (p + 1) n = some bs' := by
  rw [bytesAt]
  split
  · rename_i b bs' hb hbs'
    rw [hb, hbs']
    constructor
    · intro h
      exact ⟨b, bs', (Option.some.inj h).symm, rfl, rfl⟩
    · rintro ⟨_, _, rfl, hb', hbs''⟩
      rw [Option.some.inj hb', Option.some.inj hbs'']
  · rename_i hno
    constructor
    · intro h
      exact absurd h (by simp)
    · rintro ⟨b, bs', rfl, hb, hbs'⟩
      exact (hno b bs' hb hbs').elim

theorem length_bytesAt (h : bytesAt mem p n = some bs) : bs.length = n := by
  induction n generalizing p bs with
  | zero =>
    obtain rfl : [] = bs := Option.some.inj h
    rfl
  | succ n ih =>
    obtain ⟨b, bs', rfl, -, h'⟩ := bytesAt_succ.mp h
    rw [List.length_cons, ih h']

/-- The first bytes of an area that can be read. -/
theorem bytesAt_take (h : bytesAt mem p n = some bs) {m : ℕ} (hm : m ≤ n) :
    bytesAt mem p m = some (bs.take m) := by
  induction m generalizing n p bs with
  | zero => rfl
  | succ m ih =>
    obtain ⟨n, rfl⟩ : ∃ n', n = n' + 1 := ⟨n - 1, by omega⟩
    obtain ⟨b, bs', rfl, hb, h'⟩ := bytesAt_succ.mp h
    exact bytesAt_succ.mpr ⟨b, bs'.take m, rfl, hb, ih h' (by omega)⟩

/-- An area holds the bytes `bs` if each address holds its byte. -/
theorem bytesAt_eq_iff : bytesAt mem p n = some bs ↔
    bs.length = n ∧ ∀ i < n, mem (p + i) = bs[i]? := by
  induction n generalizing p bs with
  | zero =>
    constructor
    · intro h
      exact ⟨length_bytesAt h, fun i hi => absurd hi (Nat.not_lt_zero i)⟩
    · rintro ⟨hlen, -⟩
      rw [List.length_eq_zero_iff.mp hlen]
      rfl
  | succ n ih =>
    rw [bytesAt_succ]
    constructor
    · rintro ⟨b, bs', rfl, hb, h'⟩
      obtain ⟨hlen, hget⟩ := ih.mp h'
      refine ⟨by rw [List.length_cons, hlen], fun i hi => ?_⟩
      cases i with
      | zero => exact hb
      | succ i =>
        rw [List.getElem?_cons_succ, ← hget i (by omega)]
        congr 1
        omega
    · rintro ⟨hlen, hget⟩
      cases bs with
      | nil => exact absurd hlen (by simp)
      | cons b bs' =>
        refine ⟨b, bs', rfl, hget 0 (by omega), ih.mpr ⟨by simpa using hlen, fun i hi => ?_⟩⟩
        have := hget (i + 1) (by omega)
        rw [List.getElem?_cons_succ] at this
        rw [← this]
        congr 1
        omega

theorem bytesAt_congr {mem' : Mem} (h : ∀ i < n, mem' (p + i) = mem (p + i)) :
    bytesAt mem' p n = bytesAt mem p n := by
  induction n generalizing p with
  | zero => rfl
  | succ n ih =>
    have h0 := h 0 (by omega)
    rw [Nat.add_zero] at h0
    have htail := ih (p := p + 1) fun i hi => by
      have := h (i + 1) (by omega)
      rwa [show p + 1 + i = p + (i + 1) by omega]
    rw [bytesAt, bytesAt, h0, htail]

/-- An area within one that can be read. -/
theorem bytesAt_drop (h : bytesAt mem p n = some bs) {off m : ℕ} (hm : off + m ≤ n) :
    bytesAt mem (p + off) m = some ((bs.drop off).take m) := by
  obtain ⟨hlen, hget⟩ := bytesAt_eq_iff.mp h
  refine bytesAt_eq_iff.mpr ⟨by rw [List.length_take, List.length_drop]; omega, fun i hi => ?_⟩
  rw [Nat.add_assoc, hget (off + i) (by omega), List.getElem?_take_of_lt hi, List.getElem?_drop]

/-- All bytes of an area can be accessed. -/
def Accessible (mem : Mem) (p n : ℕ) : Prop := ∀ i < n, (mem (p + i)).isSome = true

theorem Accessible.bytesAt (h : Accessible mem p n) : ∃ bs, bytesAt mem p n = some bs := by
  induction n generalizing p with
  | zero => exact ⟨[], rfl⟩
  | succ n ih =>
    obtain ⟨b, hb⟩ := Option.isSome_iff_exists.mp (h 0 (by omega))
    have htail : Accessible mem (p + 1) n := by
      intro i hi
      have := h (i + 1) (by omega)
      rwa [show p + 1 + i = p + (i + 1) by omega]
    obtain ⟨bs, hbs⟩ := ih htail
    exact ⟨b :: bs, bytesAt_succ.mpr ⟨b, bs, rfl, hb, hbs⟩⟩

theorem Accessible.mono (h : Accessible mem p n) {q m : ℕ} (hq : p ≤ q) (hm : q + m ≤ p + n) :
    Accessible mem q m := by
  intro i hi
  have := h (q - p + i) (by omega)
  rwa [show p + (q - p + i) = q + i by omega] at this

theorem readBytes_eq (h : bytesAt mem p n = some bs) (s : σ) :
    (readBytes mem p n : Prog σ _) s = some (bs, s) := by
  rw [readBytes, h]
  rfl

theorem readBytes_some {s s' : σ} (h : readBytes mem p n s = some (bs, s')) :
    bytesAt mem p n = some bs ∧ s' = s := by
  obtain ⟨bs', hbs, hs⟩ := Option.map_eq_some_iff.mp h
  obtain ⟨rfl, rfl⟩ := Prod.mk.inj hs
  exact ⟨hbs, rfl⟩

/-! ### Writing -/

/-- The memory after writing `bs` from address `p` on. -/
def store (mem : Mem) (p : ℕ) (bs : List UInt8) : Mem :=
  fun a => if p ≤ a ∧ a < p + bs.length then bs[a - p]? else mem a

theorem store_of_mem {a : ℕ} (h : p ≤ a ∧ a < p + bs.length) : store mem p bs a = bs[a - p]? :=
  if_pos h

theorem store_of_notMem {a : ℕ} (h : a < p ∨ p + bs.length ≤ a) : store mem p bs a = mem a :=
  if_neg (by omega)

theorem bytesAt_store (mem : Mem) (p : ℕ) (bs : List UInt8) :
    bytesAt (store mem p bs) p bs.length = some bs := by
  refine bytesAt_eq_iff.mpr ⟨rfl, fun i hi => ?_⟩
  rw [store_of_mem ⟨by omega, by omega⟩, Nat.add_sub_cancel_left]

theorem bytesAt_store_of_disjoint {q : ℕ} {bs' : List UInt8} (h : q + bs'.length ≤ p ∨ p + n ≤ q) :
    bytesAt (store mem q bs') p n = bytesAt mem p n :=
  bytesAt_congr fun i hi => store_of_notMem (by omega)

theorem isSome_store {a : ℕ} (h : (mem a).isSome = true) : (store mem p bs a).isSome = true := by
  by_cases ha : p ≤ a ∧ a < p + bs.length
  · rw [store_of_mem ha, List.getElem?_eq_getElem (by omega)]
    rfl
  · rw [store_of_notMem (by omega)]
    exact h

theorem Accessible.store (h : Accessible mem p n) (q : ℕ) (bs : List UInt8) :
    Accessible (store mem q bs) p n := fun i hi => isSome_store (h i hi)

/-! ### Little-endian numbers -/

/-- The `n` low bytes of `v`, lowest first. -/
def leBytes : ℕ → ℕ → List UInt8
  | 0, _ => []
  | n + 1, v => UInt8.ofNat v :: leBytes n (v / 256)

/-- The number with the given bytes, lowest first. -/
def ofLe : List UInt8 → ℕ
  | [] => 0
  | b :: bs => b.toNat + 256 * ofLe bs

attribute [grind =] leBytes ofLe

@[simp] theorem length_leBytes (n v : ℕ) : (leBytes n v).length = n := by
  induction n generalizing v with
  | zero => rfl
  | succ n ih => rw [leBytes, List.length_cons, ih]

theorem ofLe_leBytes {v : ℕ} (h : v < 256 ^ n) : ofLe (leBytes n v) = v := by
  induction n generalizing v with
  | zero =>
    obtain rfl : v = 0 := by simpa using h
    rfl
  | succ n ih =>
    have hdiv : v / 256 < 256 ^ n := by
      rw [Nat.div_lt_iff_lt_mul (by omega), ← Nat.pow_succ]
      exact h
    show (UInt8.ofNat v).toNat + 256 * ofLe (leBytes n (v / 256)) = v
    rw [ih hdiv, UInt8.toNat_ofNat']
    omega

theorem ofLe_lt (bs : List UInt8) : ofLe bs < 256 ^ bs.length := by
  induction bs with
  | nil => exact Nat.one_pos
  | cons b bs ih =>
    have hb : b.toNat < 256 := b.toNat_lt
    rw [ofLe, List.length_cons, pow_succ]
    omega

theorem leBytes_zero (n : ℕ) : leBytes n 0 = List.replicate n 0 := by
  induction n with
  | zero => rfl
  | succ n ih =>
    rw [leBytes, Nat.zero_div, ih]
    rfl

/-- A number that fits into its low bytes. -/
theorem leBytes_add {v : ℕ} (h : v < 256 ^ n) (m : ℕ) :
    leBytes (n + m) v = leBytes n v ++ List.replicate m 0 := by
  induction n generalizing v with
  | zero =>
    obtain rfl : v = 0 := by simpa using h
    rw [Nat.zero_add, leBytes_zero]
    rfl
  | succ n ih =>
    have hdiv : v / 256 < 256 ^ n := by
      rw [Nat.div_lt_iff_lt_mul (by omega), ← Nat.pow_succ]
      exact h
    rw [show n + 1 + m = n + m + 1 by omega, leBytes, leBytes, ih hdiv, List.cons_append]

/-! ### Strings -/

/-- One turn of `strlen`. -/
def strlenBody (mem : Mem) (p i : ℕ) : Prog σ (ℕ ⊕ ℕ) :=
  fun s => (mem (p + i)).map fun b => (if b = 0 then .inr i else .inl (i + 1), s)

/-- `strlen`. -/
def strlen (mem : Mem) (p fuel : ℕ) : Prog σ ℕ := fuelLoop (strlenBody mem p) fuel 0

/-- A string of `n` bytes with its terminator lies at address `p`. -/
def StringAt (mem : Mem) (p n : ℕ) : Prop :=
  mem (p + n) = some 0 ∧ ∀ i < n, ∃ b, mem (p + i) = some b ∧ b ≠ 0

theorem StringAt.unique (h : StringAt mem p n) {m : ℕ} (h' : StringAt mem p m) : n = m := by
  rcases Nat.lt_trichotomy n m with hlt | heq | hgt
  · obtain ⟨b, hb, hne⟩ := h'.2 n hlt
    exact absurd (Option.some.inj (hb.symm.trans h.1)) hne
  · exact heq
  · obtain ⟨b, hb, hne⟩ := h.2 m hgt
    exact absurd (Option.some.inj (hb.symm.trans h'.1)) hne

/-- A terminator behind accessible bytes ends a string. -/
theorem exists_stringAt {m : ℕ} (hacc : Accessible mem p m) (h0 : mem (p + m) = some 0) :
    ∃ n ≤ m, StringAt mem p n := by
  have hex : ∃ n, mem (p + n) = some 0 := ⟨m, h0⟩
  have hle : Nat.find hex ≤ m := Nat.find_min' hex h0
  refine ⟨Nat.find hex, hle, Nat.find_spec hex, fun i hi => ?_⟩
  obtain ⟨b, hb⟩ := Option.isSome_iff_exists.mp (hacc i (by omega))
  refine ⟨b, hb, ?_⟩
  rintro rfl
  exact Nat.find_min hex hi hb

theorem StringAt.accessible (h : StringAt mem p n) : Accessible mem p n := by
  intro i hi
  obtain ⟨b, hb, -⟩ := h.2 i hi
  rw [hb]
  rfl

theorem strlen_spec (h : StringAt mem p n) (s : σ) :
    Total (strlen mem p) (fun len s' => len = n ∧ s' = s) s := by
  let I : ℕ → ℕ → σ → Prop := fun b i s' => s' = s ∧ i ≤ n ∧ b = n - i
  have step : ∀ b i s', I b i s' → Total (fun _ => strlenBody mem p i)
      (fun r s'' => Sum.elim (fun i' => ∃ b' < b, I b' i' s'') (fun i' => i' = n ∧ s'' = s) r)
      s' := by
    rintro b i s' ⟨rfl, hi, rfl⟩
    refine Total.const ?_
    by_cases hin : i = n
    · subst hin
      refine ⟨.inr i, s', ?_, rfl, rfl⟩
      rw [strlenBody, h.1]
      rfl
    · obtain ⟨c, hc, hne⟩ := h.2 i (by omega)
      refine ⟨.inl (i + 1), s', ?_, n - (i + 1), by omega, rfl, by omega, rfl⟩
      rw [strlenBody, hc, Option.map_some, if_neg hne]
  exact total_loop step n 0 s ⟨rfl, Nat.zero_le n, rfl⟩

/-- Whatever `strlen` returns is the length of a string. -/
theorem stringAt_of_strlen {fuel len : ℕ} {s s' : σ} (h : strlen mem p fuel s = some (len, s')) :
    StringAt mem p len := by
  refine fuelLoop_partial (I := fun i _ => ∀ j < i, ∃ b, mem (p + j) = some b ∧ b ≠ 0)
    (Q := fun i _ => StringAt mem p i) ?_ fuel 0 s len s' (fun j hj => absurd hj (by omega)) h
  intro i s₁ r s₂ hI hbody
  obtain ⟨b, hb, heq⟩ := Option.map_eq_some_iff.mp hbody
  obtain ⟨rfl, rfl⟩ := Prod.mk.inj heq
  by_cases h0 : b = 0
  · rw [if_pos h0]
    exact ⟨by rw [hb, h0], hI⟩
  · rw [if_neg h0]
    intro j hj
    rcases Nat.lt_or_eq_of_le (Nat.le_of_lt_succ hj) with hlt | rfl
    · exact hI j hlt
    · exact ⟨b, hb, h0⟩

theorem strlen_partial {len : ℕ} {s s' : σ} (h : strlen mem p n s = some (len, s')) : s' = s := by
  refine fuelLoop_partial (I := fun _ s' => s' = s) (Q := fun _ s' => s' = s) ?_ n 0 s len s' rfl h
  rintro i s₁ r s₂ rfl hbody
  obtain ⟨c, -, hc⟩ := Option.map_eq_some_iff.mp hbody
  obtain ⟨rfl, rfl⟩ := Prod.mk.inj hc
  by_cases h0 : c = 0
  · rw [if_pos h0]
    rfl
  · rw [if_neg h0]
    rfl

end Bytes
