/-
Strings in memory, and comparisons of them.

* `StrAt mem p bs` — the bytes `bs` and a terminator lie at address `p`;
* `Part` — a memory that agrees with another one as far as it goes;
* `strcmpOf` — what `strcmp` returns for two strings, an order by the first
  different byte (`strcmpOf_swap`, `strcmpOf_trans`, `strcmpOf_eq_zero`);
* `strcmp`, `strncmp` — the comparisons over memory;
* `tableStrings` — the strings of a table, from terminator to terminator.
-/
import Cldm.Bytes
import Mathlib.Data.List.GetD

namespace Bytes

open Prog

variable {σ : Type} {mem mem' : Mem} {p q n : ℕ} {as bs cs : List UInt8}

/-! ### Strings -/

/-- The string `bs` with its terminator lies at address `p`. -/
structure StrAt (mem : Mem) (p : ℕ) (bs : List UInt8) : Prop where
  bytes : bytesAt mem p (bs.length + 1) = some (bs ++ [0])
  nonzero : 0 ∉ bs

theorem StrAt.get (h : StrAt mem p bs) {i : ℕ} (hi : i ≤ bs.length) :
    mem (p + i) = some (bs.getD i 0) := by
  rw [(bytesAt_eq_iff.mp h.bytes).2 i (by omega), List.getD_eq_getElem?_getD]
  rcases Nat.lt_or_eq_of_le hi with hlt | rfl
  · rw [List.getElem?_append_left hlt, List.getElem?_eq_getElem hlt, Option.getD_some]
  · simp

theorem StrAt.ne_zero (h : StrAt mem p bs) {i : ℕ} (hi : i < bs.length) : bs.getD i 0 ≠ 0 := by
  intro h0
  rw [List.getD_eq_getElem _ _ hi] at h0
  exact h.nonzero (h0 ▸ List.getElem_mem hi)

theorem StrAt.stringAt (h : StrAt mem p bs) : StringAt mem p bs.length := by
  constructor
  · rw [h.get (Nat.le_refl _)]
    simp
  · exact fun i hi => ⟨_, h.get (Nat.le_of_lt hi), h.ne_zero hi⟩

theorem StrAt.bytesAt (h : StrAt mem p bs) : bytesAt mem p bs.length = some bs := by
  rw [bytesAt_take h.bytes (Nat.le_succ _)]
  simp

/-- The string that ends at the first terminator. -/
theorem StringAt.exists_strAt (h : StringAt mem p n) : ∃ bs, bs.length = n ∧ StrAt mem p bs := by
  obtain ⟨bs, hbs⟩ := h.accessible.bytesAt
  have hlen := length_bytesAt hbs
  refine ⟨bs, hlen, bytesAt_eq_iff.mpr ⟨by simp, fun i hi => ?_⟩, fun h0 => ?_⟩
  · rcases Nat.lt_or_eq_of_le (Nat.le_of_lt_succ hi) with hlt | rfl
    · rw [List.getElem?_append_left hlt]
      exact (bytesAt_eq_iff.mp hbs).2 i (by omega)
    · rw [hlen, h.1]
      simp [hlen]
  · obtain ⟨i, hi, hget⟩ := List.getElem_of_mem h0
    obtain ⟨b, hb, hne⟩ := h.2 i (by omega)
    rw [(bytesAt_eq_iff.mp hbs).2 i (by omega), List.getElem?_eq_getElem hi, hget] at hb
    exact hne (Option.some.inj hb).symm

theorem StrAt.unique (h : StrAt mem p as) (h' : StrAt mem p bs) : as = bs := by
  have hlen := h.stringAt.unique h'.stringAt
  have hb := h.bytesAt
  rw [hlen, h'.bytesAt] at hb
  exact (Option.some.inj hb).symm

theorem StrAt.congr (h : StrAt mem p bs) (hmem : ∀ i ≤ bs.length, mem' (p + i) = mem (p + i)) :
    StrAt mem' p bs := by
  refine ⟨bytesAt_eq_iff.mpr ⟨by simp, fun i hi => ?_⟩, h.nonzero⟩
  rw [hmem i (by omega)]
  exact (bytesAt_eq_iff.mp h.bytes).2 i hi

/-- The rest of a string is a string. -/
theorem StrAt.drop (h : StrAt mem p bs) {i : ℕ} (hi : i ≤ bs.length) :
    StrAt mem (p + i) (bs.drop i) := by
  refine ⟨bytesAt_eq_iff.mpr ⟨by simp, fun j hj => ?_⟩, fun h0 => h.nonzero (List.mem_of_mem_drop h0)⟩
  rw [List.length_drop] at hj
  rw [show p + i + j = p + (i + j) by omega, (bytesAt_eq_iff.mp h.bytes).2 (i + j) (by omega)]
  rw [show bs.drop i ++ [0] = (bs ++ [0]).drop i by rw [List.drop_append_of_le_length hi],
    List.getElem?_drop]

/-! ### Parts of a memory -/

/-- Every byte of `mem` is one of `mem'`. -/
def Part (mem mem' : Mem) : Prop := ∀ a b, mem a = some b → mem' a = some b

theorem Part.bytesAt (h : Part mem mem') (hbs : bytesAt mem p n = some bs) :
    Bytes.bytesAt mem' p n = some bs := by
  obtain ⟨hlen, hget⟩ := bytesAt_eq_iff.mp hbs
  refine bytesAt_eq_iff.mpr ⟨hlen, fun i hi => ?_⟩
  have hi' := hget i hi
  rw [List.getElem?_eq_getElem (by omega)] at hi' ⊢
  exact h _ _ hi'

theorem Part.trans {mem'' : Mem} (h : Part mem mem') (h' : Part mem' mem'') : Part mem mem'' :=
  fun a b hab => h' a b (h a b hab)

theorem Part.readBytes (h : Part mem mem') (p n : ℕ) :
    Le (Bytes.readBytes mem p n : Prog σ (List UInt8)) (Bytes.readBytes mem' p n) := by
  intro s r hr
  obtain ⟨bs, hbs, rfl⟩ := Option.map_eq_some_iff.mp hr
  exact readBytes_eq (h.bytesAt hbs) s

theorem Part.strAt (h : Part mem mem') (hp : StrAt mem p bs) : StrAt mem' p bs :=
  ⟨h.bytesAt hp.bytes, hp.nonzero⟩

/-! ### Comparing strings -/

/-- What `strcmp` returns: the difference of the first different bytes. -/
def strcmpOf : List UInt8 → List UInt8 → ℤ
  | [], [] => 0
  | [], b :: _ => -(b.toNat : ℤ)
  | a :: _, [] => a.toNat
  | a :: as, b :: bs => if a = b then strcmpOf as bs else a.toNat - b.toNat

attribute [grind =] strcmpOf

theorem toNat_pos {a : UInt8} (h : a ≠ 0) : 0 < a.toNat := by
  rcases Nat.eq_zero_or_pos a.toNat with h0 | hpos
  · exact absurd (UInt8.toNat_inj.mp h0) h
  · exact hpos

theorem strcmpOf_swap (as bs : List UInt8) : strcmpOf as bs = -strcmpOf bs as := by
  induction as generalizing bs with
  | nil => cases bs <;> simp [strcmpOf]
  | cons a as ih =>
    cases bs with
    | nil => simp [strcmpOf]
    | cons b bs =>
      rw [strcmpOf, strcmpOf]
      by_cases hab : a = b
      · rw [if_pos hab, if_pos hab.symm, ih]
      · rw [if_neg hab, if_neg (Ne.symm hab)]
        omega

@[simp] theorem strcmpOf_self (as : List UInt8) : strcmpOf as as = 0 := by
  have := strcmpOf_swap as as
  omega

theorem strcmpOf_eq_zero (ha : 0 ∉ as) (hb : 0 ∉ bs) : strcmpOf as bs = 0 ↔ as = bs := by
  induction as generalizing bs with
  | nil =>
    cases bs with
    | nil => simp [strcmpOf]
    | cons b bs =>
      have hpos := toNat_pos (a := b) (by rintro rfl; simp at hb)
      simp only [strcmpOf, reduceCtorEq, iff_false]
      omega
  | cons a as ih =>
    cases bs with
    | nil =>
      have hpos := toNat_pos (a := a) (by rintro rfl; simp at ha)
      simp only [strcmpOf, reduceCtorEq, iff_false]
      omega
    | cons b bs =>
      rw [strcmpOf]
      by_cases hab : a = b
      · rw [if_pos hab, ih (fun h => ha (List.mem_cons_of_mem _ h))
          (fun h => hb (List.mem_cons_of_mem _ h)), hab]
        simp
      · have hne : a.toNat ≠ b.toNat := fun h => hab (UInt8.toNat_inj.mp h)
        rw [if_neg hab]
        simp only [List.cons.injEq, hab, false_and, iff_false]
        omega

theorem strcmpOf_trans (ha : 0 ∉ as) (hb : 0 ∉ bs) (hc : 0 ∉ cs) (hab : strcmpOf as bs ≤ 0)
    (hbc : strcmpOf bs cs ≤ 0) : strcmpOf as cs ≤ 0 := by
  induction as generalizing bs cs with
  | nil =>
    cases cs with
    | nil => simp [strcmpOf]
    | cons c cs =>
      simp only [strcmpOf]
      omega
  | cons a as ih =>
    have hapos := toNat_pos (a := a) (by rintro rfl; simp at ha)
    cases bs with
    | nil =>
      simp only [strcmpOf] at hab
      omega
    | cons b bs =>
      have hbpos := toNat_pos (a := b) (by rintro rfl; simp at hb)
      cases cs with
      | nil =>
        simp only [strcmpOf] at hbc
        omega
      | cons c cs =>
        simp only [List.mem_cons, not_or] at ha hb hc
        rw [strcmpOf] at hab hbc ⊢
        by_cases h₁ : a = b
        · subst h₁
          by_cases h₂ : a = c
          · subst h₂
            rw [if_pos rfl] at hab hbc ⊢
            exact ih ha.2 hb.2 hc.2 hab hbc
          · rwa [if_neg h₂] at hbc ⊢
        · have hne : a.toNat ≠ b.toNat := fun h => h₁ (UInt8.toNat_inj.mp h)
          rw [if_neg h₁] at hab
          by_cases h₂ : b = c
          · subst h₂
            rw [if_neg h₁]
            exact hab
          · rw [if_neg h₂] at hbc
            have h₃ : a ≠ c := by
              rintro rfl
              omega
            rw [if_neg h₃]
            omega

/-! ### The comparisons over memory -/

/-- Read a byte; a fault where it cannot be read. -/
def readByte (mem : Mem) (p : ℕ) : Prog σ UInt8 := fun s => (mem p).map fun b => (b, s)

theorem readByte_eq {b : UInt8} (h : mem p = some b) (s : σ) :
    (readByte mem p : Prog σ UInt8) s = some (b, s) := by
  rw [readByte, h]
  rfl

theorem preserves_readByte {I : σ → Prop} (p : ℕ) : Preserves I (readByte mem p) := by
  refine .of_reads fun s b s' h => ?_
  obtain ⟨b', -, heq⟩ := Option.map_eq_some_iff.mp h
  exact (Prod.mk.inj heq).2.symm

/-- One turn of `strcmp`. -/
def strcmpBody (mem : Mem) (l r i : ℕ) : Prog σ (ℕ ⊕ ℤ) := do
  let a ← readByte mem (l + i)
  let b ← readByte mem (r + i)
  if a ≠ b then
    return .inr (a.toNat - b.toNat)
  else if a = 0 then
    return .inr 0
  else
    return .inl (i + 1)

/-- `strcmp(l, r)`. -/
def strcmp (mem : Mem) (l r fuel : ℕ) : Prog σ ℤ := fuelLoop (strcmpBody mem l r) fuel 0

theorem fuelMono_strcmp (mem : Mem) (l r : ℕ) : FuelMono (strcmp mem l r : ℕ → Prog σ ℤ) :=
  .loop (fun i => .const (strcmpBody mem l r i)) 0

theorem fuelMono_strlen (mem : Mem) (p : ℕ) : FuelMono (strlen mem p : ℕ → Prog σ ℕ) :=
  .loop (fun i => .const (strlenBody mem p i)) 0

theorem strcmp_spec (ha : StrAt mem p as) (hb : StrAt mem q bs) (s : σ) :
    Total (strcmp mem p q) (fun d s' => d = strcmpOf as bs ∧ s' = s) s := by
  -- after `i` turns, the strings agree on their first `i` bytes
  let I : ℕ → ℕ → σ → Prop := fun b i s' => s' = s ∧ i ≤ as.length ∧ i ≤ bs.length ∧
    strcmpOf (as.drop i) (bs.drop i) = strcmpOf as bs ∧ b = as.length - i
  have step : ∀ b i s', I b i s' → Total (fun _ => strcmpBody mem p q i)
      (fun r s'' => Sum.elim (fun i' => ∃ b' < b, I b' i' s'')
        (fun d => d = strcmpOf as bs ∧ s'' = s) r) s' := by
    rintro b i s' ⟨rfl, hia, hib, heq, rfl⟩
    have h₁ := ha.get hia
    have h₂ := hb.get hib
    refine Total.const ?_
    rw [strcmpBody, wp_bind, wp_of_some (readByte_eq h₁ s'), wp_bind,
      wp_of_some (readByte_eq h₂ s'), wp_ite]
    rcases Nat.lt_or_eq_of_le hia with hlta | rfl <;>
      rcases Nat.lt_or_eq_of_le hib with hltb | hb'
    · rw [List.drop_eq_getElem_cons hlta, List.drop_eq_getElem_cons hltb, strcmpOf] at heq
      rw [List.getD_eq_getElem _ _ hlta, List.getD_eq_getElem _ _ hltb]
      by_cases hab : as[i] = bs[i]
      · rw [if_neg (not_not_intro hab), wp_ite, if_neg, wp_pure]
        · rw [if_pos hab] at heq
          exact ⟨as.length - (i + 1), by omega, rfl, by omega, by omega, heq, rfl⟩
        · have := ha.ne_zero hlta
          rwa [List.getD_eq_getElem _ _ hlta] at this
      · rw [if_pos hab, wp_pure]
        rw [if_neg hab] at heq
        exact ⟨heq, rfl⟩
    · subst hb'
      rw [List.drop_eq_getElem_cons hlta, List.drop_length, strcmpOf] at heq
      have hne := ha.ne_zero hlta
      rw [List.getD_eq_getElem _ _ hlta] at hne ⊢
      rw [if_pos (by simpa using hne), wp_pure]
      exact ⟨by rw [← heq]; simp, rfl⟩
    · rw [List.drop_length, List.drop_eq_getElem_cons hltb, strcmpOf] at heq
      have hne := hb.ne_zero hltb
      rw [List.getD_eq_getElem _ _ hltb] at hne ⊢
      rw [if_pos (by simpa using hne.symm), wp_pure]
      exact ⟨by rw [← heq]; simp, rfl⟩
    · rw [hb', List.drop_length, ← hb', List.drop_length] at heq
      rw [List.getD_eq_default _ _ (Nat.le_refl _), List.getD_eq_default _ _ (Nat.le_of_eq hb'.symm),
        if_neg (not_not_intro rfl), wp_ite, if_pos rfl, wp_pure]
      exact ⟨heq, rfl⟩
  exact total_loop step as.length 0 s ⟨rfl, Nat.zero_le _, Nat.zero_le _, rfl, rfl⟩

/-- `strncmp(lit, p, n)` for the first `n` bytes of a string constant. -/
def strncmp (mem : Mem) : List UInt8 → ℕ → Prog σ ℤ
  | [], _ => pure 0
  | c :: lit, p => do
    let b ← readByte mem p
    if c ≠ b then
      return c.toNat - b.toNat
    else
      strncmp mem lit (p + 1)

attribute [grind =] strncmp

theorem strncmp_spec {lit : List UInt8} (hlit : 0 ∉ lit) (h : StrAt mem p bs) (s : σ) :
    wp (strncmp mem lit p) (fun d s' => (d = 0 ↔ lit <+: bs) ∧ s' = s) s := by
  induction lit generalizing p bs with
  | nil => simp [strncmp]
  | cons c lit ih =>
    simp only [List.mem_cons, not_or] at hlit
    have h₀ := h.get (Nat.zero_le _)
    rw [strncmp, wp_bind, wp_of_some (readByte_eq (p := p) h₀ s), wp_ite]
    cases bs with
    | nil =>
      have hc : c ≠ 0 := Ne.symm hlit.1
      have hpos := toNat_pos hc
      rw [List.getD_nil, if_pos hc, wp_pure]
      refine ⟨iff_of_false ?_ (by simp), rfl⟩
      show ¬ ((c.toNat : ℤ) - ((0 : UInt8).toNat : ℤ) = 0)
      rw [show (0 : UInt8).toNat = 0 from rfl]
      omega
    | cons b bs =>
      rw [List.getD_cons_zero]
      by_cases hcb : c = b
      · subst hcb
        rw [if_neg (not_not_intro rfl)]
        have htail := h.drop (i := 1) (by simp)
        refine wp_mono (ih hlit.2 htail) ?_
        rintro d s' ⟨hd, rfl⟩
        exact ⟨hd.trans (by simp [List.cons_prefix_cons]), rfl⟩
      · have hne : c.toNat ≠ b.toNat := fun h => hcb (UInt8.toNat_inj.mp h)
        rw [if_pos hcb, wp_pure]
        refine ⟨iff_of_false (by omega) ?_, rfl⟩
        simp [List.cons_prefix_cons, hcb]

/-! ### String tables -/

/-- The bytes of a table of strings. -/
def tableBytes (strs : List (List UInt8)) : List UInt8 := strs.flatMap fun s => s ++ [0]

theorem tableBytes_append (xs ys : List (List UInt8)) :
    tableBytes (xs ++ ys) = tableBytes xs ++ tableBytes ys := List.flatMap_append ..

theorem length_tableBytes_cons (x : List UInt8) (xs : List (List UInt8)) :
    (tableBytes (x :: xs)).length = x.length + 1 + (tableBytes xs).length := by
  rw [tableBytes, List.flatMap_cons, List.length_append, List.length_append,
    List.length_singleton]
  rfl

theorem length_tableBytes_snoc (xs : List (List UInt8)) (x : List UInt8) :
    (tableBytes (xs ++ [x])).length = (tableBytes xs).length + x.length + 1 := by
  rw [tableBytes_append, List.length_append, length_tableBytes_cons]
  rfl

/-- The strings of a table, from terminator to terminator. -/
def tableStrings : List UInt8 → List (List UInt8)
  | [] => []
  | b :: bs =>
    if b = 0 then
      [] :: tableStrings bs
    else
      match tableStrings bs with
      | [] => [[b]]
      | s :: strs => (b :: s) :: strs

attribute [grind =] tableStrings

theorem zero_notMem_tableStrings {s : List UInt8} (hs : s ∈ tableStrings bs) : 0 ∉ s := by
  induction bs generalizing s with
  | nil => simp [tableStrings] at hs
  | cons b bs ih =>
    rw [tableStrings] at hs
    by_cases hb : b = 0
    · rw [if_pos hb] at hs
      rcases List.mem_cons.mp hs with rfl | hs
      · simp
      · exact ih hs
    · rw [if_neg hb] at hs
      have hb' : ¬ 0 = b := fun h => hb h.symm
      cases hrest : tableStrings bs with
      | nil =>
        rw [hrest] at hs
        simpa [List.mem_singleton.mp hs] using hb'
      | cons s' strs =>
        rw [hrest] at hs ih
        rcases List.mem_cons.mp hs with rfl | hs
        · simpa [hb'] using ih (List.mem_cons_self ..)
        · exact ih (List.mem_cons_of_mem _ hs)

/-- A table that ends with a terminator consists of its strings. -/
theorem tableBytes_tableStrings (h : bs.getLast? = some 0) :
    tableBytes (tableStrings bs) = bs := by
  induction bs with
  | nil => rfl
  | cons b bs ih =>
    rw [tableStrings]
    by_cases hb : b = 0
    · rw [if_pos hb, hb]
      cases bs with
      | nil => rfl
      | cons c bs =>
        show 0 :: tableBytes (tableStrings (c :: bs)) = 0 :: c :: bs
        rw [ih (by rwa [List.getLast?_cons_cons] at h)]
    · rw [if_neg hb]
      cases bs with
      | nil => exact absurd (Option.some.inj h) hb
      | cons c bs =>
        have ih := ih (by rwa [List.getLast?_cons_cons] at h)
        cases hrest : tableStrings (c :: bs) with
        | nil =>
          rw [hrest] at ih
          exact absurd ih (by simp [tableBytes])
        | cons s strs =>
          rw [hrest] at ih
          show b :: tableBytes (s :: strs) = b :: c :: bs
          rw [ih]

/-- A string of a table lies behind the strings before it. -/
theorem StrAt.of_table {strs rest : List (List UInt8)} {s : List UInt8}
    (h : Bytes.bytesAt mem p (tableBytes (strs ++ s :: rest)).length =
      some (tableBytes (strs ++ s :: rest))) (hs : 0 ∉ s) :
    StrAt mem (p + (tableBytes strs).length) s := by
  refine ⟨bytesAt_eq_iff.mpr ⟨by simp, fun i hi => ?_⟩, hs⟩
  have hsplit : tableBytes (strs ++ s :: rest) = tableBytes strs ++ ((s ++ [0]) ++ tableBytes rest) := by
    simp [tableBytes]
  have hlt : (tableBytes strs).length + i < (tableBytes (strs ++ s :: rest)).length := by
    rw [hsplit]
    simp only [List.length_append, List.length_singleton]
    omega
  rw [Nat.add_assoc, (bytesAt_eq_iff.mp h).2 _ hlt, hsplit, List.getElem?_append_right (by omega),
    Nat.add_sub_cancel_left, List.getElem?_append_left (by simpa using hi)]

end Bytes
