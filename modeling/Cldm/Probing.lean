/-
Open addressing with linear probing and removal marks.

A table of `cap` cells; a probe for a key visits the cells `slotAt cap h k` for
`k = 0, 1, …`, from the home `h` of the key, and stops at the first one where a
condition holds (`FirstAt`).  `Stops reuse x` is the condition of a search for
`x`: an empty cell, a cell with `x`, or, with `reuse`, a removal mark.

* `exists_firstAt` — a probe ends if some cell meets its condition;
* `Probed` — the invariant: no key is stored twice and no empty cell lies
  between a key and its home;
* `Probed.find_hit`, `Probed.find_miss` — a search past the marks finds the key
  or an empty cell;
* `Probed.insert`, `Probed.remove` — both operations keep the invariant;
* `Meets` — the keys that a search comes to, `Refilled` — the tables that keys are
  stored in one after the other;
* `count_update` — counting cells through an update.
-/
import Mathlib.Data.Nat.Count
import Mathlib.Data.Set.Card
import Mathlib.Logic.Function.Basic
import Mathlib.Tactic.Common

namespace Probing

/-- A cell of the table. -/
inductive Cell (K : Type) where
  | empty
  | removed
  | full (x : K)

variable {K : Type}

/-- Neither empty nor a removal mark. -/
def Cell.isFull : Cell K → Bool
  | .full _ => true
  | _ => false

theorem Cell.exists_of_isFull {c : Cell K} (h : c.isFull = true) : ∃ x, c = .full x := by
  cases c with
  | full x => exact ⟨x, rfl⟩
  | empty => exact absurd h Bool.false_ne_true
  | removed => exact absurd h Bool.false_ne_true

/-! ### The order of a probe -/

/-- The cell that a probe from `h` visits at step `k`. -/
def slotAt (cap h k : ℕ) : ℕ := (h + k) % cap

variable {cap h k : ℕ}

theorem slotAt_lt (hcap : 0 < cap) : slotAt cap h k < cap := Nat.mod_lt _ hcap

theorem slotAt_succ : (slotAt cap h k + 1) % cap = slotAt cap h (k + 1) := by
  rw [slotAt, slotAt, Nat.mod_add_mod, Nat.add_assoc]

/-- A probe comes to every cell. -/
theorem exists_slotAt {i : ℕ} (hi : i < cap) (h : ℕ) : ∃ k < cap, slotAt cap h k = i := by
  have hcap : 0 < cap := by omega
  have hmod := Nat.mod_lt h hcap
  rcases Nat.lt_or_ge i (h % cap) with hlt | hge
  · refine ⟨i + cap - h % cap, by omega, ?_⟩
    rw [slotAt, ← Nat.mod_add_mod]
    have hsum : h % cap + (i + cap - h % cap) = i + cap := by omega
    rw [hsum, Nat.add_mod_right, Nat.mod_eq_of_lt hi]
  · refine ⟨i - h % cap, by omega, ?_⟩
    rw [slotAt, ← Nat.mod_add_mod]
    have hsum : h % cap + (i - h % cap) = i := by omega
    rw [hsum, Nat.mod_eq_of_lt hi]

section FirstAt

variable {α β : Type}

/-- Step `k` is the first at whose cell `P` holds. -/
def FirstAt (P : α → Prop) (cell : ℕ → α) (cap h k : ℕ) : Prop :=
  P (cell (slotAt cap h k)) ∧ ∀ j < k, ¬ P (cell (slotAt cap h j))

theorem FirstAt.unique {P : α → Prop} {cell : ℕ → α} {k' : ℕ}
    (hk : FirstAt P cell cap h k) (hk' : FirstAt P cell cap h k') : k = k' := by
  rcases Nat.lt_trichotomy k k' with hlt | heq | hgt
  · exact absurd hk.1 (hk'.2 k hlt)
  · exact heq
  · exact absurd hk'.1 (hk.2 k' hgt)

/-- A probe looks at its cells through `P` only. -/
theorem FirstAt.congr {P : α → Prop} {P' : β → Prop} {cell : ℕ → α} {cell' : ℕ → β}
    (hcap : 0 < cap) (hP : ∀ i < cap, P (cell i) ↔ P' (cell' i)) (hk : FirstAt P cell cap h k) :
    FirstAt P' cell' cap h k :=
  ⟨(hP _ (slotAt_lt hcap)).mp hk.1, fun j hj hPj => hk.2 j hj ((hP _ (slotAt_lt hcap)).mpr hPj)⟩

theorem exists_firstAt {P : α → Prop} {cell : ℕ → α} {i : ℕ} (hi : i < cap)
    (hP : P (cell i)) (h : ℕ) : ∃ k < cap, FirstAt P cell cap h k := by
  classical
  obtain ⟨k, hk, hslot⟩ := exists_slotAt hi h
  have hex : ∃ k, P (cell (slotAt cap h k)) := ⟨k, by rw [hslot]; exact hP⟩
  refine ⟨Nat.find hex, lt_of_le_of_lt (Nat.find_min' hex (by rw [hslot]; exact hP)) hk,
    Nat.find_spec hex, fun j hj => Nat.find_min hex hj⟩

end FirstAt

/-! ### The invariant -/

/-- Where a search for `x` stops. -/
def Stops (reuse : Bool) (x : K) : Cell K → Prop
  | .empty => True
  | .removed => reuse = true
  | .full y => y = x

/-- No key is stored twice, and no empty cell lies between a key and its home. -/
structure Probed (home : K → ℕ) (cap : ℕ) (cell : ℕ → Cell K) : Prop where
  path : ∀ i < cap, ∀ x, cell i = .full x →
    ∃ k, slotAt cap (home x) k = i ∧ ∀ j < k, cell (slotAt cap (home x) j) ≠ .empty
  unique : ∀ i < cap, ∀ j < cap, ∀ x, cell i = .full x → cell j = .full x → i = j

/-- The stored keys. -/
def keys (cap : ℕ) (cell : ℕ → Cell K) : Set K := {x | ∃ i < cap, cell i = .full x}

section Operations

variable {home : K → ℕ} {cell : ℕ → Cell K} {x : K}

/-- A search past the marks finds a stored key. -/
theorem Probed.find_hit (hp : Probed home cap cell) (hx : x ∈ keys cap cell)
    (hk : FirstAt (Stops false x) cell cap (home x) k) :
    cell (slotAt cap (home x) k) = .full x := by
  obtain ⟨i, hi, hcell⟩ := hx
  obtain ⟨k', hslot, hpath⟩ := hp.path i hi x hcell
  have hstop' : Stops false x (cell (slotAt cap (home x) k')) := by
    rw [hslot, hcell]
    exact rfl
  have hle : k ≤ k' := by
    by_contra hlt
    exact hk.2 k' (by omega) hstop'
  rcases Nat.lt_or_ge k k' with hlt | hge
  · -- on the way to the key there is no empty cell
    have hne := hpath k hlt
    have hstop := hk.1
    cases hc : cell (slotAt cap (home x) k) with
    | empty => exact absurd hc hne
    | removed =>
      rw [hc] at hstop
      exact absurd hstop (by simp [Stops])
    | full y =>
      rw [hc] at hstop
      rw [show y = x from hstop]
  · obtain rfl : k = k' := by omega
    rw [hslot, hcell]

/-- A search past the marks for a key that is not stored ends at an empty cell. -/
theorem find_miss (hcap : 0 < cap) (hx : x ∉ keys cap cell)
    (hk : FirstAt (Stops false x) cell cap h k) : cell (slotAt cap h k) = .empty := by
  have hstop := hk.1
  cases hc : cell (slotAt cap h k) with
  | empty => rfl
  | removed =>
    rw [hc] at hstop
    exact absurd hstop (by simp [Stops])
  | full y =>
    rw [hc] at hstop
    obtain rfl : y = x := hstop
    exact absurd ⟨_, slotAt_lt hcap, hc⟩ hx

/-- A search that stops at marks ends at a cell that is not full when the key is
not stored. -/
theorem insert_miss (hcap : 0 < cap) (hx : x ∉ keys cap cell)
    (hk : FirstAt (Stops true x) cell cap h k) : (cell (slotAt cap h k)).isFull = false := by
  have hstop := hk.1
  cases hc : cell (slotAt cap h k) with
  | empty => rfl
  | removed => rfl
  | full y =>
    rw [hc] at hstop
    obtain rfl : y = x := hstop
    exact absurd ⟨_, slotAt_lt hcap, hc⟩ hx

/-- A search that stops at marks finds a stored key unless a mark comes first. -/
theorem Probed.insert_hit (hp : Probed home cap cell) (hx : x ∈ keys cap cell)
    (hmark : cell (slotAt cap (home x) k) ≠ .removed)
    (hk : FirstAt (Stops true x) cell cap (home x) k) :
    cell (slotAt cap (home x) k) = .full x := by
  refine hp.find_hit hx ⟨?_, fun j hj hstop => hk.2 j hj ?_⟩
  · have hstop := hk.1
    cases hc : cell (slotAt cap (home x) k) with
    | empty => trivial
    | removed => exact absurd hc hmark
    | full y => rwa [hc] at hstop
  · cases hc : cell (slotAt cap (home x) j) with
    | empty => trivial
    | removed => rfl
    | full y => rwa [hc] at hstop

/-- Storing a new key where the search for it ended. -/
theorem Probed.insert (hp : Probed home cap cell) (hcap : 0 < cap) (hx : x ∉ keys cap cell)
    (hk : FirstAt (Stops true x) cell cap (home x) k) :
    Probed home cap (Function.update cell (slotAt cap (home x) k) (.full x)) := by
  have hfree := insert_miss hcap hx hk
  constructor
  · intro i hi y hy
    by_cases hik : i = slotAt cap (home x) k
    · subst hik
      rw [Function.update_self, Cell.full.injEq] at hy
      subst hy
      refine ⟨k, rfl, fun j hj hempty => hk.2 j hj ?_⟩
      by_cases hjk : slotAt cap (home x) j = slotAt cap (home x) k
      · rw [hjk, Function.update_self] at hempty
        exact absurd hempty (by simp)
      · rw [Function.update_of_ne hjk] at hempty
        rw [hempty]
        trivial
    · rw [Function.update_of_ne hik] at hy
      obtain ⟨k', hslot, hpath⟩ := hp.path i hi y hy
      refine ⟨k', hslot, fun j hj => ?_⟩
      by_cases hjk : slotAt cap (home y) j = slotAt cap (home x) k
      · rw [hjk, Function.update_self]
        simp
      · rw [Function.update_of_ne hjk]
        exact hpath j hj
  · have hother : ∀ i < cap, i ≠ slotAt cap (home x) k →
        Function.update cell (slotAt cap (home x) k) (.full x) i ≠ .full x := by
      intro i hi hik hcell
      rw [Function.update_of_ne hik] at hcell
      exact hx ⟨i, hi, hcell⟩
    intro i hi j hj y hyi hyj
    by_cases hik : i = slotAt cap (home x) k
    · by_cases hjk : j = slotAt cap (home x) k
      · rw [hik, hjk]
      · have hyx : Cell.full y = Cell.full x := by
          rw [hik, Function.update_self] at hyi
          exact hyi.symm
        exact absurd (hyj.trans hyx) (hother j hj hjk)
    · by_cases hjk : j = slotAt cap (home x) k
      · have hyx : Cell.full y = Cell.full x := by
          rw [hjk, Function.update_self] at hyj
          exact hyj.symm
        exact absurd (hyi.trans hyx) (hother i hi hik)
      · rw [Function.update_of_ne hik] at hyi
        rw [Function.update_of_ne hjk] at hyj
        exact hp.unique i hi j hj y hyi hyj

theorem keys_insert {i : ℕ} (hi : i < cap) (hfree : (cell i).isFull = false) :
    keys cap (Function.update cell i (.full x)) = Insert.insert x (keys cap cell) := by
  ext y
  constructor
  · rintro ⟨j, hj, hcell⟩
    by_cases hji : j = i
    · subst hji
      rw [Function.update_self, Cell.full.injEq] at hcell
      exact .inl hcell.symm
    · rw [Function.update_of_ne hji] at hcell
      exact .inr ⟨j, hj, hcell⟩
  · rintro (rfl | ⟨j, hj, hcell⟩)
    · exact ⟨i, hi, Function.update_self ..⟩
    · have hji : j ≠ i := by
        rintro rfl
        rw [hcell] at hfree
        exact absurd hfree (by simp [Cell.isFull])
      exact ⟨j, hj, by rw [Function.update_of_ne hji, hcell]⟩

/-- Marking a cell as removed. -/
theorem Probed.remove (hp : Probed home cap cell) (i : ℕ) :
    Probed home cap (Function.update cell i .removed) := by
  have hfull : ∀ {j : ℕ} {y : K}, Function.update cell i .removed j = .full y →
      cell j = .full y := by
    intro j y hy
    by_cases hji : j = i
    · subst hji
      rw [Function.update_self] at hy
      exact absurd hy (by simp)
    · rwa [Function.update_of_ne hji] at hy
  constructor
  · intro j hj y hy
    obtain ⟨k', hslot, hpath⟩ := hp.path j hj y (hfull hy)
    refine ⟨k', hslot, fun l hl => ?_⟩
    by_cases hli : slotAt cap (home y) l = i
    · rw [hli, Function.update_self]
      simp
    · rw [Function.update_of_ne hli]
      exact hpath l hl
  · intro j hj l hl y hyj hyl
    exact hp.unique j hj l hl y (hfull hyj) (hfull hyl)

theorem Probed.keys_remove (hp : Probed home cap cell) {i : ℕ} (hi : i < cap)
    (hx : cell i = .full x) :
    keys cap (Function.update cell i .removed) = keys cap cell \ {x} := by
  ext y
  constructor
  · rintro ⟨j, hj, hcell⟩
    by_cases hji : j = i
    · subst hji
      rw [Function.update_self] at hcell
      exact absurd hcell (by simp)
    · rw [Function.update_of_ne hji] at hcell
      refine ⟨⟨j, hj, hcell⟩, ?_⟩
      rintro rfl
      exact hji (hp.unique j hj i hi _ hcell hx)
  · rintro ⟨⟨j, hj, hcell⟩, hne⟩
    have hji : j ≠ i := by
      rintro rfl
      rw [hx, Cell.full.injEq] at hcell
      exact hne hcell.symm
    exact ⟨j, hj, by rw [Function.update_of_ne hji, hcell]⟩

/-- An empty table. -/
theorem probed_empty (h : ∀ i < cap, cell i = .empty) : Probed home cap cell := by
  constructor
  · intro i hi y hy
    rw [h i hi] at hy
    exact absurd hy (by simp)
  · intro i hi j hj y hy
    rw [h i hi] at hy
    exact absurd hy (by simp)

theorem keys_empty (h : ∀ i < cap, cell i = .empty) : keys cap cell = ∅ := by
  ext y
  constructor
  · rintro ⟨i, hi, hy⟩
    rw [h i hi] at hy
    exact absurd hy (by simp)
  · exact fun hy => hy.elim

theorem keys_succ_full (hx : cell cap = .full x) :
    keys (cap + 1) cell = Insert.insert x (keys cap cell) := by
  ext y
  constructor
  · rintro ⟨i, hi, hy⟩
    by_cases hic : i = cap
    · subst hic
      rw [hx, Cell.full.injEq] at hy
      exact .inl hy.symm
    · exact .inr ⟨i, by omega, hy⟩
  · rintro (rfl | ⟨i, hi, hy⟩)
    · exact ⟨cap, by omega, hx⟩
    · exact ⟨i, by omega, hy⟩

theorem keys_succ_free (hx : (cell cap).isFull = false) :
    keys (cap + 1) cell = keys cap cell := by
  ext y
  constructor
  · rintro ⟨i, hi, hy⟩
    have hic : i ≠ cap := by
      rintro rfl
      rw [hy] at hx
      exact absurd hx (by simp [Cell.isFull])
    exact ⟨i, by omega, hy⟩
  · rintro ⟨i, hi, hy⟩
    exact ⟨i, by omega, hy⟩

end Operations

/-! ### What a search comes to -/

section Meets

variable {home : K → ℕ} {cell : ℕ → Cell K} {x y : K}

/-- A search for `x` goes past the first `k` cells, whatever it does at marks. -/
def GoesPast (home : K → ℕ) (cap : ℕ) (cell : ℕ → Cell K) (x : K) (k : ℕ) : Prop :=
  ∀ j < k, cell (slotAt cap (home x) j) ≠ .empty ∧ cell (slotAt cap (home x) j) ≠ .full x

/-- A search for `x` comes to the key `y`. -/
def Meets (home : K → ℕ) (cap : ℕ) (cell : ℕ → Cell K) (x y : K) : Prop :=
  ∃ k, cell (slotAt cap (home x) k) = .full y ∧ GoesPast home cap cell x k

/-- A search need not tell `x` from the keys that it does not come to. -/
theorem FirstAt.of_goesPast {α : Type} {P : α → Prop} {cell' : ℕ → α} {reuse : Bool}
    (hP : ∀ j ≤ k, GoesPast home cap cell x j →
      (P (cell' (slotAt cap (home x) j)) ↔ Stops reuse x (cell (slotAt cap (home x) j))))
    (hk : FirstAt P cell' cap (home x) k) : FirstAt (Stops reuse x) cell cap (home x) k := by
  have hpass : ∀ j ≤ k, GoesPast home cap cell x j := by
    intro j
    induction j with
    | zero => exact fun _ i hi => absurd hi (Nat.not_lt_zero i)
    | succ j ih =>
      intro hj i hi
      have hprev := ih (by omega)
      have hgo : ¬ Stops reuse x (cell (slotAt cap (home x) j)) := fun hstop =>
        hk.2 j (by omega) ((hP j (by omega) hprev).mpr hstop)
      rcases Nat.lt_succ_iff_lt_or_eq.mp hi with hlt | rfl
      · exact hprev i hlt
      · constructor
        · intro hc
          rw [hc] at hgo
          exact hgo trivial
        · intro hc
          rw [hc] at hgo
          exact hgo rfl
  refine ⟨(hP k (Nat.le_refl k) (hpass k (Nat.le_refl k))).mp hk.1, fun j hj hstop => ?_⟩
  exact hk.2 j hj ((hP j (by omega) (hpass j (by omega))).mpr hstop)

/-- The keys of the cells below `n`, in the order of the cells. -/
def stored (cell : ℕ → Cell K) : ℕ → List K
  | 0 => []
  | n + 1 =>
    match cell n with
    | .full x => stored cell n ++ [x]
    | _ => stored cell n

attribute [grind =] stored

theorem stored_succ_full {n : ℕ} (h : cell n = .full x) :
    stored cell (n + 1) = stored cell n ++ [x] := by
  rw [stored, h]

theorem stored_succ_free {n : ℕ} (h : (cell n).isFull = false) :
    stored cell (n + 1) = stored cell n := by
  rw [stored]
  cases hc : cell n with
  | full x =>
    rw [hc] at h
    exact absurd h (by simp [Cell.isFull])
  | empty => rfl
  | removed => rfl

theorem stored_split {i n : ℕ} (hi : i < n) (h : cell i = .full x) :
    ∃ zs, stored cell n = stored cell i ++ x :: zs := by
  induction n with
  | zero => exact absurd hi (Nat.not_lt_zero i)
  | succ n ih =>
    rcases Nat.lt_succ_iff_lt_or_eq.mp hi with hlt | rfl
    · obtain ⟨zs, hzs⟩ := ih hlt
      cases hc : cell n with
      | full y =>
        refine ⟨zs ++ [y], ?_⟩
        rw [stored_succ_full hc, hzs, List.append_assoc, List.cons_append]
      | empty => exact ⟨zs, by rw [stored_succ_free (by rw [hc]; rfl), hzs]⟩
      | removed => exact ⟨zs, by rw [stored_succ_free (by rw [hc]; rfl), hzs]⟩
    · exact ⟨[], stored_succ_full h⟩

theorem exists_of_mem_stored {n : ℕ} (h : x ∈ stored cell n) : ∃ i < n, cell i = .full x := by
  induction n with
  | zero => exact absurd h (by simp [stored])
  | succ n ih =>
    cases hc : cell n with
    | full y =>
      rw [stored_succ_full hc] at h
      rcases List.mem_append.mp h with h | h
      · obtain ⟨i, hi, hx⟩ := ih h
        exact ⟨i, by omega, hx⟩
      · exact ⟨n, Nat.lt_succ_self n, by rw [hc, List.mem_singleton.mp h]⟩
    | empty =>
      rw [stored_succ_free (by rw [hc]; rfl)] at h
      obtain ⟨i, hi, hx⟩ := ih h
      exact ⟨i, by omega, hx⟩
    | removed =>
      rw [stored_succ_free (by rw [hc]; rfl)] at h
      obtain ⟨i, hi, hx⟩ := ih h
      exact ⟨i, by omega, hx⟩

/-- The tables that new keys are stored in, one after the other, from an empty one. -/
inductive Refilled (home : K → ℕ) (cap : ℕ) : List K → (ℕ → Cell K) → Prop
  | nil : Refilled home cap [] fun _ => .empty
  | snoc {xs : List K} {cell : ℕ → Cell K} {x : K} {k : ℕ} :
      Refilled home cap xs cell → FirstAt (Stops true x) cell cap (home x) k →
      Refilled home cap (xs ++ [x]) (Function.update cell (slotAt cap (home x) k) (.full x))

theorem Refilled.mem {xs : List K} (h : Refilled home cap xs cell) {i : ℕ}
    (hi : cell i = .full y) : y ∈ xs := by
  induction h with
  | nil => exact absurd hi (by simp)
  | @snoc xs cell x k _ _ ih =>
    by_cases hik : i = slotAt cap (home x) k
    · subst hik
      rw [Function.update_self] at hi
      exact List.mem_append_right _ (by simp [(Cell.full.inj hi).symm])
    · rw [Function.update_of_ne hik] at hi
      exact List.mem_append_left _ (ih hi)

end Meets

/-! ### Counting cells -/

section Count

variable {α : Type}

/-- The number of cells with the property `p`. -/
def count (p : α → Bool) (cap : ℕ) (cell : ℕ → α) : ℕ :=
  Nat.count (fun i => p (cell i) = true) cap

theorem count_le (p : α → Bool) (cap : ℕ) (cell : ℕ → α) : count p cap cell ≤ cap :=
  Nat.count_le _

theorem count_congr {β : Type} {p : α → Bool} {q : β → Bool} {cell : ℕ → α} {cell' : ℕ → β}
    (h : ∀ i < cap, p (cell i) = q (cell' i)) : count p cap cell = count q cap cell' := by
  induction cap with
  | zero => rfl
  | succ n ih =>
    have hn := ih fun i hi => h i (by omega)
    simp only [count, Nat.count_succ, h n (Nat.lt_succ_self n)] at hn ⊢
    omega

theorem count_update {p : α → Bool} {cell : ℕ → α} {i : ℕ} (hi : i < cap) (c : α) :
    count p cap (Function.update cell i c) + (if p (cell i) then 1 else 0) =
      count p cap cell + (if p c then 1 else 0) := by
  have hsame : ∀ n ≤ i, count p n (Function.update cell i c) = count p n cell := by
    intro n hn
    induction n with
    | zero => rfl
    | succ n ih =>
      have hne : n ≠ i := by omega
      have := ih (by omega)
      simp only [count, Nat.count_succ] at this ⊢
      rw [this, Function.update_of_ne hne]
  suffices h : ∀ n, i < n → count p n (Function.update cell i c) + (if p (cell i) then 1 else 0) =
      count p n cell + (if p c then 1 else 0) from h cap hi
  intro n hn
  induction n with
  | zero => omega
  | succ n ih =>
    have hsucc : ∀ cell' : ℕ → α, count p (n + 1) cell' =
        count p n cell' + if p (cell' n) then 1 else 0 := fun cell' => Nat.count_succ _ n
    rw [hsucc, hsucc]
    by_cases hni : n = i
    · subst hni
      rw [hsame n (Nat.le_refl n), Function.update_self]
      omega
    · have := ih (by omega)
      rw [Function.update_of_ne hni]
      omega

/-- Some cell does not have the property unless all have it. -/
theorem exists_not_of_count_lt {p : α → Bool} {cell : ℕ → α} (h : count p cap cell < cap) :
    ∃ i < cap, p (cell i) = false := by
  by_contra hno
  have hall : ∀ i < cap, p (cell i) = true := by
    intro i hi
    by_contra hp
    exact hno ⟨i, hi, Bool.eq_false_iff.mpr hp⟩
  have heq : count p cap cell = cap := Nat.count_of_forall hall
  omega

theorem count_const (p : α → Bool) {c : α} (hp : p c = false) : count p cap (fun _ => c) = 0 := by
  rw [count, Nat.count_iff_forall_not.mpr]
  intro i _
  simp [hp]

/-- As many keys are stored as there are full cells, if none is stored twice. -/
theorem ncard_keys {cell : ℕ → Cell K}
    (huniq : ∀ i < cap, ∀ j < cap, ∀ x, cell i = .full x → cell j = .full x → i = j) :
    (keys cap cell).Finite ∧ (keys cap cell).ncard = count Cell.isFull cap cell := by
  induction cap with
  | zero =>
    rw [keys_empty fun i hi => absurd hi (Nat.not_lt_zero i)]
    exact ⟨Set.finite_empty, Set.ncard_empty K⟩
  | succ cap ih =>
    obtain ⟨hfin, hcard⟩ := ih fun i hi j hj => huniq i (by omega) j (by omega)
    have hsucc : count Cell.isFull (cap + 1) cell =
        count Cell.isFull cap cell + if (cell cap).isFull then 1 else 0 := Nat.count_succ _ cap
    cases hc : cell cap with
    | full x =>
      have hx : x ∉ keys cap cell := by
        rintro ⟨i, hi, hix⟩
        have := huniq i (by omega) cap (by omega) x hix hc
        omega
      rw [keys_succ_full hc, hsucc, hc]
      exact ⟨hfin.insert x, by rw [Set.ncard_insert_of_notMem hx hfin, hcard]; rfl⟩
    | empty =>
      rw [keys_succ_free (by rw [hc]; rfl), hsucc, hc]
      exact ⟨hfin, hcard⟩
    | removed =>
      rw [keys_succ_free (by rw [hc]; rfl), hsucc, hc]
      exact ⟨hfin, hcard⟩

theorem ncard_keys_le (cap : ℕ) (cell : ℕ → Cell K) :
    (keys cap cell).Finite ∧ (keys cap cell).ncard ≤ count Cell.isFull cap cell := by
  induction cap with
  | zero =>
    rw [keys_empty fun i hi => absurd hi (Nat.not_lt_zero i), Set.ncard_empty]
    exact ⟨Set.finite_empty, Nat.zero_le _⟩
  | succ cap ih =>
    obtain ⟨hfin, hcard⟩ := ih
    have hsucc : count Cell.isFull (cap + 1) cell =
        count Cell.isFull cap cell + if (cell cap).isFull then 1 else 0 := Nat.count_succ _ cap
    by_cases hfull : (cell cap).isFull = true
    · rw [if_pos hfull] at hsucc
      obtain ⟨x, hx⟩ := Cell.exists_of_isFull hfull
      rw [keys_succ_full hx, hsucc]
      exact ⟨hfin.insert x, (Set.ncard_insert_le x _).trans (Nat.succ_le_succ hcard)⟩
    · rw [if_neg hfull] at hsucc
      rw [keys_succ_free (Bool.eq_false_iff.mpr hfull), hsucc]
      exact ⟨hfin, hcard⟩

/-- No key is stored twice if as many keys are stored as there are full cells. -/
theorem unique_of_ncard_keys {cell : ℕ → Cell K}
    (h : (keys cap cell).ncard = count Cell.isFull cap cell) :
    ∀ i < cap, ∀ j < cap, ∀ x, cell i = .full x → cell j = .full x → i = j := by
  induction cap with
  | zero => exact fun i hi => absurd hi (Nat.not_lt_zero i)
  | succ cap ih =>
    obtain ⟨hfin, hle⟩ := ncard_keys_le cap cell
    have hsucc : count Cell.isFull (cap + 1) cell =
        count Cell.isFull cap cell + if (cell cap).isFull then 1 else 0 := Nat.count_succ _ cap
    -- the last cell holds no key of the cells before it
    have hlast : ∀ i < cap, ∀ x, cell i = .full x → cell cap ≠ .full x := by
      intro i hi x hix hc
      have hx : x ∈ keys cap cell := ⟨i, hi, hix⟩
      rw [keys_succ_full hc, Set.insert_eq_of_mem hx, hsucc, hc] at h
      simp only [Cell.isFull, if_true] at h
      omega
    have heq : (keys cap cell).ncard = count Cell.isFull cap cell := by
      by_cases hfull : (cell cap).isFull = true
      · rw [if_pos hfull] at hsucc
        obtain ⟨x, hc⟩ := Cell.exists_of_isFull hfull
        have hx : x ∉ keys cap cell := by
          rintro ⟨i, hi, hix⟩
          exact hlast i hi x hix hc
        rw [keys_succ_full hc, Set.ncard_insert_of_notMem hx hfin] at h
        omega
      · rw [if_neg hfull] at hsucc
        rw [keys_succ_free (Bool.eq_false_iff.mpr hfull), hsucc] at h
        exact h
    intro i hi j hj x hix hjx
    rcases Nat.lt_succ_iff_lt_or_eq.mp hi with hlt | rfl
    · rcases Nat.lt_succ_iff_lt_or_eq.mp hj with hlt' | rfl
      · exact ih heq i hlt j hlt' x hix hjx
      · exact absurd hjx (hlast i hlt x hix)
    · rcases Nat.lt_succ_iff_lt_or_eq.mp hj with hlt' | rfl
      · exact absurd hix (hlast j hlt' x hjx)
      · rfl

end Count

end Probing
