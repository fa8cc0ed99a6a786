/-
Parking along a street.

Cars drive upwards from the places that they prefer, each to the first spot that
no earlier car has taken; none can pass a wall.  Which spots are taken in the
end, and whether all cars find one, does not depend on the order of the cars:

* `Parks.mem_iff` — a spot is taken iff some stretch that ends at it is preferred
  by at least as many cars as it has spots;
* `exists_parks_iff` — all cars park iff no stretch before a wall is preferred by
  more cars than it has spots;
* `Parks.subset_image_iff` — all cars take the first spots of their own iff these
  are different.
-/
import Mathlib.Data.Finset.Card
import Mathlib.Data.List.Count
import Mathlib.Data.Nat.Find
import Mathlib.Order.Interval.Finset.Nat
import Mathlib.Tactic.Common

namespace Parking

/-- A street of numbered places. -/
structure Street where
  Spot : ℕ → Prop
  Wall : ℕ → Prop
  not_both : ∀ a, Spot a → ¬ Wall a

/-- A car that prefers `p` comes to the spot `q` when the spots `T` are taken. -/
structure FirstFree (S : Street) (T : Finset ℕ) (p q : ℕ) : Prop where
  le : p ≤ q
  spot : S.Spot q
  free : q ∉ T
  between : ∀ a, p ≤ a → a < q → ¬ S.Wall a ∧ (S.Spot a → a ∈ T)

/-- Cars with the preferences `ps` come one after another, and the taken spots
grow from `T` to `T'`. -/
inductive Parks (S : Street) : Finset ℕ → List ℕ → Finset ℕ → Prop
  | nil {T : Finset ℕ} : Parks S T [] T
  | cons {T T' : Finset ℕ} {p q : ℕ} {ps : List ℕ} :
      FirstFree S T p q → Parks S (insert q T) ps T' → Parks S T (p :: ps) T'

variable {S : Street} {T T' T'' : Finset ℕ} {ps qs : List ℕ} {p q t : ℕ}

theorem FirstFree.unique (h : FirstFree S T p q) {q' : ℕ} (h' : FirstFree S T p q') : q = q' := by
  rcases Nat.lt_trichotomy q q' with hlt | heq | hgt
  · exact absurd ((h'.between q h.le hlt).2 h.spot) h.free
  · exact heq
  · exact absurd ((h.between q' h'.le hgt).2 h'.spot) h'.free

theorem FirstFree.mono (h : FirstFree S T p q) (hsub : T ⊆ T') (hq : q ∉ T') :
    FirstFree S T' p q :=
  ⟨h.le, h.spot, hq, fun a hp hq => (h.between a hp hq).imp_right fun h' ha => hsub (h' ha)⟩

theorem Parks.unique (h : Parks S T ps T') (h' : Parks S T ps T'') : T' = T'' := by
  induction h generalizing T'' with
  | nil =>
    cases h'
    rfl
  | cons hfree _ ih =>
    cases h' with
    | cons hfree' h' =>
      obtain rfl := hfree.unique hfree'
      exact ih h'

theorem Parks.append (h : Parks S T ps T') (h' : Parks S T' qs T'') :
    Parks S T (ps ++ qs) T'' := by
  induction h with
  | nil => exact h'
  | cons hfree _ ih => exact .cons hfree (ih h')

theorem Parks.snoc (h : Parks S T ps T') (hfree : FirstFree S T' p q) :
    Parks S T (ps ++ [p]) (insert q T') := h.append (.cons hfree .nil)

/-- The cars of a beginning park before the others. -/
theorem Parks.split (h : Parks S T (ps ++ qs) T'') :
    ∃ T', Parks S T ps T' ∧ Parks S T' qs T'' := by
  induction ps generalizing T with
  | nil => exact ⟨T, .nil, h⟩
  | cons p ps ih =>
    cases h with
    | cons hfree h =>
      obtain ⟨T', h₁, h₂⟩ := ih h
      exact ⟨T', .cons hfree h₁, h₂⟩

/-- When a car that stands between others finds no spot, not all cars park. -/
theorem Parks.not_exists (h : Parks S T ps T') (hno : ¬ ∃ q, FirstFree S T' p q) :
    ¬ ∃ T'', Parks S T (ps ++ p :: qs) T'' := by
  rintro ⟨T'', h'⟩
  obtain ⟨T₁, h₁, h₂⟩ := h'.split
  obtain rfl := h.unique h₁
  cases h₂ with
  | cons hfree _ => exact hno ⟨_, hfree⟩

theorem Parks.card (h : Parks S T ps T') : T'.card = T.card + ps.length := by
  induction h with
  | nil => rfl
  | cons hfree _ ih =>
    rw [ih, Finset.card_insert_of_notMem hfree.free, List.length_cons]
    omega

theorem Parks.spot (h : Parks S T ps T') (hT : ∀ a ∈ T, S.Spot a) : ∀ a ∈ T', S.Spot a := by
  induction h with
  | nil => exact hT
  | cons hfree _ ih =>
    refine ih fun a ha => ?_
    rcases Finset.mem_insert.mp ha with rfl | ha
    · exact hfree.spot
    · exact hT a ha

/-! ### Stretches of the street -/

/-- The number of cars that prefer a place from `s` to before `t`. -/
def wanting (ps : List ℕ) (s t : ℕ) : ℕ := ps.countP fun p => s ≤ p ∧ p < t

open Classical in
/-- The number of spots from `s` to before `t`. -/
noncomputable def spots (S : Street) (s t : ℕ) : ℕ := ((Finset.Ico s t).filter S.Spot).card

theorem wanting_cons (p : ℕ) (ps : List ℕ) (s t : ℕ) :
    wanting (p :: ps) s t = wanting ps s t + if s ≤ p ∧ p < t then 1 else 0 := by
  rw [wanting, List.countP_cons, wanting]
  simp

theorem wanting_append (ps qs : List ℕ) (s t : ℕ) :
    wanting (ps ++ qs) s t = wanting ps s t + wanting qs s t := List.countP_append ..

/-- No car passes the place: it is a wall, or a spot that stays free. -/
def Blocked (S : Street) (T : Finset ℕ) (a : ℕ) : Prop := S.Wall a ∨ S.Spot a ∧ a ∉ T

theorem FirstFree.lt_or_le (h : FirstFree S T p q) {a : ℕ} (ha : Blocked S (insert q T) a) :
    a < p ∨ q < a := by
  by_contra hno
  obtain ⟨hpa, haq⟩ : p ≤ a ∧ a ≤ q := ⟨by omega, by omega⟩
  rcases Nat.lt_or_eq_of_le haq with hlt | rfl
  · obtain ⟨hwall, hspot⟩ := h.between a hpa hlt
    rcases ha with ha | ⟨hs, hfree⟩
    · exact hwall ha
    · exact hfree (Finset.mem_insert_of_mem (hspot hs))
  · rcases ha with ha | ⟨-, hfree⟩
    · exact S.not_both a h.spot ha
    · exact hfree (Finset.mem_insert_self ..)

theorem Blocked.anti {a : ℕ} (h : Blocked S T' a) (hsub : T ⊆ T') : Blocked S T a :=
  h.imp_right fun h => ⟨h.1, fun ha => h.2 (hsub ha)⟩

theorem Parks.subset (h : Parks S T ps T') : T ⊆ T' := by
  induction h with
  | nil => exact Finset.Subset.refl _
  | cons _ _ ih => exact (Finset.subset_insert ..).trans ih

theorem card_inter_insert {I : Finset ℕ} (hq : q ∉ T) :
    (insert q T ∩ I).card = (T ∩ I).card + if q ∈ I then 1 else 0 := by
  by_cases hI : q ∈ I
  · rw [Finset.insert_inter_of_mem hI, Finset.card_insert_of_notMem, if_pos hI]
    exact fun h => hq (Finset.mem_inter.mp h).1
  · rw [Finset.insert_inter_of_notMem hI, if_neg hI, Nat.add_zero]

/-- Behind a blocked place, the spots are taken by cars that prefer them. -/
theorem Parks.card_le_wanting (h : Parks S T ps T') {s : ℕ}
    (hs : ∀ a, a + 1 = s → Blocked S T' a) (t : ℕ) :
    (T' ∩ Finset.Ico s t).card ≤ (T ∩ Finset.Ico s t).card + wanting ps s t := by
  induction h with
  | nil => exact Nat.le_add_right ..
  | @cons T T' p q ps hfree h ih =>
    refine (ih hs).trans ?_
    rw [card_inter_insert hfree.free, wanting_cons]
    by_cases hq : q ∈ Finset.Ico s t
    · obtain ⟨hsq, hqt⟩ := Finset.mem_Ico.mp hq
      have hle := hfree.le
      -- the car has not come from before `s`
      have hsp : s ≤ p := by
        rcases Nat.eq_zero_or_pos s with rfl | hpos
        · omega
        · have hb := (hs (s - 1) (by omega)).anti h.subset
          have := hfree.lt_or_le hb
          omega
      rw [if_pos hq, if_pos ⟨hsp, by omega⟩]
      omega
    · rw [if_neg hq]
      omega

/-- Before a blocked place, the cars take spots of the stretch that they prefer. -/
theorem Parks.wanting_le_card (h : Parks S T ps T') {t : ℕ} (ht : Blocked S T' t) (s : ℕ) :
    (T ∩ Finset.Ico s t).card + wanting ps s (t + 1) ≤ (T' ∩ Finset.Ico s t).card := by
  induction h with
  | nil => exact Nat.le_refl _
  | @cons T T' p q ps hfree h ih =>
    refine le_trans ?_ (ih ht)
    rw [card_inter_insert hfree.free, wanting_cons]
    by_cases hp : s ≤ p ∧ p < t + 1
    · have hle := hfree.le
      have := hfree.lt_or_le (ht.anti h.subset)
      rw [if_pos hp, if_pos (Finset.mem_Ico.mpr ⟨by omega, by omega⟩)]
      omega
    · rw [if_neg hp]
      omega

/-- The stretch of taken spots that ends before `t`. -/
theorem exists_run (S : Street) (T : Finset ℕ) (t : ℕ) :
    ∃ s ≤ t, (∀ a, a + 1 = s → Blocked S T a) ∧
      ∀ a, s ≤ a → a < t → ¬ S.Wall a ∧ (S.Spot a → a ∈ T) := by
  classical
  have hex : ∃ s, s ≤ t ∧ ∀ a, s ≤ a → a < t → ¬ Blocked S T a :=
    ⟨t, Nat.le_refl t, fun a h₁ h₂ => by omega⟩
  obtain ⟨hle, hrun⟩ := Nat.find_spec hex
  refine ⟨Nat.find hex, hle, fun a ha => ?_, fun a h₁ h₂ => ?_⟩
  · by_contra hb
    refine Nat.find_min hex (m := a) (by omega) ⟨by omega, fun b h₁ h₂ => ?_⟩
    rcases Nat.lt_or_eq_of_le h₁ with hlt | rfl
    · exact hrun b (by omega) h₂
    · exact hb
  · have hb := hrun a h₁ h₂
    refine ⟨fun hw => hb (.inl hw), fun hs => ?_⟩
    by_contra hfree
    exact hb (.inr ⟨hs, hfree⟩)

open Classical in
theorem spots_le_card {s : ℕ} (h : ∀ a, s ≤ a → a < t → S.Spot a → a ∈ T) :
    spots S s t ≤ (T ∩ Finset.Ico s t).card := by
  refine Finset.card_le_card fun a ha => ?_
  obtain ⟨hI, hs⟩ := Finset.mem_filter.mp ha
  obtain ⟨h₁, h₂⟩ := Finset.mem_Ico.mp hI
  exact Finset.mem_inter.mpr ⟨h a h₁ h₂ hs, hI⟩

open Classical in
theorem card_le_spots (hT : ∀ a ∈ T, S.Spot a) (s t : ℕ) :
    (T ∩ Finset.Ico s t).card ≤ spots S s t := by
  refine Finset.card_le_card fun a ha => ?_
  obtain ⟨hmem, hI⟩ := Finset.mem_inter.mp ha
  exact Finset.mem_filter.mpr ⟨hI, hT a hmem⟩

open Classical in
theorem spots_succ {s : ℕ} (hst : s ≤ t) (ht : S.Spot t) : spots S s (t + 1) = spots S s t + 1 := by
  rw [spots, show t + 1 = t.succ from rfl, Nat.Ico_succ_right_eq_insert_Ico hst,
    Finset.filter_insert, if_pos ht,
    Finset.card_insert_of_notMem, spots]
  simp

/-- Which spots are taken in the end. -/
theorem Parks.mem_iff (h : Parks S ∅ ps T) : t ∈ T ↔
    S.Spot t ∧ ∃ s ≤ t, spots S s (t + 1) ≤ wanting ps s (t + 1) := by
  constructor
  · intro ht
    have hspot := h.spot (by simp) t ht
    obtain ⟨s, hs, hblocked, hrun⟩ := exists_run S T t
    refine ⟨hspot, s, hs, ?_⟩
    have hle := h.card_le_wanting hblocked (t + 1)
    have hcard : spots S s (t + 1) ≤ (T ∩ Finset.Ico s (t + 1)).card := by
      refine spots_le_card fun a h₁ h₂ ha => ?_
      rcases Nat.lt_or_eq_of_le (Nat.le_of_lt_succ h₂) with hlt | rfl
      · exact (hrun a h₁ hlt).2 ha
      · exact ht
    simp only [Finset.empty_inter, Finset.card_empty, Nat.zero_add] at hle
    omega
  · rintro ⟨hspot, s, hs, hle⟩
    by_contra ht
    -- the cars that prefer the stretch have parked before `t`
    have hcard := h.wanting_le_card (.inr ⟨hspot, ht⟩) s
    have hspots := card_le_spots (h.spot (by simp)) s t
    rw [spots_succ hs hspot] at hle
    simp only [Finset.empty_inter, Finset.card_empty, Nat.zero_add] at hcard
    omega

/-- Whether all cars find a spot, on a street that ends with a wall. -/
theorem exists_parks_iff (hend : ∀ p, ∃ w, p ≤ w ∧ S.Wall w) :
    (∃ T, Parks S ∅ ps T) ↔ ∀ s w, S.Wall w → wanting ps s (w + 1) ≤ spots S s w := by
  constructor
  · rintro ⟨T, h⟩ s w hw
    have hcard := h.wanting_le_card (.inl hw) s
    have hspots := card_le_spots (h.spot (by simp)) s w
    simp only [Finset.empty_inter, Finset.card_empty, Nat.zero_add] at hcard
    omega
  · intro hfit
    induction ps using List.reverseRecOn with
    | nil => exact ⟨∅, .nil⟩
    | append_singleton ps p ih =>
      obtain ⟨T, h⟩ := ih fun s w hw => by
        have := hfit s w hw
        rw [wanting_append] at this
        omega
      by_contra hno
      classical
      -- behind `p` all spots before the next wall are taken
      have hex := hend p
      obtain ⟨hpw, hw⟩ := Nat.find_spec hex
      set w := Nat.find hex
      have htaken : ∀ a, p ≤ a → a < w → ¬ S.Wall a ∧ (S.Spot a → a ∈ T) := by
        intro a
        induction a using Nat.strongRecOn with
        | _ a iha =>
          intro h₁ h₂
          refine ⟨fun ha => Nat.find_min hex h₂ ⟨h₁, ha⟩, fun hs => ?_⟩
          by_contra hfree
          exact hno ⟨_, h.snoc ⟨h₁, hs, hfree, fun b hb hba => iha b hba hb (by omega)⟩⟩
      obtain ⟨s, hs, hblocked, hrun⟩ := exists_run S T p
      have hle := h.card_le_wanting hblocked w
      have hcard : spots S s w ≤ (T ∩ Finset.Ico s w).card := by
        refine spots_le_card fun a h₁ h₂ => ?_
        rcases Nat.lt_or_ge a p with hlt | hge
        · exact (hrun a h₁ hlt).2
        · exact (htaken a hge h₂).2
      have hfit' := hfit s w hw
      have hmono : wanting ps s w ≤ wanting ps s (w + 1) := by
        refine List.countP_mono_left fun a _ ha => ?_
        simp only [decide_eq_true_eq] at ha ⊢
        omega
      rw [wanting_append, wanting_cons, if_pos ⟨hs, by omega⟩] at hfit'
      simp only [Finset.empty_inter, Finset.card_empty, Nat.zero_add] at hle
      omega

/-! ### Spots of their own -/

section Own

variable {γ : Type} {pref first : γ → ℕ} {ms : List γ}

/-- Cars whose first spots are different all take them. -/
theorem parks_of_nodup (hfirst : ∀ m ∈ ms, FirstFree S ∅ (pref m) (first m))
    (hnd : (ms.map first).Nodup) : Parks S ∅ (ms.map pref) (ms.map first).toFinset := by
  induction ms using List.reverseRecOn with
  | nil => exact .nil
  | append_singleton ms m ih =>
    rw [List.map_append, List.map_singleton] at hnd
    rw [List.map_append, List.map_append, List.map_singleton, List.map_singleton]
    obtain ⟨hnd', -, hdisj⟩ := List.nodup_append.mp hnd
    have h := ih (fun q hq => hfirst q (List.mem_append_left _ hq)) hnd'
    have hnew : first m ∉ (ms.map first).toFinset := by
      intro hmem
      exact hdisj _ (List.mem_toFinset.mp hmem) _ (List.mem_singleton_self _) rfl
    have hset : (ms.map first ++ [first m]).toFinset = insert (first m) (ms.map first).toFinset := by
      ext a
      simp
    rw [hset]
    exact h.snoc ((hfirst m (by simp)).mono (Finset.empty_subset _) hnew)

/-- Only first spots are taken iff no two cars have the same one. -/
theorem Parks.subset_image_iff (h : Parks S ∅ (ms.map pref) T)
    (hfirst : ∀ m ∈ ms, FirstFree S ∅ (pref m) (first m)) :
    (∀ t ∈ T, t ∈ ms.map first) ↔ (ms.map first).Nodup := by
  constructor
  · intro hsub
    have hle : T.card ≤ (ms.map first).toFinset.card :=
      Finset.card_le_card fun t ht => List.mem_toFinset.mpr (hsub t ht)
    rw [h.card, Finset.card_empty, Nat.zero_add, List.length_map] at hle
    refine Multiset.coe_nodup.mp (Multiset.toFinset_card_eq_card_iff_nodup.mp ?_)
    refine Nat.le_antisymm (Multiset.toFinset_card_le _) ?_
    simpa using hle
  · intro hnd t ht
    obtain rfl := h.unique (parks_of_nodup hfirst hnd)
    exact List.mem_toFinset.mp ht

end Own

end Parking
