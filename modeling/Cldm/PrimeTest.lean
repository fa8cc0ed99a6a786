/-
Which numbers `cldm_is_prime` takes for primes.

Its loop tries the divisors 5, 11, 17 and so on, up to the square root.  Divisors of
the form `6 n + 1` and the divisor 2 are never tried.  Just below `2 ^ 64` the bound of
the loop wraps around, and the loop goes on to larger divisors, at last to 1.

* `LoopEndsAt` — a place where the loop takes a number for a prime;
* `isPrime_iff` — when `cldm_is_prime` returns true;
* `exists_endsAt` — the loop stops in time for every prime;
* `TrialSuffices` — the numbers whose divisors are found;
* `isPrime_correct` — `cldm_is_prime` is right for exactly these numbers, and they are
  the prime capacities that hash tables get.
-/
import Cldm.HashRun

namespace Cldm

open Prog

/-- The loop of `cldm_is_prime` comes to the divisor `x`, and its bound ends it there. -/
structure LoopEndsAt (num x : ℕ) : Prop where
  tried : x % 6 = 5
  lt : x < sizeMod
  bound : num < x * x % sizeMod
  before : ∀ y < x, y % 6 = 5 → ¬ y ∣ num

/-- Nothing has ended the loop before the divisor `x`. -/
def Passed (num x : ℕ) : Prop := ∀ y < x, y % 6 = 5 → ¬ y ∣ num ∧ y * y % sizeMod ≤ num

section Loop

variable {σ : Type} {num x : ℕ}

/-- The bound of the loop, for the divisor before `div`. -/
theorem bound_iff (hx : x % 6 = 5) :
    ((x + 1) * (x + 1) - 2 * (x + 1)) % sizeMod < num ↔ x * x % sizeMod ≤ num := by
  have hodd : x * x % 2 = 1 := by
    rw [Nat.mul_mod, show x % 2 = 1 by omega]
  have hsq : (x + 1) * (x + 1) - 2 * (x + 1) = x * x - 1 := by
    have : (x + 1) * (x + 1) = x * x + 2 * x + 1 := by ring
    omega
  rw [hsq]
  simp only [sizeMod]
  omega

theorem Passed.endsAt (h : Passed num x) (hx : x % 6 = 5) (hlt : x < sizeMod)
    (hbound : num < x * x % sizeMod) : LoopEndsAt num x :=
  ⟨hx, hlt, hbound, fun y hy hy5 => (h y hy hy5).1⟩

/-- Where the loop finds a divisor, it has not stopped before and does not stop later. -/
theorem Passed.not_endsAt (h : Passed num x) (hx : x % 6 = 5) (hle : x * x % sizeMod ≤ num)
    (hdvd : x ∣ num) (y : ℕ) : ¬ LoopEndsAt num y := by
  intro hy
  rcases Nat.lt_trichotomy y x with hlt | rfl | hgt
  · exact absurd (h y hlt hy.tried).2 (Nat.not_le.mpr hy.bound)
  · exact absurd hle (Nat.not_le.mpr hy.bound)
  · exact hy.before x hgt hx hdvd

/-- The loop of `cldm_is_prime` comes back to the divisor 1 at the latest. -/
theorem isPrime_loop (hpos : 0 < num) (s : σ) :
    Total (fun n => fuelLoop (isPrimeBody num) n 6)
      (fun b s' => s' = s ∧ (b = true ↔ ∃ x, LoopEndsAt num x)) s := by
  let I : ℕ → ℕ → σ → Prop := fun k div s' => s' = s ∧
    ((∃ x, div = x + 1 ∧ x % 6 = 5 ∧ x < sizeMod ∧ k = sizeMod - x ∧ Passed num x) ∨
      (div = 2 ∧ k = 0 ∧ Passed num sizeMod))
  have step : ∀ k div s', I k div s' → Total (fun _ => isPrimeBody num div)
      (fun r s'' => Sum.elim (fun div' => ∃ k' < k, I k' div' s'')
        (fun b => s'' = s ∧ (b = true ↔ ∃ x, LoopEndsAt num x)) r) s' := by
    rintro k div _ ⟨rfl, ⟨x, rfl, hx, hlt, rfl, hpassed⟩ | ⟨rfl, rfl, hpassed⟩⟩
    · refine Total.const ?_
      by_cases hbound : x * x % sizeMod ≤ num
      · rw [isPrimeBody, if_pos ((bound_iff hx).mpr hbound), Nat.add_sub_cancel]
        by_cases hdvd : x ∣ num
        · have hfound : (num % x = 0 || num % (x + 1) + 1 = 0) = true := by
            simp [Nat.mod_eq_zero_of_dvd hdvd]
          rw [if_pos hfound]
          refine (wp_pure ..).mpr ⟨rfl, iff_of_false (by simp) ?_⟩
          rintro ⟨y, hy⟩
          exact hpassed.not_endsAt hx hbound hdvd y hy
        · have hfound : ¬ (num % x = 0 || num % (x + 1) + 1 = 0) = true := by
            simpa using fun h0 => hdvd (Nat.dvd_of_mod_eq_zero h0)
          rw [if_neg hfound]
          refine (wp_pure ..).mpr ?_
          have hnext : Passed num (x + 6) := by
            intro y hy hy5
            rcases Nat.lt_or_ge y x with h | h
            · exact hpassed y h hy5
            · obtain rfl : y = x := by omega
              exact ⟨hdvd, hbound⟩
          simp only [sizeMod] at hlt
          by_cases hlast : x + 6 < sizeMod
          · simp only [sizeMod] at hlast
            rw [Nat.mod_eq_of_lt (show x + 1 + 6 < sizeMod by simp only [sizeMod]; omega)]
            refine ⟨sizeMod - (x + 6), by simp only [sizeMod]; omega, rfl,
              .inl ⟨x + 6, by omega, by omega, hlast, rfl, hnext⟩⟩
          · simp only [sizeMod] at hlast
            obtain rfl : x = 2 ^ 64 - 5 := by omega
            refine ⟨0, by decide, rfl, .inr ⟨rfl, rfl, fun y hy hy5 => hnext y ?_ hy5⟩⟩
            simp only [sizeMod] at hy
            omega
      · rw [isPrimeBody, if_neg fun h => hbound ((bound_iff hx).mp h)]
        exact (wp_pure ..).mpr ⟨rfl, iff_of_true rfl ⟨x, hpassed.endsAt hx hlt (by omega)⟩⟩
    · -- every number is divisible by 1
      refine Total.const ?_
      have hzero : (2 * 2 - 2 * 2) % sizeMod < num := hpos
      rw [isPrimeBody, if_pos hzero]
      have hone : (num % (2 - 1) = 0 || num % 2 + 1 = 0) = true := by simp [Nat.mod_one]
      rw [if_pos hone]
      refine (wp_pure ..).mpr ⟨rfl, iff_of_false (by simp) ?_⟩
      rintro ⟨x, hx⟩
      exact absurd (hpassed x hx.lt hx.tried).2 (Nat.not_le.mpr hx.bound)
  refine total_loop step (sizeMod - 5) 6 s ⟨rfl, .inl ⟨5, rfl, rfl, by decide, rfl, ?_⟩⟩
  intro y hy hy5
  omega

/-- When `cldm_is_prime` returns true. -/
theorem isPrime_iff (num : ℕ) (s : σ) :
    Total (isPrime num) (fun b s' => s' = s ∧ (b = true ↔
      num = 2 ∨ num = 3 ∨ (num ≠ 0 ∧ ¬ 3 ∣ num ∧ ∃ x, LoopEndsAt num x))) s := by
  unfold isPrime
  by_cases h23 : num = 2 ∨ num = 3
  · have hcond : (num = 2 || num = 3) = true := by
      rcases h23 with rfl | rfl <;> rfl
    simp only [hcond, if_true]
    refine Total.const ((wp_pure ..).mpr ⟨rfl, iff_of_true rfl ?_⟩)
    exact h23.imp_right .inl
  have hcond : ¬ (num = 2 || num = 3) = true := by simpa using h23
  simp only [if_neg hcond]
  by_cases hsmall : num = 0 ∨ 3 ∣ num
  · have hcond' : ((if num = 0 then 1 else 0) % 2 ≠ 0 || num % 3 = 0) = true := by
      rcases hsmall with rfl | h3
      · rfl
      · simp [Nat.mod_eq_zero_of_dvd h3]
    simp only [if_pos hcond']
    refine Total.const ((wp_pure ..).mpr ⟨rfl, iff_of_false (by simp) ?_⟩)
    rintro (h2 | h3 | ⟨h0, h3, -⟩)
    · exact h23 (.inl h2)
    · exact h23 (.inr h3)
    · exact hsmall.elim h0 h3
  obtain ⟨h0, h3⟩ := not_or.mp hsmall
  have hcond' : ¬ ((if num = 0 then 1 else 0) % 2 ≠ 0 || num % 3 = 0) = true := by
    have hmod : num % 3 ≠ 0 := fun h => h3 (Nat.dvd_of_mod_eq_zero h)
    simp [h0, hmod]
  simp only [if_neg hcond']
  refine (isPrime_loop (Nat.pos_of_ne_zero h0) s).mono ?_
  rintro b s' ⟨rfl, hb⟩
  refine ⟨rfl, hb.trans ⟨fun h => .inr (.inr ⟨h0, h3, h⟩), ?_⟩⟩
  rintro (h2 | h3' | ⟨-, -, h⟩)
  · exact absurd (.inl h2) h23
  · exact absurd (.inr h3') h23
  · exact h

end Loop

/-! ### Primes -/

section Primes

variable {σ : Type} {num p : ℕ}

/-- The first number `6 n - 1` above the square root. -/
theorem exists_tried_above (num : ℕ) :
    ∃ x, x % 6 = 5 ∧ num.sqrt < x ∧ x ≤ num.sqrt + 6 ∧ num < x * x := by
  refine ⟨6 * ((num.sqrt + 1) / 6) + 5, by omega, by omega, by omega, ?_⟩
  have hgt : num.sqrt + 1 ≤ 6 * ((num.sqrt + 1) / 6) + 5 := by omega
  exact (Nat.lt_succ_sqrt num).trans_le (Nat.mul_le_mul hgt hgt)

theorem mul_self_lt_sizeMod {x : ℕ} (h : x < 2 ^ 32) : x * x < sizeMod := by
  have hle : x * x ≤ (2 ^ 32 - 1) * (2 ^ 32 - 1) := Nat.mul_le_mul (by omega) (by omega)
  simp only [sizeMod]
  omega

/-- A prime below the divisors that are tried has none of them. -/
theorem not_dvd_of_lt (hp : p.Prime) {x : ℕ} (hx : x ≤ p) : ∀ y < x, y % 6 = 5 → ¬ y ∣ p := by
  intro y hy hy5 hdvd
  rcases (Nat.dvd_prime hp).mp hdvd with rfl | rfl
  · omega
  · omega

theorem exists_endsAt_of_lt (hp : p.Prime) (h5 : 5 ≤ p) (hlt : p < 2 ^ 62) :
    ∃ x, LoopEndsAt p x := by
  obtain ⟨x, hx, hlo, hhi, hgt⟩ := exists_tried_above p
  have hle : p.sqrt * p.sqrt ≤ p := Nat.sqrt_le p
  have hsqrt : p.sqrt < 2 ^ 31 := Nat.sqrt_lt'.mpr (by omega)
  have htwo : 2 ≤ p.sqrt := Nat.le_sqrt'.mpr (by omega)
  have hxp : x ≤ p := by
    rcases Nat.eq_or_lt_of_le htwo with h2 | h3
    · omega
    · have : 3 * p.sqrt ≤ p.sqrt * p.sqrt := Nat.mul_le_mul_right _ h3
      omega
  have hsq : x * x < sizeMod := mul_self_lt_sizeMod (by omega)
  refine ⟨x, hx, by simp only [sizeMod]; omega, ?_, not_dvd_of_lt hp hxp⟩
  rw [Nat.mod_eq_of_lt hsq]
  exact hgt

/-- The square of 1852311383259529397 is `2 ^ 64 - 7` modulo `2 ^ 64`, and no prime lies
between that and `2 ^ 64`. -/
theorem exists_endsAt_of_ge (hp : p.Prime) (hge : 2 ^ 62 ≤ p) (hlt : p < sizeMod) :
    ∃ x, LoopEndsAt p x := by
  have hbelow : p < 2 ^ 64 - 7 := by
    by_contra hnot
    simp only [sizeMod] at hlt
    have hlo : 18446744073709551609 ≤ p := by omega
    have hhi : p < 18446744073709551616 := by omega
    interval_cases p
    all_goals
      revert hp
      norm_num
  have hsq : 1852311383259529397 * 1852311383259529397 % sizeMod = 2 ^ 64 - 7 := by decide
  refine ⟨1852311383259529397, by decide, by decide, ?_, not_dvd_of_lt hp (by omega)⟩
  rw [hsq]
  exact hbelow

theorem exists_endsAt (hp : p.Prime) (h5 : 5 ≤ p) (hlt : p < sizeMod) : ∃ x, LoopEndsAt p x := by
  rcases Nat.lt_or_ge p (2 ^ 62) with h | h
  · exact exists_endsAt_of_lt hp h5 h
  · exact exists_endsAt_of_ge hp h hlt

/-- The number is a prime, 0 or a multiple of 3, or else it has a divisor `6 n - 1` below
every divisor of this form whose square, modulo `2 ^ 64`, is larger than the number. -/
def TrialSuffices (num : ℕ) : Prop :=
  num.Prime ∨ num = 0 ∨ 3 ∣ num ∨
    ∀ x, x % 6 = 5 → x < sizeMod → num < x * x % sizeMod → ∃ y < x, y % 6 = 5 ∧ y ∣ num

/-- Unless the number is very large, the last case is a divisor `6 n - 1` up to the square
root. -/
theorem trialSuffices_iff (hlt : num < (2 ^ 32 - 6) ^ 2) : TrialSuffices num ↔
    num.Prime ∨ num = 0 ∨ 3 ∣ num ∨ ∃ y, y % 6 = 5 ∧ y * y ≤ num ∧ y ∣ num := by
  refine or_congr_right (or_congr_right (or_congr_right ⟨fun h => ?_, ?_⟩))
  · obtain ⟨x, hx, hlo, hhi, hgt⟩ := exists_tried_above num
    have hsqrt : num.sqrt < 2 ^ 32 - 6 := Nat.sqrt_lt'.mpr hlt
    have hsq : x * x < sizeMod := mul_self_lt_sizeMod (by omega)
    rw [← Nat.mod_eq_of_lt hsq] at hgt
    obtain ⟨y, hyx, hy, hdvd⟩ := h x hx (by simp only [sizeMod]; omega) hgt
    -- the numbers that are tried lie six apart
    have hle : y ≤ num.sqrt := by omega
    exact ⟨y, hy, (Nat.mul_le_mul hle hle).trans (Nat.sqrt_le num), hdvd⟩
  · rintro ⟨y, hy, hle, hdvd⟩ x - - hgt
    have hsq : y * y < x * x := hle.trans_lt (hgt.trans_le (Nat.mod_le ..))
    exact ⟨y, Nat.mul_self_lt_mul_self_iff.mp hsq, hy, hdvd⟩

/-- `cldm_is_prime` returns, and is right for exactly these numbers. -/
theorem isPrime_correct (hnum : num < sizeMod) (s : σ) :
    Total (isPrime num) (fun b s' => s' = s ∧ ((b = true ↔ num.Prime) ↔ TrialSuffices num)) s := by
  refine (isPrime_iff num s).mono ?_
  rintro b s' ⟨rfl, hb⟩
  refine ⟨rfl, ?_⟩
  rw [hb]
  by_cases hp : num.Prime
  · refine iff_of_true (iff_of_true ?_ hp) (.inl hp)
    by_cases h2 : num = 2
    · exact .inl h2
    by_cases h3 : num = 3
    · exact .inr (.inl h3)
    have h5 : 5 ≤ num := by
      have h4 : num ≠ 4 := by
        rintro rfl
        exact absurd hp (by decide)
      have := hp.two_le
      omega
    refine .inr (.inr ⟨by omega, fun hdvd => ?_, exists_endsAt hp h5 hnum⟩)
    exact h3 ((Nat.prime_dvd_prime_iff_eq Nat.prime_three hp).mp hdvd).symm
  · have h2 : num ≠ 2 := by
      rintro rfl
      exact hp Nat.prime_two
    have h3 : num ≠ 3 := by
      rintro rfl
      exact hp Nat.prime_three
    constructor
    · intro h
      by_contra hnot
      simp only [TrialSuffices, not_or, not_forall] at hnot
      obtain ⟨-, h0, hdvd, x, hx, hlt, hgt, hno⟩ := hnot
      exact hp (h.mp (.inr (.inr ⟨h0, hdvd, x, hx, hlt, hgt, fun y hy hy5 hyd =>
        hno ⟨y, hy, hy5, hyd⟩⟩)))
    · intro h
      refine iff_of_false ?_ hp
      rintro (h2' | h3' | ⟨h0, hdvd, x, hx⟩)
      · exact h2 h2'
      · exact h3 h3'
      · rcases h with hp' | h0' | hdvd' | hall
        · exact hp hp'
        · exact h0 h0'
        · exact hdvd hdvd'
        · obtain ⟨y, hyx, hy5, hyd⟩ := hall x hx.tried hx.lt hx.bound
          exact hx.before y hyx hy5 hyd

end Primes

/-! ### Capacities -/

section Capacities

variable {σ : Type} {env : HtEnv} {s : Ht} {K : Set (List UInt8)} {P : ℕ → Prop} {n : ℕ}

/-- What `cldm_ht_sizeup` returns was accepted by `cldm_is_prime`. -/
theorem htSizeup_prime_iff {cap c : ℕ} {t t' : σ} (h : htSizeup cap n t = some (c, t')) :
    c.Prime ↔ TrialSuffices c := by
  have hstart : (cap <<< 1) % sizeMod ||| 1 < sizeMod :=
    Nat.or_lt_two_pow (Nat.mod_lt _ (by decide)) (by decide)
  refine fuelLoop_partial (I := fun current _ => current < sizeMod)
    (Q := fun c _ => c.Prime ↔ TrialSuffices c) ?_ n _ t c t' hstart h
  intro current t₁ r t₂ hlt hbody
  obtain ⟨b, t₃, hprime, hrest⟩ := bind_eq_some.mp hbody
  split_ifs at hrest with hb
  · obtain ⟨rfl, rfl⟩ := Prod.mk.inj (Option.some.inj hrest)
    obtain ⟨-, hright⟩ := (isPrime_correct hlt t₁).of_returns ((fuelMono_isPrime _).returns hprime)
    rw [iff_true_left hb] at hright
    exact hright
  · obtain ⟨rfl, rfl⟩ := Prod.mk.inj (Option.some.inj hrest)
    exact Nat.mod_lt _ (by decide)

/-- The capacity in a run is the first one, or one that `cldm_ht_sizeup` returned. -/
theorem HtRun.new_capacity {ok : HtCall → Ht → Prop}
    (hnew : ∀ cap n (t : Ht) c t', htSizeup cap n t = some (c, t') → P c) (hinit : P htStaticSize)
    (h : HtRun env ok s K) : P s.capacity := by
  refine h.keeps (I := fun s => P s.capacity) (E := fun _ => True) hinit (fun _ _ => trivial)
    (fun _ _ _ hs _ => hs) (fun _ _ _ _ _ => trivial)
    (fun s cap n _ hsize _ => hnew s.capacity n s cap s hsize) (fun _ _ hs => hs) ?_
  intro s s' hs hclear
  obtain ⟨-, rfl⟩ := Prod.mk.inj (Option.some.inj hclear)
  exact hs

/-- `cldm_is_prime` returns for every `size_t`, and is right for exactly the numbers whose
divisors are found; a capacity that `cldm_ht_sizeup` produces, and so the capacity in
every run of the hash table, is a prime for exactly these numbers. -/
theorem prime_test_correct (num : ℕ) :
    (num < sizeMod → ∃ b, Returns (isPrime num) () b () ∧
      ((b = true ↔ num.Prime) ↔ TrialSuffices num)) ∧
    (∀ cap, Returns (htSizeup cap) () num () → (num.Prime ↔ TrialSuffices num)) ∧
    ∀ env ok s K, HtRun env ok s K → s.capacity = num → (num.Prime ↔ TrialSuffices num) := by
  refine ⟨fun hnum => ?_, fun cap hret => ?_, ?_⟩
  · obtain ⟨b, _, hret, -, hright⟩ := isPrime_correct hnum ()
    exact ⟨b, hret, hright⟩
  · obtain ⟨k, hk⟩ := hret
    exact htSizeup_prime_iff (hk k (Nat.le_refl k))
  · rintro env ok s K h rfl
    have hinit : Nat.Prime htStaticSize := by norm_num
    exact h.new_capacity (P := fun c => c.Prime ↔ TrialSuffices c)
      (fun cap n t c t' hsize => htSizeup_prime_iff hsize) (iff_of_true hinit (.inl hinit))

/-- From the capacity 8963, which is a prime, a table grows to `7 * 13 * 197`. -/
theorem prime_test_accepts_composite : Returns (isPrime 17927) () true () ∧
    Returns (htSizeup 8963) () 17927 () ∧ ¬ Nat.Prime 17927 := by
  have hprime : isPrime 17927 30 () = some (true, ()) := by decide +kernel
  have hsize : htSizeup 8963 30 () = some (17927, ()) := by decide +kernel
  exact ⟨(fuelMono_isPrime _).returns hprime, (fuelMono_htSizeup _).returns hsize, by norm_num⟩

end Capacities

end Cldm
