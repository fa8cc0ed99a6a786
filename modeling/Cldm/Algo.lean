/-
The small algorithms of `cldm_algo.c`.

`size_t` arithmetic is taken modulo `2 ^ 64` where it can wrap around.  The
divisibility tests of `cldm_is_prime` are kept as they are written: they only
ever find the factor 3 and factors of the form `6 n - 1`, but never reject a
prime (`isPrime_spec`).  `cldm_flp232` is only used for numbers of jobs.
-/
import Cldm.FuelLoop
import Mathlib.Data.Nat.Prime.Basic
import Mathlib.Tactic.NormNum
import Mathlib.Tactic.Linarith

namespace Cldm

open Prog

variable {σ : Type}

/-- The number of values of a `size_t`. -/
abbrev sizeMod : ℕ := 2 ^ 64

/-- One turn of the loop of `cldm_is_prime`. -/
def isPrimeBody (num div : ℕ) : Prog σ (ℕ ⊕ Bool) :=
  if (div * div - 2 * div) % sizeMod < num then
    if num % (div - 1) = 0 || num % div + 1 = 0 then
      return .inr false
    else
      return .inl ((div + 6) % sizeMod)
  else
    return .inr true

/-- `cldm_is_prime`. -/
def isPrime (num fuel : ℕ) : Prog σ Bool :=
  if num = 2 || num = 3 then
    return true
  else if (if num = 0 then 1 else 0) % 2 ≠ 0 || num % 3 = 0 then
    return false
  else
    fuelLoop (isPrimeBody num) fuel 6

theorem fuelMono_isPrime (num : ℕ) : FuelMono (isPrime num : ℕ → Prog σ Bool) :=
  .ite _ (.const _) (.ite _ (.const _) (.loop (fun div => .const (isPrimeBody num div)) 6))

/-- For numbers whose square roots leave room, `cldm_is_prime` returns, and
returns true for every prime. -/
theorem isPrime_spec {num : ℕ} (hnum : num < 2 ^ 63) (s : σ) :
    Total (isPrime num) (fun b s' => s' = s ∧ (num.Prime → b = true)) s := by
  unfold isPrime
  by_cases h23 : num = 2 ∨ num = 3
  · have hcond : (num = 2 || num = 3) = true := by
      rcases h23 with rfl | rfl <;> rfl
    simp only [hcond, if_true]
    exact Total.const ((wp_pure ..).mpr ⟨rfl, fun _ => rfl⟩)
  have hcond : (decide (num = 2) || decide (num = 3)) = false := by
    simp only [Bool.or_eq_false_iff, decide_eq_false_iff_not]
    exact not_or.mp h23
  simp only [hcond, Bool.false_eq_true, if_false]
  by_cases hsmall : num = 0 ∨ num % 3 = 0
  · have hcond' : ((if num = 0 then 1 else 0) % 2 ≠ 0 || num % 3 = 0) = true := by
      rcases hsmall with rfl | h3
      · rfl
      · simp [h3]
    simp only [hcond', if_true]
    refine Total.const ((wp_pure ..).mpr ⟨rfl, fun hp => ?_⟩)
    rcases hsmall with rfl | h3
    · exact absurd hp Nat.not_prime_zero
    · have := (Nat.prime_dvd_prime_iff_eq Nat.prime_three hp).mp (Nat.dvd_of_mod_eq_zero h3)
      omega
  have hcond' : (decide ((if num = 0 then 1 else 0) % 2 ≠ 0) || decide (num % 3 = 0)) = false := by
    have h0 : num ≠ 0 := fun h => hsmall (.inl h)
    have h3 : num % 3 ≠ 0 := fun h => hsmall (.inr h)
    simp [h0, h3]
  simp only [hcond', Bool.false_eq_true, if_false]
  -- the divisor stays near the square root
  let I : ℕ → ℕ → σ → Prop := fun k div s' =>
    s' = s ∧ 6 ≤ div ∧ div ≤ 2 ^ 32 - 8 ∧ k = 2 ^ 32 - div
  have step : ∀ k div s', I k div s' → Total (fun _ => isPrimeBody num div)
      (fun r s'' => Sum.elim (fun div' => ∃ k' < k, I k' div' s'')
        (fun b => s'' = s ∧ (num.Prime → b = true)) r) s' := by
    rintro k div _ ⟨rfl, hlo, hhi, rfl⟩
    refine Total.const ?_
    have hmod : (div * div - 2 * div) % sizeMod = div * div - 2 * div := by
      refine Nat.mod_eq_of_lt ?_
      have : div * div ≤ (2 ^ 32 - 8) * (2 ^ 32 - 8) := Nat.mul_le_mul hhi hhi
      simp only [sizeMod]
      omega
    simp only [isPrimeBody, hmod]
    by_cases hlt : div * div - 2 * div < num
    · have hdiv : div ≤ 2 ^ 32 - 14 := by
        by_contra hbig
        have h1 : (2 ^ 32 - 15) * (2 ^ 32 - 13) ≤ (div - 2) * div :=
          Nat.mul_le_mul (by omega) (by omega)
        have h2 : (div - 2) * div = div * div - 2 * div := Nat.sub_mul ..
        omega
      rw [if_pos hlt]
      by_cases hfound : num % (div - 1) = 0
      · have hcond : (num % (div - 1) = 0 || num % div + 1 = 0) = true := by simp [hfound]
        rw [if_pos hcond]
        refine (wp_pure ..).mpr ⟨rfl, fun hp => ?_⟩
        have hdvd : div - 1 ∣ num := Nat.dvd_of_mod_eq_zero hfound
        -- a factor below the square root is proper
        have hle : div ≤ div * div - 2 * div := by
          have h1 : div * 4 ≤ div * (div - 2) := Nat.mul_le_mul_left div (by omega)
          have h2 : div * (div - 2) = div * div - div * 2 := Nat.mul_sub ..
          omega
        rcases (Nat.dvd_prime hp).mp hdvd with h1 | h1
        · omega
        · omega
      · have hcond : ¬ (num % (div - 1) = 0 || num % div + 1 = 0) = true := by simp [hfound]
        have hmod' : (div + 6) % sizeMod = div + 6 := by
          refine Nat.mod_eq_of_lt ?_
          simp only [sizeMod]
          omega
        rw [if_neg hcond, hmod']
        exact (wp_pure ..).mpr ⟨2 ^ 32 - (div + 6), by omega, rfl, by omega, by omega, rfl⟩
    · rw [if_neg hlt]
      exact (wp_pure ..).mpr ⟨rfl, fun _ => rfl⟩
  exact total_loop step (2 ^ 32 - 6) 6 s ⟨rfl, by omega, by omega, rfl⟩

/-- `cldm_flp232`: all bits below the highest one are set, and then all but the
highest are taken away. -/
def flp232 (x : ℕ) : ℕ :=
  let x := x ||| (x >>> 1)
  let x := x ||| (x >>> 2)
  let x := x ||| (x >>> 4)
  let x := x ||| (x >>> 8)
  let x := x ||| (x >>> 16)
  x - (x >>> 1)

/-- For the numbers of jobs, `cldm_flp232` is the floor power of two. -/
theorem flp232_floor {n : ℕ} (hpos : 1 ≤ n) (hle : n ≤ 32) :
    flp232 n ≤ n ∧ n < 2 * flp232 n ∧ ∃ p ≤ 5, flp232 n = 2 ^ p := by
  have hall : ∀ n < 33, 1 ≤ n → flp232 n ≤ n ∧ n < 2 * flp232 n ∧ ∃ p ≤ 5, flp232 n = 2 ^ p := by
    decide
  exact hall n (by omega) hpos

end Cldm
