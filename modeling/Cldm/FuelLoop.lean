/-
Programs with unbounded loops (fuel-indexed state passing).

A program is a state transformer that may fail to return: `Prog σ β` maps a
state to `some (b, s')` when it returns `b` in state `s'`, and to `none` when
it faults or has not returned within its fuel.  A loop of the source becomes
`fuelLoop body`, which runs `body` at most `n` times:

* `wp x Q s` — from `s`, `x` returns, and then `Q` holds of the answer and the
  state; its rules run a straight-line program by `simp`;
* `Returns f s b s'` — with enough fuel, `f` returns `b` from `s` in state `s'`;
* `Total f Q s` — with enough fuel `f` returns, and `Q` holds of its answer;
* `fuelLoop_partial` — an invariant that every iteration keeps holds of every
  answer of a loop;
* `total_loop` — the total-correctness rule: an invariant indexed by a bound
  that every iteration lowers gives termination and the postcondition;
* `FuelMono` — more fuel never changes an answer, so that one run with a fixed
  fuel already decides `Returns` (`FuelMono.returns`);
* `fuelLoop_diverges` — an invariant that every iteration keeps without
  leaving the loop means that no fuel suffices;
* `Settles f Q F s` — `f` returns with enough fuel, or never, and then `F` holds;
* `Answers f s ans` — a program that only reads returns `ans`, or never returns;
* `Preserves I x` — whatever `x` returns, it keeps `I`; the rules follow the program.
-/
import Mathlib.Order.Basic
import Mathlib.Tactic.Common

/-- A state-passing program; `none` is a run that does not return. -/
abbrev Prog (σ β : Type) := StateT σ Option β

namespace Prog

variable {σ β γ ι : Type}

theorem bind_apply (x : Prog σ β) (f : β → Prog σ γ) (s : σ) :
    (x >>= f) s = (x s).bind fun r => f r.1 r.2 := by
  cases h : x s <;> simp [Bind.bind, StateT.bind, h]

theorem bind_some {x : Prog σ β} {f : β → Prog σ γ} {s s' : σ} {b : β} {r : Option (γ × σ)}
    (hx : x s = some (b, s')) (hf : f b s' = r) : (x >>= f) s = r := by
  rw [bind_apply, hx]
  exact hf

theorem bind_get {f : σ → Prog σ γ} {s : σ} {r : Option (γ × σ)} (hf : f s s = r) :
    ((get : Prog σ σ) >>= f) s = r :=
  bind_some (show (get : Prog σ σ) s = some (s, s) from rfl) hf

theorem bind_eq_some {x : Prog σ β} {f : β → Prog σ γ} {s : σ} {r : γ × σ} :
    (x >>= f) s = some r ↔ ∃ b s', x s = some (b, s') ∧ f b s' = some r := by
  rw [bind_apply, Option.bind_eq_some_iff]
  constructor
  · rintro ⟨⟨b, s'⟩, hx, hf⟩
    exact ⟨b, s', hx, hf⟩
  · rintro ⟨b, s', hx, hf⟩
    exact ⟨(b, s'), hx, hf⟩

@[simp] theorem pure_apply (b : β) (s : σ) : (pure b : Prog σ β) s = some (b, s) := rfl

/-! ### Weakest preconditions -/

/-- From `s`, `x` returns, and `Q` holds of its answer and the state after it. -/
def wp (x : Prog σ β) (Q : β → σ → Prop) (s : σ) : Prop :=
  ∃ b s', x s = some (b, s') ∧ Q b s'

theorem wp_of_some {x : Prog σ β} {Q : β → σ → Prop} {s s' : σ} {b : β}
    (h : x s = some (b, s')) : wp x Q s ↔ Q b s' := by
  constructor
  · rintro ⟨b', s'', h', hQ⟩
    obtain ⟨rfl, rfl⟩ := Prod.mk.inj (Option.some.inj (h.symm.trans h'))
    exact hQ
  · exact fun hQ => ⟨b, s', h, hQ⟩

theorem eq_some_of_wp {x : Prog σ β} {s s' : σ} {b : β}
    (h : wp x (fun b' s'' => b' = b ∧ s'' = s') s) : x s = some (b, s') := by
  obtain ⟨b', s'', hx, rfl, rfl⟩ := h
  exact hx

@[simp] theorem wp_pure (b : β) (Q : β → σ → Prop) (s : σ) :
    wp (pure b : Prog σ β) Q s ↔ Q b s := wp_of_some rfl

@[simp] theorem wp_bind (x : Prog σ β) (f : β → Prog σ γ) (Q : γ → σ → Prop) (s : σ) :
    wp (x >>= f) Q s ↔ wp x (fun b => wp (f b) Q) s := by
  constructor
  · rintro ⟨c, s', h, hQ⟩
    obtain ⟨b, s'', hx, hf⟩ := bind_eq_some.mp h
    exact ⟨b, s'', hx, c, s', hf, hQ⟩
  · rintro ⟨b, s'', hx, c, s', hf, hQ⟩
    exact ⟨c, s', bind_eq_some.mpr ⟨b, s'', hx, hf⟩, hQ⟩

@[simp] theorem wp_map (x : Prog σ β) (f : β → γ) (Q : γ → σ → Prop) (s : σ) :
    wp (f <$> x) Q s ↔ wp x (fun b => Q (f b)) s := by
  rw [map_eq_pure_bind, wp_bind]
  exact exists_congr fun _ => exists_congr fun _ => and_congr_right fun _ => wp_pure _ _ _

@[simp] theorem wp_ite (c : Prop) [Decidable c] (x y : Prog σ β) (Q : β → σ → Prop) (s : σ) :
    wp (if c then x else y) Q s ↔ if c then wp x Q s else wp y Q s := by
  split_ifs <;> rfl

@[simp] theorem wp_get (Q : σ → σ → Prop) (s : σ) : wp (get : Prog σ σ) Q s ↔ Q s s :=
  wp_of_some rfl

@[simp] theorem wp_set (s' : σ) (Q : PUnit → σ → Prop) (s : σ) :
    wp (set s' : Prog σ PUnit) Q s ↔ Q ⟨⟩ s' := wp_of_some rfl

/-- The consequence rule. -/
theorem wp_mono {x : Prog σ β} {Q Q' : β → σ → Prop} {s : σ} (h : wp x Q s)
    (hQ : ∀ b s', Q b s' → Q' b s') : wp x Q' s := by
  obtain ⟨b, s', hx, hq⟩ := h
  exact ⟨b, s', hx, hQ b s' hq⟩

/-- Short-circuit conjunction. -/
@[simp] theorem wp_and (x y : Prog σ Bool) (Q : Bool → σ → Prop) (s : σ) :
    wp (x <&&> y) Q s ↔ wp x (fun b s' => if b then wp y Q s' else Q false s') s := by
  rw [andM, wp_bind]
  refine exists_congr fun b => exists_congr fun s' => and_congr_right fun _ => ?_
  cases b <;> simp [toBool]

/-- Short-circuit disjunction. -/
@[simp] theorem wp_or (x y : Prog σ Bool) (Q : Bool → σ → Prop) (s : σ) :
    wp (x <||> y) Q s ↔ wp x (fun b s' => if b then Q true s' else wp y Q s') s := by
  rw [orM, wp_bind]
  refine exists_congr fun b => exists_congr fun s' => and_congr_right fun _ => ?_
  cases b <;> simp [toBool]

/-! ### Loops -/

/-- Run `body` until it leaves the loop (`Sum.inr`), at most `n` times. -/
def fuelLoop (body : ι → Prog σ (ι ⊕ β)) : ℕ → ι → Prog σ β
  | 0, _ => fun _ => none
  | n + 1, i => do
      match ← body i with
      | .inl i' => fuelLoop body n i'
      | .inr b => pure b

attribute [grind =] fuelLoop

theorem fuelLoop_succ (body : ι → Prog σ (ι ⊕ β)) (n : ℕ) (i : ι) (s : σ) :
    fuelLoop body (n + 1) i s =
      (body i s).bind fun r => Sum.elim (fun i' => fuelLoop body n i' r.2)
        (fun b => some (b, r.2)) r.1 := by
  rw [fuelLoop, bind_apply]
  congr 1
  funext r
  rcases r with ⟨i' | b, s'⟩ <;> rfl

theorem fuelLoop_next {body : ι → Prog σ (ι ⊕ β)} {n : ℕ} {i i' : ι} {s s' : σ}
    (h : body i s = some (.inl i', s')) :
    fuelLoop body (n + 1) i s = fuelLoop body n i' s' := by
  rw [fuelLoop_succ, h]
  rfl

theorem fuelLoop_done {body : ι → Prog σ (ι ⊕ β)} {n : ℕ} {i : ι} {s s' : σ} {b : β}
    (h : body i s = some (.inr b, s')) : fuelLoop body (n + 1) i s = some (b, s') := by
  rw [fuelLoop_succ, h]
  rfl

/-- The partial-correctness rule: what holds of every answer of the loop. -/
theorem fuelLoop_partial {body : ι → Prog σ (ι ⊕ β)} {I : ι → σ → Prop} {Q : β → σ → Prop}
    (step : ∀ i s r s', I i s → body i s = some (r, s') →
      Sum.elim (fun i' => I i' s') (fun b => Q b s') r) :
    ∀ n i s b s', I i s → fuelLoop body n i s = some (b, s') → Q b s' := by
  intro n
  induction n with
  | zero => exact fun i s b s' _ h => absurd h (by simp [fuelLoop])
  | succ n ih =>
    intro i s b s' hI h
    rw [fuelLoop_succ, Option.bind_eq_some_iff] at h
    obtain ⟨⟨r, s₁⟩, hbody, hr⟩ := h
    have hstep := step i s r s₁ hI hbody
    rcases r with i' | b'
    · exact ih i' s₁ b s' hstep hr
    · obtain ⟨rfl, rfl⟩ := Prod.mk.inj (Option.some.inj hr)
      exact hstep

/-- A loop that no iteration leaves does not return, whether or not an iteration fails. -/
theorem fuelLoop_never {body : ι → Prog σ (ι ⊕ β)} {I : ι → Prop}
    (step : ∀ i s r s', I i → body i s = some (r, s') → ∃ i', r = .inl i' ∧ I i') :
    ∀ n i s, I i → fuelLoop body n i s = none := by
  intro n i s hI
  by_contra hsome
  obtain ⟨⟨b, s'⟩, hrun⟩ := Option.ne_none_iff_exists'.mp hsome
  have hstep : ∀ i s r s', I i → body i s = some (r, s') →
      Sum.elim (fun i' => I i') (fun _ => False) r := by
    intro i s r s' hI hbody
    obtain ⟨i', rfl, hI'⟩ := step i s r s' hI hbody
    exact hI'
  have hleft : False := fuelLoop_partial (I := fun i _ => I i) (Q := fun _ _ => False) hstep
    n i s b s' hI hrun
  exact hleft

/-- A loop whose every iteration continues under an invariant never returns. -/
theorem fuelLoop_diverges {body : ι → Prog σ (ι ⊕ β)} {I : ι → σ → Prop}
    (step : ∀ i s, I i s → ∃ i' s', body i s = some (.inl i', s') ∧ I i' s') :
    ∀ n i s, I i s → fuelLoop body n i s = none := by
  intro n
  induction n with
  | zero => intro i s _; rfl
  | succ n ih =>
    intro i s hI
    obtain ⟨i', s', hbody, hI'⟩ := step i s hI
    rw [fuelLoop_next hbody]
    exact ih i' s' hI'

/-! ### Returning with enough fuel -/

/-- With enough fuel, `f` returns `b` from `s` in state `s'`. -/
def Returns (f : ℕ → Prog σ β) (s : σ) (b : β) (s' : σ) : Prop :=
  ∃ k, ∀ n, k ≤ n → f n s = some (b, s')

theorem Returns.unique {f : ℕ → Prog σ β} {s s₁ s₂ : σ} {b₁ b₂ : β}
    (h₁ : Returns f s b₁ s₁) (h₂ : Returns f s b₂ s₂) : b₁ = b₂ ∧ s₁ = s₂ := by
  obtain ⟨k₁, h₁⟩ := h₁
  obtain ⟨k₂, h₂⟩ := h₂
  have h := (h₁ (max k₁ k₂) (Nat.le_max_left _ _)).symm.trans (h₂ (max k₁ k₂) (Nat.le_max_right _ _))
  exact Prod.mk.inj (Option.some.inj h)

theorem Returns.bind {f : ℕ → Prog σ β} {g : β → ℕ → Prog σ γ} {s s' s'' : σ} {b : β} {c : γ}
    (hf : Returns f s b s') (hg : Returns (g b) s' c s'') :
    Returns (fun n => f n >>= fun b => g b n) s c s'' := by
  obtain ⟨k, hf⟩ := hf
  obtain ⟨j, hg⟩ := hg
  refine ⟨max k j, fun n hn => ?_⟩
  exact bind_some (hf n (by omega)) (hg n (by omega))

/-- With enough fuel `f` returns from `s`, and `Q` holds of its answer and the
state after it. -/
def Total (f : ℕ → Prog σ β) (Q : β → σ → Prop) (s : σ) : Prop :=
  ∃ b s', Returns f s b s' ∧ Q b s'

theorem Total.of_returns {f : ℕ → Prog σ β} {Q : β → σ → Prop} {s s' : σ} {b : β}
    (h : Total f Q s) (hr : Returns f s b s') : Q b s' := by
  obtain ⟨b', s'', hr', hQ⟩ := h
  obtain ⟨rfl, rfl⟩ := hr.unique hr'
  exact hQ

theorem Total.with_returns {f : ℕ → Prog σ β} {Q : β → σ → Prop} {s : σ} (h : Total f Q s) :
    Total f (fun b s' => Returns f s b s' ∧ Q b s') s := by
  obtain ⟨b, s', hret, hQ⟩ := h
  exact ⟨b, s', hret, hret, hQ⟩

theorem Total.mono {f : ℕ → Prog σ β} {Q Q' : β → σ → Prop} {s : σ} (h : Total f Q s)
    (hQ : ∀ b s', Q b s' → Q' b s') : Total f Q' s := by
  obtain ⟨b, s', hr, hq⟩ := h
  exact ⟨b, s', hr, hQ b s' hq⟩

theorem Total.const {x : Prog σ β} {Q : β → σ → Prop} {s : σ} (h : wp x Q s) :
    Total (fun _ => x) Q s := by
  obtain ⟨b, s', hx, hQ⟩ := h
  exact ⟨b, s', ⟨0, fun _ _ => hx⟩, hQ⟩

theorem Total.bind {f : ℕ → Prog σ β} {g : β → ℕ → Prog σ γ} {Q : γ → σ → Prop} {s : σ}
    (h : Total f (fun b s' => Total (g b) Q s') s) :
    Total (fun n => f n >>= fun b => g b n) Q s := by
  obtain ⟨b, s', hf, c, s'', hg, hQ⟩ := h
  exact ⟨c, s'', hf.bind hg, hQ⟩

/-- A recursive call runs with less fuel. -/
theorem Total.succ {f : ℕ → Prog σ β} {Q : β → σ → Prop} {s : σ}
    (h : Total (fun n => f (n + 1)) Q s) : Total f Q s := by
  obtain ⟨b, s', ⟨k, hf⟩, hQ⟩ := h
  refine ⟨b, s', ⟨k + 1, fun n hn => ?_⟩, hQ⟩
  obtain ⟨n, rfl⟩ : ∃ n', n = n' + 1 := ⟨n - 1, by omega⟩
  exact hf n (by omega)

/-- The bind rule after a program without loops. -/
theorem Total.wp_bind {x : Prog σ β} {g : β → ℕ → Prog σ γ} {Q : γ → σ → Prop} {s : σ}
    (h : wp x (fun b s' => Total (g b) Q s') s) : Total (fun n => x >>= fun b => g b n) Q s :=
  (Total.const h).bind

theorem Total.map {f : ℕ → Prog σ β} {g : β → γ} {Q : γ → σ → Prop} {s : σ}
    (h : Total f (fun b s' => Q (g b) s') s) : Total (fun n => g <$> f n) Q s := by
  simp only [map_eq_pure_bind]
  exact Total.bind (h.mono fun b s' hQ => Total.const ((wp_pure _ _ _).mpr hQ))

/-- The total-correctness rule.  `I k i s` is the invariant together with a
bound `k` on the iterations left; every iteration either establishes the
postcondition or keeps the invariant at a smaller bound.  The body `f` may itself
use fuel. -/
theorem total_loop {f : ℕ → ι → Prog σ (ι ⊕ β)} {I : ℕ → ι → σ → Prop} {Q : β → σ → Prop}
    (step : ∀ k i s, I k i s → Total (fun n => f n i)
      (fun r s' => Sum.elim (fun i' => ∃ k' < k, I k' i' s') (fun b => Q b s') r) s) :
    ∀ k i s, I k i s → Total (fun n => fuelLoop (f n) n i) Q s := by
  -- the fuel of the body and the number of turns are told apart for the induction
  have key : ∀ k i s, I k i s → ∃ b s', Q b s' ∧
      ∃ j, ∀ n m, j ≤ n → j ≤ m → fuelLoop (f n) m i s = some (b, s') := by
    intro k
    induction k using Nat.strongRecOn with
    | _ k ih =>
      intro i s hI
      obtain ⟨r, s', ⟨j₀, hbody⟩, hr⟩ := step k i s hI
      rcases r with i' | b
      · obtain ⟨k', hk', hI'⟩ := hr
        obtain ⟨b, s'', hQ, j, hrun⟩ := ih k' hk' i' s' hI'
        refine ⟨b, s'', hQ, max j₀ (j + 1), fun n m hn hm => ?_⟩
        obtain ⟨m, rfl⟩ : ∃ m', m = m' + 1 := ⟨m - 1, by omega⟩
        rw [fuelLoop_next (hbody n (by omega))]
        exact hrun n m (by omega) (by omega)
      · refine ⟨b, s', hr, max j₀ 1, fun n m hn hm => ?_⟩
        obtain ⟨m, rfl⟩ : ∃ m', m = m' + 1 := ⟨m - 1, by omega⟩
        exact fuelLoop_done (hbody n (by omega))
  intro k i s hI
  obtain ⟨b, s', hQ, j, hrun⟩ := key k i s hI
  exact ⟨b, s', ⟨j, fun n hn => hrun n n hn hn⟩, hQ⟩

/-! ### More fuel -/

/-- Whatever `x` returns, `y` returns as well. -/
def Le (x y : Prog σ β) : Prop := ∀ s r, x s = some r → y s = some r

theorem Le.refl (x : Prog σ β) : Le x x := fun _ _ h => h

theorem Le.bind {x x' : Prog σ β} {f f' : β → Prog σ γ} (hx : Le x x') (hf : ∀ b, Le (f b) (f' b)) :
    Le (x >>= f) (x' >>= f') := by
  intro s r h
  obtain ⟨b, s', hb, hr⟩ := bind_eq_some.mp h
  exact bind_eq_some.mpr ⟨b, s', hx s _ hb, hf b s' _ hr⟩

theorem Le.ite {x x' y y' : Prog σ β} (c : Prop) [Decidable c] (hx : Le x x') (hy : Le y y') :
    Le (if c then x else y) (if c then x' else y') := by
  by_cases hc : c
  · simpa only [if_pos hc] using hx
  · simpa only [if_neg hc] using hy

theorem Le.loop {body body' : ι → Prog σ (ι ⊕ β)} (hb : ∀ i, Le (body i) (body' i)) {n m : ℕ}
    (hnm : n ≤ m) (i : ι) : Le (fuelLoop body n i) (fuelLoop body' m i) := by
  induction n generalizing m i with
  | zero => exact fun s r h => absurd h (by simp [fuelLoop])
  | succ n ih =>
    obtain ⟨m, rfl⟩ : ∃ m', m = m' + 1 := ⟨m - 1, by omega⟩
    intro s r h
    rw [fuelLoop_succ, Option.bind_eq_some_iff] at h ⊢
    obtain ⟨⟨x, s'⟩, hbody, hx⟩ := h
    refine ⟨(x, s'), hb i s _ hbody, ?_⟩
    rcases x with i' | b
    · exact ih (by omega) i' s' r hx
    · exact hx

/-- Whatever `x` returns of a kind, `y` returns as well. -/
def LeOn (P : β → Prop) (x y : Prog σ β) : Prop :=
  ∀ s b s', x s = some (b, s') → P b → y s = some (b, s')

theorem LeOn.refl (P : β → Prop) (x : Prog σ β) : LeOn P x x := fun _ _ _ h _ => h

/-- An answer of the kind comes from a first answer of its kind. -/
theorem LeOn.bind {P : β → Prop} {Q : γ → Prop} {x y : Prog σ β} {f g : β → Prog σ γ}
    (hx : LeOn P x y) (hf : ∀ b, P b → LeOn Q (f b) (g b))
    (hno : ∀ b, ¬ P b → ∀ s c s', f b s = some (c, s') → ¬ Q c) : LeOn Q (x >>= f) (y >>= g) := by
  intro s c s' h hc
  obtain ⟨b, s₁, hb, hr⟩ := bind_eq_some.mp h
  by_cases hP : P b
  · exact bind_eq_some.mpr ⟨b, s₁, hx s b s₁ hb hP, hf b hP s₁ c s' hr hc⟩
  · exact absurd hc (hno b hP s₁ c s' hr)

theorem LeOn.bind_right {Q : γ → Prop} (x : Prog σ β) {f g : β → Prog σ γ}
    (hf : ∀ b, LeOn Q (f b) (g b)) : LeOn Q (x >>= f) (x >>= g) :=
  .bind (P := fun _ => True) (.refl _ x) (fun b _ => hf b) fun _ hb => absurd trivial hb

/-- A branch that fails to answer, and is taken less often. -/
theorem LeOn.ite {P : β → Prop} {x z : Prog σ β} {c d : Prop} [Decidable c] [Decidable d]
    (hcd : c → d) (hz : ∀ s b s', z s = some (b, s') → ¬ P b) :
    LeOn P (if c then x else z) (if d then x else z) := by
  intro s b s' h hb
  by_cases hc : c
  · rw [if_pos hc] at h
    rwa [if_pos (hcd hc)]
  · rw [if_neg hc] at h
    exact absurd hb (hz s b s' h)

theorem not_true_of_return_false (s : σ) (b : Bool) (s' : σ)
    (h : (return false : Prog σ Bool) s = some (b, s')) : ¬ b = true := by
  obtain rfl := (Prod.mk.inj (Option.some.inj h)).1
  exact Bool.false_ne_true

theorem Returns.of_le {f g : ℕ → Prog σ β} {s s' : σ} {b : β} (h : Returns f s b s')
    (hle : ∀ n, Le (f n) (g n)) : Returns g s b s' := by
  obtain ⟨k, hk⟩ := h
  exact ⟨k, fun n hn => hle n s _ (hk n hn)⟩

/-- More fuel never changes an answer. -/
def FuelMono (f : ℕ → Prog σ β) : Prop := ∀ n, Le (f n) (f (n + 1))

theorem FuelMono.le {f : ℕ → Prog σ β} (hf : FuelMono f) {n m : ℕ} (h : n ≤ m) :
    Le (f n) (f m) := by
  induction h with
  | refl => exact Le.refl _
  | step _ ih => exact fun s r hr => hf _ s r (ih s r hr)

theorem FuelMono.returns {f : ℕ → Prog σ β} (hf : FuelMono f) {n : ℕ} {s s' : σ} {b : β}
    (h : f n s = some (b, s')) : Returns f s b s' :=
  ⟨n, fun _ hm => hf.le hm s _ h⟩

theorem FuelMono.const (x : Prog σ β) : FuelMono fun _ => x := fun _ => Le.refl x

theorem FuelMono.bind {f : ℕ → Prog σ β} {g : ℕ → β → Prog σ γ} (hf : FuelMono f)
    (hg : ∀ b, FuelMono fun n => g n b) : FuelMono fun n => f n >>= g n :=
  fun n => (hf n).bind fun b => hg b n

theorem FuelMono.ite {f g : ℕ → Prog σ β} (c : Prop) [Decidable c] (hf : FuelMono f)
    (hg : FuelMono g) : FuelMono fun n => if c then f n else g n :=
  fun n => .ite c (hf n) (hg n)

/-- A loop whose body may itself use fuel. -/
theorem FuelMono.loop {body : ℕ → ι → Prog σ (ι ⊕ β)} (hb : ∀ i, FuelMono fun n => body n i)
    (i : ι) : FuelMono fun n => fuelLoop (body n) n i :=
  fun n => .loop (fun i => hb i n) (Nat.le_succ n) i

/-! ### Runs that may fail -/

/-- With enough fuel `f` returns, and `Q` holds of its answer; or it never
returns, and `F` holds. -/
def Settles (f : ℕ → Prog σ β) (Q : β → σ → Prop) (F : Prop) (s : σ) : Prop :=
  Total f Q s ∨ F ∧ ∀ n, f n s = none

theorem Total.settles {f : ℕ → Prog σ β} {Q : β → σ → Prop} {F : Prop} {s : σ}
    (h : Total f Q s) : Settles f Q F s := .inl h

theorem Settles.mono {f : ℕ → Prog σ β} {Q Q' : β → σ → Prop} {F : Prop} {s : σ}
    (h : Settles f Q F s) (hQ : ∀ b s', Q b s' → Q' b s') : Settles f Q' F s :=
  h.imp_left fun h => h.mono hQ

/-- Under the opposite of `F`, the program returns. -/
theorem Settles.total {f : ℕ → Prog σ β} {Q : β → σ → Prop} {F : Prop} {s : σ}
    (h : Settles f Q F s) (hF : ¬ F) : Total f Q s :=
  h.resolve_right fun hfail => hF hfail.1

theorem Settles.of_returns {f : ℕ → Prog σ β} {Q : β → σ → Prop} {F : Prop} {s s' : σ} {b : β}
    (h : Settles f Q F s) (hr : Returns f s b s') : Q b s' := by
  rcases h with h | ⟨-, hnone⟩
  · exact h.of_returns hr
  · obtain ⟨k, hk⟩ := hr
    exact absurd ((hk k (Nat.le_refl k)).symm.trans (hnone k)) (by simp)

/-- A program settles with what holds of all its answers. -/
theorem FuelMono.settles {f : ℕ → Prog σ β} (hf : FuelMono f) {Q : β → σ → Prop} {s : σ}
    (h : ∀ n b s', f n s = some (b, s') → Q b s') : Settles f Q True s := by
  by_cases hex : ∃ n, f n s ≠ none
  · obtain ⟨n, hn⟩ := hex
    obtain ⟨⟨b, s'⟩, hr⟩ := Option.ne_none_iff_exists'.mp hn
    exact .inl ⟨b, s', hf.returns hr, h n b s' hr⟩
  · push Not at hex
    exact .inr ⟨trivial, hex⟩

theorem Settles.bind {f : ℕ → Prog σ β} (hf : FuelMono f) {g : β → ℕ → Prog σ γ}
    {Q : γ → σ → Prop} {F : Prop} {s : σ}
    (h : Settles f (fun b s' => Settles (g b) Q F s') F s) :
    Settles (fun n => f n >>= fun b => g b n) Q F s := by
  rcases h with ⟨b, s', hret, ⟨c, s'', hg, hQ⟩ | ⟨hF, hnone⟩⟩ | ⟨hF, hnone⟩
  · exact .inl ⟨c, s'', hret.bind hg, hQ⟩
  · refine .inr ⟨hF, fun n => ?_⟩
    show (f n >>= fun b => g b n) s = none
    rw [bind_apply]
    rcases hn : f n s with _ | ⟨b', s₁⟩
    · rfl
    · obtain ⟨rfl, rfl⟩ := hret.unique (hf.returns hn)
      exact hnone n
  · refine .inr ⟨hF, fun n => ?_⟩
    show (f n >>= fun b => g b n) s = none
    rw [bind_apply, hnone n]
    rfl

theorem Settles.const {x : Prog σ β} {Q : β → σ → Prop} {F : Prop} {s : σ}
    (h : wp x Q s ∨ F ∧ x s = none) : Settles (fun _ => x) Q F s :=
  h.imp Total.const fun h => ⟨h.1, fun _ => h.2⟩

theorem Settles.wp_bind {x : Prog σ β} {g : β → ℕ → Prog σ γ} {Q : γ → σ → Prop} {F : Prop}
    {s : σ} (h : wp x (fun b s' => Settles (g b) Q F s') s) :
    Settles (fun n => x >>= fun b => g b n) Q F s :=
  .bind (.const x) (.const (.inl h))

/-- The rule for loops: every iteration establishes the postcondition, keeps the
invariant at a smaller bound, or fails under `F`. -/
theorem settles_loop {body : ℕ → ι → Prog σ (ι ⊕ β)} {I : ℕ → ι → σ → Prop} {Q : β → σ → Prop}
    {F : Prop} (hb : ∀ i, FuelMono fun n => body n i)
    (step : ∀ k i s, I k i s → Settles (fun n => body n i)
      (fun r s' => Sum.elim (fun i' => ∃ k' < k, I k' i' s') (fun b => Q b s') r) F s) :
    ∀ k i s, I k i s → Settles (fun n => fuelLoop (body n) n i) Q F s := by
  by_cases hF : F
  · -- a run that fails does so whatever the fuel of its body is
    have key : ∀ k i s, I k i s → Total (fun n => fuelLoop (body n) n i) Q s ∨
        ∀ n m, fuelLoop (body n) m i s = none := by
      intro k
      induction k using Nat.strongRecOn with
      | _ k ih =>
        intro i s hI
        rcases step k i s hI with ⟨r, s', hret, hr⟩ | ⟨-, hnone⟩
        · rcases r with i' | b
          · obtain ⟨k', hk', hI'⟩ := hr
            rcases ih k' hk' i' s' hI' with ⟨b, s'', ⟨j, hrun⟩, hQ⟩ | hnone
            · refine .inl ⟨b, s'', ?_, hQ⟩
              obtain ⟨j₀, hbody⟩ := hret
              refine ⟨max j₀ (j + 1), fun n hn => ?_⟩
              obtain ⟨n, rfl⟩ : ∃ n', n = n' + 1 := ⟨n - 1, by omega⟩
              show fuelLoop (body (n + 1)) (n + 1) i s = some (b, s'')
              rw [fuelLoop_next (hbody (n + 1) (by omega))]
              exact Le.loop (fun i => hb i n) (Nat.le_refl n) i' s' _ (hrun n (by omega))
            · refine .inr fun n m => ?_
              rcases m with _ | m
              · rfl
              rcases hn : body n i s with _ | ⟨r, s₁⟩
              · rw [fuelLoop_succ, hn]
                rfl
              · obtain ⟨rfl, rfl⟩ := hret.unique ((hb i).returns hn)
                rw [fuelLoop_next hn]
                exact hnone n m
          · obtain ⟨j₀, hbody⟩ := hret
            refine .inl ⟨b, s', ⟨max j₀ 1, fun n hn => ?_⟩, hr⟩
            obtain ⟨n, rfl⟩ : ∃ n', n = n' + 1 := ⟨n - 1, by omega⟩
            exact fuelLoop_done (hbody (n + 1) (by omega))
        · refine .inr fun n m => ?_
          rcases m with _ | m
          · rfl
          · have hn : body n i s = none := hnone n
            rw [fuelLoop_succ, hn]
            rfl
    exact fun k i s hI => (key k i s hI).imp_right fun h => ⟨hF, fun n => h n n⟩
  · exact fun k i s hI =>
      (total_loop (fun k i s hI => (step k i s hI).total hF) k i s hI).settles

/-! ### Runs that leave the state -/

/-- `f` returns the answer in the state it began in, or, without an answer, never returns. -/
def Answers (f : ℕ → Prog σ β) (s : σ) : Option β → Prop
  | some b => Returns f s b s
  | none => ∀ n, f n s = none

theorem Answers.pure (b : β) (s : σ) : Answers (fun _ => (Pure.pure b : Prog σ β)) s (some b) :=
  ⟨0, fun _ _ => rfl⟩

theorem Answers.bind {x : Prog σ β} {g : β → ℕ → Prog σ γ} {s : σ} {b : β} {ans : Option γ}
    (hx : x s = some (b, s)) (h : Answers (g b) s ans) :
    Answers (fun n => x >>= fun b => g b n) s ans := by
  cases ans with
  | some c =>
    obtain ⟨k, hk⟩ := h
    exact ⟨k, fun n hn => bind_some hx (hk n hn)⟩
  | none => exact fun n => bind_some hx (h n)

theorem Answers.bind_fails {x : Prog σ β} {g : β → ℕ → Prog σ γ} {s : σ} (hx : x s = none) :
    Answers (fun n => x >>= fun b => g b n) s none := by
  intro n
  show (x >>= fun b => g b n) s = none
  rw [bind_apply, hx]
  rfl

/-- A postcondition by the answer. -/
theorem Answers.total_iff {f : ℕ → Prog σ β} {s : σ} {ans : Option β} (h : Answers f s ans)
    {Q : β → Prop} : Total f (fun b s' => Q b ∧ s' = s) s ↔ ∃ b ∈ ans, Q b := by
  cases ans with
  | some b =>
    constructor
    · exact fun ht => ⟨b, rfl, (ht.of_returns h).1⟩
    · rintro ⟨b', hb', hQ⟩
      obtain rfl := Option.some.inj hb'
      exact ⟨b, s, h, hQ, rfl⟩
  | none =>
    constructor
    · rintro ⟨b, s', ⟨k, hk⟩, -⟩
      exact absurd ((hk k (Nat.le_refl k)).symm.trans (h k)) (by simp)
    · rintro ⟨b, hb, -⟩
      exact absurd hb (by simp)

/-! ### What a program keeps -/

/-- When `x` returns, `I` still holds. -/
def Preserves (I : σ → Prop) (x : Prog σ β) : Prop :=
  ∀ s b s', I s → x s = some (b, s') → I s'

section Preserves

variable {I : σ → Prop}

theorem Preserves.pure (b : β) : Preserves I (Pure.pure b : Prog σ β) := by
  intro s b' s' hI h
  obtain ⟨rfl, rfl⟩ := Prod.mk.inj (Option.some.inj h)
  exact hI

theorem Preserves.bind {x : Prog σ β} {f : β → Prog σ γ} (hx : Preserves I x)
    (hf : ∀ b, Preserves I (f b)) : Preserves I (x >>= f) := by
  intro s c s'' hI h
  obtain ⟨b, s', hb, hc⟩ := bind_eq_some.mp h
  exact hf b s' c s'' (hx s b s' hI hb) hc

theorem Preserves.ite {x y : Prog σ β} (c : Prop) [Decidable c] (hx : Preserves I x)
    (hy : Preserves I y) : Preserves I (if c then x else y) := by
  split_ifs
  · exact hx
  · exact hy

theorem Preserves.and {x y : Prog σ Bool} (hx : Preserves I x) (hy : Preserves I y) :
    Preserves I (x <&&> y) :=
  hx.bind fun b => by
    cases b with
    | true => exact hy
    | false => exact .pure _

theorem Preserves.loop {body : ι → Prog σ (ι ⊕ β)} (hb : ∀ i, Preserves I (body i)) (n : ℕ)
    (i : ι) : Preserves I (fuelLoop body n i) := by
  intro s b s' hI h
  refine fuelLoop_partial (I := fun _ s => I s) (Q := fun _ s => I s) ?_ n i s b s' hI h
  intro i s r s' hI hr
  have hkept := hb i s r s' hI hr
  cases r <;> exact hkept

/-- A program that changes nothing keeps everything. -/
theorem Preserves.of_reads {x : Prog σ β} (h : ∀ s b s', x s = some (b, s') → s' = s) :
    Preserves I x := by
  intro s b s' hI hx
  rwa [h s b s' hx]

end Preserves

/-- What holds of every answer of `f` stands beside its postcondition. -/
theorem Total.also {f : ℕ → Prog σ β} {Q R : β → σ → Prop} {s : σ} (h : Total f Q s)
    (hR : ∀ n b s', f n s = some (b, s') → R b s') : Total f (fun b s' => Q b s' ∧ R b s') s := by
  obtain ⟨b, s', ⟨k, hk⟩, hQ⟩ := h
  exact ⟨b, s', ⟨k, hk⟩, hQ, hR k b s' (hk k (Nat.le_refl k))⟩

end Prog
