/-
Histories of a cursor over a list.

A call `next` moves a cursor one element further and answers with it, or with a
default behind the end; from the first call `stay` on, `next` repeats the last answer.
The history of a cursor lists its calls, those of `next` with their answers.

* `Cycles` — the histories with the right answers;
* `Cycles.next`, `Cycles.again`, `Cycles.stay` — how they go on;
* `Cycles.eq_of_kinds` — the calls determine the answers.
-/
import Mathlib.Data.List.Induction
import Mathlib.Tactic.Common

namespace Cursor

/-- A call, with its answer. -/
inductive Call (α : Type) where
  | next (a : α)
  | stay

variable {α : Type} {ds : List α} {d a b : α} {o o' : List (Call α)}

/-- The answer of a call of `next`. -/
def Call.answer? : Call α → Option α
  | next a => some a
  | stay => none

/-- The last answer. -/
def lastAnswer (o : List (Call α)) : Option α := (o.filterMap Call.answer?).getLast?

/-- Before a call of `stay`, the answers are the elements of `ds`, then `d`; after it,
they are the last answer before. -/
structure Cycles (ds : List α) (d : α) (o : List (Call α)) : Prop where
  moves : ∀ o₁ a o₂, o = o₁ ++ .next a :: o₂ → .stay ∉ o₁ → a = ds[o₁.length]?.getD d
  stays : ∀ o₁ o₂ a o₃, o = o₁ ++ .stay :: o₂ ++ .next a :: o₃ → lastAnswer o₁ = some a

/-- Whenever the cursor was told to stay, `a` was the last answer. -/
def StaysAt (o : List (Call α)) (a : α) : Prop :=
  ∀ o₁ o₂, o = o₁ ++ .stay :: o₂ → lastAnswer o₁ = some a

@[simp] theorem lastAnswer_nil : lastAnswer ([] : List (Call α)) = none := rfl

@[simp] theorem lastAnswer_next : lastAnswer (o ++ [.next a]) = some a := by
  simp [lastAnswer, Call.answer?]

@[simp] theorem lastAnswer_stay : lastAnswer (o ++ [.stay]) = lastAnswer o := by
  simp [lastAnswer, Call.answer?]

/-- Where a call stands in a history that one more call was added to. -/
theorem snoc_eq_append_cons {c c' : Call α} {o₁ o₂ : List (Call α)} :
    o ++ [c] = o₁ ++ c' :: o₂ ↔
      (o₂ = [] ∧ o₁ = o ∧ c' = c) ∨ ∃ o₃, o₂ = o₃ ++ [c] ∧ o = o₁ ++ c' :: o₃ := by
  constructor
  · intro h
    rcases List.eq_nil_or_concat o₂ with rfl | ⟨o₃, c₃, rfl⟩
    · obtain ⟨rfl, hc⟩ := List.append_inj' h rfl
      exact .inl ⟨rfl, rfl, (List.cons.inj hc).1.symm⟩
    · rw [List.concat_eq_append, ← List.cons_append, ← List.append_assoc] at h
      obtain ⟨rfl, hc⟩ := List.append_inj' h rfl
      refine .inr ⟨o₃, ?_, rfl⟩
      rw [List.concat_eq_append, (List.cons.inj hc).1]
  · rintro (⟨rfl, rfl, rfl⟩ | ⟨o₃, rfl, rfl⟩)
    · rfl
    · rw [List.append_assoc, List.cons_append]

theorem cycles_nil : Cycles ds d [] :=
  ⟨fun o₁ a o₂ h => by simp at h, fun o₁ o₂ a o₃ h => by simp at h⟩

theorem StaysAt.next (h : StaysAt o a) : StaysAt (o ++ [.next b]) a := by
  intro o₁ o₂ heq
  rcases snoc_eq_append_cons.mp heq with ⟨-, -, hc⟩ | ⟨o₃, -, rfl⟩
  · exact absurd hc (by simp)
  · exact h o₁ o₃ rfl

theorem StaysAt.stay (h : StaysAt o a) (hlast : lastAnswer o = some a) :
    StaysAt (o ++ [.stay]) a := by
  intro o₁ o₂ heq
  rcases snoc_eq_append_cons.mp heq with ⟨-, rfl, -⟩ | ⟨o₃, -, rfl⟩
  · exact hlast
  · exact h o₁ o₃ rfl

theorem staysAt_of_notMem (h : .stay ∉ o) : StaysAt o a := by
  rintro o₁ o₂ rfl
  exact absurd (List.mem_append_right _ List.mem_cons_self) h

/-- A prefix of a history. -/
theorem Cycles.of_snoc {c : Call α} (h : Cycles ds d (o ++ [c])) : Cycles ds d o := by
  constructor
  · rintro o₁ a o₂ rfl hstay
    exact h.moves o₁ a (o₂ ++ [c]) (by rw [List.append_assoc, List.cons_append]) hstay
  · rintro o₁ o₂ a o₃ rfl
    exact h.stays o₁ o₂ a (o₃ ++ [c]) (by simp)

/-- The cursor moves. -/
theorem Cycles.next (h : Cycles ds d o) (hstay : .stay ∉ o) :
    Cycles ds d (o ++ [.next (ds[o.length]?.getD d)]) := by
  constructor
  · intro o₁ a o₂ heq ho₁
    rcases snoc_eq_append_cons.mp heq with ⟨-, rfl, hc⟩ | ⟨o₃, -, rfl⟩
    · exact Call.next.inj hc
    · exact h.moves o₁ a o₃ rfl ho₁
  · intro o₁ o₂ a o₃ heq
    rcases snoc_eq_append_cons.mp heq with ⟨-, rfl, -⟩ | ⟨o₄, -, rfl⟩
    · exact absurd (List.mem_append_right _ List.mem_cons_self) hstay
    · exact h.stays o₁ o₂ a o₄ rfl

/-- The cursor stays. -/
theorem Cycles.again (h : Cycles ds d o) (hstay : .stay ∈ o) (hat : StaysAt o a) :
    Cycles ds d (o ++ [.next a]) := by
  constructor
  · intro o₁ b o₂ heq ho₁
    rcases snoc_eq_append_cons.mp heq with ⟨-, rfl, -⟩ | ⟨o₃, -, rfl⟩
    · exact absurd hstay ho₁
    · exact h.moves o₁ b o₃ rfl ho₁
  · intro o₁ o₂ b o₃ heq
    rcases snoc_eq_append_cons.mp heq with ⟨-, rfl, hc⟩ | ⟨o₄, -, rfl⟩
    · rw [Call.next.inj hc]
      exact hat o₁ o₂ rfl
    · exact h.stays o₁ o₂ b o₄ rfl

/-- The cursor is told to stay. -/
theorem Cycles.stay (h : Cycles ds d o) : Cycles ds d (o ++ [.stay]) := by
  constructor
  · intro o₁ a o₂ heq ho₁
    rcases snoc_eq_append_cons.mp heq with ⟨-, -, hc⟩ | ⟨o₃, -, rfl⟩
    · exact absurd hc (by simp)
    · exact h.moves o₁ a o₃ rfl ho₁
  · intro o₁ o₂ a o₃ heq
    rcases snoc_eq_append_cons.mp heq with ⟨-, -, hc⟩ | ⟨o₄, -, rfl⟩
    · exact absurd hc (by simp)
    · exact h.stays o₁ o₂ a o₄ rfl

/-- The answer of a call. -/
theorem Cycles.answer_unique (h : Cycles ds d (o ++ [.next a])) (h' : Cycles ds d (o ++ [.next b])) :
    a = b := by
  by_cases hstay : .stay ∈ o
  · obtain ⟨o₁, o₂, rfl⟩ := List.append_of_mem hstay
    have ha := h.stays o₁ o₂ a [] rfl
    have hb := h'.stays o₁ o₂ b [] rfl
    exact Option.some.inj (ha.symm.trans hb)
  · rw [h.moves o a [] rfl hstay, h'.moves o b [] rfl hstay]

/-- The calls of a history, without the answers. -/
def kinds (o : List (Call α)) : List Bool := o.map fun c => c.answer?.isSome

/-- The calls determine the answers. -/
theorem Cycles.eq_of_kinds (h : Cycles ds d o) (h' : Cycles ds d o') (hkinds : kinds o = kinds o') :
    o = o' := by
  induction o using List.reverseRecOn generalizing o' with
  | nil => exact (List.map_eq_nil_iff.mp hkinds.symm).symm
  | append_singleton o c ih =>
    rcases List.eq_nil_or_concat o' with rfl | ⟨o₁, c₁, rfl⟩
    · exact absurd hkinds (by simp [kinds])
    rw [List.concat_eq_append] at h' hkinds ⊢
    rw [kinds, kinds, List.map_append, List.map_append] at hkinds
    obtain ⟨hinit, hlast⟩ := List.append_inj' hkinds rfl
    obtain rfl := ih h.of_snoc h'.of_snoc hinit
    cases c with
    | next a =>
      cases c₁ with
      | next b => rw [h.answer_unique h']
      | stay => exact absurd hlast (by simp [Call.answer?])
    | stay =>
      cases c₁ with
      | next b => exact absurd hlast (by simp [Call.answer?])
      | stay => rfl

end Cursor
