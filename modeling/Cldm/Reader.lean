/-
Reading a line word by word.

A reader takes one word at a time.  From its state it emits an output and moves on, or
it rejects the word, and then it rejects the line.

* `run` — the outputs for a line, and the state behind it (`run_append`);
* `selected` — the words whose outputs are of a kind, in order (`selected_perm`);
* `Same` — two pieces of a line that select the same words and lead to the same state;
  one of them may stand for the other in any line (`Same.line`).
-/
import Mathlib.Data.List.Basic
import Mathlib.Data.List.Perm.Basic
import Mathlib.Tactic.Common

namespace Reader

variable {S W R V : Type} {step : S → W → Option (R × S)} {keep : R → Bool} {s s' : S}

/-- Read a line from state `s`. -/
def run (step : S → W → Option (R × S)) : S → List W → Option (List R × S)
  | s, [] => some ([], s)
  | s, w :: ws => (step s w).bind fun x => (run step x.2 ws).map fun y => (x.1 :: y.1, y.2)

attribute [grind =] run

theorem run_cons {w : W} {ws : List W} {r : R} (h : step s w = some (r, s')) :
    run step s (w :: ws) = (run step s' ws).map fun y => (r :: y.1, y.2) := by
  rw [run, h]
  rfl

theorem run_cons_none {w : W} {ws : List W} (h : step s w = none) :
    run step s (w :: ws) = none := by
  rw [run, h]
  rfl

theorem run_cons_eq_some {w : W} {ws : List W} {rs : List R} :
    run step s (w :: ws) = some (rs, s') ↔
      ∃ r rs' s'', rs = r :: rs' ∧ step s w = some (r, s'') ∧ run step s'' ws = some (rs', s') := by
  constructor
  · intro h
    obtain ⟨⟨r, s''⟩, hstep, h⟩ := Option.bind_eq_some_iff.mp h
    obtain ⟨⟨rs', t⟩, hrun, heq⟩ := Option.map_eq_some_iff.mp h
    obtain ⟨rfl, rfl⟩ := Prod.mk.inj heq
    exact ⟨r, rs', s'', rfl, hstep, hrun⟩
  · rintro ⟨r, rs', s'', rfl, hstep, hrun⟩
    rw [run_cons hstep, hrun]
    rfl

theorem run_append (s : S) (us vs : List W) : run step s (us ++ vs) =
    (run step s us).bind fun x => (run step x.2 vs).map fun y => (x.1 ++ y.1, y.2) := by
  induction us generalizing s with
  | nil =>
    show run step s vs = (run step s vs).map fun y => ([] ++ y.1, y.2)
    cases run step s vs <;> rfl
  | cons u us ih =>
    rw [List.cons_append, run, run]
    rcases step s u with _ | ⟨r, s'⟩
    · rfl
    · show (run step s' (us ++ vs)).map _ = ((run step s' us).map _).bind _
      rw [ih]
      rcases run step s' us with _ | ⟨rs, s''⟩
      · rfl
      · show ((run step s'' vs).map _).map _ = (run step s'' vs).map _
        cases run step s'' vs <;> rfl

/-- One output for each word. -/
theorem length_of_run {ws : List W} {rs : List R} (h : run step s ws = some (rs, s')) :
    rs.length = ws.length := by
  induction ws generalizing s rs with
  | nil =>
    obtain ⟨rfl, -⟩ := Prod.mk.inj (Option.some.inj h)
    rfl
  | cons w ws ih =>
    obtain ⟨r, rs', s'', rfl, -, hrun⟩ := run_cons_eq_some.mp h
    rw [List.length_cons, List.length_cons, ih hrun]

/-! ### Words of a kind -/

/-- The words whose outputs are of the kind `keep`. -/
def selected (keep : R → Bool) : List R → List V → List V
  | r :: rs, v :: vs => if keep r then v :: selected keep rs vs else selected keep rs vs
  | _, _ => []

attribute [grind =] selected

theorem selected_append {rs rs' : List R} {vs vs' : List V} (h : rs.length = vs.length) :
    selected keep (rs ++ rs') (vs ++ vs') = selected keep rs vs ++ selected keep rs' vs' := by
  induction rs generalizing vs with
  | nil =>
    obtain rfl := List.length_eq_zero_iff.mp h.symm
    rfl
  | cons r rs ih =>
    rcases vs with _ | ⟨v, vs⟩
    · exact absurd h (by simp)
    · have hlen : rs.length = vs.length := by simpa using h
      have hrest := ih hlen
      simp only [List.cons_append, selected, hrest]
      split_ifs <;> rfl

theorem selected_map (f : V → W) (rs : List R) (vs : List V) :
    selected keep rs (vs.map f) = (selected keep rs vs).map f := by
  induction rs generalizing vs with
  | nil => rfl
  | cons r rs ih =>
    rcases vs with _ | ⟨v, vs⟩
    · rfl
    · simp only [List.map_cons, selected, ih]
      split_ifs <;> rfl

theorem selected_map_left {R' : Type} {keep : R' → Bool} (f : R → R') (rs : List R) (vs : List V) :
    selected keep (rs.map f) vs = selected (fun r => keep (f r)) rs vs := by
  induction rs generalizing vs with
  | nil => rfl
  | cons r rs ih =>
    rcases vs with _ | ⟨v, vs⟩
    · rfl
    · simp only [List.map_cons, selected, ih]

theorem selected_sublist (keep : R → Bool) (rs : List R) (vs : List V) :
    (selected keep rs vs).Sublist vs := by
  induction rs generalizing vs with
  | nil => exact List.nil_sublist vs
  | cons r rs ih =>
    rcases vs with _ | ⟨v, vs⟩
    · exact List.nil_sublist _
    · rw [selected]
      split_ifs
      · exact (ih vs).cons_cons v
      · exact (ih vs).cons v

/-- The words of a kind and the other words are all words. -/
theorem selected_perm (keep : R → Bool) {rs : List R} {vs : List V} (h : rs.length = vs.length) :
    (selected (fun r => !keep r) rs vs ++ selected keep rs vs).Perm vs := by
  induction rs generalizing vs with
  | nil =>
    obtain rfl := List.length_eq_zero_iff.mp h.symm
    exact List.Perm.refl []
  | cons r rs ih =>
    rcases vs with _ | ⟨v, vs⟩
    · exact absurd h (by simp)
    · have hlen : rs.length = vs.length := by simpa using h
      have hrest := ih hlen
      rw [selected, selected]
      cases keep r
      · exact hrest.cons v
      · exact List.perm_middle.trans (hrest.cons v)

/-! ### Pieces of a line -/

/-- From `s`, both pieces are rejected, or they select the same words and lead to the
same state. -/
def Same (step : S → W → Option (R × S)) (keep : R → Bool) (s : S) (us vs : List W) : Prop :=
  (run step s us).map (fun x => (selected keep x.1 us, x.2)) =
    (run step s vs).map fun x => (selected keep x.1 vs, x.2)

/-- What a piece and the rest of the line come to. -/
theorem map_run_append (s : S) (us vs : List W) :
    (run step s (us ++ vs)).map (fun x => (selected keep x.1 (us ++ vs), x.2)) =
      ((run step s us).map fun x => (selected keep x.1 us, x.2)).bind fun x =>
        ((run step x.2 vs).map fun y => (selected keep y.1 vs, y.2)).map fun y =>
          (x.1 ++ y.1, y.2) := by
  rw [run_append]
  rcases hus : run step s us with _ | ⟨rs, t⟩
  · rfl
  · show ((run step t vs).map _).map _ = ((run step t vs).map _).map _
    rcases run step t vs with _ | ⟨rs', t'⟩
    · rfl
    · exact congrArg (fun l => some (l, t')) (selected_append (length_of_run hus))

theorem Same.append_right {us vs : List W} (h : Same step keep s us vs) (post : List W) :
    Same step keep s (us ++ post) (vs ++ post) := by
  rw [Same, map_run_append, map_run_append, h]

/-- A piece may stand for another one, if they are the same from where the words before
them lead. -/
theorem Same.line {us vs : List W} (pre post : List W)
    (h : ∀ rs s', run step s pre = some (rs, s') → Same step keep s' us vs) :
    Same step keep s (pre ++ us ++ post) (pre ++ vs ++ post) := by
  refine Same.append_right ?_ post
  rw [Same, map_run_append, map_run_append]
  rcases hpre : run step s pre with _ | ⟨rs, t⟩
  · rfl
  · show ((run step t us).map _).map _ = ((run step t vs).map _).map _
    rw [h rs t hpre]

end Reader
