/-
Words by their prefixes.

The nodes of a set of words are the prefixes of its words.  Following an input down
the tree of the nodes comes to the longest prefix of the input that is a node.

* `Follows` — the node that an input is followed to (`Follows.unique`);
* `follows_of_stuck` — where no child fits the next letter, the way ends;
* `lastOf` — what a word was registered with last.
-/
import Mathlib.Data.Set.Card
import Mathlib.Data.List.Infix
import Mathlib.Tactic.Common

namespace PrefixTree

variable {α β : Type} {N : Set (List α)} {ws : List (List α)} {input p q w : List α} {a : α}

/-- The prefixes of the words, and the root. -/
def nodes (ws : List (List α)) : Set (List α) := {p | p = [] ∨ ∃ w ∈ ws, p <+: w}

theorem nodes_append : nodes (ws ++ [w]) = nodes ws ∪ {p | p <+: w} := by
  ext p
  simp only [nodes, List.mem_append, List.mem_singleton, Set.mem_union, Set.mem_ofPred_eq]
  constructor
  · rintro (rfl | ⟨v, hv | rfl, hp⟩)
    · exact .inl (.inl rfl)
    · exact .inl (.inr ⟨v, hv, hp⟩)
    · exact .inr hp
  · rintro ((rfl | ⟨v, hv, hp⟩) | hp)
    · exact .inl rfl
    · exact .inr ⟨v, .inl hv, hp⟩
    · exact .inr ⟨w, .inr rfl, hp⟩

theorem finite_prefixes (w : List α) : {p | p <+: w}.Finite := by
  refine (List.finite_toSet w.inits).subset fun p hp => ?_
  exact (List.mem_inits p w).mpr hp

/-- The nodes with the prefixes of one more word are as many at least. -/
theorem ncard_le_union (hN : N.Finite) (w : List α) : N.ncard ≤ (N ∪ {p | p <+: w}).ncard :=
  Set.ncard_le_ncard Set.subset_union_left (hN.union (finite_prefixes w))

theorem finite_nodes (ws : List (List α)) : (nodes ws).Finite := by
  induction ws using List.reverseRecOn with
  | nil => exact (Set.finite_singleton []).subset (by rintro p (rfl | ⟨w, hw, -⟩) <;> simp_all)
  | append_singleton ws w ih =>
    rw [nodes_append]
    exact ih.union (finite_prefixes w)

/-- More words have more nodes. -/
theorem ncard_nodes_le (ws ws' : List (List α)) :
    (nodes ws).ncard ≤ (nodes (ws ++ ws')).ncard := by
  refine Set.ncard_le_ncard ?_ (finite_nodes _)
  rintro p (rfl | ⟨w, hw, hp⟩)
  · exact .inl rfl
  · exact .inr ⟨w, List.mem_append_left _ hw, hp⟩

/-- With a node, its parent is a node. -/
def Closed (N : Set (List α)) : Prop := ∀ p a, p ++ [a] ∈ N → p ∈ N

theorem Closed.mem_of_prefix (h : Closed N) (hp : p ∈ N) (hq : q <+: p) : q ∈ N := by
  obtain ⟨r, rfl⟩ := hq
  induction r using List.reverseRecOn with
  | nil => rwa [List.append_nil] at hp
  | append_singleton r a ih =>
    rw [← List.append_assoc] at hp
    exact ih (h _ a hp)

theorem closed_nodes : Closed (nodes ws) := by
  rintro p a (hp | ⟨w, hw, hp⟩)
  · exact absurd hp (by simp)
  · exact .inr ⟨w, hw, (List.prefix_append p [a]).trans hp⟩

/-- A new child of a node. -/
theorem Closed.insert (h : Closed N) (hp : p ∈ N) (a : α) : Closed (insert (p ++ [a]) N) := by
  intro q b hq
  rcases Set.mem_insert_iff.mp hq with heq | hq
  · rw [(List.append_inj' heq rfl).1]
    exact Set.mem_insert_of_mem _ hp
  · exact Set.mem_insert_of_mem _ (h q b hq)

/-- Following the input down the tree comes to the node `p`. -/
structure Follows (N : Set (List α)) (input p : List α) : Prop where
  isPrefix : p <+: input
  mem : p ∈ N
  longest : ∀ q, q <+: input → q ∈ N → q <+: p

theorem Follows.unique (hp : Follows N input p) (hq : Follows N input q) : p = q := by
  have hpq := hq.longest p hp.isPrefix hp.mem
  have hqp := hp.longest q hq.isPrefix hq.mem
  exact hpq.eq_of_length (hpq.length_le.antisymm hqp.length_le)

/-- The way ends where no child fits the next letter. -/
theorem follows_of_stuck (h : Closed N) (hp : p ∈ N) {rest : List α}
    (hstuck : ∀ a r, rest = a :: r → p ++ [a] ∉ N) : Follows N (p ++ rest) p := by
  refine ⟨List.prefix_append p rest, hp, fun q hq hmem => ?_⟩
  rcases rest with _ | ⟨a, r⟩
  · rwa [List.append_nil] at hq
  · have hno := hstuck a r rfl
    have hchild : p ++ [a] <+: p ++ a :: r := ⟨r, by simp⟩
    rcases List.prefix_or_prefix_of_prefix hq hchild with hle | hge
    · rcases List.prefix_concat_iff.mp hle with rfl | hle
      · exact absurd hmem hno
      · exact hle
    · exact absurd (h.mem_of_prefix hmem hge) hno

/-- The way ends at a node if and only if no child of it fits the next letter. -/
theorem follows_append_iff (h : Closed N) (hp : p ∈ N) {rest : List α} :
    Follows N (p ++ rest) p ↔ ∀ a r, rest = a :: r → p ++ [a] ∉ N := by
  refine ⟨?_, follows_of_stuck h hp⟩
  rintro hfollows a r rfl hmem
  have hchild : p ++ [a] <+: p ++ a :: r := ⟨r, by simp⟩
  have hlen := (hfollows.longest _ hchild hmem).length_le
  rw [List.length_append, List.length_singleton] at hlen
  omega

/-- The words have no more nodes than letters and ends. -/
theorem ncard_nodes_le_sum (ws : List (List α)) :
    (nodes ws).ncard ≤ 1 + (ws.map fun w => w.length + 1).sum := by
  classical
  induction ws using List.reverseRecOn with
  | nil =>
    have hroot : nodes ([] : List (List α)) = {[]} := by
      ext p
      simp [nodes]
    rw [hroot, Set.ncard_singleton]
    exact Nat.le_add_right 1 _
  | append_singleton ws w ih =>
    have hprefixes : {p | p <+: w}.ncard ≤ w.length + 1 := by
      have hsub : {p | p <+: w} ⊆ (w.inits.toFinset : Set (List α)) := by
        intro p hp
        rw [List.coe_toFinset]
        exact (List.mem_inits p w).mpr hp
      refine (Set.ncard_le_ncard hsub (Finset.finite_toSet _)).trans ?_
      rw [Set.ncard_coe_finset]
      exact (List.toFinset_card_le _).trans (Nat.le_of_eq (List.length_inits w))
    rw [nodes_append, List.map_append, List.sum_append, List.map_singleton, List.sum_singleton]
    have hunion := Set.ncard_union_le (nodes ws) {p | p <+: w}
    omega

/-- A node has fewer letters than there are nodes. -/
theorem Closed.length_lt_ncard (h : Closed N) (hN : N.Finite) (hp : p ∈ N) :
    p.length < N.ncard := by
  have hmem : ∀ k ∈ (Finset.range (p.length + 1) : Set ℕ), p.take k ∈ N :=
    fun k _ => h.mem_of_prefix hp (List.take_prefix k p)
  have hinj : Set.InjOn (fun k => p.take k) (Finset.range (p.length + 1) : Set ℕ) := by
    intro j hj k hk heq
    rw [Finset.coe_range, Set.mem_Iio] at hj hk
    have hlen := congrArg List.length heq
    simp only [List.length_take] at hlen
    omega
  have hle := Set.ncard_le_ncard_of_injOn _ hmem hinj hN
  rwa [Set.ncard_coe_finset, Finset.card_range] at hle

section Registered

variable [DecidableEq α]

/-- What the word `p` was registered with last, if it was. -/
def lastOf (ops : List (List α × β)) (p : List α) : Option β :=
  ops.foldl (fun b op => if op.1 = p then some op.2 else b) none

theorem lastOf_append {ops : List (List α × β)} {op : List α × β} :
    lastOf (ops ++ [op]) p = if op.1 = p then some op.2 else lastOf ops p := by
  rw [lastOf, List.foldl_append]
  rfl

theorem mem_of_lastOf {ops : List (List α × β)} {b : β} (h : lastOf ops p = some b) : (p, b) ∈ ops := by
  induction ops using List.reverseRecOn with
  | nil => exact absurd h (by simp [lastOf])
  | append_singleton ops op ih =>
    rw [lastOf_append] at h
    split_ifs at h with heq
    · obtain rfl := Option.some.inj h
      rw [← heq]
      exact List.mem_append_right _ (List.mem_singleton_self _)
    · exact List.mem_append_left _ (ih h)

theorem exists_lastOf {ops : List (List α × β)} (h : p ∈ ops.map Prod.fst) :
    ∃ b, lastOf ops p = some b := by
  induction ops using List.reverseRecOn with
  | nil => exact absurd h List.not_mem_nil
  | append_singleton ops op ih =>
    rw [lastOf_append]
    split_ifs with heq
    · exact ⟨op.2, rfl⟩
    · refine ih ?_
      rw [List.map_append, List.mem_append] at h
      exact h.resolve_right fun hlast => heq (List.mem_singleton.mp hlast).symm

/-- A word that is registered once. -/
theorem lastOf_eq_some {ops : List (List α × β)} (hnodup : (ops.map Prod.fst).Nodup) {b : β} :
    lastOf ops p = some b ↔ (p, b) ∈ ops := by
  refine ⟨mem_of_lastOf, fun h => ?_⟩
  obtain ⟨b', hb'⟩ := exists_lastOf (List.mem_map_of_mem (f := Prod.fst) h)
  have heq := List.inj_on_of_nodup_map hnodup (mem_of_lastOf hb') h rfl
  rw [hb', (Prod.mk.inj heq).2]

end Registered

end PrefixTree
