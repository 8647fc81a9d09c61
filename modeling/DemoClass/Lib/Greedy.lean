import DemoClass.Lib.CodeTree
import DemoClass.Lib.Kraft
import DemoClass.Lib.ListSort

/-!
# The greedy construction of a code tree

`Greedy.step` takes the first two trees of a list, joins them and inserts the new
tree before the first tree that is not lighter; `Greedy.forest n` is the list after
`n` steps.  The comparison `c` and the addition `add` of weights are parameters, as
a program may compute either with machine integers.  The shape of the result does
not depend on them: the list gets shorter by one in each step
(`Greedy.length_step_cons`) and the leaves stay (`Greedy.leaves_forest`).  Where
comparison and addition are exact, the steps are a greedy run on the weights, and
so the resulting tree is optimal (`Greedy.cost_le`).
-/

namespace DemoClass

open ListSort

/-- A code tree and its weight. -/
structure Weighted (α : Type) where
  weight : ℕ
  tree : CodeTree α

namespace Greedy

variable {α : Type} (c : ℕ → ℕ → ℤ) (add : ℕ → ℕ → ℕ)

/-- Compare two trees by their weights. -/
def cmp (x y : Weighted α) : ℤ := c x.weight y.weight

/-- Join two trees. -/
def join (x y : Weighted α) : Weighted α := ⟨add x.weight y.weight, .node x.tree y.tree⟩

/-- Join the first two trees and insert the result. -/
def step : List (Weighted α) → List (Weighted α)
  | x :: y :: zs => insertFront (cmp c) (join add x y) zs
  | zs => zs

/-- The trees after `n` steps. -/
def forest (n : ℕ) (zs : List (Weighted α)) : List (Weighted α) := (step c add)^[n] zs

/-- All leaves of the trees of a list. -/
def leaves (zs : List (Weighted α)) : List α := zs.flatMap fun z => z.tree.leaves

/-- The weights of the trees of a list. -/
def weights (zs : List (Weighted α)) : List ℕ := zs.map Weighted.weight

@[simp] lemma forest_zero (zs : List (Weighted α)) : forest c add 0 zs = zs := rfl

lemma forest_succ (n : ℕ) (zs : List (Weighted α)) :
    forest c add (n + 1) zs = forest c add n (step c add zs) := rfl

lemma length_step_cons (x y : Weighted α) (zs : List (Weighted α)) :
    (step c add (x :: y :: zs)).length = zs.length + 1 := by
  simpa [step] using (insertFront_perm (cmp c) (join add x y) zs).length_eq

lemma leaves_step (zs : List (Weighted α)) : (leaves (step c add zs)).Perm (leaves zs) := by
  match zs with
  | [] => exact List.Perm.refl _
  | [x] => exact List.Perm.refl _
  | x :: y :: zs =>
      refine ((insertFront_perm (cmp c) (join add x y) zs).flatMap_right _).trans ?_
      simp [leaves, join, CodeTree.leaves]

lemma leaves_forest (n : ℕ) (zs : List (Weighted α)) :
    (leaves (forest c add n zs)).Perm (leaves zs) := by
  induction n generalizing zs with
  | zero => exact List.Perm.refl _
  | succ n ih => exact (ih _).trans (leaves_step c add zs)

/-! ### Exact weights -/

/-- Below the bound `B`, `c` is the difference and `add` the sum. -/
structure Exact (B : ℕ) : Prop where
  cmp_eq : ∀ a < B, ∀ b < B, c a b = (a : ℤ) - b
  add_eq : ∀ a b, a + b < B → add a b = a + b

variable {c add} {B : ℕ} {w : α → ℕ}

lemma Exact.totalPreorder (h : Exact c add B) :
    TotalPreorderOn (cmp c : Weighted α → Weighted α → ℤ) {z | z.weight < B} := by
  refine ⟨?_, ?_⟩
  · intro x hx y hy
    rw [cmp, cmp, h.cmp_eq _ hx _ hy, h.cmp_eq _ hy _ hx]
    omega
  · intro x hx y hy z hz hxy hyz
    rw [cmp, h.cmp_eq _ hx _ hy] at hxy
    rw [cmp, h.cmp_eq _ hy _ hz] at hyz
    rw [cmp, h.cmp_eq _ hx _ hz]
    omega

lemma weight_le_sum {z : Weighted α} {zs : List (Weighted α)} (hz : z ∈ zs) :
    z.weight ≤ (weights zs).sum :=
  List.single_le_sum (by simp) _ (List.mem_map_of_mem hz)

section Step

variable {x y : Weighted α} {zs : List (Weighted α)}

lemma Exact.add_first (h : Exact c add B) (hB : (weights (x :: y :: zs)).sum < B) :
    add x.weight y.weight = x.weight + y.weight := by
  refine h.add_eq _ _ (lt_of_le_of_lt ?_ hB)
  simp only [weights, List.map_cons, List.sum_cons]
  omega

/-- The weights of the first two trees become one. -/
lemma weights_step_perm (h : Exact c add B) (hB : (weights (x :: y :: zs)).sum < B) :
    (weights (step c add (x :: y :: zs))).Perm ((x.weight + y.weight) :: weights zs) := by
  refine ((insertFront_perm (cmp c) (join add x y) zs).map Weighted.weight).trans ?_
  simp [join, h.add_first hB, weights]

lemma sum_weights_step (h : Exact c add B) (hB : (weights (x :: y :: zs)).sum < B) :
    (weights (step c add (x :: y :: zs))).sum = (weights (x :: y :: zs)).sum := by
  rw [(weights_step_perm h hB).sum_eq]
  simp [weights, Nat.add_assoc]

lemma step_ordered (h : Exact c add B) (ho : Ordered (cmp c) (x :: y :: zs))
    (hB : (weights (x :: y :: zs)).sum < B) : Ordered (cmp c) (step c add (x :: y :: zs)) := by
  have hlt : ∀ z ∈ zs, z.weight < B := fun z hz =>
    (weight_le_sum (by simp [hz])).trans_lt hB
  have hjoin : (join add x y).weight < B := by
    refine lt_of_le_of_lt ?_ hB
    simp only [join, h.add_first hB, weights, List.map_cons, List.sum_cons]
    omega
  exact insertFront_ordered h.totalPreorder hjoin hlt
    (List.pairwise_cons.1 (List.pairwise_cons.1 ho).2).2

/-- The weight of a tree stays the sum of the weights of its leaves. -/
lemma weight_of_mem_step (h : Exact c add B) (hB : (weights (x :: y :: zs)).sum < B)
    (hw : ∀ z ∈ x :: y :: zs, z.weight = z.tree.weight w) :
    ∀ z ∈ step c add (x :: y :: zs), z.weight = z.tree.weight w := by
  intro z hz
  rcases List.mem_cons.1 ((insertFront_perm (cmp c) (join add x y) zs).mem_iff.1 hz) with rfl | hz
  · simp only [join, h.add_first hB, CodeTree.weight_node]
    rw [hw x (by simp), hw y (by simp)]
  · exact hw z (by simp [hz])

/-- One step merges the two lightest weights. -/
lemma step_merges (h : Exact c add B) {k : ℕ} (ho : Ordered (cmp c) (x :: y :: zs))
    (hB : (weights (x :: y :: zs)).sum < B)
    (hk : Merges (weights (step c add (x :: y :: zs))) k) :
    Merges (weights (x :: y :: zs)) (x.weight + y.weight + k) := by
  have hlt : ∀ z ∈ x :: y :: zs, z.weight < B := fun z hz => (weight_le_sum hz).trans_lt hB
  have hle : ∀ a ∈ x :: y :: zs, ∀ b ∈ x :: y :: zs, cmp c a b ≤ 0 → a.weight ≤ b.weight := by
    intro a ha b hb hab
    rw [cmp, h.cmp_eq _ (hlt a ha) _ (hlt b hb)] at hab
    omega
  rw [Ordered, List.pairwise_cons, List.pairwise_cons] at ho
  have hxy : x.weight ≤ y.weight := hle x (by simp) y (by simp) (ho.1 y (by simp))
  have hyz : ∀ v ∈ (weights zs : Multiset ℕ), y.weight ≤ v := by
    intro v hv
    obtain ⟨z, hz, rfl⟩ := List.mem_map.1 (Multiset.mem_coe.1 hv)
    exact hle y (by simp) z (by simp [hz]) (ho.2.1 z hz)
  rw [Multiset.coe_eq_coe.2 (weights_step_perm h hB)] at hk
  exact Merges.merge hxy hyz hk

end Step

/-- The greedy construction, step by step: it ends with one tree, and its steps are a
greedy run whose cost is what the inner nodes add to the cost of the tree. -/
lemma forest_merges (h : Exact c add B) {n : ℕ} : ∀ {zs : List (Weighted α)},
    zs.length = n + 1 → Ordered (cmp c) zs → (∀ z ∈ zs, z.weight = z.tree.weight w) →
    (weights zs).sum < B →
    ∃ t k, forest c add n zs = [t] ∧ Merges (weights zs) k ∧
      t.tree.cost w = k + (zs.map fun z => z.tree.cost w).sum := by
  induction n with
  | zero =>
      intro zs hlen _ _ _
      obtain ⟨t, rfl⟩ := List.length_eq_one_iff.1 hlen
      exact ⟨t, 0, rfl, Merges.single t.weight, by simp⟩
  | succ n ih =>
      intro zs hlen ho hw hB
      match zs, hlen with
      | x :: y :: zs, hlen =>
          have hlen' : (step c add (x :: y :: zs)).length = n + 1 := by
            rw [length_step_cons]
            simpa using hlen
          obtain ⟨t, k, ht, hk, hcost⟩ := ih hlen' (step_ordered h ho hB)
            (weight_of_mem_step h hB hw) (sum_weights_step h hB ▸ hB)
          refine ⟨t, x.weight + y.weight + k, ht, step_merges h ho hB hk, ?_⟩
          -- joining two trees puts all their leaves one deeper
          rw [hcost, step, ((insertFront_perm (cmp c) (join add x y) zs).map
            fun z => z.tree.cost w).sum_eq]
          simp only [List.map_cons, List.sum_cons, join, CodeTree.cost, hw x (by simp),
            hw y (by simp)]
          ring

/-- **The greedy tree is optimal.**  Starting from the leaves of the symbols `t`,
ordered by weight, the greedy construction ends with a tree whose cost is at most the
encoded size under any lengths that satisfy the Kraft inequality. -/
theorem cost_le [DecidableEq α] (h : Exact c add B) {t : Finset α} {zs : List (Weighted α)}
    (hzs : (zs.map fun z => (z.weight, z.tree)).Perm (t.toList.map fun a => (w a, .leaf a)))
    (ho : Ordered (cmp c) zs) (hne : t.Nonempty) (hB : ∑ a ∈ t, w a < B) :
    ∃ z, forest c add (zs.length - 1) zs = [z] ∧
      ∀ (l : α → ℕ) (M : ℕ), Kraft M t l → z.tree.cost w ≤ ∑ a ∈ t, w a * l a := by
  have hleaf : ∀ z ∈ zs, ∃ a, z = ⟨w a, .leaf a⟩ := by
    intro z hz
    have hmem := hzs.mem_iff.1 (List.mem_map_of_mem (f := fun z => (z.weight, z.tree)) hz)
    obtain ⟨a, -, ha⟩ := List.mem_map.1 hmem
    simp only [Prod.mk.injEq] at ha
    exact ⟨a, by rw [ha.1, ha.2]⟩
  have hweights : (weights zs).Perm (t.toList.map w) := by
    have := hzs.map Prod.fst
    simpa [weights, Function.comp_def] using this
  have hsum : (weights zs).sum = ∑ a ∈ t, w a := by
    rw [hweights.sum_eq, Finset.sum_map_toList]
  have hlen : zs.length = zs.length - 1 + 1 := by
    have hl : zs.length = t.card := by simpa using hzs.length_eq
    have := hne.card_pos
    omega
  have hw : ∀ z ∈ zs, z.weight = z.tree.weight w := by
    intro z hz
    obtain ⟨a, rfl⟩ := hleaf z hz
    simp [CodeTree.weight, CodeTree.leaves]
  obtain ⟨z, k, hz, hk, hcost⟩ := forest_merges h hlen ho hw (hsum ▸ hB)
  have hzero : (zs.map fun z => z.tree.cost w).sum = 0 := by
    refine List.sum_eq_zero ?_
    intro n hn
    obtain ⟨z, hz, rfl⟩ := List.mem_map.1 hn
    obtain ⟨a, rfl⟩ := hleaf z hz
    rfl
  refine ⟨z, hz, fun l M hl => ?_⟩
  rw [hcost, hzero, Nat.add_zero]
  refine hk.le_sum ?_ hl
  rw [Multiset.coe_eq_coe.2 hweights, ← Multiset.map_coe, Finset.coe_toList]

end Greedy

end DemoClass
