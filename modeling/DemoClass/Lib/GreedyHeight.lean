import DemoClass.Lib.Greedy
import Mathlib.Data.Nat.Fib.Basic

/-!
# The height of a greedy tree

When two trees are joined, no tree of the list is lighter than either of them, and later trees are
sums.  So whatever is joined with a tree later weighs at least as much as each of its two parts,
and the weight grows with the height like the Fibonacci numbers (`fib_height_le`).
-/

namespace DemoClass

namespace Greedy

open ListSort

variable {α : Type} {c : ℕ → ℕ → ℤ} {add : ℕ → ℕ → ℕ} {B : ℕ} {w : α → ℕ}

/-- The parts of the trees are light against all trees of the list, and the weights are at least
Fibonacci numbers. -/
structure Steep (w : α → ℕ) (zs : List (Weighted α)) : Prop where
  weight_eq : ∀ z ∈ zs, z.weight = z.tree.weight w
  fib_le : ∀ z ∈ zs, Nat.fib (z.tree.height + 2) ≤ z.weight
  fib_part_le : ∀ z ∈ zs, ∀ l r, z.tree = .node l r →
    Nat.fib (l.height + 2) ≤ l.weight w ∧ Nat.fib (r.height + 2) ≤ r.weight w
  part_le : ∀ x ∈ zs, ∀ l r, x.tree = .node l r → ∀ z ∈ zs,
    l.weight w ≤ z.weight ∧ r.weight w ≤ z.weight

variable {x y : Weighted α} {zs : List (Weighted α)}

lemma weight_ordered (h : Exact c add B) (ho : Ordered (cmp c) (x :: zs))
    (hB : (weights (x :: zs)).sum < B) : ∀ z ∈ zs, x.weight ≤ z.weight := by
  intro z hz
  have hxz := (List.pairwise_cons.1 ho).1 z hz
  have hx : x.weight < B := (weight_le_sum List.mem_cons_self).trans_lt hB
  have hz : z.weight < B := (weight_le_sum (List.mem_cons_of_mem x hz)).trans_lt hB
  rw [cmp, h.cmp_eq _ hx _ hz] at hxz
  omega

/-- The heavier part of the higher tree has the Fibonacci number two below, and is not heavier
than the other tree. -/
lemma Steep.fib_join_aux (h : Steep w zs) (hx : x ∈ zs) (hy : y ∈ zs)
    (hle : y.tree.height ≤ x.tree.height) :
    Nat.fib (x.tree.height + 3) ≤ x.weight + y.weight := by
  have hfx := h.fib_le x hx
  have hfy := h.fib_le y hy
  rw [Nat.fib_add_two]
  cases hxt : x.tree with
  | leaf a =>
      rw [hxt] at hfx hle
      have hzero : y.tree.height = 0 := Nat.le_zero.1 hle
      rw [hzero] at hfy
      have hx1 : 1 ≤ x.weight := hfx
      have hy1 : 1 ≤ y.weight := hfy
      show 2 ≤ x.weight + y.weight
      omega
  | node l r =>
      rw [hxt] at hfx
      obtain ⟨hfl, hfr⟩ := h.fib_part_le x hx l r hxt
      obtain ⟨hl, hr⟩ := h.part_le x hx l r hxt y hy
      rw [CodeTree.height] at hfx ⊢
      have hpart : Nat.fib (max l.height r.height + 1 + 1) ≤ y.weight := by
        rcases max_choice l.height r.height with hmax | hmax
        · rw [hmax]
          exact hfl.trans hl
        · rw [hmax]
          exact hfr.trans hr
      show Nat.fib (max l.height r.height + 1 + 1) + Nat.fib (max l.height r.height + 1 + 2) ≤ _
      omega

lemma Steep.fib_join (h : Steep w zs) (hx : x ∈ zs) (hy : y ∈ zs) :
    Nat.fib ((CodeTree.node x.tree y.tree).height + 2) ≤ x.weight + y.weight := by
  rw [CodeTree.height]
  rcases le_total y.tree.height x.tree.height with hle | hle
  · rw [max_eq_left hle]
    exact h.fib_join_aux hx hy hle
  · rw [max_eq_right hle, Nat.add_comm x.weight]
    exact h.fib_join_aux hy hx hle

lemma Steep.step (h : Steep w (x :: y :: zs)) (he : Exact c add B)
    (ho : Ordered (cmp c) (x :: y :: zs)) (hB : (weights (x :: y :: zs)).sum < B) :
    Steep w (step c add (x :: y :: zs)) := by
  have hx : x ∈ x :: y :: zs := List.mem_cons_self
  have hy : y ∈ x :: y :: zs := List.mem_cons_of_mem x List.mem_cons_self
  have hzs : ∀ z ∈ zs, z ∈ x :: y :: zs := fun z hz =>
    List.mem_cons_of_mem x (List.mem_cons_of_mem y hz)
  have hjoin : (join add x y).weight = x.weight + y.weight := he.add_first hB
  have hmem : ∀ z, z ∈ Greedy.step c add (x :: y :: zs) ↔ z = join add x y ∨ z ∈ zs := by
    intro z
    rw [Greedy.step, (insertFront_perm (cmp c) (join add x y) zs).mem_iff, List.mem_cons]
  have hxz := weight_ordered he ho hB
  have hyz : ∀ z ∈ zs, y.weight ≤ z.weight := by
    refine weight_ordered he (List.pairwise_cons.1 ho).2 (lt_of_le_of_lt ?_ hB)
    simp only [weights, List.map_cons, List.sum_cons]
    omega
  refine ⟨weight_of_mem_step he hB h.weight_eq, fun z hz => ?_, fun z hz l r hlr => ?_,
    fun z hz l r hlr u hu => ?_⟩
  · rcases (hmem z).1 hz with rfl | hz
    · rw [hjoin]
      exact h.fib_join hx hy
    · exact h.fib_le z (hzs z hz)
  · rcases (hmem z).1 hz with rfl | hz
    · obtain ⟨rfl, rfl⟩ : x.tree = l ∧ y.tree = r := by simpa [join] using hlr
      rw [← h.weight_eq x hx, ← h.weight_eq y hy]
      exact ⟨h.fib_le x hx, h.fib_le y hy⟩
    · exact h.fib_part_le z (hzs z hz) l r hlr
  · rcases (hmem z).1 hz with rfl | hz
    · obtain ⟨rfl, rfl⟩ : x.tree = l ∧ y.tree = r := by simpa [join] using hlr
      rw [← h.weight_eq x hx, ← h.weight_eq y hy]
      rcases (hmem u).1 hu with rfl | hu
      · rw [hjoin]
        omega
      · exact ⟨hxz u (List.mem_cons_of_mem y hu), hyz u hu⟩
    · rcases (hmem u).1 hu with rfl | hu
      · have hpart := h.part_le z (hzs z hz) l r hlr x hx
        rw [hjoin]
        omega
      · exact h.part_le z (hzs z hz) l r hlr u (hzs u hu)

/-- The list of the leaves. -/
lemma steep_leaves (hleaf : ∀ z ∈ zs, ∃ a, z = ⟨w a, .leaf a⟩ ∧ 0 < w a) : Steep w zs := by
  refine ⟨fun z hz => ?_, fun z hz => ?_, fun z hz l r hlr => ?_, fun z hz l r hlr => ?_⟩
  · obtain ⟨a, rfl, -⟩ := hleaf z hz
    simp [CodeTree.weight, CodeTree.leaves]
  · obtain ⟨a, rfl, ha⟩ := hleaf z hz
    exact ha
  · obtain ⟨a, rfl, -⟩ := hleaf z hz
    simp at hlr
  · obtain ⟨a, rfl, -⟩ := hleaf z hz
    simp at hlr

/-- **The height of a greedy tree.**  A tree of height `h` weighs at least the Fibonacci number
`fib (h + 2)`. -/
theorem fib_height_le (he : Exact c add B) {n : ℕ} (hlen : zs.length = n + 1)
    (ho : Ordered (cmp c) zs) (h : Steep w zs) (hB : (weights zs).sum < B) :
    ∃ z, forest c add n zs = [z] ∧ z.weight = (weights zs).sum ∧
      Nat.fib (z.tree.height + 2) ≤ z.weight := by
  induction n generalizing zs with
  | zero =>
      obtain ⟨z, rfl⟩ := List.length_eq_one_iff.1 hlen
      exact ⟨z, rfl, by simp [weights], h.fib_le z List.mem_cons_self⟩
  | succ n ih =>
      obtain ⟨x, y, zs, rfl⟩ : ∃ x y us, zs = x :: y :: us := by
        rcases zs with _ | ⟨x, _ | ⟨y, us⟩⟩
        · simp at hlen
        · simp at hlen
        · exact ⟨x, y, us, rfl⟩
      have hsum := sum_weights_step he hB
      have hlen' : (Greedy.step c add (x :: y :: zs)).length = n + 1 := by
        rw [length_step_cons]
        simpa using hlen
      obtain ⟨z, hz, hweight, hfib⟩ := ih hlen' (step_ordered he ho hB) (h.step he ho hB)
        (hsum ▸ hB)
      exact ⟨z, hz, hweight.trans hsum, hfib⟩

end Greedy

end DemoClass
