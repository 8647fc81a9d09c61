import DemoClass.Huffman.Tree
import DemoClass.Lib.InexactSort

/-!
# When the two lightest nodes are merged

`list_node_cmp` returns the difference of two `size_t` weights as an `int`: only its lower
32 bits count.  `hfBuildHufftree_sorted_iff` says for which weights the list is
nevertheless in order at the start of every round of `hf_build_hufftree`: those for which
the lower 32 bits tell apart all weights that the construction compares.
-/

namespace DemoClass

namespace Huffman

open ListSort

/-! ### The comparison -/

/-- The lower 32 bits of the difference of two weights, read as an `int`, are positive
exactly when `a` is the greater one. -/
def ToldApart (a b : ℕ) : Prop :=
  if b < a then 0 < (a - b) % 2 ^ 32 ∧ (a - b) % 2 ^ 32 < 2 ^ 31 else (b - a) % 2 ^ 32 ≤ 2 ^ 31

instance (a b : ℕ) : Decidable (ToldApart a b) := by
  unfold ToldApart
  infer_instance

lemma weightDiff_nonpos {a b : ℕ} (h : 0 ≤ weightDiff a b) : weightDiff b a ≤ 0 := by
  rw [weightDiff_eq_bmod, Int.bmod_def] at *
  norm_num at *
  split at h <;> split <;> omega

lemma weightDiff_self (a : ℕ) : weightDiff a a ≤ 0 := by
  simp [weightDiff_eq_bmod]

lemma toldApart_iff (a b : ℕ) : ToldApart a b ↔ (0 < weightDiff a b ↔ 0 < Greedy.diff a b) := by
  rw [Greedy.diff_pos, weightDiff_eq_bmod, Int.bmod_def, ToldApart]
  norm_num
  split <;> split <;> omega

/-! ### The weights of the list -/

variable {w : ℕ → ℕ} {info : HuffInfo} {index : ℕ} {zs : List (ℕ × Weighted ℕ)}

/-- The weights of the nodes of the list, as the construction sees them. -/
def listWeights (zs : List (ℕ × Weighted ℕ)) : List ℕ := zs.map fun z => z.2.weight

namespace Building

lemma map_weight (h : Building w info index zs) :
    ((zs.map Prod.fst).map fun i => (info.table i).weight) = listWeights zs := by
  rw [List.map_map]
  exact List.map_congr_left fun z hz => h.weight z hz

lemma listWeights_round (x y : ℕ × Weighted ℕ) (zs : List (ℕ × Weighted ℕ)) :
    listWeights (insertFront order (joined index x y) zs) =
      Greedy.stepWeights weightDiff weightSum (listWeights (x :: y :: zs)) := by
  have h : listWeights (insertFront order (joined index x y) zs) =
      insertFront weightDiff (joined index x y).2.weight (listWeights zs) :=
    insertFront_map_congr fun v _ => by rw [order, Greedy.cmp]
  rw [h, joined_weight]
  rfl

/-- The list after some rounds of the loop. -/
lemma iterates {n : ℕ} {s s' : HuffInfo × ℕ} (hit : Comp.Iterates hfBuildHufftreeBody n s s') :
    ∀ {zs}, Building w s.1 s.2 zs → ∃ zs', Building w s'.1 s'.2 zs' ∧ n + zs'.length = zs.length ∧
      listWeights zs' = (Greedy.stepWeights weightDiff weightSum)^[n] (listWeights zs) := by
  induction hit with
  | refl s => exact fun {zs} h => ⟨zs, h, Nat.zero_add _, rfl⟩
  | @step n s s' s'' hbody _ ih =>
      intro zs h
      match zs, h with
      | [], h => exact absurd (hbody.unique (h.body_stop (by simp))) (by simp)
      | [x], h => exact absurd (hbody.unique (h.body_stop (by simp))) (by simp)
      | x :: y :: zs, h =>
          obtain ⟨info', hround, h'⟩ := h.round
          obtain rfl : s' = (info', s.2 + 1) := by simpa using hbody.unique hround
          obtain ⟨zs', hzs', hlen, hweights⟩ := ih h'
          refine ⟨zs', hzs', ?_, ?_⟩
          · rw [(insertFront_perm _ _ _).length_eq] at hlen
            simp only [List.length_cons] at hlen ⊢
            omega
          · rw [hweights, listWeights_round]
            rfl

/-- There are as many rounds as there are nodes to merge. -/
lemma exists_iterates {n : ℕ} : ∀ {s : HuffInfo × ℕ} {zs}, Building w s.1 s.2 zs →
    n < zs.length → ∃ s', Comp.Iterates hfBuildHufftreeBody n s s' := by
  induction n with
  | zero => exact fun {s} _ _ _ => ⟨s, .refl s⟩
  | succ n ih =>
      intro s zs h hlen
      match zs, h with
      | [], h => exact absurd hlen (Nat.not_lt_zero _)
      | [x], h => exact absurd hlen (by simp)
      | x :: y :: zs, h =>
          obtain ⟨info', hround, h'⟩ := h.round
          have hlen' : n < (insertFront order (joined s.2 x y) zs).length := by
            rw [(insertFront_perm _ _ _).length_eq]
            simpa using hlen
          obtain ⟨s', hs'⟩ := ih (s := (info', s.2 + 1)) h' hlen'
          exact ⟨s', .step hround hs'⟩

end Building

/-! ### Every round -/

/-- At the start of every round of the loop of `hf_build_hufftree` the list is in
nondecreasing order of the weights, and no node behind the first two is lighter than one of
them. -/
def SortedThroughout (info : HuffInfo) : Prop :=
  ∀ n s, Comp.Iterates hfBuildHufftreeBody n (info, leafNum) s →
    ∃ xs, Listed s.1 xs ∧ (xs.map fun i => (s.1.table i).weight).Pairwise (· ≤ ·) ∧
      ∀ a b rest, xs = a :: b :: rest → ∀ x ∈ rest,
        (s.1.table a).weight ≤ (s.1.table x).weight ∧ (s.1.table b).weight ≤ (s.1.table x).weight

lemma ordered_diff_iff {ws : List ℕ} : Ordered Greedy.diff ws ↔ ws.Pairwise (· ≤ ·) := by
  simp only [Ordered, Greedy.diff_nonpos]

lemma Building.sortedThroughout_iff (h : Building w info leafNum zs) :
    SortedThroughout info ↔ ∀ n < zs.length, Ordered Greedy.diff
      ((Greedy.stepWeights weightDiff weightSum)^[n] (listWeights zs)) := by
  constructor
  · intro hs n hn
    obtain ⟨s, hit⟩ := Building.exists_iterates (s := (info, leafNum)) h hn
    obtain ⟨zs', hzs', -, hweights⟩ := Building.iterates hit h
    obtain ⟨xs, hlisted, hsorted, -⟩ := hs n s hit
    obtain rfl : xs = zs'.map Prod.fst :=
      List.map_injective_iff.2 (fun _ _ => ListPtr.node.inj) (hlisted.unique hzs'.listed)
    rw [hzs'.map_weight, hweights] at hsorted
    exact ordered_diff_iff.2 hsorted
  · intro hs n s hit
    obtain ⟨zs', hzs', hlen, hweights⟩ := Building.iterates hit h
    by_cases hn : n < zs.length
    · have hsorted := ordered_diff_iff.1 (hs n hn)
      rw [← hweights, ← hzs'.map_weight] at hsorted
      refine ⟨_, hzs'.listed, hsorted, ?_⟩
      rintro a b rest he x hx
      rw [he, List.map_cons, List.map_cons, List.pairwise_cons, List.pairwise_cons] at hsorted
      have hmem := List.mem_map_of_mem (f := fun i => (s.1.table i).weight) hx
      exact ⟨hsorted.1 _ (List.mem_cons_of_mem _ hmem), hsorted.2.1 _ hmem⟩
    · have hnil : zs' = [] := List.length_eq_zero_iff.1 (by omega)
      subst hnil
      exact ⟨[], hzs'.listed, List.Pairwise.nil, by simp⟩

/-- All weights that are compared when the used leaves are sorted, and those that are
compared with the sum of the two lightest ones in every round, are told apart. -/
structure AllToldApart (w : ℕ → ℕ) : Prop where
  sorting : AllSorted (fun x v => ToldApart v x) Greedy.diff ((usedLeaves w).map w)
  merging : Greedy.AllMerged ToldApart ((usedLeaves w).length - 1)
    (insertionSort Greedy.diff ((usedLeaves w).map w))

lemma listWeights_leafForest (w : ℕ → ℕ) :
    listWeights (leafForest w) = insertionSort weightDiff ((usedLeaves w).map w) := by
  rw [← insertionSort_map, listWeights, leafForest, List.map_map]
  rfl

/-- **When the two lightest nodes are merged.**  For weights with a sum in `size_t`, the list
is in order at the start of every round exactly when the lower 32 bits tell apart the
weights that are compared on the way. -/
theorem hfBuildHufftree_sorted_iff (w : ℕ → ℕ) (info : HuffInfo)
    (h2 : 2 ≤ (usedLeaves w).length) (ht : totalWeight w < sizeMod) :
    ∃ info₁, (hfBuildSortList (setWeights w (huffInit info))).Ends (.ok info₁) ∧
      (SortedThroughout info₁ ↔ AllToldApart w) := by
  obtain ⟨l, hsort, hb⟩ := building_leafForest w info
  refine ⟨_, hsort, hb.sortedThroughout_iff.trans ?_⟩
  obtain ⟨ws, hws⟩ : ∃ ws, ws = (usedLeaves w).map w := ⟨_, rfl⟩
  obtain ⟨hiff, hsame⟩ : (Ordered Greedy.diff (insertionSort weightDiff ws) ↔
      AllSorted (fun x v => ToldApart v x) Greedy.diff ws) ∧
      (AllSorted (fun x v => ToldApart v x) Greedy.diff ws →
        insertionSort weightDiff ws = insertionSort Greedy.diff ws) :=
    ordered_insertionSort_iff Greedy.totalPreorder_diff (fun a b => weightDiff_nonpos)
      (fun a _ b _ => toldApart_iff b a) fun a _ b _ h0 => by
        obtain rfl : b = a := by
          rw [Greedy.diff] at h0
          omega
        exact weightDiff_self b
  have hrounds : Ordered Greedy.diff (insertionSort Greedy.diff ws) →
      (insertionSort Greedy.diff ws).sum < sizeMod →
      ((∀ m ≤ (usedLeaves w).length - 1, Ordered Greedy.diff
        ((Greedy.stepWeights weightDiff weightSum)^[m] (insertionSort Greedy.diff ws))) ↔
        Greedy.AllMerged ToldApart ((usedLeaves w).length - 1) (insertionSort Greedy.diff ws)) :=
    fun ho hB => Greedy.steps_ordered_iff (fun a b hab => Nat.mod_eq_of_lt hab)
      (fun a _ b _ => toldApart_iff a b) weightDiff_self ho hB ((usedLeaves w).length - 1)
  subst hws
  have hsum : (insertionSort Greedy.diff ((usedLeaves w).map w)).sum < sizeMod := by
    rw [(insertionSort_perm _ _).sum_eq]
    exact ht
  rw [listWeights_leafForest, length_leafForest]
  constructor
  · intro hs
    have hall := hiff.1 (hs 0 (by omega))
    refine ⟨hall, (hrounds ?_ hsum).1 fun m hm => ?_⟩
    · rw [← hsame hall]
      exact hs 0 (by omega)
    · rw [← hsame hall]
      exact hs m (by omega)
  · rintro ⟨hall, hmerged⟩ n hn
    have ho := hiff.2 hall
    rw [hsame hall] at ho ⊢
    exact (hrounds ho hsum).2 hmerged n (by omega)

theorem hfBuildHufftree_sorted_four :
    ∃ info₁, (hfBuildSortList (setWeights fourBytes
        (huffInit ⟨fun _ => .fresh, ⟨id, id⟩, 0, 0⟩))).Ends (.ok info₁) ∧
      (SortedThroughout info₁ ↔ AllToldApart fourBytes) :=
  hfBuildHufftree_sorted_iff fourBytes _ two_le_fourBytes
    (totalWeight_fourBytes.trans_lt (by decide))

/-- Two light bytes and one that is heavier by more than 2^31. -/
def gapped (i : ℕ) : ℕ := [1, 2, 2 ^ 31 + 3].getD i 0

/-- The heavy byte is sorted before the light ones. -/
theorem not_sorted_gapped : 2 ≤ (usedLeaves gapped).length ∧ totalWeight gapped < sizeMod ∧
    ¬ ∃ info₁, (hfBuildSortList (setWeights gapped
        (huffInit ⟨fun _ => .fresh, ⟨id, id⟩, 0, 0⟩))).Ends (.ok info₁) ∧
      SortedThroughout info₁ := by
  have h2 : 2 ≤ (usedLeaves gapped).length := by decide +kernel
  have ht : totalWeight gapped < sizeMod := by decide +kernel
  refine ⟨h2, ht, ?_⟩
  rintro ⟨info₁, hsort, hs⟩
  obtain ⟨l, hsort', hb⟩ := building_leafForest gapped ⟨fun _ => .fresh, ⟨id, id⟩, 0, 0⟩
  obtain rfl := Except.ok.inj (hsort.unique hsort')
  have hlen : 0 < (leafForest gapped).length := by
    rw [length_leafForest]
    omega
  have ho := hb.sortedThroughout_iff.1 hs 0 hlen
  have hused : (usedLeaves gapped).map gapped = [1, 2, 2 ^ 31 + 3] := by decide +kernel
  rw [Function.iterate_zero_apply, listWeights_leafForest, hused] at ho
  have hweights : insertionSort weightDiff [1, 2, 2 ^ 31 + 3] = [2 ^ 31 + 3, 1, 2] := by
    decide +kernel
  rw [hweights] at ho
  exact absurd ho (by decide)

end Huffman

end DemoClass
