import DemoClass.Huffman.CodeWords

/-!
# The code lengths are optimal

While the weights stay below 2^31, `list_node_cmp` returns the sign of their
difference, and the list of the nodes is the priority queue of Huffman's construction
(`Greedy.cost_le`).
-/

namespace DemoClass

namespace Huffman

open ListSort

variable {w : ℕ → ℕ} {info : HuffInfo} {z : Weighted ℕ}

lemma weightDiff_eq {a b : ℕ} (ha : a < 2 ^ 31) (hb : b < 2 ^ 31) :
    weightDiff a b = (a : ℤ) - b := by
  rw [weightDiff_eq_bmod]
  refine Int.bmod_eq_of_le_mul_two ?_ ?_
  · push_cast
    omega
  · push_cast
    omega

lemma exact_weights : Greedy.Exact weightDiff weightSum (2 ^ 31) where
  cmp_eq _ ha _ hb := weightDiff_eq ha hb
  add_eq _ _ h := Nat.mod_eq_of_lt (h.trans (by decide))

lemma ordered_sortedLeaves (hw : ∀ i ∈ usedLeaves w, w i < 2 ^ 31) :
    Ordered (fun i j => weightDiff (w i) (w j)) (sortedLeaves w) := by
  refine insertionSort_ordered (S := {i | w i < 2 ^ 31}) ?_ hw
  have hc := exact_weights.cmp_eq
  refine ⟨?_, ?_⟩
  · intro i hi j hj
    rw [hc _ hi _ hj, hc _ hj _ hi]
    omega
  · intro i hi j hj k hk hij hjk
    rw [hc _ hi _ hj] at hij
    rw [hc _ hj _ hk] at hjk
    rw [hc _ hi _ hk]
    omega

lemma weight_le_totalWeight {i : ℕ} (hi : i ∈ usedLeaves w) : w i ≤ totalWeight w :=
  List.single_le_sum (by simp) _ (List.mem_map_of_mem hi)

/-- The tree of the used leaves has the least cost. -/
lemma codeTree_cost_le (h2 : 2 ≤ (usedLeaves w).length) (ht : totalWeight w < 2 ^ 31)
    {l : ℕ → ℕ} {M : ℕ} (hl : Kraft M (usedLeaves w).toFinset l) :
    (codeTree w).cost w ≤ ((usedLeaves w).map fun i => w i * l i).sum := by
  have hnd := nodup_usedLeaves w
  have hlt : ∀ i ∈ usedLeaves w, w i < 2 ^ 31 := fun i hi =>
    lt_of_le_of_lt (weight_le_totalWeight hi) ht
  have hzs : (((leafForest w).map Prod.snd).map fun z => (z.weight, z.tree)).Perm
      ((usedLeaves w).toFinset.toList.map fun a => (w a, .leaf a)) := by
    have hp := ((sortedLeaves_perm w).trans (List.toFinset_toList hnd).symm).map
      fun a => (w a, CodeTree.leaf a)
    simpa [leafForest, Function.comp_def] using hp
  have ho : Ordered (Greedy.cmp weightDiff) ((leafForest w).map Prod.snd) := by
    rw [leafForest, List.map_map, Ordered, List.pairwise_map]
    refine (ordered_sortedLeaves hlt).imp fun {i j} hij => ?_
    rw [Greedy.cmp]
    exact hij
  have hne : (usedLeaves w).toFinset.Nonempty := by
    rw [List.toFinset_nonempty_iff]
    exact List.ne_nil_of_length_pos (by omega)
  have hsum : ∀ f : ℕ → ℕ, ∑ a ∈ (usedLeaves w).toFinset, f a = ((usedLeaves w).map f).sum :=
    fun f => List.sum_toFinset f hnd
  have hB : ∑ a ∈ (usedLeaves w).toFinset, w a < 2 ^ 31 := by rwa [hsum]
  obtain ⟨z, hz, hle⟩ := Greedy.cost_le exact_weights hzs ho hne hB
  rw [List.length_map, length_leafForest] at hz
  have htree : codeTree w = z.tree := by rw [codeTree, hz]
  rw [htree, ← hsum]
  exact hle l M hl

/-- No code word of a used byte begins another one. -/
def PrefixFree (w : ℕ → ℕ) (code : ℕ → List Bool) : Prop :=
  ∀ i ∈ usedLeaves w, ∀ j ∈ usedLeaves w, i ≠ j → ¬ code i <+: code j

namespace Built

lemma prefixFree_codeword (h : Built w info z) : PrefixFree w z.tree.codeword := by
  intro i hi j hj hne hpre
  obtain ⟨hi, hwi⟩ := mem_usedLeaves.1 hi
  obtain ⟨hj, hwj⟩ := mem_usedLeaves.1 hj
  exact hne ((h.isPath_codeword hi hwi).eq_of_isPrefix (h.isPath_codeword hj hwj) hpre).2

/-- The encoded size under the code of `hf_fill_code` is the cost of the tree. -/
lemma sum_codeLen (h : Built w info z) :
    ((usedLeaves w).map fun i => w i * ((coded z.tree leafNum info).table i).codeLen).sum =
      z.tree.cost w := by
  have hsum : (z.tree.leaves.map fun i => w i * (z.tree.codeword i).length).sum =
      z.tree.cost w := by
    refine CodeTree.sum_leaves fun bs x hp => ?_
    have hx := h.mem_leaves.1 hp.mem_leaves
    rw [hp.unique h.nodup_leaves (h.isPath_codeword hx.1 hx.2)]
  rw [← hsum, (h.leaves_perm.map _).sum_eq]
  refine congrArg List.sum (List.map_congr_left fun i hi => ?_)
  rw [h.codeLen_eq hi]

end Built

/-- **The code of `hf_fill_code` is optimal.**  Its lengths are those of a prefix code, and no
prefix code for the used bytes needs fewer bits. -/
theorem hfFillCode_optimal (w : ℕ → ℕ) (info : HuffInfo) (h2 : 2 ≤ (usedLeaves w).length)
    (ht : totalWeight w < 2 ^ 31) :
    ∃ info₁ info₂ info₃, (hfBuildSortList (setWeights w (huffInit info))).Ends (.ok info₁) ∧
      (hfBuildHufftree info₁).Ends (.ok info₂) ∧ (hfFillCode info₂).Ends (.ok info₃) ∧
      (∀ i ∈ usedLeaves w, (info₃.table i).codeLen = ((codeTree w).codeword i).length) ∧
      PrefixFree w (codeTree w).codeword ∧
      ∀ code : ℕ → List Bool, PrefixFree w code →
        ((usedLeaves w).map fun i => w i * (info₃.table i).codeLen).sum ≤
          ((usedLeaves w).map fun i => w i * (code i).length).sum := by
  obtain ⟨info₁, info₂, z, hsort, hend, hbuilt, hfill⟩ := tables_ends w info h2
  have htree := hbuilt.codeTree_eq
  refine ⟨info₁, info₂, _, hsort, hend, hfill, ?_, ?_, fun code hcode => ?_⟩
  · intro i hi
    rw [htree, hbuilt.codeLen_eq hi]
  · rw [htree]
    exact hbuilt.prefixFree_codeword
  · have hcard : 1 < (usedLeaves w).toFinset.card := by
      rw [List.toFinset_card_of_nodup (nodup_usedLeaves w)]
      exact h2
    have hpre : ∀ i ∈ (usedLeaves w).toFinset, ∀ j ∈ (usedLeaves w).toFinset, i ≠ j →
        ¬ code i <+: code j := by
      simpa [PrefixFree] using hcode
    obtain ⟨M, hM⟩ := kraft_of_prefixFree hpre hcard
    rw [hbuilt.sum_codeLen, ← htree]
    exact codeTree_cost_le h2 ht hM

theorem hfFillCode_optimal_four :
    ∃ info₁ info₂ info₃, (hfBuildSortList (setWeights fourBytes
        (huffInit ⟨fun _ => .fresh, ⟨id, id⟩, 0, 0⟩))).Ends (.ok info₁) ∧
      (hfBuildHufftree info₁).Ends (.ok info₂) ∧ (hfFillCode info₂).Ends (.ok info₃) ∧
      (∀ i ∈ usedLeaves fourBytes,
        (info₃.table i).codeLen = ((codeTree fourBytes).codeword i).length) ∧
      PrefixFree fourBytes (codeTree fourBytes).codeword ∧
      ∀ code : ℕ → List Bool, PrefixFree fourBytes code →
        ((usedLeaves fourBytes).map fun i => fourBytes i * (info₃.table i).codeLen).sum ≤
          ((usedLeaves fourBytes).map fun i => fourBytes i * (code i).length).sum :=
  hfFillCode_optimal fourBytes _ two_le_fourBytes (totalWeight_fourBytes.trans_lt (by decide))

end Huffman

end DemoClass
