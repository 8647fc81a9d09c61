import DemoClass.Huffman.Code

/-!
# When the code words are the paths of the tree

`code` has 16 bits, but the tree of 256 bytes can have up to 255 levels.
`hfFillCode_codeWords_iff` says for which weights the code words come out right: those
for which the merging of the first two trees of the list, `codeTree`, gives a tree of height
at most 16.
-/

namespace DemoClass

namespace Huffman

open ListSort

/-- The code tree of the weights `w`: the used bytes are sorted by insertion, then the first
two trees are joined until one is left, and a joined tree is put before the first tree that it
is not heavier than.  Weights are compared by `weightDiff`, their difference narrowed to `int`:
where they are less than `2 ^ 31` apart, the two trees are the lightest. -/
def codeTree (w : ℕ → ℕ) : CodeTree ℕ :=
  match Greedy.forest weightDiff weightSum ((usedLeaves w).length - 1)
    ((leafForest w).map Prod.snd) with
  | z :: _ => z.tree
  | [] => .leaf unused

/-- The code words are the paths from the root to the used leaves, and none of them is a
prefix of another one. -/
structure CodeWords (info : HuffInfo) : Prop where
  path : ∀ i < leafNum, (info.table i).weight ≠ 0 →
    Path info.table info.root (emitted (info.table i)) i
  prefixFree : ∀ i < leafNum, ∀ j < leafNum, (info.table i).weight ≠ 0 →
    (info.table j).weight ≠ 0 → i ≠ j → ¬ emitted (info.table i) <+: emitted (info.table j)

variable {w : ℕ → ℕ} {info : HuffInfo} {z : Weighted ℕ}

namespace Built

lemma codeTree_eq (h : Built w info z) : codeTree w = z.tree := by
  rw [codeTree, h.forest]

lemma leaves_perm (h : Built w info z) : z.tree.leaves.Perm (usedLeaves w) := by
  have hp := Greedy.leaves_forest weightDiff weightSum ((usedLeaves w).length - 1)
    ((leafForest w).map Prod.snd)
  rw [h.forest] at hp
  have hleaf : Greedy.leaves ((leafForest w).map Prod.snd) = sortedLeaves w := by
    simp [Greedy.leaves, leafForest, CodeTree.leaves, List.flatMap_map]
  rw [hleaf] at hp
  simpa [Greedy.leaves] using hp.trans (sortedLeaves_perm w)

lemma mem_leaves (h : Built w info z) {i : ℕ} :
    i ∈ z.tree.leaves ↔ i < leafNum ∧ w i ≠ 0 := by
  rw [h.leaves_perm.mem_iff, mem_usedLeaves]

lemma nodup_leaves (h : Built w info z) : z.tree.leaves.Nodup :=
  h.leaves_perm.nodup_iff.2 (nodup_usedLeaves w)

lemma treeAt (h : Built w info z) : TreeAt info.table z.tree info.root :=
  h.building.tree _ (List.mem_singleton.2 rfl)

lemma isPath_codeword (h : Built w info z) {i : ℕ} (hi : i < leafNum) (hw : w i ≠ 0) :
    z.tree.IsPath (z.tree.codeword i) i :=
  CodeTree.isPath_codeword (h.mem_leaves.2 ⟨hi, hw⟩)

lemma weight_ne_zero (h : Built w info z) {i : ℕ} (hi : i < leafNum) :
    (info.table i).weight ≠ 0 ↔ w i ≠ 0 := by
  rw [h.building.leaf i hi]

lemma fillCode_ends (h : Built w info z) :
    (hfFillCode info).Ends (.ok (coded z.tree leafNum info)) := by
  refine hfFillCode_ends h.climbs (fun i hi hw => ?_) h.building.noCode
  exact (h.treeAt.isPath_iff.1 (h.isPath_codeword hi ((h.weight_ne_zero hi).1 hw))).1

/-- What `hf_fill_code` stores for a used byte. -/
lemma coded_table (h : Built w info z) {i : ℕ} (hi : i < leafNum) (hw : w i ≠ 0) :
    ((coded z.tree leafNum info).table i).code = codeOf (z.tree.codeword i) ∧
      ((coded z.tree leafNum info).table i).codeLen =
        (z.tree.codeword i).length % charMod := by
  simp [coded, hi, (h.weight_ne_zero hi).2 hw, HuffNode.setCode]

/-- The lengths that `hf_fill_code` stores are those of the code words of the tree. -/
lemma codeLen_eq (h : Built w info z) {i : ℕ} (hi : i ∈ usedLeaves w) :
    ((coded z.tree leafNum info).table i).codeLen = (z.tree.codeword i).length := by
  obtain ⟨hi, hw⟩ := mem_usedLeaves.1 hi
  have hlen : (z.tree.codeword i).length ≤ z.tree.height :=
    CodeTree.height_le_iff.1 le_rfl _ _ (h.isPath_codeword hi hw)
  have hheight := z.tree.height_lt_length_leaves
  rw [h.leaves_perm.length_eq] at hheight
  have hused := length_usedLeaves_le w
  rw [(h.coded_table hi hw).2]
  exact Nat.mod_eq_of_lt (by simp only [charMod, leafNum] at *; omega)

/-- The paths of the tree, seen in the tables with the codes. -/
lemma path_coded_iff (h : Built w info z) {i : ℕ} {bs : List Bool} (hi : i < leafNum) :
    Path (coded z.tree leafNum info).table (coded z.tree leafNum info).root bs i ↔
      z.tree.IsPath bs i := by
  have htree := tree_coded z.tree leafNum info
  rw [h.treeAt.isPath_iff]
  constructor
  · intro hp
    exact ⟨hp.congr fun y => (htree y).symm, hi⟩
  · rintro ⟨hp, -⟩
    exact hp.congr htree

lemma emitted_coded (h : Built w info z) (hheight : z.tree.height ≤ 16) {i : ℕ}
    (hi : i < leafNum) (hw : w i ≠ 0) :
    emitted ((coded z.tree leafNum info).table i) = z.tree.codeword i :=
  emitted_codeOf (CodeTree.height_le_iff.1 hheight _ _ (h.isPath_codeword hi hw))
    (h.coded_table hi hw).1 (h.coded_table hi hw).2

/-- The bit 16 of a code word is lost, and in a higher tree some code word has it set. -/
lemma codeWords_iff (h : Built w info z) :
    CodeWords (coded z.tree leafNum info) ↔ z.tree.height ≤ 16 := by
  have hused : ∀ i < leafNum, ((coded z.tree leafNum info).table i).weight ≠ 0 → w i ≠ 0 := by
    intro i hi hwi
    rw [weight_coded] at hwi
    exact (h.weight_ne_zero hi).1 hwi
  constructor
  · intro hc
    by_contra hheight
    obtain ⟨bs, i, hp, hturn⟩ := CodeTree.exists_right_turn (not_le.1 hheight)
    obtain ⟨hi, hw⟩ := h.mem_leaves.1 hp.mem_leaves
    have hbs : bs = z.tree.codeword i := hp.unique h.nodup_leaves (h.isPath_codeword hi hw)
    have hwi : ((coded z.tree leafNum info).table i).weight ≠ 0 := by
      rw [weight_coded]
      exact (h.weight_ne_zero hi).2 hw
    have hpath := (h.path_coded_iff hi).1 (hc.path i hi hwi)
    refine emitted_ne hturn ?_ (hpath.unique h.nodup_leaves hp)
    rw [(h.coded_table hi hw).1, hbs]
  · intro hheight
    constructor
    · intro i hi hwi
      have hw := hused i hi hwi
      rw [h.emitted_coded hheight hi hw, h.path_coded_iff hi]
      exact h.isPath_codeword hi hw
    · intro i hi j hj hwi hwj hij hpre
      have hw := hused i hi hwi
      have hw' := hused j hj hwj
      rw [h.emitted_coded hheight hi hw, h.emitted_coded hheight hj hw'] at hpre
      exact hij ((h.isPath_codeword hi hw).eq_of_isPrefix (h.isPath_codeword hj hw') hpre).2

end Built

/-- The three steps after the counting of the bytes. -/
lemma tables_ends (w : ℕ → ℕ) (info : HuffInfo) (h2 : 2 ≤ (usedLeaves w).length) :
    ∃ info₁ info₂ z, (hfBuildSortList (setWeights w (huffInit info))).Ends (.ok info₁) ∧
      (hfBuildHufftree info₁).Ends (.ok info₂) ∧ Built w info₂ z ∧
      (hfFillCode info₂).Ends (.ok (coded z.tree leafNum info₂)) := by
  obtain ⟨l, hsort, hb⟩ := building_leafForest w info
  obtain ⟨info₂, z, -, -, hend, hbuilt⟩ := hfBuildHufftree_ends hb h2
  exact ⟨_, _, z, hsort, hend, hbuilt, hbuilt.fillCode_ends⟩

/-- **The code words of `hf_fill_code` are right exactly for trees of height at most
16.** -/
theorem hfFillCode_codeWords_iff (w : ℕ → ℕ) (info : HuffInfo)
    (h2 : 2 ≤ (usedLeaves w).length) :
    ∃ info₁ info₂ info₃, (hfBuildSortList (setWeights w (huffInit info))).Ends (.ok info₁) ∧
      (hfBuildHufftree info₁).Ends (.ok info₂) ∧ (hfFillCode info₂).Ends (.ok info₃) ∧
      (CodeWords info₃ ↔ (codeTree w).height ≤ 16) := by
  obtain ⟨info₁, info₂, z, hsort, hend, hbuilt, hfill⟩ := tables_ends w info h2
  refine ⟨info₁, info₂, _, hsort, hend, hfill, ?_⟩
  rw [hbuilt.codeTree_eq]
  exact hbuilt.codeWords_iff

/-- Weights with a tree of height 17. -/
def skewed (i : ℕ) : ℕ :=
  [1, 1, 2, 3, 5, 8, 13, 21, 34, 55, 89, 144, 233, 377, 610, 987, 1597, 2584].getD i 0

theorem hfFillCode_codeWords_skewed :
    ∃ info₁ info₂ info₃, (hfBuildSortList (setWeights skewed
        (huffInit ⟨fun _ => .fresh, ⟨id, id⟩, 0, 0⟩))).Ends (.ok info₁) ∧
      (hfBuildHufftree info₁).Ends (.ok info₂) ∧ (hfFillCode info₂).Ends (.ok info₃) ∧
      (CodeWords info₃ ↔ (codeTree skewed).height ≤ 16) :=
  hfFillCode_codeWords_iff skewed _ (by decide +kernel)

/-- For skewed weights the code words are wrong. -/
theorem not_codeWords_skewed :
    2 ≤ (usedLeaves skewed).length ∧ ¬ ∃ info₁ info₂ info₃,
      (hfBuildSortList (setWeights skewed
        (huffInit ⟨fun _ => .fresh, ⟨id, id⟩, 0, 0⟩))).Ends (.ok info₁) ∧
      (hfBuildHufftree info₁).Ends (.ok info₂) ∧ (hfFillCode info₂).Ends (.ok info₃) ∧
      CodeWords info₃ := by
  have h2 : 2 ≤ (usedLeaves skewed).length := by decide +kernel
  refine ⟨h2, ?_⟩
  rintro ⟨info₁, info₂, info₃, hsort, hend, hfill, hwords⟩
  obtain ⟨info₁', info₂', z, hsort', hend', hbuilt, hfill'⟩ :=
    tables_ends skewed ⟨fun _ => .fresh, ⟨id, id⟩, 0, 0⟩ h2
  obtain rfl : info₁ = info₁' := by simpa using hsort.unique hsort'
  obtain rfl : info₂ = info₂' := by simpa using hend.unique hend'
  obtain rfl : info₃ = _ := by simpa using hfill.unique hfill'
  have hheight := hbuilt.codeWords_iff.1 hwords
  rw [← hbuilt.codeTree_eq] at hheight
  exact absurd hheight (by decide +kernel)

end Huffman

end DemoClass
