import DemoClass.Huffman.Tree

/-!
# The tree that is left is a full binary tree

`FullTree` says what the decoder and the code walk rely on: between 256 and
`info->root` every entry has two different children that come before it and weighs as
much as they do, the links to the parents are the inverse of the links to the
children, and every used leaf reaches the root along its parents.
-/

namespace DemoClass

namespace Huffman

/-- The table holds one full binary tree below `info->root`. -/
structure FullTree (w : ℕ → ℕ) (info : HuffInfo) : Prop where
  children : ∀ n, leafNum ≤ n → n ≤ info.root →
    (info.table n).child false ≠ (info.table n).child true ∧
      ∀ b, Live w n ((info.table n).child b)
  weight : ∀ n, leafNum ≤ n → n ≤ info.root →
    (info.table n).weight = (info.table ((info.table n).child false)).weight +
      (info.table ((info.table n).child true)).weight
  parent : ∀ x, Live w (info.root + 1) x → x ≠ info.root →
    (leafNum ≤ (info.table x).tree.parent ∧ (info.table x).tree.parent ≤ info.root) ∧
      (∃ b, (info.table (info.table x).tree.parent).child b = x) ∧
      ∀ n, leafNum ≤ n → n ≤ info.root → (∃ b, (info.table n).child b = x) →
        n = (info.table x).tree.parent
  reaches : ∀ i < leafNum, w i ≠ 0 → ∃ m, (fun x => (info.table x).tree.parent)^[m] i = info.root

variable {w : ℕ → ℕ} {info : HuffInfo} {z : Weighted ℕ}

namespace Built

lemma inner (h : Built w info z) {n : ℕ} (hn : leafNum ≤ n) (hn' : n ≤ info.root) :
    InnerNode w info.table n :=
  h.building.inner n hn (Nat.lt_succ_of_le hn')

lemma root_lt (h : Built w info z) : info.root < allNum := by
  have h₁ := h.root_eq
  have h₂ := length_usedLeaves_le w
  simp only [allNum, leafNum] at *
  omega

lemma leafNum_le_root (h : Built w info z) : leafNum ≤ info.root := by
  have h₁ := h.root_eq
  have h₂ := h.two_le
  simp only [leafNum]
  omega

/-- Every node but the root is a child of the node that it names as its parent. -/
lemma placed (h : Built w info z) {x : ℕ} (hx : Live w (info.root + 1) x)
    (hne : x ≠ info.root) :
    leafNum ≤ (info.table x).tree.parent ∧ (info.table x).tree.parent ≤ info.root ∧
      ∃ b, (info.table (info.table x).tree.parent).child b = x := by
  rcases h.building.placed x hx with hm | ⟨hp, hp', hb⟩
  · exact absurd (List.mem_singleton.1 hm) hne
  · exact ⟨hp, Nat.le_of_lt_succ hp', hb⟩

/-- Parents come after their children, so that the root is reached from every node. -/
lemma reaches (h : Built w info z) {x : ℕ} (hx : Live w (info.root + 1) x) :
    ∃ m, (fun x => (info.table x).tree.parent)^[m] x = info.root := by
  induction hk : info.root + 1 - x using Nat.strong_induction_on generalizing x with
  | _ k ih =>
      by_cases hne : x = info.root
      · exact ⟨0, hne⟩
      · obtain ⟨hp, hp', b, hb⟩ := h.placed hx hne
        have hlt : x < (info.table x).tree.parent := by
          have := ((h.inner hp hp').live b).lt hp
          omega
        obtain ⟨m, hm⟩ := ih (info.root + 1 - (info.table x).tree.parent) (by omega)
          (Or.inr ⟨hp, Nat.lt_succ_of_le hp'⟩) rfl
        exact ⟨m + 1, hm⟩

lemma fullTree (h : Built w info z) (ht : totalWeight w < sizeMod) : FullTree w info where
  children n hn hn' := ⟨(h.inner hn hn').distinct, (h.inner hn hn').live⟩
  weight n hn hn' := by
    have hnode := h.inner hn hn'
    exact hnode.weight.trans (Nat.mod_eq_of_lt (hnode.noWrap ht))
  parent x hx hne := by
    obtain ⟨hp, hp', hb⟩ := h.placed hx hne
    refine ⟨⟨hp, hp'⟩, hb, ?_⟩
    rintro n hn hn' ⟨b, rfl⟩
    exact ((h.inner hn hn').parent b).symm
  reaches i hi hw := h.reaches (Or.inl ⟨hi, hw⟩)

end Built

/-- **`hf_build_hufftree` is well-formed.**  With `k` used bytes whose weights sum up in
`size_t` it makes `k - 1` rounds, never leaves the table, and leaves one full binary
tree with the root `254 + k`. -/
theorem hfBuildHufftree_fullTree (w : ℕ → ℕ) (info : HuffInfo)
    (h2 : 2 ≤ (usedLeaves w).length) (ht : totalWeight w < sizeMod) :
    ∃ info₁ s info₂, (hfBuildSortList (setWeights w (huffInit info))).Ends (.ok info₁) ∧
      Comp.Iterates hfBuildHufftreeBody ((usedLeaves w).length - 1) (info₁, leafNum) s ∧
      (hfBuildHufftreeBody s).Ends (.ok (.inr s)) ∧
      (hfBuildHufftree info₁).Ends (.ok info₂) ∧
      info₂.root = 254 + (usedLeaves w).length ∧ info₂.root ≤ 510 ∧ FullTree w info₂ := by
  obtain ⟨l, hsort, hb⟩ := building_leafForest w info
  obtain ⟨info₂, z, hit, hstop, hend, hbuilt⟩ := hfBuildHufftree_ends hb h2
  have hroot := hbuilt.root_lt
  exact ⟨_, _, _, hsort, hit, hstop, hend, hbuilt.root_eq, Nat.le_of_lt_succ hroot,
    hbuilt.fullTree ht⟩

/-- The tree of four bytes. -/
theorem hfBuildHufftree_fullTree_four :
    ∃ info₁ s info₂, (hfBuildSortList (setWeights fourBytes
        (huffInit ⟨fun _ => .fresh, ⟨id, id⟩, 0, 0⟩))).Ends (.ok info₁) ∧
      Comp.Iterates hfBuildHufftreeBody
        ((usedLeaves fourBytes).length - 1) (info₁, leafNum) s ∧
      (hfBuildHufftreeBody s).Ends (.ok (.inr s)) ∧
      (hfBuildHufftree info₁).Ends (.ok info₂) ∧
      info₂.root = 254 + (usedLeaves fourBytes).length ∧
      info₂.root ≤ 510 ∧ FullTree fourBytes info₂ :=
  hfBuildHufftree_fullTree fourBytes _ two_le_fourBytes
    (totalWeight_fourBytes.trans_lt (by decide))

end Huffman

end DemoClass
