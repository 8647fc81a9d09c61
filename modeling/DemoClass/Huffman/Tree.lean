import DemoClass.Huffman.SortedList
import DemoClass.Lib.Greedy

/-!
# The code tree that `hf_build_hufftree` leaves

The invariant of the loop of `hf_build_hufftree`, `Building`, has two halves.  One is
about the table alone: every inner node made so far has two earlier children that
name it as their parent, and every used leaf and inner node is either still in the
list or a child of the inner node that it names.  The other one says that the nodes
in the list, with the trees below them, are the trees of the greedy construction
`Greedy.forest`, computed with the comparison and the addition of the code.

`hfBuildHufftree_ends` is the result: with at least two used bytes the loop makes one
round less than there are used bytes and leaves one tree, `Built`.
-/

namespace DemoClass

namespace Huffman

open ListSort

/-- `x` is a used leaf or an inner node below `n`. -/
def Live (w : ℕ → ℕ) (n x : ℕ) : Prop := (x < leafNum ∧ w x ≠ 0) ∨ (leafNum ≤ x ∧ x < n)

/-- The inner node `n` is linked to two different earlier nodes, in both directions, and
weighs as much as they do. -/
structure InnerNode (w : ℕ → ℕ) (table : ℕ → HuffNode) (n : ℕ) : Prop where
  distinct : (table n).tree.lchild ≠ (table n).tree.rchild
  live : ∀ b, Live w n ((table n).child b)
  weight : (table n).weight =
    weightSum (table (table n).tree.lchild).weight (table (table n).tree.rchild).weight
  noWrap : totalWeight w < sizeMod → (table ((table n).child false)).weight +
    (table ((table n).child true)).weight < sizeMod
  parent : ∀ b, (table ((table n).child b)).tree.parent = n

/-- The entry `x` of the table is the root of the tree `t`. -/
def TreeAt (table : ℕ → HuffNode) : CodeTree ℕ → ℕ → Prop
  | .leaf a, x => x = a ∧ x < leafNum
  | .node l r, x => leafNum ≤ x ∧ (table x).tree.lchild < x ∧ (table x).tree.rchild < x ∧
      TreeAt table l (table x).tree.lchild ∧ TreeAt table r (table x).tree.rchild

/-- The state of `hf_build_hufftree` between two rounds: `zs` are the indices in the
list, each with the tree that it is the root of. -/
structure Building (w : ℕ → ℕ) (info : HuffInfo) (index : ℕ) (zs : List (ℕ × Weighted ℕ)) :
    Prop where
  listed : Listed info (zs.map Prod.fst)
  le_index : leafNum ≤ index
  count : zs.length + index = (usedLeaves w).length + leafNum
  total : totalWeight w < sizeMod → (Greedy.weights (zs.map Prod.snd)).sum = totalWeight w
  live : ∀ z ∈ zs, Live w index z.1
  leaf : ∀ i < leafNum, (info.table i).weight = w i
  noCode : ∀ i < allNum, (info.table i).code = 0 ∧ (info.table i).codeLen = 0
  inner : ∀ n, leafNum ≤ n → n < index → InnerNode w info.table n
  placed : ∀ x, Live w index x → x ∈ zs.map Prod.fst ∨
    (leafNum ≤ (info.table x).tree.parent ∧ (info.table x).tree.parent < index ∧
      ∃ b, (info.table (info.table x).tree.parent).child b = x)
  notChild : ∀ z ∈ zs, ∀ n, leafNum ≤ n → n < index → ∀ b, (info.table n).child b ≠ z.1
  weight : ∀ z ∈ zs, (info.table z.1).weight = z.2.weight
  tree : ∀ z ∈ zs, TreeAt info.table z.2.tree z.1

variable {w : ℕ → ℕ} {info : HuffInfo} {index : ℕ} {zs : List (ℕ × Weighted ℕ)}

lemma Live.mono {m n x : ℕ} (h : Live w m x) (hmn : m ≤ n) : Live w n x := by
  rcases h with h | h
  · exact Or.inl h
  · exact Or.inr ⟨h.1, by omega⟩

lemma Live.lt {n x : ℕ} (h : Live w n x) (hn : leafNum ≤ n) : x < n := by
  rcases h with h | h
  · omega
  · exact h.2

/-- A tree depends only on the links of the entries up to its root. -/
lemma TreeAt.congr {table table' : ℕ → HuffNode} {t : CodeTree ℕ} {x : ℕ}
    (h : TreeAt table t x)
    (he : ∀ y ≤ x, leafNum ≤ y → ∀ b, (table' y).child b = (table y).child b) :
    TreeAt table' t x := by
  induction t generalizing x with
  | leaf a => exact h
  | node l r ihl ihr =>
      obtain ⟨hx, hl, hr, htl, htr⟩ := h
      have hel : (table' x).tree.lchild = (table x).tree.lchild := he x le_rfl hx false
      have her : (table' x).tree.rchild = (table x).tree.rchild := he x le_rfl hx true
      rw [TreeAt, hel, her]
      exact ⟨hx, hl, hr, ihl htl fun y hy => he y (hy.trans hl.le),
        ihr htr fun y hy => he y (hy.trans hr.le)⟩

/-! ### One round -/

/-- The table after the nodes `a` and `b` were made the children of the entry
`index`. -/
def merged (table : ℕ → HuffNode) (index a b : ℕ) (y : ℕ) : HuffNode where
  tree :=
    { parent := if y = a ∨ y = b then index else (table y).tree.parent
      lchild := if y = index then a else (table y).tree.lchild
      rchild := if y = index then b else (table y).tree.rchild }
  weight := if y = index then weightSum (table a).weight (table b).weight else (table y).weight
  code := (table y).code
  codeLen := (table y).codeLen

section Merged

variable {table : ℕ → HuffNode} {a b : ℕ}

lemma merged_child_self : ∀ d, (merged table index a b index).child d = bif d then b else a := by
  rintro (_ | _) <;> simp [merged, HuffNode.child]

lemma merged_child_of_ne {y : ℕ} (hy : y ≠ index) (d : Bool) :
    (merged table index a b y).child d = (table y).child d := by
  cases d <;> simp [merged, HuffNode.child, hy]

lemma merged_weight_self : (merged table index a b index).weight =
    weightSum (table a).weight (table b).weight := if_pos rfl

lemma merged_weight_of_ne {y : ℕ} (hy : y ≠ index) :
    (merged table index a b y).weight = (table y).weight := by
  simp [merged, hy]

lemma merged_parent_child (d : Bool) :
    (merged table index a b (bif d then b else a)).tree.parent = index := by
  cases d <;> simp [merged]

lemma merged_parent_of_ne {y : ℕ} (ha : y ≠ a) (hb : y ≠ b) :
    (merged table index a b y).tree.parent = (table y).tree.parent := by
  simp [merged, ha, hb]

end Merged

/-- The assignments of a round make the table `merged`. -/
lemma joinNodes_eq {a b : ℕ} (ha : a < allNum) (hb : b < allNum) (hi : index < allNum)
    (hab : a ≠ b) (hia : index ≠ a) (hib : index ≠ b) :
    joinNodes info index a b = pure { info with table := merged info.table index a b } := by
  simp only [joinNodes, ha, hb, hi, HuffInfo.entry_of_lt, HuffInfo.modify_of_lt, pure_bind]
  refine congrArg (fun f => (pure { info with table := f } : Comp Fault HuffInfo)) ?_
  ext y : 1
  by_cases hyb : y = b
  · subst hyb
    simp [merged, HuffNode.setParent, Ne.symm hib, Ne.symm hab]
  · by_cases hya : y = a
    · subst hya
      simp [merged, HuffNode.setParent, hab, Ne.symm hia]
    · by_cases hyi : y = index
      · subst hyi
        simp [merged, HuffNode.setWeight, HuffNode.setLchild, HuffNode.setRchild, hya, hyb]
      · simp [merged, hya, hyb, hyi]

/-- One round of `hf_build_hufftree` makes the first two nodes of the list the children
of the entry `index`, which takes their place in the list. -/
lemma hfBuildHufftreeBody_ends {a b : ℕ} {xs : List ℕ} (h : Listed info (a :: b :: xs))
    (hlt : ∀ x ∈ a :: b :: xs, x < allNum) (hi : index < allNum)
    (hfresh : index ∉ a :: b :: xs) :
    ∃ l, (hfBuildHufftreeBody (info, index)).Ends (.ok (.inl
        ({ info with table := merged info.table index a b, list := l }, index + 1))) ∧
      l.Ring .head ((insertFront (entryDiff { info with table := merged info.table index a b })
        index xs).map .node) := by
  have hr : info.list.Ring .head ([] ++ .node a :: (.node b :: xs.map .node)) := h
  have hab : a ≠ b := fun he => by simpa [he] using h.nodup
  have hia : index ≠ a := fun he => hfresh (by simp [he])
  have hib : index ≠ b := fun he => hfresh (by simp [he])
  have hfirst : info.list.next .head = .node a := hr.next_head
  have hsecond : info.list.next (.node a) = .node b := hr.next_mem
  have hjoin : joinNodes info index a b =
      pure { info with table := merged info.table index a b } :=
    joinNodes_eq (hlt a (by simp)) (hlt b (by simp)) hi hab hia hib
  have hr₁ : (info.list.listDelInit (.node a)).Ring .head ([] ++ .node b :: xs.map .node) :=
    hr.listDelInit
  have hr₂ : ((info.list.listDelInit (.node a)).listDelInit (.node b)).Ring .head
      (xs.map .node) := hr₁.listDelInit
  have hlisted : Listed { info with
      table := merged info.table index a b
      list := (info.list.listDelInit (.node a)).listDelInit (.node b) } xs := hr₂
  obtain ⟨l, hl, hring⟩ := listAddWithSort_ends hlisted (fun v hv => hlt v (by simp [hv])) hi
    fun hm => hfresh (by simp [hm])
  refine ⟨l, ?_, hring⟩
  have hmod : (index + 1) % shortMod = index + 1 :=
    Nat.mod_eq_of_lt (by simp only [shortMod, allNum, leafNum] at *; omega)
  simp only [hfBuildHufftreeBody, hfirst, hsecond, listEntry, pure_bind, reduceCtorEq, if_false,
    hjoin]
  exact Comp.Ends.bind hl (by simp [hmod])

namespace Building

variable {x y : ℕ × Weighted ℕ}

/-- The order of the list, on indices with their trees. -/
def order (p q : ℕ × Weighted ℕ) : ℤ := Greedy.cmp weightDiff p.2 q.2

/-- The node that joins `x` and `y`. -/
def joined (index : ℕ) (x y : ℕ × Weighted ℕ) : ℕ × Weighted ℕ :=
  (index, Greedy.join weightSum x.2 y.2)

lemma joined_fst (index : ℕ) (x y : ℕ × Weighted ℕ) : (joined index x y).1 = index := rfl

lemma joined_weight (index : ℕ) (x y : ℕ × Weighted ℕ) :
    (joined index x y).2.weight = weightSum x.2.weight y.2.weight := rfl

lemma index_lt (h : Building w info index (x :: y :: zs)) : index < allNum := by
  have h₁ := h.count
  have h₂ := length_usedLeaves_le w
  simp only [List.length_cons, allNum, leafNum] at *
  omega

lemma lt_index (h : Building w info index zs) {z : ℕ × Weighted ℕ} (hz : z ∈ zs) :
    z.1 < index := (h.live z hz).lt h.le_index

lemma index_notMem (h : Building w info index zs) : index ∉ zs.map Prod.fst := by
  intro hm
  obtain ⟨z, hz, he⟩ := List.mem_map.1 hm
  have := h.lt_index hz
  omega

/-! What a round does to the parts of the invariant; `x` and `y` are the first two nodes. -/

lemma mem_inserted {z : ℕ × Weighted ℕ} : z ∈ insertFront order (joined index x y) zs ↔
    z = joined index x y ∨ z ∈ zs := by
  rw [(insertFront_perm order (joined index x y) zs).mem_iff, List.mem_cons]

lemma fst_ne_fst (h : Building w info index (x :: y :: zs)) : x.1 ≠ y.1 := by
  have hnd : (x.1 :: y.1 :: zs.map Prod.fst).Nodup := h.listed.nodup
  intro he
  simp [he] at hnd

/-- The other nodes of the list are not the first two. -/
lemma ne_of_mem (h : Building w info index (x :: y :: zs)) {z : ℕ × Weighted ℕ} (hz : z ∈ zs) :
    z.1 ≠ x.1 ∧ z.1 ≠ y.1 := by
  have hnd : (x.1 :: y.1 :: zs.map Prod.fst).Nodup := h.listed.nodup
  have hm : z.1 ∈ zs.map Prod.fst := List.mem_map_of_mem hz
  constructor
  · intro he
    exact (List.nodup_cons.1 hnd).1 (by simp [← he, hm])
  · intro he
    exact (List.nodup_cons.1 (List.nodup_cons.1 hnd).2).1 (he ▸ hm)

/-- The weights of the list add up to the total. -/
lemma weights_eq (h : Building w info index (x :: y :: zs)) (ht : totalWeight w < sizeMod) :
    x.2.weight + y.2.weight + (Greedy.weights (zs.map Prod.snd)).sum = totalWeight w := by
  rw [← h.total ht]
  simp [Greedy.weights, Nat.add_assoc]

lemma merged_total (h : Building w info index (x :: y :: zs)) (ht : totalWeight w < sizeMod) :
    (Greedy.weights ((insertFront order (joined index x y) zs).map Prod.snd)).sum =
      totalWeight w := by
  have hwrap := h.weights_eq ht
  have hsum : weightSum x.2.weight y.2.weight = x.2.weight + y.2.weight :=
    Nat.mod_eq_of_lt (by omega)
  have hperm := insertFront_perm order (joined index x y) zs
  rw [← hwrap, ← hsum, Greedy.weights, ((hperm.map Prod.snd).map Weighted.weight).sum_eq]
  rfl

lemma merged_live (h : Building w info index (x :: y :: zs)) :
    ∀ z ∈ insertFront order (joined index x y) zs, Live w (index + 1) z.1 := by
  intro z hz
  rcases mem_inserted.1 hz with rfl | hz
  · exact Or.inr ⟨h.le_index, Nat.lt_succ_self _⟩
  · exact (h.live z (by simp [hz])).mono (Nat.le_succ _)

/-- The new inner node has the first two nodes as its children. -/
lemma merged_inner_self (h : Building w info index (x :: y :: zs)) :
    InnerNode w (merged info.table index x.1 y.1) index := by
  have hx : x.1 < index := h.lt_index (by simp)
  have hy : y.1 < index := h.lt_index (by simp)
  refine ⟨by simpa [merged] using h.fst_ne_fst, ?_, ?_, ?_, ?_⟩
  · intro d
    rw [merged_child_self]
    cases d
    · exact h.live x (by simp)
    · exact h.live y (by simp)
  · simp [merged, hx.ne, hy.ne]
  · intro ht
    have hwrap := h.weights_eq ht
    rw [merged_child_self, merged_child_self, cond_false, cond_true, merged_weight_of_ne hx.ne,
      merged_weight_of_ne hy.ne, h.weight x (by simp), h.weight y (by simp)]
    omega
  · intro d
    rw [merged_child_self]
    exact merged_parent_child d

/-- The inner nodes made before are left as they are. -/
lemma merged_inner_of_lt (h : Building w info index (x :: y :: zs)) {n : ℕ} (hn : leafNum ≤ n)
    (hlt : n < index) : InnerNode w (merged info.table index x.1 y.1) n := by
  have hold := h.inner n hn hlt
  have hni : n ≠ index := hlt.ne
  have hchild : ∀ d, (merged info.table index x.1 y.1 n).child d = (info.table n).child d :=
    merged_child_of_ne hni
  -- the children are older than the node, so the new one is not among them
  have hclt : ∀ d, (info.table n).child d < n := fun d => (hold.live d).lt hn
  have hcw : ∀ d, (merged info.table index x.1 y.1 ((info.table n).child d)).weight =
      (info.table ((info.table n).child d)).weight := fun d =>
    merged_weight_of_ne ((hclt d).trans hlt).ne
  refine ⟨?_, ?_, ?_, ?_, ?_⟩
  · show (merged info.table index x.1 y.1 n).child false ≠
      (merged info.table index x.1 y.1 n).child true
    rw [hchild, hchild]
    exact hold.distinct
  · intro d
    rw [hchild]
    exact hold.live d
  · show (merged info.table index x.1 y.1 n).weight = weightSum
      (merged info.table index x.1 y.1 ((merged info.table index x.1 y.1 n).child false)).weight
      (merged info.table index x.1 y.1 ((merged info.table index x.1 y.1 n).child true)).weight
    rw [hchild, hchild, hcw, hcw, merged_weight_of_ne hni]
    exact hold.weight
  · intro ht
    rw [hchild, hchild, hcw, hcw]
    exact hold.noWrap ht
  · intro d
    rw [hchild]
    refine (merged_parent_of_ne ?_ ?_).trans (hold.parent d)
    · exact h.notChild x (by simp) n hn hlt d
    · exact h.notChild y (by simp) n hn hlt d

/-- The first two nodes are now children of the new one, which takes their place in the
list. -/
lemma merged_placed (h : Building w info index (x :: y :: zs)) {v : ℕ}
    (hv : Live w (index + 1) v) :
    v ∈ (insertFront order (joined index x y) zs).map Prod.fst ∨
      (leafNum ≤ (merged info.table index x.1 y.1 v).tree.parent ∧
        (merged info.table index x.1 y.1 v).tree.parent < index + 1 ∧
        ∃ d, (merged info.table index x.1 y.1
          (merged info.table index x.1 y.1 v).tree.parent).child d = v) := by
  by_cases hvx : ∃ d, v = bif d then y.1 else x.1
  · obtain ⟨d, rfl⟩ := hvx
    refine Or.inr ?_
    rw [merged_parent_child]
    exact ⟨h.le_index, Nat.lt_succ_self _, d, merged_child_self d⟩
  · have hvx' : v ≠ x.1 := fun he => hvx ⟨false, he⟩
    have hvy' : v ≠ y.1 := fun he => hvx ⟨true, he⟩
    by_cases hvi : v = index
    · exact Or.inl (List.mem_map.2 ⟨joined index x y, mem_inserted.2 (Or.inl rfl), hvi.symm⟩)
    · have hv' : Live w index v := by
        rcases hv with hv | hv
        · exact Or.inl hv
        · exact Or.inr ⟨hv.1, by omega⟩
      rcases h.placed v hv' with hm | ⟨hp, hp', d, hd⟩
      · obtain ⟨z, hzm, rfl⟩ := List.mem_map.1 hm
        have hzm' : z ∈ zs := by
          rcases List.mem_cons.1 hzm with rfl | hzm
          · exact absurd rfl hvx'
          · rcases List.mem_cons.1 hzm with rfl | hzm
            · exact absurd rfl hvy'
            · exact hzm
        exact Or.inl (List.mem_map.2 ⟨z, mem_inserted.2 (Or.inr hzm'), rfl⟩)
      · refine Or.inr ?_
        rw [merged_parent_of_ne hvx' hvy']
        exact ⟨hp, hp'.trans (Nat.lt_succ_self _), d, (merged_child_of_ne hp'.ne d).trans hd⟩

/-- A node of the list is still no child. -/
lemma merged_notChild (h : Building w info index (x :: y :: zs)) {z : ℕ × Weighted ℕ}
    (hz : z ∈ insertFront order (joined index x y) zs) {n : ℕ} (hn : leafNum ≤ n)
    (hn' : n < index + 1) (d : Bool) :
    (merged info.table index x.1 y.1 n).child d ≠ z.1 := by
  by_cases hni : n = index
  · subst hni
    rw [merged_child_self]
    rcases mem_inserted.1 hz with rfl | hz
    · cases d
      · exact (h.lt_index (z := x) (by simp)).ne
      · exact (h.lt_index (z := y) (by simp)).ne
    · cases d
      · exact (h.ne_of_mem hz).1.symm
      · exact (h.ne_of_mem hz).2.symm
  · have hlt : n < index := by omega
    rw [merged_child_of_ne hni]
    rcases mem_inserted.1 hz with rfl | hz
    · have hclt := ((h.inner n hn hlt).live d).lt hn
      rw [joined_fst]
      omega
    · exact h.notChild z (by simp [hz]) n hn hlt d

lemma merged_weight (h : Building w info index (x :: y :: zs)) {z : ℕ × Weighted ℕ}
    (hz : z ∈ insertFront order (joined index x y) zs) :
    (merged info.table index x.1 y.1 z.1).weight = z.2.weight := by
  rcases mem_inserted.1 hz with rfl | hz
  · rw [joined_fst, merged_weight_self, h.weight x (by simp), h.weight y (by simp), joined_weight]
  · have hlt : z.1 < index := h.lt_index (by simp [hz])
    exact (merged_weight_of_ne hlt.ne).trans (h.weight z (by simp [hz]))

/-- The new tree is made of the first two, and the others are as they were. -/
lemma merged_tree (h : Building w info index (x :: y :: zs)) {z : ℕ × Weighted ℕ}
    (hz : z ∈ insertFront order (joined index x y) zs) :
    TreeAt (merged info.table index x.1 y.1) z.2.tree z.1 := by
  have hframe : ∀ v < index, ∀ u ≤ v, leafNum ≤ u → ∀ d,
      (merged info.table index x.1 y.1 u).child d = (info.table u).child d :=
    fun v hv u hu _ d => merged_child_of_ne (by omega) d
  have hold : ∀ {v}, v ∈ x :: y :: zs → TreeAt (merged info.table index x.1 y.1) v.2.tree v.1 :=
    fun hv => (h.tree _ hv).congr (hframe _ (h.lt_index hv))
  rcases mem_inserted.1 hz with rfl | hz
  · have hl : (merged info.table index x.1 y.1 index).tree.lchild = x.1 := merged_child_self false
    have hr : (merged info.table index x.1 y.1 index).tree.rchild = y.1 := merged_child_self true
    simp only [joined, Greedy.join, TreeAt, hl, hr]
    exact ⟨h.le_index, h.lt_index (by simp), h.lt_index (by simp), hold (by simp), hold (by simp)⟩
  · exact hold (by simp [hz])

/-- The table after a round keeps the invariant; `l` is the new list. -/
lemma merge (h : Building w info index (x :: y :: zs)) {l : Links ListPtr}
    (hl : l.Ring .head (((insertFront order (joined index x y) zs).map Prod.fst).map .node)) :
    Building w { info with table := merged info.table index x.1 y.1, list := l } (index + 1)
      (insertFront order (joined index x y) zs) where
  listed := hl
  le_index := h.le_index.trans (Nat.le_succ _)
  count := by
    have hlen := (insertFront_perm order (joined index x y) zs).length_eq
    have hcount := h.count
    simp only [List.length_cons] at hlen hcount
    omega
  total := h.merged_total
  live := h.merged_live
  leaf := by
    intro i hi
    have hne : i ≠ index := (hi.trans_le h.le_index).ne
    exact (merged_weight_of_ne hne).trans (h.leaf i hi)
  noCode := h.noCode
  inner := by
    intro n hn hn'
    by_cases hni : n = index
    · subst hni
      exact h.merged_inner_self
    · exact h.merged_inner_of_lt hn (by omega)
  placed := fun v hv => h.merged_placed hv
  notChild := fun z hz n hn hn' d => h.merged_notChild hz hn hn' d
  weight := fun z hz => h.merged_weight hz
  tree := fun z hz => h.merged_tree hz

/-- One round of the loop keeps the invariant. -/
lemma round (h : Building w info index (x :: y :: zs)) :
    ∃ info', (hfBuildHufftreeBody (info, index)).Ends (.ok (.inl (info', index + 1))) ∧
      Building w info' (index + 1) (insertFront order (joined index x y) zs) := by
  have hlisted : Listed info (x.1 :: y.1 :: zs.map Prod.fst) := h.listed
  have hfresh : index ∉ x.1 :: y.1 :: zs.map Prod.fst := h.index_notMem
  have hlt : ∀ v ∈ x.1 :: y.1 :: zs.map Prod.fst, v < allNum := by
    intro v hv
    obtain ⟨z, hz, rfl⟩ : ∃ z ∈ x :: y :: zs, z.1 = v := List.mem_map.1 hv
    exact (h.lt_index hz).trans h.index_lt
  obtain ⟨l, hl, hring⟩ := hfBuildHufftreeBody_ends hlisted hlt h.index_lt hfresh
  have hi : (merged info.table index x.1 y.1 index).weight = (joined index x y).2.weight :=
    h.merged_weight (mem_inserted.2 (Or.inl rfl))
  have hmap : (insertFront order (joined index x y) zs).map Prod.fst = insertFront
      (entryDiff { info with table := merged info.table index x.1 y.1 }) index
      (zs.map Prod.fst) := by
    refine insertFront_map_congr (f := Prod.fst) (x := joined index x y) fun z hz => ?_
    have hz' : (merged info.table index x.1 y.1 z.1).weight = z.2.weight :=
      h.merged_weight (mem_inserted.2 (Or.inr hz))
    rw [entryDiff_table, joined_fst, hi, hz', order, Greedy.cmp]
  refine ⟨_, hl, h.merge ?_⟩
  rw [hmap]
  exact hring

/-- The rounds of the loop are the steps of the greedy construction. -/
lemma rounds {n : ℕ} : ∀ {info : HuffInfo} {index : ℕ} {zs : List (ℕ × Weighted ℕ)},
    Building w info index zs → zs.length = n + 1 →
    ∃ info' z, Comp.Iterates hfBuildHufftreeBody n (info, index) (info', index + n) ∧
      Building w info' (index + n) [z] ∧
      Greedy.forest weightDiff weightSum n (zs.map Prod.snd) = [z.2] := by
  induction n with
  | zero =>
      intro info index zs h hlen
      obtain ⟨z, rfl⟩ := List.length_eq_one_iff.1 hlen
      exact ⟨info, z, Comp.Iterates.refl _, h, rfl⟩
  | succ n ih =>
      intro info index zs h hlen
      match zs, hlen with
      | x :: y :: zs, hlen =>
          obtain ⟨info₁, hbody, h₁⟩ := h.round
          have hlen₁ : (insertFront order (joined index x y) zs).length = n + 1 := by
            rw [(insertFront_perm _ _ _).length_eq]
            simpa using hlen
          obtain ⟨info', z, hit, h', hf⟩ := ih h₁ hlen₁
          have hindex : index + 1 + n = index + (n + 1) := by omega
          rw [hindex] at hit h'
          refine ⟨info', z, Comp.Iterates.step hbody hit, h', ?_⟩
          rw [← hf, Greedy.forest_succ]
          congr 1
          exact (insertFront_map Prod.snd (Greedy.cmp weightDiff) (joined index x y) zs).symm

/-- With at most one node left the loop ends. -/
lemma body_stop (h : Building w info index zs) (hlen : zs.length ≤ 1) :
    (hfBuildHufftreeBody (info, index)).Ends (.ok (.inr (info, index))) := by
  match zs, hlen with
  | [], _ =>
      have hr : info.list.Ring .head [] := h.listed
      have hfirst : info.list.next .head = .head := hr.next_head
      simp [hfBuildHufftreeBody, hfirst]
  | [z], _ =>
      have hr : info.list.Ring .head ([] ++ .node z.1 :: []) := h.listed
      have hfirst : info.list.next .head = .node z.1 := hr.next_head
      have hsecond : info.list.next (.node z.1) = .head := hr.next_mem
      simp [hfBuildHufftreeBody, hfirst, hsecond]

/-- The last node of the list is the one that was made last. -/
lemma last_eq {z : ℕ × Weighted ℕ} (h : Building w info (index + 1) [z]) (hi : leafNum ≤ index) :
    z.1 = index := by
  rcases h.placed index (Or.inr ⟨hi, Nat.lt_succ_self _⟩) with hm | ⟨hp, hp', d, hd⟩
  · simpa using (List.mem_singleton.1 hm).symm
  · have := ((h.inner _ hp hp').live d).lt hp
    omega

end Building

/-! ### The whole construction -/

/-- The used leaves as one-node trees, in the order of the sorted list. -/
def leafForest (w : ℕ → ℕ) : List (ℕ × Weighted ℕ) :=
  (sortedLeaves w).map fun i => (i, ⟨w i, .leaf i⟩)

/-- What `hf_build_hufftree` leaves: the tables with one code tree, whose root is
`info->root`. -/
structure Built (w : ℕ → ℕ) (info : HuffInfo) (z : Weighted ℕ) : Prop where
  building : Building w info (info.root + 1) [(info.root, z)]
  root_eq : info.root = 254 + (usedLeaves w).length
  two_le : 2 ≤ (usedLeaves w).length
  forest : Greedy.forest weightDiff weightSum ((usedLeaves w).length - 1)
    ((leafForest w).map Prod.snd) = [z]

lemma length_leafForest (w : ℕ → ℕ) : (leafForest w).length = (usedLeaves w).length := by
  rw [leafForest, List.length_map, (sortedLeaves_perm w).length_eq]

/-- `hf_build_sort_list` establishes the invariant. -/
lemma building_leafForest (w : ℕ → ℕ) (info : HuffInfo) :
    ∃ l, (hfBuildSortList (setWeights w (huffInit info))).Ends
        (.ok { setWeights w (huffInit info) with list := l }) ∧
      Building w { setWeights w (huffInit info) with list := l } leafNum (leafForest w) := by
  have hempty : Listed (setWeights w (huffInit info)) [] := ring_huffInit info
  have hw : ∀ i < leafNum, ((setWeights w (huffInit info)).table i).weight = w i := by
    intro i hi
    rw [setWeights_table_of_lt hi]
  obtain ⟨l, hl, hring⟩ := hfBuildSortList_ends hempty hw
  have hfst : (leafForest w).map Prod.fst = sortedLeaves w := by
    simp [leafForest, Function.comp_def]
  have hmem : ∀ z ∈ leafForest w, ∃ i, i < leafNum ∧ w i ≠ 0 ∧ z = (i, ⟨w i, .leaf i⟩) := by
    intro z hz
    obtain ⟨i, hi, rfl⟩ := List.mem_map.1 hz
    have hi' := mem_usedLeaves.1 ((sortedLeaves_perm w).mem_iff.1 hi)
    exact ⟨i, hi'.1, hi'.2, rfl⟩
  -- no inner node has been made yet
  refine ⟨l, hl, ?_, le_rfl, ?_, ?_, ?_, hw, ?_, ?_, ?_, ?_, ?_, ?_⟩
  · rw [Listed, hfst]
    exact hring
  · rw [length_leafForest]
  · intro _
    have hp := ((sortedLeaves_perm w).map w).sum_eq
    simpa [Greedy.weights, leafForest, totalWeight, Function.comp_def] using hp
  · intro z hz
    obtain ⟨i, hi, hwi, rfl⟩ := hmem z hz
    exact Or.inl ⟨hi, hwi⟩
  · intro i hi
    by_cases hl : i < leafNum
    · simp only [setWeights_table_of_lt hl, huffInit_table hi]
      exact ⟨rfl, rfl⟩
    · simp only [setWeights_table_of_le (not_lt.1 hl), huffInit_table hi]
      exact ⟨rfl, rfl⟩
  · intro n hn hn'
    omega
  · intro x hx
    rcases hx with hx | hx
    · rw [hfst, (sortedLeaves_perm w).mem_iff, mem_usedLeaves]
      exact Or.inl hx
    · omega
  · intro z _ n hn hn'
    omega
  · intro z hz
    obtain ⟨i, hi, -, rfl⟩ := hmem z hz
    exact hw i hi
  · intro z hz
    obtain ⟨i, hi, -, rfl⟩ := hmem z hz
    exact ⟨rfl, hi⟩

/-- **`hf_build_hufftree` builds one tree.**  With at least two used bytes its loop makes
one round less than there are used bytes. -/
lemma hfBuildHufftree_ends {info₁ : HuffInfo} (h : Building w info₁ leafNum (leafForest w))
    (h2 : 2 ≤ (usedLeaves w).length) :
    ∃ info₂ z, Comp.Iterates hfBuildHufftreeBody ((usedLeaves w).length - 1) (info₁, leafNum)
        (info₂, 255 + (usedLeaves w).length) ∧
      (hfBuildHufftreeBody (info₂, 255 + (usedLeaves w).length)).Ends
        (.ok (.inr (info₂, 255 + (usedLeaves w).length))) ∧
      (hfBuildHufftree info₁).Ends
        (.ok { info₂ with root := 254 + (usedLeaves w).length }) ∧
      Built w { info₂ with root := 254 + (usedLeaves w).length } z := by
  have hlen : (leafForest w).length = (usedLeaves w).length - 1 + 1 := by
    rw [length_leafForest]
    omega
  obtain ⟨info₂, z, hit, hb, hf⟩ := h.rounds hlen
  have hindex : leafNum + ((usedLeaves w).length - 1) = 254 + (usedLeaves w).length + 1 := by
    simp only [leafNum]
    omega
  rw [hindex] at hit hb
  -- the root is the entry that was made last
  have hz : z = (254 + (usedLeaves w).length, z.2) := by
    have := hb.last_eq (by simp only [leafNum]; omega)
    rw [← this]
  have he : 255 + (usedLeaves w).length = 254 + (usedLeaves w).length + 1 := by omega
  rw [he]
  have hstop := hb.body_stop le_rfl
  refine ⟨info₂, z.2, hit, hstop, ?_, ?_, rfl, h2, hf⟩
  · have hne : 254 + (usedLeaves w).length + 1 ≠ 256 := by omega
    refine Comp.Ends.bind (hit.ends (Comp.Ends.loop_inr hstop)) ?_
    simp [hne]
  · rw [hz] at hb
    exact { hb with listed := hb.listed }

end Huffman

end DemoClass
