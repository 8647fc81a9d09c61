import DemoClass.Huffman.Build
import Mathlib.Algebra.BigOperators.Group.List.Basic

/-!
# The list of the nodes that are not merged yet

What the list functions of `huff.c` do to the sequence of table indices in the list
of `info->head`: counting the bytes does not touch it, `hf_build_sort_list` leaves
the used leaves sorted by weight, and `list_add_with_sort` inserts a node before the
first one that is not lighter.
-/

namespace DemoClass

namespace Huffman

open ListSort KernelList

/-- The list of `info` holds the table entries `xs`, in this order. -/
def Listed (info : HuffInfo) (xs : List ℕ) : Prop := info.list.Ring .head (xs.map .node)

/-- The order in which `list_node_cmp` sees two table entries. -/
def entryDiff (info : HuffInfo) (i j : ℕ) : ℤ :=
  weightDiff (info.table i).weight (info.table j).weight

variable {info : HuffInfo} {xs : List ℕ} {x : ℕ}

lemma entryDiff_table (table : ℕ → HuffNode) (i j : ℕ) :
    entryDiff { info with table := table } i j =
      weightDiff (table i).weight (table j).weight := rfl

/-- Only the lower 32 bits of the difference count. -/
lemma weightDiff_eq_bmod (a b : ℕ) : weightDiff a b = ((a : ℤ) - b).bmod (2 ^ 32) := by
  have hS : sizeMod = 18446744073709551616 := by simp [sizeMod]
  have h32 : (2 : ℕ) ^ 32 = 4294967296 := by simp
  have hmod : (((a + (sizeMod - b % sizeMod)) % sizeMod : ℕ) : ℤ) % ((2 ^ 32 : ℕ) : ℤ) =
      ((a : ℤ) - b) % ((2 ^ 32 : ℕ) : ℤ) := by
    rw [hS, h32]
    omega
  unfold weightDiff
  generalize (2 ^ 32 : ℕ) = m at hmod ⊢
  rw [← Int.emod_bmod, hmod, Int.emod_bmod]

lemma Listed.nodup (h : Listed info xs) : xs.Nodup :=
  (List.nodup_cons.1 (Links.Ring.nodup h)).2.of_map _

lemma notMem_ring (hx : x ∉ xs) : ListPtr.node x ∉ ListPtr.head :: xs.map .node := by
  simpa using hx

lemma listNodeCmp_node {i j : ℕ} (hi : i < allNum) (hj : j < allNum) :
    listNodeCmp info (.node i) (.node j) = pure (entryDiff info i j) := by
  simp [listNodeCmp, listEntry, hi, hj, entryDiff]

/-! ### Weights -/

/-- Give the leaves the weights `w`. -/
def setWeights (w : ℕ → ℕ) (info : HuffInfo) : HuffInfo :=
  { info with
    table := fun i => if i < leafNum then { info.table i with weight := w i } else info.table i }

/-- How often the byte `i` occurs. -/
def byteCount (file : List UInt8) (i : ℕ) : ℕ := file.countP fun b => b.toNat = i

lemma setWeights_table_of_lt {w : ℕ → ℕ} {i : ℕ} (hi : i < leafNum) :
    (setWeights w info).table i = { info.table i with weight := w i } := if_pos hi

lemma setWeights_table_of_le {w : ℕ → ℕ} {i : ℕ} (hi : leafNum ≤ i) :
    (setWeights w info).table i = info.table i := if_neg (by omega)

lemma byteCount_le_length (file : List UInt8) (i : ℕ) : byteCount file i ≤ file.length :=
  List.countP_le_length

/-- `hf_statistic_weight` counts the bytes. -/
lemma hfStatisticWeight_eq (info : HuffInfo) (file done : List UInt8)
    (hlen : (done ++ file).length < sizeMod) :
    hfStatisticWeight (setWeights (byteCount done) info) file =
      pure (setWeights (byteCount (done ++ file)) info) := by
  induction file generalizing done with
  | nil => simp [hfStatisticWeight]
  | cons b file ih =>
      have hb : b.toNat < leafNum := b.toNat_lt
      have hb' : b.toNat < allNum := hb.trans (by decide)
      have hstep : (setWeights (byteCount done) info).write b.toNat
          (fun n => { n with weight := (n.weight + 1) % sizeMod }) =
          setWeights (byteCount (done ++ [b])) info := by
        have hcount : (byteCount done b.toNat + 1) % sizeMod = byteCount (done ++ [b]) b.toNat := by
          have hle := byteCount_le_length done b.toNat
          have hlt : byteCount done b.toNat + 1 < sizeMod := by
            simp only [List.length_append, List.length_cons] at hlen
            omega
          rw [Nat.mod_eq_of_lt hlt]
          simp [byteCount]
        refine congrArg (fun f => { info with table := f }) ?_
        ext i : 1
        by_cases hi : i = b.toNat
        · subst hi
          simp only [Function.update_self, setWeights, hb, if_true, hcount]
        · have hsame : byteCount (done ++ [b]) i = byteCount done i := by
            simp [byteCount, Ne.symm hi]
          simp only [Function.update_of_ne hi, setWeights, hsame]
      have hih := ih (done ++ [b]) (by simpa using hlen)
      rw [List.append_assoc, List.singleton_append, hfStatisticWeight] at hih
      rw [hfStatisticWeight, List.foldlM_cons, HuffInfo.modify_of_lt hb', hstep]
      exact hih

/-! ### `hf_build_sort_list` -/

/-- The bytes with a weight. -/
def usedLeaves (w : ℕ → ℕ) : List ℕ := (List.range leafNum).filter fun i => w i ≠ 0

lemma mem_usedLeaves {w : ℕ → ℕ} {i : ℕ} : i ∈ usedLeaves w ↔ i < leafNum ∧ w i ≠ 0 := by
  simp [usedLeaves]

/-- The sum of the weights of the used leaves. -/
def totalWeight (w : ℕ → ℕ) : ℕ := ((usedLeaves w).map w).sum

/-- Four bytes, of which the first two weigh as much as the third. -/
def fourBytes (i : ℕ) : ℕ := [1, 1, 2, 3].getD i 0

lemma two_le_fourBytes : 2 ≤ (usedLeaves fourBytes).length := by decide

lemma totalWeight_fourBytes : totalWeight fourBytes = 7 := by decide

lemma nodup_usedLeaves (w : ℕ → ℕ) : (usedLeaves w).Nodup := List.nodup_range.filter _

lemma length_usedLeaves_le (w : ℕ → ℕ) : (usedLeaves w).length ≤ leafNum := by
  simpa [usedLeaves] using List.length_filter_le (fun i => decide (w i ≠ 0)) (List.range leafNum)

/-- The loop of `hf_build_sort_list` appends the used leaves of `ys`. -/
lemma foldlM_listAddTail (ys : List ℕ) : ∀ (info : HuffInfo) (xs : List ℕ),
    (∀ y ∈ ys, y < allNum) → (xs ++ ys).Nodup → Listed info xs →
    ∃ l, (ys.foldlM (fun info i => do
      if (← info.entry i).weight ≠ 0 then
        pure { info with list := info.list.listAddTail .head (.node i) }
      else
        pure info) info : Comp Fault HuffInfo) = pure { info with list := l } ∧
      l.Ring .head ((xs ++ ys.filter fun i => (info.table i).weight ≠ 0).map .node) := by
  induction ys with
  | nil => exact fun info xs _ _ h => ⟨info.list, rfl, by simpa [Listed] using h⟩
  | cons y ys ih =>
      intro info xs hlt hnd h
      have hy : y < allNum := hlt y (by simp)
      have hys : ∀ z ∈ ys, z < allNum := fun z hz => hlt z (by simp [hz])
      rw [List.foldlM_cons, HuffInfo.entry_of_lt hy, pure_bind]
      by_cases hw : (info.table y).weight = 0
      · have hnd' : (xs ++ ys).Nodup :=
          hnd.sublist (List.Sublist.append_left (List.sublist_cons_self y ys) xs)
        obtain ⟨l, hl, hring⟩ := ih info xs hys hnd' h
        refine ⟨l, ?_, ?_⟩
        · simpa [hw] using hl
        · simpa [hw] using hring
      · have hyx : y ∉ xs := fun hmem =>
          (List.nodup_append.1 hnd).2.2 y hmem y (by simp) rfl
        have h' : Listed { info with list := info.list.listAddTail .head (.node y) }
            (xs ++ [y]) := by
          simpa [Listed] using Links.Ring.listAddTail h (notMem_ring hyx)
        obtain ⟨l, hl, hring⟩ := ih _ (xs ++ [y]) hys (by simpa using hnd) h'
        refine ⟨l, ?_, ?_⟩
        · simpa [hw] using hl
        · simpa [hw] using hring

/-- The sorted list of the used leaves. -/
def sortedLeaves (w : ℕ → ℕ) : List ℕ :=
  insertionSort (fun i j => weightDiff (w i) (w j)) (usedLeaves w)

lemma sortedLeaves_perm (w : ℕ → ℕ) : (sortedLeaves w).Perm (usedLeaves w) :=
  insertionSort_perm _ _

/-- An insertion sort on table entries is one on their pointers. -/
lemma insertSort_nodes {c : ℕ → ℕ → ℤ} (h : Listed info xs) (hlt : ∀ x ∈ xs, x < allNum)
    (hc : ∀ x ∈ xs, ∀ y ∈ xs, entryDiff info x y = c x y) :
    ∃ l, (insertSort (listNodeCmp info) .head info.list).Ends (.ok l) ∧
      l.Ring .head ((insertionSort c xs).map .node) := by
  let cp : ListPtr → ListPtr → ℤ := fun a b =>
    match a, b with
    | .node i, .node j => c i j
    | _, _ => 0
  have hcmp : ∀ a ∈ xs.map ListPtr.node, ∀ b ∈ xs.map ListPtr.node,
      listNodeCmp info a b = pure (cp a b) := by
    intro a ha b hb
    obtain ⟨i, hi, rfl⟩ := List.mem_map.1 ha
    obtain ⟨j, hj, rfl⟩ := List.mem_map.1 hb
    rw [listNodeCmp_node (hlt i hi) (hlt j hj), hc i hi j hj]
  obtain ⟨l, hl, hring⟩ := insertSort_ends h hcmp
  exact ⟨l, hl, by rwa [← insertionSort_map ListPtr.node cp] at hring⟩

/-- `hf_build_sort_list` leaves the list of the used leaves, sorted by weight. -/
lemma hfBuildSortList_ends {w : ℕ → ℕ} (h : Listed info [])
    (hw : ∀ i < leafNum, (info.table i).weight = w i) :
    ∃ l, (hfBuildSortList info).Ends (.ok { info with list := l }) ∧
      l.Ring .head ((sortedLeaves w).map .node) := by
  have hlt : ∀ i ∈ List.range leafNum, i < allNum := fun i hi =>
    (List.mem_range.1 hi).trans (by decide)
  obtain ⟨l₁, hl₁, hr₁⟩ := foldlM_listAddTail (List.range leafNum) info [] hlt
    (by simpa using List.nodup_range) h
  have hused : (List.range leafNum).filter (fun i => decide ((info.table i).weight ≠ 0)) =
      usedLeaves w := by
    refine List.filter_congr fun i hi => ?_
    rw [hw i (List.mem_range.1 hi)]
  rw [hused, List.nil_append] at hr₁
  have hmem : ∀ i ∈ usedLeaves w, i < leafNum := fun i hi => (mem_usedLeaves.1 hi).1
  have hlisted : Listed { info with list := l₁ } (usedLeaves w) := hr₁
  have hdiff : ∀ i ∈ usedLeaves w, ∀ j ∈ usedLeaves w,
      entryDiff { info with list := l₁ } i j = weightDiff (w i) (w j) := by
    intro i hi j hj
    rw [entryDiff, hw i (hmem i hi), hw j (hmem j hj)]
  obtain ⟨l, hl, hring⟩ := insertSort_nodes hlisted (fun i hi => (hmem i hi).trans (by decide))
    hdiff
  refine ⟨l, ?_, hring⟩
  rw [hfBuildSortList, hl₁, pure_bind]
  exact Comp.Ends.bind hl (by simp)

/-! ### `list_add_with_sort` -/

/-- The loop of `list_add_with_sort` stops at the first node that is not lighter. -/
lemma listAddWithSortLoop_ends {vs : List ℕ} (hx : x < allNum) : ∀ us : List ℕ,
    Listed info (us ++ vs) → (∀ v ∈ vs, v < allNum) →
    (Comp.loop (listAddWithSortBody info (.node x)) ((vs.map ListPtr.node).headD .head)).Ends
      (.ok (((vs.dropWhile fun v => 0 < entryDiff info x v).map ListPtr.node).headD .head)) := by
  induction vs with
  | nil =>
      intro us _ _
      refine Comp.Ends.loop_inr ?_
      simp [listAddWithSortBody]
  | cons v vs ih =>
      intro us h hlt
      have hcmp : listNodeCmp info (.node x) (.node v) = pure (entryDiff info x v) :=
        listNodeCmp_node hx (hlt v (by simp))
      by_cases hpos : 0 < entryDiff info x v
      · have hnext : info.list.next (.node v) = (vs.map ListPtr.node).headD .head := by
          have h' : info.list.Ring .head (us.map .node ++ .node v :: vs.map .node) := by
            simpa [Listed] using h
          exact h'.next_mem
        have hih := ih (us ++ [v]) (by simpa using h) fun u hu => hlt u (by simp [hu])
        rw [List.dropWhile_cons_of_pos (by simpa using hpos)]
        refine Comp.Ends.loop_inl ?_ hih
        simp [listAddWithSortBody, hcmp, hpos, hnext]
      · rw [List.dropWhile_cons_of_neg (by simpa using hpos)]
        refine Comp.Ends.loop_inr ?_
        simp [listAddWithSortBody, hcmp, hpos]

/-- `list_add_with_sort` inserts a node before the first one that is not lighter. -/
lemma listAddWithSort_ends (h : Listed info xs) (hlt : ∀ v ∈ xs, v < allNum) (hx : x < allNum)
    (hfresh : x ∉ xs) :
    ∃ l, (listAddWithSort info (.node x)).Ends (.ok { info with list := l }) ∧
      l.Ring .head ((insertFront (entryDiff info) x xs).map .node) := by
  have hloop := listAddWithSortLoop_ends hx [] h hlt
  have hstart : info.list.next .head = (xs.map ListPtr.node).headD .head := h.next_head
  rw [← hstart] at hloop
  have hr : info.list.Ring .head
      ((xs.takeWhile fun v => 0 < entryDiff info x v).map .node ++
        (xs.dropWhile fun v => 0 < entryDiff info x v).map .node) := by
    rw [← List.map_append, List.takeWhile_append_dropWhile]
    exact h
  have hins := hr.splice_before (x := .node x) (by
    rw [← List.map_append, List.takeWhile_append_dropWhile]
    exact notMem_ring hfresh)
  refine ⟨_, Comp.Ends.bind hloop (Comp.ends_pure.2 rfl), ?_⟩
  simpa [insertFront, Links._listAdd_eq] using hins

end Huffman

end DemoClass
