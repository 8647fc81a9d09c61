import DemoClass.Btree.Find
import DemoClass.KernelList.SortList
import DemoClass.Sort.QuickSort
import Mathlib.Algebra.Order.Ring.Int

/-!
# Comparisons by subtraction (`cmp_age`, `cmp_list`, `bnode_cmp`)

The three comparison functions subtract one `int` from another.  An overflow has no defined
result; the machine wraps around, and the sign is then the wrong one (`intDiff_neg`).
`comparatorsRight_iff`: the comparisons are right, and so are the sorts and the tree that use
them, exactly when any two of the keys differ by less than 2^31.
-/

namespace DemoClass

open ListSort

namespace Comparators

variable {ι : Type}

/-- The difference of two fields of type `int`, wrapped around where it overflows. -/
def intDiff (key : ι → Int32) (a b : ι) : ℤ := (key a - key b).toInt

/-- `cmp_age` -/
def cmpAge (age : ι → Int32) (pa pb : ι) : ℤ := intDiff age pa pb

/-- `bnode_cmp` -/
def bnodeCmp (data : ι → Int32) (pa pb : ι) : ℤ := intDiff data pa pb

/-- `list_entry` of the head of the list, which is in no `data_info`. -/
inductive EntryFault where
  | head
deriving DecidableEq, Repr

/-- `cmp_list`, on the nodes and the head `none`. -/
def cmpList (data : ι → Int32) : Option ι → Option ι → Comp EntryFault ℤ
  | some pa, some pb => pure (intDiff data pa pb)
  | _, _ => Comp.fault .head

/-! ### What is asked of the comparisons -/

/-- The subtraction of the two keys does not overflow, and the sign of its value `n` is their
order. -/
structure Compares (x y : Int32) (n : ℤ) : Prop where
  exact : (SortArrary.intSub x.toInt y.toInt).Ends (.ok n)
  neg_iff : n < 0 ↔ x < y
  pos_iff : 0 < n ↔ y < x

/-- `quick_sort` with `cmp_age` sorts every array by the ages. -/
def SortsArrays (age : ι → Int32) : Prop :=
  ∀ zero xs, ∃ ys, (SortArrary.quickSort (cmpAge age) zero xs).Ends (.ok ys) ∧ ys.Perm xs ∧
    ys.Pairwise fun a b => age a ≤ age b

variable [DecidableEq ι]

/-- `insert_sort` with `cmp_list` sorts every list by the data. -/
def SortsLists (data : ι → Int32) : Prop :=
  ∀ (l : Links (Option ι)) (xs : List ι), l.Ring none (xs.map some) →
    ∃ (l' : Links (Option ι)) (ys : List ι),
      (KernelList.insertSort (cmpList data) none l).Ends (.ok l') ∧ l'.Ring none (ys.map some) ∧
      ys.Perm xs ∧ ys.Pairwise fun a b => data a ≤ data b

/-- After every run, `btree_find` with `bnode_cmp` returns a node with the data that it is
given, if there is one in the tree, and `NULL` otherwise. -/
def FindsKeys (data : ι → Int32) : Prop :=
  ∀ (node : ι → TreeLinks ι) (ops : List (Btree.Op ι)), Btree.AllAllowed ∅ ops →
    ∃ info, (Btree.run (Btree.btreeInit node (bnodeCmp data)) ops).Ends (.ok info) ∧
      ∀ key, ∃ found, (Btree.btreeFind info key).Ends (.ok found) ∧
        (∀ x ∈ found, x ∈ Btree.nodesOf ops ∧ data x = data key) ∧
        (found = none → ∀ x ∈ Btree.nodesOf ops, data x ≠ data key)

/-- The comparisons of any two keys are right and total preorders, and what is built on them
works. -/
structure ComparatorsRight (key : ι → Int32) : Prop where
  age : ∀ a b, Compares (key a) (key b) (cmpAge key a b)
  list : ∀ a b, ∃ n, (cmpList key (some a) (some b)).Ends (.ok n) ∧ Compares (key a) (key b) n
  bnode : ∀ a b, Compares (key a) (key b) (bnodeCmp key a b)
  preorder : TotalPreorderOn (intDiff key) Set.univ
  sortsArrays : SortsArrays key
  sortsLists : SortsLists key
  findsKeys : FindsKeys key

/-- Any two keys differ by less than 2^31. -/
def Close (key : ι → Int32) : Prop := ∀ a b, (key a).toInt - (key b).toInt < 2 ^ 31

variable {key : ι → Int32} {a b : ι}

/-! ### The difference -/

omit [DecidableEq ι] in
lemma intDiff_eq (h : Close key) (a b : ι) :
    intDiff key a b = (key a).toInt - (key b).toInt := by
  have hab := h a b
  have hba := h b a
  rw [intDiff, Int32.toInt_sub, Int.bmod_def]
  split_ifs <;> omega

omit [DecidableEq ι] in
/-- A difference that is too large wraps around to a negative number. -/
lemma intDiff_neg (h : 2 ^ 31 ≤ (key a).toInt - (key b).toInt) : intDiff key a b < 0 := by
  have ha := (key a).toInt_lt
  have hb := (key b).le_toInt
  rw [intDiff, Int32.toInt_sub, Int.bmod_def]
  split_ifs <;> omega

omit [DecidableEq ι] in
lemma compares_of_close (h : Close key) (a b : ι) : Compares (key a) (key b) (intDiff key a b) := by
  have hab := h a b
  have hba := h b a
  rw [intDiff_eq h]
  refine ⟨SortArrary.intSub_ends rfl (by omega) hab, ?_, ?_⟩
  · rw [Int32.lt_iff_toInt_lt]
    omega
  · rw [Int32.lt_iff_toInt_lt]
    omega

omit [DecidableEq ι] in
lemma totalPreorderOn_of_close (h : Close key) : TotalPreorderOn (intDiff key) Set.univ := by
  refine ⟨fun a _ b _ => ?_, fun a _ b _ d _ hab hbd => ?_⟩
  · rw [intDiff_eq h, intDiff_eq h]
    omega
  · rw [intDiff_eq h] at hab hbd ⊢
    omega

omit [DecidableEq ι] in
lemma le_of_intDiff (h : Close key) (hle : intDiff key a b ≤ 0) : key a ≤ key b := by
  rw [intDiff_eq h] at hle
  rw [Int32.le_iff_toInt_le]
  omega

omit [DecidableEq ι] in
lemma eq_of_intDiff (h : Close key) : intDiff key a b = 0 ↔ key b = key a := by
  rw [intDiff_eq h, ← Int32.toInt_inj]
  omega

/-! ### Keys that are close -/

omit [DecidableEq ι] in
lemma sortsArrays_of_close (h : Close key) : SortsArrays key := by
  intro zero xs
  have hn : 0 + xs.length ≤ xs.length := by omega
  obtain ⟨ys, buf, hcall, hs, ho⟩ := SortArrary._quickSort_ends (q := ⟨xs, zero, 0, xs.length⟩) hn
    ((totalPreorderOn_of_close h).mono (Set.subset_univ _))
  obtain ⟨hends, hperm, hord⟩ := SortArrary.quickSort_of_call hcall hs ho
  exact ⟨ys, hends, hperm, hord.imp fun hle => le_of_intDiff h hle⟩

/-- Whatever the keys are, `insert_sort` leaves the sort of the sequence. -/
lemma insertSort_cmpList_ends (key : ι → Int32) {l : Links (Option ι)} {xs : List ι}
    (hr : l.Ring none (xs.map some)) :
    ∃ l', (KernelList.insertSort (cmpList key) none l).Ends (.ok l') ∧
      l'.Ring none ((insertionSort (intDiff key) xs).map some) := by
  have hcmp : ∀ a ∈ xs.map some, ∀ b ∈ xs.map some, cmpList key a b =
      pure (intDiff (fun o : Option ι => o.elim 0 key) a b) := by
    intro a ha b hb
    obtain ⟨a, -, rfl⟩ := List.mem_map.1 ha
    obtain ⟨b, -, rfl⟩ := List.mem_map.1 hb
    rfl
  obtain ⟨l', hends, hring⟩ := KernelList.insertSort_ends hr hcmp
  refine ⟨l', hends, ?_⟩
  rwa [← insertionSort_map] at hring

lemma sortsLists_of_close (h : Close key) : SortsLists key := by
  intro l xs hr
  obtain ⟨l', hends, hring⟩ := insertSort_cmpList_ends key hr
  have hord : Ordered (intDiff key) (insertionSort (intDiff key) xs) :=
    insertionSort_ordered (totalPreorderOn_of_close h) fun a _ => Set.mem_univ a
  exact ⟨l', _, hends, hring, insertionSort_perm _ xs, hord.imp fun hle => le_of_intDiff h hle⟩

lemma findsKeys_of_close (h : Close key) : FindsKeys key := by
  intro node ops hops
  obtain ⟨info, hends, hfind⟩ := Btree.run_find_ends (totalPreorderOn_of_close h) node hops
  refine ⟨info, hends, fun k => ?_⟩
  obtain ⟨found, hfound, hsome, hnone⟩ := hfind k
  exact ⟨found, hfound, fun x hx => (hsome x hx).imp_right (eq_of_intDiff h).1,
    fun hnil x hx he => hnone hnil x hx ((eq_of_intDiff h).2 he)⟩

/-! ### Keys that are not -/

omit [DecidableEq ι] in
lemma exists_of_not_close (h : ¬ Close key) :
    ∃ a b, intDiff key a b < 0 ∧ key b < key a ∧ a ≠ b := by
  simp only [Close, not_forall, not_lt] at h
  obtain ⟨a, b, hle⟩ := h
  refine ⟨a, b, intDiff_neg hle, ?_, ?_⟩
  · rw [Int32.lt_iff_toInt_lt]
    omega
  · rintro rfl
    omega

omit [DecidableEq ι] in
lemma close_of_sortsArrays (h : SortsArrays key) : Close key := by
  by_contra hfar
  obtain ⟨a, b, hneg, hlt, -⟩ := exists_of_not_close hfar
  obtain ⟨ys, hends, -, hord⟩ := h a [b, a]
  obtain rfl : ys = [a, b] := by simpa using hends.unique (SortArrary.quickSort_pair a hneg)
  exact absurd hlt (Int32.not_lt.2 (by simpa using hord))

omit [DecidableEq ι] in
/-- The second node is not moved before one that compares less. -/
lemma insertionSort_pair (hneg : intDiff key a b < 0) :
    insertionSort (intDiff key) [a, b] = [a, b] := by
  have hback : insertBack (intDiff key) b [a] = [a, b] := by
    simp [insertBack, List.rdropWhile, List.rtakeWhile, hneg.le]
  show (if 0 ≤ intDiff key b a then [a] ++ [b] else insertBack (intDiff key) b [a]) = [a, b]
  split
  · rfl
  · exact hback

/-- There is a list of any two nodes. -/
lemma exists_ring_pair (hab : a ≠ b) : ∃ l : Links (Option ι), l.Ring none ([a, b].map some) := by
  have hnil : (⟨fun _ => none, fun _ => none⟩ : Links (Option ι)).Ring none [] :=
    ⟨by simp, by simp [Links.Adj]⟩
  have hone := hnil.listAddTail (show some a ∉ [none] by simp)
  exact ⟨_, hone.listAddTail (show some b ∉ [none, some a] by simpa using hab.symm)⟩

lemma close_of_sortsLists (h : SortsLists key) : Close key := by
  by_contra hfar
  obtain ⟨a, b, hneg, hlt, hab⟩ := exists_of_not_close hfar
  obtain ⟨l, hr⟩ := exists_ring_pair hab
  obtain ⟨l', ys, hends, hring, -, hord⟩ := h l [a, b] hr
  obtain ⟨l₁, hends₁, hring₁⟩ := insertSort_cmpList_ends key hr
  rw [insertionSort_pair hneg] at hring₁
  obtain rfl : l' = l₁ := by simpa using hends.unique hends₁
  obtain rfl : ys = [a, b] := (Option.some_injective ι).list_map (hring.unique hring₁)
  exact absurd hlt (Int32.not_lt.2 (by simpa using hord))

/-- **When the comparisons are right.**  They return the order of the two keys without an
overflow, are total preorders, and sort and find by them, exactly when any two of the keys differ
by less than 2^31.  Otherwise `quick_sort` and `insert_sort` both leave two elements in the wrong
order. -/
theorem comparatorsRight_iff (key : ι → Int32) :
    (ComparatorsRight key ↔ ∀ a b, (key a).toInt - (key b).toInt < 2 ^ 31) ∧
      (SortsArrays key ↔ ∀ a b, (key a).toInt - (key b).toInt < 2 ^ 31) ∧
      (SortsLists key ↔ ∀ a b, (key a).toInt - (key b).toInt < 2 ^ 31) := by
  refine ⟨⟨fun h => close_of_sortsArrays h.sortsArrays, fun h => ?_⟩,
    ⟨close_of_sortsArrays, sortsArrays_of_close⟩, ⟨close_of_sortsLists, sortsLists_of_close⟩⟩
  have hcmp := compares_of_close h
  exact ⟨hcmp, fun a b => ⟨_, Comp.ends_pure.2 rfl, hcmp a b⟩, hcmp, totalPreorderOn_of_close h,
    sortsArrays_of_close h, sortsLists_of_close h, findsKeys_of_close h⟩

/-- The greatest `int` compares less than the least one. -/
theorem not_comparatorsRight_extremes :
    cmpAge (fun b => bif b then Int32.maxValue else Int32.minValue) true false = -1 ∧
      ¬ ComparatorsRight fun b => bif b then Int32.maxValue else Int32.minValue := by
  have hneg : cmpAge (fun b => bif b then Int32.maxValue else Int32.minValue) true false = -1 := by
    decide
  refine ⟨hneg, fun h => ?_⟩
  have hlt := (h.age true false).neg_iff.1 (by rw [hneg]; decide)
  exact absurd hlt (by decide)

end Comparators

end DemoClass
