import DemoClass.Sort.InsertSort
import DemoClass.Sort.MergeSort

/-!
# Ties in `merge_sort` (`sort_arrary.c`)

The merge of `__merge_sort` takes the element of the second part where two compare equal, at
every level of the recursion.  So elements that compare equal leave `merge_sort` in the reverse of
the order they came in (`mergeSort_filter`), where `insert_sort` keeps it, and the two sorts agree
exactly when that order reads the same from both ends (`mergeSort_stable_iff`).
-/

namespace DemoClass

open ListSort

namespace SortArrary

variable {α : Type} {cmp : α → α → ℤ} {xs : List α}

lemma filter_mergeHalves (hc : TotalPreorderOn cmp Set.univ) (xs : List α) (z : α) :
    (mergeHalves cmp xs).filter (fun x => cmp z x = 0) =
      (xs.filter fun x => cmp z x = 0).reverse := by
  fun_induction mergeHalves cmp xs with
  | case1 xs hle =>
      rcases xs with _ | ⟨x, _ | ⟨y, xs⟩⟩
      · rfl
      · rw [List.filter_cons]
        split <;> rfl
      · simp at hle
  | case2 xs hle ihl ihr =>
      have hl := mergeHalves_ordered hc fun x (_ : x ∈ xs.take (xs.length / 2)) => trivial
      have hr := mergeHalves_ordered hc fun x (_ : x ∈ xs.drop (xs.length / 2)) => trivial
      rw [merge_filter hc hl hr, ihl, ihr, ← List.reverse_append, ← List.filter_append,
        List.take_append_drop]

/-- `merge_sort` reverses the order of the elements that compare equal. -/
lemma mergeSort_filter (hc : TotalPreorderOn cmp Set.univ) (zero : α) (xs : List α) :
    ∃ ys, (mergeSort cmp zero xs).Ends (.ok ys) ∧
      ∀ z, ys.filter (fun x => cmp z x = 0) = (xs.filter fun x => cmp z x = 0).reverse :=
  ⟨_, mergeSort_ends_mergeHalves cmp zero xs, filter_mergeHalves hc xs⟩

/-- `merge_sort` keeps the order of elements that compare equal, and leaves in the array what
`insert_sort` leaves there, whose indices are of type `int`. -/
def MergesStably (cmp : α → α → ℤ) (zero : α) (xs : List α) : Prop :=
  ∃ ys, (mergeSort cmp zero xs).Ends (.ok ys) ∧ IsStableSort cmp xs ys ∧
    (xs.length ≤ 2 ^ 31 - 1 → (insertSort cmp xs).Ends (.ok ys))

lemma mergeHalves_isStableSort (hc : TotalPreorderOn cmp Set.univ)
    (h : ∀ z ∈ xs, (xs.filter fun x => cmp z x = 0).reverse = xs.filter fun x => cmp z x = 0) :
    IsStableSort cmp xs (mergeHalves cmp xs) := by
  refine ⟨mergeHalves_perm cmp xs, mergeHalves_ordered hc fun _ _ => trivial, fun z => ?_⟩
  rw [filter_mergeHalves hc]
  cases hz : xs.filter fun x => cmp z x = 0 with
  | nil => rfl
  | cons y ys =>
      -- `z` itself need not be in the array, but it compares equal to what is
      obtain ⟨hy, hzy⟩ : y ∈ xs ∧ cmp z y = 0 := by
        have hmem : y ∈ xs.filter fun x => cmp z x = 0 := hz ▸ List.mem_cons_self
        simpa using hmem
      have hsame : (xs.filter fun x => cmp z x = 0) = xs.filter fun x => cmp y x = 0 := by
        refine List.filter_congr fun x _ => ?_
        have hiff : cmp z x = 0 ↔ cmp y x = 0 :=
          ⟨hc.eq_zero_trans (hc.eq_zero_comm.1 hzy), hc.eq_zero_trans hzy⟩
        simp [hiff]
      rw [← hz, hsame, h y hy]

/-- `merge_sort` is stable, and agrees with `insert_sort`, on an array where the elements that
compare equal to any of them read the same from both ends, and on no other. -/
theorem mergeSort_stable_iff (hc : TotalPreorderOn cmp Set.univ) (zero : α) (xs : List α) :
    MergesStably cmp zero xs ↔
      ∀ z ∈ xs, (xs.filter fun x => cmp z x = 0).reverse = xs.filter fun x => cmp z x = 0 := by
  constructor
  · rintro ⟨ys, hys, hst, -⟩ z -
    obtain ⟨zs, hzs, hrev⟩ := mergeSort_filter hc zero xs
    obtain rfl : ys = zs := by simpa using hys.unique hzs
    rw [← hrev z, hst.stable z]
  · intro h
    have hst := mergeHalves_isStableSort hc h
    refine ⟨_, mergeSort_ends_mergeHalves cmp zero xs, hst, fun hn => ?_⟩
    obtain ⟨ys, hys, -, hst'⟩ :=
      (insertSortBody_passes hc (show xs.length < 2 ^ 31 by omega)).ends hc Nat.one_pos
    rwa [hst.unique hc (hst' rfl rfl)]

/-- Pairs of a key and a value, by the key, with two that are equal as pairs. -/
theorem mergeSort_stable_iff_twice :
    MergesStably (fun p q : ℤ × Bool => p.1 - q.1) (0, false) [(7, true), (3, true), (7, true)] ↔
      ∀ z ∈ [((7 : ℤ), true), (3, true), (7, true)],
        ([(7, true), (3, true), (7, true)].filter fun x => z.1 - x.1 = 0).reverse =
          [(7, true), (3, true), (7, true)].filter fun x => z.1 - x.1 = 0 :=
  mergeSort_stable_iff ⟨fun a _ b _ => by omega, fun a _ b _ d _ h₁ h₂ => by omega⟩ _ _

/-- Two records with the key 7: `merge_sort` swaps them. -/
theorem not_mergesStably_ties :
    ¬ MergesStably (fun p q : ℤ × Bool => p.1 - q.1) (0, false) [(7, true), (7, false)] := by
  rintro ⟨ys, hys, hst, -⟩
  have hc : TotalPreorderOn (fun p q : ℤ × Bool => p.1 - q.1) Set.univ :=
    ⟨fun a _ b _ => by omega, fun a _ b _ d _ h₁ h₂ => by omega⟩
  obtain ⟨zs, hzs, hrev⟩ := mergeSort_filter hc (0, false) [(7, true), (7, false)]
  obtain rfl : ys = zs := by simpa using hys.unique hzs
  have hkeep := hst.stable (7, true)
  rw [hrev] at hkeep
  revert hkeep
  decide

end SortArrary

end DemoClass
