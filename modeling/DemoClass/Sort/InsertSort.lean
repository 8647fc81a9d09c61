import DemoClass.Sort.Insertion

/-!
# Insertion sort of an array (`insert_sort` of `sort_arrary.c`)

The indices are of type `int`, and `-1` is where the shifting ends when every element
before the one in `buf` is greater.  They are compared with `nmemb` as `size_t`, but are
not negative there.
-/

namespace DemoClass

open ListSort

namespace SortArrary

variable {α : Type}

/-- One round of the inner loop of `insert_sort`, on the array and `j`. -/
def insertShiftBody (cmp : α → α → ℤ) (buf : α) (s : Shift α) :
    Comp Fault (Shift α ⊕ Shift α) :=
  if 0 ≤ s.k then do
    let x ← load s.a (toSize s.k)
    if cmp x buf > 0 then
      let k₁ ← intAdd s.k 1
      let a ← store s.a (toSize k₁) x
      let k ← intSub s.k 1
      pure (.inl ⟨a, k⟩)
    else pure (.inr s)
  else pure (.inr s)

/-- One round of the outer loop of `insert_sort`, on the array and `i`. -/
def insertSortBody (cmp : α → α → ℤ) (nmemb : ℕ) (s : Pass α) :
    Comp Fault (Pass α ⊕ List α) :=
  if toSize s.j < nmemb then do
    let k ← intSub s.j 1
    let x ← load s.a (toSize s.j)
    let y ← load s.a (toSize k)
    if cmp x y ≥ 0 then
      let j ← intAdd s.j 1
      pure (.inl ⟨s.a, j⟩)
    else
      let t ← Comp.loop (insertShiftBody cmp x) ⟨s.a, k⟩
      let k₁ ← intAdd t.k 1
      let a ← store t.a (toSize k₁) x
      let j ← intAdd s.j 1
      pure (.inl ⟨a, j⟩)
  else pure (.inr s.a)

/-- `insert_sort` -/
def insertSort (cmp : α → α → ℤ) (base : List α) : Comp Fault (List α) :=
  Comp.loop (insertSortBody cmp base.length) ⟨base, 1⟩

variable {cmp : α → α → ℤ} {p : ℕ} {x : α} {xs : List α}

/-- The inner loop moves greater elements up by one place. -/
lemma insertShiftBody_shifts (hp : p < 2 ^ 31) : Shifts cmp 1 0 p x (insertShiftBody cmp x) := by
  refine ⟨fun a hole y hlo hhi hlt hy hcmp => ?_, fun a hole y hlo hhi hlt hy hcmp => ?_,
    fun a hole hlo hhi => ?_⟩
  · have hk : ((hole : ℤ) - (1 : ℕ)) = ((hole - 1 : ℕ) : ℤ) := by omega
    have hup : (intAdd ((hole - 1 : ℕ) : ℤ) 1).Ends (.ok (hole : ℤ)) :=
      intAdd_ends (by omega) (by omega) (by omega)
    have hdown : (intSub ((hole - 1 : ℕ) : ℤ) 1).Ends (.ok (((hole - 1 : ℕ) : ℤ) - (1 : ℕ))) :=
      intSub_ends (by omega) (by omega) (by omega)
    rw [hk, insertShiftBody, if_pos (Int.natCast_nonneg _), toSize_of_lt (by omega)]
    refine (load_ends hy).bind ?_
    rw [if_pos hcmp]
    refine hup.bind ?_
    rw [toSize_of_lt (by omega)]
    exact (store_ends hlt y).bind (hdown.bind (by simp))
  · have hk : ((hole : ℤ) - (1 : ℕ)) = ((hole - 1 : ℕ) : ℤ) := by omega
    rw [hk, insertShiftBody, if_pos (Int.natCast_nonneg _), toSize_of_lt (by omega)]
    refine (load_ends hy).bind ?_
    rw [if_neg hcmp]
    simp
  · rw [insertShiftBody, if_neg (show ¬ 0 ≤ (hole : ℤ) - (1 : ℕ) by omega)]
    simp

/-- The outer loop inserts the element at `i`. -/
lemma insertSortBody_passes (hc : TotalPreorderOn cmp Set.univ) {nmemb : ℕ}
    (hn : nmemb < 2 ^ 31) : Passes cmp 1 0 nmemb (insertSortBody cmp nmemb) := by
  refine ⟨fun a p hlen hlo hhi => ?_, fun a p hlo hhi => ?_⟩
  · obtain ⟨x, hx⟩ := exists_getElem?_eq (show p < a.length by omega)
    obtain ⟨y, hy⟩ := exists_getElem?_eq (show p - 1 < a.length by omega)
    have hgo : toSize p < nmemb := by rwa [toSize_of_lt (by omega)]
    have hprev : (intSub p 1).Ends (.ok ((p - 1 : ℕ) : ℤ)) :=
      intSub_ends (by omega) (by omega) (by omega)
    have hsucc : (intAdd p 1).Ends (.ok ((p + 1 : ℕ) : ℤ)) :=
      intAdd_ends (by omega) (by omega) (by omega)
    rw [insertSortBody, if_pos hgo]
    dsimp only
    by_cases hcmp : 0 ≤ cmp x y
    · refine ⟨a, hprev.bind ?_, Inserted.refl hc hx hy hcmp⟩
      rw [toSize_of_lt (by omega), toSize_of_lt (by omega)]
      refine (load_ends hx).bind ((load_ends hy).bind ?_)
      rw [if_pos hcmp]
      exact hsucc.bind (by simp)
    · have hshift : Shifts cmp 1 0 p x (insertShiftBody cmp x) :=
        insertShiftBody_shifts (by omega)
      obtain ⟨a', hole, hend, hle, hlt, hins⟩ :=
        hshift.ends (by omega) (by omega) hx (Held.start hx) (by omega)
      refine ⟨a'.set hole x, hprev.bind ?_, hins⟩
      rw [toSize_of_lt (by omega), toSize_of_lt (by omega)]
      refine (load_ends hx).bind ((load_ends hy).bind ?_)
      rw [if_neg hcmp, show ((p - 1 : ℕ) : ℤ) = (p : ℤ) - (1 : ℕ) by omega]
      refine hend.bind ?_
      refine (intAdd_ends (m := (hole : ℤ)) (by simp) (by omega) (by omega)).bind ?_
      rw [toSize_of_lt (by omega)]
      exact (store_ends (show hole < a'.length by omega) x).bind (hsucc.bind (by simp))
  · have hend : ¬ toSize p < nmemb := by
      rw [toSize_of_lt (by omega)]
      omega
    rw [insertSortBody, if_neg hend]
    simp

/-- `insert_sort` ends without an access outside the array and without an overflow, and
leaves its elements in nondecreasing order, those that compare equal in the order they
had. -/
theorem insertSort_stable (hn : xs.length ≤ 2 ^ 31 - 1) (hc : TotalPreorderOn cmp Set.univ) :
    ∃ ys, (insertSort cmp xs).Ends (.ok ys) ∧ IsStableSort cmp xs ys := by
  obtain ⟨ys, hend, -, hs⟩ :=
    (insertSortBody_passes hc (show xs.length < 2 ^ 31 by omega)).ends hc Nat.one_pos
  exact ⟨ys, hend, hs rfl rfl⟩

/-- Pairs of a key and a value, by the key. -/
theorem insertSort_stable_pairs :
    ∃ ys, (insertSort (fun p q : ℤ × Bool => p.1 - q.1) [(2, true), (1, true), (2, false)]).Ends
        (.ok ys) ∧
      IsStableSort (fun p q => p.1 - q.1) [(2, true), (1, true), (2, false)] ys :=
  insertSort_stable (by decide) ⟨fun a _ b _ => by omega, fun a _ b _ d _ h₁ h₂ => by omega⟩

end SortArrary

end DemoClass
