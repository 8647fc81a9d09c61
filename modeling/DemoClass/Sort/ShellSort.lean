import DemoClass.Sort.Insertion

/-!
# Shell sort (`shell_sort` of `sort_arrary.c`)

The steps are of type `size_t` and the indices of type `int`, so that `k -= step[i]` wraps
when it goes below zero and is negative again when it is compared with `offset`; the final
store, at `k + step[i]`, wraps back.  Each pass permutes the array, and the last one, in
steps of one, is the insertion sort that puts it in order.
-/

namespace DemoClass

open ListSort

namespace SortArrary

variable {α : Type}

/-- One round of the loop over `k` of `shell_sort`. -/
def shellShiftBody (cmp : α → α → ℤ) (step : ℕ) (offset : ℤ) (buf : α) (s : Shift α) :
    Comp Fault (Shift α ⊕ Shift α) :=
  if offset ≤ s.k then do
    let x ← load s.a (toSize s.k)
    if cmp x buf > 0 then
      let a ← store s.a (sizeAdd (toSize s.k) step) x
      pure (.inl ⟨a, toInt (sizeSub (toSize s.k) step)⟩)
    else pure (.inr s)
  else pure (.inr s)

/-- One round of the loop over `j` of `shell_sort`. -/
def shellInsertBody (cmp : α → α → ℤ) (nmemb step : ℕ) (offset : ℤ) (s : Pass α) :
    Comp Fault (Pass α ⊕ List α) :=
  if toSize s.j < nmemb then do
    let k := toInt (sizeSub (toSize s.j) step)
    let x ← load s.a (toSize s.j)
    let y ← load s.a (toSize k)
    if cmp x y ≥ 0 then pure (.inl ⟨s.a, toInt (sizeAdd (toSize s.j) step)⟩)
    else
      let t ← Comp.loop (shellShiftBody cmp step offset x) ⟨s.a, k⟩
      let a ← store t.a (sizeAdd (toSize t.k) step) x
      pure (.inl ⟨a, toInt (sizeAdd (toSize s.j) step)⟩)
  else pure (.inr s.a)

/-- One round of the loop over `offset` of `shell_sort`. -/
def shellOffsetBody (cmp : α → α → ℤ) (nmemb step : ℕ) (s : List α × ℤ) :
    Comp Fault ((List α × ℤ) ⊕ List α) :=
  if toSize s.2 < step then do
    let a ← Comp.loop (shellInsertBody cmp nmemb step s.2)
      ⟨s.1, toInt (sizeAdd (toSize s.2) step)⟩
    let offset ← intAdd s.2 1
    pure (.inl (a, offset))
  else pure (.inr s.1)

/-- The steps of `shell_sort`. -/
def shellSteps : List ℕ := [3, 2, 1]

/-- `shell_sort` -/
def shellSort (cmp : α → α → ℤ) (base : List α) : Comp Fault (List α) :=
  shellSteps.foldlM (fun a step => Comp.loop (shellOffsetBody cmp base.length step) (a, 0)) base

variable {cmp : α → α → ℤ} {step offset p nmemb : ℕ} {x : α} {a xs : List α}

lemma sizeAdd_of_lt {m n : ℕ} (h : m + n < 2 ^ 64) : sizeAdd m n = m + n := Nat.mod_eq_of_lt h

/-- The loop over `k` moves greater elements up by one step, and stops below `offset`. -/
lemma shellShiftBody_shifts (hp : p < 2 ^ 31) (hstep : step < 2 ^ 31) :
    Shifts cmp step offset p x (shellShiftBody cmp step offset x) := by
  refine ⟨fun a hole y hlo hhi hlt hy hcmp => ?_, fun a hole y hlo hhi hlt hy hcmp => ?_,
    fun a hole hlo hhi => ?_⟩
  · have hk : ((hole : ℤ) - step) = ((hole - step : ℕ) : ℤ) := by omega
    have hgo : (offset : ℤ) ≤ ((hole - step : ℕ) : ℤ) := by omega
    have hup : sizeAdd (hole - step) step = hole := by rw [sizeAdd_of_lt] <;> omega
    rw [hk, shellShiftBody, if_pos hgo]
    dsimp only
    rw [toSize_of_lt (by omega), hup, toInt_sizeSub (by omega) hstep]
    refine (load_ends hy).bind ?_
    rw [if_pos hcmp]
    exact (store_ends hlt y).bind (by simp)
  · have hk : ((hole : ℤ) - step) = ((hole - step : ℕ) : ℤ) := by omega
    have hgo : (offset : ℤ) ≤ ((hole - step : ℕ) : ℤ) := by omega
    rw [hk, shellShiftBody, if_pos hgo]
    dsimp only
    rw [toSize_of_lt (by omega)]
    refine (load_ends hy).bind ?_
    rw [if_neg hcmp]
    simp
  · have hend : ¬ (offset : ℤ) ≤ (hole : ℤ) - step := by omega
    rw [shellShiftBody, if_neg hend]
    simp

/-- The loop over `j` inserts the element at `j` among those a multiple of `step` before. -/
lemma shellInsertBody_passes (hc : TotalPreorderOn cmp Set.univ) (hn : nmemb ≤ 2 ^ 31 - 4)
    (hpos : 0 < step) (hstep : step ≤ 3) (hoff : offset < step) :
    Passes cmp step offset nmemb (shellInsertBody cmp nmemb step offset) := by
  refine ⟨fun a p hlen hlo hhi => ?_, fun a p hlo hhi => ?_⟩
  · obtain ⟨x, hx⟩ := exists_getElem?_eq (show p < a.length by omega)
    obtain ⟨y, hy⟩ := exists_getElem?_eq (show p - step < a.length by omega)
    have hgo : toSize p < nmemb := by rwa [toSize_of_lt (by omega)]
    have hk : toInt (sizeSub p step) = ((p - step : ℕ) : ℤ) := by
      rw [toInt_sizeSub (by omega) (by omega)]
      omega
    have hsucc : toInt (sizeAdd p step) = ((p + step : ℕ) : ℤ) := by
      rw [sizeAdd_of_lt (by omega), toInt_of_lt (by omega)]
    rw [shellInsertBody, if_pos hgo]
    dsimp only
    rw [toSize_of_lt (by omega), hk, hsucc, toSize_of_lt (by omega)]
    by_cases hcmp : 0 ≤ cmp x y
    · refine ⟨a, ?_, Inserted.refl hc hx hy hcmp⟩
      refine (load_ends hx).bind ((load_ends hy).bind ?_)
      rw [if_pos hcmp]
      simp
    · have hshift : Shifts cmp step offset p x (shellShiftBody cmp step offset x) :=
        shellShiftBody_shifts (by omega) (by omega)
      obtain ⟨a', hole, hend, hle, hlt, hins⟩ :=
        hshift.ends hpos hoff hx (Held.start hx) (by omega)
      have hback : sizeAdd (toSize ((hole : ℤ) - step)) step = hole :=
        sizeAdd_toSize_sub (by omega)
      refine ⟨a'.set hole x, ?_, hins⟩
      refine (load_ends hx).bind ((load_ends hy).bind ?_)
      rw [if_neg hcmp, show ((p - step : ℕ) : ℤ) = (p : ℤ) - step by omega]
      refine hend.bind ?_
      dsimp only
      rw [hback]
      exact (store_ends (show hole < a'.length by omega) x).bind (by simp)
  · have hend : ¬ toSize p < nmemb := by
      rw [toSize_of_lt (by omega)]
      omega
    rw [shellInsertBody, if_neg hend]
    simp

/-- The passes of one step permute the array.  In steps of one there is one pass only, and
it puts the array in order. -/
lemma shellOffset_ends (hc : TotalPreorderOn cmp Set.univ) (hn : xs.length ≤ 2 ^ 31 - 4)
    (hpos : 0 < step) (hstep : step ≤ 3) (hperm : a.Perm xs) (hoff : offset ≤ step)
    (ho : step = 1 → offset = 1 → Ordered cmp a) :
    ∃ ys, (Comp.loop (shellOffsetBody cmp xs.length step) (a, (offset : ℤ))).Ends (.ok ys) ∧
      ys.Perm xs ∧ (step = 1 → Ordered cmp ys) := by
  -- by induction on the number of offsets that are left
  induction hk : step - offset generalizing offset a with
  | zero =>
      have hend : ¬ toSize offset < step := by
        rw [toSize_of_lt (by omega)]
        omega
      refine ⟨a, Comp.Ends.loop_inr ?_, hperm, fun hone => ho hone (by omega)⟩
      rw [shellOffsetBody, if_neg hend]
      simp
  | succ k ih =>
      have hgo : toSize offset < step := by
        rw [toSize_of_lt (by omega)]
        omega
      have hfirst : toInt (sizeAdd offset step) = ((offset + step : ℕ) : ℤ) := by
        rw [sizeAdd_of_lt (by omega), toInt_of_lt (by omega)]
      have hsucc : (intAdd offset 1).Ends (.ok ((offset + 1 : ℕ) : ℤ)) :=
        intAdd_ends (by omega) (by omega) (by omega)
      have hpass : Passes cmp step offset a.length (shellInsertBody cmp a.length step offset) :=
        shellInsertBody_passes hc (hperm.length_eq ▸ hn) hpos hstep (by omega)
      obtain ⟨a', hend, hperm', hs⟩ := hpass.ends hc hpos
      have hdone : step = 1 → offset + 1 = 1 → Ordered cmp a' :=
        fun hone hoff' => (hs hone (by omega)).ordered
      obtain ⟨ys, hys, h⟩ := ih (hperm'.trans hperm) (by omega) hdone (by omega)
      refine ⟨ys, Comp.Ends.loop_inl (t := (a', ((offset + 1 : ℕ) : ℤ))) ?_ hys, h⟩
      rw [hperm.length_eq] at hend
      rw [shellOffsetBody, if_pos hgo]
      dsimp only
      rw [toSize_of_lt (by omega), hfirst]
      exact hend.bind (hsucc.bind (by simp))

/-- `shell_sort` ends without an access outside the array, and leaves its elements in
nondecreasing order. -/
theorem shellSort_ends (hn : xs.length ≤ 2 ^ 31 - 4) (hc : TotalPreorderOn cmp Set.univ) :
    ∃ ys, (shellSort cmp xs).Ends (.ok ys) ∧ ys.Perm xs ∧ Ordered cmp ys := by
  have hstep : ∀ (a : List α) (step : ℕ), a.Perm xs → 0 < step → step ≤ 3 →
      ∃ ys, (Comp.loop (shellOffsetBody cmp xs.length step) (a, ((0 : ℕ) : ℤ))).Ends (.ok ys) ∧
        ys.Perm xs ∧ (step = 1 → Ordered cmp ys) :=
    fun a step hperm hpos hle => shellOffset_ends hc hn hpos hle hperm (Nat.zero_le _) (by omega)
  obtain ⟨a₁, h₁, hperm₁, -⟩ := hstep xs 3 (List.Perm.refl xs) (by omega) (by omega)
  obtain ⟨a₂, h₂, hperm₂, -⟩ := hstep a₁ 2 hperm₁ (by omega) (by omega)
  obtain ⟨a₃, h₃, hperm₃, ho⟩ := hstep a₂ 1 hperm₂ (by omega) (by omega)
  refine ⟨a₃, ?_, hperm₃, ho rfl⟩
  simp only [shellSort, shellSteps, List.foldlM_cons, List.foldlM_nil]
  exact h₁.bind (h₂.bind (h₃.bind (by simp)))

/-- Pairs of a key and a value, by the key. -/
theorem shellSort_ends_pairs :
    ∃ ys, (shellSort (fun p q : ℤ × Bool => p.1 - q.1)
        [(2, true), (1, true), (2, false), (0, true), (1, false)]).Ends (.ok ys) ∧
      ys.Perm [(2, true), (1, true), (2, false), (0, true), (1, false)] ∧
      Ordered (fun p q => p.1 - q.1) ys :=
  shellSort_ends (by decide) ⟨fun a _ b _ => by omega, fun a _ b _ d _ h₁ h₂ => by omega⟩

end SortArrary

end DemoClass
