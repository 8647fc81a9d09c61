import DemoClass.Lib.ExchangeSort
import DemoClass.Sort.SortArrary

/-!
# Selection sort of an array (`select_sort` of `sort_arrary.c`)

The outer loop runs while `i < nmemb - 1`, in `size_t`.  For the empty array the difference
wraps, and the loop goes through all values of `i` although there is nothing to sort; the
inner loop is left at once each time, so that nothing is accessed.
-/

namespace DemoClass

open ListSort

namespace SortArrary

variable {α : Type}

/-- One round of the inner loop of `select_sort`, on `j` and `min`. -/
def selectMinBody (cmp : α → α → ℤ) (a : List α) (nmemb : ℕ) (s : ℕ × ℕ) :
    Comp Fault ((ℕ × ℕ) ⊕ ℕ) :=
  if s.1 < nmemb then do
    let x ← load a s.1
    let y ← load a s.2
    pure (.inl (sizeAdd s.1 1, if cmp x y < 0 then s.1 else s.2))
  else pure (.inr s.2)

/-- One round of the outer loop of `select_sort`, on the array and `i`. -/
def selectSortBody (cmp : α → α → ℤ) (nmemb : ℕ) (s : List α × ℕ) :
    Comp Fault ((List α × ℕ) ⊕ List α) :=
  if s.2 < sizeSub nmemb 1 then do
    let min ← Comp.loop (selectMinBody cmp s.1 nmemb) (sizeAdd s.2 1, s.2)
    let a ← if min ≠ s.2 then swap s.1 s.2 min else pure s.1
    pure (.inl (a, sizeAdd s.2 1))
  else pure (.inr s.1)

/-- `select_sort` -/
def selectSort (cmp : α → α → ℤ) (base : List α) : Comp Fault (List α) :=
  Comp.loop (selectSortBody cmp base.length) (base, 0)

/-- `select_sort` sorts `xs` without an access outside of it, and in at most as many rounds
of its outer loop as there are elements. -/
def SelectsWithin (cmp : α → α → ℤ) (xs : List α) : Prop :=
  ∃ n s ys, n ≤ xs.length ∧ Comp.Iterates (selectSortBody cmp xs.length) n (xs, 0) s ∧
    (selectSortBody cmp xs.length s).Ends (.ok (.inr ys)) ∧ ys.Perm xs ∧ Ordered cmp ys

variable {cmp : α → α → ℤ} {i j m nmemb : ℕ} {y : α} {a us ws xs : List α}

/-- What is sorted in few rounds is what `select_sort` returns. -/
lemma SelectsWithin.ends (h : SelectsWithin cmp xs) :
    ∃ ys, (selectSort cmp xs).Ends (.ok ys) ∧ ys.Perm xs ∧ Ordered cmp ys := by
  obtain ⟨n, s, ys, -, hn, hs, hys⟩ := h
  exact ⟨ys, hn.ends hs.loop_inr, hys⟩

/-- The inner loop finds a least element from `i` on. -/
lemma selectMin_ends (hc : TotalPreorderOn cmp Set.univ) (hlen : a.length < 2 ^ 64)
    (hij : i ≤ j) (hj : j ≤ a.length) (him : i ≤ m) (hy : a[m]? = some y)
    (hmin : All (fun w => cmp y w ≤ 0) i j a) :
    ∃ m' y', (Comp.loop (selectMinBody cmp a a.length) (j, m)).Ends (.ok m') ∧ i ≤ m' ∧
      a[m']? = some y' ∧ All (fun w => cmp y' w ≤ 0) i a.length a := by
  -- by induction on the number of elements from `j` on
  induction hk : a.length - j generalizing j m y with
  | zero =>
      obtain rfl : j = a.length := by omega
      refine ⟨m, y, Comp.Ends.loop_inr ?_, him, hy, hmin⟩
      simp [selectMinBody]
  | succ k ih =>
      have hgo : j < a.length := by omega
      obtain ⟨x, hx⟩ := exists_getElem?_eq hgo
      have hsucc : sizeAdd j 1 = j + 1 := Nat.mod_eq_of_lt (by omega)
      have hbody : (selectMinBody cmp a a.length (j, m)).Ends
          (.ok (.inl (j + 1, if cmp x y < 0 then j else m))) := by
        rw [selectMinBody, if_pos hgo, hsucc]
        exact (load_ends hx).bind ((load_ends hy).bind (by simp))
      by_cases hlt : cmp x y < 0
      · have hless : All (fun w => cmp x w ≤ 0) i j a := fun k h₁ h₂ w hw =>
          hc.trans x trivial y trivial w trivial hlt.le (hmin k h₁ h₂ w hw)
        obtain ⟨m', y', hend, h⟩ := ih (by omega) (by omega) hij hx (hless.succ hx (hc.refl x))
          (by omega)
        rw [if_pos hlt] at hbody
        exact ⟨m', y', hbody.loop_inl hend, h⟩
      · have hyx : cmp y x ≤ 0 := (hc.nonneg_iff trivial trivial).1 (not_lt.1 hlt)
        obtain ⟨m', y', hend, h⟩ := ih (by omega) (by omega) him hy (hmin.succ hx hyx) (by omega)
        rw [if_neg hlt] at hbody
        exact ⟨m', y', hbody.loop_inl hend, h⟩

/-- A round of the outer loop brings a least element of what is left to its front. -/
lemma selectSortBody_ends (hc : TotalPreorderOn cmp Set.univ) (hlen : (us ++ ws).length < 2 ^ 64)
    (htwo : 2 ≤ ws.length) :
    ∃ y vs, (selectSortBody cmp (us ++ ws).length (us ++ ws, us.length)).Ends
        (.ok (.inl (us ++ y :: vs, us.length + 1))) ∧
      (y :: vs).Perm ws ∧ ∀ w ∈ vs, cmp y w ≤ 0 := by
  obtain ⟨x, ws, rfl⟩ := List.exists_cons_of_length_pos (show 0 < ws.length by omega)
  have hlen' : (us ++ x :: ws).length = us.length + (ws.length + 1) := by simp
  rw [List.length_cons] at htwo
  have hgo : us.length < sizeSub (us ++ x :: ws).length 1 := by
    rw [sizeSub_of_le (by omega)]
    omega
  have hsucc : sizeAdd us.length 1 = us.length + 1 := Nat.mod_eq_of_lt (by omega)
  have hx : (us ++ x :: ws)[us.length]? = some x := by simp
  have hself : All (fun w => cmp x w ≤ 0) us.length (us.length + 1) (us ++ x :: ws) :=
    All.succ (fun k h₁ h₂ => absurd h₂ (by omega)) hx (hc.refl x)
  obtain ⟨m, y, hmin, hle, hy, hall⟩ := selectMin_ends hc hlen (Nat.le_succ us.length) (by omega)
    (Nat.le_refl _) hx hself
  have hright : ∀ k, (us ++ x :: ws)[us.length + k]? = (x :: ws)[k]? := fun k => by
    rw [List.getElem?_append_right (Nat.le_add_right _ k), Nat.add_sub_cancel_left]
  -- nothing from `us.length` on is smaller than the element found
  have hge : ∀ w ∈ x :: ws, cmp y w ≤ 0 := by
    intro w hw
    obtain ⟨k, hk⟩ := List.mem_iff_getElem?.1 hw
    have hk' : (us ++ x :: ws)[us.length + k]? = some w := (hright k).trans hk
    obtain ⟨hlt, -⟩ := List.getElem?_eq_some_iff.1 hk'
    exact hall (us.length + k) (by omega) hlt w hk'
  have hround : ∀ {a : List α}, (if m ≠ us.length then swap (us ++ x :: ws) us.length m
      else pure (us ++ x :: ws) : Comp Fault (List α)).Ends (.ok a) →
      (selectSortBody cmp (us ++ x :: ws).length (us ++ x :: ws, us.length)).Ends
        (.ok (.inl (a, us.length + 1))) := by
    intro a ha
    rw [selectSortBody, if_pos hgo, hsucc]
    refine hmin.bind ?_
    dsimp only
    split_ifs at ha ⊢
    · exact ha.bind (by simp)
    · exact ha.bind (by simp)
  by_cases hm : m = us.length
  · subst hm
    obtain rfl : x = y := Option.some.inj (hx.symm.trans hy)
    exact ⟨x, ws, hround (a := us ++ x :: ws) (by simp), List.Perm.refl _,
      fun w hw => hge w (List.mem_cons_of_mem x hw)⟩
  · obtain ⟨k, rfl⟩ : ∃ k, m = us.length + 1 + k := ⟨m - (us.length + 1), by omega⟩
    have hk : ws[k]? = some y := by
      rw [Nat.add_assoc, Nat.add_comm 1, hright, List.getElem?_cons_succ] at hy
      exact hy
    obtain ⟨ms, vs, rfl, rfl⟩ : ∃ ms vs, ws = ms ++ y :: vs ∧ ms.length = k := by
      obtain ⟨hlt, rfl⟩ := List.getElem?_eq_some_iff.1 hk
      exact ⟨ws.take k, ws.drop (k + 1), by simp, by simpa using hlt.le⟩
    refine ⟨y, ms ++ x :: vs, hround ?_, ?_, fun w hw => hge w ?_⟩
    · rw [if_pos hm]
      exact swap_ends us x ms y vs
    · exact exchange_perm x ms y vs
    · exact (exchange_perm x ms y vs).mem_iff.1 (List.mem_cons_of_mem y hw)

/-- The outer loop, from any point on at which something is left. -/
lemma selectLoop_iterates (hc : TotalPreorderOn cmp Set.univ) (hlen : xs.length < 2 ^ 64)
    (h : Selecting cmp xs us ws) (hpos : 0 < ws.length) :
    ∃ n s ys, n < ws.length ∧
      Comp.Iterates (selectSortBody cmp xs.length) n (us ++ ws, us.length) s ∧
      (selectSortBody cmp xs.length s).Ends (.ok (.inr ys)) ∧ ys.Perm xs ∧ Ordered cmp ys := by
  have hxs : (us ++ ws).length = xs.length := h.perm.length_eq
  -- by induction on the number of elements that are left
  induction hk : ws.length generalizing us ws with
  | zero => omega
  | succ k ih =>
      by_cases hone : k = 0
      · have hend : ¬ us.length < sizeSub xs.length 1 := by
          rw [← hxs, sizeSub_of_le] <;> rw [List.length_append] <;> omega
        refine ⟨0, _, us ++ ws, by omega, .refl _, ?_, h.done (by omega)⟩
        rw [selectSortBody, if_neg hend]
        simp
      · have hlen' : (us ++ ws).length < 2 ^ 64 := hxs ▸ hlen
        obtain ⟨y, vs, hround, hperm, hle⟩ := selectSortBody_ends hc hlen' (by omega)
        rw [hxs] at hround
        have hvs : vs.length = k := by
          have := hperm.length_eq
          rw [List.length_cons] at this
          omega
        have h' := (h.perm_right hperm).take hle
        obtain ⟨n, s, ys, hn, hit, hs⟩ := ih h' (by omega) h'.perm.length_eq hvs
        rw [List.append_assoc, List.singleton_append, List.length_append, List.length_singleton]
          at hit
        exact ⟨n + 1, s, ys, by omega, .step hround hit, hs⟩

/-- On the empty array the outer loop goes through all values below `2 ^ 64 - 1`. -/
lemma selectLoop_empty (cmp : α → α → ℤ) {n : ℕ} (hn : n < 2 ^ 64) :
    Comp.Iterates (selectSortBody cmp 0) n ([], 0) ([], n) := by
  induction n with
  | zero => exact .refl _
  | succ n ih =>
      refine (ih (by omega)).snoc ?_
      have hgo : n < sizeSub 0 1 := by
        unfold sizeSub
        rw [if_neg (by omega)]
        omega
      have hsucc : sizeAdd n 1 = n + 1 := Nat.mod_eq_of_lt hn
      have hmin : (Comp.loop (selectMinBody cmp [] 0) (n + 1, n)).Ends (.ok n) := by
        refine Comp.Ends.loop_inr ?_
        simp [selectMinBody]
      rw [selectSortBody, if_pos hgo, hsucc]
      exact hmin.bind (by simp)

/-- The empty array needs more rounds than it has elements. -/
lemma SelectsWithin.ne_nil (h : SelectsWithin cmp xs) : xs ≠ [] := by
  rintro rfl
  obtain ⟨n, s, ys, hn, hit, hs, -⟩ := h
  -- no round may be made, but the first one is
  obtain rfl : n = 0 := by simpa using hn
  cases hit with
  | refl =>
      cases selectLoop_empty cmp (n := 1) (by omega) with
      | step hb _ => exact absurd (hb.unique hs) (by simp)

/-- `select_sort` sorts an array in at most as many rounds as it has elements, if it has
any. -/
theorem selectsWithin_iff (hc : TotalPreorderOn cmp Set.univ) (hlen : xs.length < 2 ^ 64) :
    SelectsWithin cmp xs ↔ xs ≠ [] := by
  refine ⟨SelectsWithin.ne_nil, fun hne => ?_⟩
  obtain ⟨n, s, ys, hn, h⟩ := selectLoop_iterates hc hlen (Selecting.start cmp xs)
    (List.length_pos_iff.2 hne)
  exact ⟨n, s, ys, hn.le, h⟩

/-- Pairs of a key and a value, by the key. -/
theorem selectsWithin_iff_pairs :
    SelectsWithin (fun p q : ℤ × Bool => p.1 - q.1) [(2, true), (1, true), (2, false)] ↔
      [((2 : ℤ), true), (1, true), (2, false)] ≠ [] :=
  selectsWithin_iff ⟨fun a _ b _ => by omega, fun a _ b _ d _ h₁ h₂ => by omega⟩ (by decide)

/-- The empty array takes `2 ^ 64 - 1` rounds. -/
theorem not_selectsWithin_empty :
    ¬ SelectsWithin (fun a b : ℤ => a - b) [] ∧
      Comp.Iterates (selectSortBody (fun a b : ℤ => a - b) 0) (2 ^ 64 - 1) ([], 0)
        ([], 2 ^ 64 - 1) :=
  ⟨fun h => h.ne_nil rfl, selectLoop_empty _ (by omega)⟩

end SortArrary

end DemoClass
