import Mathlib.Data.List.Nodup

/-!
# A cursor that goes round the matches of a list

`Cursor.next p xs cur` is the next entry of `xs` that satisfies `p`: the first one
behind the cursor when the cursor is on such an entry, and the first of all
otherwise.  A cursor that is set to each result in turn, and off the matches when
there is none, goes round: the `k`-th result is the match number `k % (m + 1)`,
where `m` is the number of matches and the match number `m` is none
(`OnRound.next_eq`, `OnRound.succ`).
-/

namespace DemoClass

namespace Cursor

variable {α : Type} [DecidableEq α]

/-- The next match. -/
def next (p : α → Bool) (xs : List α) : Option α → Option α
  | none => xs.find? p
  | some c => if p c then (xs.dropWhile (· ≠ c)).tail.find? p else xs.find? p

/-- The cursor is not on a match. -/
def Off (p : α → Bool) (cur : Option α) : Prop := ∀ c, cur = some c → p c = false

/-- The cursor is where it is before the `k`-th result of a round. -/
def OnRound (p : α → Bool) (xs : List α) (k : ℕ) (cur : Option α) : Prop :=
  match k % ((xs.filter p).length + 1) with
  | 0 => Off p cur
  | j + 1 => cur = (xs.filter p)[j]?

variable {p q : α → Bool} {xs us ys : List α} {c : α} {cur : Option α} {k : ℕ}

omit [DecidableEq α] in
lemma find?_eq_getElem? (p : α → Bool) (xs : List α) : xs.find? p = (xs.filter p)[0]? := by
  rw [← List.head?_filter, List.head?_eq_getElem?]

lemma next_of_off (h : Off p cur) : next p xs cur = xs.find? p := by
  cases cur with
  | none => rfl
  | some c => simp [next, h c rfl]

lemma next_append (hc : p c = true) (hn : (us ++ c :: ys).Nodup) :
    next p (us ++ c :: ys) (some c) = ys.find? p := by
  have hus : ∀ a ∈ us, decide (a ≠ c) = true := by
    intro a ha
    have hne : a ≠ c := fun he =>
      (List.nodup_middle.1 hn).notMem (List.mem_append_left _ (he ▸ ha))
    simpa using hne
  rw [next, if_pos hc, List.dropWhile_append_of_pos hus, List.dropWhile_cons_of_neg (by simp),
    List.tail_cons]

/-- The result is a match in the list. -/
lemma mem_of_next (h : next p xs cur = some c) : c ∈ xs ∧ p c = true := by
  have hfind : ∀ ys, ys ⊆ xs → ys.find? p = some c → c ∈ xs ∧ p c = true :=
    fun ys hys hc => ⟨hys (List.mem_of_find?_eq_some hc), List.find?_some hc⟩
  cases cur with
  | none => exact hfind xs (fun _ ha => ha) h
  | some d =>
      by_cases hd : p d = true
      · rw [next, if_pos hd] at h
        exact hfind _ (fun _ ha => (List.dropWhile_sublist _).subset (List.mem_of_mem_tail ha)) h
      · rw [next, if_neg hd] at h
        exact hfind xs (fun _ ha => ha) h

/-- From the match number `j` the cursor goes on to the match number `j + 1`. -/
lemma next_getElem? {j : ℕ} (hn : xs.Nodup) (h : (xs.filter p)[j]? = some c) :
    next p xs (some c) = (xs.filter p)[j + 1]? := by
  have hmem := List.mem_filter.1 (List.mem_of_getElem? h)
  obtain ⟨us, ys, rfl⟩ := List.append_of_mem hmem.1
  have hf : (us ++ c :: ys).filter p = us.filter p ++ c :: ys.filter p := by simp [hmem.2]
  have hj : j = (us.filter p).length := by
    have hnf := hn.filter p
    rw [hf] at h hnf
    have hget : (us.filter p ++ c :: ys.filter p)[(us.filter p).length]? = some c := by simp
    have hlt : (us.filter p).length < (us.filter p ++ c :: ys.filter p).length := by simp
    exact ((List.getElem?_inj hlt hnf).1 (hget.trans h.symm)).symm
  rw [next_append hmem.2 hn, find?_eq_getElem?, hf, hj, List.getElem?_append_right (by omega)]
  simp

omit [DecidableEq α] in
lemma onRound_zero (h : Off p cur) : OnRound p xs 0 cur := by
  simpa [OnRound] using h

namespace OnRound

/-- The `k`-th result. -/
lemma next_eq (hn : xs.Nodup) (h : OnRound p xs k cur) :
    next p xs cur = (xs.filter p)[k % ((xs.filter p).length + 1)]? := by
  have hlt : k % ((xs.filter p).length + 1) < (xs.filter p).length + 1 := Nat.mod_lt _ (by omega)
  unfold OnRound at h
  cases hk : k % ((xs.filter p).length + 1) with
  | zero =>
      rw [hk] at h
      rw [next_of_off h, find?_eq_getElem?]
  | succ j =>
      rw [hk] at h hlt
      obtain ⟨c, hc⟩ : ∃ c, (xs.filter p)[j]? = some c :=
        ⟨_, List.getElem?_eq_getElem (by omega)⟩
      rw [show cur = some c from h.trans hc]
      exact next_getElem? hn hc

/-- The cursor is set to the result, and off the matches when there is none; the next
result may be asked for by another predicate that has the same matches. -/
lemma succ (hn : xs.Nodup) (h : OnRound p xs k cur) (hpq : ∀ a ∈ xs, p a = q a)
    {cur' : Option α} (hsome : ∀ c, next p xs cur = some c → cur' = some c)
    (hnone : next p xs cur = none → Off q cur') : OnRound q xs (k + 1) cur' := by
  have hnext := h.next_eq hn
  have hlt : k % ((xs.filter p).length + 1) < (xs.filter p).length + 1 := Nat.mod_lt _ (by omega)
  have hq : xs.filter q = xs.filter p := List.filter_congr fun a ha => (hpq a ha).symm
  unfold OnRound
  rw [hq]
  by_cases hlast : k % ((xs.filter p).length + 1) = (xs.filter p).length
  · have hzero : (k + 1) % ((xs.filter p).length + 1) = 0 := by
      rw [Nat.add_mod, hlast]
      simp
    rw [hzero]
    rw [hlast, List.getElem?_eq_none (Nat.le_refl _)] at hnext
    exact hnone hnext
  · have hsucc : (k + 1) % ((xs.filter p).length + 1) = k % ((xs.filter p).length + 1) + 1 := by
      rw [← Nat.mod_add_mod]
      exact Nat.mod_eq_of_lt (by omega)
    rw [hsucc]
    obtain ⟨c, hc⟩ : ∃ c, (xs.filter p)[k % ((xs.filter p).length + 1)]? = some c :=
      ⟨_, List.getElem?_eq_getElem (by omega)⟩
    exact (hsome c (hnext.trans hc)).trans hc.symm

end OnRound

end Cursor

end DemoClass
