import Mathlib.Data.List.Perm.Basic
import Mathlib.Data.List.Nodup

/-!
# Tables of slots

A slot of a table is used or free.  `fillFirst` puts an entry into the first free slot,
which adds it to the entries in use (`filter_fillFirst`); freeing the slot of an entry
takes it from them (`filter_free`).  There is a free slot as long as fewer entries are in
use than the table has slots (`exists_free`).
-/

namespace DemoClass

namespace Slots

variable {α : Type}

/-- Put `y` into the first free slot. -/
def fillFirst (used : α → Bool) (y : α) : List α → List α
  | [] => []
  | x :: xs => if used x then x :: fillFirst used y xs else y :: xs

variable {used : α → Bool} {x y z : α} {xs pre post : List α}

/-- A table, around one of its entries. -/
lemma exists_split {i : ℕ} (h : xs[i]? = some x) :
    ∃ pre post, xs = pre ++ x :: post ∧ pre.length = i := by
  obtain ⟨hi, rfl⟩ := List.getElem?_eq_some_iff.1 h
  refine ⟨xs.take i, xs.drop (i + 1), ?_, ?_⟩
  · rw [List.getElem_cons_drop, List.take_append_drop]
  · rw [List.length_take]
    omega

@[simp] lemma length_fillFirst (used : α → Bool) (y : α) (xs : List α) :
    (fillFirst used y xs).length = xs.length := by
  induction xs with
  | nil => rfl
  | cons x xs ih =>
      by_cases hx : used x = true
      · simp [fillFirst, hx, ih]
      · simp [fillFirst, hx]

/-- A table with fewer entries in use than slots has a free slot. -/
lemma exists_free (h : (xs.filter used).length < xs.length) : ∃ x ∈ xs, used x = false := by
  by_contra hno
  have hall : ∀ x ∈ xs, used x = true := by
    intro x hx
    by_contra hux
    exact hno ⟨x, hx, by simpa using hux⟩
  rw [List.filter_eq_self.2 hall] at h
  omega

/-- Filling the first free slot adds the entry to those in use. -/
lemma filter_fillFirst (hfree : ∃ x ∈ xs, used x = false) (hy : used y = true) :
    ((fillFirst used y xs).filter used).Perm (y :: xs.filter used) := by
  induction xs with
  | nil =>
      obtain ⟨x, hx, -⟩ := hfree
      cases hx
  | cons x xs ih =>
      by_cases hx : used x = true
      · have hfree' : ∃ z ∈ xs, used z = false := by
          obtain ⟨z, hz, hused⟩ := hfree
          rcases List.mem_cons.1 hz with rfl | hz
          · simp [hx] at hused
          · exact ⟨z, hz, hused⟩
        rw [fillFirst, if_pos hx, List.filter_cons_of_pos hx, List.filter_cons_of_pos hx]
        exact ((ih hfree').cons x).trans (List.Perm.swap y x _)
      · rw [fillFirst, if_neg hx, List.filter_cons_of_pos hy, List.filter_cons_of_neg hx]

/-- A table without a free slot stays as it is. -/
lemma fillFirst_of_used (h : ∀ x ∈ xs, used x = true) : fillFirst used y xs = xs := by
  induction xs with
  | nil => rfl
  | cons x xs ih =>
      rw [fillFirst, if_pos (h x List.mem_cons_self),
        ih fun z hz => h z (List.mem_cons_of_mem x hz)]

/-- What is in use stays in the table. -/
lemma mem_fillFirst (hx : x ∈ xs) (hused : used x = true) : x ∈ fillFirst used y xs := by
  induction xs with
  | nil => cases hx
  | cons z xs ih =>
      by_cases hz : used z = true
      · rw [fillFirst, if_pos hz]
        rcases List.mem_cons.1 hx with rfl | hx
        · exact List.mem_cons_self
        · exact List.mem_cons_of_mem _ (ih hx)
      · rw [fillFirst, if_neg hz]
        rcases List.mem_cons.1 hx with rfl | hx
        · exact absurd hused hz
        · exact List.mem_cons_of_mem _ hx

/-- Freeing a slot in use takes its entry from those in use. -/
lemma filter_free (hx : used x = true) (hz : used z = false) :
    ((pre ++ x :: post).filter used).Perm (x :: (pre ++ z :: post).filter used) := by
  have hz' : ¬ used z = true := by simp [hz]
  rw [List.filter_append, List.filter_append, List.filter_cons_of_pos hx,
    List.filter_cons_of_neg hz']
  exact List.perm_middle

/-- An entry in use occurs once in a table whose entries in use are distinct. -/
lemma notMem_of_nodup (hn : ((pre ++ x :: post).filter used).Nodup) (hx : used x = true) :
    x ∉ pre ∧ x ∉ post := by
  rw [List.filter_append, List.filter_cons_of_pos hx, List.nodup_middle, List.nodup_cons] at hn
  constructor
  · intro hmem
    exact hn.1 (List.mem_append_left _ (List.mem_filter.2 ⟨hmem, hx⟩))
  · intro hmem
    exact hn.1 (List.mem_append_right _ (List.mem_filter.2 ⟨hmem, hx⟩))

end Slots

end DemoClass
