import Mathlib.Data.List.Nodup
import Mathlib.Logic.Function.Basic
import Mathlib.Tactic.Common

/-!
# Segments of singly linked lists

The cells of a list lead on by `next` to a pointer, which is the address of a cell (`e`) or may be
`NULL`.  `Seg next e k xs z` says that the pointer `k` leads through the cells `xs` to the pointer
`z`; a list that ends in `NULL` and a ring are segments with a suitable end.  The operations on
lists rewrite the links of single cells: `Seg.insert`, `Seg.remove` and `Seg.turn` say what that
does to the cells of a segment.
-/

namespace DemoClass

variable {ι κ : Type}

/-- The pointer `k` leads through the cells `xs` to the pointer `z`. -/
def Seg (next : ι → κ) (e : ι → κ) : κ → List ι → κ → Prop
  | k, [], z => k = z
  | k, x :: xs, z => k = e x ∧ Seg next e (next x) xs z

namespace Seg

variable {next next' : ι → κ} {e : ι → κ} {k m z : κ} {x p : ι}
  {xs ys us vs : List ι}

@[simp] lemma nil_iff : Seg next e k [] z ↔ k = z := Iff.rfl

@[simp] lemma cons_iff : Seg next e k (x :: xs) z ↔ k = e x ∧ Seg next e (next x) xs z := Iff.rfl

lemma append_iff : Seg next e k (xs ++ ys) z ↔ ∃ m, Seg next e k xs m ∧ Seg next e m ys z := by
  induction xs generalizing k with
  | nil => simp
  | cons x xs ih => simp [ih, and_assoc]

lemma congr (h : Seg next e k xs z) (hn : ∀ x ∈ xs, next' x = next x) :
    Seg next' e k xs z := by
  induction xs generalizing k with
  | nil => exact h
  | cons x xs ih =>
      obtain ⟨hk, h⟩ := h
      refine ⟨hk, ih ?_ fun y hy => hn y (List.mem_cons_of_mem x hy)⟩
      rwa [hn x List.mem_cons_self]

/-- Where the segment starts: at its end when it has no cells. -/
lemma start_eq (h : Seg next e k xs z) : k = (xs.map e).headD z := by
  cases xs with
  | nil => exact h
  | cons x xs => exact h.1

/-- A pointer leads through one sequence of cells only to an end that is none of them. -/
lemma unique (h : Seg next e k xs z) (h' : Seg next e k ys z) (he : Function.Injective e)
    (hx : ∀ x ∈ xs, e x ≠ z) (hy : ∀ y ∈ ys, e y ≠ z) : xs = ys := by
  induction xs generalizing k ys with
  | nil =>
      obtain rfl : k = z := h
      cases ys with
      | nil => rfl
      | cons y ys => exact absurd h'.1.symm (hy y List.mem_cons_self)
  | cons x xs ih =>
      obtain ⟨rfl, h⟩ := h
      cases ys with
      | nil => exact absurd h' (hx x List.mem_cons_self)
      | cons y ys =>
          obtain ⟨hxy, h'⟩ := h'
          obtain rfl := he hxy
          rw [ih h h' (fun w hw => hx w (List.mem_cons_of_mem x hw)) fun w hw =>
            hy w (List.mem_cons_of_mem x hw)]

variable [DecidableEq ι]

/-- A cell outside the segment is rewritten. -/
lemma update (h : Seg next e k xs z) (hx : x ∉ xs) (m : κ) :
    Seg (Function.update next x m) e k xs z := by
  refine h.congr fun y hy => Function.update_of_ne ?_ m next
  rintro rfl
  exact hx hy

/-- A new cell comes behind `p`. -/
lemma insert (h : Seg next e k (xs ++ p :: ys) z) (hp : p ∉ xs ∧ p ∉ ys)
    (hx : x ∉ xs ++ p :: ys) :
    Seg (Function.update (Function.update next x (next p)) p (e x)) e k (xs ++ p :: x :: ys) z := by
  obtain ⟨k', hxs, hk', hys⟩ := append_iff.1 h
  have hxs' : x ∉ xs := fun hm => hx (by simp [hm])
  have hxp : x ≠ p := fun he => hx (by simp [he])
  have hxy : x ∉ ys := fun hm => hx (by simp [hm])
  refine append_iff.2 ⟨k', (hxs.update hxs' _).update hp.1 _, hk', ?_⟩
  rw [cons_iff, Function.update_self, Function.update_of_ne hxp, Function.update_self]
  exact ⟨rfl, (hys.update hxy _).update hp.2 _⟩

/-- The cell behind `p` is taken out. -/
lemma remove (h : Seg next e k (xs ++ p :: x :: ys) z) (hp : p ∉ xs ∧ p ∉ ys) :
    Seg (Function.update next p (next x)) e k (xs ++ p :: ys) z := by
  obtain ⟨k', hxs, hk', -, hys⟩ := append_iff.1 h
  refine append_iff.2 ⟨k', hxs.update hp.1 _, hk', ?_⟩
  rw [Function.update_self]
  exact hys.update hp.2 _

/-- One cell is turned round: it leads to what was turned before. -/
lemma turn (h : Seg next e k (x :: xs) z) (h' : Seg next e m ys z) (hx : x ∉ xs ∧ x ∉ ys) :
    Seg (Function.update next x m) e (next x) xs z ∧
      Seg (Function.update next x m) e k (x :: ys) z := by
  obtain ⟨hk, h⟩ := h
  refine ⟨h.update hx.1 m, hk, ?_⟩
  rw [Function.update_self]
  exact h'.update hx.2 m

/-! ### Lists with a head

The cells `xs` come behind a head `p`, which is the cell in front of the first one. -/

omit [DecidableEq ι] in
lemma exists_last (p : ι) (us : List ι) : ∃ ws, p :: us = ws ++ [us.getLastD p] := by
  refine ⟨(p :: us).dropLast, ?_⟩
  rw [← List.getLast_eq_getLastD (List.cons_ne_nil p us), List.dropLast_concat_getLast]

omit [DecidableEq ι] in
/-- The list is cut behind `us`. -/
lemma exists_cut (hnodup : (p :: (us ++ vs)).Nodup) : ∃ ws,
    (∀ zs, p :: (us ++ zs) = ws ++ us.getLastD p :: zs) ∧
      us.getLastD p ∉ ws ∧ us.getLastD p ∉ vs := by
  obtain ⟨ws, hws⟩ := exists_last p us
  have hcut : ∀ zs, p :: (us ++ zs) = ws ++ us.getLastD p :: zs := fun zs => by
    rw [← List.cons_append, hws, List.append_assoc, List.singleton_append]
  rw [hcut vs] at hnodup
  have hnot := (List.nodup_cons.1 (List.nodup_middle.1 hnodup)).1
  exact ⟨ws, hcut, fun hm => hnot (List.mem_append_left _ hm),
    fun hm => hnot (List.mem_append_right _ hm)⟩

omit [DecidableEq ι] in
lemma perm_behind (p x : ι) (us vs : List ι) :
    (p :: (us ++ x :: vs)).Perm (x :: p :: (us ++ vs)) :=
  (List.perm_middle.cons p).trans (List.Perm.swap x p _)

omit [DecidableEq ι] in
lemma next_behind (h : Seg next e (next p) (us ++ vs) z) (hnodup : (p :: (us ++ vs)).Nodup) :
    next (us.getLastD p) = (vs.map e).headD z := by
  obtain ⟨ws, hcut, -⟩ := exists_cut hnodup
  have hlist : Seg next e (e p) (p :: (us ++ vs)) z := ⟨rfl, h⟩
  rw [hcut] at hlist
  obtain ⟨k, -, -, hvs⟩ := append_iff.1 hlist
  exact hvs.start_eq

/-- A new cell comes behind `us`. -/
lemma insert_behind (h : Seg next e (next p) (us ++ vs) z) (hnodup : (p :: (us ++ vs)).Nodup)
    (hx : x ∉ p :: (us ++ vs)) (hn : next' = Function.update
      (Function.update next x (next (us.getLastD p))) (us.getLastD p) (e x)) :
    Seg next' e (next' p) (us ++ x :: vs) z := by
  obtain ⟨ws, hcut, hp⟩ := exists_cut hnodup
  have hlist : Seg next e (e p) (p :: (us ++ vs)) z := ⟨rfl, h⟩
  rw [hcut] at hlist hx
  have hins := hlist.insert hp hx
  rw [← hcut, ← hn] at hins
  exact hins.2

/-- The cell behind `us` is taken out; its own link does not matter any more. -/
lemma remove_behind (h : Seg next e (next p) (us ++ x :: vs) z)
    (hnodup : (p :: (us ++ x :: vs)).Nodup) (hn : next' = Function.update
      (Function.update next (us.getLastD p) (next x)) x m) :
    Seg next' e (next' p) (us ++ vs) z := by
  obtain ⟨ws, hcut, hws, hvs⟩ := exists_cut hnodup
  have hx := (List.nodup_cons.1 ((perm_behind p x us vs).nodup_iff.1 hnodup)).1
  have hlist : Seg next e (e p) (p :: (us ++ x :: vs)) z := ⟨rfl, h⟩
  rw [hcut] at hlist
  have hrem := hlist.remove ⟨hws, fun hm => hvs (List.mem_cons_of_mem x hm)⟩
  rw [← hcut] at hrem
  have hrem' := hrem.update hx m
  rw [← hn] at hrem'
  exact hrem'.2

end Seg

end DemoClass
