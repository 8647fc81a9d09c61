import Mathlib.Algebra.BigOperators.Group.Finset.Basic
import Mathlib.Data.Fintype.BigOperators

/-!
# Threads and a mutex

A mutex has an owner, or none.  `Guarded owner holds` says that the owner is the thread that is at
a place where it holds the mutex, and that nobody else is at such a place; so there is at most one
(`Guarded.unique`).  A step of a program takes the mutex, gives it back, or leaves it, and there is
a rule for each.
-/

namespace DemoClass

namespace Mutex

variable {ι : Type}

/-- The owner of the mutex is the thread that holds it. -/
def Guarded (owner : Option ι) (holds : ι → Prop) : Prop := ∀ i, owner = some i ↔ holds i

variable {owner : Option ι} {holds holds' : ι → Prop} {i j : ι}

namespace Guarded

/-- Mutual exclusion. -/
lemma unique (hg : Guarded owner holds) (hi : holds i) (hj : holds j) : i = j :=
  Option.some.inj (((hg i).2 hi).symm.trans ((hg j).2 hj))

lemma owner_eq_none (hg : Guarded owner holds) (hn : ∀ i, ¬ holds i) : owner = none := by
  cases owner with
  | none => rfl
  | some i => exact absurd ((hg i).1 rfl) (hn i)

/-- A thread takes the mutex. -/
lemma lock (hg : Guarded none holds) (hi : holds' i) (ho : ∀ j, j ≠ i → (holds' j ↔ holds j)) :
    Guarded (some i) holds' := by
  intro j
  by_cases hj : j = i
  · subst hj
    exact iff_of_true rfl hi
  · refine iff_of_false (fun he => hj (Option.some.inj he).symm) fun hh => ?_
    have hnone := (hg j).2 ((ho j hj).1 hh)
    cases hnone

/-- A thread gives the mutex back. -/
lemma unlock (hg : Guarded owner holds) (hi : holds i) (hi' : ¬ holds' i)
    (ho : ∀ j, j ≠ i → (holds' j ↔ holds j)) : Guarded none holds' := by
  intro j
  refine iff_of_false (fun he => by cases he) fun hh => ?_
  by_cases hj : j = i
  · subst hj
    exact hi' hh
  · exact hj (hg.unique ((ho j hj).1 hh) hi)

/-- A step within the critical section or outside of it. -/
lemma keep (hg : Guarded owner holds) (ho : ∀ j, holds' j ↔ holds j) : Guarded owner holds' :=
  fun j => (hg j).trans (ho j).symm

end Guarded

/-- One thread moves: a sum over the threads changes by its share. -/
lemma sum_update [Fintype ι] [DecidableEq ι] {α M : Type} [AddCommMonoid M] (f : α → M)
    (pc : ι → α) (i : ι) (p : α) :
    ∑ j, f (Function.update pc i p j) + f (pc i) = ∑ j, f (pc j) + f p := by
  have hsame : ∑ j ∈ Finset.univ.erase i, f (Function.update pc i p j) =
      ∑ j ∈ Finset.univ.erase i, f (pc j) := by
    refine Finset.sum_congr rfl fun j hj => ?_
    rw [Function.update_of_ne (Finset.ne_of_mem_erase hj)]
  rw [← Finset.add_sum_erase _ _ (Finset.mem_univ i),
    ← Finset.add_sum_erase _ _ (Finset.mem_univ i), hsame, Function.update_self, add_right_comm,
    add_comm (f p), add_right_comm]

end Mutex

end DemoClass
