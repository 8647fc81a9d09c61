import DemoClass.KernelList.ListHead
import DemoClass.Lib.Comp

/-!
# Walks over a list (`list_for_each` and its variants)

The macros of `list.h` that walk over a list, with the statement under them as a
parameter: it may rewrite the state, the links included, and it may leave the walk
with a value.  The next node is read from the links as the statement left them.

The rule for such a walk is `forEachFrom_ends`: an assertion about the nodes still
to come that every round keeps.
-/

namespace DemoClass

namespace Links

variable {ε ι σ ρ : Type} [DecidableEq ι]

/-- One round of a walk: it is over at the head. -/
def forEachBody (step : σ → ι → ι) (body : ι → σ → Comp ε (σ ⊕ ρ)) (head : ι) (w : ι × σ) :
    Comp ε ((ι × σ) ⊕ (σ ⊕ ρ)) :=
  if w.1 = head then pure (.inr (.inl w.2))
  else do
    match ← body w.1 w.2 with
    | .inl s => pure (.inl (step s w.1, s))
    | .inr r => pure (.inr (.inr r))

/-- The walk from `cur` on, by `step`. -/
def forEachFrom (step : σ → ι → ι) (body : ι → σ → Comp ε (σ ⊕ ρ)) (head cur : ι) (s : σ) :
    Comp ε (σ ⊕ ρ) :=
  Comp.loop (forEachBody step body head) (cur, s)

/-- `list_for_each` -/
def listForEach (links : σ → Links ι) (body : ι → σ → Comp ε (σ ⊕ ρ)) (head : ι) (s : σ) :
    Comp ε (σ ⊕ ρ) :=
  forEachFrom (fun s => (links s).next) body head ((links s).next head) s

/-- `list_for_each_reverse` -/
def listForEachReverse (links : σ → Links ι) (body : ι → σ → Comp ε (σ ⊕ ρ)) (head : ι) (s : σ) :
    Comp ε (σ ⊕ ρ) :=
  forEachFrom (fun s => (links s).prev) body head ((links s).prev head) s

/-- `list_for_each_continue` -/
def listForEachContinue (links : σ → Links ι) (body : ι → σ → Comp ε (σ ⊕ ρ)) (cur head : ι)
    (s : σ) : Comp ε (σ ⊕ ρ) :=
  forEachFrom (fun s => (links s).next) body head ((links s).next cur) s

variable {step : σ → ι → ι} {body : ι → σ → Comp ε (σ ⊕ ρ)} {head cur : ι} {s s' : σ} {xs : List ι}

lemma forEachFrom_head : (forEachFrom step body head head s).Ends (.ok (.inl s)) :=
  Comp.Ends.loop_inr (by simp [forEachBody])

lemma forEachFrom_inl {r : Except ε (σ ⊕ ρ)} (hne : cur ≠ head)
    (hb : (body cur s).Ends (.ok (.inl s')))
    (h : (forEachFrom step body head (step s' cur) s').Ends r) :
    (forEachFrom step body head cur s).Ends r := by
  refine Comp.Ends.loop_inl ?_ h
  rw [forEachBody, if_neg hne]
  exact hb.bind (Comp.ends_pure.2 rfl)

lemma forEachFrom_inr {r : ρ} (hne : cur ≠ head) (hb : (body cur s).Ends (.ok (.inr r))) :
    (forEachFrom step body head cur s).Ends (.ok (.inr r)) := by
  refine Comp.Ends.loop_inr ?_
  rw [forEachBody, if_neg hne]
  exact hb.bind (Comp.ends_pure.2 rfl)

lemma forEachFrom_fault {e : ε} (hne : cur ≠ head) (hb : (body cur s).Ends (.error e)) :
    (forEachFrom step body head cur s).Ends (.error e) := by
  refine Comp.Ends.loop_fault ?_
  rw [forEachBody, if_neg hne]
  exact hb.bind_fault

/-- A walk over nodes that the statement passes by, as they are. -/
lemma forEachFrom_skip {links : σ → Links ι} (us : List ι) {ys : List ι} {r : Except ε (σ ⊕ ρ)}
    (hr : (links s).Ring head (us ++ (xs ++ ys)))
    (hb : ∀ x ∈ xs, (body x s).Ends (.ok (.inl s)))
    (h : (forEachFrom (fun s => (links s).next) body head (ys.headD head) s).Ends r) :
    (forEachFrom (fun s => (links s).next) body head ((xs ++ ys).headD head) s).Ends r := by
  induction xs generalizing us with
  | nil => exact h
  | cons x xs ih =>
      have hne : x ≠ head := fun he => hr.head_notMem (by simp [he])
      have hr' : (links s).Ring head (us ++ x :: (xs ++ ys)) := hr
      have hnext : (links s).next x = (xs ++ ys).headD head := hr'.next_mem
      refine forEachFrom_inl hne (hb x List.mem_cons_self) ?_
      show (forEachFrom _ body head ((links s).next x) s).Ends r
      rw [hnext]
      refine ih (us ++ [x]) ?_ fun y hy => hb y (List.mem_cons_of_mem x hy)
      simpa using hr

/-- A walk whose statement never leaves it: `inv` speaks of the nodes still to come. -/
lemma forEachFrom_ends (inv : List ι → σ → Prop)
    (hbody : ∀ x xs s, inv (x :: xs) s → ∃ s', (body x s).Ends (.ok (.inl s')) ∧
      step s' x = xs.headD head ∧ inv xs s')
    (hh : head ∉ xs) (hinv : inv xs s) :
    ∃ s', (forEachFrom step body head (xs.headD head) s).Ends (.ok (.inl s')) ∧ inv [] s' := by
  induction xs generalizing s with
  | nil => exact ⟨s, forEachFrom_head, hinv⟩
  | cons x xs ih =>
      obtain ⟨s₁, hb, hstep, hinv₁⟩ := hbody x xs s hinv
      obtain ⟨s₂, hends, hinv₂⟩ := ih (fun hmem => hh (List.mem_cons_of_mem _ hmem)) hinv₁
      have hne : x ≠ head := fun he => hh (he ▸ List.mem_cons_self)
      exact ⟨s₂, forEachFrom_inl hne hb (hstep ▸ hends), hinv₂⟩

/-! ### Visiting -/

/-- The nodes `list_for_each` comes to. -/
def nextWalk (l : Links ι) (head : ι) : Comp Empty (List ι ⊕ Empty) :=
  listForEach (fun _ => l) (fun cur vs => pure (.inl (vs ++ [cur]))) head []

/-- The nodes `list_for_each_reverse` comes to. -/
def prevWalk (l : Links ι) (head : ι) : Comp Empty (List ι ⊕ Empty) :=
  listForEachReverse (fun _ => l) (fun cur vs => pure (.inl (vs ++ [cur]))) head []

namespace Ring

variable {l : Links ι} {h : ι}

/-- Visiting one node after the other, along a list of which each node leads to the
next. -/
lemma visit_ends (step : ι → ι) (head : ι) (hh : head ∉ xs)
    (hstep : ∀ us x vs, xs = us ++ x :: vs → step x = vs.headD head) :
    (forEachFrom (fun _ => step) (fun cur vs => pure (.inl (vs ++ [cur]))) head (xs.headD head)
      [] : Comp Empty (List ι ⊕ Empty)).Ends (.ok (.inl xs)) := by
  obtain ⟨vs, hends, hvs⟩ : ∃ vs, (forEachFrom (fun _ => step)
      (fun cur vs => pure (.inl (vs ++ [cur]))) head (xs.headD head) [] :
        Comp Empty (List ι ⊕ Empty)).Ends (.ok (.inl vs)) ∧ xs = vs ++ [] :=
    forEachFrom_ends (fun rest vs => xs = vs ++ rest)
      (fun x rest vs hvs => ⟨vs ++ [x], Comp.ends_pure.2 rfl, hstep vs x rest hvs, by simp [hvs]⟩)
      hh rfl
  obtain rfl : xs = vs := by simpa using hvs
  exact hends

/-- `list_for_each` comes to the nodes of the ring, in their order. -/
lemma nextWalk_ends (hr : l.Ring h xs) : (l.nextWalk h).Ends (.ok (.inl xs)) := by
  rw [nextWalk, listForEach, hr.next_head]
  refine visit_ends l.next h hr.head_notMem fun us x vs he => ?_
  exact Ring.next_mem (he ▸ hr)

/-- `list_for_each_reverse` comes to the nodes of the ring, in the reverse order. -/
lemma prevWalk_ends (hr : l.Ring h xs) : (l.prevWalk h).Ends (.ok (.inl xs.reverse)) := by
  have hlast : ∀ us : List ι, us.getLastD h = us.reverse.headD h := by
    intro us
    rw [List.getLastD_eq_getLast?, List.headD_eq_head?_getD, List.head?_reverse]
  have hprev : l.prev h = xs.reverse.headD h := by rw [← hlast, hr.prev_head]
  rw [prevWalk, listForEachReverse, hprev]
  refine visit_ends l.prev h (by simpa using hr.head_notMem) fun us x vs he => ?_
  have he' : xs = vs.reverse ++ x :: us.reverse := by
    rw [← List.reverse_reverse xs, he]
    simp
  rw [Ring.prev_mem (he' ▸ hr), hlast, List.reverse_reverse]

lemma listIsEmpty_iff (hr : l.Ring h xs) : l.listIsEmpty h = true ↔ xs = [] := by
  rw [listIsEmpty, decide_eq_true_iff, hr.next_head, hr.prev_head]
  constructor
  · rintro ⟨hhead, -⟩
    cases xs with
    | nil => rfl
    | cons x xs => exact absurd (List.mem_cons.2 (Or.inl hhead.symm)) hr.head_notMem
  · rintro rfl
    exact ⟨rfl, rfl⟩

end Ring

end Links

end DemoClass
