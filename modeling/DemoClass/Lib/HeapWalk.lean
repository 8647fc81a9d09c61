import DemoClass.Lib.Gives
import DemoClass.Lib.NodeHeap

/-!
# Walks over a list in use

A loop that goes from cell to cell of a list in use, and leaves the list as it is, does what going
over the list of its cells does (`Heap.forEach_ends`): `List.mapM` where every cell adds something
(`walk_mapM`), and `List.findM?` where the loop looks for a cell (`walk_findM?`).
-/

namespace DemoClass

/-! ### Walks -/

/-- Going over a list until the statement leaves. -/
def walk {ε σ ρ ι : Type} (f : ι → σ → Except ε (σ ⊕ ρ)) : List ι → σ → Except ε (σ ⊕ ρ)
  | [], s => .ok (.inl s)
  | x :: xs, s => do
    match ← f x s with
    | .inl s => walk f xs s
    | .inr r => .ok (.inr r)

/-- Going over a list where every element adds something. -/
lemma walk_mapM {ε σ ρ ι τ : Type} {f : ι → σ → Except ε (σ ⊕ ρ)} {g : ι → Except ε τ}
    {act : σ → τ → σ} (hf : ∀ x s, f x s = (g x).map fun t => .inl (act s t)) (xs : List ι)
    (s : σ) : walk f xs s = (xs.mapM g).map fun ts => .inl (ts.foldl act s) := by
  induction xs generalizing s with
  | nil => rfl
  | cons x xs ih =>
      rw [walk, hf, List.mapM_cons]
      cases g x with
      | error e => rfl
      | ok t =>
          show walk f xs (act s t) = Except.map _ (xs.mapM g >>= fun ts => pure (t :: ts))
          rw [ih]
          cases xs.mapM g <;> rfl

/-- Going over a list until one is found. -/
lemma walk_findM? {ε σ ρ ι : Type} {f : ι → σ → Except ε (σ ⊕ ρ)} {p : ι → Except ε Bool}
    {r : ι → Except ε ρ}
    (hf : ∀ x s, f x s = p x >>= fun c => if c then (r x).map .inr else .ok (.inl s))
    (xs : List ι) (s : σ) : walk f xs s =
      xs.findM? p >>= fun o => o.elim (.ok (.inl s)) fun x => (r x).map Sum.inr := by
  induction xs with
  | nil => rfl
  | cons x xs ih =>
      rw [walk, hf, List.findM?]
      cases p x with
      | error e => rfl
      | ok c =>
          cases c with
          | false => exact ih
          | true =>
              show ((r x).map Sum.inr >>= fun v => _) = (r x).map Sum.inr
              cases r x <;> rfl

namespace Heap

variable {ι π σ ρ : Type} [DecidableEq ι]

/-- One round of a loop over the cells. -/
def forEachBody (h : Heap ι (Nodes ι π)) (head : ι) (body : ι → σ → Comp MemFault (σ ⊕ ρ))
    (w : ι × σ) : Comp MemFault ((ι × σ) ⊕ (σ ⊕ ρ)) :=
  if w.1 = head then pure (.inr (.inl w.2))
  else do
    match ← body w.1 w.2 with
    | .inl s =>
      let next ← h.readNext w.1
      pure (.inl (next, s))
    | .inr r => pure (.inr (.inr r))

/-- A loop over the cells, which leaves the memory as it is until it is left. -/
def forEach (h : Heap ι (Nodes ι π)) (head : ι) (body : ι → σ → Comp MemFault (σ ⊕ ρ)) (s : σ) :
    Comp MemFault (σ ⊕ ρ) := do
  let first ← h.readNext head
  Comp.loop (h.forEachBody head body) (first, s)

variable {h : Heap ι (Nodes ι π)} {head : ι} {xs ys : List ι}
  {body : ι → σ → Comp MemFault (σ ⊕ ρ)} {f : ι → σ → Except MemFault (σ ⊕ ρ)}

/-- From the cells `ys` on. -/
lemma forEachBody_loop_ends (hl : h.Holds head (xs ++ ys))
    (hbody : ∀ x ∈ ys, ∀ s, (body x s).Ends (f x s)) (s : σ) :
    (Comp.loop (h.forEachBody head body) (ys.headD head, s)).Ends (walk f ys s) := by
  induction ys generalizing xs s with
  | nil =>
      refine Comp.Ends.loop_inr ?_
      rw [forEachBody, if_pos List.headD_nil]
      exact Comp.ends_pure.2 rfl
  | cons y ys ih =>
      have hne : y ≠ head := by
        rintro rfl
        exact hl.ring.head_notMem (by simp)
      have hy := hbody y List.mem_cons_self s
      rw [List.headD_cons, walk]
      cases hf : f y s with
      | error e =>
          rw [hf] at hy
          refine Comp.Ends.loop_fault ?_
          rw [forEachBody, if_neg hne]
          exact hy.bind_fault
      | ok v =>
          rw [hf] at hy
          cases v with
          | inr r =>
              refine Comp.Ends.loop_inr ?_
              rw [forEachBody, if_neg hne]
              exact hy.bind (Comp.ends_pure.2 rfl)
          | inl t =>
              have hlive : h.live y = true := hl.live y (by simp)
              have hnext : h.mem.links.next y = ys.headD head := Links.Ring.next_mem hl.ring
              refine Comp.Ends.loop_inl (t := (ys.headD head, t)) ?_ ?_
              · rw [forEachBody, if_neg hne]
                refine hy.bind (readNext_bind hlive (Comp.ends_pure.2 ?_))
                rw [hnext]
              · have hl' : h.Holds head ((xs ++ [y]) ++ ys) := by simpa using hl
                exact ih hl' (fun x hx => hbody x (List.mem_cons_of_mem y hx)) t

/-- **A loop over the cells of a list in use.** -/
theorem forEach_ends (hl : h.Holds head xs) (hbody : ∀ x ∈ xs, ∀ s, (body x s).Ends (f x s))
    (s : σ) : (h.forEach head body s).Ends (walk f xs s) := by
  refine readNext_bind hl.live_head ?_
  have hl' : h.Holds head ([] ++ xs) := hl
  rw [hl.ring.next_head]
  exact forEachBody_loop_ends hl' hbody s

end Heap

end DemoClass
