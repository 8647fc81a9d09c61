import DemoClass.KernelList.ForEach
import DemoClass.Lib.Rings

/-!
# Several lists at once

Any number of list heads, each initialised by `list_head_init`, and any sequence of
`list_add`, `list_add_tail`, `list_del` and `list_del_init` on them.  What a call
makes of the sequences of the heads is `HeadOp.onSeq`; the links follow it
(`Rings.runOp`, `Rings.run`), so that at every moment each head has the ring of its
sequence (`run_refines`).
-/

namespace DemoClass

namespace Links

variable {ι : Type} [DecidableEq ι]

namespace Rings

variable {l : Links ι} {H : Set ι} {σ : ι → List ι} {h x : ι}

lemma listHeadInit (hr : l.Rings H σ) (hx : Outside H σ x) :
    (l.listHeadInit x).Rings (insert x H) (Function.update σ x []) := hr.newHead hx

lemma listAdd (hr : l.Rings H σ) (hh : h ∈ H) (hx : Outside H σ x) :
    (l.listAdd h x).Rings H (Function.update σ h (x :: σ h)) := by
  have hs := hr.splice hh (show σ h = [] ++ σ h from rfl) hx
  rw [← (hr.ring h hh).next_head] at hs
  exact hs

lemma listAddTail (hr : l.Rings H σ) (hh : h ∈ H) (hx : Outside H σ x) :
    (l.listAddTail h x).Rings H (Function.update σ h (σ h ++ [x])) := by
  have hs := hr.splice hh (List.append_nil (σ h)).symm hx
  rw [← (hr.ring h hh).prev_head] at hs
  exact hs

/-- The node is removed from the sequence it is in. -/
lemma listDel (hr : l.Rings H σ) (hh : h ∈ H) (hx : x ∈ σ h) :
    (l.listDel x).Rings H (fun h => (σ h).erase x) := by
  obtain ⟨xs, ys, hσ⟩ := List.append_of_mem hx
  refine (hr.unlink hh hσ).congr_seq fun h' hh' => ?_
  by_cases he : h' = h
  · subst he
    have hnotMem : x ∉ xs := by
      have hn := (List.nodup_cons.1 (hr.ring h' hh).nodup).2
      rw [hσ] at hn
      exact fun hmem => (List.nodup_middle.1 hn).notMem (List.mem_append_left _ hmem)
    rw [Function.update_self, hσ, List.erase_append_right _ hnotMem, List.erase_cons_head]
  · rw [Function.update_of_ne he]
    refine List.erase_of_not_mem fun hmem => he ?_
    exact hr.head_eq hh' hh (List.mem_cons_of_mem _ hmem) (List.mem_cons_of_mem _ hx)

lemma outside_erase (hr : l.Rings H σ) (hh : h ∈ H) (hx : x ∈ σ h) :
    Outside H (fun h => (σ h).erase x) x := by
  intro h' hh' hmem
  rcases List.mem_cons.1 hmem with rfl | hmem
  · exact hr.head_notMem hh' hh hx
  · have hn := (List.nodup_cons.1 (hr.ring h' hh').nodup).2
    exact hn.not_mem_erase hmem

lemma listDelInit (hr : l.Rings H σ) (hh : h ∈ H) (hx : x ∈ σ h) :
    (l.listDelInit x).Rings H (fun h => (σ h).erase x) :=
  (hr.listDel hh hx).reset (hr.outside_erase hh hx)

end Rings

/-! ### Runs -/

/-- A call that changes a list. -/
inductive HeadOp (ι : Type)
  | add (head node : ι)
  | addTail (head node : ι)
  | del (node : ι)
  | delInit (node : ι)

namespace HeadOp

/-- The call. -/
def run (l : Links ι) : HeadOp ι → Links ι
  | .add h x => l.listAdd h x
  | .addTail h x => l.listAddTail h x
  | .del x => l.listDel x
  | .delInit x => l.listDelInit x

/-- What the call makes of the sequences of the heads. -/
def onSeq (σ : ι → List ι) : HeadOp ι → ι → List ι
  | .add h x => Function.update σ h (x :: σ h)
  | .addTail h x => Function.update σ h (σ h ++ [x])
  | .del x => fun h => (σ h).erase x
  | .delInit x => fun h => (σ h).erase x

/-- A node that is in no list is added to one of the heads, or a node that is in a
list is removed. -/
def Allowed (heads : List ι) (σ : ι → List ι) : HeadOp ι → Prop
  | .add h x => h ∈ heads ∧ ∀ h ∈ heads, x ∉ h :: σ h
  | .addTail h x => h ∈ heads ∧ ∀ h ∈ heads, x ∉ h :: σ h
  | .del x => ∃ h ∈ heads, x ∈ σ h
  | .delInit x => ∃ h ∈ heads, x ∈ σ h

instance (heads : List ι) (σ : ι → List ι) : DecidablePred (Allowed heads σ)
  | .add h x => inferInstanceAs (Decidable (h ∈ heads ∧ ∀ h ∈ heads, x ∉ h :: σ h))
  | .addTail h x => inferInstanceAs (Decidable (h ∈ heads ∧ ∀ h ∈ heads, x ∉ h :: σ h))
  | .del x => inferInstanceAs (Decidable (∃ h ∈ heads, x ∈ σ h))
  | .delInit x => inferInstanceAs (Decidable (∃ h ∈ heads, x ∈ σ h))

end HeadOp

/-- Every call is allowed when its turn comes. -/
def AllAllowed (heads : List ι) : (ι → List ι) → List (HeadOp ι) → Prop
  | _, [] => True
  | σ, op :: ops => op.Allowed heads σ ∧ AllAllowed heads (op.onSeq σ) ops

instance (heads : List ι) : ∀ σ ops, Decidable (AllAllowed heads σ ops)
  | _, [] => isTrue trivial
  | σ, op :: ops =>
    have := instDecidableAllAllowed heads (op.onSeq σ) ops
    inferInstanceAs (Decidable (op.Allowed heads σ ∧ AllAllowed heads (op.onSeq σ) ops))

/-- `list_head_init` of each head. -/
def initHeads (l : Links ι) (heads : List ι) : Links ι := heads.foldl listHeadInit l

/-- The calls one after the other. -/
def run (l : Links ι) (ops : List (HeadOp ι)) : Links ι := ops.foldl HeadOp.run l

/-- The sequences of the heads after the calls. -/
def seqs (ops : List (HeadOp ι)) : ι → List ι := ops.foldl HeadOp.onSeq fun _ => []

namespace Rings

variable {l : Links ι} {heads : List ι} {σ : ι → List ι}

/-- Heads that are in none of the rings become heads of empty ones. -/
lemma newHeads {H : Set ι} (hr : l.Rings H σ) (hn : heads.Nodup)
    (hx : ∀ h ∈ heads, Outside H σ h) : (l.initHeads heads).Rings (H ∪ {h | h ∈ heads})
      fun h => if h ∈ heads then [] else σ h := by
  induction heads generalizing l H σ with
  | nil => simpa [Links.initHeads] using hr
  | cons h hs ih =>
      rw [List.nodup_cons] at hn
      have hout : ∀ h' ∈ hs, Outside (insert h H) (Function.update σ h []) h' := by
        intro h' hh' h'' hmem hx'
        have hne : h' ≠ h := fun he => hn.1 (he ▸ hh')
        rcases hmem with rfl | hmem
        · simp [hne] at hx'
        · by_cases he : h'' = h
          · subst he
            simp [hne] at hx'
          · rw [Function.update_of_ne he] at hx'
            exact hx h' (List.mem_cons_of_mem _ hh') h'' hmem hx'
      have hr' := ih (hr.listHeadInit (hx h List.mem_cons_self)) hn.2 hout
      refine (hr'.mono ?_).congr_seq fun h' _ => ?_
      · rintro h' (hh' | hh')
        · exact Or.inl (Or.inr hh')
        · rcases List.mem_cons.1 hh' with rfl | hh'
          · exact Or.inl (Or.inl rfl)
          · exact Or.inr hh'
      · by_cases he : h' = h
        · simp [he]
        · simp [he]

lemma initHeads (l : Links ι) (hn : heads.Nodup) :
    (l.initHeads heads).Rings {h | h ∈ heads} fun _ => [] := by
  have hr := (rings_empty l fun _ => []).newHeads hn fun _ _ _ hh => hh.elim
  simpa using hr

/-- One call. -/
lemma runOp (hr : l.Rings {h | h ∈ heads} σ) {op : HeadOp ι} (hop : op.Allowed heads σ) :
    (op.run l).Rings {h | h ∈ heads} (op.onSeq σ) := by
  cases op with
  | add h x => exact hr.listAdd hop.1 hop.2
  | addTail h x => exact hr.listAddTail hop.1 hop.2
  | del x =>
      obtain ⟨h, hh, hx⟩ := hop
      exact hr.listDel hh hx
  | delInit x =>
      obtain ⟨h, hh, hx⟩ := hop
      exact hr.listDelInit hh hx

/-- A run: the links follow the sequences. -/
lemma run {ops : List (HeadOp ι)} (hr : l.Rings {h | h ∈ heads} σ)
    (hops : AllAllowed heads σ ops) :
    (l.run ops).Rings {h | h ∈ heads} (ops.foldl HeadOp.onSeq σ) := by
  induction ops generalizing l σ with
  | nil => exact hr
  | cons op ops ih => exact ih (hr.runOp hops.1) hops.2

end Rings

/-- **Runs of several lists.**  After any calls, going round from a head by `next`
visits the sequence of the head and comes back to it, going round by `prev` visits
the reverse sequence, no node is reached from two heads, and `list_is_empty` tells
whether the sequence is empty. -/
theorem run_refines (l : Links ι) (heads : List ι) (hn : heads.Nodup) (ops : List (HeadOp ι))
    (hops : AllAllowed heads (fun _ => []) ops) (h : ι) (hh : h ∈ heads) :
    (((l.initHeads heads).run ops).nextWalk h).Ends (.ok (.inl (seqs ops h))) ∧
      (((l.initHeads heads).run ops).prevWalk h).Ends (.ok (.inl (seqs ops h).reverse)) ∧
      (((l.initHeads heads).run ops).listIsEmpty h = true ↔ seqs ops h = []) ∧
      ∀ h' ∈ heads, h ≠ h' → ∀ x, ((l.initHeads heads).run ops).Reach h x →
        ¬ ((l.initHeads heads).run ops).Reach h' x := by
  have hr := (Rings.initHeads l hn).run hops
  have hring := hr.ring h hh
  exact ⟨hring.nextWalk_ends, hring.prevWalk_ends, hring.listIsEmpty_iff,
    fun h' hh' hne x hx => hr.not_reach hh hh' hne hx⟩

/-- Two heads; a node is moved from the one to the other, and the only node of a
list is taken out and put back. -/
theorem run_refines_two :
    ((((⟨id, id⟩ : Links ℕ).initHeads [0, 1]).run [.add 0 5, .addTail 0 6, .del 5, .addTail 1 5,
      .delInit 6, .add 0 6, .add 1 7]).nextWalk 1).Ends (.ok (.inl [7, 5])) :=
  (run_refines ⟨id, id⟩ [0, 1] (by decide) [.add 0 5, .addTail 0 6, .del 5, .addTail 1 5,
    .delInit 6, .add 0 6, .add 1 7] (by decide) 1 (by decide)).1

end Links

end DemoClass
