import DemoClass.Lib.Ring
import Mathlib.Data.Set.Insert
import Mathlib.Logic.Relation

/-!
# Several circular lists in one link store

The heads in `H` have their lists in one link store, with the sequence `σ h` at the
head `h`, when each of them has its ring and no node is in two rings
(`Links.Rings`).  What is done to one ring leaves the others alone: a node is
spliced into a ring (`Rings.splice`), unlinked from it (`Rings.unlink`), and a node
outside all rings is made a ring of its own (`Rings.newHead`) or stays outside
(`Rings.reset`).  What can be reached from a head is its own ring
(`Ring.reach_iff`).
-/

namespace DemoClass

namespace Links

variable {ι : Type}

/-- Each head in `H` has its ring, and the rings have no node in common. -/
structure Rings (l : Links ι) (H : Set ι) (σ : ι → List ι) : Prop where
  ring : ∀ h ∈ H, l.Ring h (σ h)
  disjoint : ∀ h ∈ H, ∀ h' ∈ H, h ≠ h' → (h :: σ h).Disjoint (h' :: σ h')

/-- `x` is in none of the rings. -/
def Outside (H : Set ι) (σ : ι → List ι) (x : ι) : Prop := ∀ h ∈ H, x ∉ h :: σ h

/-- `b` is found from `a` by following `next`. -/
def Reach (l : Links ι) : ι → ι → Prop := Relation.ReflTransGen fun a b => l.next a = b

variable {l l' : Links ι} {H K : Set ι} {σ τ : ι → List ι} {h h' x a p q : ι} {xs ys zs : List ι}

/-! ### Following the links -/

namespace Ring

lemma next_mem_ring (hr : l.Ring h xs) (hx : x ∈ h :: xs) : l.next x ∈ h :: xs := by
  rcases List.mem_cons.1 hx with rfl | hx
  · rw [hr.next_head]
    cases xs <;> simp
  · obtain ⟨us, vs, rfl⟩ := List.append_of_mem hx
    rw [hr.next_mem]
    cases vs <;> simp

/-- From the head the whole ring is reached, and nothing else. -/
lemma reach_iff (hr : l.Ring h xs) : l.Reach h x ↔ x ∈ h :: xs := by
  constructor
  · intro hreach
    induction hreach with
    | refl => exact List.mem_cons_self
    | tail _ hb ih => exact hb ▸ hr.next_mem_ring ih
  · -- along the ring, one node after the other
    have hprefix : ∀ us vs, xs = us ++ vs → l.Reach h (us.getLastD h) := by
      intro us
      induction us using List.reverseRecOn with
      | nil => exact fun _ _ => .refl
      | append_singleton us u ih =>
          rintro vs rfl
          have hr' : l.Ring h (us ++ u :: vs) := by simpa using hr
          rw [List.getLastD_concat]
          exact (ih (u :: vs) (by simp)).tail hr'.adj.1
    intro hx
    rcases List.mem_cons.1 hx with rfl | hx
    · exact .refl
    · obtain ⟨us, vs, rfl⟩ := List.append_of_mem hx
      simpa using hprefix (us ++ [x]) vs (by simp)

end Ring

/-! ### Rings -/

lemma rings_empty (l : Links ι) (σ : ι → List ι) : l.Rings ∅ σ :=
  ⟨fun _ hh => hh.elim, fun _ hh => hh.elim⟩

namespace Rings

lemma mono (hr : l.Rings H σ) (hK : K ⊆ H) : l.Rings K σ :=
  ⟨fun h hh => hr.ring h (hK hh), fun h hh h' hh' => hr.disjoint h (hK hh) h' (hK hh')⟩

lemma congr_seq (hr : l.Rings H σ) (hτ : ∀ h ∈ H, τ h = σ h) : l.Rings H τ := by
  refine ⟨fun h hh => (hτ h hh) ▸ hr.ring h hh, fun h hh h' hh' hne => ?_⟩
  rw [hτ h hh, hτ h' hh']
  exact hr.disjoint h hh h' hh' hne

/-- A node is in one ring only. -/
lemma head_eq (hr : l.Rings H σ) (hh : h ∈ H) (hh' : h' ∈ H) (hx : x ∈ h :: σ h)
    (hx' : x ∈ h' :: σ h') : h = h' := by
  by_contra hne
  exact hr.disjoint h hh h' hh' hne hx hx'

lemma head_notMem (hr : l.Rings H σ) (hh : h ∈ H) (hh' : h' ∈ H) : h ∉ σ h' := by
  intro hmem
  obtain rfl := hr.head_eq hh hh' List.mem_cons_self (List.mem_cons_of_mem _ hmem)
  exact (hr.ring h hh).head_notMem hmem

/-- Nothing is reached from two heads. -/
lemma not_reach (hr : l.Rings H σ) (hh : h ∈ H) (hh' : h' ∈ H) (hne : h ≠ h')
    (hx : l.Reach h x) : ¬ l.Reach h' x := fun hx' =>
  hne (hr.head_eq hh hh' ((hr.ring h hh).reach_iff.1 hx) ((hr.ring h' hh').reach_iff.1 hx'))

end Rings

/-! ### Operations -/

variable [DecidableEq ι]

/-- Make `x` its own successor and predecessor. -/
def selfLink (l : Links ι) (x : ι) : Links ι := (l.setNext x x).setPrev x x

lemma ring_selfLink (l : Links ι) (x : ι) : (l.selfLink x).Ring x [] :=
  ⟨by simp, List.isChain_cons_cons.2 ⟨⟨by simp [selfLink], by simp [selfLink]⟩, by simp⟩⟩

lemma spliceIn_next_of_ne (hx : a ≠ x) (hp : a ≠ p) : (l.spliceIn x p q).next a = l.next a := by
  simp [spliceIn, hx, hp]

lemma spliceIn_prev_of_ne (hx : a ≠ x) (hq : a ≠ q) : (l.spliceIn x p q).prev a = l.prev a := by
  simp [spliceIn, hx, hq]

namespace Rings

/-- One ring is rewritten, and the links of the other rings stay as they are. -/
lemma update (hr : l.Rings H σ) (hh : h ∈ H) (hring : l'.Ring h ys)
    (hframe : ∀ h' ∈ H, h' ≠ h → ∀ a ∈ h' :: σ h', l'.next a = l.next a ∧ l'.prev a = l.prev a)
    (hdisj : ∀ h' ∈ H, h' ≠ h → (h :: ys).Disjoint (h' :: σ h')) :
    l'.Rings H (Function.update σ h ys) := by
  refine ⟨fun h₁ hh₁ => ?_, fun h₁ hh₁ h₂ hh₂ hne => ?_⟩
  · by_cases he : h₁ = h
    · subst he
      rwa [Function.update_self]
    · rw [Function.update_of_ne he]
      exact (hr.ring h₁ hh₁).congr (fun a ha => (hframe h₁ hh₁ he a ha).1)
        fun a ha => (hframe h₁ hh₁ he a ha).2
  · by_cases he₁ : h₁ = h
    · subst he₁
      rw [Function.update_self, Function.update_of_ne (Ne.symm hne)]
      exact hdisj h₂ hh₂ (Ne.symm hne)
    · rw [Function.update_of_ne he₁]
      by_cases he₂ : h₂ = h
      · subst he₂
        rw [Function.update_self]
        exact fun a ha hb => hdisj h₁ hh₁ he₁ hb ha
      · rw [Function.update_of_ne he₂]
        exact hr.disjoint h₁ hh₁ h₂ hh₂ hne

/-- Splicing a node that is in no ring into one of them. -/
lemma splice (hr : l.Rings H σ) (hh : h ∈ H) (hσ : σ h = xs ++ ys) (hx : Outside H σ x) :
    (l.spliceIn x (xs.getLastD h) (ys.headD h)).Rings H
      (Function.update σ h (xs ++ x :: ys)) := by
  have hring : l.Ring h (xs ++ ys) := hσ ▸ hr.ring h hh
  have hp : xs.getLastD h ∈ h :: σ h := by
    rw [hσ, ← List.cons_append]
    exact List.mem_append_left _ List.getLastD_mem_cons
  have hq : ys.headD h ∈ h :: σ h := by
    rw [hσ]
    cases ys <;> simp
  refine hr.update hh (hring.splice (hσ ▸ hx h hh)) (fun h' hh' hne a ha => ?_)
    (fun h' hh' hne => ?_)
  · have hax : a ≠ x := fun he => hx h' hh' (he ▸ ha)
    have hap : a ≠ xs.getLastD h := fun he => hne (hr.head_eq hh' hh ha (he ▸ hp))
    have haq : a ≠ ys.headD h := fun he => hne (hr.head_eq hh' hh ha (he ▸ hq))
    exact ⟨spliceIn_next_of_ne hax hap, spliceIn_prev_of_ne hax haq⟩
  · intro a ha hb
    have hmem : a = x ∨ a ∈ h :: σ h := by
      rw [hσ]
      simp only [List.mem_cons, List.mem_append] at ha ⊢
      tauto
    rcases hmem with rfl | ha
    · exact hx h' hh' hb
    · exact hne (hr.head_eq hh' hh hb ha)

/-- Unlinking a node from its ring. -/
lemma unlink (hr : l.Rings H σ) (hh : h ∈ H) (hσ : σ h = xs ++ x :: ys) :
    (l.unlink x).Rings H (Function.update σ h (xs ++ ys)) := by
  have hring : l.Ring h (xs ++ x :: ys) := hσ ▸ hr.ring h hh
  have hp : l.prev x ∈ h :: σ h := by
    rw [hring.prev_mem, hσ, ← List.cons_append]
    exact List.mem_append_left _ List.getLastD_mem_cons
  have hq : l.next x ∈ h :: σ h := hr.ring h hh |>.next_mem_ring (by simp [hσ])
  have hpx : x ≠ l.prev x := by
    rw [hring.prev_mem]
    intro he
    have hmem : x ∈ h :: xs := he ▸ List.getLastD_mem_cons
    exact (List.nodup_middle.1 (show ((h :: xs) ++ x :: ys).Nodup from hring.nodup)).notMem
      (List.mem_append_left _ hmem)
  refine hr.update hh hring.unlink (fun h' hh' hne a ha => ?_) (fun h' hh' hne a ha hb => ?_)
  · have hap : a ≠ l.prev x := fun he => hne (hr.head_eq hh' hh ha (he ▸ hp))
    have haq : a ≠ l.next x := fun he => hne (hr.head_eq hh' hh ha (he ▸ hq))
    constructor
    · simp [Links.unlink, Function.update_of_ne hap]
    · simp [Links.unlink, Function.update_of_ne hpx, Function.update_of_ne haq]
  · refine hne (hr.head_eq hh' hh hb ?_)
    rw [hσ]
    simp only [List.mem_cons, List.mem_append] at ha ⊢
    tauto

lemma selfLink_ring (hr : l.Rings H σ) (hx : Outside H σ x) (hh : h ∈ H) :
    (l.selfLink x).Ring h (σ h) := by
  have hne : ∀ a ∈ h :: σ h, a ≠ x := fun a ha he => hx h hh (he ▸ ha)
  refine (hr.ring h hh).congr ?_ ?_ <;> intro a ha <;>
    simp [selfLink, Function.update_of_ne (hne a ha)]

/-- A node outside the rings may be reset. -/
lemma reset (hr : l.Rings H σ) (hx : Outside H σ x) : (l.selfLink x).Rings H σ :=
  ⟨fun _ hh => hr.selfLink_ring hx hh, hr.disjoint⟩

/-- A node outside the rings becomes the head of an empty one. -/
lemma newHead (hr : l.Rings H σ) (hx : Outside H σ x) :
    (l.selfLink x).Rings (insert x H) (Function.update σ x []) := by
  have hσ : ∀ h ∈ H, Function.update σ x [] h = σ h := by
    intro h hh
    have hne : h ≠ x := fun he => hx h hh (by simp [he])
    rw [Function.update_of_ne hne]
  have hd : ∀ h ∈ H, (h :: σ h).Disjoint [x] := by
    intro h hh a ha hax
    obtain rfl : a = x := by simpa using hax
    exact hx h hh ha
  refine ⟨fun h hh => ?_, fun h₁ hh₁ h₂ hh₂ hne => ?_⟩
  · rcases hh with rfl | hh
    · rw [Function.update_self]
      exact ring_selfLink l h
    · rw [hσ h hh]
      exact hr.selfLink_ring hx hh
  · rcases hh₁ with rfl | hh₁ <;> rcases hh₂ with rfl | hh₂
    · exact absurd rfl hne
    · rw [Function.update_self, hσ h₂ hh₂]
      exact fun a ha hb => hd h₂ hh₂ hb ha
    · rw [Function.update_self, hσ h₁ hh₁]
      exact hd h₁ hh₁
    · rw [hσ h₁ hh₁, hσ h₂ hh₂]
      exact hr.disjoint h₁ hh₁ h₂ hh₂ hne

end Rings

end Links

end DemoClass
