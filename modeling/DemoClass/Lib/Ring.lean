import DemoClass.Lib.Segment
import Mathlib.Data.List.Chain
import Mathlib.Data.List.Nodup
import Mathlib.Logic.Function.Basic

/-!
# Circular doubly linked lists in a link store

A link store gives every node a successor and a predecessor.  A head `h` and the
sequence `xs` form a ring in the store, `Links.Ring l h xs`, when going round from
`h` by `next` visits exactly `xs` and comes back to `h`, `prev` undoes `next` at
every step, and no node occurs twice.  The two operations are `spliceIn`, which
links a node between two neighbours, and `unlink`; `Ring.splice` and
`Ring.unlink` say what they do to the sequence of a ring.
-/

namespace DemoClass

/-- The `next` and `prev` links of all nodes. -/
structure Links (ι : Type) where
  next : ι → ι
  prev : ι → ι

namespace Links

variable {ι : Type}

/-- `b` follows `a`, in both directions. -/
def Adj (l : Links ι) (a b : ι) : Prop := l.next a = b ∧ l.prev b = a

/-- Going round from `h` visits `xs`, each node once, and comes back to `h`. -/
structure Ring (l : Links ι) (h : ι) (xs : List ι) : Prop where
  nodup : (h :: xs).Nodup
  chain : (h :: (xs ++ [h])).IsChain l.Adj

variable [DecidableEq ι]

def setNext (l : Links ι) (a b : ι) : Links ι := { l with next := Function.update l.next a b }

def setPrev (l : Links ι) (a b : ι) : Links ι := { l with prev := Function.update l.prev a b }

@[simp] lemma setNext_next (l : Links ι) (a b : ι) :
    (l.setNext a b).next = Function.update l.next a b := rfl

@[simp] lemma setNext_prev (l : Links ι) (a b : ι) : (l.setNext a b).prev = l.prev := rfl

@[simp] lemma setPrev_prev (l : Links ι) (a b : ι) :
    (l.setPrev a b).prev = Function.update l.prev a b := rfl

@[simp] lemma setPrev_next (l : Links ι) (a b : ι) : (l.setPrev a b).next = l.next := rfl

/-- Link `x` between `p` and `q`. -/
def spliceIn (l : Links ι) (x p q : ι) : Links ι :=
  (((l.setNext x q).setPrev x p).setPrev q x).setNext p x

/-- Link the neighbours of `x` to each other. -/
def unlink (l : Links ι) (x : ι) : Links ι :=
  let l := l.setNext (l.prev x) (l.next x)
  l.setPrev (l.next x) (l.prev x)

/-- Of `x` itself this writes what is there already. -/
lemma prev_setPrev_next (l : Links ι) (x : ι) :
    (l.setPrev (l.next x) (l.prev x)).prev x = l.prev x := by
  rw [setPrev_prev, Function.update_apply, ite_eq_right_iff]
  exact fun _ => rfl

/-- The two assignments of `unlink`, the other way round. -/
lemma setNext_setPrev_eq_unlink (l : Links ι) (x : ι) :
    (l.setPrev (l.next x) (l.prev x)).setNext (l.prev x) (l.next x) = l.unlink x := by
  have hnext : Function.update l.next (l.prev x) (l.next x) x = l.next x := by
    rw [Function.update_apply, ite_eq_right_iff]
    exact fun _ => rfl
  simp only [unlink, setPrev, setNext, hnext]

/-! ### Chains -/

omit [DecidableEq ι] in
lemma isChain_congr {l l' : Links ι} {xs : List ι} (hn : ∀ a ∈ xs.dropLast, l'.next a = l.next a)
    (hp : ∀ b ∈ xs.tail, l'.prev b = l.prev b) (h : xs.IsChain l.Adj) : xs.IsChain l'.Adj := by
  induction xs with
  | nil => simp
  | cons a xs ih =>
      cases xs with
      | nil => simp
      | cons b xs =>
          rw [List.isChain_cons_cons] at h ⊢
          refine ⟨⟨?_, ?_⟩, ih ?_ ?_ h.2⟩
          · rw [hn a (by simp)]
            exact h.1.1
          · rw [hp b (by simp)]
            exact h.1.2
          · intro c hc
            exact hn c (by simp [hc])
          · intro c hc
            exact hp c (by simpa using Or.inr hc)

omit [DecidableEq ι] in
/-- In a chain, a node that occurs once in front of the end is neither before nor behind its
place. -/
lemma notMem_of_dropLast {us vs : List ι} {p q : ι} (hs : (us ++ p :: q :: vs).dropLast.Nodup) :
    p ∉ us ∧ p ∉ (q :: vs).dropLast := by
  rw [List.dropLast_append_of_ne_nil (by simp), List.dropLast_cons_of_ne_nil (by simp)] at hs
  simpa [not_or] using (List.nodup_cons.1 (List.nodup_middle.1 hs)).1

omit [DecidableEq ι] in
lemma notMem_of_tail {us vs : List ι} {p q : ι} (ht : (us ++ p :: q :: vs).tail.Nodup) :
    q ∉ (us ++ [p]).tail ∧ q ∉ vs := by
  have he : (us ++ p :: q :: vs).tail = (us ++ [p]).tail ++ q :: vs := by
    cases us <;> simp
  rw [he] at ht
  simpa [not_or] using (List.nodup_cons.1 (List.nodup_middle.1 ht)).1

/-- Splicing in a fresh node lengthens a chain in which `p` and `q` are linked
only once. -/
lemma isChain_spliceIn {l : Links ι} {us vs : List ι} {p q x : ι}
    (h : (us ++ p :: q :: vs).IsChain l.Adj) (hs : (us ++ p :: q :: vs).dropLast.Nodup)
    (ht : (us ++ p :: q :: vs).tail.Nodup) (hx : x ∉ us ++ p :: q :: vs) :
    (us ++ p :: x :: q :: vs).IsChain (l.spliceIn x p q).Adj := by
  rw [List.isChain_append_cons_cons] at h ⊢
  obtain ⟨h₁, -, h₂⟩ := h
  obtain ⟨hpu, hpv⟩ := notMem_of_dropLast hs
  obtain ⟨hqu, hqv⟩ := notMem_of_tail ht
  have hxp : x ≠ p := fun he => hx (by simp [he])
  have hxq : x ≠ q := fun he => hx (by simp [he])
  refine ⟨isChain_congr ?_ ?_ h₁, ⟨by simp [spliceIn], by simp [spliceIn, hxq]⟩,
    List.isChain_cons_cons.2 ⟨⟨by simp [spliceIn, hxp], by simp [spliceIn]⟩,
      isChain_congr ?_ ?_ h₂⟩⟩
  · intro a ha
    have ha' : a ∈ us := by simpa using ha
    have hap : a ≠ p := fun he => hpu (he ▸ ha')
    have hax : a ≠ x := fun he => hx (by simp [← he, ha'])
    simp [spliceIn, hap, hax]
  · intro b hb
    have hbm : b ∈ us ++ [p] := List.mem_of_mem_tail hb
    have hbq : b ≠ q := fun he => hqu (he ▸ hb)
    have hbx : b ≠ x := by
      rintro rfl
      rcases List.mem_append.1 hbm with hb' | hb'
      · exact hx (by simp [hb'])
      · exact hxp (by simpa using hb')
    simp [spliceIn, hbq, hbx]
  · intro a ha
    have ham : a ∈ q :: vs := List.dropLast_subset _ ha
    have hap : a ≠ p := fun he => hpv (he ▸ ha)
    have hax : a ≠ x := by
      rintro rfl
      exact hx (List.mem_append_right _ (List.mem_cons_of_mem _ ham))
    simp [spliceIn, hap, hax]
  · intro b hb
    have hb' : b ∈ vs := by simpa using hb
    have hbq : b ≠ q := fun he => hqv (he ▸ hb')
    have hbx : b ≠ x := fun he => hx (by simp [← he, hb'])
    simp [spliceIn, hbq, hbx]

/-- Unlinking a node shortens a chain in which its neighbours are linked only
once. -/
lemma isChain_unlink {l : Links ι} {us vs : List ι} {p q x : ι}
    (h : (us ++ p :: x :: q :: vs).IsChain l.Adj) (hs : (us ++ p :: x :: q :: vs).dropLast.Nodup)
    (ht : (us ++ p :: x :: q :: vs).tail.Nodup) :
    (us ++ p :: q :: vs).IsChain (l.unlink x).Adj := by
  rw [List.isChain_append_cons_cons, List.isChain_cons_cons] at h
  rw [List.isChain_append_cons_cons]
  obtain ⟨h₁, hpx, hxq, h₂⟩ := h
  obtain ⟨hpu, hpv⟩ := notMem_of_dropLast hs
  have ht' : ((us ++ [p]) ++ x :: q :: vs).tail.Nodup := by
    simpa using ht
  obtain ⟨hqu, hqv⟩ := notMem_of_tail ht'
  rw [List.tail_append_of_ne_nil (by simp), List.mem_append, not_or] at hqu
  have hxp : x ≠ p := fun he => hpv (by simp [he])
  have hnext : (l.unlink x).next = Function.update l.next p q := by
    simp [unlink, hpx.2, hxq.1]
  have hprev : (l.unlink x).prev = Function.update l.prev q p := by
    simp [unlink, hpx.2, hxq.1, hxp]
  refine ⟨isChain_congr ?_ ?_ h₁, ⟨by simp [hnext], by simp [hprev]⟩,
    isChain_congr ?_ ?_ h₂⟩
  · intro a ha
    have ha' : a ∈ us := by simpa using ha
    have hap : a ≠ p := fun he => hpu (he ▸ ha')
    simp [hnext, hap]
  · intro b hb
    have hbq : b ≠ q := fun he => hqu.1 (he ▸ hb)
    simp [hprev, hbq]
  · intro a ha
    have hap : a ≠ p := by
      rintro rfl
      exact hpv (by simp [ha])
    simp [hnext, hap]
  · intro b hb
    have hbq : b ≠ q := fun he => hqv (by simpa [he] using hb)
    simp [hprev, hbq]

/-! ### Writing within a set of nodes -/

/-- Outside `S` the links are as before, and from `S` no link leads out of it. -/
structure Within (S : Set ι) (l l' : Links ι) : Prop where
  closed : ∀ a ∈ S, l'.next a ∈ S ∧ l'.prev a ∈ S
  frame : ∀ a ∉ S, l'.next a = l.next a ∧ l'.prev a = l.prev a

namespace Within

variable {S : Set ι} {l l' : Links ι} {a b : ι}

lemma setNext (h : Within S l l') (ha : a ∈ S) (hb : b ∈ S) : Within S l (l'.setNext a b) := by
  refine ⟨fun x hx => ⟨?_, (h.closed x hx).2⟩, fun x hx => ⟨?_, (h.frame x hx).2⟩⟩
  · rw [setNext_next, Function.update_apply]
    split
    · exact hb
    · exact (h.closed x hx).1
  · rw [setNext_next, Function.update_of_ne fun he : x = a => hx (he ▸ ha)]
    exact (h.frame x hx).1

lemma setPrev (h : Within S l l') (ha : a ∈ S) (hb : b ∈ S) : Within S l (l'.setPrev a b) := by
  refine ⟨fun x hx => ⟨(h.closed x hx).1, ?_⟩, fun x hx => ⟨(h.frame x hx).1, ?_⟩⟩
  · rw [setPrev_prev, Function.update_apply]
    split
    · exact hb
    · exact (h.closed x hx).2
  · rw [setPrev_prev, Function.update_of_ne fun he : x = a => hx (he ▸ ha)]
    exact (h.frame x hx).2

/-- A node of `S` moves behind another one. -/
lemma spliceIn_next (h : Within S l l') (ha : a ∈ S) (hb : b ∈ S) :
    Within S l (l'.spliceIn a b (l'.next b)) :=
  have hn := (h.closed b hb).1
  (((h.setNext ha hn).setPrev ha hb).setPrev hn ha).setNext hb ha

lemma unlink (h : Within S l l') (ha : a ∈ S) : Within S l (l'.unlink a) := by
  have h₁ := h.setNext (h.closed a ha).2 (h.closed a ha).1
  exact h₁.setPrev (h₁.closed a ha).1 (h₁.closed a ha).2

end Within

/-! ### Rings -/

namespace Ring

variable {l l' : Links ι} {h x : ι} {xs ys : List ι}

omit [DecidableEq ι] in
lemma exists_first (h : ι) (ys : List ι) : ∃ vs, ys ++ [h] = ys.headD h :: vs := by
  cases ys with
  | nil => exact ⟨[], rfl⟩
  | cons y ys => exact ⟨ys ++ [h], rfl⟩

omit [DecidableEq ι] in
lemma nodup_dropLast (hr : l.Ring h xs) : (h :: (xs ++ [h])).dropLast.Nodup := by
  have he : (h :: (xs ++ [h])).dropLast = h :: xs := by
    rw [← List.cons_append, List.dropLast_concat]
  rw [he]
  exact hr.nodup

omit [DecidableEq ι] in
lemma nodup_tail (hr : l.Ring h xs) : (h :: (xs ++ [h])).tail.Nodup := by
  have hn := List.nodup_cons.1 hr.nodup
  simpa [List.nodup_append] using ⟨hn.2, fun a ha he => hn.1 (he ▸ ha)⟩

omit [DecidableEq ι] in
/-- A ring, cut open between two neighbours. -/
lemma chain_split (hr : l.Ring h (xs ++ ys)) :
    ∃ us vs, h :: (xs ++ ys ++ [h]) = us ++ xs.getLastD h :: ys.headD h :: vs ∧
      h :: xs = us ++ [xs.getLastD h] ∧ ys ++ [h] = ys.headD h :: vs ∧
      (us ++ xs.getLastD h :: ys.headD h :: vs).IsChain l.Adj := by
  obtain ⟨us, hus⟩ := Seg.exists_last h xs
  obtain ⟨vs, hvs⟩ := exists_first h ys
  have he : h :: (xs ++ ys ++ [h]) = us ++ xs.getLastD h :: ys.headD h :: vs := by
    rw [List.append_assoc, hvs, ← List.cons_append, hus, List.append_assoc]
    rfl
  exact ⟨us, vs, he, hus, hvs, he ▸ hr.chain⟩

omit [DecidableEq ι] in
lemma adj (hr : l.Ring h (xs ++ ys)) : l.Adj (xs.getLastD h) (ys.headD h) := by
  obtain ⟨us, vs, -, -, -, hc⟩ := hr.chain_split
  exact (List.isChain_append_cons_cons.1 hc).2.1

omit [DecidableEq ι] in
lemma next_head (hr : l.Ring h xs) : l.next h = xs.headD h := by
  have hr' : l.Ring h ([] ++ xs) := hr
  exact hr'.adj.1

omit [DecidableEq ι] in
lemma prev_head (hr : l.Ring h xs) : l.prev h = xs.getLastD h := by
  have hr' : l.Ring h (xs ++ []) := by simpa using hr
  exact hr'.adj.2

omit [DecidableEq ι] in
lemma next_mem (hr : l.Ring h (xs ++ x :: ys)) : l.next x = ys.headD h := by
  have hr' : l.Ring h ((xs ++ [x]) ++ ys) := by simpa using hr
  simpa using hr'.adj.1

omit [DecidableEq ι] in
lemma prev_mem (hr : l.Ring h (xs ++ x :: ys)) : l.prev x = xs.getLastD h := hr.adj.2

omit [DecidableEq ι] in
lemma head_notMem (hr : l.Ring h xs) : h ∉ xs := (List.nodup_cons.1 hr.nodup).1

omit [DecidableEq ι] in
/-- No node occurs twice. -/
lemma notMem_rest (hr : l.Ring h (xs ++ x :: ys)) : x ∉ h :: (xs ++ ys) :=
  (List.nodup_cons.1 ((Seg.perm_behind h x xs ys).nodup_iff.1 hr.nodup)).1

omit [DecidableEq ι] in
/-- The links determine the sequence. -/
lemma unique (hr : l.Ring h xs) (hr' : l.Ring h ys) : xs = ys := by
  suffices hchain : ∀ (xs ys : List ι) (a : ι), h ∉ xs → h ∉ ys → (a :: (xs ++ [h])).IsChain l.Adj →
      (a :: (ys ++ [h])).IsChain l.Adj → xs = ys from
    hchain xs ys h hr.head_notMem hr'.head_notMem hr.chain hr'.chain
  intro xs
  induction xs with
  | nil =>
      intro ys a _ hy hc hc'
      cases ys with
      | nil => rfl
      | cons y ys =>
          -- one list ends where the other goes on, so the head would be a node
          have hay : l.next a = y := (List.isChain_cons_cons.1 hc').1.1
          have hah : l.next a = h := (List.isChain_cons_cons.1 hc).1.1
          exact absurd (hah.symm.trans hay) fun he => hy (by simp [he])
  | cons x xs ih =>
      intro ys a hx hy hc hc'
      obtain ⟨hax, hc⟩ := List.isChain_cons_cons.1 hc
      cases ys with
      | nil =>
          have hah : l.next a = h := (List.isChain_cons_cons.1 hc').1.1
          exact absurd (hah.symm.trans hax.1) fun he => hx (by simp [he])
      | cons y ys =>
          obtain ⟨hay, hc'⟩ := List.isChain_cons_cons.1 hc'
          obtain rfl : x = y := hax.1.symm.trans hay.1
          rw [ih ys x (fun hm => hx (by simp [hm])) (fun hm => hy (by simp [hm])) hc hc']

omit [DecidableEq ι] in
/-- A ring depends on the links of its own nodes only. -/
lemma congr (hr : l.Ring h xs) (hn : ∀ a ∈ h :: xs, l'.next a = l.next a)
    (hp : ∀ a ∈ h :: xs, l'.prev a = l.prev a) : l'.Ring h xs := by
  refine ⟨hr.nodup, isChain_congr ?_ ?_ hr.chain⟩
  · intro a ha
    rw [← List.cons_append, List.dropLast_concat] at ha
    exact hn a ha
  · intro b hb
    have hb' : b ∈ xs ∨ b = h := by simpa using hb
    exact hp b (by rcases hb' with hb' | rfl <;> simp [*])

lemma splice (hr : l.Ring h (xs ++ ys)) (hx : x ∉ h :: (xs ++ ys)) :
    (l.spliceIn x (xs.getLastD h) (ys.headD h)).Ring h (xs ++ x :: ys) := by
  obtain ⟨us, vs, he, hus, hvs, hc⟩ := hr.chain_split
  refine ⟨?_, ?_⟩
  · exact (Seg.perm_behind h x xs ys).nodup_iff.2 (List.nodup_cons.2 ⟨hx, hr.nodup⟩)
  · have hnew : h :: ((xs ++ x :: ys) ++ [h]) = us ++ xs.getLastD h :: x :: ys.headD h :: vs := by
      rw [List.append_assoc, List.cons_append, hvs, ← List.cons_append, hus, List.append_assoc]
      rfl
    rw [hnew]
    refine isChain_spliceIn hc (he ▸ hr.nodup_dropLast) (he ▸ hr.nodup_tail) ?_
    rw [← he]
    simp only [List.mem_cons, List.mem_append, List.not_mem_nil, or_false, not_or] at hx ⊢
    exact ⟨hx.1, ⟨hx.2.1, hx.2.2⟩, hx.1⟩

/-- Splicing in before the node at which `ys` begins (before the head, if `ys` is
empty). -/
lemma splice_before (hr : l.Ring h (xs ++ ys)) (hx : x ∉ h :: (xs ++ ys)) :
    (l.spliceIn x (l.prev (ys.headD h)) (ys.headD h)).Ring h (xs ++ x :: ys) := by
  rw [hr.adj.2]
  exact hr.splice hx

/-- Splicing in after the node with which `xs` ends (after the head, if `xs` is
empty). -/
lemma splice_after (hr : l.Ring h (xs ++ ys)) (hx : x ∉ h :: (xs ++ ys)) :
    (l.spliceIn x (xs.getLastD h) (l.next (xs.getLastD h))).Ring h (xs ++ x :: ys) := by
  rw [hr.adj.1]
  exact hr.splice hx

/-- Splicing in right after the head. -/
lemma splice_head (hr : l.Ring h ys) (hx : x ∉ h :: ys) :
    (l.spliceIn x h (l.next h)).Ring h (x :: ys) := by
  have hr' : l.Ring h ([] ++ ys) := hr
  exact hr'.splice_after hx

/-- The ring does not notice that a node outside it is linked to itself. -/
lemma isolate (hr : l.Ring h xs) (hx : x ∉ h :: xs) :
    ((l.setNext x x).setPrev x x).Ring h xs := by
  refine hr.congr ?_ ?_ <;> intro a ha <;>
    simp [Function.update_of_ne (fun he : a = x => hx (he ▸ ha))]

/-- Splicing in right before the head. -/
lemma splice_last (hr : l.Ring h xs) (hx : x ∉ h :: xs) :
    (l.spliceIn x (l.prev h) h).Ring h (xs ++ [x]) := by
  have hr' : l.Ring h (xs ++ []) := by simpa using hr
  exact hr'.splice_before (by simpa using hx)

omit [DecidableEq ι] in
/-- The neighbours of a node are in the ring. -/
lemma next_mem_cons (hr : l.Ring h xs) (hx : x ∈ h :: xs) : l.next x ∈ h :: xs := by
  have hhead : ∀ us : List ι, us.headD h ∈ h :: us := by
    intro us
    cases us <;> simp
  rcases List.mem_cons.1 hx with rfl | hx
  · rw [hr.next_head]
    exact hhead xs
  · obtain ⟨us, vs, rfl⟩ := List.append_of_mem hx
    rw [hr.next_mem]
    have hsub : h :: vs ⊆ h :: (us ++ x :: vs) :=
      List.cons_subset_cons h fun y hy => by simp [hy]
    exact hsub (hhead vs)

omit [DecidableEq ι] in
lemma prev_mem_cons (hr : l.Ring h xs) (hx : x ∈ h :: xs) : l.prev x ∈ h :: xs := by
  rcases List.mem_cons.1 hx with rfl | hx
  · rw [hr.prev_head]
    exact List.getLastD_mem_cons
  · obtain ⟨us, vs, rfl⟩ := List.append_of_mem hx
    rw [hr.prev_mem]
    have hsub : h :: us ⊆ h :: (us ++ x :: vs) :=
      List.cons_subset_cons h fun y hy => by simp [hy]
    exact hsub List.getLastD_mem_cons

omit [DecidableEq ι] in
/-- The two links undo each other, at the head too. -/
lemma prev_next (hr : l.Ring h xs) (hx : x ∈ h :: xs) : l.prev (l.next x) = x := by
  rcases List.mem_cons.1 hx with rfl | hx
  · have hr' : l.Ring x ([] ++ xs) := hr
    rw [hr.next_head]
    exact hr'.adj.2
  · obtain ⟨us, vs, rfl⟩ := List.append_of_mem hx
    have hr' : l.Ring h ((us ++ [x]) ++ vs) := by simpa using hr
    rw [hr.next_mem]
    simpa using hr'.adj.2

omit [DecidableEq ι] in
lemma next_prev (hr : l.Ring h xs) (hx : x ∈ h :: xs) : l.next (l.prev x) = x := by
  rcases List.mem_cons.1 hx with rfl | hx
  · have hr' : l.Ring x (xs ++ []) := by simpa using hr
    rw [hr.prev_head]
    exact hr'.adj.1
  · obtain ⟨us, vs, rfl⟩ := List.append_of_mem hx
    rw [hr.prev_mem]
    exact hr.adj.1

lemma unlink (hr : l.Ring h (xs ++ x :: ys)) : (l.unlink x).Ring h (xs ++ ys) := by
  obtain ⟨us, hus⟩ := Seg.exists_last h xs
  obtain ⟨vs, hvs⟩ := exists_first h ys
  have he : h :: ((xs ++ x :: ys) ++ [h]) = us ++ xs.getLastD h :: x :: ys.headD h :: vs := by
    rw [List.append_assoc, List.cons_append, hvs, ← List.cons_append, hus, List.append_assoc]
    rfl
  have hnew : h :: ((xs ++ ys) ++ [h]) = us ++ xs.getLastD h :: ys.headD h :: vs := by
    rw [List.append_assoc, hvs, ← List.cons_append, hus, List.append_assoc]
    rfl
  refine ⟨?_, ?_⟩
  · refine hr.nodup.sublist (List.Sublist.cons_cons h ?_)
    exact List.Sublist.append_left (List.sublist_cons_self x ys) xs
  · rw [hnew]
    exact isChain_unlink (he ▸ hr.chain) (he ▸ hr.nodup_dropLast) (he ▸ hr.nodup_tail)

end Ring

end Links

end DemoClass
