import DemoClass.KernelList.ForEach

/-!
# The walks of the two `list.h`

The header of the kernel list and the one of the chat room have the same macros, written
twice.  Two of them went wrong: `list_for_each_safe` of the kernel list assigns a truth value to
its `Next`, for `&&` binds stronger than `=`, and `list_for_each_reverse` of the chat room begins
at the last node but goes on by `next`.  `walksRight_iff` says for which lists each of the four does
what it is for.
-/

namespace DemoClass

namespace Links

variable {ε ι σ : Type} [DecidableEq ι]

/-! ### `04Kernel_list/list.h` -/

/-- What is in a pointer variable: a node, or a truth value that was assigned to it. -/
inductive Pointer (ι : Type) where
  | node (x : ι)
  | truth (b : Bool)
deriving DecidableEq

/-- A truth value is dereferenced. -/
inductive PointerFault where
  | notANode (b : Bool)
deriving DecidableEq, Repr

/-- One round of `list_for_each_safe`.  The condition is `Next = ((cur)->next && cur != (head))`,
where `(cur)->next` is never null. -/
def forEachSafeBody (body : ι → σ → Comp PointerFault σ) (head : ι) (w : Pointer ι × σ) :
    Comp PointerFault ((Pointer ι × σ) ⊕ (ι × σ)) :=
  match w.1 with
  | .truth b => Comp.fault (.notANode b)
  | .node cur =>
    let Next := true && decide (cur ≠ head)
    if Next then do
      let s ← body cur w.2
      pure (.inl (.truth Next, s))
    else pure (.inr (cur, w.2))

/-- `list_for_each_safe`: the value of `cur` and the state at the end. -/
def listForEachSafe (links : σ → Links ι) (body : ι → σ → Comp PointerFault σ) (head : ι)
    (s : σ) : Comp PointerFault (ι × σ) :=
  Comp.loop (forEachSafeBody body head) (.node ((links s).next head), s)

/-! ### `chatroom/list.h` -/

namespace Chatroom

/-- `init_list_head` -/
def initListHead (l : Links ι) (node : ι) : Links ι := (l.setNext node node).setPrev node node

/-- `list_del_init` -/
def listDelInit (l : Links ι) (node : ι) : Links ι :=
  let l := l.setPrev (l.next node) (l.prev node)
  let l := l.setNext (l.prev node) (l.next node)
  initListHead l node

/-- `list_for_each` -/
def listForEach (links : σ → Links ι) (body : ι → σ → Comp ε (σ ⊕ Empty)) (head : ι) (s : σ) :
    Comp ε (σ ⊕ Empty) :=
  forEachFrom (fun s => (links s).next) body head ((links s).next head) s

/-- `list_for_each_reverse` -/
def listForEachReverse (links : σ → Links ι) (body : ι → σ → Comp ε (σ ⊕ Empty)) (head : ι)
    (s : σ) : Comp ε (σ ⊕ Empty) :=
  forEachFrom (fun s => (links s).next) body head ((links s).prev head) s

/-- One round of `list_for_each_safe`. -/
def forEachSafeBody (links : σ → Links ι) (body : ι → σ → Comp ε σ) (head : ι) (w : ι × σ) :
    Comp ε ((ι × σ) ⊕ (ι × σ)) :=
  if w.1 ≠ head then do
    let temp := (links w.2).next w.1
    let s ← body w.1 w.2
    pure (.inl (temp, s))
  else pure (.inr w)

/-- `list_for_each_safe` -/
def listForEachSafe (links : σ → Links ι) (body : ι → σ → Comp ε σ) (head : ι) (s : σ) :
    Comp ε (ι × σ) :=
  Comp.loop (forEachSafeBody links body head) ((links s).next head, s)

/-- The nodes `list_for_each` comes to. -/
def nextWalk (l : Links ι) (head : ι) : Comp Empty (List ι ⊕ Empty) :=
  listForEach (fun _ => l) (fun cur vs => pure (.inl (vs ++ [cur]))) head []

/-- The nodes `list_for_each_reverse` comes to. -/
def prevWalk (l : Links ι) (head : ι) : Comp Empty (List ι ⊕ Empty) :=
  listForEachReverse (fun _ => l) (fun cur vs => pure (.inl (vs ++ [cur]))) head []

end Chatroom

/-! ### What the walks are for -/

/-- The second walk comes to the nodes of the first one in the reverse order. -/
def Reverses (backward forward : Comp Empty (List ι ⊕ Empty)) : Prop :=
  ∃ vs, forward.Ends (.ok (.inl vs)) ∧ backward.Ends (.ok (.inl vs.reverse))

/-- The links, and the nodes that the walk has come to. -/
structure Visits (ι : Type) where
  links : Links ι
  seen : List ι

/-- The statement under a safe walk: it unlinks the nodes that `p` tells it to. -/
def visitBody (delInit : Links ι → ι → Links ι) (p : ι → Bool) (cur : ι) (s : Visits ι) :
    Comp ε (Visits ι) :=
  pure ⟨if p cur then delInit s.links cur else s.links, s.seen ++ [cur]⟩

omit [DecidableEq ι] in
lemma visitBody_ends (delInit : Links ι → ι → Links ι) (p : ι → Bool) (cur : ι) (s : Visits ι) :
    (visitBody delInit p cur s : Comp ε (Visits ι)).Ends
      (.ok ⟨if p cur then delInit s.links cur else s.links, s.seen ++ [cur]⟩) :=
  Comp.ends_pure.2 rfl

/-- The walk comes to each of the nodes once, in their order, and stops at the head. -/
def VisitsAll (walk : Comp ε (ι × Visits ι)) (head : ι) (xs : List ι) : Prop :=
  ∃ s, walk.Ends (.ok (head, s)) ∧ s.seen = xs

variable {l : Links ι} {head x : ι} {xs ys : List ι} {links : σ → Links ι} {s : σ} {w : Visits ι}
  {p : ι → Bool}

/-! ### The kernel list -/

/-- The second round dereferences the truth value. -/
lemma forEachSafe_notANode {body : ι → σ → Comp PointerFault σ} {s' : σ} (hne : x ≠ head)
    (hb : (body x s).Ends (.ok s')) :
    (Comp.loop (forEachSafeBody body head) (.node x, s)).Ends (.error (.notANode true)) := by
  have hround : (forEachSafeBody body head (.node x, s)).Ends (.ok (.inl (.truth true, s'))) := by
    simp only [forEachSafeBody, decide_eq_true hne, Bool.and_self, if_true]
    exact hb.bind (Comp.ends_pure.2 rfl)
  exact Comp.Ends.loop_inl hround (Comp.Ends.loop_fault (Comp.ends_fault.2 rfl))

lemma visitsAll_iff (hr : l.Ring head xs) :
    VisitsAll (listForEachSafe Visits.links (visitBody listDelInit p) head ⟨l, []⟩) head xs ↔
      xs = [] := by
  rw [listForEachSafe, hr.next_head]
  cases xs with
  | nil =>
      refine iff_of_true ⟨⟨l, []⟩, Comp.Ends.loop_inr ?_, rfl⟩ rfl
      simp [forEachSafeBody]
  | cons x xs =>
      have hne : x ≠ head := fun he => hr.head_notMem (by simp [he])
      refine iff_of_false ?_ (List.cons_ne_nil x xs)
      rintro ⟨s, hends, -⟩
      have hfault := forEachSafe_notANode hne (visitBody_ends listDelInit p x ⟨l, []⟩)
      exact absurd (hends.unique hfault) (by simp)

/-! ### The list of the chat room -/

namespace Chatroom

lemma listDelInit_ring (hr : l.Ring head (xs ++ x :: ys)) :
    (listDelInit l x).Ring head (xs ++ ys) := by
  have hunlink : listDelInit l x = initListHead (l.unlink x) x := by
    simp only [listDelInit, prev_setPrev_next, setPrev_next, setNext_setPrev_eq_unlink]
  rw [hunlink]
  exact hr.unlink.isolate hr.notMem_rest

/-- From the last node the walk comes to the head at once. -/
lemma prevWalk_ends (hr : l.Ring head xs) :
    (prevWalk l head).Ends (.ok (.inl xs.getLast?.toList)) := by
  rw [prevWalk, listForEachReverse, hr.prev_head]
  obtain rfl | ⟨us, z, rfl⟩ := List.eq_nil_or_concat' xs
  · exact forEachFrom_head
  · have hne : z ≠ head := fun he => hr.head_notMem (by simp [he])
    have hnext : l.next z = head := hr.next_mem
    rw [List.getLastD_concat]
    refine forEachFrom_inl hne (Comp.ends_pure.2 rfl) ?_
    show (forEachFrom _ _ head (l.next z) _).Ends _
    rw [hnext, List.getLast?_concat]
    exact forEachFrom_head

lemma reverses_iff (hr : l.Ring head xs) :
    Reverses (prevWalk l head) (nextWalk l head) ↔ xs.length ≤ 1 := by
  have hforward : (nextWalk l head).Ends (.ok (.inl xs)) := hr.nextWalk_ends
  constructor
  · rintro ⟨vs, hvs, hback⟩
    obtain rfl : vs = xs := by simpa using hvs.unique hforward
    have hlast : vs.reverse = vs.getLast?.toList := by
      simpa using hback.unique (prevWalk_ends hr)
    calc vs.length = vs.getLast?.toList.length := by rw [← hlast, List.length_reverse]
      _ ≤ 1 := by cases vs.getLast? <;> simp
  · intro hlen
    refine ⟨xs, hforward, ?_⟩
    have hback := prevWalk_ends hr
    match xs, hlen with
    | [], _ => exact hback
    | [x], _ => exact hback

/-- The rule of the safe walk: `inv` speaks of the nodes still to come, and the node behind the
one at hand is known before the statement is run. -/
lemma forEachSafe_ends {body : ι → σ → Comp ε σ} (inv : List ι → σ → Prop)
    (hbody : ∀ x xs s, inv (x :: xs) s → (links s).next x = xs.headD head ∧
      ∃ s', (body x s).Ends (.ok s') ∧ inv xs s')
    (hh : head ∉ xs) (hinv : inv xs s) :
    ∃ s', (Comp.loop (forEachSafeBody links body head) (xs.headD head, s)).Ends
      (.ok (head, s')) ∧ inv [] s' := by
  induction xs generalizing s with
  | nil =>
      refine ⟨s, Comp.Ends.loop_inr ?_, hinv⟩
      simp [forEachSafeBody]
  | cons x xs ih =>
      obtain ⟨hnext, s₁, hb, hinv₁⟩ := hbody x xs s hinv
      obtain ⟨s₂, hends, hinv₂⟩ := ih (fun hmem => hh (List.mem_cons_of_mem x hmem)) hinv₁
      have hne : x ≠ head := fun he => hh (he ▸ List.mem_cons_self)
      refine ⟨s₂, Comp.Ends.loop_inl (t := (xs.headD head, s₁)) ?_ hends, hinv₂⟩
      rw [List.headD_cons, forEachSafeBody, if_pos hne]
      refine hb.bind ?_
      rw [hnext]
      exact Comp.ends_pure.2 rfl

/-- `list_for_each_safe` comes to all nodes, and what is left are those that were not unlinked. -/
lemma listForEachSafe_ends (hr : l.Ring head xs) (p : ι → Bool) : ∃ s : Visits ι,
    (listForEachSafe Visits.links (visitBody listDelInit p) head ⟨l, []⟩ :
      Comp ε (ι × Visits ι)).Ends (.ok (head, s)) ∧ s.seen = xs ∧
      s.links.Ring head (xs.filter fun x => !p x) := by
  -- the nodes seen so far without those that were unlinked, and then those still to come
  obtain ⟨s, hends, hseen, hring⟩ : ∃ s : Visits ι, (Comp.loop (forEachSafeBody Visits.links
      (visitBody listDelInit p) head) (xs.headD head, ⟨l, []⟩) : Comp ε (ι × Visits ι)).Ends
        (.ok (head, s)) ∧ s.seen ++ [] = xs ∧
      s.links.Ring head ((s.seen.filter fun x => !p x) ++ []) := by
    refine forEachSafe_ends (fun rest (s : Visits ι) => s.seen ++ rest = xs ∧
      s.links.Ring head ((s.seen.filter fun x => !p x) ++ rest)) (fun x rest s hinv => ?_)
      hr.head_notMem ⟨rfl, hr⟩
    refine ⟨Ring.next_mem hinv.2, _, visitBody_ends _ _ _ _, by simp [← hinv.1], ?_⟩
    cases hp : p x with
    | false => simpa [hp] using hinv.2
    | true => simpa [hp] using listDelInit_ring hinv.2
  obtain rfl : s.seen = xs := by simpa using hseen
  rw [listForEachSafe, hr.next_head]
  exact ⟨s, hends, rfl, by simpa using hring⟩

end Chatroom

/-- What is asked of the four macros on a list `xs`. -/
structure WalksRight (l : Links ι) (head : ι) (xs : List ι) (p : ι → Bool) : Prop where
  kernelReverse : Reverses (l.prevWalk head) (l.nextWalk head)
  kernelSafe : VisitsAll (listForEachSafe Visits.links (visitBody listDelInit p) head ⟨l, []⟩)
    head xs
  chatroomReverse : Reverses (Chatroom.prevWalk l head) (Chatroom.nextWalk l head)
  chatroomSafe : VisitsAll (Chatroom.listForEachSafe Visits.links
    (visitBody Chatroom.listDelInit p) head ⟨l, []⟩ : Comp PointerFault (ι × Visits ι)) head xs

/-- **What the walks of the two headers do.**  On every list, the walk backwards of the kernel
list and the safe walk of the chat room do what they are for, whichever nodes are unlinked on
the way.  The safe walk of the kernel list does so on the empty list only, and the walk backwards
of the chat room when there is at most one node; so all four do on the empty list only. -/
theorem walksRight_iff (hr : l.Ring head xs) (p : ι → Bool) :
    (WalksRight l head xs p ↔ xs = []) ∧
      Reverses (l.prevWalk head) (l.nextWalk head) ∧
      (VisitsAll (listForEachSafe Visits.links (visitBody listDelInit p) head ⟨l, []⟩) head xs ↔
        xs = []) ∧
      (Reverses (Chatroom.prevWalk l head) (Chatroom.nextWalk l head) ↔ xs.length ≤ 1) ∧
      VisitsAll (Chatroom.listForEachSafe Visits.links (visitBody Chatroom.listDelInit p) head
        ⟨l, []⟩ : Comp PointerFault (ι × Visits ι)) head xs := by
  have hkernel : Reverses (l.prevWalk head) (l.nextWalk head) :=
    ⟨xs, hr.nextWalk_ends, hr.prevWalk_ends⟩
  have hsafe := visitsAll_iff (p := p) hr
  have hchat := Chatroom.reverses_iff hr
  obtain ⟨s, hends, hseen, -⟩ := Chatroom.listForEachSafe_ends hr p
  refine ⟨⟨fun h => hsafe.1 h.kernelSafe, fun hnil => ?_⟩, hkernel, hsafe, hchat, s, hends, hseen⟩
  exact ⟨hkernel, hsafe.2 hnil, hchat.2 (by simp [hnil]), s, hends, hseen⟩

/-- Two nodes, of which the first is unlinked. -/
theorem walksRight_two_iff :
    WalksRight (⟨fun n => (n + 1) % 3, fun n => (n + 2) % 3⟩ : Links ℕ) 0 [1, 2] (fun n => n == 1) ↔
      [1, 2] = ([] : List ℕ) :=
  (walksRight_iff (show Links.Ring _ 0 [1, 2] from ⟨by decide, by simp [Adj]⟩) _).1

/-- Two nodes, of which none is unlinked. -/
theorem not_walksRight_two :
    (⟨fun n => (n + 1) % 3, fun n => (n + 2) % 3⟩ : Links ℕ).Ring 0 [1, 2] ∧
      ¬ WalksRight (⟨fun n => (n + 1) % 3, fun n => (n + 2) % 3⟩ : Links ℕ) 0 [1, 2]
        fun _ => false := by
  have hr : (⟨fun n => (n + 1) % 3, fun n => (n + 2) % 3⟩ : Links ℕ).Ring 0 [1, 2] :=
    ⟨by decide, by simp [Adj]⟩
  refine ⟨hr, fun h => ?_⟩
  have hlen := (Chatroom.reverses_iff hr).1 h.chatroomReverse
  exact absurd hlen (by decide)

end Links

end DemoClass
