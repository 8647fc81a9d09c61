import DemoClass.Btree.LevelOrder
import DemoClass.Btree.NoRecur
import DemoClass.Dlist.Containers
import DemoClass.Lib.Simulation

/-!
# Traversals with a stack or queue in memory (`btree.c` on `stack.c` and `queue.c`)

The traversals without recursion allocate a `stack_info` or a `queue_info`, push the pointers they
come back to, and destroy it at the end.  Here they are given with these calls.  They simulate the
traversals with a sequence in its place, on trees and on any other links
(`traversals_simulate`); so after every run of pushes and deletions they visit what they should,
and leave the memory as they found it (`traversals_restore`).
-/

namespace DemoClass

namespace Btree

namespace Memory

open Dlist SearchTree TreeStore

/-- What ends a traversal. -/
inductive ProgFault where
  | memory (e : MemFault)
  | tree (e : Fault)
deriving DecidableEq

variable {ι ν β : Type} [DecidableEq ι]

/-- The variables of a traversal, with the pointers on which it called `todo`. -/
structure Walk (ι ν β π : Type) where
  h : Store ι β
  cur : Option ν
  visited : List π

section Functions

variable (L : Layout (Option ν) β) (malloc : Malloc ι)

/-- One round of the loop of `btree_pre_order_norecur`. -/
def btreePreOrderNorecurBody (s : TreeStore ν) (stack : Object ι) (w : Walk ι ν β ν) :
    Comp ProgFault (Walk ι ν β ν ⊕ Walk ι ν β ν) := do
  let empty ← (Kind.stack.isEmpty w.h stack.info).mapFault .memory
  if empty ≠ 0 ∧ w.cur = none then return .inr w
  match w.cur with
  | some cur =>
    let r ← (Kind.stack.pushValue L malloc w.h stack (some cur)).mapFault .memory
    return .inl ⟨r.1, (s.node cur).lchild, w.visited ++ [cur]⟩
  | none =>
    let r ← (Kind.stack.popValue L w.h stack w.cur).mapFault .memory
    let cur ← (deref r.2.1).mapFault .tree
    return .inl ⟨r.1, (s.node cur).rchild, w.visited⟩

/-- One round of the loop of `btree_in_order_norecur`. -/
def btreeInOrderNorecurBody (s : TreeStore ν) (stack : Object ι) (w : Walk ι ν β ν) :
    Comp ProgFault (Walk ι ν β ν ⊕ Walk ι ν β ν) := do
  let empty ← (Kind.stack.isEmpty w.h stack.info).mapFault .memory
  if empty ≠ 0 ∧ w.cur = none then return .inr w
  match w.cur with
  | some cur =>
    let r ← (Kind.stack.pushValue L malloc w.h stack (some cur)).mapFault .memory
    return .inl ⟨r.1, (s.node cur).lchild, w.visited⟩
  | none =>
    let r ← (Kind.stack.popValue L w.h stack w.cur).mapFault .memory
    let cur ← (deref r.2.1).mapFault .tree
    return .inl ⟨r.1, (s.node cur).rchild, w.visited ++ [cur]⟩

/-- `btree_pre_order_norecur` -/
def btreePreOrderNorecur (info : BtreeInfo ν) (h : Store ι β) :
    Comp ProgFault (Store ι β × List ν) := do
  let r ← (Kind.stack.create malloc h).mapFault .memory
  let w ← Comp.loop (btreePreOrderNorecurBody L malloc info.store r.2) ⟨r.1, info.store.root, []⟩
  let h ← (release w.h r.2).mapFault .memory
  return (h, w.visited)

/-- `btree_in_order_norecur` -/
def btreeInOrderNorecur (info : BtreeInfo ν) (h : Store ι β) :
    Comp ProgFault (Store ι β × List ν) := do
  let r ← (Kind.stack.create malloc h).mapFault .memory
  let w ← Comp.loop (btreeInOrderNorecurBody L malloc info.store r.2) ⟨r.1, info.store.root, []⟩
  let h ← (release w.h r.2).mapFault .memory
  return (h, w.visited)

/-- The variables of `btree_post_order_norecur`, with the nodes visited so far. -/
structure PostOrder (ι ν β : Type) where
  h : Store ι β
  cur : Option ν
  prev : Option ν
  visited : List ν

/-- One round of the loop of `btree_post_order_norecur`. -/
def btreePostOrderNorecurBody [DecidableEq ν] (s : TreeStore ν) (stack : Object ι)
    (w : PostOrder ι ν β) : Comp ProgFault (PostOrder ι ν β ⊕ PostOrder ι ν β) := do
  let empty ← (Kind.stack.isEmpty w.h stack.info).mapFault .memory
  if empty ≠ 0 ∧ w.cur = none then return .inr w
  match w.cur with
  | some cur =>
    let r ← (Kind.stack.pushValue L malloc w.h stack (some cur)).mapFault .memory
    return .inl ⟨r.1, (s.node cur).lchild, w.prev, w.visited⟩
  | none =>
    let r ← (Kind.stack.topValue L w.h stack w.cur).mapFault .memory
    let cur ← (deref r.1).mapFault .tree
    if (s.node cur).rchild ≠ none ∧ (s.node cur).rchild ≠ w.prev then
      return .inl ⟨w.h, (s.node cur).rchild, w.prev, w.visited⟩
    else
      let r ← (Kind.stack.popValue L w.h stack w.prev).mapFault .memory
      return .inl ⟨r.1, none, r.2.1, w.visited ++ [cur]⟩

/-- `btree_post_order_norecur` -/
def btreePostOrderNorecur [DecidableEq ν] (info : BtreeInfo ν) (h : Store ι β) :
    Comp ProgFault (Store ι β × List ν) := do
  let r ← (Kind.stack.create malloc h).mapFault .memory
  let w ← Comp.loop (btreePostOrderNorecurBody L malloc info.store r.2)
    ⟨r.1, info.store.root, none, []⟩
  let h ← (release w.h r.2).mapFault .memory
  return (h, w.visited)

/-- A child is appended to the queue when it is there. -/
def pushChild (h : Store ι β) (queue : Object ι) (child : Option ν) :
    Comp ProgFault (Store ι β) :=
  if child ≠ none then do
    let r ← (Kind.queue.pushValue L malloc h queue child).mapFault .memory
    return r.1
  else pure h

/-- One round of the loop of `btree_level_order`. -/
def btreeLevelOrderBody (s : TreeStore ν) (queue : Object ι) (w : Walk ι ν β (Option ν)) :
    Comp ProgFault (Walk ι ν β (Option ν) ⊕ Walk ι ν β (Option ν)) := do
  let empty ← (Kind.queue.isEmpty w.h queue.info).mapFault .memory
  if empty ≠ 0 then return .inr w
  let r ← (Kind.queue.popValue L w.h queue w.cur).mapFault .memory
  let cur := r.2.1
  let visited := w.visited ++ [cur]
  let node ← (deref cur).mapFault .tree
  let h ← pushChild L malloc r.1 queue (s.node node).lchild
  let h ← pushChild L malloc h queue (s.node node).rchild
  return .inl ⟨h, cur, visited⟩

/-- `btree_level_order` -/
def btreeLevelOrder (info : BtreeInfo ν) (h : Store ι β) :
    Comp ProgFault (Store ι β × List (Option ν)) := do
  let r ← (Kind.queue.create malloc h).mapFault .memory
  let cur := info.store.root
  let s ← (Kind.queue.pushValue L malloc r.1 r.2 cur).mapFault .memory
  let w ← Comp.loop (btreeLevelOrderBody L malloc info.store r.2) ⟨s.1, cur, []⟩
  let h ← (release w.h r.2).mapFault .memory
  return (h, w.visited)

end Functions

/-! ### The sequences that the memory stands for -/

variable {L : Layout (Option ν) β} {malloc : Malloc ι} {h₀ : Store ι β} {o : Object ι}
  {s : TreeStore ν} {info : BtreeInfo ν} {t : BinaryTree ν}

/-- A traversal calls `todo` on the pointers, and leaves the memory as it was. -/
def Restores {π : Type} (h₀ : Store ι β) (u : Store ι β × List π) (visited : List π) : Prop :=
  u.2 = visited ∧ u.1.live = h₀.live ∧ Untouched h₀.live h₀ u.1

lemma derefs (p : Option ν) :
    Comp.Simulates ProgFault.tree Eq ((deref p).mapFault .tree) (deref p) :=
  Comp.Simulates.mapFault _

/-- The end of a traversal. -/
lemma release_simulates {π σ : Type} {as : List (Option ν)} {h : Store ι β} {visited : List π}
    {R : Store ι β × List π → σ → Prop} {v : σ} (hu : InUse L h₀ o h as)
    (hR : ∀ h', h'.live = h₀.live → Untouched h₀.live h₀ h' → R (h', visited) v) :
    Comp.Simulates .tree R
      (do let h ← (release h o).mapFault ProgFault.memory; return (h, visited)) (pure v) := by
  obtain ⟨h', hends, hlive, hunt⟩ := hu.release
  exact (Comp.mapFault_ends_ok hends).simulates (Comp.Simulates.pure (hR h' hlive hunt))

/-- The variables of the two worlds. -/
def Rep (L : Layout (Option ν) β) (h₀ : Store ι β) (o : Object ι) (u : Walk ι ν β ν)
    (w : Btree.Walk ν) : Prop :=
  InUse L h₀ o u.h w.stack ∧ u.cur = w.cur ∧ u.visited = w.visited

section Stack

variable (hm : malloc.Succeeds) (hb : {y | h₀.live y = true}.Finite)

include hm hb

lemma preOrderBody_simulates (u : Walk ι ν β ν) (w : Btree.Walk ν) (hr : Rep L h₀ o u w) :
    Comp.Simulates .tree (Comp.RoundRel (Rep L h₀ o) (Rep L h₀ o))
      (btreePreOrderNorecurBody L malloc s o u) (Btree.btreePreOrderNorecurBody s w) := by
  obtain ⟨h, cur, visited⟩ := u
  obtain ⟨stack, _, _⟩ := w
  obtain ⟨hu, rfl, rfl⟩ := hr
  refine (Comp.mapFault_ends_ok (hu.isEmpty .stack)).simulates ?_
  cases cur with
  | some x =>
      obtain ⟨h', hpush, hu'⟩ := hu.push hm hb .stack (some x)
      simp only [Btree.btreePreOrderNorecurBody, reduceCtorEq, and_false, if_false]
      exact (Comp.mapFault_ends_ok hpush).simulates (Comp.Simulates.pure ⟨hu', rfl, rfl⟩)
  | none =>
      cases stack with
      | nil => exact Comp.Simulates.pure ⟨hu, rfl, rfl⟩
      | cons p stack =>
          obtain ⟨h', hpop, hu'⟩ := hu.pop .stack none
          simp only [Btree.btreePreOrderNorecurBody, reduceCtorEq, if_false, ne_eq,
            not_true_eq_false, false_and]
          refine (Comp.mapFault_ends_ok hpop).simulates ((derefs p).bind ?_)
          rintro x _ rfl
          exact Comp.Simulates.pure ⟨hu', rfl, rfl⟩

lemma inOrderBody_simulates (u : Walk ι ν β ν) (w : Btree.Walk ν) (hr : Rep L h₀ o u w) :
    Comp.Simulates .tree (Comp.RoundRel (Rep L h₀ o) (Rep L h₀ o))
      (btreeInOrderNorecurBody L malloc s o u) (Btree.btreeInOrderNorecurBody s w) := by
  obtain ⟨h, cur, visited⟩ := u
  obtain ⟨stack, _, _⟩ := w
  obtain ⟨hu, rfl, rfl⟩ := hr
  refine (Comp.mapFault_ends_ok (hu.isEmpty .stack)).simulates ?_
  cases cur with
  | some x =>
      obtain ⟨h', hpush, hu'⟩ := hu.push hm hb .stack (some x)
      simp only [Btree.btreeInOrderNorecurBody, reduceCtorEq, and_false, if_false]
      exact (Comp.mapFault_ends_ok hpush).simulates (Comp.Simulates.pure ⟨hu', rfl, rfl⟩)
  | none =>
      cases stack with
      | nil => exact Comp.Simulates.pure ⟨hu, rfl, rfl⟩
      | cons p stack =>
          obtain ⟨h', hpop, hu'⟩ := hu.pop .stack none
          simp only [Btree.btreeInOrderNorecurBody, reduceCtorEq, if_false, ne_eq,
            not_true_eq_false, false_and]
          refine (Comp.mapFault_ends_ok hpop).simulates ((derefs p).bind ?_)
          rintro x _ rfl
          exact Comp.Simulates.pure ⟨hu', rfl, rfl⟩

/-- The same for `btree_post_order_norecur`. -/
def PostRep (L : Layout (Option ν) β) (h₀ : Store ι β) (o : Object ι) (u : PostOrder ι ν β)
    (w : Btree.PostOrder ν) : Prop :=
  InUse L h₀ o u.h w.stack ∧ u.cur = w.cur ∧ u.prev = w.prev ∧ u.visited = w.visited

lemma postOrderBody_simulates [DecidableEq ν] (u : PostOrder ι ν β) (w : Btree.PostOrder ν)
    (hr : PostRep L h₀ o u w) :
    Comp.Simulates .tree (Comp.RoundRel (PostRep L h₀ o) (PostRep L h₀ o))
      (btreePostOrderNorecurBody L malloc s o u) (Btree.btreePostOrderNorecurBody s w) := by
  obtain ⟨h, cur, prev, visited⟩ := u
  obtain ⟨stack, _, _, _⟩ := w
  obtain ⟨hu, rfl, rfl, rfl⟩ := hr
  refine (Comp.mapFault_ends_ok (hu.isEmpty .stack)).simulates ?_
  cases cur with
  | some x =>
      obtain ⟨h', hpush, hu'⟩ := hu.push hm hb .stack (some x)
      simp only [Btree.btreePostOrderNorecurBody, reduceCtorEq, and_false, if_false]
      exact (Comp.mapFault_ends_ok hpush).simulates (Comp.Simulates.pure ⟨hu', rfl, rfl, rfl⟩)
  | none =>
      cases stack with
      | nil => exact Comp.Simulates.pure ⟨hu, rfl, rfl, rfl⟩
      | cons p stack =>
          obtain ⟨xs, hh⟩ := hu.holding
          have htop := Kind.stack.topValue_cons hh none
          simp only [Btree.btreePostOrderNorecurBody, reduceCtorEq, if_false, ne_eq,
            not_true_eq_false, false_and]
          refine (Comp.mapFault_ends_ok htop).simulates ((derefs p).bind ?_)
          rintro x _ rfl
          by_cases hright : (s.node x).rchild ≠ none ∧ (s.node x).rchild ≠ prev
          · rw [if_pos hright, if_pos hright]
            exact Comp.Simulates.pure ⟨hu, rfl, rfl, rfl⟩
          · rw [if_neg hright, if_neg hright]
            obtain ⟨h', hpop, hu'⟩ := hu.pop .stack prev
            exact (Comp.mapFault_ends_ok hpop).simulates (Comp.Simulates.pure ⟨hu', rfl, rfl, rfl⟩)

lemma pushChild_ends {h : Store ι β} {as : List (Option ν)} (hu : InUse L h₀ o h as)
    (p : Option ν) : ∃ h', (pushChild L malloc h o p).Ends (.ok h') ∧
      InUse L h₀ o h' (if p ≠ none then queuePush as p else as) := by
  unfold pushChild
  by_cases hp : p ≠ none
  · obtain ⟨h', hpush, hu'⟩ := hu.push hm hb .queue p
    rw [if_pos hp, if_pos hp]
    exact ⟨h', (Comp.mapFault_ends_ok hpush).bind (Comp.ends_pure.2 rfl), hu'⟩
  · rw [if_neg hp, if_neg hp]
    exact ⟨h, Comp.ends_pure.2 rfl, hu⟩

/-- The same for `btree_level_order`. -/
def LevelRep (L : Layout (Option ν) β) (h₀ : Store ι β) (o : Object ι)
    (u : Walk ι ν β (Option ν)) (w : Btree.LevelWalk ν) : Prop :=
  InUse L h₀ o u.h w.queue ∧ u.cur = w.cur ∧ u.visited = w.visited

lemma levelOrderBody_simulates (u : Walk ι ν β (Option ν)) (w : Btree.LevelWalk ν)
    (hr : LevelRep L h₀ o u w) :
    Comp.Simulates .tree (Comp.RoundRel (LevelRep L h₀ o) (LevelRep L h₀ o))
      (btreeLevelOrderBody L malloc s o u) (Btree.btreeLevelOrderBody s w) := by
  obtain ⟨h, cur, visited⟩ := u
  obtain ⟨queue, _, _⟩ := w
  obtain ⟨hu, rfl, rfl⟩ := hr
  refine (Comp.mapFault_ends_ok (hu.isEmpty .queue)).simulates ?_
  cases queue with
  | nil => exact Comp.Simulates.pure ⟨hu, rfl, rfl⟩
  | cons p queue =>
      obtain ⟨h₁, hpop, hu₁⟩ := hu.pop .queue cur
      refine (Comp.mapFault_ends_ok hpop).simulates ((derefs p).bind ?_)
      rintro x _ rfl
      obtain ⟨h₂, hleft, hu₂⟩ := pushChild_ends hm hb hu₁ (s.node x).lchild
      obtain ⟨h₃, hright, hu₃⟩ := pushChild_ends hm hb hu₂ (s.node x).rchild
      refine hleft.simulates ?_
      refine hright.simulates ?_
      exact Comp.Simulates.pure ⟨hu₃, rfl, rfl⟩

/-! ### The traversals -/

/-- **The traversals in memory.**  On whatever links, cyclic ones too, each of them calls `todo` on
the same pointers as with a sequence, runs forever or follows the null pointer exactly where that
does, and reaches no cell that is not allocated; and when it returns, the memory is as before. -/
theorem traversals_simulate [DecidableEq ν] (L : Layout (Option ν) β) (info : BtreeInfo ν) :
    Comp.Simulates .tree (fun u v => Restores h₀ u v.1)
        (btreePreOrderNorecur L malloc info h₀) (Btree.btreePreOrderNorecur info) ∧
      Comp.Simulates .tree (fun u v => Restores h₀ u v.1)
        (btreeInOrderNorecur L malloc info h₀) (Btree.btreeInOrderNorecur info) ∧
      Comp.Simulates .tree (fun u v => Restores h₀ u v.1)
        (btreePostOrderNorecur L malloc info h₀) (Btree.btreePostOrderNorecur info) ∧
      Comp.Simulates .tree (Restores h₀)
        (btreeLevelOrder L malloc info h₀) (Btree.btreeLevelOrder info) := by
  obtain ⟨h₁, o, hcreate, hu₁⟩ := InUse.create .stack L hm h₀ hb
  obtain ⟨h₂, o', hcreate', hu₂⟩ := InUse.create .queue L hm h₀ hb
  refine ⟨?_, ?_, ?_, ?_⟩
  · refine (Comp.mapFault_ends_ok hcreate).simulates ?_
    refine (Comp.Simulates.loop (preOrderBody_simulates hm hb) ⟨hu₁, rfl, rfl⟩).bind ?_
    rintro u w ⟨hu, -, hvisited⟩
    exact release_simulates hu fun h' hlive hunt => ⟨hvisited, hlive, hunt⟩
  · refine (Comp.mapFault_ends_ok hcreate).simulates ?_
    refine (Comp.Simulates.loop (inOrderBody_simulates hm hb) ⟨hu₁, rfl, rfl⟩).bind ?_
    rintro u w ⟨hu, -, hvisited⟩
    exact release_simulates hu fun h' hlive hunt => ⟨hvisited, hlive, hunt⟩
  · refine (Comp.mapFault_ends_ok hcreate).simulates ?_
    refine (Comp.Simulates.loop (postOrderBody_simulates hm hb) ⟨hu₁, rfl, rfl, rfl⟩).bind ?_
    rintro u w ⟨hu, -, -, hvisited⟩
    exact release_simulates hu fun h' hlive hunt => ⟨hvisited, hlive, hunt⟩
  · refine (Comp.mapFault_ends_ok hcreate').simulates ?_
    obtain ⟨h₃, hpush, hu₃⟩ := hu₂.push hm hb .queue info.store.root
    refine (Comp.mapFault_ends_ok hpush).simulates ?_
    refine (Comp.Simulates.loop (levelOrderBody_simulates hm hb) ⟨hu₃, rfl, rfl⟩).bind ?_
    rintro u w ⟨hu, -, hvisited⟩
    exact release_simulates hu fun h' hlive hunt => ⟨hvisited, hlive, hunt⟩

end Stack

/-- The call ends, with `todo` called on the pointers, and leaves the memory as it was. -/
def Visits {π : Type} (h : Store ι β) (c : Comp ProgFault (Store ι β × List π))
    (visited : List π) : Prop :=
  ∃ h', c.Ends (.ok (h', visited)) ∧ h'.live = h.live ∧ Untouched h.live h h'

omit [DecidableEq ι] in
lemma visits_of_simulates {π σ : Type} {c : Comp ProgFault (Store ι β × List π)}
    {d : Comp Fault σ} {R : Store ι β × List π → σ → Prop} {v : σ} {visited : List π}
    (hs : Comp.Simulates .tree R c d) (hd : d.Ends (.ok v))
    (hR : ∀ u, R u v → Restores h₀ u visited) : Visits h₀ c visited := by
  obtain ⟨⟨h', visited'⟩, hends, hrel⟩ := hs.ok v hd
  obtain ⟨rfl, hlive, hunt⟩ := hR _ hrel
  exact ⟨h', hends, hlive, hunt⟩

/-- **Every traversal gives its memory back.**  After any run of pushes and deletions, whatever
the comparison is, the traversals without recursion and the one by levels visit the nodes of the
tree in their orders, with their stack or queue in memory, if `malloc` always succeeds.  Behind
each of them the same addresses are allocated as before, with what was in them. -/
theorem traversals_restore [DecidableEq ν] (L : Layout (Option ν) β) (hm : malloc.Succeeds)
    (h : Store ι β) (hb : {y | h.live y = true}.Finite) (cmp : ν → ν → ℤ) (node : ν → TreeLinks ν)
    (ops : List (Op ν)) (hops : AllAllowed ∅ ops) :
    ∃ info t, (run (btreeInit node cmp) ops).Ends (.ok info) ∧ info.store.Rep t ∧
      (∀ x, x ∈ inorder t ↔ x ∈ nodesOf ops) ∧
      Visits h (btreePreOrderNorecur L malloc info h) (preorder t) ∧
      Visits h (btreeInOrderNorecur L malloc info h) (inorder t) ∧
      Visits h (btreePostOrderNorecur L malloc info h) (postorder t) ∧
      (t ≠ .nil → Visits h (btreeLevelOrder L malloc info h) ((levelorder t).map some)) := by
  obtain ⟨info, t, hrun, hrep, hmem⟩ := run_btreeInit node cmp hops
  obtain ⟨hpre, hin, hpost, hlevel⟩ := traversals_simulate hm hb L info
  have hspans := spans_of_rep hrep
  refine ⟨info, t, hrun, hrep, hmem, ?_, ?_, ?_, fun hne => ?_⟩
  · exact visits_of_simulates hpre (btreePreOrderNorecur_ends hspans) fun _ hu => hu
  · exact visits_of_simulates hin (btreeInOrderNorecur_ends hspans) fun _ hu => hu
  · exact visits_of_simulates hpost (btreePostOrderNorecur_ends hspans hrep.nodup) fun _ hu => hu
  · exact visits_of_simulates hlevel (btreeLevelOrder_ends hspans hne) fun _ hu => hu

/-- Three nodes after a deletion, in a memory in which one address is in use. -/
theorem traversals_restore_three : ∃ (malloc : Malloc ℕ) (info : BtreeInfo ℕ) (t : BinaryTree ℕ),
    (run (btreeInit (fun _ => ⟨none, none, none⟩) fun a b : ℕ => (a : ℤ) - b)
      [.push 4, .push 2, .push 6, .push 3, .del 4]).Ends (.ok info) ∧
    Visits ⟨⟨⟨id, id⟩, fun _ => []⟩, fun y => y == 0⟩
      (btreePostOrderNorecur (Layout.single (Option ℕ)) malloc info
        ⟨⟨⟨id, id⟩, fun _ => []⟩, fun y => y == 0⟩) (postorder t) := by
  obtain ⟨malloc, hm⟩ := exists_malloc ℕ
  obtain ⟨info, t, hrun, -, -, -, -, hpost, -⟩ := traversals_restore (Layout.single (Option ℕ)) hm
    ⟨⟨⟨id, id⟩, fun _ => []⟩, fun y => y == 0⟩ (by simp) (fun a b : ℕ => (a : ℤ) - b)
    (fun _ => ⟨none, none, none⟩) [.push 4, .push 2, .push 6, .push 3, .del 4] (by decide)
  exact ⟨malloc, info, t, hrun, hpost⟩

end Memory

end Btree

end DemoClass
