import DemoClass.Btree.Btree

/-!
# Traversals of a binary tree (`btree.c`, `stack.c`)

`btree_in_order` and `btree_post_order` recurse along the links, and
`btree_post_order_norecur` keeps the nodes it comes back to on a stack.  The callback
`todo` is seen through the nodes it is called on, in their order.

A traversal only reads the links downwards, so the tree need only be there as far as
these go (`Spans`).  Then the recursive functions visit its nodes in the order of the
tree (`btreeInOrder_ends`, `btreePostOrder_ends`), and the function with the stack
visits them in the same order and ends with an empty stack
(`btreePostOrderNorecur_eq`).
-/

namespace DemoClass

namespace Btree

open SearchTree TreeStore

/-! ### The stack -/

/-- `struct stack_info`, its elements from the top on. -/
abbrev StackInfo (α : Type) := List α

section Stack

variable {α : Type}

/-- `stack_is_empty` -/
def stackIsEmpty (stack : StackInfo α) : Bool := stack.isEmpty

/-- `stack_push` -/
def stackPush (stack : StackInfo α) (data : α) : StackInfo α := data :: stack

/-- `stack_top`: what it returns, and what it leaves in `dest`. -/
def stackTop (stack : StackInfo α) (dest : α) : ℤ × α :=
  match stack with
  | [] => (-1, dest)
  | data :: _ => (0, data)

/-- `stack_pop`: what it returns, the stack, and what it leaves in `dest`. -/
def stackPop (stack : StackInfo α) (dest : α) : ℤ × StackInfo α × α :=
  match stack with
  | [] => (-1, [], dest)
  | data :: stack => (0, stack, data)

end Stack

variable {ι : Type}

/-! ### The functions -/

/-- The body of `__in_order`, on `cur` and the nodes visited so far. -/
def _inOrderBody (s : TreeStore ι) : Comp.RecBody Fault (Option ι × List ι) (List ι) where
  body call w :=
    match w.1 with
    | none => pure w.2
    | some cur => do
      let visited ← call ((s.node cur).lchild, w.2)
      call ((s.node cur).rchild, visited ++ [cur])
  le := by
    rintro f g n h ⟨_ | cur, visited⟩
    · exact Comp.LeUpTo.refl n _
    · exact (h _).bind fun _ => h _

/-- `__in_order` -/
def _inOrder (s : TreeStore ι) (w : Option ι × List ι) : Comp Fault (List ι) :=
  Comp.recur (_inOrderBody s) w

/-- `btree_in_order` -/
def btreeInOrder (info : BtreeInfo ι) : Comp Fault (List ι) :=
  _inOrder info.store (info.store.root, [])

/-- The body of `__post_order`, on `cur` and the nodes visited so far. -/
def _postOrderBody (s : TreeStore ι) : Comp.RecBody Fault (Option ι × List ι) (List ι) where
  body call w :=
    match w.1 with
    | none => pure w.2
    | some cur => do
      let visited ← call ((s.node cur).lchild, w.2)
      let visited ← call ((s.node cur).rchild, visited)
      pure (visited ++ [cur])
  le := by
    rintro f g n h ⟨_ | cur, visited⟩
    · exact Comp.LeUpTo.refl n _
    · exact (h _).bind fun _ => (h _).bind fun _ => Comp.LeUpTo.refl n _

/-- `__post_order` -/
def _postOrder (s : TreeStore ι) (w : Option ι × List ι) : Comp Fault (List ι) :=
  Comp.recur (_postOrderBody s) w

/-- `btree_post_order` -/
def btreePostOrder (info : BtreeInfo ι) : Comp Fault (List ι) :=
  _postOrder info.store (info.store.root, [])

/-- The variables of `btree_post_order_norecur`, with the nodes visited so far. -/
structure PostOrder (ι : Type) where
  stack : StackInfo (Option ι)
  cur : Option ι
  prev : Option ι
  visited : List ι

variable [DecidableEq ι]

/-- One round of the loop of `btree_post_order_norecur`. -/
def btreePostOrderNorecurBody (s : TreeStore ι) (w : PostOrder ι) :
    Comp Fault (PostOrder ι ⊕ PostOrder ι) :=
  if stackIsEmpty w.stack ∧ w.cur = none then pure (.inr w)
  else match w.cur with
    | some cur =>
      pure (.inl { w with stack := stackPush w.stack (some cur), cur := (s.node cur).lchild })
    | none => do
      let (_, top) := stackTop w.stack w.cur
      let cur ← deref top
      if (s.node cur).rchild ≠ none ∧ (s.node cur).rchild ≠ w.prev then
        pure (.inl { w with cur := (s.node cur).rchild })
      else
        let (_, stack, prev) := stackPop w.stack w.prev
        pure (.inl ⟨stack, none, prev, w.visited ++ [cur]⟩)

/-- `btree_post_order_norecur`: the nodes visited, and the stack that is destroyed at the
end. -/
def btreePostOrderNorecur (info : BtreeInfo ι) : Comp Fault (List ι × StackInfo (Option ι)) := do
  let w ← Comp.loop (btreePostOrderNorecurBody info.store) ⟨[], info.store.root, none, []⟩
  pure (w.visited, w.stack)

/-! ### The order of the tree -/

/-- The nodes below the left child of a node, then those below its right child, then the
node. -/
def postorder : BinaryTree ι → List ι
  | .nil => []
  | .node x l r => postorder l ++ (postorder r ++ [x])

/-- The links downwards from the pointer are those of the tree. -/
def Spans (s : TreeStore ι) : Option ι → BinaryTree ι → Prop
  | q, .nil => q = none
  | q, .node x l r => q = some x ∧ Spans s (s.node x).lchild l ∧ Spans s (s.node x).rchild r

variable {s : TreeStore ι} {info : BtreeInfo ι} {t : BinaryTree ι} {p q : Option ι}
  {visited : List ι} {stack : StackInfo (Option ι)}

omit [DecidableEq ι] in
lemma Spans.root (h : Spans s q t) : q = root? t := by
  cases t with
  | nil => exact h
  | node x l r => exact h.1

omit [DecidableEq ι] in
lemma spans_of_linked (h : s.Linked p t) : Spans s (root? t) t := by
  induction t generalizing p with
  | nil => rfl
  | node x l r ihl ihr =>
      obtain ⟨hx, hl, hr⟩ := linked_node.1 h
      refine ⟨rfl, ?_, ?_⟩
      · rw [hx]
        exact ihl hl
      · rw [hx]
        exact ihr hr

omit [DecidableEq ι] in
lemma spans_of_rep (h : s.Rep t) : Spans s s.root t := by
  rw [h.root]
  exact spans_of_linked h.linked

omit [DecidableEq ι] in
lemma inOrder_ends (h : Spans s q t) (visited : List ι) :
    (_inOrder s (q, visited)).Ends (.ok (visited ++ inorder t)) := by
  induction t generalizing q visited with
  | nil =>
      obtain rfl : q = none := h
      exact Comp.Ends.recur (by simp [_inOrderBody])
  | node x l r ihl ihr =>
      obtain ⟨rfl, hl, hr⟩ := h
      refine Comp.Ends.recur ((ihl hl visited).bind ?_)
      have h := ihr hr (visited ++ inorder l ++ [x])
      rw [List.append_assoc, List.append_assoc, List.append_assoc] at h
      rwa [inorder_node, List.append_assoc]

omit [DecidableEq ι] in
/-- **`btree_in_order`** visits the nodes from left to right. -/
theorem btreeInOrder_ends (h : Spans info.store info.store.root t) :
    (btreeInOrder info).Ends (.ok (inorder t)) := inOrder_ends h []

omit [DecidableEq ι] in
lemma postOrder_ends (h : Spans s q t) (visited : List ι) :
    (_postOrder s (q, visited)).Ends (.ok (visited ++ postorder t)) := by
  induction t generalizing q visited with
  | nil =>
      obtain rfl : q = none := h
      exact Comp.Ends.recur (by simp [_postOrderBody, postorder])
  | node x l r ihl ihr =>
      obtain ⟨rfl, hl, hr⟩ := h
      refine Comp.Ends.recur ((ihl hl visited).bind ((ihr hr _).bind ?_))
      simp [postorder]

omit [DecidableEq ι] in
/-- **`btree_post_order`** visits the children before the node. -/
theorem btreePostOrder_ends (h : Spans info.store info.store.root t) :
    (btreePostOrder info).Ends (.ok (postorder t)) := postOrder_ends h []

/-! ### The stack instead of the recursion -/

/-- At a node whose left part has been visited, `prev` is not yet the right child, and
the right part comes next. -/
lemma norecurBody_right {x y : ι} (hy : (s.node x).rchild = some y) (hprev : p ≠ some y) :
    (btreePostOrderNorecurBody s ⟨some x :: stack, none, p, visited⟩).Ends
      (.ok (.inl ⟨some x :: stack, some y, p, visited⟩)) := by
  simp [btreePostOrderNorecurBody, stackIsEmpty, stackTop, deref, hy, Ne.symm hprev]

/-- At a node whose right part is empty or was visited last, the node comes next. -/
lemma norecurBody_visit {x : ι} (h : (s.node x).rchild = none ∨ (s.node x).rchild = p) :
    (btreePostOrderNorecurBody s ⟨some x :: stack, none, p, visited⟩).Ends
      (.ok (.inl ⟨stack, none, some x, visited ++ [x]⟩)) := by
  rcases h with h | h <;>
    simp [btreePostOrderNorecurBody, stackIsEmpty, stackTop, stackPop, deref, h]

/-- From the root of a subtree on, the loop visits the subtree and is then where it came
from, with `prev` at the root of the subtree.  Before that, `prev` is outside it. -/
lemma norecur_subtree (h : Spans s q t) (hn : (inorder t).Nodup)
    (hp : ∀ y, p = some y → y ∉ inorder t) {r : Except Fault (PostOrder ι)}
    (hr : (Comp.loop (btreePostOrderNorecurBody s)
      ⟨stack, none, (root? t).or p, visited ++ postorder t⟩).Ends r) :
    (Comp.loop (btreePostOrderNorecurBody s) ⟨stack, q, p, visited⟩).Ends r := by
  induction t generalizing q p stack visited with
  | nil =>
      obtain rfl : q = none := h
      simpa [postorder] using hr
  | node x l r' ihl ihr =>
      obtain ⟨rfl, hl, hrc⟩ := h
      obtain ⟨hnl, hnr, hd⟩ := List.nodup_append'.1 hn
      obtain ⟨hxr, hnr⟩ := List.nodup_cons.1 hnr
      have hpl : ∀ y, p = some y → y ∉ inorder l := fun y hy hmem => hp y hy (by simp [hmem])
      -- `prev` is at the root of the left part, or where it was if this is empty
      have hpr : ∀ y, (root? l).or p = some y → y ∉ inorder r' := by
        intro y hy hmem
        cases hroot : root? l with
        | none => exact hp y (by simpa [hroot] using hy) (by simp [hmem])
        | some z =>
            obtain rfl : z = y := by simpa [hroot] using hy
            exact hd (mem_of_root? hroot) (List.mem_cons_of_mem _ hmem)
      refine Comp.Ends.loop_inl (t := ⟨some x :: stack, (s.node x).lchild, p, visited⟩)
        (by simp [btreePostOrderNorecurBody, stackPush]) (ihl hl hnl hpl ?_)
      -- the left part is visited, and `x` is on top of the stack
      have hvisit : ∀ p', (s.node x).rchild = none ∨ (s.node x).rchild = p' →
          (Comp.loop (btreePostOrderNorecurBody s) ⟨some x :: stack, none, p',
            visited ++ postorder l ++ postorder r'⟩).Ends r := by
        intro p' hp'
        refine (norecurBody_visit hp').loop_inl ?_
        simpa [postorder] using hr
      have hroot := hrc.root
      cases hr' : root? r' with
      | none =>
          obtain rfl : r' = .nil := root?_eq_none.1 hr'
          have h₀ := hvisit ((root? l).or p) (Or.inl hroot)
          simpa [postorder] using h₀
      | some y =>
          rw [hr'] at hroot
          have hne : (root? l).or p ≠ some y := fun he => hpr y he (mem_of_root? hr')
          refine (norecurBody_right hroot hne).loop_inl ?_
          rw [hroot] at hrc
          refine ihr hrc hnr hpr (hvisit _ (Or.inr ?_))
          rw [hroot, hr']
          rfl

lemma btreePostOrderNorecur_ends (h : Spans info.store info.store.root t)
    (hn : (inorder t).Nodup) : (btreePostOrderNorecur info).Ends (.ok (postorder t, [])) := by
  have hloop : (Comp.loop (btreePostOrderNorecurBody info.store)
      ⟨[], info.store.root, none, []⟩).Ends
      (.ok ⟨[], none, (root? t).or none, [] ++ postorder t⟩) := by
    refine norecur_subtree h hn (by simp) (Comp.Ends.loop_inr ?_)
    simp [btreePostOrderNorecurBody, stackIsEmpty]
  exact hloop.bind (by simp)

/-- **The traversal without recursion.**  On a finite tree with distinct nodes,
`btree_post_order_norecur` returns, it calls `todo` on the nodes on which
`btree_post_order` calls it, in the same order, and the stack is empty at the end. -/
theorem btreePostOrderNorecur_eq (info : BtreeInfo ι) (t : BinaryTree ι)
    (h : Spans info.store info.store.root t) (hn : (inorder t).Nodup) :
    ∃ visited, (btreePostOrder info).Ends (.ok visited) ∧
      (btreePostOrderNorecur info).Ends (.ok (visited, [])) :=
  ⟨postorder t, btreePostOrder_ends h, btreePostOrderNorecur_ends h hn⟩

/-- A node with a left child that has only a right child, and a right child. -/
theorem btreePostOrderNorecur_eq_four : ∃ visited,
    (btreePostOrder ⟨⟨some 4, fun n => if n = 4 then ⟨none, some 2, some 5⟩ else
      if n = 2 then ⟨none, none, some 3⟩ else ⟨none, none, none⟩⟩, fun a b : ℕ => (a : ℤ) - b⟩).Ends
        (.ok visited) ∧
    (btreePostOrderNorecur ⟨⟨some 4, fun n => if n = 4 then ⟨none, some 2, some 5⟩ else
      if n = 2 then ⟨none, none, some 3⟩ else ⟨none, none, none⟩⟩, fun a b : ℕ => (a : ℤ) - b⟩).Ends
        (.ok (visited, [])) :=
  btreePostOrderNorecur_eq _
    (.node 4 (.node 2 .nil (.node 3 .nil .nil)) (.node 5 .nil .nil))
    (by simp [Spans]) (by decide)

end Btree

end DemoClass
