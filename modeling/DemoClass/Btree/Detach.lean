import DemoClass.Btree.Runs

/-!
# What is left of a deleted node

`btree_del` sets the links of the removed node to `NULL`, unless it has two children: then
they go on pointing into the tree.  Nothing in the tree points to the removed node.  A node
without a parent is taken for the root, so that a second `btree_del` of a detached node
cuts off whatever the root link points to; only an empty tree survives it
(`deletesCleanly_iff`).
-/

namespace DemoClass

namespace Btree

open SearchTree TreeStore

variable {ι : Type}

/-- The node `x` has no links, nothing in the tree points to it, and deleting it again
leaves the tree as it is. -/
structure Detached [DecidableEq ι] (info : BtreeInfo ι) (x : ι) : Prop where
  links : info.store.node x = ⟨none, none, none⟩
  root : info.store.root ≠ some x
  others : ∀ y, info.store.Below info.store.root y → (info.store.node y).parent ≠ some x ∧
    (info.store.node y).lchild ≠ some x ∧ (info.store.node y).rchild ≠ some x
  again : ∃ info' r, (btreeDel info x).Ends (.ok (info', r)) ∧
    ∀ t, info.store.Rep t → info'.store.Rep t

/-- `btree_del` returns zero and leaves the node detached. -/
def DeletesCleanly [DecidableEq ι] (info : BtreeInfo ι) (x : ι) : Prop :=
  ∃ info', (btreeDel info x).Ends (.ok (info', 0)) ∧ Detached info' x

variable {s s' : TreeStore ι} {info : BtreeInfo ι} {t l r : BinaryTree ι} {c : Context ι}
  {q p : Option ι} {x y z cur : ι}

/-! ### Who points to a node -/

lemma mem_outside_of_parentOf (h : parentOf c = some y) : y ∈ outside c := by
  cases c with
  | nil => simp at h
  | cons f c =>
      cases f with
      | left x r =>
          obtain rfl : x = y := by simpa using h
          exact mem_outside_left.2 (Or.inl rfl)
      | right x l =>
          obtain rfl : x = y := by simpa using h
          exact mem_outside_right.2 (Or.inl rfl)

/-- The links of the nodes of a tree point to nodes of it, so none points to another. -/
lemma others_of_notMem (h : s.Rep t) (hx : x ∉ inorder t) (hy : y ∈ inorder t) :
    (s.node y).parent ≠ some x ∧ (s.node y).lchild ≠ some x ∧ (s.node y).rchild ≠ some x := by
  obtain ⟨c, l, r, rfl, hn, -⟩ := h.exists_node hy
  rw [mem_inorder_fill, inorder_node, List.mem_append, List.mem_cons, not_or, not_or, not_or] at hx
  obtain ⟨⟨hl, -, hr⟩, hc⟩ := hx
  rw [hn]
  exact ⟨fun he => hc (mem_outside_of_parentOf he), fun he => hl (mem_of_root? he),
    fun he => hr (mem_of_root? he)⟩

/-! ### The links of the removed node -/

variable [DecidableEq ι]

lemma reparent_lchild (s : TreeStore ι) (q p : Option ι) (x : ι) :
    ((s.reparent q p).node x).lchild = (s.node x).lchild := by
  cases q with
  | none => rfl
  | some y =>
      by_cases hxy : x = y
      · subst hxy
        simp
      · simp [hxy]

/-- The left child link of a node with two children is not written. -/
lemma btreeDelBoth_lchild (hloop : (Comp.loop (btreeDelBody s) z).Ends (.ok cur)) (hcur : x ≠ cur)
    (hx : x ∉ outside c) (hs : (btreeDelBoth s (slotOf c) x z).Ends (.ok s')) :
    (s'.node x).lchild = (s.node x).lchild := by
  rw [btreeDelBoth, hloop.bind_iff] at hs
  obtain ⟨a, -, hs⟩ := Comp.ends_bind_ok_iff.1 hs
  rw [Comp.ends_pure] at hs
  obtain rfl := Except.ok.inj hs
  -- where the heir comes from: the left link of its parent, or the right one of `x`
  have hunlink : ∀ q, ((s.set (if a ≠ x then TreeSlot.lchild a else .rchild a) q).node x).lchild =
      (s.node x).lchild := by
    intro q
    by_cases ha : a = x
    · subst ha
      simp [TreeStore.set]
    · simp [TreeStore.set, ha, Ne.symm ha]
  rw [reparent_lchild, reparent_lchild, set_node_of_notMem _ _ hx, setNode_node,
    Function.update_of_ne hcur, reparent_lchild, hunlink]

/-- A node with at most one child loses all its links. -/
lemma btreeDel_links (h : info.store.Rep (fill c (.node x l r))) (hone : l = .nil ∨ r = .nil) :
    ∃ info', (btreeDel info x).Ends (.ok (info', 0)) ∧
      info'.store.node x = ⟨none, none, none⟩ := by
  obtain ⟨hn, -, hnode⟩ := rep_fill_iff.1 h
  obtain ⟨hnode, -, -⟩ := linked_node.1 hnode
  have hslot : btreeDelSlot info.store x = slotOf c := btreeDelSlot_eq h
  obtain ⟨hin, -, hd⟩ := nodup_inorder_fill.1 hn
  have hx : x ∉ outside c := fun hmem => hd (by simp) hmem
  obtain ⟨a, hroot⟩ := exists_root (x := x) h (mem_inorder_fill.2 (Or.inl (by simp)))
  -- the child that takes its place is another node
  have hchild : ∀ y, x ≠ y →
      ((info.store.setParent y (parentOf c)).set (slotOf c) (some y)).node x =
        ⟨parentOf c, root? l, root? r⟩ := by
    intro y hxy
    rw [set_node_of_notMem _ _ hx, setParent_node, Function.update_of_ne hxy, hnode]
  cases l with
  | nil =>
      cases r with
      | nil =>
          refine ⟨⟨(info.store.set (slotOf c) none).setParent x none, info.cmp⟩, ?_, ?_⟩
          · rw [btreeDel, hroot]
            simp [hnode, hslot]
          · simp [set_node_of_notMem _ _ hx, hnode]
      | node z l₂ r₂ =>
          have hz := hchild z fun he => by simp [he, List.nodup_append] at hin
          refine ⟨⟨(((info.store.setParent z (parentOf c)).set (slotOf c) (some z)).setParent x
            none).set (.rchild x) none, info.cmp⟩, ?_, ?_⟩
          · rw [btreeDel, hroot]
            simp [hnode, hslot]
          · generalize (info.store.setParent z (parentOf c)).set (slotOf c) (some z) = s at hz
            simp [TreeStore.set, hz]
  | node y l₁ r₁ =>
      cases r with
      | nil =>
          have hy := hchild y fun he => by simp [he, List.nodup_append] at hin
          refine ⟨⟨(((info.store.setParent y (parentOf c)).set (slotOf c) (some y)).setParent x
            none).set (.lchild x) none, info.cmp⟩, ?_, ?_⟩
          · rw [btreeDel, hroot]
            simp [hnode, hslot]
          · generalize (info.store.setParent y (parentOf c)).set (slotOf c) (some y) = s at hy
            simp [TreeStore.set, hy]
      | node z l₂ r₂ => simp at hone

/-- A node with two children keeps its left child link. -/
lemma btreeDel_lchild {l₁ r₁ l₂ r₂ : BinaryTree ι} {info' : BtreeInfo ι} {n : ℤ}
    (h : info.store.Rep (fill c (.node x (.node y l₁ r₁) (.node z l₂ r₂))))
    (hend : (btreeDel info x).Ends (.ok (info', n))) :
    (info'.store.node x).lchild = some y := by
  obtain ⟨hn, -, hnode⟩ := rep_fill_iff.1 h
  obtain ⟨hnode, -, hr⟩ := linked_node.1 hnode
  obtain ⟨hin, -, hd⟩ := nodup_inorder_fill.1 hn
  have hslot : btreeDelSlot info.store x = slotOf c := btreeDelSlot_eq h
  obtain ⟨a, hroot⟩ := exists_root (x := x) h (mem_inorder_fill.2 (Or.inl (by simp)))
  -- the heir is another node
  have hcur : x ≠ (leftmost z l₂ r₂ (.right x (.node y l₁ r₁) :: c)).2.1 := by
    intro he
    have hmem : x ∈ inorder (.node z l₂ r₂) := by
      rw [inorder_popLeft, ← leftmost_node z l₂ r₂ (.right x (.node y l₁ r₁) :: c), ← he]
      exact List.mem_cons_self
    rw [inorder_node, List.perm_middle.nodup_iff, List.nodup_cons] at hin
    exact hin.1 (List.mem_append_right _ hmem)
  rw [btreeDel, hroot] at hend
  simp only [hnode, root?_node, hslot] at hend
  obtain ⟨s', hs, hend⟩ := Comp.ends_bind_ok_iff.1 hend
  rw [Comp.ends_pure] at hend
  obtain ⟨rfl, -⟩ := Prod.mk.inj (Except.ok.inj hend)
  have hlchild := btreeDelBoth_lchild (btreeDelLoop_ends hr _) hcur (fun hmem => hd (by simp) hmem)
    hs
  rw [hlchild, hnode]
  rfl

/-- **What a deletion clears.**  The removed node has no links left if it had at most one
child, and only then. -/
theorem btreeDel_links_iff (h : info.store.Rep (fill c (.node x l r))) :
    ∃ info', (btreeDel info x).Ends (.ok (info', 0)) ∧
      (info'.store.node x = ⟨none, none, none⟩ ↔ l = .nil ∨ r = .nil) := by
  obtain ⟨info', hend, -⟩ := btreeDel_ends h (x := x) (mem_inorder_fill.2 (Or.inl (by simp)))
  refine ⟨info', hend, ?_⟩
  constructor
  · intro hlinks
    cases l with
    | nil => exact Or.inl rfl
    | node y l₁ r₁ =>
        cases r with
        | nil => exact Or.inr rfl
        | node z l₂ r₂ =>
            have hlchild := btreeDel_lchild h hend
            simp [hlinks] at hlchild
  · intro hone
    obtain ⟨info₁, hend₁, hlinks⟩ := btreeDel_links h hone
    obtain rfl : info' = info₁ := by simpa using hend.unique hend₁
    exact hlinks

/-! ### A second deletion -/

/-- A node without links is taken for the root, which is then gone. -/
lemma btreeDel_again (hlinks : info.store.node x = ⟨none, none, none⟩) {a : ι}
    (hroot : info.store.root = some a) :
    ∃ info', (btreeDel info x).Ends (.ok (info', 0)) ∧ info'.store.root = none := by
  refine ⟨⟨(info.store.set .root none).setParent x none, info.cmp⟩, ?_, rfl⟩
  rw [btreeDel, hroot]
  simp [hlinks, btreeDelSlot]

/-- The empty tree survives a deletion. -/
lemma btreeDel_empty (hroot : info.store.root = none) (x : ι) :
    (btreeDel info x).Ends (.ok (info, -1)) := by
  rw [btreeDel, hroot]
  simp

/-- A deletion is clean if nothing is left in the tree, and only then. -/
lemma deletesCleanly_iff_of_rep (h : info.store.Rep t) (hx : x ∈ inorder t) :
    DeletesCleanly info x ↔ delete x t = .nil := by
  obtain ⟨info', hend, -, hrep⟩ := btreeDel_ends h hx
  have hroot : info'.store.root = none ↔ delete x t = .nil := by
    rw [hrep.root, root?_eq_none]
  constructor
  · rintro ⟨info₁, hend₁, hd⟩
    obtain rfl : info' = info₁ := by simpa using hend.unique hend₁
    by_contra hne
    obtain ⟨a, ha⟩ := Option.ne_none_iff_exists'.1 fun he => hne (hroot.1 he)
    obtain ⟨info₂, hend₂, hnone⟩ := btreeDel_again hd.links ha
    obtain ⟨info₃, n, hend₃, hkeep⟩ := hd.again
    obtain ⟨rfl, -⟩ : info₂ = info₃ ∧ 0 = n := by simpa using hend₂.unique hend₃
    have hroot' := (hkeep _ hrep).root
    rw [hnone, ← hrep.root, ha] at hroot'
    simp at hroot'
  · intro hnil
    have hout : x ∉ inorder (delete x t) := by simp [hnil]
    obtain ⟨c, l, r, rfl⟩ := exists_eq_fill_of_mem hx
    have hl : l = .nil := by
      have hinorder := inorder_fill_perm c (deleteRoot (.node x l r))
      rw [← delete_fill h.nodup, hnil, inorder_deleteRoot] at hinorder
      have hnone : inorder l = [] ∧ inorder r = [] ∧ outside c = [] := by
        simpa using hinorder.nil_eq.symm
      exact inorder_eq_nil.1 hnone.1
    refine ⟨info', hend, ?_, ?_, fun y hy => ?_, info', -1, btreeDel_empty (hroot.2 hnil) x,
      fun _ ht => ht⟩
    · obtain ⟨info₁, hend₁, hlinks⟩ := btreeDel_links h (Or.inl hl)
      obtain rfl : info' = info₁ := by simpa using hend.unique hend₁
      exact hlinks
    · rw [hroot.2 hnil]
      simp
    · exact others_of_notMem hrep hout (hrep.below_root_iff.1 hy)

lemma delete_ne_nil (h : s.Rep t) (hy : y ∈ inorder t) (hne : y ≠ x) : delete x t ≠ .nil := by
  intro hnil
  have hmem : y ∈ inorder (delete x t) := by
    rw [inorder_delete h.nodup]
    exact h.nodup.mem_erase_iff.2 ⟨hne, hy⟩
  simp [hnil] at hmem

/-- **Deleted nodes.**  After any run of pushes and deletions, deleting a node of the tree
leaves the node detached if it was the only one, and only then: else deleting it once more
takes away the rest of the tree. -/
theorem deletesCleanly_iff (cmp : ι → ι → ℤ) (node : ι → TreeLinks ι) (ops : List (Op ι))
    (hops : AllAllowed ∅ ops) :
    ∃ info, (run (btreeInit node cmp) ops).Ends (.ok info) ∧
      ∀ x ∈ nodesOf ops, (DeletesCleanly info x ↔ nodesOf ops = {x}) := by
  obtain ⟨info, t, hend, hrep, hS⟩ := run_btreeInit node cmp hops
  refine ⟨info, hend, fun x hx => ?_⟩
  rw [deletesCleanly_iff_of_rep hrep ((hS x).2 hx), Finset.eq_singleton_iff_unique_mem]
  constructor
  · intro hnil
    refine ⟨hx, fun y hy => ?_⟩
    by_contra hyx
    exact delete_ne_nil hrep ((hS y).2 hy) hyx hnil
  · rintro ⟨-, huniq⟩
    refine inorder_eq_nil.1 (List.eq_nil_iff_forall_not_mem.2 fun y hy => ?_)
    rw [inorder_delete hrep.nodup, hrep.nodup.mem_erase_iff, hS] at hy
    exact hy.1 (huniq y hy.2)

/-- The only node of a tree. -/
theorem deletesCleanly_iff_one :
    ∃ info, (run (btreeInit (fun _ => ⟨none, none, none⟩) fun a b : ℕ => (a : ℤ) - b)
        [.push 2, .push 1, .del 2]).Ends (.ok info) ∧ DeletesCleanly info 1 := by
  obtain ⟨info, hend, h⟩ := deletesCleanly_iff (fun a b : ℕ => (a : ℤ) - b)
    (fun _ => ⟨none, none, none⟩) [.push 2, .push 1, .del 2] (by decide)
  exact ⟨info, hend, (h 1 (by decide)).2 (by decide)⟩

/-- Two nodes under a root: neither a leaf nor the root is deleted cleanly. -/
theorem not_deletesCleanly_three :
    ∃ info, (run (btreeInit (fun _ => ⟨none, none, none⟩) fun a b : ℕ => (a : ℤ) - b)
        [.push 2, .push 1, .push 3]).Ends (.ok info) ∧
      ¬ DeletesCleanly info 1 ∧ ¬ DeletesCleanly info 2 := by
  have hops : AllAllowed (∅ : Finset ℕ) [.push 2, .push 1, .push 3] := by decide
  obtain ⟨info, t, hend, hrep, hS⟩ :=
    run_btreeInit (fun _ => ⟨none, none, none⟩) (fun a b : ℕ => (a : ℤ) - b) hops
  have h₃ : 3 ∈ inorder t := (hS 3).2 (by decide)
  refine ⟨info, hend, fun h => ?_, fun h => ?_⟩
  · exact delete_ne_nil hrep h₃ (by decide)
      ((deletesCleanly_iff_of_rep hrep ((hS 1).2 (by decide))).1 h)
  · exact delete_ne_nil hrep h₃ (by decide)
      ((deletesCleanly_iff_of_rep hrep ((hS 2).2 (by decide))).1 h)

end Btree

end DemoClass
