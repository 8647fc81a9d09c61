import DemoClass.Btree.Btree

/-!
# What `btree_push` and `btree_del` do to the tree

On a store that holds a tree, `btree_push` of a node outside it leaves the tree in
which the node is inserted (`btreePush_ends`), and `btree_del` of a node of it the
tree in which the node is deleted (`btreeDel_ends`).  Neither needs the tree to be
ordered: the comparison may be any function.
-/

namespace DemoClass

namespace Btree

open SearchTree TreeStore

variable {ι : Type} {s : TreeStore ι} {info : BtreeInfo ι} {t l r : BinaryTree ι} {c : Context ι}
  {p : Option ι} {x y : ι}

lemma exists_root (h : s.Rep t) (hx : x ∈ inorder t) : ∃ a, s.root = some a := by
  refine Option.ne_none_iff_exists'.1 fun he => ?_
  rw [h.root, root?_eq_none] at he
  simp [he] at hx

/-! ### The two walks -/

/-- `pparent` goes down to the hole in which the insertion of `x` puts its leaf. -/
lemma btreePushLoop_ends (cmp : ι → ι → ℤ) (x : ι) (hc : s.LinkedAround c (root? t))
    (ht : s.Linked (parentOf c) t) :
    (Comp.loop (btreePushBody cmp s x) (slotOf c, parentOf c)).Ends
      (.ok (slotOf (descend cmp x t c), parentOf (descend cmp x t c))) := by
  induction t generalizing c with
  | nil =>
      refine Comp.Ends.loop_inr ?_
      simp [btreePushBody, hc.get_slotOf, descend]
  | node y l r ihl ihr =>
      obtain ⟨hy, hl, hr⟩ := linked_node.1 ht
      have hget : s.get (slotOf c) = some y := hc.get_slotOf
      by_cases hxy : 0 ≤ cmp x y
      · rw [descend, if_pos hxy]
        refine Comp.Ends.loop_inl ?_ (ihr (c := .right y l :: c) ⟨hy, hl, hc⟩ hr)
        simp [btreePushBody, hget, hxy]
      · rw [descend, if_neg hxy]
        refine Comp.Ends.loop_inl ?_ (ihl (c := .left y r :: c) ⟨hy, hr, hc⟩ hl)
        simp [btreePushBody, hget, hxy]

/-- `cur` goes down to the leftmost node. -/
lemma btreeDelLoop_ends (h : s.Linked p (.node x l r)) (c : Context ι) :
    (Comp.loop (btreeDelBody s) x).Ends (.ok (leftmost x l r c).2.1) := by
  induction l generalizing p x r c with
  | nil =>
      refine Comp.Ends.loop_inr ?_
      simp [btreeDelBody, (linked_node.1 h).1, leftmost]
  | node y l' r' ihl _ =>
      obtain ⟨hx, hl, -⟩ := linked_node.1 h
      refine Comp.Ends.loop_inl ?_ (ihl hl (.left x r :: c))
      simp [btreeDelBody, hx]

variable [DecidableEq ι]

/-! ### Insertion -/

/-- **`btree_push` inserts.** -/
theorem btreePush_ends (h : info.store.Rep t) (hx : x ∉ inorder t) :
    ∃ info', (btreePush info x).Ends (.ok info') ∧ info'.cmp = info.cmp ∧
      info'.store.Rep (insert info.cmp x t) := by
  have h₀ : (bnodeInit info.store x).Rep t := h.setNode hx _
  have hnew : (bnodeInit info.store x).Linked none (.node x .nil .nil) :=
    linked_node.2 ⟨by simp [bnodeInit], trivial, trivial⟩
  -- the place of `x`, with nothing in it yet
  have hplace : (bnodeInit info.store x).Rep (fill (descend info.cmp x t []) .nil) := by
    rw [fill_descend_nil]
    exact h₀
  have hout : x ∉ outside (descend info.cmp x t []) := by
    intro hmem
    have hmem' : x ∈ inorder (fill (descend info.cmp x t []) .nil) :=
      mem_inorder_fill.2 (Or.inr hmem)
    rw [fill_descend_nil] at hmem'
    exact hx hmem'
  have hgraft := hplace.graft hnew (by simp) (by simpa using hout)
  rw [fill_descend] at hgraft
  cases t with
  | nil =>
      have hroot : (bnodeInit info.store x).root = none := h₀.root
      refine ⟨⟨(bnodeInit info.store x).set .root (some x), info.cmp⟩, ?_, rfl, ?_⟩
      · rw [btreePush, hroot]
        exact Comp.ends_pure.2 rfl
      · refine hgraft.congr rfl fun y hy => ?_
        obtain rfl : y = x := by simpa [SearchTree.insert, fill] using hy
        simp [descend, TreeStore.set, bnodeInit]
  | node y l r =>
      have hroot : (bnodeInit info.store x).root = some y := h₀.root
      obtain ⟨-, hc, ht⟩ := rep_fill_iff.1 (show (bnodeInit info.store x).Rep
        (fill [] (.node y l r)) from h₀)
      have hloop := btreePushLoop_ends info.cmp x hc ht
      refine ⟨⟨_, info.cmp⟩, ?_, ?_, hgraft⟩
      · rw [btreePush, hroot]
        exact hloop.bind (Comp.ends_pure.2 rfl)
      · rfl

/-! ### Deletion -/

/-- The slot `btree_del` finds is the one of the context. -/
lemma btreeDelSlot_eq (h : s.Rep (fill c (.node x l r))) : btreeDelSlot s x = slotOf c := by
  obtain ⟨hn, hc, ht⟩ := rep_fill_iff.1 h
  have hx : (s.node x).parent = parentOf c := ht.parent_eq rfl
  rw [btreeDelSlot, hx]
  cases c with
  | nil => rfl
  | cons f c =>
      cases f with
      | left y r' => simp [hc.1]
      | right y l' =>
          -- `btree_del` looks at the left child link only, which points elsewhere
          have hne : root? l' ≠ some x := by
            intro he
            have hout : x ∈ outside (.right y l' :: c) :=
              mem_outside_right.2 (Or.inr (Or.inl (mem_of_root? he)))
            exact (nodup_inorder_fill.1 hn).2.2 (by simp) hout
          simp [hc.1, hne]

omit [DecidableEq ι] in
/-- The root of a subtree is outside it once another tree is grafted in its place. -/
lemma notMem_fill_of_nodup (hn : (inorder (fill c (.node x l r))).Nodup) (t : BinaryTree ι)
    (ht : inorder t ⊆ inorder l ++ inorder r) : x ∉ inorder (fill c t) := by
  obtain ⟨hin, -, hd⟩ := nodup_inorder_fill.1 hn
  rw [inorder_node, List.perm_middle.nodup_iff, List.nodup_cons] at hin
  rw [mem_inorder_fill, not_or]
  exact ⟨fun hmem => hin.1 (ht hmem), fun hmem => hd (by simp) hmem⟩

/-- A node with at most one child: the child takes its place. -/
lemma rep_graft_child (h : s.Rep (fill c (.node x l r))) (hu : t = l ∨ t = r)
    (ht : inorder t ⊆ inorder l ++ inorder r) :
    ((s.set (slotOf c) (root? t)).reparent (root? t) (parentOf c)).Rep (fill c t) := by
  obtain ⟨hn, -, hl⟩ := rep_fill_iff.1 h
  obtain ⟨hin, -, hd⟩ := nodup_inorder_fill.1 hn
  obtain ⟨-, hl, hr⟩ := linked_node.1 hl
  obtain ⟨hnl, hnr, -⟩ := List.nodup_append'.1 hin
  have hlink : s.Linked (some x) t := by
    rcases hu with rfl | rfl
    · exact hl
    · exact hr
  have hnt : (inorder t).Nodup := by
    rcases hu with rfl | rfl
    · exact hnl
    · exact (List.nodup_cons.1 hnr).2
  refine h.graft hlink hnt fun a ha => hd ?_
  rcases List.mem_append.1 (ht ha) with ha | ha
  · exact List.mem_append_left _ ha
  · exact List.mem_append_right _ (List.mem_cons_of_mem _ ha)

/-- The slot of a node that has a parent is a child link of the parent; the walk to
the left leaves the right child link of the node it starts from only once. -/
lemma slotOf_leftmost (x z : ι) (l l₂ r₂ : BinaryTree ι) (c : Context ι)
    (hx : x ∉ inorder (.node z l₂ r₂)) :
    ∃ p, parentOf (leftmost z l₂ r₂ (.right x l :: c)).1 = some p ∧
      slotOf (leftmost z l₂ r₂ (.right x l :: c)).1 = if p ≠ x then .lchild p else .rchild p := by
  cases l₂ with
  | nil => exact ⟨x, rfl, by simp [leftmost]⟩
  | node y l' r' =>
      -- from the second node on, the walk is at the left child of a node below `x`
      suffices h : ∀ (y : ι) (l' r' : BinaryTree ι) (a : ι) (b : BinaryTree ι) (d : Context ι),
          x ∉ inorder (.node y l' r') → a ≠ x →
          ∃ p, parentOf (leftmost y l' r' (.left a b :: d)).1 = some p ∧
            slotOf (leftmost y l' r' (.left a b :: d)).1 = if p ≠ x then .lchild p else .rchild p by
        simp only [inorder_node, List.mem_append, List.mem_cons, not_or] at hx
        exact h y l' r' z r₂ _ (by simp [hx]) (Ne.symm hx.2.1)
      intro y l'
      induction l' generalizing y with
      | nil => exact fun r' a b d _ ha => ⟨a, rfl, by simp [leftmost, ha]⟩
      | node w l₃ r₃ ih _ =>
          intro r' a b d hx _
          simp only [inorder_node, List.mem_append, List.mem_cons, not_or] at hx
          exact ih w r₃ y r' _ (by simp [hx]) (Ne.symm hx.2.1)

/-- **The heir.**  The leftmost node of the right subtree is unlinked and takes the
place of the node. -/
lemma btreeDelBoth_ends {y z : ι} {l₁ r₁ l₂ r₂ : BinaryTree ι}
    (h : s.Rep (fill c (.node x (.node y l₁ r₁) (.node z l₂ r₂)))) :
    ∃ s', (btreeDelBoth s (slotOf c) x z).Ends (.ok s') ∧
      s'.Rep (fill c (deleteRoot (.node x (.node y l₁ r₁) (.node z l₂ r₂)))) := by
  obtain ⟨hn, hc, hnode⟩ := rep_fill_iff.1 h
  obtain ⟨hx, hl, hr⟩ := linked_node.1 hnode
  have hxr : x ∉ inorder (.node z l₂ r₂) := by
    have hin := (nodup_inorder_fill.1 hn).1
    rw [inorder_node, List.perm_middle.nodup_iff, List.nodup_cons, List.mem_append, not_or] at hin
    exact hin.1.2
  -- the heir, in its context in the whole tree
  generalize hd : leftmost z l₂ r₂ (.right x (.node y l₁ r₁) :: c) = d
  have hloop : (Comp.loop (btreeDelBody s) z).Ends (.ok d.2.1) := hd ▸ btreeDelLoop_ends hr _
  have hfill : fill d.1 (.node d.2.1 .nil d.2.2) =
      fill c (.node x (.node y l₁ r₁) (.node z l₂ r₂)) :=
    hd ▸ fill_leftmost z l₂ r₂ (.right x (.node y l₁ r₁) :: c)
  have hpop : fill d.1 d.2.2 = fill c (.node x (.node y l₁ r₁) (popLeft z l₂ r₂).2) :=
    hd ▸ fill_leftmost_pop z l₂ r₂ (.right x (.node y l₁ r₁) :: c)
  have hcur : d.2.1 = (popLeft z l₂ r₂).1 :=
    hd ▸ leftmost_node z l₂ r₂ (.right x (.node y l₁ r₁) :: c)
  obtain ⟨p, hp, hslot⟩ := hd ▸ slotOf_leftmost x z (.node y l₁ r₁) l₂ r₂ c hxr
  obtain ⟨e, cur, w⟩ := d
  simp only at hloop hfill hpop hcur hp hslot
  rw [← hfill] at h hn
  obtain ⟨-, -, hcurn⟩ := rep_fill_iff.1 h
  obtain ⟨hcurn, -, -⟩ := linked_node.1 hcurn
  -- first the heir leaves its place, then it takes the one of `x`
  have hunlink := rep_graft_child h (Or.inr rfl) (by simp)
  have hout : cur ∉ inorder (fill e w) := notMem_fill_of_nodup hn w (by simp)
  rw [hpop] at hunlink hout
  have hsub := hunlink.substitute hout
  rw [deleteRoot, ← hcur]
  refine ⟨_, ?_, hsub⟩
  -- what `btree_del` reads on the way
  have hcure : cur ∉ outside e := fun hmem => (nodup_inorder_fill.1 hn).2.2 (by simp) hmem
  have hcurc : cur ∉ outside c := fun hmem => hout (mem_inorder_fill.2 (Or.inr hmem))
  have hcury : some y ≠ some cur := by
    rintro ⟨⟩
    exact hout (mem_inorder_fill.2 (Or.inl (by simp)))
  have hread := (linked_node.1 (rep_fill_iff.1 hunlink).2.2).1
  refine hloop.bind ?_
  rw [hcurn, hp]
  simp only [deref, pure_bind, ← hslot, set_node_of_notMem _ _ hcure, hcurn]
  rw [hp] at hread ⊢
  simp only [set_node_of_notMem _ _ hcurc, setNode_node, Function.update_self, hread, root?_node,
    reparent_node_of_ne _ _ hcury, Comp.ends_pure]

/-- **`btree_del` deletes.** -/
theorem btreeDel_ends (h : info.store.Rep t) (hx : x ∈ inorder t) :
    ∃ info', (btreeDel info x).Ends (.ok (info', 0)) ∧ info'.cmp = info.cmp ∧
      info'.store.Rep (delete x t) := by
  obtain ⟨c, l, r, rfl⟩ := exists_eq_fill_of_mem hx
  obtain ⟨hn, -, hnode⟩ := rep_fill_iff.1 h
  obtain ⟨hnode, -, -⟩ := linked_node.1 hnode
  have hslot : btreeDelSlot info.store x = slotOf c := btreeDelSlot_eq h
  obtain ⟨a, hroot⟩ := exists_root h hx
  rw [delete_fill hn]
  match l, r with
  | .nil, .nil =>
      have hrep := rep_graft_child h (Or.inl rfl) (by simp)
      have hout := notMem_fill_of_nodup hn .nil (by simp)
      refine ⟨⟨(info.store.set (slotOf c) none).setParent x none, info.cmp⟩, ?_, rfl,
        hrep.setNode hout _⟩
      rw [btreeDel, hroot]
      simp [hnode, hslot]
  | .node y l₁ r₁, .nil =>
      have hrep := rep_graft_child h (Or.inl rfl) (by simp)
      have hout := notMem_fill_of_nodup hn (.node y l₁ r₁) (by simp)
      refine ⟨⟨(((info.store.set (slotOf c) (some y)).setParent y (parentOf c)).setParent x
        none).set (.lchild x) none, info.cmp⟩, ?_, rfl, (hrep.setNode hout _).setNode hout _⟩
      rw [btreeDel, hroot]
      simp [hnode, hslot, set_setParent]
  | .nil, .node z l₂ r₂ =>
      have hrep := rep_graft_child h (Or.inr rfl) (by simp)
      have hout := notMem_fill_of_nodup hn (.node z l₂ r₂) (by simp)
      refine ⟨⟨(((info.store.set (slotOf c) (some z)).setParent z (parentOf c)).setParent x
        none).set (.rchild x) none, info.cmp⟩, ?_, rfl, (hrep.setNode hout _).setNode hout _⟩
      rw [btreeDel, hroot]
      simp [hnode, hslot, set_setParent]
  | .node y l₁ r₁, .node z l₂ r₂ =>
      obtain ⟨s, hs, hrep⟩ := btreeDelBoth_ends h
      refine ⟨⟨s, info.cmp⟩, ?_, rfl, hrep⟩
      rw [btreeDel, hroot]
      simp only [hnode, root?_node, hslot]
      exact hs.bind (Comp.ends_pure.2 rfl)

end Btree

end DemoClass
