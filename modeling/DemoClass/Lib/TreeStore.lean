import DemoClass.Lib.SearchTree
import Mathlib.Logic.Function.Basic

/-!
# Binary trees with parent links in a store

A store gives every node a parent and two children, and holds the link to the root.
A tree is in the store, `TreeStore.Rep s t`, when its nodes are distinct and every
node of it has the links that the tree prescribes (`Linked`); the tree is determined
by the store.  A subtree is in the store together with its context
(`rep_fill_iff`), and the link to it is in one place, the slot of the context.

Two rewritings of the links are what insertion and deletion are made of:
`Rep.graft` puts another tree in the place of a subtree, and `Rep.substitute` puts
another node in the place of a node.
-/

namespace DemoClass

open SearchTree

/-- The links of a node. -/
@[ext]
structure TreeLinks (ι : Type) where
  parent : Option ι
  lchild : Option ι
  rchild : Option ι

/-- The link to the root and the links of all nodes. -/
@[ext]
structure TreeStore (ι : Type) where
  root : Option ι
  node : ι → TreeLinks ι

/-- The places of the links downwards. -/
inductive TreeSlot (ι : Type)
  | root
  | lchild (x : ι)
  | rchild (x : ι)

namespace TreeStore

variable {ι : Type}

/-- The link in a slot. -/
def get (s : TreeStore ι) : TreeSlot ι → Option ι
  | .root => s.root
  | .lchild x => (s.node x).lchild
  | .rchild x => (s.node x).rchild

/-- `y` is the node `q` points to or below it. -/
inductive Below (s : TreeStore ι) : Option ι → ι → Prop
  | refl (x : ι) : Below s (some x) x
  | left {x y : ι} : Below s (s.node x).lchild y → Below s (some x) y
  | right {x y : ι} : Below s (s.node x).rchild y → Below s (some x) y

/-- The nodes of `t` have the links that `t` prescribes, and `p` is the parent of its
root. -/
def Linked (s : TreeStore ι) : Option ι → BinaryTree ι → Prop
  | _, .nil => True
  | p, .node x l r =>
    s.node x = ⟨p, root? l, root? r⟩ ∧ s.Linked (some x) l ∧ s.Linked (some x) r

/-- The tree `t` is in the store. -/
structure Rep (s : TreeStore ι) (t : BinaryTree ι) : Prop where
  nodup : (inorder t).Nodup
  root : s.root = root? t
  linked : s.Linked none t

/-- The parent of what is put into the hole. -/
def parentOf : Context ι → Option ι
  | [] => none
  | .left x _ :: _ => some x
  | .right x _ :: _ => some x

/-- The place of the link to what is put into the hole. -/
def slotOf : Context ι → TreeSlot ι
  | [] => .root
  | .left x _ :: _ => .lchild x
  | .right x _ :: _ => .rchild x

/-- The nodes outside the hole have the links that the context prescribes, and `q` is
the link to what is in the hole. -/
def LinkedAround (s : TreeStore ι) : Context ι → Option ι → Prop
  | [], q => s.root = q
  | .left x r :: c, q =>
    s.node x = ⟨parentOf c, q, root? r⟩ ∧ s.Linked (some x) r ∧ s.LinkedAround c (some x)
  | .right x l :: c, q =>
    s.node x = ⟨parentOf c, root? l, q⟩ ∧ s.Linked (some x) l ∧ s.LinkedAround c (some x)

variable {s s' : TreeStore ι} {t u l r : BinaryTree ι} {c : Context ι} {p p' q q' : Option ι}
  {x y : ι}

@[simp] lemma parentOf_nil : parentOf ([] : Context ι) = none := rfl

@[simp] lemma parentOf_left : parentOf (.left x r :: c) = some x := rfl

@[simp] lemma parentOf_right : parentOf (.right x l :: c) = some x := rfl

@[simp] lemma slotOf_nil : slotOf ([] : Context ι) = .root := rfl

@[simp] lemma slotOf_left : slotOf (.left x r :: c) = .lchild x := rfl

@[simp] lemma slotOf_right : slotOf (.right x l :: c) = .rchild x := rfl

@[simp] lemma linked_nil : s.Linked p .nil := trivial

lemma linked_node : s.Linked p (.node x l r) ↔
    s.node x = ⟨p, root? l, root? r⟩ ∧ s.Linked (some x) l ∧ s.Linked (some x) r := Iff.rfl

lemma rep_nil (h : s.root = none) : s.Rep .nil := ⟨by simp, h, trivial⟩

lemma Linked.congr (h : s.Linked p t) (hs : ∀ x ∈ inorder t, s'.node x = s.node x) :
    s'.Linked p t := by
  induction t generalizing p with
  | nil => trivial
  | node x l r ihl ihr =>
      obtain ⟨hx, hl, hr⟩ := linked_node.1 h
      refine linked_node.2 ⟨(hs x (by simp)).trans hx, ihl hl ?_, ihr hr ?_⟩
      · exact fun y hy => hs y (by simp [hy])
      · exact fun y hy => hs y (by simp [hy])

lemma LinkedAround.congr (h : s.LinkedAround c q) (hroot : s'.root = s.root)
    (hs : ∀ x ∈ outside c, s'.node x = s.node x) : s'.LinkedAround c q := by
  induction c generalizing q with
  | nil => exact hroot.trans h
  | cons f c ih =>
      cases f with
      | left x r =>
          simp only [mem_outside_left] at hs
          exact ⟨(hs x (by simp)).trans h.1, h.2.1.congr fun y hy => hs y (by simp [hy]),
            ih h.2.2 fun y hy => hs y (by simp [hy])⟩
      | right x l =>
          simp only [mem_outside_right] at hs
          exact ⟨(hs x (by simp)).trans h.1, h.2.1.congr fun y hy => hs y (by simp [hy]),
            ih h.2.2 fun y hy => hs y (by simp [hy])⟩

lemma Rep.congr (h : s.Rep t) (hroot : s'.root = s.root)
    (hs : ∀ x ∈ inorder t, s'.node x = s.node x) : s'.Rep t :=
  ⟨h.nodup, hroot.trans h.root, h.linked.congr hs⟩

/-- A tree is in the store when its context and the subtree in the hole are. -/
lemma rep_fill_iff : s.Rep (fill c t) ↔
    (inorder (fill c t)).Nodup ∧ s.LinkedAround c (root? t) ∧ s.Linked (parentOf c) t := by
  suffices h : s.root = root? (fill c t) ∧ s.Linked none (fill c t) ↔
      s.LinkedAround c (root? t) ∧ s.Linked (parentOf c) t from
    ⟨fun hr => ⟨hr.nodup, h.1 ⟨hr.root, hr.linked⟩⟩, fun hr => ⟨hr.1, (h.2 hr.2).1, (h.2 hr.2).2⟩⟩
  induction c generalizing t with
  | nil => exact Iff.rfl
  | cons f c ih =>
      cases f with
      | left x r =>
          rw [fill, ih, linked_node, LinkedAround, root?_node, parentOf]
          tauto
      | right x l =>
          rw [fill, ih, linked_node, LinkedAround, root?_node, parentOf]
          tauto

lemma LinkedAround.get_slotOf (h : s.LinkedAround c q) : s.get (slotOf c) = q := by
  cases c with
  | nil => exact h
  | cons f c =>
      cases f with
      | left x r => simp [get, h.1]
      | right x l => simp [get, h.1]

/-! ### The nodes below a link -/

lemma Linked.below_iff (h : s.Linked p t) : s.Below (root? t) y ↔ y ∈ inorder t := by
  induction t generalizing p with
  | nil =>
      constructor
      · rintro ⟨⟩
      · intro hy
        simp at hy
  | node x l r ihl ihr =>
      obtain ⟨hx, hl, hr⟩ := linked_node.1 h
      rw [inorder_node, List.mem_append, List.mem_cons, ← ihl hl, ← ihr hr]
      constructor
      · intro hb
        cases hb with
        | refl => exact Or.inr (Or.inl rfl)
        | left hb => exact Or.inl (by simpa [hx] using hb)
        | right hb => exact Or.inr (Or.inr (by simpa [hx] using hb))
      · rintro (hb | rfl | hb)
        · exact .left (by simpa [hx] using hb)
        · exact .refl _
        · exact .right (by simpa [hx] using hb)

lemma Rep.below_root_iff (h : s.Rep t) : s.Below s.root y ↔ y ∈ inorder t := by
  rw [h.root]
  exact h.linked.below_iff

/-- The links of a node of the tree, with the subtrees it has there. -/
lemma Rep.exists_node (h : s.Rep t) (hx : x ∈ inorder t) : ∃ c l r, t = fill c (.node x l r) ∧
    s.node x = ⟨parentOf c, root? l, root? r⟩ ∧ s.Linked (some x) l ∧ s.Linked (some x) r ∧
      s.LinkedAround c (some x) := by
  obtain ⟨c, l, r, rfl⟩ := exists_eq_fill_of_mem hx
  obtain ⟨-, hc, hn⟩ := rep_fill_iff.1 h
  obtain ⟨hx, hl, hr⟩ := linked_node.1 hn
  exact ⟨c, l, r, rfl, hx, hl, hr, hc⟩

lemma Linked.parent_eq (h : s.Linked p t) (hr : root? t = some y) : (s.node y).parent = p := by
  cases t with
  | nil => simp at hr
  | node x l r =>
      obtain rfl : x = y := by simpa using hr
      rw [(linked_node.1 h).1]

/-! ### Writing links -/

variable [DecidableEq ι]

/-- Write all links of a node. -/
def setNode (s : TreeStore ι) (x : ι) (n : TreeLinks ι) : TreeStore ι :=
  { s with node := Function.update s.node x n }

def setParent (s : TreeStore ι) (x : ι) (p : Option ι) : TreeStore ι :=
  s.setNode x { s.node x with parent := p }

/-- Write the link in a slot. -/
def set (s : TreeStore ι) : TreeSlot ι → Option ι → TreeStore ι
  | .root, q => { s with root := q }
  | .lchild x, q => s.setNode x { s.node x with lchild := q }
  | .rchild x, q => s.setNode x { s.node x with rchild := q }

/-- Write the parent link of the node `q` points to, if it points to one. -/
def reparent (s : TreeStore ι) (q p : Option ι) : TreeStore ι :=
  match q with
  | none => s
  | some x => s.setParent x p

@[simp] lemma setNode_root (s : TreeStore ι) (x : ι) (n : TreeLinks ι) :
    (s.setNode x n).root = s.root := rfl

@[simp] lemma setNode_node (s : TreeStore ι) (x : ι) (n : TreeLinks ι) :
    (s.setNode x n).node = Function.update s.node x n := rfl

@[simp] lemma setParent_root (s : TreeStore ι) (x : ι) (p : Option ι) :
    (s.setParent x p).root = s.root := rfl

@[simp] lemma setParent_node (s : TreeStore ι) (x : ι) (p : Option ι) :
    (s.setParent x p).node = Function.update s.node x { s.node x with parent := p } := rfl

@[simp] lemma reparent_none (s : TreeStore ι) (p : Option ι) : s.reparent none p = s := rfl

@[simp] lemma reparent_some (s : TreeStore ι) (x : ι) (p : Option ι) :
    s.reparent (some x) p = s.setParent x p := rfl

@[simp] lemma reparent_root (s : TreeStore ι) (q p : Option ι) :
    (s.reparent q p).root = s.root := by
  cases q <;> rfl

lemma reparent_node_of_ne (s : TreeStore ι) (p : Option ι) (h : q ≠ some x) :
    (s.reparent q p).node x = s.node x := by
  cases q with
  | none => rfl
  | some y => simp [Function.update_of_ne fun he : x = y => h (he ▸ rfl)]

/-- The tree does not notice that a node outside it is written. -/
lemma Linked.setNode (h : s.Linked p t) (hx : x ∉ inorder t) (n : TreeLinks ι) :
    (s.setNode x n).Linked p t := by
  refine h.congr fun y hy => ?_
  rw [setNode_node, Function.update_of_ne (ne_of_mem_of_not_mem hy hx)]

lemma LinkedAround.setNode (h : s.LinkedAround c q) (hx : x ∉ outside c) (n : TreeLinks ι) :
    (s.setNode x n).LinkedAround c q := by
  refine h.congr rfl fun y hy => ?_
  rw [setNode_node, Function.update_of_ne (ne_of_mem_of_not_mem hy hx)]

lemma Rep.setNode (h : s.Rep t) (hx : x ∉ inorder t) (n : TreeLinks ι) : (s.setNode x n).Rep t :=
  ⟨h.nodup, h.root, h.linked.setNode hx n⟩

/-- Parent links and links downwards are different places. -/
lemma set_setParent (s : TreeStore ι) (x : ι) (p : Option ι) (w : TreeSlot ι) (q : Option ι) :
    (s.setParent x p).set w q = (s.set w q).setParent x p := by
  have hcomm : ∀ (y : ι) (f g : TreeLinks ι → TreeLinks ι), (∀ n, f (g n) = g (f n)) →
      (s.setNode x (f (s.node x))).setNode y (g ((s.setNode x (f (s.node x))).node y)) =
        (s.setNode y (g (s.node y))).setNode x (f ((s.setNode y (g (s.node y))).node x)) := by
    intro y f g hfg
    by_cases hxy : x = y
    · subst hxy
      simp [setNode, hfg]
    · simp [setNode, Function.update_comm hxy, Function.update_of_ne hxy,
        Function.update_of_ne (Ne.symm hxy)]
  cases w with
  | root => rfl
  | lchild y =>
      exact hcomm y (fun n => { n with parent := p }) (fun n => { n with lchild := q }) fun _ => rfl
  | rchild y =>
      exact hcomm y (fun n => { n with parent := p }) (fun n => { n with rchild := q }) fun _ => rfl

lemma set_node_of_notMem (s : TreeStore ι) (q : Option ι) (h : x ∉ outside c) :
    (s.set (slotOf c) q).node x = s.node x := by
  cases c with
  | nil => rfl
  | cons f c =>
      cases f with
      | left y r =>
          rw [mem_outside_left, not_or] at h
          simp [set, Function.update_of_ne h.1]
      | right y l =>
          rw [mem_outside_right, not_or] at h
          simp [set, Function.update_of_ne h.1]

/-- The slot of a context may be written. -/
lemma LinkedAround.set (h : s.LinkedAround c q) (hn : (outside c).Nodup) (q' : Option ι) :
    (s.set (slotOf c) q').LinkedAround c q' := by
  cases c with
  | nil => rfl
  | cons f c =>
      cases f with
      | left x r =>
          rw [(outside_left_perm x r c).nodup_iff, List.nodup_cons, List.mem_append, not_or] at hn
          obtain ⟨⟨hxr, hxc⟩, -⟩ := hn
          exact ⟨by simp [TreeStore.set, h.1], h.2.1.setNode hxr _, h.2.2.setNode hxc _⟩
      | right x l =>
          rw [(outside_right_perm x l c).nodup_iff, List.nodup_cons, List.mem_append, not_or] at hn
          obtain ⟨⟨hxl, hxc⟩, -⟩ := hn
          exact ⟨by simp [TreeStore.set, h.1], h.2.1.setNode hxl _, h.2.2.setNode hxc _⟩

lemma LinkedAround.reparent (h : s.LinkedAround c q) (hy : ∀ y, q' = some y → y ∉ outside c) :
    (s.reparent q' p).LinkedAround c q :=
  h.congr (by simp) fun x hx => reparent_node_of_ne _ _ fun he => hy x he hx

lemma Linked.reparent_of_disjoint (h : s.Linked p t) (hy : ∀ y, q = some y → y ∉ inorder t) :
    (s.reparent q p').Linked p t :=
  h.congr fun x hx => reparent_node_of_ne _ _ fun he => hy x he hx

/-- The root of a tree may get another parent. -/
lemma Linked.reparent (h : s.Linked p t) (hn : (inorder t).Nodup) (p' : Option ι) :
    (s.reparent (root? t) p').Linked p' t := by
  cases t with
  | nil => trivial
  | node x l r =>
      obtain ⟨hx, hl, hr⟩ := linked_node.1 h
      rw [inorder_node, List.perm_middle.nodup_iff, List.nodup_cons, List.mem_append, not_or] at hn
      obtain ⟨⟨hxl, hxr⟩, -⟩ := hn
      exact linked_node.2 ⟨by simp [hx], hl.setNode hxl _, hr.setNode hxr _⟩

/-- **Grafting.**  Another tree of the store is put into the hole. -/
lemma Rep.graft (h : s.Rep (fill c t)) (hu : s.Linked p u) (hn : (inorder u).Nodup)
    (hd : (inorder u).Disjoint (outside c)) :
    ((s.set (slotOf c) (root? u)).reparent (root? u) (parentOf c)).Rep (fill c u) := by
  obtain ⟨hnt, hc, -⟩ := rep_fill_iff.1 h
  obtain ⟨-, hnc, -⟩ := nodup_inorder_fill.1 hnt
  refine rep_fill_iff.2 ⟨nodup_inorder_fill.2 ⟨hn, hnc, hd⟩, ?_, ?_⟩
  · exact (hc.set hnc _).reparent fun y hy hmem => hd (mem_of_root? hy) hmem
  · refine Linked.reparent (p := p) (hu.congr fun x hx => ?_) hn _
    exact set_node_of_notMem _ _ fun hmem => hd hx hmem

/-- **Substituting a node.**  A node outside the tree gets the links of the node `x`
and takes its place. -/
lemma Rep.substitute (h : s.Rep (fill c (.node x l r)))
    (hy : y ∉ inorder (fill c (.node x l r))) :
    ((((s.setNode y (s.node x)).set (slotOf c) (some y)).reparent (root? l) (some y)).reparent
      (root? r) (some y)).Rep (fill c (.node y l r)) := by
  obtain ⟨hnt, hc, ht⟩ := rep_fill_iff.1 h
  obtain ⟨hn, hnc, hd⟩ := nodup_inorder_fill.1 hnt
  obtain ⟨hx, hl, hr⟩ := linked_node.1 ht
  rw [mem_inorder_fill, inorder_node, List.mem_append, List.mem_cons, not_or, not_or, not_or] at hy
  obtain ⟨⟨hyl, hyx, hyr⟩, hyc⟩ := hy
  obtain ⟨hnl, hnr, hlr⟩ := List.nodup_append'.1 hn
  have hlr' : ∀ a ∈ inorder l, a ∉ inorder r := fun a ha hb => hlr ha (List.mem_cons_of_mem _ hb)
  have hlc : ∀ a ∈ inorder l, a ∉ outside c := fun a ha => hd (List.mem_append_left _ ha)
  have hrc : ∀ a ∈ inorder r, a ∉ outside c :=
    fun a ha => hd (List.mem_append_right _ (List.mem_cons_of_mem _ ha))
  -- the links outside the hole, and of the subtrees, before their roots are moved
  have hc' : ((s.setNode y (s.node x)).set (slotOf c) (some y)).LinkedAround c (some y) :=
    (hc.setNode hyc _).set hnc _
  have hsub : ∀ {v : BinaryTree ι}, s.Linked (some x) v → y ∉ inorder v →
      (∀ a ∈ inorder v, a ∉ outside c) →
      ((s.setNode y (s.node x)).set (slotOf c) (some y)).Linked (some x) v := by
    intro v hv hyv hvc
    exact (hv.setNode hyv _).congr fun z hz => set_node_of_notMem _ _ (hvc z hz)
  refine rep_fill_iff.2 ⟨?_, ?_, linked_node.2 ⟨?_, ?_, ?_⟩⟩
  · refine nodup_inorder_fill.2 ⟨?_, hnc, ?_⟩
    · rw [inorder_node, List.perm_middle.nodup_iff, List.nodup_cons, List.mem_append, not_or]
      exact ⟨⟨hyl, hyr⟩, List.nodup_append'.2 ⟨hnl, (List.nodup_cons.1 hnr).2,
        fun a ha hb => hlr' a ha hb⟩⟩
    · intro a ha hb
      rcases List.mem_append.1 ha with ha | ha
      · exact hlc a ha hb
      · rcases List.mem_cons.1 ha with rfl | ha
        · exact hyc hb
        · exact hrc a ha hb
  · refine (hc'.reparent fun a ha => ?_).reparent fun a ha => ?_
    · exact hlc a (mem_of_root? ha)
    · exact hrc a (mem_of_root? ha)
  · rw [reparent_node_of_ne _ _ fun he => hyr (mem_of_root? he),
      reparent_node_of_ne _ _ fun he => hyl (mem_of_root? he), set_node_of_notMem _ _ hyc]
    simp [hx]
  · refine Linked.reparent_of_disjoint ?_ fun a ha hb => hlr' a hb (mem_of_root? ha)
    exact (hsub hl hyl hlc).reparent hnl _
  · refine Linked.reparent (p := some x) ?_ (List.nodup_cons.1 hnr).2 _
    exact (hsub hr hyr hrc).reparent_of_disjoint fun a ha hb => hlr' a (mem_of_root? ha) hb

end TreeStore

end DemoClass
