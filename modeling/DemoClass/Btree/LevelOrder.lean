import DemoClass.Btree.Runs
import DemoClass.Btree.Traverse
import DemoClass.Lib.TreeShape

/-!
# Level order (`btree_level_order`, `queue.c`)

`btree_level_order` keeps the nodes it has still to visit in a queue and appends the
children of a node when it visits it.  The queue holds the roots of a list of trees; once
round the queue these are visited and replaced by their children (`level_round`), so that
the nodes come out one depth after the other (`levels_ends`).

The root is put into the queue even if it is `NULL`: `todo` is then called with `NULL`, and
the test of its left child follows the null pointer.
-/

namespace DemoClass

namespace Btree

open SearchTree TreeStore

/-! ### The queue -/

/-- `struct queue_info`, its elements from the front on. -/
abbrev QueueInfo (α : Type) := List α

section Queue

variable {α : Type}

/-- `queue_is_empty` -/
def queueIsEmpty (queue : QueueInfo α) : Bool := queue.isEmpty

/-- `queue_push` -/
def queuePush (queue : QueueInfo α) (data : α) : QueueInfo α := queue ++ [data]

/-- `queue_top`: what it returns, and what it leaves in `dest`. -/
def queueTop (queue : QueueInfo α) (dest : α) : ℤ × α :=
  match queue with
  | [] => (-1, dest)
  | data :: _ => (0, data)

/-- `queue_pop`: what it returns, the queue, and what it leaves in `dest`. -/
def queuePop (queue : QueueInfo α) (dest : α) : ℤ × QueueInfo α × α :=
  let (ret, dest) := queueTop queue dest
  if ret < 0 then (-1, queue, dest) else (0, queue.tail, dest)

end Queue

variable {ι : Type}

/-- The variables of `btree_level_order`, with the pointers on which `todo` was called. -/
structure LevelWalk (ι : Type) where
  queue : QueueInfo (Option ι)
  cur : Option ι
  visited : List (Option ι)

/-- One round of the loop of `btree_level_order`. -/
def btreeLevelOrderBody (s : TreeStore ι) (w : LevelWalk ι) :
    Comp Fault (LevelWalk ι ⊕ LevelWalk ι) :=
  if queueIsEmpty w.queue then pure (.inr w)
  else do
    let (_, queue, cur) := queuePop w.queue w.cur
    let visited := w.visited ++ [cur]
    let node ← deref cur
    let queue :=
      if (s.node node).lchild ≠ none then queuePush queue (s.node node).lchild else queue
    let queue :=
      if (s.node node).rchild ≠ none then queuePush queue (s.node node).rchild else queue
    pure (.inl ⟨queue, cur, visited⟩)

/-- `btree_level_order`: the pointers on which it calls `todo`. -/
def btreeLevelOrder (info : BtreeInfo ι) : Comp Fault (List (Option ι)) := do
  let cur := info.store.root
  let w ← Comp.loop (btreeLevelOrderBody info.store) ⟨queuePush [] cur, cur, []⟩
  pure w.visited

/-! ### Levels of a tree -/

/-- The nodes at the depth `d`, from left to right. -/
def level : ℕ → BinaryTree ι → List ι
  | _, .nil => []
  | 0, .node x _ _ => [x]
  | d + 1, .node _ l r => level d l ++ level d r

/-- The nodes, one depth after the other. -/
def levelorder (t : BinaryTree ι) : List ι := (List.range t.height).flatMap fun d => level d t

/-- The tree, unless it is empty. -/
def nonempty : BinaryTree ι → List (BinaryTree ι)
  | .nil => []
  | .node x l r => [.node x l r]

/-- The subtrees below the root that are not empty. -/
def children : BinaryTree ι → List (BinaryTree ι)
  | .nil => []
  | .node _ l r => nonempty l ++ nonempty r

variable {s : TreeStore ι} {info : BtreeInfo ι} {t u : BinaryTree ι} {ts : List (BinaryTree ι)}

lemma level_nil (d : ℕ) : level d (.nil : BinaryTree ι) = [] := by cases d <;> rfl

lemma flatMap_level_nonempty (d : ℕ) (t : BinaryTree ι) :
    (nonempty t).flatMap (level d) = level d t := by
  cases t with
  | nil => rw [level_nil, nonempty, List.flatMap_nil]
  | node x l r => rw [nonempty, List.flatMap_singleton]

/-- What is one level deeper is a level of the children. -/
lemma level_succ (d : ℕ) (t : BinaryTree ι) : level (d + 1) t = (children t).flatMap (level d) := by
  cases t with
  | nil => rfl
  | node x l r =>
      rw [children, List.flatMap_append, flatMap_level_nonempty, flatMap_level_nonempty, level]

lemma mem_nonempty : u ∈ nonempty t ↔ u = t ∧ t ≠ .nil := by
  cases t <;> simp [nonempty]

lemma ne_nil_of_mem_children (h : u ∈ children t) : u ≠ .nil := by
  cases t with
  | nil => simp [children] at h
  | node x l r =>
      rcases List.mem_append.1 h with h | h <;> obtain ⟨rfl, hne⟩ := mem_nonempty.1 h <;> exact hne

lemma height_lt_of_mem_children (h : u ∈ children t) : u.height < t.height := by
  cases t with
  | nil => simp [children] at h
  | node x l r =>
      rcases List.mem_append.1 h with h | h
      · obtain ⟨rfl, -⟩ := mem_nonempty.1 h
        exact Nat.lt_succ_of_le (le_max_left _ _)
      · obtain ⟨rfl, -⟩ := mem_nonempty.1 h
        exact Nat.lt_succ_of_le (le_max_right _ _)

/-- The first level, and the levels of the children below it. -/
lemma flatMap_range_level_succ (n : ℕ) (ts : List (BinaryTree ι)) :
    ((List.range (n + 1)).flatMap fun d => ts.flatMap (level d)) =
      ts.flatMap (level 0) ++
        (List.range n).flatMap fun d => (ts.flatMap children).flatMap (level d) := by
  have hstep : ∀ d, ts.flatMap (level (d + 1)) = (ts.flatMap children).flatMap (level d) := by
    intro d
    rw [List.flatMap_assoc]
    exact List.flatMap_congr fun t _ => level_succ d t
  rw [List.range_succ_eq_map, List.flatMap_cons, List.flatMap_map]
  exact congrArg _ (List.flatMap_congr fun d _ => hstep d)

/-- Every node is on one level. -/
lemma perm_flatMap_level {n : ℕ} (h : t.height ≤ n) :
    ((List.range n).flatMap fun d => level d t).Perm (inorder t) := by
  induction t generalizing n with
  | nil =>
      have hnil : (List.range n).flatMap (fun d => level d (.nil : BinaryTree ι)) = [] :=
        List.flatMap_eq_nil_iff.2 fun d _ => level_nil d
      rw [hnil, inorder_nil]
  | node x l r ihl ihr =>
      -- the root is the level 0, and the levels of the subtrees come below it in pairs
      obtain ⟨m, rfl⟩ : ∃ m, n = m + 1 := ⟨n - 1, by rw [height_node] at h; omega⟩
      have hlr : max l.height r.height ≤ m := Nat.le_of_succ_le_succ h
      have hsplit : (List.range (m + 1)).flatMap (fun d => level d (.node x l r)) =
          x :: (List.range m).flatMap fun d => level d l ++ level d r := by
        rw [List.range_succ_eq_map, List.flatMap_cons, List.flatMap_map]
        rfl
      rw [hsplit, inorder_node]
      refine List.Perm.trans (List.Perm.cons x ?_) List.perm_middle.symm
      refine (List.flatMap_append_perm _ _ _).symm.trans ?_
      exact (ihl ((le_max_left _ _).trans hlr)).append (ihr ((le_max_right _ _).trans hlr))

lemma levelorder_perm (t : BinaryTree ι) : (levelorder t).Perm (inorder t) :=
  perm_flatMap_level le_rfl

/-! ### The loop -/

/-- The pointers to the roots of some trees. -/
def roots (ts : List (BinaryTree ι)) : QueueInfo (Option ι) := ts.map root?

/-- One round of the loop visits the root of the first tree in the queue and appends its
children. -/
lemma body_ends {x : ι} {l r : BinaryTree ι} (h : Spans s (some x) (.node x l r))
    (ts : List (BinaryTree ι)) (cur : Option ι) (visited : List (Option ι)) :
    (btreeLevelOrderBody s ⟨roots (.node x l r :: ts), cur, visited⟩).Ends
      (.ok (.inl ⟨roots (ts ++ children (.node x l r)), some x, visited ++ [some x]⟩)) := by
  obtain ⟨-, hl, hr⟩ := h
  have hl' := hl.root
  have hr' := hr.root
  -- each of the two children is there or not
  cases l <;> cases r <;>
    simp_all [btreeLevelOrderBody, queueIsEmpty, queuePop, queueTop, queuePush, deref, roots,
      children, nonempty]

/-- Once round the queue: the roots of `ts` are visited, and the queue goes on with what
was behind them and their children. -/
lemma level_round (cs : List (BinaryTree ι)) (cur : Option ι) (visited : List (Option ι))
    (hts : ∀ t ∈ ts, Spans s (root? t) t ∧ t ≠ .nil) {r : Except Fault (List (Option ι))}
    (hr : ∀ cur, (Comp.loop (btreeLevelOrderBody s) ⟨roots (cs ++ ts.flatMap children), cur,
      visited ++ (ts.flatMap (level 0)).map some⟩ >>= fun w => pure w.visited).Ends r) :
    (Comp.loop (btreeLevelOrderBody s) ⟨roots (ts ++ cs), cur, visited⟩ >>= fun w =>
      pure w.visited).Ends r := by
  induction ts generalizing cs cur visited with
  | nil => simpa using hr cur
  | cons t ts ih =>
      obtain ⟨h, hne⟩ := hts t (by simp)
      obtain ⟨x, l, r', rfl⟩ : ∃ x l r', t = .node x l r' := by
        cases t with
        | nil => exact absurd rfl hne
        | node x l r' => exact ⟨x, l, r', rfl⟩
      -- its children go behind everything that was in the queue
      refine (body_ends h (ts ++ cs) cur visited).loop_inl_bind ?_
      rw [List.append_assoc]
      refine ih _ _ _ (fun u hu => hts u (by simp [hu])) fun cur => ?_
      simpa [level] using hr cur

lemma spans_of_mem_children (h : Spans s (root? t) t) (hu : u ∈ children t) :
    Spans s (root? u) u := by
  cases t with
  | nil => simp [children] at hu
  | node x l r =>
      obtain ⟨-, hl, hr⟩ := h
      rcases List.mem_append.1 hu with hu | hu
      · obtain ⟨rfl, -⟩ := mem_nonempty.1 hu
        rwa [← hl.root]
      · obtain ⟨rfl, -⟩ := mem_nonempty.1 hu
        rwa [← hr.root]

/-- A queue of trees is visited level by level. -/
lemma levels_ends (n : ℕ) (ts : List (BinaryTree ι)) (cur : Option ι)
    (visited : List (Option ι)) (hts : ∀ t ∈ ts, Spans s (root? t) t ∧ t ≠ .nil)
    (hn : ∀ t ∈ ts, t.height ≤ n) :
    (Comp.loop (btreeLevelOrderBody s) ⟨roots ts, cur, visited⟩ >>= fun w =>
      pure w.visited).Ends
        (.ok (visited ++ ((List.range n).flatMap fun d => ts.flatMap (level d)).map some)) := by
  induction n generalizing ts cur visited with
  | zero =>
      -- no tree is left, since those in the queue are not empty
      have hnil : ts = [] := by
        refine List.eq_nil_iff_forall_not_mem.2 fun t ht => (hts t ht).2 ?_
        cases t with
        | nil => rfl
        | node x l r => exact absurd (hn _ ht) (Nat.not_succ_le_zero _)
      subst hnil
      refine (Comp.Ends.loop_inr (v := ⟨roots [], cur, visited⟩) ?_).bind (by simp)
      simp [btreeLevelOrderBody, roots, queueIsEmpty]
  | succ n ih =>
      have h := level_round [] cur visited hts fun cur =>
        ih ([] ++ ts.flatMap children) cur _ ?_ ?_
      · rw [List.append_nil, List.nil_append] at h
        rwa [flatMap_range_level_succ, List.map_append, ← List.append_assoc]
      · intro u hu
        obtain ⟨t, ht, hu⟩ := List.mem_flatMap.1 hu
        exact ⟨spans_of_mem_children (hts t ht).1 hu, ne_nil_of_mem_children hu⟩
      · intro u hu
        obtain ⟨t, ht, hu⟩ := List.mem_flatMap.1 hu
        have := height_lt_of_mem_children hu
        have := hn t ht
        omega

/-- A tree that is not empty is visited level by level. -/
lemma btreeLevelOrder_ends (h : Spans info.store info.store.root t) (hne : t ≠ .nil) :
    (btreeLevelOrder info).Ends (.ok ((levelorder t).map some)) := by
  have hroot := h.root
  rw [hroot] at h
  have hends := levels_ends (s := info.store) t.height [t] info.store.root []
    (by simpa using ⟨h, hne⟩) (by simp)
  have hq : queuePush [] info.store.root = roots [t] := by simp [queuePush, roots, hroot]
  rw [btreeLevelOrder]
  simp only [hq]
  simpa [levelorder] using hends

/-- On an empty tree the null pointer is visited, and its child is asked for. -/
lemma btreeLevelOrder_nil (h : info.store.root = none) :
    (btreeLevelOrder info).Ends (.error .nullPointer) := by
  refine Comp.Ends.bind_fault (Comp.Ends.loop_fault ?_)
  simp [-bind_pure_comp, btreeLevelOrderBody, queueIsEmpty, queuePush, queuePop, queueTop, deref, h]

/-- `btree_level_order` returns after it called `todo` on every node of `S` once and on
nothing else, one depth of the tree after the other and from left to right at every
depth. -/
def VisitsLevels (info : BtreeInfo ι) (S : Finset ι) : Prop :=
  ∃ t visited, info.store.Rep t ∧ (btreeLevelOrder info).Ends (.ok (visited.map some)) ∧
    visited = levelorder t ∧ visited.Nodup ∧ ∀ x, x ∈ visited ↔ x ∈ S

variable [DecidableEq ι]

/-- **Level order.**  After any run of pushes and deletions, `btree_level_order` visits the
tree level by level exactly when the tree is not empty. -/
theorem btreeLevelOrder_iff (cmp : ι → ι → ℤ) (node : ι → TreeLinks ι) (ops : List (Op ι))
    (hops : AllAllowed ∅ ops) :
    ∃ info, (run (btreeInit node cmp) ops).Ends (.ok info) ∧
      (VisitsLevels info (nodesOf ops) ↔ nodesOf ops ≠ ∅) := by
  obtain ⟨info, t, hends, hrep, hmem⟩ := run_btreeInit node cmp hops
  refine ⟨info, hends, ?_⟩
  by_cases ht : t = .nil
  · have hempty : nodesOf ops = ∅ := by
      ext x
      rw [← hmem, ht]
      simp
    have hroot : info.store.root = none := by
      rw [hrep.root]
      exact root?_eq_none.2 ht
    refine iff_of_false ?_ (not_not.2 hempty)
    rintro ⟨t, visited, -, hvisit, -⟩
    exact absurd ((btreeLevelOrder_nil hroot).unique hvisit) (by simp)
  · refine iff_of_true ?_ ?_
    · refine ⟨t, _, hrep, btreeLevelOrder_ends (spans_of_rep hrep) ht, rfl, ?_, fun x => ?_⟩
      · exact (levelorder_perm _).nodup_iff.2 hrep.nodup
      · rw [(levelorder_perm _).mem_iff]
        exact hmem x
    · intro hempty
      refine ht ?_
      have hnone : ∀ x, root? t ≠ some x := fun x hx => by
        simpa [hempty] using (hmem x).1 (mem_of_root? hx)
      exact root?_eq_none.1 (Option.eq_none_iff_forall_ne_some.2 hnone)

/-- Four nodes on three levels, after the deletion of a node with two children. -/
theorem btreeLevelOrder_iff_four : ∃ info,
    (run (btreeInit (fun _ => ⟨none, none, none⟩) fun a b : ℕ => (a : ℤ) - b)
      [.push 4, .push 2, .push 6, .push 3, .push 5, .del 4]).Ends (.ok info) ∧
    VisitsLevels info {2, 6, 3, 5} := by
  obtain ⟨info, hends, h⟩ := btreeLevelOrder_iff (fun a b : ℕ => (a : ℤ) - b)
    (fun _ => ⟨none, none, none⟩) [.push 4, .push 2, .push 6, .push 3, .push 5, .del 4] (by decide)
  have hS : nodesOf [.push 4, .push 2, .push 6, .push 3, .push 5, .del 4] =
      ({2, 6, 3, 5} : Finset ℕ) := by decide
  rw [hS] at h
  exact ⟨info, hends, h.2 (by decide)⟩

/-- Before the first push the tree is empty, and it is not visited level by level. -/
theorem not_visitsLevels_empty :
    ¬ ∃ info, (run (btreeInit (fun _ => ⟨none, none, none⟩) fun a b : ℕ => (a : ℤ) - b)
      []).Ends (.ok info) ∧ VisitsLevels info (nodesOf []) := by
  rintro ⟨info, hends, t, visited, -, hvisit, -⟩
  obtain rfl : info = btreeInit (fun _ => ⟨none, none, none⟩) fun a b : ℕ => (a : ℤ) - b := by
    simpa [run] using hends
  exact absurd ((btreeLevelOrder_nil rfl).unique hvisit) (by simp)

end Btree

end DemoClass
