import DemoClass.Btree.Runs
import DemoClass.Btree.Traverse

/-!
# Looking up a key (`btree_find`)

`btree_find` goes down from the root, to the side on which the comparison of the key with
the node says it is.  In an ordered tree no node of the other side compares equal to the
key (`ne_of_lt_root`, `ne_of_gt_root`), so that the node it stops at, or the `NULL` it ends
with, is right for the whole tree.
-/

namespace DemoClass

namespace Btree

open SearchTree TreeStore

variable {ι : Type}

/-- One round of the loop of `btree_find`, on `cur`. -/
def btreeFindBody (cmp : ι → ι → ℤ) (s : TreeStore ι) (key : ι) (cur : Option ι) :
    Comp Fault (Option ι ⊕ Option ι) :=
  match cur with
  | none => pure (.inr none)
  | some cur =>
    let n := cmp key cur
    if n = 0 then pure (.inr (some cur))
    else if n < 0 then pure (.inl (s.node cur).lchild)
    else pure (.inl (s.node cur).rchild)

/-- `btree_find` -/
def btreeFind (info : BtreeInfo ι) (key : ι) : Comp Fault (Option ι) :=
  Comp.loop (btreeFindBody info.cmp info.store key) info.store.root

/-- A pointer to one of the nodes `xs` that compares equal to the key, or `NULL` when there
is none. -/
def IsFound (cmp : ι → ι → ℤ) (key : ι) (xs : List ι) : Option ι → Prop
  | none => ∀ x ∈ xs, cmp key x ≠ 0
  | some x => x ∈ xs ∧ cmp key x = 0

variable {cmp : ι → ι → ℤ} {s : TreeStore ι} {key x : ι} {l r t : BinaryTree ι}
  {q found : Option ι}

/-- What is found among some of the nodes is found among all of them, if the others do not
compare equal to the key. -/
lemma IsFound.of_subset {xs ys : List ι} (h : IsFound cmp key xs found) (hsub : xs ⊆ ys)
    (hys : ∀ y ∈ ys, y ∈ xs ∨ cmp key y ≠ 0) : IsFound cmp key ys found := by
  cases found with
  | none =>
      intro y hy
      rcases hys y hy with hy | hne
      · exact h y hy
      · exact hne
  | some x => exact ⟨hsub h.1, h.2⟩

/-- With a key less than the root, the root and what is to its right do not compare equal. -/
lemma ne_of_lt_root (hc : TotalPreorderOn cmp Set.univ) (ho : Ordered cmp (.node x l r))
    (hlt : cmp key x < 0) : ∀ y ∈ inorder (.node x l r), y ∈ inorder l ∨ cmp key y ≠ 0 := by
  intro y hy
  rcases List.mem_append.1 hy with hy | hy
  · exact Or.inl hy
  · refine Or.inr fun he => ?_
    rcases List.mem_cons.1 hy with rfl | hy
    · omega
    · have hge : 0 ≤ cmp y x := (ordered_node.1 ho).2.1 y hy
      -- a node to the right that were equal to the key would put the key behind the root
      have hxy : cmp x y ≤ 0 := (hc.nonneg_iff trivial trivial).1 hge
      have hyk : cmp y key ≤ 0 := (hc.nonneg_iff trivial trivial).1 he.ge
      have hxk : cmp x key ≤ 0 := hc.trans x trivial y trivial key trivial hxy hyk
      have := hc.neg_iff key trivial x trivial
      omega

/-- With a key greater than the root, the root and what is to its left do not compare
equal. -/
lemma ne_of_gt_root (hc : TotalPreorderOn cmp Set.univ) (ho : Ordered cmp (.node x l r))
    (hgt : 0 < cmp key x) : ∀ y ∈ inorder (.node x l r), y ∈ inorder r ∨ cmp key y ≠ 0 := by
  intro y hy
  rcases List.mem_append.1 hy with hy | hy
  · refine Or.inr fun he => ?_
    have hyx : cmp y x < 0 := (ordered_node.1 ho).1 y hy
    have hkx : cmp key x ≤ 0 := hc.trans key trivial y trivial x trivial he.le hyx.le
    omega
  · rcases List.mem_cons.1 hy with rfl | hy
    · exact Or.inr hgt.ne'
    · exact Or.inl hy

/-- The walk from a subtree on. -/
lemma findLoop_ends (hc : TotalPreorderOn cmp Set.univ) (key : ι) (h : Spans s q t)
    (ho : Ordered cmp t) : ∃ found, (Comp.loop (btreeFindBody cmp s key) q).Ends (.ok found) ∧
      IsFound cmp key (inorder t) found := by
  induction t generalizing q with
  | nil =>
      obtain rfl : q = none := h
      exact ⟨none, Comp.Ends.loop_inr (by simp [btreeFindBody]), by simp [IsFound]⟩
  | node x l r ihl ihr =>
      obtain ⟨rfl, hl, hr⟩ := h
      obtain ⟨-, -, hol, hor⟩ := ordered_node.1 ho
      rcases lt_trichotomy (cmp key x) 0 with hlt | heq | hgt
      · obtain ⟨found, hends, hfound⟩ := ihl hl hol
        refine ⟨found, Comp.Ends.loop_inl ?_ hends, ?_⟩
        · simp [btreeFindBody, hlt, hlt.ne]
        · exact hfound.of_subset (by simp) (ne_of_lt_root hc ho hlt)
      · exact ⟨some x, Comp.Ends.loop_inr (by simp [btreeFindBody, heq]), by simp [IsFound, heq]⟩
      · obtain ⟨found, hends, hfound⟩ := ihr hr hor
        refine ⟨found, Comp.Ends.loop_inl ?_ hends, ?_⟩
        · simp [btreeFindBody, hgt.ne', not_lt_of_gt hgt]
        · exact hfound.of_subset (fun y hy => by simp [hy]) (ne_of_gt_root hc ho hgt)

lemma Holds.find_ends {info : BtreeInfo ι} {S : Finset ι}
    (hc : TotalPreorderOn info.cmp Set.univ) (h : Holds info S t) (key : ι) :
    ∃ found, (btreeFind info key).Ends (.ok found) ∧ IsFound info.cmp key (inorder t) found :=
  findLoop_ends hc key (spans_of_rep h.rep) h.ordered

variable [DecidableEq ι]

/-- What `btree_find` returns after a run, by the nodes of the tree. -/
lemma run_find_ends (hc : TotalPreorderOn cmp Set.univ) (node : ι → TreeLinks ι)
    {ops : List (Op ι)} (hops : AllAllowed ∅ ops) :
    ∃ info, (run (btreeInit node cmp) ops).Ends (.ok info) ∧ ∀ key, ∃ found,
      (btreeFind info key).Ends (.ok found) ∧
      (∀ x ∈ found, x ∈ nodesOf ops ∧ cmp key x = 0) ∧
      (found = none → ∀ x ∈ nodesOf ops, cmp key x ≠ 0) := by
  obtain ⟨info, hends, hcmp, h⟩ := (holds_btreeInit node cmp).run hc hops
  have hmem : ∀ x, x ∈ inorder (ops.foldl (Op.onTree cmp) .nil) ↔ x ∈ nodesOf ops := h.mem_iff
  refine ⟨info, hends, fun key => ?_⟩
  obtain ⟨found, hfind, hfound⟩ := h.find_ends (hcmp ▸ hc) key
  rw [hcmp] at hfound
  refine ⟨found, hfind, ?_, ?_⟩
  · rintro x rfl
    exact ⟨(hmem x).1 hfound.1, hfound.2⟩
  · rintro rfl x hx
    exact hfound x ((hmem x).2 hx)

/-- **Looking up a key.**  After any run of pushes and deletions, `btree_find` returns for
every key a node of the tree that compares equal to it, if there is one, and `NULL` if there
is none. -/
theorem btreeFind_correct (cmp : ι → ι → ℤ) (hc : TotalPreorderOn cmp Set.univ)
    (node : ι → TreeLinks ι) (ops : List (Op ι)) (hops : AllAllowed ∅ ops) :
    ∃ info, (run (btreeInit node cmp) ops).Ends (.ok info) ∧ ∀ key, ∃ found,
      (btreeFind info key).Ends (.ok found) ∧
      ((∃ x ∈ nodesOf ops, cmp key x = 0) →
        ∃ x ∈ nodesOf ops, cmp key x = 0 ∧ found = some x) ∧
      ((∀ x ∈ nodesOf ops, cmp key x ≠ 0) → found = none) := by
  obtain ⟨info, hends, hfind⟩ := run_find_ends hc node hops
  refine ⟨info, hends, fun key => ?_⟩
  obtain ⟨found, hends, hsome, hnone⟩ := hfind key
  refine ⟨found, hends, ?_, ?_⟩
  · rintro ⟨x, hx, heq⟩
    cases found with
    | none => exact absurd heq (hnone rfl x hx)
    | some y => exact ⟨y, (hsome y rfl).1, (hsome y rfl).2, rfl⟩
  · intro hne
    cases found with
    | none => rfl
    | some y => exact absurd (hsome y rfl).2 (hne y (hsome y rfl).1)

/-- Nodes compared by their tens: after `61` was deleted, `69` still finds `60`. -/
theorem btreeFind_correct_tens : ∃ info,
    (run (btreeInit (fun _ => ⟨none, none, none⟩)
        fun a b : ℕ => ((a / 10 : ℕ) : ℤ) - ((b / 10 : ℕ) : ℤ))
      [.push 50, .push 61, .push 60, .push 30, .del 61]).Ends (.ok info) ∧
    (btreeFind info 69).Ends (.ok (some 60)) ∧ (btreeFind info 40).Ends (.ok none) := by
  have hc : TotalPreorderOn (fun a b : ℕ => ((a / 10 : ℕ) : ℤ) - ((b / 10 : ℕ) : ℤ)) Set.univ :=
    ⟨fun a _ b _ => by omega, fun a _ b _ d _ => by omega⟩
  obtain ⟨info, hends, hfind⟩ := btreeFind_correct _ hc (fun _ => ⟨none, none, none⟩)
    [.push 50, .push 61, .push 60, .push 30, .del 61] (by decide)
  have hS : nodesOf [.push 50, .push 61, .push 60, .push 30, .del 61] =
      ({50, 60, 30} : Finset ℕ) := by decide
  rw [hS] at hfind
  obtain ⟨found, h69, hsome, -⟩ := hfind 69
  obtain ⟨found', h40, -, hnone⟩ := hfind 40
  obtain ⟨x, hx, heq, rfl⟩ := hsome ⟨60, by decide, by decide⟩
  obtain rfl := hnone (by decide)
  obtain rfl : x = 60 := by
    have hall : ∀ x ∈ ({50, 60, 30} : Finset ℕ),
        ((69 / 10 : ℕ) : ℤ) - ((x / 10 : ℕ) : ℤ) = 0 → x = 60 := by decide
    exact hall x hx heq
  exact ⟨info, hends, h69, h40⟩

end Btree

end DemoClass
