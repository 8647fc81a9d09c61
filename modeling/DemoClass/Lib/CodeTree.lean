import Mathlib.Data.List.Basic
import Mathlib.Algebra.BigOperators.Group.List.Basic
import Mathlib.Algebra.Order.Ring.Nat
import Mathlib.Tactic.Ring

/-!
# Binary code trees

A code tree has its symbols at the leaves; the code word of a symbol is the path
from the root to its leaf, `false` for left and `true` for right.  The height of
the tree is the length of the longest code word (`CodeTree.height_le_iff`), and in
a tree that is too high some code word takes a right turn below the bound
(`CodeTree.exists_right_turn`).  `CodeTree.cost` is the total weight of the inner
nodes, which is the encoded size (`CodeTree.sum_leaves`).
-/

namespace DemoClass

/-- A binary tree with symbols at the leaves. -/
inductive CodeTree (α : Type) : Type
  | leaf (a : α)
  | node (l r : CodeTree α)

namespace CodeTree

variable {α : Type}

/-- The symbols, from left to right. -/
def leaves : CodeTree α → List α
  | leaf a => [a]
  | node l r => l.leaves ++ r.leaves

/-- The length of the longest path from the root to a leaf. -/
def height : CodeTree α → ℕ
  | leaf _ => 0
  | node l r => max l.height r.height + 1

/-- The path `bs` leads from the root to a leaf with the symbol `x`. -/
def IsPath : CodeTree α → List Bool → α → Prop
  | leaf a, [], x => a = x
  | leaf _, _ :: _, _ => False
  | node _ _, [], _ => False
  | node l _, false :: bs, x => l.IsPath bs x
  | node _ r, true :: bs, x => r.IsPath bs x

@[simp] lemma isPath_leaf {a x : α} {bs : List Bool} :
    (leaf a).IsPath bs x ↔ bs = [] ∧ a = x := by
  cases bs <;> simp [IsPath]

lemma isPath_node {l r : CodeTree α} {x : α} {bs : List Bool} :
    (node l r).IsPath bs x ↔
      (∃ cs, bs = false :: cs ∧ l.IsPath cs x) ∨ ∃ cs, bs = true :: cs ∧ r.IsPath cs x := by
  match bs with
  | [] => simp [IsPath]
  | false :: cs => simp [IsPath]
  | true :: cs => simp [IsPath]

/-! ### Code words -/

/-- The code word of `x`. -/
def codeword [DecidableEq α] : CodeTree α → α → List Bool
  | leaf _, _ => []
  | node l r, x => if x ∈ l.leaves then false :: l.codeword x else true :: r.codeword x

lemma isPath_codeword [DecidableEq α] {t : CodeTree α} {x : α} (hx : x ∈ t.leaves) :
    t.IsPath (t.codeword x) x := by
  induction t with
  | leaf a => simpa [codeword, leaves, eq_comm] using hx
  | node l r ihl ihr =>
      by_cases hl : x ∈ l.leaves
      · simpa [codeword, hl, IsPath] using ihl hl
      · have hr : x ∈ r.leaves := by simpa [leaves, hl] using hx
        simpa [codeword, hl, IsPath] using ihr hr

lemma IsPath.mem_leaves {t : CodeTree α} {bs : List Bool} {x : α} (h : t.IsPath bs x) :
    x ∈ t.leaves := by
  induction t generalizing bs with
  | leaf a =>
      obtain ⟨-, rfl⟩ := isPath_leaf.1 h
      simp [leaves]
  | node l r ihl ihr =>
      rcases isPath_node.1 h with ⟨cs, -, hcs⟩ | ⟨cs, -, hcs⟩
      · simp [leaves, ihl hcs]
      · simp [leaves, ihr hcs]

/-- No code word is a prefix of another one. -/
lemma IsPath.eq_of_isPrefix {t : CodeTree α} {bs cs : List Bool} {x y : α} (h : t.IsPath bs x)
    (h' : t.IsPath cs y) (hp : bs <+: cs) : bs = cs ∧ x = y := by
  induction t generalizing bs cs with
  | leaf a =>
      obtain ⟨rfl, rfl⟩ := isPath_leaf.1 h
      obtain ⟨rfl, rfl⟩ := isPath_leaf.1 h'
      exact ⟨rfl, rfl⟩
  | node l r ihl ihr =>
      rcases isPath_node.1 h with ⟨bs, rfl, hb⟩ | ⟨bs, rfl, hb⟩ <;>
        rcases isPath_node.1 h' with ⟨cs, rfl, hc⟩ | ⟨cs, rfl, hc⟩ <;>
        rw [List.cons_prefix_cons] at hp
      · obtain ⟨rfl, rfl⟩ := ihl hb hc hp.2
        exact ⟨rfl, rfl⟩
      · exact absurd hp.1 (by decide)
      · exact absurd hp.1 (by decide)
      · obtain ⟨rfl, rfl⟩ := ihr hb hc hp.2
        exact ⟨rfl, rfl⟩

/-- When every symbol stands at one leaf only, it has one code word. -/
lemma IsPath.unique {t : CodeTree α} (hnd : t.leaves.Nodup) {bs cs : List Bool} {x : α}
    (h : t.IsPath bs x) (h' : t.IsPath cs x) : bs = cs := by
  induction t generalizing bs cs with
  | leaf a => rw [(isPath_leaf.1 h).1, (isPath_leaf.1 h').1]
  | node l r ihl ihr =>
      obtain ⟨hl, hr, hlr⟩ := List.nodup_append.1 hnd
      rcases isPath_node.1 h with ⟨bs, rfl, hb⟩ | ⟨bs, rfl, hb⟩ <;>
        rcases isPath_node.1 h' with ⟨cs, rfl, hc⟩ | ⟨cs, rfl, hc⟩
      · rw [ihl hl hb hc]
      · exact absurd rfl (hlr x hb.mem_leaves x hc.mem_leaves)
      · exact absurd rfl (hlr x hc.mem_leaves x hb.mem_leaves)
      · rw [ihr hr hb hc]

/-! ### Decoding -/

/-- The subtree on the side `b`. -/
def turn : CodeTree α → Bool → CodeTree α
  | leaf a, _ => leaf a
  | node l r, b => bif b then r else l

/-- The symbols that a bit stream spells, read from the subtree `s` of `t` on. -/
def decodeFrom (t : CodeTree α) : CodeTree α → List Bool → List α
  | _, [] => []
  | s, b :: bs =>
    match s.turn b with
    | leaf a => a :: decodeFrom t t bs
    | node l r => decodeFrom t (node l r) bs

lemma isPath_cons {l r : CodeTree α} {b : Bool} {bs : List Bool} {x : α} :
    (node l r).IsPath (b :: bs) x ↔ ((node l r).turn b).IsPath bs x := by
  cases b <;> rfl

lemma decodeFrom_path {t s : CodeTree α} {b : Bool} {bs cs : List Bool} {x : α}
    (h : s.IsPath (b :: bs) x) :
    decodeFrom t s (b :: bs ++ cs) = x :: decodeFrom t t cs := by
  induction bs generalizing s b with
  | nil =>
      cases s with
      | leaf a => exact absurd (isPath_leaf.1 h).1 (by simp)
      | node l r =>
          rw [isPath_cons] at h
          rcases hs : (node l r).turn b with a | ⟨l', r'⟩
          · rw [hs, isPath_leaf] at h
            simp [decodeFrom, hs, h.2]
          · rw [hs] at h
            exact h.elim
  | cons b' bs ih =>
      cases s with
      | leaf a => exact absurd (isPath_leaf.1 h).1 (by simp)
      | node l r =>
          rw [isPath_cons] at h
          rcases hs : (node l r).turn b with a | ⟨l', r'⟩
          · rw [hs] at h
            exact h.elim
          · rw [hs] at h
            simpa [decodeFrom, hs] using ih h

/-- Reading the code words of `ys` gives back `ys`. -/
lemma decodeFrom_flatMap {l r : CodeTree α} {word : α → List Bool} {ys : List α}
    (h : ∀ y ∈ ys, (node l r).IsPath (word y) y) (cs : List Bool) :
    decodeFrom (node l r) (node l r) (ys.flatMap word ++ cs) =
      ys ++ decodeFrom (node l r) (node l r) cs := by
  induction ys with
  | nil => rfl
  | cons y ys ih =>
      have hy := h y (by simp)
      rw [List.flatMap_cons, List.append_assoc]
      rcases hw : word y with _ | ⟨b, bs⟩
      · rw [hw] at hy
        exact hy.elim
      · rw [hw] at hy
        rw [decodeFrom_path hy, ih fun y' hy' => h y' (by simp [hy']), List.cons_append]

lemma mem_leaves_of_mem_decodeFrom {t s : CodeTree α} {bs : List Bool} {a : α}
    (h : a ∈ t.decodeFrom s bs) : a ∈ t.leaves ∨ a ∈ s.leaves := by
  have hsub : ∀ (s : CodeTree α) (b : Bool), (s.turn b).leaves ⊆ s.leaves := by
    rintro (a | ⟨l, r⟩) (_ | _) <;> simp [turn, leaves]
  induction bs generalizing s with
  | nil => simp [decodeFrom] at h
  | cons b bs ih =>
      rcases hturn : s.turn b with a' | ⟨l, r⟩
      · rw [decodeFrom, hturn] at h
        rcases List.mem_cons.1 h with rfl | h
        · exact Or.inr (hsub s b (by simp [hturn, leaves]))
        · exact Or.inl ((or_self_iff).1 (ih h))
      · rw [decodeFrom, hturn] at h
        exact (ih h).imp_right fun hm => hsub s b (hturn ▸ hm)

/-- The code words of the symbols that were read are a prefix of the stream. -/
lemma flatMap_decodeFrom_prefix {l₀ r₀ l r : CodeTree α} {word : α → List Bool}
    (hword : ∀ bs x, (node l₀ r₀).IsPath bs x → bs = word x) (p bs : List Bool)
    (hs : ∀ cs x, (node l r).IsPath cs x → (node l₀ r₀).IsPath (p ++ cs) x) :
    (decodeFrom (node l₀ r₀) (node l r) bs).flatMap word <+: p ++ bs := by
  induction bs generalizing l r p with
  | nil => simp [decodeFrom]
  | cons b bs ih =>
      have hassoc : p ++ b :: bs = p ++ [b] ++ bs := by simp
      rcases hturn : (node l r).turn b with a | ⟨l', r'⟩
      · have hpath : (node l₀ r₀).IsPath (p ++ [b]) a :=
          hs [b] a (by rw [isPath_cons, hturn]; simp)
        rw [decodeFrom, hturn]
        simp only [List.flatMap_cons]
        rw [← hword _ _ hpath, hassoc]
        exact (List.prefix_append_right_inj _).2
          (by simpa using ih (l := l₀) (r := r₀) [] fun cs x hp => hp)
      · rw [decodeFrom, hturn, hassoc]
        refine ih _ fun cs x hp => ?_
        rw [List.append_assoc]
        exact hs _ x (by rw [List.singleton_append, isPath_cons, hturn]; exact hp)

/-! ### Height -/

/-- A full binary tree has more leaves than levels. -/
lemma height_lt_length_leaves (t : CodeTree α) : t.height < t.leaves.length := by
  induction t with
  | leaf a => simp [height, leaves]
  | node l r ihl ihr =>
      simp only [height, leaves, List.length_append]
      omega

lemma exists_path (t : CodeTree α) : ∃ bs x, t.IsPath bs x := by
  induction t with
  | leaf a => exact ⟨[], a, by simp⟩
  | node l r ihl _ =>
      obtain ⟨bs, x, h⟩ := ihl
      exact ⟨false :: bs, x, h⟩

lemma height_le_iff {t : CodeTree α} {n : ℕ} :
    t.height ≤ n ↔ ∀ bs x, t.IsPath bs x → bs.length ≤ n := by
  induction t generalizing n with
  | leaf a => simp [height]
  | node l r ihl ihr =>
      cases n with
      | zero =>
          constructor
          · intro h
            simp [height] at h
          · intro h
            obtain ⟨bs, x, hp⟩ := l.exists_path
            simpa using h (false :: bs) x hp
      | succ n =>
          have hh : (node l r).height ≤ n + 1 ↔ l.height ≤ n ∧ r.height ≤ n := by
            simp [height]
          rw [hh, ihl, ihr]
          constructor
          · rintro ⟨hl, hr⟩ bs x hp
            rcases isPath_node.1 hp with ⟨cs, rfl, hcs⟩ | ⟨cs, rfl, hcs⟩
            · simpa using hl cs x hcs
            · simpa using hr cs x hcs
          · intro h
            exact ⟨fun bs x hp => by simpa using h (false :: bs) x hp,
              fun bs x hp => by simpa using h (true :: bs) x hp⟩

/-- Below every level that the tree reaches, some code word turns right: an inner
node has a right child too. -/
lemma exists_right_turn {t : CodeTree α} {n : ℕ} (h : n < t.height) :
    ∃ bs x, t.IsPath bs x ∧ bs[n]? = some true := by
  induction t generalizing n with
  | leaf a => simp [height] at h
  | node l r ihl ihr =>
      cases n with
      | zero =>
          obtain ⟨bs, x, hp⟩ := r.exists_path
          exact ⟨true :: bs, x, hp, by simp⟩
      | succ n =>
          have hlr : n < l.height ∨ n < r.height := by
            simp only [height] at h
            omega
          rcases hlr with hl | hr
          · obtain ⟨bs, x, hp, ht⟩ := ihl hl
            exact ⟨false :: bs, x, hp, by simpa using ht⟩
          · obtain ⟨bs, x, hp, ht⟩ := ihr hr
            exact ⟨true :: bs, x, hp, by simpa using ht⟩

/-! ### Cost -/

/-- The total weight of the leaves. -/
def weight (w : α → ℕ) (t : CodeTree α) : ℕ := (t.leaves.map w).sum

/-- The total weight of the inner nodes, each being as heavy as its leaves together. -/
def cost (w : α → ℕ) : CodeTree α → ℕ
  | leaf _ => 0
  | node l r => l.cost w + r.cost w + (l.weight w + r.weight w)

@[simp] lemma weight_node (w : α → ℕ) (l r : CodeTree α) :
    (node l r).weight w = l.weight w + r.weight w := by
  simp [weight, leaves]

lemma sum_leaves_add {w len : α → ℕ} {t : CodeTree α} {d : ℕ}
    (h : ∀ bs x, t.IsPath bs x → len x = d + bs.length) :
    (t.leaves.map fun a => w a * len a).sum = t.cost w + d * t.weight w := by
  induction t generalizing d with
  | leaf a =>
      have ha : len a = d := by simpa using h [] a (by simp)
      simp [leaves, cost, weight, ha, Nat.mul_comm]
  | node l r ihl ihr =>
      have hl := @ihl (d + 1) fun bs x hp => by
        have := h (false :: bs) x hp
        simp only [List.length_cons] at this
        omega
      have hr := @ihr (d + 1) fun bs x hp => by
        have := h (true :: bs) x hp
        simp only [List.length_cons] at this
        omega
      simp only [leaves, List.map_append, List.sum_append, hl, hr, cost, weight_node]
      ring

/-- When `len` gives the lengths of the code words, the encoded size is the cost of
the tree. -/
lemma sum_leaves {w len : α → ℕ} {t : CodeTree α}
    (h : ∀ bs x, t.IsPath bs x → len x = bs.length) :
    (t.leaves.map fun a => w a * len a).sum = t.cost w := by
  have h' : ∀ bs x, t.IsPath bs x → len x = 0 + bs.length := by simpa using h
  simpa using sum_leaves_add h'

end CodeTree

end DemoClass
