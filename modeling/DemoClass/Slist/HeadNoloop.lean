import DemoClass.Lib.Calls
import DemoClass.Lib.Segment
import Mathlib.Data.Int.Notation

/-!
# The list with a head that ends in `NULL` (`02head_noloop_slist.c`)

The nodes belong to the caller: the list only links them, and a node that was taken out may come
into it again.  `slist_del` leaves the first node linked to itself, and every other node with
`NULL`; `Holds.remove` holds for both.  `walk_refines`: every sequence of calls on a new list does
to it what it does to a sequence of nodes.
-/

namespace DemoClass

namespace HeadNoloop

variable {ι : Type}

/-- The members of the nodes, `info->head` among them. -/
structure NodeInfo (ι : Type) where
  next : ι → Option ι
  data : ι → ℤ

/-- A round of the loop of `slist_for_each`, on `cur` and what is printed. -/
def forEachBody (m : NodeInfo ι) (w : Option ι × List ℤ) :
    Comp Empty ((Option ι × List ℤ) ⊕ List ℤ) :=
  match w.1 with
  | none => pure (.inr w.2)
  | some x => pure (.inl (m.next x, w.2 ++ [m.data x]))

/-- `slist_for_each`: the numbers it prints. -/
def slistForEach (m : NodeInfo ι) (head : ι) : Comp Empty (List ℤ) :=
  Comp.loop (forEachBody m) (m.next head, [])

/-- A round of the loop of `slist_add_tail`. -/
def tailBody (m : NodeInfo ι) (cur : Option ι) : Comp Empty (Option ι ⊕ Option ι) :=
  match cur with
  | none => pure (.inr none)
  | some x => if m.next x = none then pure (.inr (some x)) else pure (.inl (m.next x))

/-- A round of the loop of `slist_search`. -/
def searchBody (m : NodeInfo ι) (key : ℤ) (cur : Option ι) : Comp Empty (Option ι ⊕ Option ι) :=
  match cur with
  | none => pure (.inr none)
  | some x => if m.data x = key then pure (.inr (some x)) else pure (.inl (m.next x))

/-- `slist_search` -/
def slistSearch (m : NodeInfo ι) (head : ι) (key : ℤ) : Comp Empty (Option ι) :=
  if m.next head = none then pure none else Comp.loop (searchBody m key) (m.next head)

/-- `slist_is_empty` -/
def slistIsEmpty (m : NodeInfo ι) (head : ι) : Bool := (m.next head).isNone

variable [DecidableEq ι]

/-- `x->next = y` -/
def setNext (m : NodeInfo ι) (x : ι) (y : Option ι) : NodeInfo ι :=
  { m with next := Function.update m.next x y }

/-- `slist_init` -/
def slistInit (m : NodeInfo ι) (head : ι) : NodeInfo ι :=
  setNext { m with data := Function.update m.data head 0 } head none

/-- `slist_add` -/
def slistAdd (m : NodeInfo ι) (head node : ι) : NodeInfo ι :=
  setNext (setNext m node (m.next head)) head (some node)

/-- `slist_add_tail` -/
def slistAddTail (m : NodeInfo ι) (head node : ι) : Comp Empty (NodeInfo ι) := do
  let cur ← Comp.loop (tailBody m) (m.next head)
  let m := setNext m node none
  match cur with
  | some cur => pure (setNext m cur (some node))
  | none => pure (setNext m head (some node))

/-- A round of the loop of `slist_del`. -/
def delBody (m : NodeInfo ι) (key : ι) (cur : Option ι) :
    Comp Empty (Option ι ⊕ NodeInfo ι) :=
  match cur with
  | none => pure (.inr m)
  | some x =>
    if m.next x ≠ some key then pure (.inl (m.next x))
    else pure (.inr (setNext (setNext m x (m.next key)) key none))

/-- `slist_del` -/
def slistDel (m : NodeInfo ι) (head key : ι) : Comp Empty (NodeInfo ι) :=
  if slistIsEmpty m head then pure m
  else if m.next head = some key then
    pure (setNext (setNext m head (m.next key)) key (some key))
  else Comp.loop (delBody m key) (m.next head)

/-! ### The list in use -/

/-- The nodes `xs` lead from the head to `NULL`. -/
structure Holds (m : NodeInfo ι) (head : ι) (xs : List ι) : Prop where
  nodup : (head :: xs).Nodup
  seg : Seg m.next some (m.next head) xs none

variable {m : NodeInfo ι} {head key x p : ι} {us vs xs : List ι}

@[simp] lemma next_setNext (m : NodeInfo ι) (x : ι) (y : Option ι) :
    (setNext m x y).next = Function.update m.next x y := rfl

@[simp] lemma data_setNext (m : NodeInfo ι) (x : ι) (y : Option ι) :
    (setNext m x y).data = m.data := rfl

namespace Holds

omit [DecidableEq ι] in
lemma next_last (hl : Holds m head (us ++ vs)) : m.next (us.getLastD head) = vs.head? := by
  rw [hl.seg.next_behind hl.nodup]
  cases vs <;> rfl

omit [DecidableEq ι] in
lemma next_head (hl : Holds m head xs) : m.next head = xs.head? := by
  have hl' : Holds m head ([] ++ xs) := hl
  exact hl'.next_last

omit [DecidableEq ι] in
lemma next_mem (hl : Holds m head (us ++ x :: vs)) : m.next x = vs.head? := by
  have hl' : Holds m head ((us ++ [x]) ++ vs) := by simpa using hl
  simpa using hl'.next_last

/-- A node is linked in behind `us`. -/
lemma insert (hl : Holds m head (us ++ vs)) (hx : x ∉ head :: (us ++ vs)) :
    Holds (setNext (setNext m x (m.next (us.getLastD head))) (us.getLastD head) (some x)) head
      (us ++ x :: vs) :=
  ⟨(Seg.perm_behind head x us vs).nodup_iff.2 (List.nodup_cons.2 ⟨hx, hl.nodup⟩),
    hl.seg.insert_behind hl.nodup hx rfl⟩

/-- The node behind `us` is taken out, whatever its link is then. -/
lemma remove (hl : Holds m head (us ++ x :: vs)) (k : Option ι) :
    Holds (setNext (setNext m (us.getLastD head) (m.next x)) x k) head (us ++ vs) :=
  ⟨(List.nodup_cons.1 ((Seg.perm_behind head x us vs).nodup_iff.1 hl.nodup)).2,
    hl.seg.remove_behind hl.nodup rfl⟩

end Holds

/-! ### The functions -/

/-- A new list is empty. -/
lemma slistInit_holds (m : NodeInfo ι) (head : ι) : Holds (slistInit m head) head [] :=
  ⟨List.nodup_singleton head, by simp [slistInit]⟩

lemma slistAdd_holds (hl : Holds m head xs) (hx : x ∉ head :: xs) :
    Holds (slistAdd m head x) head (x :: xs) := by
  have hl' : Holds m head ([] ++ xs) := hl
  exact hl'.insert hx

omit [DecidableEq ι] in
/-- The loop of `slist_add_tail` comes to the last node. -/
lemma tail_loop {k : Option ι} (h : Seg m.next some k xs none) :
    (Comp.loop (tailBody m) k).Ends (.ok xs.getLast?) := by
  induction xs generalizing k with
  | nil =>
      obtain rfl : k = none := h
      exact Comp.Ends.loop_inr (Comp.ends_pure.2 rfl)
  | cons x xs ih =>
      obtain ⟨rfl, h⟩ := h
      cases xs with
      | nil =>
          have hlast : m.next x = none := h
          refine Comp.Ends.loop_inr ?_
          rw [tailBody, if_pos hlast]
          exact Comp.ends_pure.2 rfl
      | cons y xs =>
          have hnext : m.next x = some y := h.1
          refine Comp.Ends.loop_inl ?_ (ih h)
          rw [tailBody, if_neg (by simp [hnext])]
          exact Comp.ends_pure.2 rfl

lemma slistAddTail_ends (hl : Holds m head xs) (hx : x ∉ head :: xs) : ∃ m',
    (slistAddTail m head x).Ends (.ok m') ∧ Holds m' head (xs ++ [x]) ∧ m'.data = m.data := by
  have hl' : Holds m head (xs ++ []) := by simpa using hl
  have hins := hl'.insert (x := x) (by simpa using hx)
  rw [hl'.next_last] at hins
  refine ⟨_, (tail_loop hl.seg).bind ?_, hins, rfl⟩
  rcases List.eq_nil_or_concat xs with rfl | ⟨us, y, rfl⟩
  · exact Comp.ends_pure.2 rfl
  · simp

omit [DecidableEq ι] in
lemma forEach_loop {k : Option ι} (h : Seg m.next some k xs none) (out : List ℤ) :
    (Comp.loop (forEachBody m) (k, out)).Ends (.ok (out ++ xs.map m.data)) := by
  induction xs generalizing k out with
  | nil =>
      obtain rfl : k = none := h
      exact Comp.Ends.loop_inr (by simp [forEachBody])
  | cons x xs ih =>
      obtain ⟨rfl, h⟩ := h
      have hrest := ih h (out ++ [m.data x])
      rw [List.append_assoc, List.singleton_append] at hrest
      exact Comp.Ends.loop_inl (Comp.ends_pure.2 rfl) hrest

omit [DecidableEq ι] in
lemma slistForEach_ends (hl : Holds m head xs) :
    (slistForEach m head).Ends (.ok (xs.map m.data)) :=
  forEach_loop hl.seg []

omit [DecidableEq ι] in
lemma search_loop {k : Option ι} (h : Seg m.next some k xs none) (key : ℤ) :
    (Comp.loop (searchBody m key) k).Ends (.ok (xs.find? fun x => decide (m.data x = key))) := by
  induction xs generalizing k with
  | nil =>
      obtain rfl : k = none := h
      exact Comp.Ends.loop_inr (Comp.ends_pure.2 rfl)
  | cons x xs ih =>
      obtain ⟨rfl, h⟩ := h
      by_cases hx : m.data x = key
      · rw [List.find?_cons_of_pos (by simpa using hx)]
        refine Comp.Ends.loop_inr ?_
        rw [searchBody, if_pos hx]
        exact Comp.ends_pure.2 rfl
      · rw [List.find?_cons_of_neg (by simpa using hx)]
        refine Comp.Ends.loop_inl ?_ (ih h)
        rw [searchBody, if_neg hx]
        exact Comp.ends_pure.2 rfl

omit [DecidableEq ι] in
lemma slistSearch_ends (hl : Holds m head xs) (key : ℤ) :
    (slistSearch m head key).Ends (.ok (xs.find? fun x => decide (m.data x = key))) := by
  rw [slistSearch]
  cases xs with
  | nil =>
      have hnil : m.next head = none := hl.next_head
      rw [if_pos hnil]
      exact Comp.ends_pure.2 rfl
  | cons x xs =>
      rw [if_neg (by simp [hl.next_head])]
      exact search_loop hl.seg key

/-- The loop of `slist_del` on a node that is not the one to take out. -/
lemma del_loop (hl : Holds m head (us ++ p :: vs)) (key : ι) : ∃ m',
    (Comp.loop (delBody m key) (some p)).Ends (.ok m') ∧ Holds m' head (us ++ p :: vs.erase key) ∧
      m'.data = m.data ∧ (key ∉ vs → m' = m) := by
  induction vs generalizing us p with
  | nil =>
      have hstep : (delBody m key (some p)).Ends (.ok (.inl none)) := by
        rw [delBody, hl.next_mem, List.head?_nil, if_pos (by simp)]
        exact Comp.ends_pure.2 rfl
      refine ⟨m, Comp.Ends.loop_inl hstep ?_, hl, rfl, fun _ => rfl⟩
      exact Comp.Ends.loop_inr (Comp.ends_pure.2 rfl)
  | cons y vs ih =>
      have hl' : Holds m head ((us ++ [p]) ++ y :: vs) := by simpa using hl
      have hnext := hl.next_mem
      by_cases hy : y = key
      · subst hy
        have hrem := hl'.remove none
        rw [List.getLastD_concat, List.append_assoc, List.singleton_append] at hrem
        refine ⟨setNext (setNext m p (m.next y)) y none, Comp.Ends.loop_inr ?_,
          by rwa [List.erase_cons_head], rfl, fun hk => absurd List.mem_cons_self hk⟩
        rw [delBody, if_neg (by simp [hnext])]
        exact Comp.ends_pure.2 rfl
      · obtain ⟨m', hends, hl₁, hdata, hsame⟩ := ih hl'
        have hne : (y == key) = false := beq_false_of_ne hy
        refine ⟨m', Comp.Ends.loop_inl ?_ hends, ?_, hdata, fun hk => hsame ?_⟩
        · rw [delBody, hnext, List.head?_cons, if_pos (by simpa using hy)]
          exact Comp.ends_pure.2 rfl
        · rw [List.erase_cons_tail (by simpa using hy)]
          simpa using hl₁
        · exact fun hm => hk (List.mem_cons_of_mem y hm)

/-- `slist_del` takes out the node, if it is in the list. -/
lemma slistDel_ends (hl : Holds m head xs) (key : ι) : ∃ m',
    (slistDel m head key).Ends (.ok m') ∧ Holds m' head (xs.erase key) ∧ m'.data = m.data ∧
      (key ∉ xs → m' = m) := by
  have hnext := hl.next_head
  cases xs with
  | nil =>
      refine ⟨m, ?_, hl, rfl, fun _ => rfl⟩
      rw [slistDel, if_pos (by simp [slistIsEmpty, hnext])]
      exact Comp.ends_pure.2 rfl
  | cons x xs =>
      have hl' : Holds m head ([] ++ x :: xs) := hl
      have hempty : slistIsEmpty m head = false := by simp [slistIsEmpty, hnext]
      rw [slistDel, hempty, if_neg Bool.false_ne_true, hnext, List.head?_cons]
      by_cases hx : x = key
      · subst hx
        have hrem := hl'.remove (some x)
        refine ⟨setNext (setNext m head (m.next x)) x (some x), ?_, by rwa [List.erase_cons_head],
          rfl, fun hk => absurd List.mem_cons_self hk⟩
        rw [if_pos rfl]
        exact Comp.ends_pure.2 rfl
      · obtain ⟨m', hends, hl₁, hdata, hsame⟩ := del_loop hl' key
        refine ⟨m', ?_, ?_, hdata, fun hk => hsame fun hm => hk (List.mem_cons_of_mem x hm)⟩
        · rwa [if_neg (by simpa using hx)]
        · rw [List.erase_cons_tail (by simpa using hx)]
          exact hl₁

/-! ### Runs -/

inductive Call (ι : Type) where
  | add (node : ι)
  | addTail (node : ι)
  | del (key : ι)
deriving DecidableEq

def call (head : ι) (c : Call ι) (m : NodeInfo ι) : Comp Empty (NodeInfo ι × Unit) :=
  match c with
  | .add node => pure (slistAdd m head node, ())
  | .addTail node => do
    let m ← slistAddTail m head node
    pure (m, ())
  | .del key => do
    let m ← slistDel m head key
    pure (m, ())

/-- What a call does to the sequence of nodes. -/
def spec (c : Call ι) (xs : List ι) : List ι × Unit :=
  match c with
  | .add node => (node :: xs, ())
  | .addTail node => (xs ++ [node], ())
  | .del key => (xs.erase key, ())

/-- What a call needs: a node that is linked in is not in the list yet. -/
def Needs (head : ι) (c : Call ι) (m : NodeInfo ι) : Prop :=
  match c with
  | .add node | .addTail node =>
    ∀ xs, Seg m.next some (m.next head) xs none → node ∉ head :: xs
  | .del _ => True

/-- The list holds the nodes, and all nodes have the numbers `d`. -/
def Rep (head : ι) (d : ι → ℤ) (m : NodeInfo ι) (xs : List ι) : Prop :=
  Holds m head xs ∧ m.data = d

lemma call_refines (head : ι) (d : ι → ℤ) :
    Calls.Refines (call head) (Needs head) spec (Rep head d) := by
  rintro (x | x | key) m xs ⟨hl, rfl⟩ hneeds
  · exact ⟨_, Comp.ends_pure.2 rfl, slistAdd_holds hl (hneeds xs hl.seg), rfl⟩
  · obtain ⟨m', hends, hrep⟩ := slistAddTail_ends hl (hneeds xs hl.seg)
    exact ⟨m', hends.bind (Comp.ends_pure.2 rfl), hrep⟩
  · obtain ⟨m', hends, hl', hdata, -⟩ := slistDel_ends hl key
    exact ⟨m', hends.bind (Comp.ends_pure.2 rfl), hl', hdata⟩

/-- Every sequence of calls on a new list does to it what it does to the sequence of nodes: from the
head `next` leads through these nodes to `NULL`, `slist_search` finds the first of them with a
number, `slist_for_each` comes to them in this order, and taking out a node that is not there
changes nothing. -/
theorem walk_refines (m : NodeInfo ι) (head : ι) (cs : List (Call ι))
    (hp : Calls.Provided (call head) (Needs head) cs (slistInit m head)) :
    ∃ m' xs, (Calls.calls (call head) cs (slistInit m head)).Ends
        (.ok (m', (Calls.expected spec cs []).2)) ∧
      xs = (Calls.expected spec cs []).1 ∧ (head :: xs).Nodup ∧
      Seg m'.next some (m'.next head) xs none ∧ m'.data = (slistInit m head).data ∧
      (∀ key, (slistSearch m' head key).Ends
        (.ok (xs.find? fun x => decide (m'.data x = key)))) ∧
      (slistForEach m' head).Ends (.ok (xs.map m'.data)) ∧
      ∀ key ∉ xs, (slistDel m' head key).Ends (.ok m') := by
  have hrep : Rep head (slistInit m head).data (slistInit m head) [] :=
    ⟨slistInit_holds m head, rfl⟩
  obtain ⟨m', hcalls, hl, hdata⟩ := (call_refines head _).calls cs hrep hp
  refine ⟨m', _, hcalls, rfl, hl.nodup, hl.seg, hdata, slistSearch_ends hl,
    slistForEach_ends hl, fun key hkey => ?_⟩
  obtain ⟨m'', hends, -, -, hsame⟩ := slistDel_ends hl key
  rwa [hsame hkey] at hends

omit [DecidableEq ι] in
/-- Another list in use cannot lead along the same links. -/
lemma needs_add {node : ι} (xs : List ι) (hseg : Seg m.next some (m.next head) xs none)
    (hnode : node ∉ head :: xs) : Needs head (.add node) m := by
  intro ys hys
  rwa [hys.unique hseg (fun _ _ => Option.some.inj) (fun _ _ => Option.some_ne_none _)
    fun _ _ => Option.some_ne_none _]

omit [DecidableEq ι] in
lemma needs_addTail {node : ι} (xs : List ι) (hseg : Seg m.next some (m.next head) xs none)
    (hnode : node ∉ head :: xs) : Needs head (.addTail node) m :=
  needs_add xs hseg hnode

/-- Nodes that are linked to nothing, with their own numbers. -/
def loose : NodeInfo ℕ := ⟨fun _ => none, fun x => x⟩

/-- The first node and the last one are taken out, and come in again the other way round. -/
theorem walk_refines_again : ∃ m',
    (Calls.calls (call 0) [.addTail 5, .add 3, .addTail 7, .del 3, .del 7, .del 4, .add 7,
      .addTail 3] (slistInit loose 0)).Ends (.ok (m', [(), (), (), (), (), (), (), ()])) ∧
      (slistForEach m' 0).Ends (.ok [7, 5, 3]) ∧ (slistSearch m' 0 5).Ends (.ok (some 5)) ∧
      (slistSearch m' 0 4).Ends (.ok none) := by
  obtain ⟨m', xs, hcalls, rfl, -, -, hdata, hsearch, hprinted, -⟩ := walk_refines loose 0
    [.addTail 5, .add 3, .addTail 7, .del 3, .del 7, .del 4, .add 7, .addTail 3]
    (.cons (needs_addTail [] rfl (by decide)) ⟨9, rfl⟩
    (.cons (needs_add [5] ⟨rfl, rfl⟩ (by decide)) ⟨9, rfl⟩
    (.cons (needs_addTail [3, 5] ⟨rfl, rfl, rfl⟩ (by decide)) ⟨9, rfl⟩
    (.cons trivial ⟨9, rfl⟩ (.cons trivial ⟨9, rfl⟩ (.cons trivial ⟨9, rfl⟩
    (.cons (needs_add [5] ⟨rfl, rfl⟩ (by decide)) ⟨9, rfl⟩
    (.cons (needs_addTail [7, 5] ⟨rfl, rfl, rfl⟩ (by decide)) ⟨9, rfl⟩ trivial))))))))
  refine ⟨m', hcalls, ?_, ?_, ?_⟩
  · rw [hdata] at hprinted
    exact hprinted
  · have hfound := hsearch 5
    rw [hdata] at hfound
    exact hfound
  · have hfound := hsearch 4
    rw [hdata] at hfound
    exact hfound

end HeadNoloop

end DemoClass
