import DemoClass.Lib.Ring

/-!
# The intrusive list (`list.h`)

The functions of `list.h` as they rewrite the links of the nodes, one assignment
after the other, and what they do to the sequence of a ring.
-/

namespace DemoClass

namespace Links

variable {ι : Type} [DecidableEq ι]

/-- `list_head_init` -/
def listHeadInit (l : Links ι) (node : ι) : Links ι := (l.setNext node node).setPrev node node

/-- `__list_add` -/
def _listAdd (l : Links ι) (node Prev Next : ι) : Links ι :=
  (((l.setNext node Next).setPrev node Prev).setPrev Next node).setNext Prev node

/-- `list_add` -/
def listAdd (l : Links ι) (head node : ι) : Links ι := l._listAdd node head (l.next head)

/-- `list_add_tail` -/
def listAddTail (l : Links ι) (head node : ι) : Links ι := l._listAdd node (l.prev head) head

/-- `list_is_empty` -/
def listIsEmpty (l : Links ι) (head : ι) : Bool := l.next head = head ∧ l.prev head = head

/-- `list_del` -/
def listDel (l : Links ι) (node : ι) : Links ι :=
  let l := l.setNext (l.prev node) (l.next node)
  l.setPrev (l.next node) (l.prev node)

/-- `list_del_init` -/
def listDelInit (l : Links ι) (node : ι) : Links ι := (l.listDel node).listHeadInit node

lemma _listAdd_eq (l : Links ι) (node Prev Next : ι) :
    l._listAdd node Prev Next = l.spliceIn node Prev Next := rfl

variable {l : Links ι} {h x : ι} {xs ys : List ι}

namespace Ring

/-- The ring of the head does not notice that a node outside it is reset. -/
lemma listHeadInit (hr : l.Ring h xs) (hx : x ∉ h :: xs) : (l.listHeadInit x).Ring h xs :=
  hr.isolate hx

lemma listAddTail (hr : l.Ring h xs) (hx : x ∉ h :: xs) :
    (l.listAddTail h x).Ring h (xs ++ [x]) := hr.splice_last hx

lemma listAdd (hr : l.Ring h xs) (hx : x ∉ h :: xs) : (l.listAdd h x).Ring h (x :: xs) :=
  hr.splice_head hx

lemma listDel (hr : l.Ring h (xs ++ x :: ys)) : (l.listDel x).Ring h (xs ++ ys) := hr.unlink

lemma listDelInit (hr : l.Ring h (xs ++ x :: ys)) : (l.listDelInit x).Ring h (xs ++ ys) :=
  hr.listDel.listHeadInit hr.notMem_rest

end Ring

end Links

end DemoClass
