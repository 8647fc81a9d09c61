import DemoClass.AddressList.Add
import DemoClass.AddressList.Save
import DemoClass.Lib.CSearch
import DemoClass.Lib.HeapWalk

/-!
# The program of the address book (`main.c`)

The functions behind the menu, with the records in memory: a record is reached through its address,
which has to be allocated.  What the user types is given as a list of commands; behind the last one
he types 0, and `list_destory` frees what is in the list.

The same choices on the list of the contacts alone (`Shelf`), without links and without memory,
say what the program is for.
-/

namespace DemoClass

namespace AddressList

open CString

/-- What the program shows. -/
inductive Shown where
  | printed (p : Printed)
  | line (name tel : List Char)
  | exported (notices : List Notice) (ret : ℤ)
deriving DecidableEq, Repr

/-- What the user types behind a choice of the menu, and what `malloc` and `fopen` return. -/
inductive Command (ι : Type) where
  | add (new : ι) (rounds : ℕ → Round)
  | update (inp : Input)
  | find (find_info : Word)
  | display
  | save (opens : Bool)
  | other

/-- A book, what was shown, and the file. -/
structure Desk (β : Type) where
  book : β
  out : List Shown
  file : List Char

/-- An array that is read or written behind its end. -/
def bounds {α : Type} (o : Option α) : Except MemFault α := o.elim (.error .outOfBounds) .ok

@[simp] lemma bounds_some_bind {α β : Type} (a : α) (k : α → Except MemFault β) :
    (bounds (some a) >>= k) = k a := rfl

@[simp] lemma bounds_none_bind {α β : Type} (k : α → Except MemFault β) :
    (bounds none >>= k) = .error .outOfBounds := rfl

namespace LinkMan

/-- The arrays that `find_link_man` looks for a part in. -/
def searched : List Field := [.tel, .email, .company, .address, .post]

/-- Whether the name is the string, or another array has it as a part. -/
def isFound (m : LinkMan) (find_info : List Char) : Option Bool := do
  let name ← str m.name.chars
  if name = find_info then return true
  searched.anyM fun f => (strstr (m.get f) find_info).map Option.isSome

/-- What is shown of a contact that is looked for. -/
def found (m : LinkMan) (find_info : List Char) : Option (List Shown) := do
  if ← m.isFound find_info then
    let fields ← m.printInfo
    return [.printed (.info fields)]
  else return []

/-- `print_linkman` -/
def printLinkman (m : LinkMan) : Option Shown := do
  let name ← str m.name.chars
  let tel ← str m.tel.chars
  return .line name tel

/-- The `switch` of `update_link_man`. -/
def change (m : LinkMan) (inp : Input) : Option LinkMan :=
  match Book.written inp.choice with
  | none => some m
  | some f =>
    if inp.update_info.chars.length < 20 then m.memmove f inp.update_info.chars else none

/-- All fields of a round. -/
def scanAll (m : LinkMan) (r : Round) : Option LinkMan :=
  Contacts.asked.foldlM (fun m f => m.scan f (r.words f)) m

end LinkMan

/-! ### With the records in memory -/

namespace Contacts

variable {ι α : Type} [DecidableEq ι]

/-- Read from the arrays of a record. -/
def readMan (h : Heap ι (Contacts ι)) (cur : ι) (f : LinkMan → Option α) : Comp MemFault α := do
  let m ← h.load cur fun μ => μ.data cur
  Comp.ofExcept (bounds (f m))

/-- `print_info` -/
def printInfo (h : Heap ι (Contacts ι)) (cur : ι) : Comp MemFault Shown := do
  let fields ← readMan h cur LinkMan.printInfo
  return .printed (.info fields)

/-- `node_init` -/
def nodeInit (h : Heap ι (Contacts ι)) (node : ι) : Comp MemFault (Heap ι (Contacts ι)) := do
  let h ← h.writeNext node node
  h.writePrev node node

/-- `node_del` -/
def nodeDel (h : Heap ι (Contacts ι)) (node : ι) : Comp MemFault (Heap ι (Contacts ι)) := do
  let next ← h.readNext node
  let prev ← h.readPrev node
  let h ← h.writePrev next prev
  let prev ← h.readPrev node
  let next ← h.readNext node
  let h ← h.writeNext prev next
  let h ← nodeInit h node
  h.free node

/-- A round of the loop of `find_link_man`, with `flag` and what was shown. -/
def findRecord (h : Heap ι (Contacts ι)) (find_info : List Char) (cur : ι)
    (s : Bool × List Shown) : Comp MemFault ((Bool × List Shown) ⊕ Empty) := do
  if ← readMan h cur (·.isFound find_info) then
    let info ← printInfo h cur
    return .inl (true, s.2 ++ [info])
  else return .inl s

/-- `find_link_man` -/
def findLinkMan (head : ι) (find_info : Word) (h : Heap ι (Contacts ι)) :
    Comp MemFault (List Shown) :=
  if find_info.chars.length < 20 then do
    match ← h.forEach head (findRecord h find_info.chars) (false, []) with
    | .inl s => pure (if s.1 then s.2 else s.2 ++ [.printed .notFound])
    | .inr e => nomatch e
  -- `scanf` writes behind the end of `find_info`
  else Comp.fault .outOfBounds

/-- `display_link_man` with `print_linkman` -/
def displayLinkMan (head : ι) (h : Heap ι (Contacts ι)) : Comp MemFault (List Shown) := do
  match ← h.forEach head (fun cur out => do
      let line ← readMan h cur LinkMan.printLinkman
      return .inl (out ++ [line])) [] with
  | .inl out => pure out
  | .inr e => nomatch (e : Empty)

/-- A round of the loop of `update_link_man` that looks for the contact to be changed. -/
def updateRecord (h : Heap ι (Contacts ι)) (inp : Input) (cur : ι) (s : Unit) :
    Comp MemFault (Unit ⊕ (Heap ι (Contacts ι) × List Shown)) := do
  if ← readMan h cur (·.isCalled inp.update.chars) then
    let before ← printInfo h cur
    let h ← h.writeData cur (·.change inp)
    let after ← printInfo h cur
    return .inr (h, [before, after] ++ if inp.confirms then [] else [.printed .updated])
  else return .inl s

/-- A round of the loop of `update_link_man` that looks for the contact to be deleted. -/
def deleteRecord (h : Heap ι (Contacts ι)) (inp : Input) (cur : ι) (_ : Unit) :
    Comp MemFault (Unit ⊕ (Heap ι (Contacts ι) × List Shown)) := do
  if ← readMan h cur (·.isCalled inp.update.chars) then
    let info ← printInfo h cur
    let h ← if inp.confirms then nodeDel h cur else pure h
    return .inr (h, [info])
  else return .inr (h, [.printed .notFound])

/-- `update_link_man` -/
def updateLinkMan (head : ι) (inp : Input) (h : Heap ι (Contacts ι)) :
    Comp MemFault (Heap ι (Contacts ι) × List Shown) :=
  if inp.i = 1 then
    if inp.update.chars.length < 20 then do
      match ← h.forEach head (updateRecord h inp) () with
      | .inl _ => pure (h, [.printed .notFound])
      | .inr r => pure r
    -- `scanf` writes behind the end of `update`
    else Comp.fault .outOfBounds
  else if inp.i = 2 then
    if inp.update.chars.length < 20 then do
      match ← h.forEach head (deleteRecord h inp) () with
      | .inl _ => pure (h, [])
      | .inr r => pure r
    else Comp.fault .outOfBounds
  else pure (h, [])

/-- `save`, where `opens` is whether `fopen` succeeds; it truncates the file. -/
def save (head : ι) (opens : Bool) (h : Heap ι (Contacts ι)) (file : List Char) :
    Comp MemFault Export := do
  let next ← h.readNext head
  let notices := if next = head then [.nothingToExport] else []
  if opens then
    match ← h.forEach head (fun cur file => do
        let text ← readMan h cur LinkMan.savedText
        return .inl (file ++ text)) [] with
    | .inl file => pure ⟨file, notices, 0⟩
    | .inr e => nomatch (e : Empty)
  else pure ⟨file, notices ++ [.openFailed], -1⟩

/-- `list_destory` -/
def listDestory (head : ι) (h : Heap ι (Contacts ι)) : Comp MemFault (Heap ι (Contacts ι)) :=
  Comp.loop (fun h : Heap ι (Contacts ι) => do
    let next ← h.readNext head
    if next = head then pure (.inr h)
    else do
      let node ← h.readNext head
      let h ← nodeDel h node
      pure (.inl h)) h

/-- A choice of the menu. -/
def command (head : ι) (d : Desk (Heap ι (Contacts ι))) :
    Command ι → Comp MemFault (Desk (Heap ι (Contacts ι)))
  | .add new rounds => do
    let h ← addLinkMan head new rounds d.book
    return { d with book := h }
  | .update inp => do
    let shown ← displayLinkMan head d.book
    let (h, shown') ← updateLinkMan head inp d.book
    return { d with book := h, out := d.out ++ shown ++ shown' }
  | .find find_info => do
    let shown ← findLinkMan head find_info d.book
    return { d with out := d.out ++ shown }
  | .display => do
    let shown ← displayLinkMan head d.book
    return { d with out := d.out ++ shown }
  | .save opens => do
    let e ← save head opens d.book d.file
    return { d with out := d.out ++ [.exported e.notices e.ret], file := e.file }
  | .other => return d

/-- `main`, where the commands are what the user types until 0. -/
def program (head : ι) (cs : List (Command ι)) (d : Desk (Heap ι (Contacts ι))) :
    Comp MemFault (Desk (Heap ι (Contacts ι))) := do
  let h ← nodeInit d.book head
  let d ← cs.foldlM (command head) { d with book := h }
  let h ← listDestory head d.book
  return { d with book := h }

end Contacts

/-! ### On the list of the contacts -/

/-- The contacts in their order, and what is in the records, also in those that were freed. -/
structure Shelf (ι : Type) where
  xs : List ι
  man : ι → LinkMan

namespace Shelf

variable {ι : Type} [DecidableEq ι]

/-- A contact is put behind the others when its first round is answered with yes.  After no, a
record that was freed is written to. -/
def add (b : Shelf ι) (new : ι) (r : Round) : Except MemFault (Shelf ι) :=
  match (b.man new).scanAll r with
  | none => .error .outOfBounds
  | some m =>
    if r.SaysNo then .error .dangling
    else .ok {
      xs := if r.c = 'Y' ∨ r.c = 'y' then b.xs ++ [new] else b.xs
      man := Function.update b.man new m }

/-- The contacts that are found, in their order. -/
def find (b : Shelf ι) (find_info : Word) : Except MemFault (List Shown) :=
  if find_info.chars.length < 20 then do
    let infos ← b.xs.mapM fun x => bounds ((b.man x).found find_info.chars)
    return if infos.flatten = [] then [.printed .notFound] else infos.flatten
  else .error .outOfBounds

/-- The names and telephones of all contacts. -/
def display (b : Shelf ι) : Except MemFault (List Shown) :=
  b.xs.mapM fun x => bounds (b.man x).printLinkman

/-- A contact is changed. -/
def changeOf (b : Shelf ι) (inp : Input) (x : ι) : Except MemFault (Shelf ι × List Shown) := do
  let before ← bounds (b.man x).printInfo
  let m ← bounds ((b.man x).change inp)
  let after ← bounds m.printInfo
  return ({ b with man := Function.update b.man x m },
    [.printed (.info before), .printed (.info after)] ++
      if inp.confirms then [] else [.printed .updated])

/-- The first contact that is called so is changed. -/
def change (b : Shelf ι) (inp : Input) : Except MemFault (Shelf ι × List Shown) := do
  let found ← b.xs.findM? fun x => bounds ((b.man x).isCalled inp.update.chars)
  found.elim (.ok (b, [.printed .notFound])) (b.changeOf inp)

/-- The first contact is deleted if it is called so. -/
def delete (b : Shelf ι) (inp : Input) : Except MemFault (Shelf ι × List Shown) :=
  match b.xs with
  | [] => .ok (b, [])
  | x :: xs => do
    if ← bounds ((b.man x).isCalled inp.update.chars) then
      let info ← bounds (b.man x).printInfo
      return (if inp.confirms then { b with xs := xs } else b, [.printed (.info info)])
    else return (b, [.printed .notFound])

def update (b : Shelf ι) (inp : Input) : Except MemFault (Shelf ι × List Shown) :=
  if inp.i = 1 then
    if inp.update.chars.length < 20 then b.change inp else .error .outOfBounds
  else if inp.i = 2 then
    if inp.update.chars.length < 20 then b.delete inp else .error .outOfBounds
  else .ok (b, [])

/-- The texts of all contacts. -/
def save (b : Shelf ι) (opens : Bool) (file : List Char) : Except MemFault Export :=
  let notices := if b.xs = [] then [.nothingToExport] else []
  if opens then do
    let texts ← b.xs.mapM fun x => bounds (b.man x).savedText
    return ⟨texts.flatten, notices, 0⟩
  else .ok ⟨file, notices ++ [.openFailed], -1⟩

/-- What a command comes to. -/
def command (d : Desk (Shelf ι)) : Command ι → Except MemFault (Desk (Shelf ι))
  | .add new rounds => do
    let b ← d.book.add new (rounds 0)
    return { d with book := b }
  | .update inp => do
    let shown ← d.book.display
    let (b, shown') ← d.book.update inp
    return { d with book := b, out := d.out ++ shown ++ shown' }
  | .find find_info => do
    let shown ← d.book.find find_info
    return { d with out := d.out ++ shown }
  | .display => do
    let shown ← d.book.display
    return { d with out := d.out ++ shown }
  | .save opens => do
    let e ← d.book.save opens d.file
    return { d with out := d.out ++ [.exported e.notices e.ret], file := e.file }
  | .other => return d

end Shelf

end AddressList

end DemoClass
