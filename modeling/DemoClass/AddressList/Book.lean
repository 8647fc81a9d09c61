import DemoClass.KernelList.ForEach
import DemoClass.Lib.CString

/-!
# The address book (`address_list.h`, `address_list.c`)

A contact is a node of a list with its arrays.  `update_link_man` changes a contact or
deletes one, which it looks for by name or telephone.  What the user types is given; of
what is printed there are the contacts and the reports, in their order.  There is no
result where a function reads or writes behind the end of an array.
-/

namespace DemoClass

namespace AddressList

open CString

/-- `MAX_NAME` -/
def maxName : ℕ := 20

/-- `MAX_TEL` -/
def maxTel : ℕ := 15

/-- `MAX_EMAIL` -/
def maxEmail : ℕ := 30

/-- `_CO` -/
def co : ℕ := 30

/-- `ADDR` -/
def addr : ℕ := 50

/-- `POST_NUM` -/
def postNum : ℕ := 7

/-- `MAX_SPELL` -/
def maxSpell : ℕ := 20

/-- `struct link_man` without its node -/
structure LinkMan where
  name : CharArray maxName
  tel : CharArray maxTel
  email : CharArray maxEmail
  company : CharArray co
  address : CharArray addr
  post : CharArray postNum
  spell : CharArray maxSpell
deriving DecidableEq

/-- The arrays of a contact. -/
inductive Field where
  | name
  | tel
  | email
  | company
  | address
  | post
  | spell
deriving DecidableEq, Repr

def Field.size : Field → ℕ
  | .name => maxName
  | .tel => maxTel
  | .email => maxEmail
  | .company => co
  | .address => addr
  | .post => postNum
  | .spell => maxSpell

namespace LinkMan

def get (m : LinkMan) : Field → List Char
  | .name => m.name.chars
  | .tel => m.tel.chars
  | .email => m.email.chars
  | .company => m.company.chars
  | .address => m.address.chars
  | .post => m.post.chars
  | .spell => m.spell.chars

/-- `memmove` to an array of the contact. -/
def memmove (m : LinkMan) (f : Field) (s : List Char) : Option LinkMan :=
  match f with
  | .name => (m.name.memmove s).map fun a => { m with name := a }
  | .tel => (m.tel.memmove s).map fun a => { m with tel := a }
  | .email => (m.email.memmove s).map fun a => { m with email := a }
  | .company => (m.company.memmove s).map fun a => { m with company := a }
  | .address => (m.address.memmove s).map fun a => { m with address := a }
  | .post => (m.post.memmove s).map fun a => { m with post := a }
  | .spell => (m.spell.memmove s).map fun a => { m with spell := a }

/-- Whether the name or the telephone is the string, by `strcmp`. -/
def isCalled (m : LinkMan) (update : List Char) : Option Bool := do
  let name ← str m.name.chars
  if name = update then return true
  let tel ← str m.tel.chars
  return tel = update

/-- What `print_info` prints of the contact. -/
def printInfo (m : LinkMan) : Option (List (List Char)) :=
  [m.name.chars, m.tel.chars, m.email.chars, m.company.chars, m.address.chars,
    m.post.chars].mapM str

end LinkMan

/-- What is printed. -/
inductive Printed where
  | info (fields : List (List Char))
  | notFound
  | updated
deriving DecidableEq, Repr

/-- The list, the contacts, those that were freed, and what was printed. -/
structure Book (ι : Type) where
  links : Links ι
  man : ι → LinkMan
  freed : List ι
  out : List Printed

inductive Fault where
  | outOfBounds
deriving DecidableEq, Repr

/-- What the user types: what to do, the contact it is done to, the number of the field that
is changed, its new contents, and the answer at the end. -/
structure Input where
  i : ℤ
  update : Word
  choice : ℤ
  update_info : Word
  c : Char

/-- Whether the user says yes. -/
def Input.confirms (inp : Input) : Prop := inp.c = 'Y' ∨ inp.c = 'y'

instance (inp : Input) : Decidable inp.confirms := inferInstanceAs (Decidable (_ ∨ _))

namespace Book

variable {ι : Type}

def print (b : Book ι) (p : Printed) : Book ι := { b with out := b.out ++ [p] }

/-- `print_info` -/
def printInfo (b : Book ι) (cur : ι) : Option (Book ι) :=
  (b.man cur).printInfo.map fun fields => b.print (.info fields)

variable [DecidableEq ι]

/-- `node_del` -/
def nodeDel (b : Book ι) (node : ι) : Book ι :=
  let links := b.links.setPrev (b.links.next node) (b.links.prev node)
  let links := links.setNext (links.prev node) (links.next node)
  { b with links := links.listHeadInit node, freed := b.freed ++ [node] }

/-- The array that is written for a number. -/
def written : ℤ → Option Field
  | 1 => some .name
  | 2 => some .spell
  | 3 => some .tel
  -- the new email goes to the name
  | 4 => some .name
  | 5 => some .company
  | 6 => some .address
  | 7 => some .post
  | _ => none

/-- The `switch`. -/
def change (b : Book ι) (cur : ι) (inp : Input) : Option (Book ι) :=
  match written inp.choice with
  | none => some b
  | some f =>
    if inp.update_info.chars.length < 20 then
      ((b.man cur).memmove f inp.update_info.chars).map fun m =>
        { b with man := Function.update b.man cur m }
    else none

/-- A round of the loop that looks for the contact to be changed. -/
def updateRecord (inp : Input) (cur : ι) (b : Book ι) : Option (Book ι ⊕ Book ι) := do
  if ← (b.man cur).isCalled inp.update.chars then
    let b ← b.printInfo cur
    let b ← b.change cur inp
    let b ← b.printInfo cur
    return .inr (if inp.confirms then b else b.print .updated)
  else return .inl b

/-- A round of the loop that looks for the contact to be deleted. -/
def deleteRecord (inp : Input) (cur : ι) (b : Book ι) : Option (Book ι ⊕ Book ι) := do
  if ← (b.man cur).isCalled inp.update.chars then
    let b ← b.printInfo cur
    return .inr (if inp.confirms then b.nodeDel cur else b)
  else return .inr (b.print .notFound)

/-- A loop over the contacts. -/
def search (record : ι → Book ι → Option (Book ι ⊕ Book ι)) (head : ι) (b : Book ι) :
    Comp Fault (Book ι ⊕ Book ι) :=
  Links.listForEach Book.links
    (fun cur b => Comp.ofExcept ((record cur b).elim (.error .outOfBounds) .ok)) head b

/-- `update_link_man` -/
def updateLinkMan (head : ι) (inp : Input) (b : Book ι) : Comp Fault (Book ι) :=
  if inp.i = 1 then
    if inp.update.chars.length < 20 then do
      match ← search (updateRecord inp) head b with
      | .inl b => pure (b.print .notFound)
      | .inr b => pure b
    -- `scanf` writes behind the end of `update`
    else Comp.fault .outOfBounds
  else if inp.i = 2 then
    if inp.update.chars.length < 20 then do
      match ← search (deleteRecord inp) head b with
      | .inl b => pure b
      | .inr b => pure b
    else Comp.fault .outOfBounds
  else pure b

end Book

/-! ### Contacts -/

namespace LinkMan

variable {m m' : LinkMan} {f g : Field} {s update : List Char}

/-- Every array holds a string. -/
def IsStrings (m : LinkMan) : Prop := ∀ f, nul ∈ m.get f

/-- The name or the telephone is the string. -/
def Called (m : LinkMan) (update : List Char) : Prop :=
  str (m.get .name) = some update ∨ str (m.get .tel) = some update

instance : DecidablePred fun m : LinkMan => m.Called update :=
  fun m => inferInstanceAs (Decidable (str (m.get .name) = some update ∨ _))

lemma length_get (m : LinkMan) (f : Field) : (m.get f).length = f.size := by
  cases f
  · exact m.name.length_eq
  · exact m.tel.length_eq
  · exact m.email.length_eq
  · exact m.company.length_eq
  · exact m.address.length_eq
  · exact m.post.length_eq
  · exact m.spell.length_eq

lemma isCalled_eq (h : m.IsStrings) (update : List Char) :
    m.isCalled update = some (decide (m.Called update)) := by
  obtain ⟨name, hname⟩ : ∃ name, str (m.get .name) = some name := ⟨_, if_pos (h .name)⟩
  obtain ⟨tel, htel⟩ : ∃ tel, str (m.get .tel) = some tel := ⟨_, if_pos (h .tel)⟩
  have hname' : str m.name.chars = some name := hname
  have htel' : str m.tel.chars = some tel := htel
  by_cases heq : name = update
  · simp [isCalled, Called, hname, hname', heq]
  · simp [isCalled, Called, hname, hname', htel, htel', heq]

lemma printInfo_eq (h : m.IsStrings) : ∃ fields, m.printInfo = some fields := by
  have hstr : ∀ f, str (m.get f) = some ((m.get f).takeWhile (· ≠ nul)) := fun f => if_pos (h f)
  have hname := hstr .name
  have htel := hstr .tel
  have hemail := hstr .email
  have hcompany := hstr .company
  have haddress := hstr .address
  have hpost := hstr .post
  simp only [get] at hname htel hemail hcompany haddress hpost
  simp [printInfo, hname, htel, hemail, hcompany, haddress, hpost]

lemma memmove_eq_some (h : m.memmove f s = some m') :
    m'.get f = write s (m.get f) ∧ ∀ g ≠ f, m'.get g = m.get g := by
  cases f <;>
    (obtain ⟨a, ha, rfl⟩ := Option.map_eq_some_iff.1 h
     refine ⟨CharArray.chars_of_memmove ha, fun g hg => ?_⟩
     cases g <;> first | rfl | exact absurd rfl hg)

lemma exists_memmove (m : LinkMan) (h : s.length ≤ f.size) : ∃ m', m.memmove f s = some m' := by
  cases f <;>
    (obtain ⟨a, ha⟩ := CharArray.exists_memmove _ h
     exact ⟨_, Option.map_eq_some_iff.2 ⟨a, ha, rfl⟩⟩)

end LinkMan

/-- A contact with a name of three letters. -/
def LinkMan.named (c d e : Char) : LinkMan where
  name := ⟨[c, d, e] ++ List.replicate 17 nul, rfl⟩
  tel := ⟨List.replicate maxTel nul, rfl⟩
  email := ⟨List.replicate maxEmail nul, rfl⟩
  company := ⟨List.replicate co nul, rfl⟩
  address := ⟨List.replicate addr nul, rfl⟩
  post := ⟨List.replicate postNum nul, rfl⟩
  spell := ⟨List.replicate maxSpell nul, rfl⟩

lemma LinkMan.isStrings_named (c d e : Char) : (named c d e).IsStrings := by
  intro f
  cases f <;> simp [named, get, maxTel, maxEmail, co, addr, postNum, maxSpell]

/-- A book of the contacts 1 and 2, on the list of the head 0. -/
def Book.bobAnn : Book (Fin 3) where
  links := ⟨(· + 1), (· - 1)⟩
  man x := if x = 1 then .named 'b' 'o' 'b' else .named 'a' 'n' 'n'
  freed := []
  out := []

lemma Book.ring_bobAnn : bobAnn.links.Ring 0 [1, 2] := by
  refine ⟨by decide, ?_⟩
  show List.IsChain (fun x y : Fin 3 => x + 1 = y ∧ y - 1 = x) [0, 1, 2, 0]
  decide

lemma Book.isStrings_bobAnn (x : Fin 3) : (bobAnn.man x).IsStrings := by
  show LinkMan.IsStrings (if x = 1 then .named 'b' 'o' 'b' else .named 'a' 'n' 'n')
  split
  · exact LinkMan.isStrings_named _ _ _
  · exact LinkMan.isStrings_named _ _ _

/-! ### Searching -/

namespace Book

variable {ι : Type} [DecidableEq ι] {b b' : Book ι} {head r : ι} {xs pre post : List ι}
  {record : ι → Book ι → Option (Book ι ⊕ Book ι)}

lemma search_none (hr : b.links.Ring head xs) (h : ∀ x ∈ xs, record x b = some (.inl b)) :
    (search record head b).Ends (.ok (.inl b)) := by
  rw [search, Links.listForEach, hr.next_head, ← List.append_nil xs]
  refine Links.forEachFrom_skip [] (by simpa using hr) (fun x hx => ?_) Links.forEachFrom_head
  rw [h x hx]
  exact Comp.ends_ofExcept.2 rfl

lemma search_found (hr : b.links.Ring head (pre ++ r :: post))
    (hpre : ∀ x ∈ pre, record x b = some (.inl b)) (hb' : record r b = some (.inr b')) :
    (search record head b).Ends (.ok (.inr b')) := by
  have hne : r ≠ head := fun he => hr.head_notMem (by simp [he])
  rw [search, Links.listForEach, hr.next_head]
  refine Links.forEachFrom_skip [] hr (fun x hx => ?_) (Links.forEachFrom_inr hne ?_)
  · rw [hpre x hx]
    exact Comp.ends_ofExcept.2 rfl
  · rw [List.headD_cons, hb']
    exact Comp.ends_ofExcept.2 rfl

lemma search_fault (hr : b.links.Ring head (pre ++ r :: post))
    (hpre : ∀ x ∈ pre, record x b = some (.inl b)) (hb' : record r b = none) :
    (search record head b).Ends (.error .outOfBounds) := by
  have hne : r ≠ head := fun he => hr.head_notMem (by simp [he])
  rw [search, Links.listForEach, hr.next_head]
  refine Links.forEachFrom_skip [] hr (fun x hx => ?_) (Links.forEachFrom_fault hne ?_)
  · rw [hpre x hx]
    exact Comp.ends_ofExcept.2 rfl
  · rw [List.headD_cons, hb']
    exact Comp.ends_ofExcept.2 rfl

lemma nodeDel_links (b : Book ι) (node : ι) :
    (b.nodeDel node).links = b.links.listDelInit node := by
  have hdel : (b.links.setPrev (b.links.next node) (b.links.prev node)).setNext
      ((b.links.setPrev (b.links.next node) (b.links.prev node)).prev node) (b.links.next node) =
        b.links.listDel node := by
    rw [Links.prev_setPrev_next]
    exact b.links.setNext_setPrev_eq_unlink node
  exact congrArg (fun links : Links ι => links.listHeadInit node) hdel

end Book

end AddressList

end DemoClass
