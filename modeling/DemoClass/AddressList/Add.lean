import DemoClass.AddressList.Book
import DemoClass.Lib.NodeHeap

/-!
# Adding a contact (`add_link_man`)

`add_link_man` allocates a record once, and asks for its fields and for a confirmation until the
answer is not `N`.  Every answer but `Y` frees the record, `N` included, so a round behind `N`
writes to a record that was freed.  `lifeCycle_iff`: if the words of the first round fit their
arrays, that is the one way in which the record is misused; after any other first answer it is
linked once, or freed once.
-/

namespace DemoClass

namespace AddressList

open CString

/-- The links and the contents of the records. -/
abbrev Contacts (ι : Type) := Nodes ι LinkMan

/-- What the user types in a round: the fields, and the answer. -/
structure Round where
  words : Field → Word
  c : Char

/-- Whether the answer is `N`. -/
def Round.SaysNo (r : Round) : Prop := r.c = 'N' ∨ r.c = 'n'

instance (r : Round) : Decidable r.SaysNo := inferInstanceAs (Decidable (_ ∨ _))

/-- `scanf("%s")` to an array of the contact. -/
def LinkMan.scan (m : LinkMan) (f : Field) (w : Word) : Option LinkMan :=
  m.memmove f (terminated w.chars)

namespace Contacts

variable {ι : Type} [DecidableEq ι]

/-- Asking for a field. -/
def readField (new : ι) (r : Round) (h : Heap ι (Contacts ι)) (f : Field) :
    Comp MemFault (Heap ι (Contacts ι)) :=
  h.writeData new fun m => m.scan f (r.words f)

/-- The order in which the fields are asked for. -/
def asked : List Field := [.name, .spell, .tel, .email, .company, .address, .post]

/-- The fields of a round. -/
def readFields (new : ι) (r : Round) (h : Heap ι (Contacts ι)) :
    Comp MemFault (Heap ι (Contacts ι)) :=
  asked.foldlM (readField new r) h

/-- `__list_add` -/
def _listAdd (h : Heap ι (Contacts ι)) (node Prev Next : ι) :
    Comp MemFault (Heap ι (Contacts ι)) := do
  let h ← h.writeNext node Next
  let h ← h.writePrev node Prev
  let h ← h.writePrev Next node
  h.writeNext Prev node

/-- `list_add_tail` -/
def listAddTail (h : Heap ι (Contacts ι)) (node head : ι) :
    Comp MemFault (Heap ι (Contacts ι)) := do
  let Prev ← h.readPrev head
  _listAdd h node Prev head

/-- The record behind a round that does not return: another round follows the answer `N`. -/
def again (r : Round) (h : Heap ι (Contacts ι)) : Heap ι (Contacts ι) ⊕ Heap ι (Contacts ι) :=
  if r.SaysNo then .inl h else .inr h

/-- A round of the loop of `add_link_man`. -/
def addRound (head new : ι) (r : Round) (h : Heap ι (Contacts ι)) :
    Comp MemFault (Heap ι (Contacts ι) ⊕ Heap ι (Contacts ι)) := do
  let h ← readFields new r h
  if r.c = 'Y' ∨ r.c = 'y' then
    let h ← listAddTail h new head
    return again r h
  else if r.c = 'B' ∨ r.c = 'b' then
    let h ← h.free new
    return .inr h
  else
    let h ← h.free new
    return again r h

/-- `add_link_man`, where `malloc` returns `new` and `rounds` is what the user types. -/
def addLinkMan (head new : ι) (rounds : ℕ → Round) (h : Heap ι (Contacts ι)) :
    Comp MemFault (Heap ι (Contacts ι)) :=
  Comp.loop (fun s : ℕ × Heap ι (Contacts ι) => do
    match ← addRound head new (rounds s.1) s.2 with
    | .inl h => pure (.inl (s.1 + 1, h))
    | .inr h => pure (.inr h)) (0, h.malloc new)

end Contacts

/-- The words of a round fit their arrays. -/
def Round.Fits (r : Round) : Prop := ∀ f, (r.words f).chars.length < f.size

lemma LinkMan.exists_scan (m : LinkMan) {f : Field} {w : Word} (h : w.chars.length < f.size) :
    ∃ m', m.scan f w = some m' := by
  refine m.exists_memmove ?_
  rw [terminated, List.length_append]
  exact h

lemma LinkMan.scan_eq_none (m : LinkMan) {f : Field} {w : Word} (h : ¬ w.chars.length < f.size) :
    m.scan f w = none := by
  have hlen : ¬ (terminated w.chars).length ≤ f.size := by
    rw [terminated, List.length_append]
    exact h
  cases f <;> exact Option.map_eq_none_iff.2 (dif_neg hlen)

namespace Contacts

variable {ι : Type} [DecidableEq ι] {head new : ι} {xs : List ι} {h h' : Heap ι (Contacts ι)}
  {r : Round} {rounds : ℕ → Round}

lemma readField_ends {f : Field} (hfit : (r.words f).chars.length < f.size)
    (hnew : h.live new = true) : ∃ m, (readField new r h f).Ends (.ok (h.setData new m)) := by
  obtain ⟨m, hm⟩ := (h.mem.data new).exists_scan hfit
  exact ⟨m, Heap.writeData_ends hnew hm⟩

lemma readField_outOfBounds {f : Field} (hfit : ¬ (r.words f).chars.length < f.size)
    (hnew : h.live new = true) : (readField new r h f).Ends (.error .outOfBounds) :=
  Heap.writeData_outOfBounds hnew (LinkMan.scan_eq_none _ hfit)

/-- The fields that fit are stored one after the other, and nothing but the record changes. -/
lemma foldlM_readField_ends {fs : List Field}
    (hfit : ∀ f ∈ fs, (r.words f).chars.length < f.size) (hnew : h.live new = true) :
    ∃ h', (fs.foldlM (readField new r) h).Ends (.ok h') ∧
      h'.mem.links = h.mem.links ∧ h'.live = h.live := by
  induction fs generalizing h with
  | nil => exact ⟨h, Comp.ends_pure.2 rfl, rfl, rfl⟩
  | cons f fs ih =>
      obtain ⟨m, hf⟩ := readField_ends (hfit f List.mem_cons_self) hnew
      obtain ⟨h', hends, hlinks, hlive⟩ :=
        ih (h := h.setData new m) (fun g hg => hfit g (List.mem_cons_of_mem f hg)) hnew
      exact ⟨h', hf.bind hends, hlinks, hlive⟩

/-- The first field that does not fit is written behind the end of its array. -/
lemma foldlM_readField_outOfBounds {fs : List Field}
    (hfit : ¬ ∀ f ∈ fs, (r.words f).chars.length < f.size) (hnew : h.live new = true) :
    (fs.foldlM (readField new r) h).Ends (.error .outOfBounds) := by
  induction fs generalizing h with
  | nil => simp at hfit
  | cons f fs ih =>
      by_cases hf : (r.words f).chars.length < f.size
      · have htail : ¬ ∀ g ∈ fs, (r.words g).chars.length < g.size := fun hall =>
          hfit (List.forall_mem_cons.2 ⟨hf, hall⟩)
        obtain ⟨m, hends⟩ := readField_ends hf hnew
        exact hends.bind (ih (h := h.setData new m) htail hnew)
      · exact (readField_outOfBounds hf hnew).bind_fault

lemma mem_asked (f : Field) : f ∈ asked := by cases f <;> decide

lemma fits_iff : r.Fits ↔ ∀ f ∈ asked, (r.words f).chars.length < f.size :=
  ⟨fun h f _ => h f, fun h f => h f (mem_asked f)⟩

/-- Linking a record that is allocated, in front of the head. -/
lemma listAddTail_ends (hl : h.Holds head xs) (hnew : h.live new = true) :
    (listAddTail h new head).Ends (.ok (h.setLinks (h.mem.links.listAddTail head new))) := by
  refine Heap.readPrev_bind hl.live_head ?_
  refine Heap.writeNext_bind hnew (Heap.writePrev_bind hnew (Heap.writePrev_bind hl.live_head ?_))
  exact Heap.store_ends (by simpa using hl.live_prev List.mem_cons_self) _

/-! ### Rounds -/

/-- What the first round comes to decides what the call comes to, unless another follows. -/
lemma addLinkMan_of_inr (hround : (addRound head new (rounds 0) (h.malloc new)).Ends
    (.ok (.inr h'))) : (addLinkMan head new rounds h).Ends (.ok h') :=
  Comp.Ends.loop_inr (hround.bind (Comp.ends_pure.2 rfl))

lemma addLinkMan_of_fault {e : MemFault}
    (hround : (addRound head new (rounds 0) (h.malloc new)).Ends (.error e)) :
    (addLinkMan head new rounds h).Ends (.error e) :=
  Comp.Ends.loop_fault hround.bind_fault

lemma addRound_outOfBounds (hfit : ¬ r.Fits) (hnew : h.live new = true) :
    (addRound head new r h).Ends (.error .outOfBounds) :=
  Comp.Ends.bind_fault (foldlM_readField_outOfBounds (fun hall => hfit (fits_iff.2 hall)) hnew)

/-- A round on a record that is not allocated. -/
lemma addRound_dangling (hnew : h.live new = false) :
    (addRound head new r h).Ends (.error .dangling) :=
  Comp.Ends.bind_fault (Comp.Ends.bind_fault (Heap.storeIn_dangling hnew _))

/-- `Y` links the record. -/
lemma addRound_yes (hl : h.Holds head xs) (hfit : r.Fits) (hnew : h.live new = true)
    (hfresh : new ∉ head :: xs) (hyes : r.c = 'Y' ∨ r.c = 'y') :
    ∃ h', (addRound head new r h).Ends (.ok (.inr h')) ∧ h'.live new = true ∧
      h'.mem.links.Ring head (xs ++ [new]) := by
  obtain ⟨h₁, hfields, hlinks, hlive⟩ := foldlM_readField_ends (fits_iff.1 hfit) hnew
  have hl₁ : h₁.Holds head xs := ⟨hlinks ▸ hl.ring, hlive ▸ hl.live⟩
  have hnew₁ : h₁.live new = true := by rw [hlive, hnew]
  have hno : ¬ r.SaysNo := by
    rcases hyes with hc | hc <;> simp [Round.SaysNo, hc]
  refine ⟨h₁.setLinks (h₁.mem.links.listAddTail head new), hfields.bind ?_, hnew₁,
    hl₁.ring.listAddTail hfresh⟩
  rw [if_pos hyes]
  refine (listAddTail_ends hl₁ hnew₁).bind (Comp.ends_pure.2 ?_)
  rw [again, if_neg hno]

/-- Every other answer frees the record, and after `N` another round follows. -/
lemma addRound_frees (hl : h.Holds head xs) (hfit : r.Fits) (hnew : h.live new = true)
    (hyes : ¬ (r.c = 'Y' ∨ r.c = 'y')) : ∃ h',
      (addRound head new r h).Ends (.ok (again r h')) ∧ h'.live new = false ∧
        h'.mem.links.Ring head xs := by
  obtain ⟨h₁, hfields, hlinks, hlive⟩ := foldlM_readField_ends (fits_iff.1 hfit) hnew
  refine ⟨⟨h₁.mem, Function.update h₁.live new false⟩, hfields.bind ?_,
    Function.update_self new false h₁.live, hlinks ▸ hl.ring⟩
  have hfree := Heap.free_ends (h := h₁) (x := new) (by rw [hlive, hnew])
  rw [if_neg hyes]
  split
  · next hback =>
    have hno : ¬ r.SaysNo := by
      rcases hback with hc | hc <;> simp [Round.SaysNo, hc]
    refine hfree.bind (Comp.ends_pure.2 ?_)
    rw [again, if_neg hno]
  · exact hfree.bind (Comp.ends_pure.2 rfl)

/-- The function returns, and so uses the record as long as it is allocated, and within its arrays;
and then the record is either linked, once, or was freed, once. -/
def LifeCycle (head new : ι) (xs : List ι) (rounds : ℕ → Round) (h : Heap ι (Contacts ι)) :
    Prop :=
  ∃ h', (addLinkMan head new rounds h).Ends (.ok h') ∧
    ((h'.live new = true ∧ h'.mem.links.Ring head (xs ++ [new])) ∨
      (h'.live new = false ∧ h'.mem.links.Ring head xs))

lemma not_lifeCycle_of_fault {e : MemFault}
    (hends : (addLinkMan head new rounds h).Ends (.error e)) :
    ¬ LifeCycle head new xs rounds h := by
  rintro ⟨h', hok, -⟩
  cases hok.unique hends

/-- What the first round comes to, on the record that `malloc` returned. -/
theorem lifeCycle_iff (hl : h.Holds head xs) (hnew : h.live new = false) :
    LifeCycle head new xs rounds h ↔ (rounds 0).Fits ∧ ¬ (rounds 0).SaysNo := by
  have hfresh : new ∉ head :: xs := hl.notMem hnew
  have hl' : (h.malloc new).Holds head xs := hl.malloc new
  have hnew' : (h.malloc new).live new = true := h.live_malloc_self new
  by_cases hfit : (rounds 0).Fits
  swap
  · -- the call ends at the array that is too short
    have hends : (addLinkMan head new rounds h).Ends (.error .outOfBounds) :=
      addLinkMan_of_fault (addRound_outOfBounds hfit hnew')
    exact iff_of_false (not_lifeCycle_of_fault hends) fun hand => hfit hand.1
  by_cases hyes : (rounds 0).c = 'Y' ∨ (rounds 0).c = 'y'
  · obtain ⟨h₁, hround, hlive, hring⟩ := addRound_yes hl' hfit hnew' hfresh hyes
    refine iff_of_true ⟨h₁, addLinkMan_of_inr hround, Or.inl ⟨hlive, hring⟩⟩ ⟨hfit, fun hno => ?_⟩
    rcases hyes with hc | hc <;> rcases hno with hn | hn <;> simp [hc] at hn
  · obtain ⟨h₁, hround, hlive, hring⟩ := addRound_frees hl' hfit hnew' hyes
    by_cases hno : (rounds 0).SaysNo
    · -- the second round starts with a write to the record that was freed
      have hsecond : (addLinkMan head new rounds h).Ends (.error .dangling) := by
        rw [again, if_pos hno] at hround
        exact Comp.Ends.loop_inl (hround.bind (Comp.ends_pure.2 rfl))
          (Comp.Ends.loop_fault (addRound_dangling hlive).bind_fault)
      exact iff_of_false (not_lifeCycle_of_fault hsecond) fun hand => hand.2 hno
    · rw [again, if_neg hno] at hround
      exact iff_of_true ⟨h₁, addLinkMan_of_inr hround, Or.inr ⟨hlive, hring⟩⟩ ⟨hfit, hno⟩

end Contacts

/-- A round in which every field is a single letter. -/
def Round.letters (c : Char) : Round := ⟨fun _ => ⟨['x'], by decide⟩, c⟩

/-- A list with no contacts, on the head 0; nothing else is allocated. -/
def Contacts.empty : Heap (Fin 2) (Contacts (Fin 2)) where
  mem := ⟨⟨id, id⟩, fun _ => .named 'a' 'b' 'c'⟩
  live x := x = 0

lemma Contacts.holds_empty : empty.Holds 0 [] := by
  refine ⟨⟨by decide, ?_⟩, by decide⟩
  show List.IsChain (fun x y : Fin 2 => id x = y ∧ id y = x) [0, 0]
  decide

lemma Round.fits_letters (c : Char) : (Round.letters c).Fits := by
  intro f
  show 1 < f.size
  cases f <;> decide

theorem Contacts.lifeCycle_iff_yes :
    LifeCycle 0 1 [] (fun _ => Round.letters 'Y') Contacts.empty :=
  (lifeCycle_iff holds_empty rfl).2 ⟨Round.fits_letters 'Y', by decide⟩

/-- A contact that is not confirmed, and typed in again: its record is written after it was
freed. -/
theorem Contacts.not_lifeCycle_no :
    (addLinkMan 0 1 (fun k => Round.letters (if k = 0 then 'N' else 'Y')) Contacts.empty).Ends
        (.error .dangling) ∧
      ¬ LifeCycle 0 1 [] (fun k => Round.letters (if k = 0 then 'N' else 'Y')) Contacts.empty :=
  ⟨⟨2, rfl⟩, not_lifeCycle_of_fault ⟨2, rfl⟩⟩

end AddressList

end DemoClass
