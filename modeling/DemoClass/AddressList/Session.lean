import DemoClass.AddressList.Program

/-!
# What the address book comes to

The memory stands for a list of contacts (`Contacts.Stands`): the contacts are the cells behind the
head, and besides them exactly that is allocated which was before.  Every choice of the menu keeps
this, and comes to what it comes to on the list (`Contacts.command_gives`); so does the whole
program, which frees the contacts at its end (`Contacts.program_gives`).
-/

namespace DemoClass

namespace AddressList

open CString

namespace Contacts

variable {ι α β : Type} [DecidableEq ι] {base : ι → Bool} {head x new : ι} {xs : List ι}
  {h : Heap ι (Contacts ι)} {b : Shelf ι} {r : Round}

/-- The memory stands for the contacts: they are in use, and besides them, and what is allocated in
`base`, nothing is allocated. -/
structure Stands (base : ι → Bool) (head : ι) (h : Heap ι (Contacts ι)) (b : Shelf ι) : Prop where
  holds : h.Holds head b.xs
  data : h.mem.data = b.man
  live : ∀ y, h.live y = true ↔ base y = true ∨ y ∈ b.xs
  off : ∀ y ∈ b.xs, base y = false

/-! ### Reading -/

omit [DecidableEq ι] in
lemma readMan_ends (hx : h.live x = true) (f : LinkMan → Option α) :
    (readMan h x f).Ends (bounds (f (h.mem.data x))) :=
  Heap.load_bind hx (Comp.ends_ofExcept.2 rfl)

omit [DecidableEq ι] in
lemma printInfo_ends (hx : h.live x = true) : (printInfo h x).Ends
    ((bounds (h.mem.data x).printInfo).map fun fields => .printed (.info fields)) := by
  have hread := readMan_ends hx LinkMan.printInfo
  cases hinfo : (h.mem.data x).printInfo with
  | none =>
      rw [hinfo] at hread
      exact hread.bind_fault
  | some fields =>
      rw [hinfo] at hread
      exact hread.bind (Comp.ends_pure.2 rfl)

/-! ### Looking for contacts -/

/-- What a contact adds to what was found before. -/
def addFound (s : Bool × List Shown) (infos : List Shown) : Bool × List Shown :=
  (s.1 || !infos.isEmpty, s.2 ++ infos)

lemma foldl_addFound (infos : List (List Shown)) (s : Bool × List Shown) :
    infos.foldl addFound s = addFound s infos.flatten := by
  induction infos generalizing s with
  | nil => simp [addFound]
  | cons is infos ih =>
      rw [List.foldl_cons, ih]
      cases is <;> simp [addFound]

omit [DecidableEq ι] in
lemma findRecord_ends (hx : h.live x = true) (find_info : List Char) (s : Bool × List Shown) :
    (findRecord h find_info x s).Ends
      ((bounds ((h.mem.data x).found find_info)).map fun infos => .inl (addFound s infos)) := by
  have hread := readMan_ends hx fun m => m.isFound find_info
  rw [LinkMan.found]
  cases hfound : (h.mem.data x).isFound find_info with
  | none =>
      rw [hfound] at hread
      exact hread.bind_fault
  | some found =>
      rw [hfound] at hread
      cases found with
      | false =>
          refine hread.bind (Comp.ends_pure.2 ?_)
          simp [bounds, addFound, Except.map]
      | true =>
          refine hread.bind ?_
          have hprint := printInfo_ends hx
          cases hinfo : (h.mem.data x).printInfo with
          | none =>
              rw [hinfo] at hprint
              exact hprint.bind_fault
          | some fields =>
              rw [hinfo] at hprint
              refine hprint.bind (Comp.ends_pure.2 ?_)
              simp [bounds, addFound, Except.map]

lemma findLinkMan_ends (hs : Stands base head h b) (find_info : Word) :
    (findLinkMan head find_info h).Ends (b.find find_info) := by
  rw [findLinkMan, Shelf.find]
  split
  swap
  · exact Comp.ends_fault.2 rfl
  have hwalk := Heap.forEach_ends hs.holds
    (fun x hx s => findRecord_ends (hs.holds.live x (List.mem_cons_of_mem head hx))
      find_info.chars s) (false, [])
  rw [walk_mapM (fun _ _ => rfl), hs.data] at hwalk
  cases hinfos : b.xs.mapM fun x => bounds ((b.man x).found find_info.chars) with
  | error e =>
      rw [hinfos] at hwalk
      exact hwalk.bind_fault
  | ok infos =>
      rw [hinfos] at hwalk
      refine hwalk.bind (Comp.ends_pure.2 ?_)
      show Except.ok _ = Except.ok _
      rw [foldl_addFound]
      by_cases hnil : infos.flatten = [] <;> simp [addFound, hnil]

/-- A loop over the contacts that adds a text, or a line, for each of them. -/
lemma forEach_mapM_ends {σ τ : Type} (hs : Stands base head h b) (f : LinkMan → Option τ)
    (act : σ → τ → σ) (s : σ) :
    (h.forEach head (fun cur s => do
      let t ← readMan h cur f
      return (.inl (act s t) : σ ⊕ Empty)) s).Ends
        ((b.xs.mapM fun x => bounds (f (b.man x))).map fun ts => .inl (ts.foldl act s)) := by
  rw [← hs.data, ← walk_mapM (fun _ _ => rfl)]
  refine Heap.forEach_ends hs.holds (fun x hx s => ?_) s
  have hread := readMan_ends (hs.holds.live x (List.mem_cons_of_mem head hx)) f
  cases hf : f (h.mem.data x) with
  | none =>
      rw [hf] at hread
      exact hread.bind_fault
  | some t =>
      rw [hf] at hread
      exact hread.bind (Comp.ends_pure.2 rfl)

lemma displayLinkMan_ends (hs : Stands base head h b) :
    (displayLinkMan head h).Ends b.display := by
  have hwalk := forEach_mapM_ends hs LinkMan.printLinkman (fun out line => out ++ [line]) []
  rw [Shelf.display]
  cases hlines : b.xs.mapM fun x => bounds (b.man x).printLinkman with
  | error e =>
      rw [hlines] at hwalk
      exact hwalk.bind_fault
  | ok lines =>
      rw [hlines] at hwalk
      refine hwalk.bind (Comp.ends_pure.2 ?_)
      rw [List.foldl_append_eq_append, ← List.flatMap_def, List.flatMap_singleton', List.nil_append]

lemma save_ends (hs : Stands base head h b) (opens : Bool) (file : List Char) :
    (save head opens h file).Ends (b.save opens file) := by
  have hempty : h.mem.links.next head = head ↔ b.xs = [] := by
    rw [hs.holds.ring.next_head]
    cases hxs : b.xs with
    | nil => simp
    | cons x xs =>
        have hne : x ≠ head := by
          rintro rfl
          exact hs.holds.ring.head_notMem (by simp [hxs])
        simp [hne]
  refine Heap.readNext_bind hs.holds.live_head ?_
  simp only [hempty, Shelf.save]
  split
  swap
  · exact Comp.ends_pure.2 rfl
  have hwalk := forEach_mapM_ends hs LinkMan.savedText (fun file text => file ++ text) []
  cases htexts : b.xs.mapM fun x => bounds (b.man x).savedText with
  | error e =>
      rw [htexts] at hwalk
      exact hwalk.bind_fault
  | ok texts =>
      rw [htexts] at hwalk
      refine hwalk.bind (Comp.ends_pure.2 ?_)
      rw [List.foldl_append_eq_append]
      simp

/-! ### Changing and deleting contacts -/

omit [DecidableEq ι] in
lemma Stands.live_mem (hs : Stands base head h b) (hx : x ∈ b.xs) : h.live x = true :=
  hs.holds.live x (List.mem_cons_of_mem head hx)

/-- Writing to a contact. -/
lemma Stands.setData (hs : Stands base head h b) (x : ι) (m : LinkMan) :
    Stands base head (h.setData x m) { b with man := Function.update b.man x m } where
  holds := ⟨hs.holds.ring, hs.holds.live⟩
  data := by rw [Heap.data_setData, hs.data]
  live := hs.live
  off := hs.off

/-- What changing a contact gives. -/
def changed (h : Heap ι (Contacts ι)) (x : ι) (r : Shelf ι × List Shown) :
    Heap ι (Contacts ι) × List Shown :=
  (h.setData x (r.1.man x), r.2)

lemma changed_update (h : Heap ι (Contacts ι)) (b : Shelf ι) (m : LinkMan) (out : List Shown) :
    changed h x ({ b with man := Function.update b.man x m }, out) = (h.setData x m, out) := by
  simp [changed]

lemma updateRecord_ends (hs : Stands base head h b) (hx : x ∈ b.xs) (inp : Input) (s : Unit) :
    (updateRecord h inp x s).Ends (bounds ((b.man x).isCalled inp.update.chars) >>= fun c =>
      if c then ((b.changeOf inp x).map (changed h x)).map Sum.inr else .ok (.inl s)) := by
  have hlive := hs.live_mem hx
  have hread := readMan_ends hlive fun m => m.isCalled inp.update.chars
  rw [hs.data] at hread
  refine hread.bind_except fun c _ => ?_
  cases c with
  | false => exact Comp.ends_pure.2 rfl
  | true =>
      rw [if_pos rfl, if_pos rfl, Shelf.changeOf]
      have hbefore := printInfo_ends hlive
      rw [hs.data] at hbefore
      cases hinfo : (b.man x).printInfo with
      | none =>
          rw [hinfo] at hbefore
          exact hbefore.bind_fault
      | some before =>
          rw [hinfo] at hbefore
          refine hbefore.bind ?_
          rw [bounds_some_bind]
          cases hm : (b.man x).change inp with
          | none => exact (Heap.writeData_outOfBounds hlive (hs.data ▸ hm)).bind_fault
          | some m =>
              refine (Heap.writeData_ends hlive (hs.data ▸ hm)).bind ?_
              rw [bounds_some_bind]
              have hafter := printInfo_ends (h := h.setData x m) hlive
              rw [Heap.data_setData, Function.update_self] at hafter
              cases hinfo' : m.printInfo with
              | none =>
                  rw [hinfo'] at hafter
                  exact hafter.bind_fault
              | some after =>
                  rw [hinfo'] at hafter
                  refine hafter.bind (Comp.ends_pure.2 ?_)
                  rw [bounds_some_bind]
                  exact congrArg (fun r => Except.ok (Sum.inr r)) (changed_update h b m _)

/-- The memory stands for the contacts, and the same was shown. -/
def Shows (base : ι → Bool) (head : ι) (r : Heap ι (Contacts ι) × List Shown)
    (r' : Shelf ι × List Shown) : Prop :=
  Stands base head r.1 r'.1 ∧ r.2 = r'.2

lemma shows_changed {r : Shelf ι × List Shown} {inp : Input} (hs : Stands base head h b)
    (hr : b.changeOf inp x = .ok r) : Shows base head (changed h x r) r := by
  rw [Shelf.changeOf] at hr
  cases hinfo : (b.man x).printInfo with
  | none => simp [hinfo] at hr
  | some before =>
      cases hm : (b.man x).change inp with
      | none => simp [hinfo, hm] at hr
      | some m =>
          cases hinfo' : m.printInfo with
          | none =>
              simp only [hinfo, hm, hinfo', bounds_some_bind, bounds_none_bind] at hr
              cases hr
          | some after =>
              simp only [hinfo, hm, hinfo', bounds_some_bind] at hr
              obtain rfl := Except.ok.inj hr
              rw [changed_update]
              exact ⟨hs.setData x m, rfl⟩

lemma change_gives (hs : Stands base head h b) (inp : Input) :
    (h.forEach head (updateRecord h inp) () >>= fun
      | .inl _ => pure (h, [.printed .notFound])
      | .inr r => pure r).Gives (Shows base head) (b.change inp) := by
  have hwalk := Heap.forEach_ends hs.holds (fun x hx s => updateRecord_ends hs hx inp s) ()
  rw [walk_findM? (fun _ _ => rfl)] at hwalk
  rw [Shelf.change]
  cases hfound : b.xs.findM? fun x => bounds ((b.man x).isCalled inp.update.chars) with
  | error e =>
      rw [hfound] at hwalk
      exact hwalk.bind_fault
  | ok found =>
      rw [hfound] at hwalk
      cases found with
      | none => exact ⟨_, hwalk.bind (Comp.ends_pure.2 rfl), hs, rfl⟩
      | some x =>
          show Comp.Gives _ _ (b.changeOf inp x)
          change Comp.Ends _ (((b.changeOf inp x).map (changed h x)).map Sum.inr) at hwalk
          cases hr : b.changeOf inp x with
          | error e =>
              rw [hr] at hwalk
              exact hwalk.bind_fault
          | ok r =>
              rw [hr] at hwalk
              exact ⟨_, hwalk.bind (Comp.ends_pure.2 rfl), shows_changed hs hr⟩

lemma nodeInit_ends (hx : h.live x = true) :
    (nodeInit h x).Ends (.ok (h.setLinks (h.mem.links.listHeadInit x))) :=
  Heap.writeNext_bind hx (Heap.store_ends (h := h.setLinks (h.mem.links.setNext x x)) hx _)

/-- The memory behind `node_del`. -/
def deleted (h : Heap ι (Contacts ι)) (x : ι) : Heap ι (Contacts ι) :=
  ⟨⟨(h.mem.links.unlink x).listHeadInit x, h.mem.data⟩, Function.update h.live x false⟩

lemma nodeDel_ends {pre post : List ι} (hl : h.Holds head (pre ++ x :: post)) :
    (nodeDel h x).Ends (.ok (deleted h x)) := by
  have hmem : x ∈ head :: (pre ++ x :: post) := by simp
  have hlive := hl.live x hmem
  refine Heap.readNext_bind hlive (Heap.readPrev_bind hlive ?_)
  refine Heap.writePrev_bind (hl.live_next hmem) (Heap.readPrev_bind hlive ?_)
  refine Heap.readNext_bind hlive (Heap.writeNext_bind ?_ ?_)
  · simpa [Links.prev_setPrev_next] using hl.live_prev hmem
  · simp only [Heap.links_setLinks, Heap.setLinks_setLinks, Links.setPrev_next,
      Links.prev_setPrev_next, Links.setNext_setPrev_eq_unlink]
    have hinit := nodeInit_ends (h := h.setLinks (h.mem.links.unlink x)) hlive
    exact hinit.bind (Heap.free_ends hlive)

/-- The contacts without the first. -/
lemma Stands.deleted {man : ι → LinkMan} (hs : Stands base head h ⟨x :: xs, man⟩) :
    Stands base head (deleted h x) ⟨xs, man⟩ := by
  have hl : h.Holds head ([] ++ x :: xs) := hs.holds
  have hnot : x ∉ head :: xs := hl.ring.notMem_rest
  have hlive : ∀ y ≠ x, Function.update h.live x false y = h.live y := fun y hy =>
    Function.update_of_ne hy _ _
  refine ⟨⟨hl.ring.unlink.isolate hnot, fun y hy => ?_⟩, hs.data, fun y => ?_, fun y hy => ?_⟩
  · have hne : y ≠ x := fun he => hnot (he ▸ hy)
    refine (hlive y hne).trans (hl.live y ?_)
    exact List.cons_subset_cons head (List.subset_cons_self x xs) hy
  · show Function.update h.live x false y = true ↔ _
    by_cases he : y = x
    · have hbase : base x = false := hs.off x List.mem_cons_self
      have hxs : x ∉ xs := fun hm => hnot (List.mem_cons_of_mem head hm)
      simp [he, hbase, hxs]
    · rw [hlive y he, hs.live]
      simp [he]
  · exact hs.off y (List.mem_cons_of_mem x hy)

/-- What is left of the list of a contact that is called so. -/
def afterDelete (h : Heap ι (Contacts ι)) (inp : Input) (x : ι) : Heap ι (Contacts ι) :=
  if inp.confirms then deleted h x else h

lemma deleteRecord_ends (hs : Stands base head h b) (hx : x ∈ b.xs) (inp : Input) (s : Unit) :
    (deleteRecord h inp x s).Ends (bounds ((b.man x).isCalled inp.update.chars) >>= fun c =>
      if c then (bounds (b.man x).printInfo).map fun info =>
        .inr (afterDelete h inp x, [.printed (.info info)])
      else .ok (.inr (h, [.printed .notFound]))) := by
  have hlive := hs.live_mem hx
  have hread := readMan_ends hlive fun m => m.isCalled inp.update.chars
  have hinfo := printInfo_ends hlive
  rw [hs.data] at hread hinfo
  refine hread.bind_except fun c _ => ?_
  cases c with
  | false => exact Comp.ends_pure.2 rfl
  | true =>
      rw [if_pos rfl, if_pos rfl]
      cases hfields : (b.man x).printInfo with
      | none =>
          rw [hfields] at hinfo
          exact hinfo.bind_fault
      | some fields =>
          rw [hfields] at hinfo
          refine hinfo.bind ?_
          obtain ⟨pre, post, hxs⟩ := List.append_of_mem hx
          have hdel := nodeDel_ends (hxs ▸ hs.holds)
          by_cases hc : inp.confirms
          · rw [if_pos hc, afterDelete, if_pos hc]
            exact hdel.bind (Comp.ends_pure.2 rfl)
          · rw [if_neg hc, afterDelete, if_neg hc]
            exact Comp.Ends.bind (Comp.ends_pure.2 rfl) (Comp.ends_pure.2 rfl)

omit [DecidableEq ι] in
lemma delete_cons (man : ι → LinkMan) (inp : Input) :
    (⟨x :: xs, man⟩ : Shelf ι).delete inp = bounds ((man x).isCalled inp.update.chars) >>= fun c =>
      if c then bounds (man x).printInfo >>= fun info => .ok
        (if inp.confirms then ⟨xs, man⟩ else ⟨x :: xs, man⟩, [.printed (.info info)])
      else .ok (⟨x :: xs, man⟩, [.printed .notFound]) := rfl

lemma delete_gives (hs : Stands base head h b) (inp : Input) :
    (h.forEach head (deleteRecord h inp) () >>= fun
      | .inl _ => pure (h, [])
      | .inr r => pure r).Gives (Shows base head) (b.delete inp) := by
  have hwalk := Heap.forEach_ends hs.holds (fun x hx s => deleteRecord_ends hs hx inp s) ()
  obtain ⟨xs, man⟩ := b
  -- only the first contact is looked at
  cases xs with
  | nil => exact ⟨_, hwalk.bind (Comp.ends_pure.2 rfl), hs, rfl⟩
  | cons x xs =>
      rw [walk] at hwalk
      rw [delete_cons]
      cases hcalled : (man x).isCalled inp.update.chars with
      | none =>
          simp only [hcalled, bounds_none_bind] at hwalk
          exact hwalk.bind_fault
      | some c =>
          simp only [hcalled, bounds_some_bind] at hwalk
          rw [bounds_some_bind]
          cases c with
          | false => exact ⟨_, hwalk.bind (Comp.ends_pure.2 rfl), hs, rfl⟩
          | true =>
              simp only [if_true] at hwalk ⊢
              cases hinfo : (man x).printInfo with
              | none =>
                  rw [hinfo] at hwalk
                  exact hwalk.bind_fault
              | some info =>
                  rw [hinfo] at hwalk
                  refine ⟨_, hwalk.bind (Comp.ends_pure.2 rfl), ?_, rfl⟩
                  by_cases hc : inp.confirms
                  · simpa only [afterDelete, if_pos hc] using hs.deleted
                  · simpa only [afterDelete, if_neg hc] using hs

lemma updateLinkMan_gives (hs : Stands base head h b) (inp : Input) :
    (updateLinkMan head inp h).Gives (Shows base head) (b.update inp) := by
  rw [updateLinkMan, Shelf.update]
  split
  · split
    · exact change_gives hs inp
    · exact Comp.ends_fault.2 rfl
  · split
    · split
      · exact delete_gives hs inp
      · exact Comp.ends_fault.2 rfl
    · exact Comp.gives_pure ⟨hs, rfl⟩

/-- The end of the program frees the contacts. -/
lemma listDestory_ends {man : ι → LinkMan} (hs : Stands base head h ⟨xs, man⟩) : ∃ h',
    (listDestory head h).Ends (.ok h') ∧ Stands base head h' ⟨[], man⟩ := by
  induction xs generalizing h with
  | nil =>
      refine ⟨h, Comp.Ends.loop_inr ?_, hs⟩
      refine Heap.readNext_bind hs.holds.live_head ?_
      have hnext : h.mem.links.next head = head := hs.holds.ring.next_head
      rw [if_pos hnext]
      exact Comp.ends_pure.2 rfl
  | cons x xs ih =>
      obtain ⟨h', hends, hs'⟩ := ih hs.deleted
      refine ⟨h', Comp.Ends.loop_inl ?_ hends, hs'⟩
      have hl : h.Holds head ([] ++ x :: xs) := hs.holds
      have hnext : h.mem.links.next head = x := hs.holds.ring.next_head
      have hne : x ≠ head := by
        rintro rfl
        exact hs.holds.ring.head_notMem List.mem_cons_self
      refine Heap.readNext_bind hs.holds.live_head ?_
      rw [hnext, if_neg hne]
      refine Heap.readNext_bind hs.holds.live_head ?_
      rw [hnext]
      exact (nodeDel_ends hl).bind (Comp.ends_pure.2 rfl)

/-! ### Adding a contact -/

/-- The fields of a round, one after the other. -/
lemma foldlM_readField_eq (fs : List Field) (hnew : h.live new = true) :
    (fs.foldlM (readField new r) h).Ends
      ((bounds (fs.foldlM (fun m f => m.scan f (r.words f)) (h.mem.data new))).map
        (h.setData new)) := by
  induction fs generalizing h with
  | nil =>
      refine Comp.ends_pure.2 ?_
      show Except.ok (h.setData new (h.mem.data new)) = Except.ok h
      rw [Heap.setData, Function.update_eq_self]
      rfl
  | cons f fs ih =>
      rw [List.foldlM_cons, List.foldlM_cons]
      cases hm : (h.mem.data new).scan f (r.words f) with
      | none => exact (Heap.writeData_outOfBounds hnew hm).bind_fault
      | some m =>
          refine (Heap.writeData_ends hnew hm).bind ?_
          have hrest := ih (h := h.setData new m) hnew
          have hset : (h.setData new m).setData new = h.setData new := by
            funext m'
            simp [Heap.setData, Heap.setMem]
          rw [Heap.data_setData, Function.update_self, hset] at hrest
          exact hrest

/-- The record that `malloc` returned, with the fields of a round. -/
def filled (h : Heap ι (Contacts ι)) (new : ι) (m : LinkMan) : Heap ι (Contacts ι) :=
  (h.malloc new).setData new m

lemma filled_live_of_ne {m : LinkMan} {y : ι} (hy : y ≠ new) :
    (filled h new m).live y = h.live y := Function.update_of_ne hy _ _

lemma filled_live (h : Heap ι (Contacts ι)) (new : ι) (m : LinkMan) :
    (filled h new m).live new = true := h.live_malloc_self new

omit [DecidableEq ι] in
lemma Stands.not_live (hs : Stands base head h b) (hbase : base new = false) (hnot : new ∉ b.xs) :
    h.live new = false := by
  rw [← Bool.not_eq_true, hs.live]
  simp [hbase, hnot]

/-- The record is linked behind the contacts. -/
lemma Stands.linked {m : LinkMan} (hs : Stands base head h b) (hbase : base new = false)
    (hnot : new ∉ b.xs) :
    Stands base head ((filled h new m).setLinks (h.mem.links.listAddTail head new))
      ⟨b.xs ++ [new], Function.update b.man new m⟩ := by
  have hlive := hs.not_live hbase hnot
  have hl := hs.holds.malloc new
  refine ⟨⟨hs.holds.ring.listAddTail (hs.holds.notMem hlive), fun y hy => ?_⟩, ?_, fun y => ?_,
    fun y hy => ?_⟩
  · rcases List.mem_append.1 (show y ∈ (head :: b.xs) ++ [new] from hy) with hold | hn
    · exact hl.live y hold
    · obtain rfl := List.mem_singleton.1 hn
      exact filled_live h y m
  · show Function.update h.mem.data new m = _
    rw [hs.data]
  · show (filled h new m).live y = true ↔ _
    by_cases he : y = new
    · simp [he, filled_live]
    · rw [filled_live_of_ne he, hs.live]
      simp [he]
  · rcases List.mem_append.1 hy with hold | hn
    · exact hs.off y hold
    · exact List.mem_singleton.1 hn ▸ hbase

/-- The record is freed. -/
lemma Stands.freed {m : LinkMan} (hs : Stands base head h b) (hbase : base new = false)
    (hnot : new ∉ b.xs) :
    Stands base head ⟨(filled h new m).mem, Function.update (filled h new m).live new false⟩
      { b with man := Function.update b.man new m } := by
  have hlive := hs.not_live hbase hnot
  have hsame : Function.update (filled h new m).live new false = h.live := by
    funext y
    by_cases he : y = new
    · simp [he, hlive]
    · rw [Function.update_of_ne he, filled_live_of_ne he]
  rw [hsame]
  refine ⟨⟨hs.holds.ring, hs.holds.live⟩, ?_, hs.live, hs.off⟩
  show Function.update h.mem.data new m = _
  rw [hs.data]

lemma addRound_fault (hm : (h.mem.data new).scanAll r = none) :
    (addRound head new r (h.malloc new)).Ends (.error .outOfBounds) := by
  have hfields := foldlM_readField_eq (r := r) asked (h.live_malloc_self new)
  have hnone : asked.foldlM (fun m f => m.scan f (r.words f)) (h.mem.data new) = none := hm
  rw [Heap.mem_malloc, hnone] at hfields
  exact Comp.Ends.bind_fault hfields

lemma addRound_fields {m : LinkMan} {k : Heap ι (Contacts ι) → Comp MemFault α}
    {e : Except MemFault α} (hm : (h.mem.data new).scanAll r = some m)
    (hk : (k (filled h new m)).Ends e) : (readFields new r (h.malloc new) >>= k).Ends e := by
  have hfields := foldlM_readField_eq (r := r) asked (h.live_malloc_self new)
  have hsome : asked.foldlM (fun m f => m.scan f (r.words f)) (h.mem.data new) = some m := hm
  rw [Heap.mem_malloc, hsome] at hfields
  exact hfields.bind hk

/-- `Y` links the record. -/
lemma addRound_linked {m : LinkMan} (hl : h.Holds head xs)
    (hm : (h.mem.data new).scanAll r = some m) (hyes : r.c = 'Y' ∨ r.c = 'y')
    (hno : ¬ r.SaysNo) : (addRound head new r (h.malloc new)).Ends
      (.ok (.inr ((filled h new m).setLinks (h.mem.links.listAddTail head new)))) := by
  have hl' : (filled h new m).Holds head xs := ⟨(hl.malloc new).ring, (hl.malloc new).live⟩
  refine addRound_fields hm ?_
  rw [if_pos hyes]
  refine (listAddTail_ends hl' (filled_live h new m)).bind (Comp.ends_pure.2 ?_)
  rw [again, if_neg hno]
  rfl

/-- Every other answer frees it. -/
lemma addRound_freed {m : LinkMan} (hm : (h.mem.data new).scanAll r = some m)
    (hyes : ¬ (r.c = 'Y' ∨ r.c = 'y')) : (addRound head new r (h.malloc new)).Ends
      (.ok (again r ⟨(filled h new m).mem, Function.update (filled h new m).live new false⟩)) := by
  have hfree := Heap.free_ends (filled_live h new m)
  refine addRound_fields hm ?_
  rw [if_neg hyes]
  split
  · next hback =>
    have hno : ¬ r.SaysNo := by
      rcases hback with hc | hc <;> simp [Round.SaysNo, hc]
    refine hfree.bind (Comp.ends_pure.2 ?_)
    rw [again, if_neg hno]
  · exact hfree.bind (Comp.ends_pure.2 rfl)

lemma addLinkMan_gives {rounds : ℕ → Round} (hs : Stands base head h b) (hbase : base new = false)
    (hnot : new ∉ b.xs) :
    (addLinkMan head new rounds h).Gives (Stands base head) (b.add new (rounds 0)) := by
  rw [Shelf.add, ← hs.data]
  cases hm : (h.mem.data new).scanAll (rounds 0) with
  | none => exact addLinkMan_of_fault (addRound_fault hm)
  | some m =>
      rw [hs.data]
      by_cases hyes : (rounds 0).c = 'Y' ∨ (rounds 0).c = 'y'
      · have hno : ¬ (rounds 0).SaysNo := by
          rcases hyes with hc | hc <;> simp [Round.SaysNo, hc]
        simp only [if_neg hno, if_pos hyes]
        exact ⟨_, addLinkMan_of_inr (addRound_linked hs.holds hm hyes hno), hs.linked hbase hnot⟩
      · have hround := @addRound_freed _ _ head _ _ _ _ hm hyes
        by_cases hno : (rounds 0).SaysNo
        · -- the second round writes to the record that was freed
          have hfreed : Function.update (filled h new m).live new false new = false := by simp
          simp only [if_pos hno]
          rw [again, if_pos hno] at hround
          exact Comp.Ends.loop_inl (hround.bind (Comp.ends_pure.2 rfl))
            (Comp.Ends.loop_fault (addRound_dangling hfreed).bind_fault)
        · simp only [if_neg hno, if_neg hyes]
          rw [again, if_neg hno] at hround
          exact ⟨_, addLinkMan_of_inr hround, hs.freed hbase hnot⟩

/-! ### The program -/

/-- The memory stands for the contacts, and the same was shown and written to the file. -/
structure Agrees (base : ι → Bool) (head : ι) (d : Desk (Heap ι (Contacts ι)))
    (d' : Desk (Shelf ι)) : Prop where
  stands : Stands base head d.book d'.book
  out : d.out = d'.out
  file : d.file = d'.file

/-- What `malloc` returns is not allocated. -/
def Fresh (base : ι → Bool) (d : Desk (Shelf ι)) (c : Command ι) : Prop :=
  ∀ new rounds, c = .add new rounds → base new = false ∧ new ∉ d.book.xs

/-- Every choice of the menu comes to what it comes to on the list. -/
lemma command_gives {d : Desk (Heap ι (Contacts ι))} {d' : Desk (Shelf ι)} {c : Command ι}
    (hd : Agrees base head d d') (hc : Fresh base d' c) :
    (command head d c).Gives (Agrees base head) (Shelf.command d' c) := by
  have hs := hd.stands
  cases c with
  | add new rounds =>
      obtain ⟨hbase, hnot⟩ := hc new rounds rfl
      refine (addLinkMan_gives hs hbase hnot).bind fun h b hb _ => ?_
      exact Comp.gives_pure ⟨hb, hd.out, hd.file⟩
  | update inp =>
      refine (displayLinkMan_ends hs).gives_bind fun shown _ => ?_
      refine (updateLinkMan_gives hs inp).bind fun r r' hr _ => ?_
      exact Comp.gives_pure ⟨hr.1, by rw [hd.out, hr.2], hd.file⟩
  | find find_info =>
      refine (findLinkMan_ends hs find_info).gives_bind fun shown _ => ?_
      exact Comp.gives_pure ⟨hs, congrArg (· ++ shown) hd.out, hd.file⟩
  | display =>
      refine (displayLinkMan_ends hs).gives_bind fun shown _ => ?_
      exact Comp.gives_pure ⟨hs, congrArg (· ++ shown) hd.out, hd.file⟩
  | save opens =>
      have hsave : (save head opens d.book d.file).Ends (d'.book.save opens d'.file) := by
        rw [hd.file]
        exact save_ends hs opens d'.file
      exact hsave.gives_bind fun e _ =>
        Comp.gives_pure ⟨hs, congrArg (· ++ [.exported e.notices e.ret]) hd.out, rfl⟩
  | other => exact Comp.gives_pure hd

/-- The program starts with no contacts. -/
lemma stands_nodeInit (hlive : h.live head = true) :
    Stands h.live head (h.setLinks (h.mem.links.listHeadInit head)) ⟨[], h.mem.data⟩ where
  holds := ⟨⟨by simp, by simp [Links.Adj, Links.listHeadInit]⟩, by simpa using hlive⟩
  data := rfl
  live := by simp
  off := by simp

/-- What is left of the memory behind the program. -/
structure Ended (live : ι → Bool) (d : Desk (Heap ι (Contacts ι))) (d' : Desk (Shelf ι)) :
    Prop where
  out : d.out = d'.out
  file : d.file = d'.file
  live : d.book.live = live

lemma program_gives {cs : List (Command ι)} {file : List Char} (hlive : h.live head = true)
    (hfresh : Comp.Admits Shelf.command (Fresh h.live) cs ⟨⟨[], h.mem.data⟩, [], file⟩) :
    (program head cs ⟨h, [], file⟩).Gives (Ended h.live)
      (cs.foldlM Shelf.command ⟨⟨[], h.mem.data⟩, [], file⟩) := by
  have hstart : Agrees h.live head ⟨h.setLinks (h.mem.links.listHeadInit head), [], file⟩
      ⟨⟨[], h.mem.data⟩, [], file⟩ := ⟨stands_nodeInit hlive, rfl, rfl⟩
  have hrun := Comp.Gives.foldlM (f := command head) (fun d d' c => command_gives) hstart hfresh
  cases hout : cs.foldlM Shelf.command ⟨⟨[], h.mem.data⟩, [], file⟩ with
  | error e =>
      rw [hout] at hrun
      exact (nodeInit_ends hlive).bind hrun.bind_fault
  | ok d' =>
      rw [hout] at hrun
      obtain ⟨d, hends, hd⟩ := hrun
      obtain ⟨h', hdestory, hs'⟩ := listDestory_ends hd.stands
      refine ⟨_, (nodeInit_ends hlive).bind (hends.bind (hdestory.bind (Comp.ends_pure.2 rfl))),
        hd.out, hd.file, ?_⟩
      funext y
      rw [Bool.eq_iff_iff, hs'.live]
      simp

/-! ### A record that was freed -/

end Contacts

lemma bounds_ne_dangling {α : Type} (o : Option α) : bounds o ≠ .error .dangling := by
  cases o <;> exact fun h => nomatch h

/-- The words of a round are stored when they fit. -/
lemma LinkMan.scanAll_eq_none_iff (m : LinkMan) (r : Round) : m.scanAll r = none ↔ ¬ r.Fits := by
  rw [Contacts.fits_iff, LinkMan.scanAll]
  generalize Contacts.asked = fs
  induction fs generalizing m with
  | nil => simp
  | cons f fs ih =>
      rw [List.foldlM_cons, List.forall_mem_cons]
      by_cases hf : (r.words f).chars.length < f.size
      · obtain ⟨m', hm'⟩ := m.exists_scan hf
        rw [hm']
        show List.foldlM _ m' fs = none ↔ _
        rw [ih m']
        simp [hf]
      · rw [m.scan_eq_none hf]
        simp [hf]

namespace Shelf

variable {ι : Type}

lemma display_ne_dangling (b : Shelf ι) : b.display ≠ .error .dangling :=
  mapM_ne_error (fun _ => bounds_ne_dangling _) b.xs

lemma find_ne_dangling (b : Shelf ι) (find_info : Word) : b.find find_info ≠ .error .dangling := by
  rw [Shelf.find]
  split
  · exact bind_ne_error (mapM_ne_error (fun _ => bounds_ne_dangling _) b.xs) fun _ h => nomatch h
  · exact fun h => nomatch h

lemma delete_ne_dangling (b : Shelf ι) (inp : Input) : b.delete inp ≠ .error .dangling := by
  obtain ⟨xs, man⟩ := b
  cases xs with
  | nil => exact fun h => nomatch h
  | cons x xs =>
      rw [Contacts.delete_cons]
      refine bind_ne_error (bounds_ne_dangling _) fun c => ?_
      cases c with
      | true => exact bind_ne_error (bounds_ne_dangling _) fun _ h => nomatch h
      | false => exact fun h => nomatch h

lemma save_ne_dangling (b : Shelf ι) (opens : Bool) (file : List Char) :
    b.save opens file ≠ .error .dangling := by
  rw [Shelf.save]
  split
  · exact bind_ne_error (mapM_ne_error (fun _ => bounds_ne_dangling _) b.xs) fun _ h => nomatch h
  · exact fun h => nomatch h

variable [DecidableEq ι]

lemma changeOf_ne_dangling (b : Shelf ι) (inp : Input) (x : ι) :
    b.changeOf inp x ≠ .error .dangling :=
  bind_ne_error (bounds_ne_dangling _) fun _ => bind_ne_error (bounds_ne_dangling _) fun _ =>
    bind_ne_error (bounds_ne_dangling _) fun _ h => nomatch h

lemma change_ne_dangling (b : Shelf ι) (inp : Input) : b.change inp ≠ .error .dangling := by
  refine bind_ne_error (findM?_ne_error (fun _ => bounds_ne_dangling _) b.xs) fun found => ?_
  cases found with
  | none => exact fun h => nomatch h
  | some x => exact b.changeOf_ne_dangling inp x

lemma update_ne_dangling (b : Shelf ι) (inp : Input) : b.update inp ≠ .error .dangling := by
  rw [Shelf.update]
  split
  · split
    · exact b.change_ne_dangling inp
    · exact fun h => nomatch h
  · split
    · split
      · exact b.delete_ne_dangling inp
      · exact fun h => nomatch h
    · exact fun h => nomatch h

lemma add_dangling_iff (b : Shelf ι) (new : ι) (r : Round) :
    b.add new r = .error .dangling ↔ r.Fits ∧ r.SaysNo := by
  rw [Shelf.add]
  cases hm : (b.man new).scanAll r with
  | none =>
      have hfit : ¬ r.Fits := (LinkMan.scanAll_eq_none_iff _ r).1 hm
      exact iff_of_false (fun h => nomatch h) fun h => hfit h.1
  | some m =>
      have hfit : r.Fits := by
        by_contra hn
        rw [(LinkMan.scanAll_eq_none_iff _ r).2 hn] at hm
        cases hm
      by_cases hno : r.SaysNo
      · simp [hno, hfit]
      · simp [hno]

/-- A new contact that is not confirmed, and whose words fit. -/
def Unconfirmed (c : Command ι) : Prop :=
  ∃ new rounds, c = .add new rounds ∧ (rounds 0).Fits ∧ (rounds 0).SaysNo

/-- Of the choices of the menu, only that uses a record that was freed. -/
lemma command_dangling_iff (d : Desk (Shelf ι)) (c : Command ι) :
    command d c = .error .dangling ↔ Unconfirmed c := by
  have hother : (∀ new rounds, c ≠ .add new rounds) → ¬ Unconfirmed c := by
    rintro hc ⟨new, rounds, rfl, -⟩
    exact hc new rounds rfl
  cases c with
  | add new rounds =>
      show (d.book.add new (rounds 0) >>= _) = _ ↔ _
      rw [bind_eq_error_iff, d.book.add_dangling_iff]
      constructor
      · rintro (h | ⟨b, -, h⟩)
        · exact ⟨new, rounds, rfl, h⟩
        · cases h
      · rintro ⟨new', rounds', heq, h⟩
        cases heq
        exact Or.inl h
  | update inp =>
      refine iff_of_false ?_ (hother fun _ _ h => nomatch h)
      exact bind_ne_error d.book.display_ne_dangling fun _ =>
        bind_ne_error (d.book.update_ne_dangling inp) fun _ h => nomatch h
  | find find_info =>
      refine iff_of_false ?_ (hother fun _ _ h => nomatch h)
      exact bind_ne_error (d.book.find_ne_dangling find_info) fun _ h => nomatch h
  | display =>
      refine iff_of_false ?_ (hother fun _ _ h => nomatch h)
      exact bind_ne_error d.book.display_ne_dangling fun _ h => nomatch h
  | save opens =>
      refine iff_of_false ?_ (hother fun _ _ h => nomatch h)
      exact bind_ne_error (d.book.save_ne_dangling opens d.file) fun _ h => nomatch h
  | other => exact iff_of_false (fun h => nomatch h) (hother fun _ _ h => nomatch h)

end Shelf

namespace Contacts

variable {ι : Type} [DecidableEq ι] {head : ι} {h : Heap ι (Contacts ι)}

/-- **The address book.**  The program ends as the choices do on the list of the contacts: with the
same fault, or with the same shown and the same file, and then exactly that is allocated which was
before.  It uses a record that was freed exactly when it reaches a new contact that is not
confirmed. -/
theorem program_correct {cs : List (Command ι)} {file : List Char} (hlive : h.live head = true)
    (hfresh : Comp.Admits Shelf.command (Fresh h.live) cs ⟨⟨[], h.mem.data⟩, [], file⟩) :
    (program head cs ⟨h, [], file⟩).Gives (Ended h.live)
        (cs.foldlM Shelf.command ⟨⟨[], h.mem.data⟩, [], file⟩) ∧
      ((program head cs ⟨h, [], file⟩).Ends (.error .dangling) ↔
        ∃ pre c post d, cs = pre ++ c :: post ∧
          pre.foldlM Shelf.command ⟨⟨[], h.mem.data⟩, [], file⟩ = .ok d ∧
          Shelf.Unconfirmed c) := by
  have hgives := program_gives hlive hfresh
  refine ⟨hgives, ?_⟩
  rw [hgives.ends_error_iff, foldlM_eq_error_iff]
  simp only [Shelf.command_dangling_iff]

/-- A contact is typed in and shown, and the program frees it. -/
theorem program_correct_yes : ∃ d, (program 0
      [.add 1 fun _ => Round.letters 'Y', .display] ⟨empty, [], []⟩).Ends (.ok d) ∧
    d.out = [.line ['x'] ['x']] ∧ d.book.live = empty.live := by
  have hfresh : Comp.Admits Shelf.command (Fresh empty.live)
      [.add 1 fun _ => Round.letters 'Y', .display] ⟨⟨[], empty.mem.data⟩, [], []⟩ := by
    refine ⟨?_, fun _ _ => ⟨fun _ _ h => (nomatch h), fun _ _ => trivial⟩⟩
    rintro new rounds heq
    cases heq
    decide
  obtain ⟨d, hd, hended⟩ := (@program_correct _ _ 0 empty _ _ rfl hfresh).1
  exact ⟨d, hd, hended.out, hended.live⟩

end Contacts

end AddressList

end DemoClass
