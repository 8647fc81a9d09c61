import DemoClass.AddressList.Book

/-!
# Deleting a contact (`update_link_man`)

The report that nobody was found stands in the loop, and ends it: only the first contact of
the list is ever looked at, and of an empty list nothing is reported (`deletes_iff`).
-/

namespace DemoClass

namespace AddressList

open CString

variable {ι : Type} [DecidableEq ι] {b b' : Book ι} {head x : ι} {xs : List ι} {inp : Input}

/-- `update_link_man` returns, the first contact that is called so is taken from the list and
freed, and nobody is reported not to be found but when there is none. -/
def Deletes (head : ι) (b : Book ι) (inp : Input) (xs : List ι) : Prop :=
  ∃ b', (b.updateLinkMan head inp).Ends (.ok b') ∧ b'.man = b.man ∧
    b'.links.Ring head (xs.eraseP fun x => (b.man x).Called inp.update.chars) ∧
    b'.freed = b.freed ++ (xs.find? fun x => (b.man x).Called inp.update.chars).toList ∧
    ∃ new, b'.out = b.out ++ new ∧
      (.notFound ∈ new ↔ ∀ x ∈ xs, ¬ (b.man x).Called inp.update.chars)

/-- What is typed fits into `update`, and the list has a first contact, which is called so, or
nobody behind it is. -/
def FirstDecides (b : Book ι) (update : List Char) (xs : List ι) : Prop :=
  update.length < 20 ∧ ∃ x rest, xs = x :: rest ∧
    ((b.man x).Called update ∨ ∀ y ∈ rest, ¬ (b.man y).Called update)

/-! ### The loop -/

lemma deleteRecord_called (hm : (b.man x).IsStrings) (hc : (b.man x).Called inp.update.chars)
    (hy : inp.confirms) :
    ∃ fields, Book.deleteRecord inp x b = some (.inr ((b.print (.info fields)).nodeDel x)) := by
  obtain ⟨fields, hfields⟩ := LinkMan.printInfo_eq hm
  refine ⟨fields, ?_⟩
  rw [Book.deleteRecord, LinkMan.isCalled_eq hm]
  simp [hc, hy, Book.printInfo, hfields]

lemma deleteRecord_other (hm : (b.man x).IsStrings) (hno : ¬ (b.man x).Called inp.update.chars) :
    Book.deleteRecord inp x b = some (.inr (b.print .notFound)) := by
  rw [Book.deleteRecord, LinkMan.isCalled_eq hm]
  simp [hno]

lemma updateLinkMan_empty (hi : inp.i = 2) (hlen : inp.update.chars.length < 20)
    (hr : b.links.Ring head []) : (b.updateLinkMan head inp).Ends (.ok b) := by
  have hne : ¬ inp.i = 1 := by omega
  rw [Book.updateLinkMan, if_neg hne, if_pos hi, if_pos hlen]
  exact (Book.search_none hr (by simp)).bind (Comp.ends_pure.2 rfl)

/-- The first contact ends the loop. -/
lemma updateLinkMan_first {rest : List ι} (hi : inp.i = 2) (hlen : inp.update.chars.length < 20)
    (hr : b.links.Ring head (x :: rest)) (hb' : Book.deleteRecord inp x b = some (.inr b')) :
    (b.updateLinkMan head inp).Ends (.ok b') := by
  have hne : ¬ inp.i = 1 := by omega
  have hr' : b.links.Ring head ([] ++ x :: rest) := hr
  have hfound := Book.search_found hr' (by simp) hb'
  rw [Book.updateLinkMan, if_neg hne, if_pos hi, if_pos hlen]
  exact hfound.bind (Comp.ends_pure.2 rfl)

lemma updateLinkMan_long (hi : inp.i = 2) (hlen : ¬ inp.update.chars.length < 20) :
    (b.updateLinkMan head inp).Ends (.error .outOfBounds) := by
  have hne : ¬ inp.i = 1 := by omega
  rw [Book.updateLinkMan, if_neg hne, if_pos hi, if_neg hlen]
  exact Comp.ends_fault.2 rfl

/-! ### The result -/

/-- Of an empty list nothing is reported. -/
lemma not_deletes_nil (hi : inp.i = 2) (hlen : inp.update.chars.length < 20)
    (hr : b.links.Ring head []) : ¬ Deletes head b inp [] := by
  rintro ⟨b', hends, -, -, -, new, hnew, hfound⟩
  obtain rfl : b = b' := Except.ok.inj ((updateLinkMan_empty hi hlen hr).unique hends)
  obtain rfl : new = [] := by simpa using hnew
  simp at hfound

/-- The first contact is called so, and deleted. -/
lemma deletes_called {rest : List ι} (hi : inp.i = 2) (hy : inp.confirms)
    (hlen : inp.update.chars.length < 20) (hr : b.links.Ring head (x :: rest))
    (hm : (b.man x).IsStrings) (hc : (b.man x).Called inp.update.chars) :
    Deletes head b inp (x :: rest) := by
  obtain ⟨fields, hrec⟩ := deleteRecord_called hm hc hy
  have hr' : b.links.Ring head ([] ++ x :: rest) := hr
  refine ⟨_, updateLinkMan_first hi hlen hr hrec, rfl, ?_, ?_, [.info fields], rfl, by simp [hc]⟩
  · rw [Book.nodeDel_links, List.eraseP_cons_of_pos (by simpa using hc)]
    exact hr'.listDelInit
  · rw [List.find?_cons_of_pos (by simpa using hc)]
    rfl

/-- The first contact is not called so, and nobody is deleted. -/
lemma deletes_other_iff {rest : List ι} (hi : inp.i = 2) (hlen : inp.update.chars.length < 20)
    (hr : b.links.Ring head (x :: rest)) (hm : (b.man x).IsStrings)
    (hc : ¬ (b.man x).Called inp.update.chars) :
    Deletes head b inp (x :: rest) ↔ ∀ y ∈ x :: rest, ¬ (b.man y).Called inp.update.chars := by
  have hends := updateLinkMan_first hi hlen hr (deleteRecord_other hm hc)
  constructor
  · rintro ⟨b', hends', -, -, -, new, hnew, hfound⟩
    obtain rfl : b.print .notFound = b' := Except.ok.inj (hends.unique hends')
    obtain rfl : [.notFound] = new := by simpa [Book.print] using hnew
    exact hfound.1 (by simp)
  · intro hno
    refine ⟨_, hends, rfl, ?_, ?_, [.notFound], rfl, by simpa using hno⟩
    · rw [List.eraseP_of_forall_not (by simpa using hno)]
      exact hr
    · rw [List.find?_eq_none.2 (by simpa using hno)]
      simp [Book.print]

/-- The contact is deleted when the user says yes, just when the first one decides. -/
theorem deletes_iff (hr : b.links.Ring head xs) (hstr : ∀ x ∈ xs, (b.man x).IsStrings)
    (hi : inp.i = 2) (hy : inp.confirms) :
    Deletes head b inp xs ↔ FirstDecides b inp.update.chars xs := by
  by_cases hlen : inp.update.chars.length < 20
  · cases xs with
    | nil =>
        refine iff_of_false (not_deletes_nil hi hlen hr) ?_
        rintro ⟨-, x, rest, hxs, -⟩
        cases hxs
    | cons x rest =>
        have hm := hstr x List.mem_cons_self
        by_cases hc : (b.man x).Called inp.update.chars
        · exact iff_of_true (deletes_called hi hy hlen hr hm hc) ⟨hlen, x, rest, rfl, Or.inl hc⟩
        · rw [deletes_other_iff hi hlen hr hm hc]
          constructor
          · intro hno
            exact ⟨hlen, x, rest, rfl, Or.inr (List.forall_mem_cons.1 hno).2⟩
          · rintro ⟨-, x', rest', hxs, hfirst⟩
            obtain ⟨rfl, rfl⟩ := List.cons.inj hxs
            exact List.forall_mem_cons.2 ⟨hc, hfirst.resolve_left hc⟩
  · refine iff_of_false ?_ fun h => hlen h.1
    rintro ⟨b', hends, -⟩
    exact absurd (hends.unique (updateLinkMan_long hi hlen)) (by simp)

/-- A contact is to be deleted. -/
def Input.delete (update : Word) : Input where
  i := 2
  update := update
  choice := 0
  update_info := ⟨[], by decide⟩
  c := 'Y'

theorem deletes_iff_bob : Deletes 0 Book.bobAnn (.delete ⟨['b', 'o', 'b'], by decide⟩) [1, 2] ↔
    FirstDecides Book.bobAnn ['b', 'o', 'b'] [1, 2] :=
  deletes_iff Book.ring_bobAnn (fun x _ => Book.isStrings_bobAnn x) rfl (Or.inl rfl)

/-- `ann` comes behind `bob`, and is not found. -/
theorem not_deletes_ann :
    ¬ Deletes 0 Book.bobAnn (.delete ⟨['a', 'n', 'n'], by decide⟩) [1, 2] := by
  rw [deletes_other_iff rfl (by decide) Book.ring_bobAnn (Book.isStrings_bobAnn 1) (by decide)]
  intro hno
  exact hno 2 (by simp) (by decide)

end AddressList

end DemoClass
