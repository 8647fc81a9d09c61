import DemoClass.AddressList.Book

/-!
# Changing a contact (`update_link_man`)

The new contents are moved to an array of the contact without their NUL.  They are read
again when a NUL happens to stand behind them, so not when they are shorter than the old
contents (`updates_iff`).  The new email goes to the array of the name.
-/

namespace DemoClass

namespace AddressList

open CString

/-- The number of a field in the menu. -/
def Field.number : Field → ℤ
  | .name => 1
  | .spell => 2
  | .tel => 3
  | .email => 4
  | .company => 5
  | .address => 6
  | .post => 7

/-- The array that is written. -/
def Field.target : Field → Field
  | .email => .name
  | f => f

variable {ι : Type} {b b' : Book ι} {head r x : ι} {pre post : List ι} {inp : Input} {f : Field}
  {m m' : LinkMan} {s update : List Char}

lemma Field.written_number (f : Field) : Book.written f.number = some f.target := by
  cases f <;> rfl

lemma Field.target_of_ne (h : f ≠ .email) : f.target = f := by
  cases f <;> first | rfl | exact absurd rfl h

/-- A string that somebody is called by fits into `update`. -/
lemma LinkMan.Called.length_lt (h : m.Called update) : update.length < 20 := by
  rcases h with h | h
  · exact (length_lt_of_str h).trans_eq (m.length_get .name)
  · have hlt := length_lt_of_str h
    rw [m.length_get, Field.size, maxTel] at hlt
    omega

/-- The field `f` of the contact `r` reads `s` now, and nothing else has changed. -/
def Updated (b b' : Book ι) (r : ι) (f : Field) (s : List Char) : Prop :=
  str ((b'.man r).get f) = some s ∧ (∀ g ≠ f, (b'.man r).get g = (b.man r).get g) ∧
    (∀ x ≠ r, b'.man x = b.man x) ∧ b'.links = b.links

variable [DecidableEq ι]

/-- `update_link_man` returns, with the field `f` of the contact `r` updated. -/
def Updates (head : ι) (b : Book ι) (inp : Input) (r : ι) (f : Field) : Prop :=
  ∃ b', (b.updateLinkMan head inp).Ends (.ok b') ∧ Updated b b' r f inp.update_info.chars

/-- A NUL stands behind the new contents in the array; or, for the email, it is the old one,
and the name starts with it. -/
def Undisturbed (m : LinkMan) (f : Field) (s : List Char) : Prop :=
  if f = .email then str (m.get .email) = some s ∧ s <+: m.get .name
  else (m.get f)[s.length]? = some nul

/-! ### The loop -/

lemma updateRecord_skip (hm : (b.man x).IsStrings) (hno : ¬ (b.man x).Called inp.update.chars) :
    Book.updateRecord inp x b = some (.inl b) := by
  rw [Book.updateRecord, LinkMan.isCalled_eq hm]
  simp [hno]

/-- The contact is changed, and printed before and after that. -/
lemma updateRecord_called (hm : (b.man r).IsStrings) (hc : (b.man r).Called inp.update.chars)
    (hchoice : inp.choice = f.number) (hs : inp.update_info.chars.length < 20)
    (hm' : (b.man r).memmove f.target inp.update_info.chars = some m') :
    (m'.printInfo = none ∧ Book.updateRecord inp r b = none) ∨
      ∃ b', Book.updateRecord inp r b = some (.inr b') ∧ m'.printInfo.isSome ∧
        b'.man = Function.update b.man r m' ∧ b'.links = b.links := by
  obtain ⟨fields, hfields⟩ := LinkMan.printInfo_eq hm
  have hprint : b.printInfo r = some (b.print (.info fields)) := by
    rw [Book.printInfo, hfields, Option.map_some]
  obtain ⟨b₁, hchange, hman, hlinks⟩ : ∃ b₁, (b.print (.info fields)).change r inp = some b₁ ∧
      b₁.man = Function.update b.man r m' ∧ b₁.links = b.links := by
    refine ⟨{ b.print (.info fields) with man := Function.update b.man r m' }, ?_, rfl, rfl⟩
    rw [Book.change, hchoice, Field.written_number]
    simp only [if_pos hs]
    show ((b.man r).memmove f.target inp.update_info.chars).map _ = _
    rw [hm', Option.map_some]
    rfl
  have hprint₁ : b₁.printInfo r = m'.printInfo.map fun fields => b₁.print (.info fields) := by
    rw [Book.printInfo, hman, Function.update_self]
  rw [Book.updateRecord, LinkMan.isCalled_eq hm]
  simp only [hc, decide_true, Option.bind_eq_bind, Option.bind_some, if_true, hprint, hchange,
    hprint₁]
  cases m'.printInfo with
  | none => exact Or.inl ⟨rfl, rfl⟩
  | some fields' =>
      refine Or.inr ⟨_, rfl, rfl, ?_, ?_⟩
      · rw [← hman]
        split <;> rfl
      · rw [← hlinks]
        split <;> rfl

lemma updateLinkMan_found (hi : inp.i = 1) (hlen : inp.update.chars.length < 20)
    (h : (Book.search (Book.updateRecord inp) head b).Ends (.ok (.inr b'))) :
    (b.updateLinkMan head inp).Ends (.ok b') := by
  rw [Book.updateLinkMan, if_pos hi, if_pos hlen]
  exact h.bind (Comp.ends_pure.2 rfl)

lemma updateLinkMan_fault (hi : inp.i = 1) (hlen : inp.update.chars.length < 20)
    (h : (Book.search (Book.updateRecord inp) head b).Ends (.error .outOfBounds)) :
    (b.updateLinkMan head inp).Ends (.error .outOfBounds) := by
  rw [Book.updateLinkMan, if_pos hi, if_pos hlen]
  exact h.bind_fault

/-- The contact is found and changed. -/
lemma updates_iff_memmove (hr : b.links.Ring head (pre ++ r :: post))
    (hstr : ∀ x ∈ pre ++ r :: post, (b.man x).IsStrings)
    (hpre : ∀ x ∈ pre, ¬ (b.man x).Called inp.update.chars)
    (hc : (b.man r).Called inp.update.chars) (hi : inp.i = 1) (hchoice : inp.choice = f.number)
    (hs : inp.update_info.chars.length < 20)
    (hm' : (b.man r).memmove f.target inp.update_info.chars = some m') :
    Updates head b inp r f ↔ m'.printInfo.isSome ∧
      str (m'.get f) = some inp.update_info.chars ∧ ∀ g ≠ f, m'.get g = (b.man r).get g := by
  have hskip : ∀ x ∈ pre, Book.updateRecord inp x b = some (.inl b) := fun x hx =>
    updateRecord_skip (hstr x (List.mem_append_left _ hx)) (hpre x hx)
  rcases updateRecord_called (hstr r (by simp)) hc hchoice hs hm' with
    ⟨hnone, hrec⟩ | ⟨b', hrec, hsome, hman, hlinks⟩
  · have hfault := updateLinkMan_fault hi hc.length_lt (Book.search_fault hr hskip hrec)
    refine iff_of_false ?_ (by simp [hnone])
    rintro ⟨b', hends, -⟩
    exact absurd (hends.unique hfault) (by simp)
  · have hends := updateLinkMan_found hi hc.length_lt (Book.search_found hr hskip hrec)
    have hget : b'.man r = m' := by rw [hman, Function.update_self]
    constructor
    · rintro ⟨b'', hends', hread, hother, -, -⟩
      obtain rfl : b' = b'' := Except.ok.inj (hends.unique hends')
      rw [hget] at hread hother
      exact ⟨hsome, hread, hother⟩
    · rintro ⟨-, hread, hother⟩
      refine ⟨b', hends, by rwa [hget], by rwa [hget], fun x hx => ?_, hlinks⟩
      rw [hman, Function.update_of_ne hx]

/-! ### The result -/

/-- The old arrays and the new one hold strings. -/
lemma isSome_printInfo (hm : m.IsStrings) (hget : ∀ g ≠ f, m'.get g = m.get g)
    (hf : nul ∈ m'.get f) : m'.printInfo.isSome := by
  have hm' : m'.IsStrings := by
    intro g
    by_cases hg : g = f
    · exact hg ▸ hf
    · rw [hget g hg]
      exact hm g
  obtain ⟨fields, hfields⟩ := LinkMan.printInfo_eq hm'
  rw [hfields]
  rfl

/-- The first contact that is called so gets the new contents in the field that was chosen, and
nothing else changes, just when nothing stands in the way. -/
theorem updates_iff (hr : b.links.Ring head (pre ++ r :: post))
    (hstr : ∀ x ∈ pre ++ r :: post, (b.man x).IsStrings)
    (hpre : ∀ x ∈ pre, ¬ (b.man x).Called inp.update.chars)
    (hc : (b.man r).Called inp.update.chars) (hi : inp.i = 1) (hchoice : inp.choice = f.number)
    (hs : inp.update_info.chars.length < 20) (hf : inp.update_info.chars.length < f.size) :
    Updates head b inp r f ↔ Undisturbed (b.man r) f inp.update_info.chars := by
  have hm : (b.man r).IsStrings := hstr r (by simp)
  generalize hman : b.man r = m at hm
  have hnul := inp.update_info.nul_notMem
  by_cases hemail : f = .email
  · subst hemail
    obtain ⟨m', hm'⟩ := m.exists_memmove (f := .name) (s := inp.update_info.chars) hs.le
    obtain ⟨hname, hother⟩ := LinkMan.memmove_eq_some hm'
    rw [updates_iff_memmove hr hstr hpre hc hi hchoice hs (hman ▸ hm'), hman, Undisturbed,
      if_pos rfl, hother .email (by decide)]
    constructor
    · rintro ⟨-, hread, hall⟩
      refine ⟨hread, write_eq_self_iff.1 ?_⟩
      rw [← hname]
      exact hall .name (by decide)
    · rintro ⟨hread, hprefix⟩
      have hname' : m'.get .name = m.get .name := by rw [hname, write_eq_self_iff.2 hprefix]
      refine ⟨isSome_printInfo hm hother (hname' ▸ hm .name), hread, fun g _ => ?_⟩
      by_cases hg : g = .name
      · rw [hg, hname']
      · exact hother g hg
  · obtain ⟨m', hm'⟩ := m.exists_memmove (f := f) (s := inp.update_info.chars) hf.le
    obtain ⟨hfield, hother⟩ := LinkMan.memmove_eq_some hm'
    have hlt : inp.update_info.chars.length < (m.get f).length := by rwa [m.length_get]
    have hread := str_write_iff hnul hlt
    rw [updates_iff_memmove hr hstr hpre hc hi hchoice hs
      (by rw [Field.target_of_ne hemail, hman]; exact hm'), hman, Undisturbed, if_neg hemail,
      hfield, hread]
    refine ⟨fun h => h.2.1, fun h => ⟨isSome_printInfo hm hother ?_, h, hother⟩⟩
    rw [hfield]
    have hstr' := hread.2 h
    rw [str] at hstr'
    by_contra hno
    rw [if_neg hno] at hstr'
    cases hstr'

/-- `ann` becomes `anna`. -/
def renameAnn : Input where
  i := 1
  update := ⟨['a', 'n', 'n'], by decide⟩
  choice := 1
  update_info := ⟨['a', 'n', 'n', 'a'], by decide⟩
  c := 'y'

theorem updates_iff_ann : Updates 0 Book.bobAnn renameAnn 2 .name ↔
    Undisturbed (Book.bobAnn.man 2) .name renameAnn.update_info.chars :=
  updates_iff (show Book.bobAnn.links.Ring 0 ([1] ++ 2 :: []) from Book.ring_bobAnn)
    (fun x _ => Book.isStrings_bobAnn x) (by decide) (by decide) rfl rfl (by decide) (by decide)

/-- `ann` becomes `al`. -/
def renameAl : Input := { renameAnn with update_info := ⟨['a', 'l'], by decide⟩ }

/-- The name that is left is `aln`. -/
theorem not_updates_al : ¬ Updates 0 Book.bobAnn renameAl 2 .name := by
  obtain ⟨m', hm'⟩ := (Book.bobAnn.man 2).exists_memmove (f := .name)
    (s := renameAl.update_info.chars) (by decide)
  have hiff : Updates 0 Book.bobAnn renameAl 2 .name ↔ m'.printInfo.isSome ∧
      str (m'.get .name) = some renameAl.update_info.chars ∧
        ∀ g ≠ .name, m'.get g = (Book.bobAnn.man 2).get g :=
    updates_iff_memmove (show Book.bobAnn.links.Ring 0 ([1] ++ 2 :: []) from Book.ring_bobAnn)
      (fun x _ => Book.isStrings_bobAnn x) (by decide) (by decide) rfl rfl (by decide) hm'
  rw [hiff, (LinkMan.memmove_eq_some hm').1]
  rintro ⟨-, hread, -⟩
  exact absurd hread (by decide)

end AddressList

end DemoClass
