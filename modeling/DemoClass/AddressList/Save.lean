import DemoClass.AddressList.Book

/-!
# Exporting the contacts (`save.c`)

`save` writes the arrays of the contacts to a file, each of them with a newline behind it, and
dashes behind each contact.  The fields hold no newline, so the file determines what was written
(`flatMap_text_iff`).  The post number is not written: two lists that differ in post numbers alone
give the same file (`lossless_iff`).
-/

namespace DemoClass

namespace AddressList

open CString

/-- The arrays that `save` writes, in its order. -/
def savedFields : List Field := [.name, .tel, .email, .company, .address, .spell]

/-- `str` of `save` -/
def dashes : List Char := List.replicate 24 '-'

/-- What `save` reports on the terminal. -/
inductive Notice where
  | nothingToExport
  | openFailed
deriving DecidableEq, Repr

/-- The file behind `save`, what was reported, and the value it returns. -/
structure Export where
  file : List Char
  notices : List Notice
  ret : ℤ
deriving DecidableEq

/-- What a round of the loop of `save` writes. -/
def LinkMan.savedText (m : LinkMan) : Option (List Char) := do
  let fields ← savedFields.mapM fun f => str (m.get f)
  return fields.flatMap (· ++ ['\n']) ++ dashes

namespace Book

variable {ι : Type} [DecidableEq ι]

/-- The loop of `save`, from what is in the file on. -/
def saveRecords (b : Book ι) (head : ι) (file : List Char) : Comp Fault (List Char ⊕ Empty) :=
  Links.listForEach (fun _ => b.links)
    (fun cur file => Comp.ofExcept
      ((b.man cur).savedText.elim (.error .outOfBounds) fun text => .ok (.inl (file ++ text))))
    head file

/-- `save`, where `opens` is whether `fopen` succeeds; it truncates the file. -/
def save (b : Book ι) (head : ι) (opens : Bool) (file : List Char) : Comp Fault Export :=
  let notices := if b.links.next head = head then [.nothingToExport] else []
  if opens then do
    match ← b.saveRecords head [] with
    | .inl file => pure ⟨file, notices, 0⟩
  else pure ⟨file, notices ++ [.openFailed], -1⟩

end Book

/-! ### The text of a contact -/

namespace LinkMan

variable {m m' : LinkMan}

/-- Every array holds a string that `scanf("%s")` can have read. -/
def IsScanned (m : LinkMan) : Prop :=
  ∀ f, ∃ s, str (m.get f) = some s ∧ s ≠ [] ∧ ∀ c ∈ s, isSpace c = false

/-- The strings in the arrays that are written. -/
def saved (m : LinkMan) : List (Option (List Char)) := savedFields.map fun f => str (m.get f)

/-- The strings in all arrays. -/
def strings (m : LinkMan) (f : Field) : Option (List Char) := str (m.get f)

/-- The array that is not written. -/
lemma strings_eq_iff : m.strings = m'.strings ↔
    m.saved = m'.saved ∧ m.strings .post = m'.strings .post := by
  constructor
  · intro h
    exact ⟨List.map_congr_left fun f _ => congrFun h f, congrFun h .post⟩
  · rintro ⟨hsaved, hpost⟩
    have hmem : ∀ f ∈ savedFields, m.strings f = m'.strings f := List.map_inj_left.1 hsaved
    funext f
    by_cases hf : f = .post
    · rw [hf, hpost]
    · refine hmem f ?_
      cases f <;> first | exact absurd rfl hf | decide

/-- The characters that are written of the arrays, when they hold strings. -/
def savedWords (m : LinkMan) : List (List Char) :=
  savedFields.map fun f => (m.get f).takeWhile (· ≠ nul)

/-- What is written of a contact, when its arrays hold strings. -/
def text (m : LinkMan) : List Char := m.savedWords.flatMap (· ++ ['\n']) ++ dashes

lemma IsScanned.isStrings (h : m.IsScanned) : m.IsStrings := by
  intro f
  obtain ⟨s, hs, -⟩ := h f
  by_contra hn
  rw [str, if_neg hn] at hs
  cases hs

lemma savedText_eq (h : m.IsStrings) : m.savedText = some m.text := by
  have hstr : (fun f => str (m.get f)) = fun f => some ((m.get f).takeWhile (· ≠ nul)) :=
    funext fun f => if_pos (h f)
  rw [savedText, hstr]
  rfl

lemma saved_eq (h : m.IsStrings) : m.saved = m.savedWords.map some := by
  rw [saved, savedWords, List.map_map]
  exact List.map_congr_left fun f _ => if_pos (h f)

/-- The words hold no newline. -/
lemma IsScanned.newline_notMem (h : m.IsScanned) : ∀ s ∈ m.savedWords, '\n' ∉ s := by
  intro s hs hnl
  obtain ⟨f, -, rfl⟩ := List.mem_map.1 hs
  obtain ⟨t, ht, -, hspace⟩ := h f
  rw [str, if_pos (h.isStrings f)] at ht
  obtain rfl := Option.some.inj ht
  exact absurd (hspace '\n' hnl) (by decide)

/-- The file determines what was written of each contact. -/
lemma flatMap_text_inj {ms ms' : List LinkMan} (hm : ∀ m ∈ ms, m.IsScanned)
    (hm' : ∀ m ∈ ms', m.IsScanned) (h : ms.flatMap text = ms'.flatMap text) :
    ms.map savedWords = ms'.map savedWords := by
  induction ms generalizing ms' with
  | nil =>
      cases ms' with
      | nil => rfl
      | cons m' ms' => simp [text, dashes] at h
  | cons m ms ih =>
      cases ms' with
      | nil => simp [text, dashes] at h
      | cons m' ms' =>
          simp only [List.flatMap_cons, text, List.append_assoc] at h
          obtain ⟨hwords, hrest⟩ := flatMap_terminated_inj (hm m (by simp)).newline_notMem
            (hm' m' (by simp)).newline_notMem (by simp [savedWords]) h
          have ih' := ih (fun n hn => hm n (by simp [hn])) (fun n hn => hm' n (by simp [hn]))
            (List.append_cancel_left hrest)
          rw [List.map_cons, List.map_cons, hwords, ih']

lemma map_saved_iff {ms ms' : List LinkMan} (hm : ∀ m ∈ ms, m.IsScanned)
    (hm' : ∀ m ∈ ms', m.IsScanned) :
    ms.map saved = ms'.map saved ↔ ms.map savedWords = ms'.map savedWords := by
  have hsome : ∀ ns : List LinkMan, (∀ n ∈ ns, n.IsScanned) →
      ns.map saved = (ns.map savedWords).map (List.map some) := by
    intro ns hn
    rw [List.map_map]
    exact List.map_congr_left fun n hmem => saved_eq (hn n hmem).isStrings
  rw [hsome ms hm, hsome ms' hm']
  exact (List.map_injective_iff.2 (List.map_injective_iff.2 (Option.some_injective _))).eq_iff

/-- The file determines what was written, and nothing else. -/
lemma flatMap_text_iff {ms ms' : List LinkMan} (hm : ∀ m ∈ ms, m.IsScanned)
    (hm' : ∀ m ∈ ms', m.IsScanned) :
    ms.flatMap text = ms'.flatMap text ↔ ms.map saved = ms'.map saved := by
  rw [map_saved_iff hm hm']
  refine ⟨flatMap_text_inj hm hm', fun h => ?_⟩
  have htext : ∀ ns : List LinkMan, ns.flatMap text =
      (ns.map savedWords).flatMap fun ws => ws.flatMap (· ++ ['\n']) ++ dashes := fun ns => by
    rw [List.flatMap_map]
    rfl
  rw [htext, htext, h]

lemma map_strings_iff {ms ms' : List LinkMan} : ms.map strings = ms'.map strings ↔
    ms.map saved = ms'.map saved ∧
      (ms.map fun m => str (m.get .post)) = ms'.map fun m => str (m.get .post) := by
  induction ms generalizing ms' with
  | nil => cases ms' <;> simp
  | cons m ms ih =>
      cases ms' with
      | nil => simp
      | cons m' ms' =>
          simp only [List.map_cons, List.cons.injEq, ih, strings_eq_iff]
          exact and_and_and_comm

end LinkMan

/-! ### Two lists -/

namespace Book

variable {ι : Type} [DecidableEq ι] {b b' : Book ι} {head head' : ι} {xs xs' : List ι}

/-- The file behind `save`: what is written of each contact. -/
lemma save_ends (hr : b.links.Ring head xs) (hs : ∀ x ∈ xs, (b.man x).IsStrings)
    (file : List Char) : ∃ e, (b.save head true file).Ends (.ok e) ∧
      e.file = (xs.map b.man).flatMap LinkMan.text := by
  obtain ⟨file', hends, hfile⟩ : ∃ file', (b.saveRecords head []).Ends (.ok (.inl file')) ∧
      file' ++ (([] : List ι).map b.man).flatMap LinkMan.text =
        (xs.map b.man).flatMap LinkMan.text := by
    rw [saveRecords, Links.listForEach, hr.next_head]
    -- what is in the file and what is still to be written make up the whole file
    refine Links.forEachFrom_ends (fun rest file => (∃ us, xs = us ++ rest) ∧
      file ++ (rest.map b.man).flatMap LinkMan.text = (xs.map b.man).flatMap LinkMan.text) ?_
      hr.head_notMem ⟨⟨[], rfl⟩, rfl⟩ |>.imp fun file' h => ⟨h.1, h.2.2⟩
    rintro x rest file ⟨⟨us, rfl⟩, hfile⟩
    refine ⟨file ++ (b.man x).text, ?_, hr.next_mem, ⟨us ++ [x], by simp⟩, by simpa using hfile⟩
    rw [LinkMan.savedText_eq (hs x (by simp))]
    exact Comp.ends_ofExcept.2 rfl
  refine ⟨⟨file', if b.links.next head = head then [.nothingToExport] else [], 0⟩, ?_,
    by simpa using hfile⟩
  rw [save, if_pos rfl]
  exact hends.bind (Comp.ends_pure.2 rfl)

lemma file_of_save {old : List Char} {e : Export} (hr : b.links.Ring head xs)
    (hs : ∀ x ∈ xs, (b.man x).IsStrings) (he : (b.save head true old).Ends (.ok e)) :
    e.file = (xs.map b.man).flatMap LinkMan.text := by
  obtain ⟨e', he', hfile⟩ := save_ends hr hs old
  rw [Except.ok.inj (he.unique he'), hfile]

/-- The contacts of a list. -/
def contacts (b : Book ι) (xs : List ι) : List LinkMan := xs.map b.man

/-- Two lists are exported without loss: the exports end, and when the files are the same, so are
the contacts, in their order and in all fields. -/
def Lossless (b : Book ι) (head : ι) (xs : List ι) (b' : Book ι) (head' : ι) (xs' : List ι) :
    Prop :=
  ∀ old old', ∃ e e', (b.save head true old).Ends (.ok e) ∧
    (b'.save head' true old').Ends (.ok e') ∧
    (e.file = e'.file →
      (b.contacts xs).map LinkMan.strings = (b'.contacts xs').map LinkMan.strings)

/-- Two lists of contacts that were typed in are exported without loss unless they differ in
post numbers and in nothing else. -/
theorem lossless_iff (hr : b.links.Ring head xs) (hr' : b'.links.Ring head' xs')
    (hs : ∀ m ∈ b.contacts xs, m.IsScanned) (hs' : ∀ m ∈ b'.contacts xs', m.IsScanned) :
    Lossless b head xs b' head' xs' ↔
      ((b.contacts xs).map LinkMan.saved = (b'.contacts xs').map LinkMan.saved →
        ((b.contacts xs).map fun m => str (m.get .post)) =
          (b'.contacts xs').map fun m => str (m.get .post)) := by
  have hstr : ∀ x ∈ xs, (b.man x).IsStrings := fun x hx =>
    (hs _ (List.mem_map_of_mem hx)).isStrings
  have hstr' : ∀ x ∈ xs', (b'.man x).IsStrings := fun x hx =>
    (hs' _ (List.mem_map_of_mem hx)).isStrings
  constructor
  · intro h hsaved
    obtain ⟨e, e', he, he', heq⟩ := h [] []
    have hsame : e.file = e'.file := by
      rw [file_of_save hr hstr he, file_of_save hr' hstr' he']
      exact (LinkMan.flatMap_text_iff hs hs').2 hsaved
    exact (LinkMan.map_strings_iff.1 (heq hsame)).2
  · intro h old old'
    obtain ⟨e, he, hfile⟩ := save_ends hr hstr old
    obtain ⟨e', he', hfile'⟩ := save_ends hr' hstr' old'
    refine ⟨e, e', he, he', fun hsame => ?_⟩
    rw [hfile, hfile'] at hsame
    have hsaved := (LinkMan.flatMap_text_iff hs hs').1 hsame
    exact LinkMan.map_strings_iff.2 ⟨hsaved, h hsaved⟩

end Book

/-- A contact with a name and a post number of one letter. -/
def LinkMan.letters (c d : Char) : LinkMan where
  name := ⟨c :: List.replicate 19 nul, rfl⟩
  tel := ⟨'1' :: List.replicate 14 nul, rfl⟩
  email := ⟨'e' :: List.replicate 29 nul, rfl⟩
  company := ⟨'c' :: List.replicate 29 nul, rfl⟩
  address := ⟨'a' :: List.replicate 49 nul, rfl⟩
  post := ⟨d :: List.replicate 6 nul, rfl⟩
  spell := ⟨c :: List.replicate 19 nul, rfl⟩

lemma LinkMan.isScanned_letters {c d : Char} (hc : c ≠ nul ∧ isSpace c = false)
    (hd : d ≠ nul ∧ isSpace d = false) : (letters c d).IsScanned := by
  have hletter : ∀ (e : Char) (n : ℕ), e ≠ nul ∧ isSpace e = false →
      ∃ s, str (e :: List.replicate (n + 1) nul) = some s ∧ s ≠ [] ∧
        ∀ c ∈ s, isSpace c = false := by
    rintro e n ⟨hne, hspace⟩
    refine ⟨[e], ?_, by simp, by simpa using hspace⟩
    have hnul : nul ∉ [e] := by simpa using Ne.symm hne
    exact str_append_nul hnul (List.replicate n nul)
  intro f
  cases f
  · exact hletter c 18 hc
  · exact hletter '1' 13 (by decide)
  · exact hletter 'e' 28 (by decide)
  · exact hletter 'c' 28 (by decide)
  · exact hletter 'a' 48 (by decide)
  · exact hletter d 5 hd
  · exact hletter c 18 hc

/-- Two contacts with one name and one post number, on the list of the head 0. -/
def Book.letters (c d : Char) : Book (Fin 3) := { bobAnn with man := fun _ => .letters c d }

lemma Book.ring_letters (c d : Char) : (Book.letters c d).links.Ring 0 [1, 2] := ring_bobAnn

lemma Book.isScanned_letters {c d : Char} (hc : c ≠ nul ∧ isSpace c = false)
    (hd : d ≠ nul ∧ isSpace d = false) :
    ∀ m ∈ (Book.letters c d).contacts [1, 2], m.IsScanned := by
  intro m hm
  obtain ⟨x, -, rfl⟩ := List.mem_map.1 hm
  exact LinkMan.isScanned_letters hc hd

theorem Book.lossless_iff_letters :
    Lossless (.letters 'a' '1') 0 [1, 2] (.letters 'b' '2') 0 [1, 2] :=
  (lossless_iff (ring_letters _ _) (ring_letters _ _) (isScanned_letters (by decide) (by decide))
    (isScanned_letters (by decide) (by decide))).2 fun h => absurd h (by decide)

/-- Contacts that differ in their post numbers give the same file. -/
theorem Book.not_lossless_post :
    ¬ Lossless (.letters 'a' '1') 0 [1, 2] (.letters 'a' '2') 0 [1, 2] := by
  intro h
  have hs : ∀ d, d ≠ nul ∧ isSpace d = false → ∀ x ∈ [1, 2],
      ((Book.letters 'a' d).man x).IsStrings := fun d hd _ _ =>
    (LinkMan.isScanned_letters (by decide) hd).isStrings
  obtain ⟨e, e', he, he', heq⟩ := h [] []
  have hfile := file_of_save (ring_letters _ _) (hs '1' (by decide)) he
  have hfile' := file_of_save (ring_letters _ _) (hs '2' (by decide)) he'
  have hsame : e.file = e'.file := by
    rw [hfile, hfile']
    rfl
  have hpost := (LinkMan.map_strings_iff.1 (heq hsame)).2
  exact absurd hpost (by decide)

end AddressList

end DemoClass
