import DemoClass.Dlist.Destroy
import DemoClass.Dlist.StackQueue
import Mathlib.Data.Set.Finite.Lemmas

/-!
# Stacks and queues of values (`stack.c`, `queue.c`)

A program keeps values of some type in a stack or queue, by way of their bytes, and other lists in
the same memory.  Behind every call the list holds the values that it should (`Holding`), the
cells of everything else are as they were (`Heap.Frame`), and what is allocated is what the program
has not freed yet (`Owns`).  So a stack or queue that is made, used and destroyed leaves nothing
behind (`use_restores`).
-/

namespace DemoClass

namespace Dlist

variable {ι α β : Type}

/-- The bytes in which the values of a type are kept. -/
structure Layout (α β : Type) where
  size : ℕ
  bytes : α → List β
  value : List β → α
  length_bytes : ∀ a, (bytes a).length = size
  value_bytes : ∀ a, value (bytes a) = a

/-- What `malloc` returns, from the addresses that are in use. -/
abbrev Malloc (ι : Type) := (ι → Bool) → Option ι

/-- As long as finitely many addresses are in use, `malloc` returns one that is not. -/
def Malloc.Succeeds (malloc : Malloc ι) : Prop :=
  ∀ live : ι → Bool, {x | live x = true}.Finite → ∃ x, malloc live = some x ∧ live x = false

/-- A `stack_info` or `queue_info`: its address, and those of its `dlist_info` and of the head of
the list. -/
structure Object (ι : Type) where
  self : ι
  dlist : ι
  head : ι
deriving DecidableEq

/-- What is in the `stack_info` or `queue_info`. -/
def Object.info (o : Object ι) : Info ι := ⟨⟨o.head⟩⟩

variable [DecidableEq ι]

/-! ### The calls -/

/-- An allocation, with the test of the pointer. -/
def alloc (malloc : Malloc ι) (h : Store ι β) : Comp MemFault (Store ι β × ι) :=
  match malloc h.live with
  | none => Comp.fault .dangling
  | some x => pure (h.malloc x, x)

/-- `stack_destroy` and `queue_destroy` -/
def destroy (h : Store ι β) (o : Object ι) : Comp MemFault (Store ι β) := do
  let r ← dlistDestroy h o.info.dlist
  r.1.free o.dlist

namespace Kind

/-- `stack_init` and `queue_init` of the structure at `self`, which fault later when there is no
memory for them. -/
def initialise (k : Kind) (malloc : Malloc ι) (h : Store ι β) (self : ι) :
    Comp MemFault (Store ι β × Object ι) := do
  let r ← alloc malloc h
  let s ← k.init r.1 true (malloc r.1.live)
  match s.2.1 with
  | none => Comp.fault .dangling
  | some info => pure (s.1, ⟨self, r.2, info.dlist.head⟩)

/-- A push of the value of a variable. -/
def pushValue (k : Kind) (L : Layout α β) (malloc : Malloc ι) (h : Store ι β) (o : Object ι)
    (a : α) : Comp MemFault (Store ι β × ℤ) :=
  k.push h o.info (malloc h.live) (L.bytes a) L.size

/-- The variable `dest` behind a top, and what this returns. -/
def topValue (k : Kind) (L : Layout α β) (h : Store ι β) (o : Object ι) (dest : α) :
    Comp MemFault (α × ℤ) := do
  let r ← k.top h o.info (L.bytes dest) L.size
  pure (L.value r.1, r.2)

/-- The variable `dest` behind a pop, and what this returns. -/
def popValue (k : Kind) (L : Layout α β) (h : Store ι β) (o : Object ι) (dest : α) :
    Comp MemFault (Store ι β × α × ℤ) := do
  let r ← k.pop h o.info (L.bytes dest) L.size
  pure (r.1, L.value r.2.1, r.2.2)

end Kind

/-! ### What is allocated -/

/-- What is allocated is what was from the beginning (`base`), and the cells. -/
structure Owns (base : ι → Bool) (h : Store ι β) (cells : List ι) : Prop where
  nodup : cells.Nodup
  fresh : ∀ y ∈ cells, base y = false
  live : ∀ y, h.live y = true ↔ base y = true ∨ y ∈ cells

/-- The list of the object holds the values, in the cells `xs`. -/
structure Holding (L : Layout α β) (h : Store ι β) (o : Object ι) (xs : List ι) (as : List α) :
    Prop where
  holds : h.Holds o.info.dlist.head xs
  values : xs.map h.mem.data = as.map L.bytes

/-- The cells of an object. -/
def Object.cells (o : Object ι) (xs : List ι) : List ι := o.self :: o.dlist :: o.head :: xs

variable {base : ι → Bool} {h h' : Store ι β} {cells cells' rest xs S : List ι} {x : ι}
  {L : Layout α β} {malloc : Malloc ι} {o : Object ι} {as : List α} {a : α} {k : Kind}

namespace Owns

omit [DecidableEq ι] in
lemma perm (hw : Owns base h cells) (hp : cells.Perm cells') : Owns base h cells' where
  nodup := hp.nodup_iff.1 hw.nodup
  fresh y hy := hw.fresh y (hp.mem_iff.2 hy)
  live y := by rw [hw.live y, hp.mem_iff]

omit [DecidableEq ι] in
lemma congr (hw : Owns base h cells) (hlive : h'.live = h.live) : Owns base h' cells where
  nodup := hw.nodup
  fresh := hw.fresh
  live y := by rw [hlive, hw.live y]

omit [DecidableEq ι] in
lemma live_of_mem (hw : Owns base h cells) (hx : x ∈ cells) : h.live x = true :=
  (hw.live x).2 (Or.inr hx)

omit [DecidableEq ι] in
lemma notMem (hw : Owns base h cells) (hx : h.live x = false) : x ∉ cells := fun hmem => by
  simp [hw.live_of_mem hmem] at hx

omit [DecidableEq ι] in
lemma finite (hw : Owns base h cells) (hb : {y | base y = true}.Finite) :
    {y | h.live y = true}.Finite := by
  have heq : {y | h.live y = true} = {y | base y = true} ∪ {y | y ∈ cells} := by
    ext y
    exact hw.live y
  rw [heq]
  exact hb.union (List.finite_toSet cells)

/-- An address that is allocated. -/
lemma add (hw : Owns base h cells) (hx : h.live x = false)
    (hlive : h'.live = Function.update h.live x true) : Owns base h' (x :: cells) where
  nodup := List.nodup_cons.2 ⟨hw.notMem hx, hw.nodup⟩
  fresh y hy := by
    rcases List.mem_cons.1 hy with rfl | hy
    · by_contra hne
      have hbase : h.live y = true := (hw.live y).2 (Or.inl (by simpa using hne))
      simp [hbase] at hx
    · exact hw.fresh y hy
  live y := by
    rw [hlive]
    by_cases hy : y = x
    · simp [hy]
    · rw [Function.update_of_ne hy, hw.live y, List.mem_cons]
      tauto

/-- An address that is freed. -/
lemma remove (hw : Owns base h (x :: cells)) (hlive : h'.live = Function.update h.live x false) :
    Owns base h' cells where
  nodup := (List.nodup_cons.1 hw.nodup).2
  fresh y hy := hw.fresh y (List.mem_cons_of_mem x hy)
  live y := by
    rw [hlive]
    by_cases hy : y = x
    · subst hy
      simp [hw.fresh y List.mem_cons_self, (List.nodup_cons.1 hw.nodup).1]
    · rw [Function.update_of_ne hy, hw.live y, List.mem_cons]
      tauto

omit [DecidableEq ι] in
/-- Nothing is left. -/
lemma live_eq (hw : Owns base h []) : h.live = base := by
  funext y
  have hiff := hw.live y
  rw [or_iff_left List.not_mem_nil] at hiff
  cases hb : base y with
  | false =>
      rw [hb] at hiff
      simpa using hiff
  | true => exact hiff.2 hb

omit [DecidableEq ι] in
/-- In the beginning. -/
lemma self (h : Store ι β) : Owns h.live h [] := ⟨List.nodup_nil, by simp, by simp⟩

end Owns

/-! ### One call -/

omit [DecidableEq ι] in
lemma Holding.frame (hh : Holding L h o xs as) (hf : Heap.Frame S h h')
    (hS : ∀ y ∈ o.head :: xs, y ∉ S) : Holding L h' o xs as where
  holds := hh.holds.frame hf hS
  values := by
    rw [← hh.values]
    exact List.map_congr_left fun y hy => hf.data y (hS y (List.mem_cons_of_mem _ hy))

lemma alloc_ends (hm : malloc.Succeeds) (hw : Owns base h cells)
    (hb : {y | base y = true}.Finite) : ∃ x, h.live x = false ∧
      (alloc malloc h).Ends (.ok (h.malloc x, x)) ∧ Owns base (h.malloc x) (x :: cells) := by
  obtain ⟨x, hx, hfree⟩ := hm h.live (hw.finite hb)
  refine ⟨x, hfree, ?_, hw.add hfree rfl⟩
  rw [alloc, hx]
  exact Comp.ends_pure.2 rfl

lemma Owns.free_ends (hw : Owns base h (x :: cells)) : ∃ h', (h.free x).Ends (.ok h') ∧
    Owns base h' cells ∧ Heap.Frame [x] h h' :=
  ⟨_, Heap.free_ends (hw.live_of_mem List.mem_cons_self), hw.remove rfl, Heap.Frame.free h x⟩

namespace Kind

lemma initialise_ends (k : Kind) (L : Layout α β) (hm : malloc.Succeeds)
    (hb : {y | base y = true}.Finite) {self : ι} (hw : Owns base h (self :: rest)) :
    ∃ h' o, (k.initialise malloc h self).Ends (.ok (h', o)) ∧ o.self = self ∧
      Holding L h' o [] [] ∧ Owns base h' (o.cells [] ++ rest) ∧
      Heap.Frame [o.head, o.dlist] h h' := by
  obtain ⟨dlist, -, halloc, hw₁⟩ := alloc_ends hm hw hb
  obtain ⟨head, hhead, hfree⟩ := hm (h.malloc dlist).live (hw₁.finite hb)
  have hlive := (h.malloc dlist).live_malloc_self head
  obtain ⟨h', hinit, hl⟩ := init_ends k (h.malloc dlist) head
  have hh' : h' = ((h.malloc dlist).malloc head).setLinks
      ((h.mem.links.setNext head head).setPrev head head) := by
    have hinit' : (k.init (h.malloc dlist) true (some head)).Ends
        (.ok (((h.malloc dlist).malloc head).setLinks
          ((h.mem.links.setNext head head).setPrev head head), some ⟨⟨head⟩⟩, 0)) := by
      have hd : (dlistInit (h.malloc dlist) (some head)).Ends
          (.ok (((h.malloc dlist).malloc head).setLinks
            ((h.mem.links.setNext head head).setPrev head head), some ⟨head⟩, 0)) :=
        Heap.writeNext_bind hlive (Heap.writePrev_bind hlive (Comp.ends_pure.2 rfl))
      cases k <;> exact hd.bind (Comp.ends_pure.2 rfl)
    exact (Prod.mk.inj (Except.ok.inj (hinit.unique hinit'))).1
  refine ⟨h', ⟨self, dlist, head⟩, ?_, rfl, ⟨hl, rfl⟩, ?_, ?_⟩
  · refine halloc.bind ?_
    rw [hhead]
    exact hinit.bind (Comp.ends_pure.2 rfl)
  · have hw₂ : Owns base h' (head :: dlist :: self :: rest) := by
      rw [hh']
      exact hw₁.add hfree rfl
    refine hw₂.perm ?_
    have hp : [head, dlist, self].Perm [self, dlist, head] := List.reverse_perm [self, dlist, head]
    exact hp.append_right rest
  · rw [hh']
    have hne : ∀ y ∉ [head, dlist], y ≠ head ∧ y ≠ dlist := by simp
    refine ⟨fun y hy => ?_, fun y hy => ?_, fun _ _ => rfl, fun y hy => ?_⟩
    · exact Function.update_of_ne (hne y hy).1 _ _
    · exact Function.update_of_ne (hne y hy).1 _ _
    · exact (Function.update_of_ne (hne y hy).1 _ _).trans (Function.update_of_ne (hne y hy).2 _ _)

/-- A push allocates one cell and changes the list only. -/
lemma pushValue_ends (k : Kind) (hm : malloc.Succeeds) (hb : {y | base y = true}.Finite)
    (hh : Holding L h o xs as) (hw : Owns base h (o.cells xs ++ rest)) (a : α) :
    ∃ h' x, (k.pushValue L malloc h o a).Ends (.ok (h', 0)) ∧
      Holding L h' o (k.insert x xs) (k.insert a as) ∧
      Owns base h' (o.cells (k.insert x xs) ++ rest) ∧
      Heap.Frame (x :: o.head :: xs) h h' ∧ h.live x = false := by
  obtain ⟨x, hx, hfree⟩ := hm h.live (hw.finite hb)
  have hsize : L.size ≤ (L.bytes a).length := (L.length_bytes a).ge
  have hl := hh.holds
  have hnot := hl.notMem hfree
  -- the cell goes behind the head, or in front of it
  obtain ⟨p, q, hp, hq, hends⟩ : ∃ p q, p ∈ o.head :: xs ∧ q ∈ o.head :: xs ∧
      (k.push h o.info (some x) (L.bytes a) L.size).Ends
        (.ok (inserted h x (h.mem.links.spliceIn x p q) ((L.bytes a).take L.size), 0)) := by
    cases k with
    | stack =>
        exact ⟨_, _, List.mem_cons_self, hl.ring.next_mem_cons List.mem_cons_self,
          (dlistAdd_ends hl hfree hsize).bind (Comp.ends_pure.2 rfl)⟩
    | queue =>
        exact ⟨_, _, hl.ring.prev_mem_cons List.mem_cons_self, List.mem_cons_self,
          (dlistAddTail_ends hl hfree hsize).bind (Comp.ends_pure.2 rfl)⟩
  obtain ⟨h', hends', hl', hmap⟩ := k.push_ends hl hfree hsize
  obtain ⟨rfl, -⟩ := Prod.mk.inj (Except.ok.inj (hends'.unique hends))
  refine ⟨_, x, ?_, ⟨hl', ?_⟩, ?_, frame_spliced hp hq _, hfree⟩
  · rw [pushValue, hx]
    exact hends
  · rw [hmap, hh.values, ← L.length_bytes a, List.take_length]
    cases k <;> simp [insert]
  · refine (hw.add (x := x) hfree rfl).perm ?_
    rw [← List.cons_append]
    refine List.Perm.append_right rest ?_
    have hcons := (k.insert_perm x xs).symm
    have hmiddle : (x :: o.cells xs).Perm (o.self :: o.dlist :: o.head :: x :: xs) :=
      (@List.perm_middle _ x [o.self, o.dlist, o.head] xs).symm
    exact hmiddle.trans (((hcons.cons _).cons _).cons _)

lemma topValue_nil (k : Kind) (hh : Holding L h o xs []) (dest : α) :
    (k.topValue L h o dest).Ends (.ok (dest, -1)) := by
  have hnil : xs = [] := List.map_eq_nil_iff.1 hh.values
  subst hnil
  have htop := top_nil hh.holds (L.bytes dest) L.size
  rw [← k.top_eq] at htop
  exact htop.bind (Comp.ends_pure.2 (by rw [L.value_bytes]))

lemma popValue_nil (k : Kind) (hh : Holding L h o xs []) (dest : α) :
    (k.popValue L h o dest).Ends (.ok (h, dest, -1)) := by
  have hnil : xs = [] := List.map_eq_nil_iff.1 hh.values
  subst hnil
  have hpop := pop_nil hh.holds (L.bytes dest) L.size
  rw [← k.pop_eq] at hpop
  exact hpop.bind (Comp.ends_pure.2 (by rw [L.value_bytes]))

omit [DecidableEq ι] in
/-- What is read is the first value. -/
lemma value_copied (hx : h.mem.data x = L.bytes a) (dest : α) :
    L.value (h.mem.data x ++ (L.bytes dest).drop L.size) = a := by
  have hdrop : (L.bytes dest).drop L.size = [] := by
    rw [← L.length_bytes dest, List.drop_length]
  rw [hdrop, List.append_nil, hx, L.value_bytes]

omit [DecidableEq ι] in
lemma exists_first (hh : Holding L h o xs (a :: as)) : ∃ x ys, xs = x :: ys ∧
    h.mem.data x = L.bytes a ∧ ys.map h.mem.data = as.map L.bytes := by
  have hvalues := hh.values
  cases xs with
  | nil => simp at hvalues
  | cons x ys =>
      obtain ⟨hx, hys⟩ := List.cons.inj hvalues
      exact ⟨x, ys, rfl, hx, hys⟩

lemma topValue_cons (k : Kind) (hh : Holding L h o xs (a :: as)) (dest : α) :
    (k.topValue L h o dest).Ends (.ok (a, 0)) := by
  obtain ⟨x, ys, rfl, hx, -⟩ := exists_first hh
  have hlen : (h.mem.data x).length = L.size := by rw [hx, L.length_bytes]
  have htop := top_cons hh.holds hlen (L.length_bytes dest).ge
  rw [← k.top_eq] at htop
  exact htop.bind (Comp.ends_pure.2 (by rw [value_copied hx]))

/-- A pop frees one cell and changes the list only. -/
lemma popValue_cons (k : Kind) (hh : Holding L h o xs (a :: as))
    (hw : Owns base h (o.cells xs ++ rest)) (dest : α) :
    ∃ h' ys, (k.popValue L h o dest).Ends (.ok (h', a, 0)) ∧ Holding L h' o ys as ∧
      Owns base h' (o.cells ys ++ rest) ∧ Heap.Frame (o.head :: xs) h h' := by
  obtain ⟨x, ys, rfl, hx, hys⟩ := exists_first hh
  have hlen : (h.mem.data x).length = L.size := by rw [hx, L.length_bytes]
  have hl : h.Holds o.info.dlist.head ([] ++ x :: ys) := hh.holds
  have hpop : (k.pop h o.info (L.bytes dest) L.size).Ends
      (.ok (deleted h x, h.mem.data x ++ (L.bytes dest).drop L.size, 0)) := by
    rw [k.pop_eq]
    refine (top_cons hh.holds hlen (L.length_bytes dest).ge).bind ?_
    rw [if_neg (by simp)]
    refine Heap.readNext_bind hl.live_head ?_
    rw [hl.ring.next_head]
    exact (dlistDel_eq hl).bind (Comp.ends_pure.2 rfl)
  refine ⟨_, ys, hpop.bind (Comp.ends_pure.2 (by rw [value_copied hx])),
    ⟨holds_deleted_self hl, hys⟩, ?_, frame_deleted hl⟩
  refine Owns.remove (x := x) (h := h) (hw.perm ?_) rfl
  exact @List.perm_middle _ x [o.self, o.dlist, o.head] (ys ++ rest)

lemma isEmpty_ends (k : Kind) (hh : Holding L h o xs as) :
    (k.isEmpty h o.info).Ends (.ok (if as = [] then 1 else 0)) := by
  have hiff : xs = [] ↔ as = [] := by
    rw [← List.map_eq_nil_iff (f := h.mem.data), hh.values, List.map_eq_nil_iff]
  rw [k.isEmpty_eq]
  have hends := dlistIsEmpty_ends hh.holds
  simpa only [hiff] using hends

end Kind

/-- Destroying an object frees its cells, and only its structure is left. -/
lemma destroy_ends (hh : Holding L h o xs as) (hw : Owns base h (o.cells xs ++ rest)) :
    ∃ h', (destroy h o).Ends (.ok h') ∧ Owns base h' (o.self :: rest) ∧
      Heap.Frame (o.dlist :: o.head :: xs) h h' := by
  obtain ⟨h₁, hends, hlive, hframe⟩ := dlistDestroy_frees hh.holds
  -- the cells of the list are not those of the rest
  have hw₁ : Owns base h₁ (o.dlist :: o.self :: rest) := by
    have hw' : Owns base h ((o.head :: xs) ++ (o.dlist :: o.self :: rest)) := by
      refine hw.perm ?_
      refine (@List.perm_append_comm _ [o.self, o.dlist] ((o.head :: xs) ++ rest)).trans ?_
      rw [List.append_assoc]
      refine List.Perm.append_left _ ?_
      refine List.perm_append_comm.trans ?_
      exact List.Perm.swap o.dlist o.self rest
    obtain ⟨-, hnodup, hdisj⟩ := List.nodup_append'.1 hw'.nodup
    refine ⟨hnodup, fun y hy => hw'.fresh y (List.mem_append_right _ hy), fun y => ?_⟩
    have hmem : y ∈ xs ++ [o.info.dlist.head] ↔ y ∈ o.head :: xs :=
      (List.perm_append_singleton o.head xs).mem_iff
    rw [hlive, freed, Bool.and_eq_true, decide_eq_true_eq, hmem, hw'.live y, List.mem_append]
    constructor
    · rintro ⟨hb | hy | hy, hnot⟩
      · exact Or.inl hb
      · exact absurd hy hnot
      · exact Or.inr hy
    · rintro (hb | hy)
      · refine ⟨Or.inl hb, fun hm => ?_⟩
        have hfresh := hw'.fresh y (List.mem_append_left _ hm)
        simp [hb] at hfresh
      · exact ⟨Or.inr (Or.inr hy), fun hm => hdisj hm hy⟩
  obtain ⟨h₂, hfree, hw₂, hframe₂⟩ := hw₁.free_ends
  refine ⟨h₂, hends.bind hfree, hw₂, ?_⟩
  exact (hframe.mono (by simp [Object.info])).trans (hframe₂.mono (by simp))

/-! ### Made, used and destroyed -/

/-- What was in use from the beginning is as it was. -/
def Untouched (base : ι → Bool) (h₀ h : Store ι β) : Prop :=
  ∀ y, base y = true → h.mem.links.next y = h₀.mem.links.next y ∧
    h.mem.links.prev y = h₀.mem.links.prev y ∧ h.mem.data y = h₀.mem.data y

omit [DecidableEq ι] in
lemma Untouched.frame {h₀ : Store ι β} (hu : Untouched base h₀ h) (hf : Heap.Frame S h h')
    (hS : ∀ y ∈ S, base y = false) : Untouched base h₀ h' := by
  intro y hy
  have hnot : y ∉ S := fun hm => by simp [hS y hm] at hy
  obtain ⟨hnext, hprev, hdata⟩ := hu y hy
  exact ⟨(hf.next y hnot).trans hnext, (hf.prev y hnot).trans hprev, (hf.data y hnot).trans hdata⟩

/-- A call through the function pointers, on variables of type `α`. -/
inductive ValueCall (α : Type) where
  | push (a : α)
  | top (dest : α)
  | pop (dest : α)
  | isEmpty
deriving DecidableEq

/-- What a call returns, and the variable `dest` behind it. -/
inductive ValueResult (α : Type) where
  | code (ret : ℤ)
  | copied (dest : α) (ret : ℤ)
deriving DecidableEq

namespace Kind

def valueCall (k : Kind) (L : Layout α β) (malloc : Malloc ι) (o : Object ι) (c : ValueCall α)
    (h : Store ι β) : Comp MemFault (Store ι β × ValueResult α) :=
  match c with
  | .push a => do
    let r ← k.pushValue L malloc h o a
    pure (r.1, .code r.2)
  | .top dest => do
    let r ← k.topValue L h o dest
    pure (h, .copied r.1 r.2)
  | .pop dest => do
    let r ← k.popValue L h o dest
    pure (r.1, .copied r.2.1 r.2.2)
  | .isEmpty => do
    let r ← k.isEmpty h o.info
    pure (h, .code r)

/-- The values from the next one to be taken off, behind a call, and what the call gives. -/
def valueSpec (k : Kind) (c : ValueCall α) (as : List α) : List α × ValueResult α :=
  match c, as with
  | .push a, as => (k.insert a as, .code 0)
  | .top dest, [] => ([], .copied dest (-1))
  | .top _, a :: as => (a :: as, .copied a 0)
  | .pop dest, [] => ([], .copied dest (-1))
  | .pop _, a :: as => (as, .copied a 0)
  | .isEmpty, [] => ([], .code 1)
  | .isEmpty, a :: as => (a :: as, .code 0)

/-- A `stack_info` or `queue_info` is allocated and initialised. -/
def create (k : Kind) (malloc : Malloc ι) (h : Store ι β) :
    Comp MemFault (Store ι β × Object ι) := do
  let r ← alloc malloc h
  k.initialise malloc r.1 r.2

end Kind

/-- The `stack_info` or `queue_info` is destroyed and freed. -/
def release (h : Store ι β) (o : Object ι) : Comp MemFault (Store ι β) := do
  let h ← destroy h o
  h.free o.self

/-- A stack or queue is made, used, and destroyed. -/
def Kind.use (k : Kind) (L : Layout α β) (malloc : Malloc ι) (cs : List (ValueCall α))
    (h : Store ι β) : Comp MemFault (Store ι β × List (ValueResult α)) := do
  let r ← k.create malloc h
  let s ← Calls.calls (k.valueCall L malloc r.2) cs r.1
  let h ← release s.1 r.2
  pure (h, s.2)

/-- The object holds the values, besides it nothing is allocated that was not there at first, and
what was there is untouched. -/
def InUse (L : Layout α β) (h₀ : Store ι β) (o : Object ι) (h : Store ι β) (as : List α) : Prop :=
  ∃ xs, Holding L h o xs as ∧ Owns h₀.live h (o.cells xs ++ []) ∧ Untouched h₀.live h₀ h

omit [DecidableEq ι] in
/-- The cells of the list are new. -/
lemma Owns.fresh_list (hw : Owns base h (o.cells xs ++ rest)) :
    ∀ y ∈ o.dlist :: o.head :: xs, base y = false := fun y hy =>
  hw.fresh y (List.mem_append_left _ (List.mem_cons_of_mem _ hy))

omit [DecidableEq ι] in
/-- What was not allocated was not there at first. -/
lemma Owns.fresh_of_free (hw : Owns base h cells) (hx : h.live x = false) : base x = false := by
  by_contra hne
  have hlive := (hw.live x).2 (Or.inl (by simpa using hne))
  simp [hx] at hlive

namespace InUse

variable {h₀ : Store ι β}

lemma create (k : Kind) (L : Layout α β) (hm : malloc.Succeeds) (h₀ : Store ι β)
    (hb : {y | h₀.live y = true}.Finite) :
    ∃ h o, (k.create malloc h₀).Ends (.ok (h, o)) ∧ InUse L h₀ o h [] := by
  obtain ⟨self, -, halloc, hw₁⟩ := alloc_ends hm (Owns.self h₀) hb
  obtain ⟨h, o, hinit, rfl, hh, hw, hf⟩ := k.initialise_ends L hm hb hw₁
  have hu : Untouched h₀.live h₀ (h₀.malloc o.self) := fun y _ => ⟨rfl, rfl, rfl⟩
  refine ⟨h, o, halloc.bind hinit, [], hh, hw, hu.frame hf fun y hy => hw.fresh_list y ?_⟩
  rcases List.mem_cons.1 hy with rfl | hy
  · simp
  · simp [List.mem_singleton.1 hy]

lemma push (hu : InUse L h₀ o h as) (hm : malloc.Succeeds) (hb : {y | h₀.live y = true}.Finite)
    (k : Kind) (a : α) : ∃ h', (k.pushValue L malloc h o a).Ends (.ok (h', 0)) ∧
      InUse L h₀ o h' (k.insert a as) := by
  obtain ⟨xs, hh, hw, hu⟩ := hu
  obtain ⟨h', x, hends, hh', hw', hf, hx⟩ := k.pushValue_ends hm hb hh hw a
  refine ⟨h', hends, _, hh', hw', hu.frame hf fun y hy => ?_⟩
  rcases List.mem_cons.1 hy with rfl | hy
  · exact hw.fresh_of_free hx
  · exact hw.fresh_list y (List.mem_cons_of_mem _ hy)

omit [DecidableEq ι] in
lemma holding (hu : InUse L h₀ o h as) : ∃ xs, Holding L h o xs as := by
  obtain ⟨xs, hh, -⟩ := hu
  exact ⟨xs, hh⟩

lemma pop (hu : InUse L h₀ o h (a :: as)) (k : Kind) (dest : α) :
    ∃ h', (k.popValue L h o dest).Ends (.ok (h', a, 0)) ∧ InUse L h₀ o h' as := by
  obtain ⟨xs, hh, hw, hu⟩ := hu
  obtain ⟨h', ys, hends, hh', hw', hf⟩ := k.popValue_cons hh hw dest
  refine ⟨h', hends, ys, hh', hw', hu.frame hf fun y hy => ?_⟩
  exact hw.fresh_list y (List.mem_cons_of_mem _ hy)

lemma isEmpty (hu : InUse L h₀ o h as) (k : Kind) :
    (k.isEmpty h o.info).Ends (.ok (if as = [] then 1 else 0)) := by
  obtain ⟨xs, hh⟩ := hu.holding
  exact k.isEmpty_ends hh

lemma release (hu : InUse L h₀ o h as) : ∃ h', (release h o).Ends (.ok h') ∧
    h'.live = h₀.live ∧ Untouched h₀.live h₀ h' := by
  obtain ⟨xs, hh, hw, hu⟩ := hu
  obtain ⟨h₁, hdestroy, hw₁, hf₁⟩ := destroy_ends hh hw
  obtain ⟨h₂, hfree, hw₂, hf₂⟩ := hw₁.free_ends
  refine ⟨h₂, hdestroy.bind hfree, hw₂.live_eq, (hu.frame hf₁ hw.fresh_list).frame hf₂ ?_⟩
  exact fun y hy => hw₁.fresh y (by simpa using hy)

end InUse

/-- Every call does to the memory what it does to the values. -/
lemma valueCall_refines (k : Kind) (L : Layout α β) (hm : malloc.Succeeds) (h₀ : Store ι β)
    (hb : {y | h₀.live y = true}.Finite) (o : Object ι) :
    Calls.Refines (k.valueCall L malloc o) (fun _ _ => True) k.valueSpec (InUse L h₀ o) := by
  rintro (a | dest | dest | _) h as hu -
  · obtain ⟨h', hends, hu'⟩ := hu.push hm hb k a
    exact ⟨h', hends.bind (Comp.ends_pure.2 rfl), hu'⟩
  · obtain ⟨xs, hh⟩ := hu.holding
    cases as with
    | nil => exact ⟨h, (k.topValue_nil hh dest).bind (Comp.ends_pure.2 rfl), hu⟩
    | cons a as => exact ⟨h, (k.topValue_cons hh dest).bind (Comp.ends_pure.2 rfl), hu⟩
  · cases as with
    | nil =>
        obtain ⟨xs, hh⟩ := hu.holding
        exact ⟨h, (k.popValue_nil hh dest).bind (Comp.ends_pure.2 rfl), hu⟩
    | cons a as =>
        obtain ⟨h', hends, hu'⟩ := hu.pop k dest
        exact ⟨h', hends.bind (Comp.ends_pure.2 rfl), hu'⟩
  · have hends := (hu.isEmpty k).bind (f := fun r => pure (h, (.code r : ValueResult α)))
      (Comp.ends_pure.2 rfl)
    cases as with
    | nil => exact ⟨h, hends, hu⟩
    | cons a as => exact ⟨h, hends, hu⟩

/-- **No stack and no queue leaks.**  One that is made, used by any sequence of calls on values of
one type, and destroyed, gives what the sequence of the values gives, and reaches no cell that is
not allocated, if `malloc` always succeeds.  In the end the same addresses are allocated as in the
beginning, and what is in them is as it was. -/
theorem use_restores (k : Kind) (L : Layout α β) (hm : malloc.Succeeds) (h : Store ι β)
    (hb : {y | h.live y = true}.Finite) (cs : List (ValueCall α)) :
    ∃ h', (k.use L malloc cs h).Ends (.ok (h', (Calls.expected k.valueSpec cs []).2)) ∧
      h'.live = h.live ∧ Untouched h.live h h' := by
  obtain ⟨h₁, o, hcreate, hu₁⟩ := InUse.create k L hm h hb
  have hprovided : ∀ cs h, Calls.Provided (k.valueCall L malloc o) (fun _ _ => True) cs h := by
    intro cs
    induction cs with
    | nil => exact fun _ => trivial
    | cons c cs ih => exact fun _ => ⟨trivial, fun r _ => ih r.1⟩
  obtain ⟨h₂, hcalls, hu₂⟩ := (valueCall_refines k L hm h hb o).calls cs hu₁ (hprovided cs h₁)
  obtain ⟨h₃, hrelease, hlive, hu₃⟩ := hu₂.release
  refine ⟨h₃, ?_, hlive, hu₃⟩
  exact hcreate.bind (hcalls.bind (hrelease.bind (Comp.ends_pure.2 rfl)))

omit [DecidableEq ι] in
/-- Where there is always another address, `malloc` can succeed. -/
lemma exists_malloc (ι : Type) [Infinite ι] : ∃ malloc : Malloc ι, malloc.Succeeds := by
  classical
  refine ⟨fun live => if hl : ∃ x, live x = false then some hl.choose else none,
    fun live hfin => ?_⟩
  obtain ⟨x, hx⟩ := hfin.exists_notMem
  have hl : ∃ x, live x = false := ⟨x, by simpa using hx⟩
  exact ⟨hl.choose, dif_pos hl, hl.choose_spec⟩

/-- One byte for a value. -/
def Layout.single (α : Type) [Inhabited α] : Layout α α where
  size := 1
  bytes a := [a]
  value bs := bs.headD default
  length_bytes _ := rfl
  value_bytes _ := rfl

/-- A queue of two letters, next to an address that is in use. -/
theorem use_restores_letters : ∃ (malloc : Malloc ℕ) (h' : Store ℕ Char),
    (Kind.queue.use (Layout.single Char) malloc [.push 'a', .push 'b', .pop 'x', .isEmpty]
      ⟨⟨⟨id, id⟩, fun _ => []⟩, fun y => y == 0⟩).Ends
        (.ok (h', [.code 0, .code 0, .copied 'a' 0, .code 0])) ∧
      h'.live = fun y => y == 0 := by
  obtain ⟨malloc, hm⟩ := exists_malloc ℕ
  obtain ⟨h', hends, hlive, -⟩ := use_restores .queue (Layout.single Char) hm
    ⟨⟨⟨id, id⟩, fun _ => []⟩, fun y => y == 0⟩ (by simp)
    [.push 'a', .push 'b', .pop 'x', .isEmpty]
  exact ⟨malloc, h', hends, hlive⟩

/-! ### Two in one memory -/

section Pair

variable {γ : Type} {L' : Layout γ β} {h₀ : Store ι β} {o' : Object ι} {cs : List γ}

/-- Two objects hold values, each of its type; besides them nothing is allocated that was not there
at first, and what was there is untouched. -/
def Pair (L : Layout α β) (L' : Layout γ β) (h₀ : Store ι β) (o o' : Object ι) (h : Store ι β)
    (as : List α) (cs : List γ) : Prop :=
  ∃ xs ys, Holding L h o xs as ∧ Holding L' h o' ys cs ∧
    Owns h₀.live h (o.cells xs ++ o'.cells ys) ∧ Untouched h₀.live h₀ h

namespace Pair

omit [DecidableEq ι] in
lemma symm (hp : Pair L L' h₀ o o' h as cs) : Pair L' L h₀ o' o h cs as := by
  obtain ⟨xs, ys, hh, hh', hw, hu⟩ := hp
  exact ⟨ys, xs, hh', hh, hw.perm List.perm_append_comm, hu⟩

omit [DecidableEq ι] in
/-- The cells of the one are not cells of the other. -/
lemma notMem {ys : List ι} (hw : Owns base h (o.cells xs ++ o'.cells ys)) :
    ∀ y ∈ o'.head :: ys, y ∉ o.head :: xs := by
  intro y hy hy'
  obtain ⟨-, -, hdisj⟩ := List.nodup_append'.1 hw.nodup
  exact hdisj (List.mem_cons_of_mem _ (List.mem_cons_of_mem _ hy'))
    (List.mem_cons_of_mem _ (List.mem_cons_of_mem _ hy))

lemma push (hp : Pair L L' h₀ o o' h as cs) (hm : malloc.Succeeds)
    (hb : {y | h₀.live y = true}.Finite) (k : Kind) (a : α) :
    ∃ h', (k.pushValue L malloc h o a).Ends (.ok (h', 0)) ∧
      Pair L L' h₀ o o' h' (k.insert a as) cs := by
  obtain ⟨xs, ys, hh, hh', hw, hu⟩ := hp
  obtain ⟨h', x, hends, hheld, hw', hf, hx⟩ := k.pushValue_ends hm hb hh hw a
  refine ⟨h', hends, _, ys, hheld, hh'.frame hf fun y hy => ?_, hw', hu.frame hf fun y hy => ?_⟩
  · rw [List.mem_cons, not_or]
    refine ⟨fun he => ?_, notMem hw y hy⟩
    have hlive := hh'.holds.live y hy
    simp [he, hx] at hlive
  · rcases List.mem_cons.1 hy with rfl | hy
    · exact hw.fresh_of_free hx
    · exact hw.fresh_list y (List.mem_cons_of_mem _ hy)

omit [DecidableEq ι] in
lemma holding (hp : Pair L L' h₀ o o' h as cs) : ∃ xs, Holding L h o xs as := by
  obtain ⟨xs, -, hh, -⟩ := hp
  exact ⟨xs, hh⟩

lemma pop (hp : Pair L L' h₀ o o' h (a :: as) cs) (k : Kind) (dest : α) :
    ∃ h', (k.popValue L h o dest).Ends (.ok (h', a, 0)) ∧ Pair L L' h₀ o o' h' as cs := by
  obtain ⟨xs, ys, hh, hh', hw, hu⟩ := hp
  obtain ⟨h', zs, hends, hheld, hw', hf⟩ := k.popValue_cons hh hw dest
  refine ⟨h', hends, zs, ys, hheld, hh'.frame hf (notMem hw), hw', hu.frame hf fun y hy => ?_⟩
  exact hw.fresh_list y (List.mem_cons_of_mem _ hy)

end Pair

end Pair

end Dlist

end DemoClass
