import DemoClass.KernelList.Heads
import DemoClass.Lib.Counting

/-!
# Hash tables (`hashtable.c`)

A hash table is an array of list heads; a node is in the list of the bucket its hash
value gives.  The index of the loops over the buckets is an `int`, which overflows where a
table has too many of them.  `hash_find` keeps the node it is at in a static variable, `cur`, from
one call to the next: it is an argument and a result here, and the nodes given to
`hash_cmp` on the way are part of the result.
-/

namespace DemoClass

namespace HashTable

open Links

inductive Fault where
  | overflow
deriving DecidableEq, Repr

/-- The indices of type `int` are below. -/
def intLimit : ℕ := 2147483648

/-- `struct hashtable`.  It has at least one bucket (the remainder by `nmemb` traps
otherwise), and the list heads of an array are distinct. -/
structure Hashtable (ι : Type) where
  /-- `info->table + i` -/
  table : ℕ → ι
  nmemb : ℕ
  hash : ι → ℕ
  hashCmp : ι → ι → Bool
  pos : 0 < nmemb
  inj : ∀ i < nmemb, ∀ j < nmemb, table i = table j → i = j

variable {ι : Type}

namespace Hashtable

/-- `info->table + v`, for the hash value `v` of the node. -/
def headOf (info : Hashtable ι) (node : ι) : ι := info.table (info.hash node % info.nmemb)

/-- The list heads of the table. -/
def heads (info : Hashtable ι) : Set ι := {h | ∃ i < info.nmemb, info.table i = h}

lemma headOf_mem (info : Hashtable ι) (x : ι) : info.headOf x ∈ info.heads :=
  ⟨_, Nat.mod_lt _ info.pos, rfl⟩

end Hashtable

/-- What a call of `hash_find` returns, where it leaves `cur`, and the nodes it gave
to `hash_cmp`. -/
structure Found (ι : Type) where
  ret : Option ι
  cur : Option ι
  compared : List ι
  deriving DecidableEq, Repr

variable [DecidableEq ι]

/-- The statement under `list_for_each_continue` in `hash_find`. -/
def hashFindBody (info : Hashtable ι) (key cur : ι) (compared : List ι) :
    Comp Fault (List ι ⊕ (ι × List ι)) :=
  if info.hashCmp cur key then pure (.inr (cur, compared ++ [cur]))
  else pure (.inl (compared ++ [cur]))

/-- Where `hash_find` continues after. -/
def hashFindStart (info : Hashtable ι) (key : ι) : Option ι → ι × List ι
  | none => (info.headOf key, [])
  | some cur => (if info.hashCmp cur key then cur else info.headOf key, [cur])

/-- `hash_find` -/
def hashFind (info : Hashtable ι) (l : Links ι) (cur : Option ι) (key : ι) :
    Comp Fault (Found ι) := do
  let (cur, compared) := hashFindStart info key cur
  match ← listForEachContinue (fun _ => l) (hashFindBody info key) cur (info.headOf key)
    compared with
  | .inl compared => pure ⟨none, some (info.headOf key), compared⟩
  | .inr (cur, compared) => pure ⟨some cur, some cur, compared⟩

/-- `hash_push` -/
def hashPush (info : Hashtable ι) (l : Links ι) (node : ι) : Links ι :=
  l.listAddTail (info.headOf node) node

/-- A loop over the buckets that is not left early. -/
def eachBucket (info : Hashtable ι) (body : ι → Links ι → Comp Fault (Links ι)) (l : Links ι) :
    Comp Fault (Links ι) := do
  match ← Comp.forTo intLimit .overflow info.nmemb
    (fun i l => do return (.inl (← body (info.table i) l) : Links ι ⊕ Empty)) l with
  | .inl l => pure l
  | .inr e => nomatch e

/-- The loop of `hashtable_init`. -/
def hashtableInit (info : Hashtable ι) (l : Links ι) : Comp Fault (Links ι) :=
  eachBucket info (fun head l => pure (l.listHeadInit head)) l

/-- One round of the inner loop of `hashtable_destroy`. -/
def hashtableDestroyBody (head : ι) (l : Links ι) : Comp Fault (Links ι ⊕ Links ι) :=
  if l.listIsEmpty head then pure (.inr l) else pure (.inl (l.listDelInit (l.next head)))

/-- `hashtable_destroy` -/
def hashtableDestroy (info : Hashtable ι) (l : Links ι) : Comp Fault (Links ι) :=
  eachBucket info (fun head l => Comp.loop (hashtableDestroyBody head) l) l

omit [DecidableEq ι] in
/-- The calls before a call of a longer run. -/
lemma concat_eq_append_cons {α : Type} {calls pre post : List α} {last call : α}
    (h : calls ++ [last] = pre ++ call :: post) :
    (calls = pre ∧ last = call) ∨ ∃ post', calls = pre ++ call :: post' := by
  rcases List.eq_nil_or_concat post with rfl | ⟨post', b, rfl⟩
  · obtain ⟨hpre, hlast⟩ := List.append_inj' h rfl
    exact Or.inl ⟨hpre, by simpa using hlast⟩
  · have h' : calls ++ [last] = (pre ++ call :: post') ++ [b] := by simpa using h
    exact Or.inr ⟨post', (List.append_inj' h' rfl).1⟩

/-! ### The nodes of a table -/

/-- The nodes of a bucket, when `pushed` are the nodes of the table. -/
def Hashtable.seq (info : Hashtable ι) (pushed : List ι) (h : ι) : List ι :=
  pushed.filter fun x => info.headOf x = h

variable {info : Hashtable ι} {l : Links ι} {pushed : List ι} {x h : ι}

lemma Hashtable.mem_seq : x ∈ info.seq pushed h ↔ x ∈ pushed ∧ info.headOf x = h := by
  simp [Hashtable.seq]

/-- A node outside the table is outside its lists. -/
lemma Hashtable.outside (hh : x ∉ info.heads) (hx : x ∉ pushed) :
    Outside info.heads (info.seq pushed) x := by
  intro h hmem hx'
  rcases List.mem_cons.1 hx' with rfl | hx'
  · exact hh hmem
  · exact hx (Hashtable.mem_seq.1 hx').1

omit [DecidableEq ι] in
/-- `inv` speaks of the index of the next bucket. -/
lemma eachBucket_ends {body : ι → Links ι → Comp Fault (Links ι)} (inv : ℕ → Links ι → Prop)
    (hn : info.nmemb < intLimit) (hbody : ∀ i < info.nmemb, ∀ l, inv i l →
      ∃ l', (body (info.table i) l).Ends (.ok l') ∧ inv (i + 1) l') (hinv : inv 0 l) :
    ∃ l', (eachBucket info body l).Ends (.ok l') ∧ inv info.nmemb l' := by
  obtain ⟨l', hends, hl'⟩ : ∃ l', (Comp.forTo intLimit Fault.overflow info.nmemb (fun i l => do
      return (.inl (← body (info.table i) l) : Links ι ⊕ Empty)) l).Ends (.ok (.inl l')) ∧
        inv info.nmemb l' := by
    refine Comp.forTo_ends inv hn (fun i hi l₁ hl₁ => ?_) hinv
    obtain ⟨l₂, hends, hl₂⟩ := hbody i hi l₁ hl₁
    exact ⟨l₂, hends.bind (Comp.ends_pure.2 rfl), hl₂⟩
  exact ⟨l', hends.bind (Comp.ends_pure.2 rfl), hl'⟩

/-- `hashtable_init` initialises the heads one after the other. -/
lemma hashtableInit_ends (hn : info.nmemb < intLimit) (l : Links ι) :
    (hashtableInit info l).Ends (.ok (l.initHeads ((List.range info.nmemb).map info.table))) := by
  obtain ⟨l', hends, rfl⟩ : ∃ l', (hashtableInit info l).Ends (.ok l') ∧
      l' = l.initHeads ((List.range info.nmemb).map info.table) := by
    refine eachBucket_ends (fun i l' => l' = l.initHeads ((List.range i).map info.table)) hn ?_ rfl
    rintro i hi l' rfl
    refine ⟨_, Comp.ends_pure.2 rfl, ?_⟩
    simp [List.range_succ, Links.initHeads]
  exact hends

/-- With too many buckets the index overflows. -/
lemma hashtableInit_overflow (hle : intLimit ≤ info.nmemb) (l : Links ι) :
    (hashtableInit info l).Ends (.error .overflow) :=
  Comp.Ends.bind_fault <| Comp.forTo_overflow (by decide) hle
    (fun _ _ _ => ⟨_, Comp.ends_pure.2 rfl⟩) l

/-- `hashtable_init` makes every bucket empty. -/
lemma hashtableInit_rings {H : Set ι} {σ : ι → List ι} (hn : info.nmemb < intLimit)
    (hr : l.Rings H σ) (hx : ∀ h ∈ info.heads, Outside H σ h) :
    ∃ l' τ, (hashtableInit info l).Ends (.ok l') ∧ l'.Rings (H ∪ info.heads) τ ∧
      (∀ h ∈ info.heads, τ h = []) ∧ ∀ h ∉ info.heads, τ h = σ h := by
  have hends := hashtableInit_ends hn l
  have hnd : ((List.range info.nmemb).map info.table).Nodup := by
    refine List.nodup_range.map_on fun i hi j hj he => ?_
    exact info.inj i (List.mem_range.1 hi) j (List.mem_range.1 hj) he
  have hmem : ∀ h, h ∈ (List.range info.nmemb).map info.table ↔ h ∈ info.heads := by
    intro h
    simp [Hashtable.heads]
  have hnew := hr.newHeads hnd fun h hh => hx h ((hmem h).1 hh)
  have hheads : {h | h ∈ (List.range info.nmemb).map info.table} = info.heads := by
    ext h
    exact hmem h
  rw [hheads] at hnew
  refine ⟨_, _, hends, hnew, fun h hh => if_pos ((hmem h).2 hh), fun h hh => if_neg fun hh' => ?_⟩
  exact hh ((hmem h).1 hh')

/-- The table that `hashtable_init` leaves, alone in its memory. -/
lemma rings_of_hashtableInit {l' : Links ι} (h : (hashtableInit info l).Ends (.ok l')) :
    l'.Rings info.heads fun _ => [] := by
  by_cases hn : info.nmemb < intLimit
  · have hout : ∀ h ∈ info.heads, Outside (∅ : Set ι) (fun _ => []) h := fun _ _ _ hh => hh.elim
    obtain ⟨l₁, τ, hends, hr, hτ, -⟩ := hashtableInit_rings hn (rings_empty l fun _ => []) hout
    obtain rfl : l' = l₁ := by simpa using h.unique hends
    exact (hr.mono Set.subset_union_right).congr_seq fun h hh => (hτ h hh).symm
  · exact absurd (h.unique (hashtableInit_overflow (not_lt.1 hn) l)) (by simp)

/-- One bucket of a table that is destroyed. -/
lemma destroyBucket_ends {H : Set ι} {σ : ι → List ι} (hr : l.Rings H σ) (hh : h ∈ H) :
    ∃ l', (Comp.loop (hashtableDestroyBody h) l).Ends (.ok l') ∧
      l'.Rings H (Function.update σ h []) := by
  generalize hxs : σ h = xs
  induction xs generalizing l σ with
  | nil =>
      have hempty := (hr.ring h hh).listIsEmpty_iff.2 hxs
      refine ⟨l, Comp.Ends.loop_inr (by simp [hashtableDestroyBody, hempty]), ?_⟩
      rwa [← hxs, Function.update_eq_self]
  | cons x xs ih =>
      have hempty : ¬ l.listIsEmpty h = true := by
        rw [(hr.ring h hh).listIsEmpty_iff, hxs]
        simp
      have hnext : l.next h = x := by
        rw [(hr.ring h hh).next_head, hxs]
        rfl
      have hr' := hr.listDelInit hh (show x ∈ σ h by simp [hxs])
      obtain ⟨l', hends, hr''⟩ := ih hr' (by simp [hxs])
      refine ⟨l', Comp.Ends.loop_inl (by simp [hashtableDestroyBody, hempty, hnext]) hends, ?_⟩
      refine hr''.congr_seq fun h' hh' => ?_
      by_cases he : h' = h
      · subst he
        rw [Function.update_self, Function.update_self]
      · rw [Function.update_of_ne he, Function.update_of_ne he]
        refine (List.erase_of_not_mem fun hmem => he ?_).symm
        exact hr.head_eq hh' hh (List.mem_cons_of_mem _ hmem) (by simp [hxs])

/-- `hashtable_destroy` empties the buckets of the table and leaves the other lists
alone. -/
lemma hashtableDestroy_ends {H : Set ι} {σ : ι → List ι} (hn : info.nmemb < intLimit)
    (hr : l.Rings H σ) (hH : info.heads ⊆ H) :
    ∃ l' τ, (hashtableDestroy info l).Ends (.ok l') ∧ l'.Rings H τ ∧
      ∀ h ∉ info.heads, τ h = σ h := by
  obtain ⟨l', hends, τ, hr', hτ⟩ : ∃ l', (hashtableDestroy info l).Ends (.ok l') ∧
      ∃ τ, l'.Rings H τ ∧ ∀ h ∉ info.heads, τ h = σ h := by
    refine eachBucket_ends (fun _ l' => ∃ τ, l'.Rings H τ ∧ ∀ h ∉ info.heads, τ h = σ h) hn ?_
      ⟨σ, hr, fun _ _ => rfl⟩
    rintro i hi l₁ ⟨τ, hr₁, hτ⟩
    have hmem : info.table i ∈ info.heads := ⟨i, hi, rfl⟩
    obtain ⟨l₂, hends, hr₂⟩ := destroyBucket_ends hr₁ (hH hmem)
    refine ⟨l₂, hends, _, hr₂, fun h hh => ?_⟩
    rw [Function.update_of_ne fun he : h = info.table i => hh (he ▸ hmem), hτ h hh]
  exact ⟨l', τ, hends, hr', hτ⟩

/-- `hash_push` puts the node behind the nodes of its bucket. -/
lemma hashPush_rings {H : Set ι} {σ : ι → List ι} (hr : l.Rings H σ) (hH : info.heads ⊆ H)
    (hσ : ∀ h ∈ info.heads, σ h = info.seq pushed h) (hx : Outside H σ x) :
    (hashPush info l x).Rings H (Function.update σ (info.headOf x) (info.seq (pushed ++ [x])
      (info.headOf x))) := by
  have hs := hr.listAddTail (hH (info.headOf_mem x)) hx
  rw [hσ _ (info.headOf_mem x)] at hs
  have hseq : info.seq (pushed ++ [x]) (info.headOf x) =
      info.seq pushed (info.headOf x) ++ [x] := by
    simp [Hashtable.seq]
  rw [hseq]
  exact hs

lemma Hashtable.seq_push_of_ne (hne : h ≠ info.headOf x) :
    info.seq (pushed ++ [x]) h = info.seq pushed h := by
  simp [Hashtable.seq, Ne.symm hne]

end HashTable

end DemoClass
