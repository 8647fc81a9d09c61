import DemoClass.HashTable.HashTable
import Mathlib.Algebra.Order.Ring.Int
import Mathlib.Algebra.Order.Ring.Nat

/-!
# Where the nodes of a table are (`hashtable.c`)

`hash_for_each` goes over the buckets and over the nodes of each, and `hash_is_empty` and
`hash_is_full` over the buckets.

After any sequence of pushes a node is in the bucket of its hash value (`placement`).
`hash_is_full` returns 1 when some bucket is empty, and 0 when none is, so it never gives
the answer its name asks for (`not_fullTest`).
-/

namespace DemoClass

namespace HashTable

open Links

variable {ι σ : Type} [DecidableEq ι]

/-- The inner loop of `hash_for_each`. -/
def forEachNode (l : Links ι) (todo : ι → σ → σ) (head : ι) (s : σ) : Comp Fault (σ ⊕ Empty) :=
  listForEach (fun _ => l) (fun cur s => pure (.inl (todo cur s))) head s

/-- `hash_for_each`, where `todo` changes a state that the links are no part of. -/
def hashForEach (info : Hashtable ι) (l : Links ι) (todo : ι → σ → σ) (s : σ) :
    Comp Fault (σ ⊕ Empty) :=
  Comp.forTo intLimit .overflow info.nmemb (fun i => forEachNode l todo (info.table i)) s

/-- A loop over the buckets that returns `v` at a list head without the property, and `w` when
there is none. -/
def scanBuckets (info : Hashtable ι) (p : ι → Bool) (v w : ℤ) : Comp Fault ℤ := do
  match ← Comp.forTo intLimit .overflow info.nmemb
    (Comp.scanBody (fun i => p (info.table i)) v) () with
  | .inl _ => pure w
  | .inr v => pure v

/-- `hash_is_empty` -/
def hashIsEmpty (info : Hashtable ι) (l : Links ι) : Comp Fault ℤ :=
  scanBuckets info (fun head => l.listIsEmpty head) 0 1

/-- `hash_is_full` -/
def hashIsFull (info : Hashtable ι) (l : Links ι) : Comp Fault ℤ :=
  scanBuckets info (fun head => !l.listIsEmpty head) 1 0

/-- The links after `hashtable_init` and the pushes. -/
def pushes (info : Hashtable ι) (l : Links ι) (xs : List ι) : Comp Fault (Links ι) := do
  let l ← hashtableInit info l
  return xs.foldl (hashPush info) l

omit [DecidableEq ι] in
/-- The nodes of the bucket `i`, in the order in which they were pushed. -/
def bucket (info : Hashtable ι) (xs : List ι) (i : ℕ) : List ι :=
  xs.filter fun x => info.hash x % info.nmemb = i

omit [DecidableEq ι] in
/-- The nodes of all buckets, one bucket after the other. -/
def visited (info : Hashtable ι) (xs : List ι) : List ι :=
  (List.range info.nmemb).flatMap (bucket info xs)

/-- Different nodes, none of them a list head. -/
structure Pushable (info : Hashtable ι) (xs : List ι) : Prop where
  nodup : xs.Nodup
  notMem : ∀ x ∈ xs, x ∉ info.heads

/-! ### The buckets -/

variable {info : Hashtable ι} {l l' : Links ι} {xs : List ι} {x : ι} {i : ℕ}

omit [DecidableEq ι] in
lemma mem_bucket_iff : x ∈ bucket info xs i ↔ x ∈ xs ∧ info.hash x % info.nmemb = i := by
  simp [bucket]

omit [DecidableEq ι] in
/-- The sequence of a bucket, by its list head. -/
lemma seq_table [DecidableEq ι] (hi : i < info.nmemb) :
    info.seq xs (info.table i) = bucket info xs i := by
  refine List.filter_congr fun x _ => decide_eq_decide.2 ⟨fun h => ?_, fun h => ?_⟩
  · exact info.inj _ (Nat.mod_lt _ info.pos) i hi h
  · exact congrArg info.table h

/-- After `hashtable_init` every bucket holds what was pushed into it. -/
lemma foldl_hashPush_rings (hp : Pushable info xs) (hr : l.Rings info.heads fun _ => []) :
    (xs.foldl (hashPush info) l).Rings info.heads (info.seq xs) := by
  induction xs using List.reverseRecOn with
  | nil => exact hr
  | append_singleton xs x ih =>
      have hn := List.nodup_append.1 hp.nodup
      have hx : x ∉ xs := fun hmem => hn.2.2 x hmem x (by simp) rfl
      have hr' := ih ⟨hn.1, fun y hy => hp.notMem y (List.mem_append_left _ hy)⟩
      have hnew := hashPush_rings hr' (fun _ hmem => hmem) (fun _ _ => rfl)
        (Hashtable.outside (hp.notMem x (by simp)) hx)
      rw [List.foldl_concat]
      refine hnew.congr_seq fun h _ => ?_
      by_cases he : h = info.headOf x
      · rw [he, Function.update_self]
      · rw [Function.update_of_ne he, Hashtable.seq_push_of_ne he]

lemma rings_of_pushes (hp : Pushable info xs) (h : (pushes info l xs).Ends (.ok l')) :
    l'.Rings info.heads (info.seq xs) := by
  obtain ⟨l₁, hinit, hret⟩ := Comp.ends_bind_ok_iff.1 h
  obtain rfl : l' = xs.foldl (hashPush info) l₁ := by simpa using hret
  exact foldl_hashPush_rings hp (rings_of_hashtableInit hinit)

lemma ring_table (hr : l'.Rings info.heads (info.seq xs)) (hi : i < info.nmemb) :
    l'.Ring (info.table i) (bucket info xs i) := by
  rw [← seq_table hi]
  exact hr.ring _ ⟨i, hi, rfl⟩

lemma listIsEmpty_table (hr : l'.Rings info.heads (info.seq xs)) (hi : i < info.nmemb) :
    l'.listIsEmpty (info.table i) = true ↔ bucket info xs i = [] :=
  (ring_table hr hi).listIsEmpty_iff

omit [DecidableEq ι] in
/-- Every node pushed is in one of the buckets. -/
lemma forall_bucket_eq_nil : (∀ i < info.nmemb, bucket info xs i = []) ↔ xs = [] := by
  constructor
  · intro h
    by_contra hne
    obtain ⟨x, hx⟩ := List.exists_mem_of_ne_nil xs hne
    have hmem : x ∈ bucket info xs (info.hash x % info.nmemb) := mem_bucket_iff.2 ⟨hx, rfl⟩
    rw [h _ (Nat.mod_lt _ info.pos)] at hmem
    cases hmem
  · rintro rfl i _
    rfl

omit [DecidableEq ι] in
lemma visited_perm (hn : xs.Nodup) : (visited info xs).Perm xs := by
  refine (List.perm_ext_iff_of_nodup ?_ hn).2 fun x => ?_
  · refine List.nodup_flatMap.2 ⟨fun i _ => hn.filter _, ?_⟩
    refine List.nodup_range.imp fun {i j} hij x hx hx' => hij ?_
    exact (mem_bucket_iff.1 hx).2.symm.trans (mem_bucket_iff.1 hx').2
  · rw [visited, List.mem_flatMap]
    constructor
    · rintro ⟨i, -, hx⟩
      exact (mem_bucket_iff.1 hx).1
    · intro hx
      exact ⟨_, List.mem_range.2 (Nat.mod_lt _ info.pos), mem_bucket_iff.2 ⟨hx, rfl⟩⟩

/-! ### The loops over the buckets -/

/-- `todo` is called for the nodes of a ring, in their order. -/
lemma forEachNode_ends {head : ι} {ys : List ι} (hr : l.Ring head ys) (todo : ι → σ → σ) (s : σ) :
    (forEachNode l todo head s).Ends (.ok (.inl (ys.foldl (fun s x => todo x s) s))) := by
  rw [forEachNode, listForEach, hr.next_head]
  obtain ⟨t, hends, us, hus, rfl⟩ : ∃ t, (forEachFrom (fun _ => l.next)
      (fun cur s => (pure (.inl (todo cur s)) : Comp Fault (σ ⊕ Empty))) head (ys.headD head)
        s).Ends (.ok (.inl t)) ∧ ∃ us, ys = us ++ [] ∧ us.foldl (fun s x => todo x s) s = t := by
    refine forEachFrom_ends (fun rest t => ∃ us, ys = us ++ rest ∧
      us.foldl (fun s x => todo x s) s = t) (fun x rest t hinv => ?_) hr.head_notMem ⟨[], rfl, rfl⟩
    obtain ⟨us, hus, rfl⟩ := hinv
    refine ⟨_, Comp.ends_pure.2 rfl, (hus ▸ hr).next_mem, us ++ [x], by simp [hus], ?_⟩
    rw [List.foldl_concat]
  obtain rfl : ys = us := by simpa using hus
  exact hends

lemma hashForEach_ends (hn : info.nmemb < intLimit)
    (hr : ∀ i < info.nmemb, l.Ring (info.table i) (bucket info xs i)) (todo : ι → σ → σ) (s : σ) :
    (hashForEach info l todo s).Ends
      (.ok (.inl ((visited info xs).foldl (fun s x => todo x s) s))) := by
  obtain ⟨t, hends, rfl⟩ : ∃ t, (hashForEach info l todo s).Ends (.ok (.inl t)) ∧
      ((List.range info.nmemb).flatMap (bucket info xs)).foldl (fun s x => todo x s) s = t := by
    -- the buckets below the index are done
    refine Comp.forTo_ends (fun i t => ((List.range i).flatMap (bucket info xs)).foldl
      (fun s x => todo x s) s = t) hn (fun i hi t hinv => ?_) rfl
    refine ⟨_, forEachNode_ends (hr i hi) todo t, ?_⟩
    rw [List.range_succ, List.flatMap_append, List.flatMap_singleton, List.foldl_append, hinv]
  exact hends

omit [DecidableEq ι] in
/-- Without an overflow, the loop tells whether all list heads have the property. -/
lemma scanBuckets_ends (info : Hashtable ι) (p : ι → Bool) (v w : ℤ) :
    (scanBuckets info p v w).Ends
        (.ok (if ∀ i < info.nmemb, p (info.table i) = true then w else v)) ∨
      intLimit ≤ info.nmemb ∧ (scanBuckets info p v w).Ends (.error .overflow) := by
  by_cases hall : ∀ i < info.nmemb, p (info.table i) = true
  · rw [if_pos hall]
    rcases Comp.scan_ends_inl hall with hends | ⟨hle, hends⟩
    · exact Or.inl (hends.bind (Comp.ends_pure.2 rfl))
    · exact Or.inr ⟨hle, hends.bind_fault⟩
  · rw [if_neg hall]
    rcases Comp.scan_ends_inr hall with hends | ⟨hle, hends⟩
    · exact Or.inl (hends.bind (Comp.ends_pure.2 rfl))
    · exact Or.inr ⟨hle, hends.bind_fault⟩

lemma hashIsEmpty_ends (hn : info.nmemb < intLimit) (hr : l.Rings info.heads (info.seq xs)) :
    (hashIsEmpty info l).Ends (.ok (if xs = [] then 1 else 0)) := by
  have hiff : (∀ i < info.nmemb, l.listIsEmpty (info.table i) = true) ↔ xs = [] := by
    rw [← forall_bucket_eq_nil]
    exact forall₂_congr fun i hi => listIsEmpty_table hr hi
  rcases scanBuckets_ends info (fun head => l.listIsEmpty head) 0 1 with hends | ⟨hle, -⟩
  · rw [if_congr hiff rfl rfl] at hends
    exact hends
  · omega

/-! ### Placement -/

/-- **Placement.**  After pushes of different nodes, the list of every bucket holds the nodes
with its hash value, and no others, in the order in which they were pushed.
`hash_for_each` calls `todo` on every node once, one bucket after the other, and
`hash_is_empty` returns 1 just when nothing was pushed. -/
theorem placement (hn : info.nmemb < intLimit) (hp : Pushable info xs) (l : Links ι) :
    ∃ l', (pushes info l xs).Ends (.ok l') ∧
      (∀ i < info.nmemb, l'.Ring (info.table i) (bucket info xs i)) ∧
      (∀ x ∈ xs, ∀ i < info.nmemb, l'.Reach (info.table i) x ↔ i = info.hash x % info.nmemb) ∧
      (∀ (σ : Type) (todo : ι → σ → σ) (s : σ), (hashForEach info l' todo s).Ends
        (.ok (.inl ((visited info xs).foldl (fun s x => todo x s) s)))) ∧
      (visited info xs).Perm xs ∧ (hashIsEmpty info l').Ends (.ok (if xs = [] then 1 else 0)) := by
  obtain ⟨l', hends⟩ : ∃ l', (pushes info l xs).Ends (.ok l') :=
    ⟨_, (hashtableInit_ends hn l).bind (Comp.ends_pure.2 rfl)⟩
  have hrings := rings_of_pushes hp hends
  have hr : ∀ i < info.nmemb, l'.Ring (info.table i) (bucket info xs i) := fun i hi =>
    ring_table hrings hi
  refine ⟨l', hends, hr, fun x hx i hi => ?_, fun σ todo s => hashForEach_ends hn hr todo s,
    visited_perm hp.nodup, hashIsEmpty_ends hn hrings⟩
  have hne : x ≠ info.table i := fun he => hp.notMem x hx ⟨i, hi, he.symm⟩
  rw [(hr i hi).reach_iff, List.mem_cons, mem_bucket_iff]
  constructor
  · rintro (he | ⟨-, he⟩)
    · exact absurd he hne
    · exact he.symm
  · rintro rfl
    exact Or.inr ⟨hx, rfl⟩

/-- Two buckets, for even and for odd numbers. -/
def parity : Hashtable ℕ where
  table i := i
  nmemb := 2
  hash x := x
  hashCmp x y := x = y
  pos := Nat.two_pos
  inj _ _ _ _ h := h

lemma pushable_parity : Pushable parity [4, 3, 6] := by
  refine ⟨by decide, fun x hx hh => ?_⟩
  obtain ⟨i, hi, rfl⟩ := hh
  have hi' : i < 2 := hi
  have hx' : i = 4 ∨ i = 3 ∨ i = 6 := by simpa [parity] using hx
  omega

theorem placement_parity : ∃ l, (pushes parity ⟨id, id⟩ [4, 3, 6]).Ends (.ok l) ∧
    (∀ i < 2, l.Ring i (bucket parity [4, 3, 6] i)) ∧
      (hashForEach parity l (fun x xs => xs ++ [x]) []).Ends (.ok (.inl [4, 6, 3])) ∧
      (hashIsEmpty parity l).Ends (.ok 0) := by
  obtain ⟨l, hends, hr, -, hvisit, -, hempty⟩ := placement (by decide) pushable_parity ⟨id, id⟩
  exact ⟨l, hends, hr, hvisit (List ℕ) (fun x xs => xs ++ [x]) [], hempty⟩

/-! ### The fullness test -/

/-- After `hashtable_init` and the pushes, `hash_is_full` returns, and returns 1 just when every
bucket holds a node. -/
def FullTest (info : Hashtable ι) (l : Links ι) (xs : List ι) : Prop :=
  ∃ l' v, (pushes info l xs).Ends (.ok l') ∧ (hashIsFull info l').Ends (.ok v) ∧
    (v = 1 ↔ ∀ i < info.nmemb, bucket info xs i ≠ [])

/-- It never does, whatever was pushed into how many buckets. -/
theorem not_fullTest (hp : Pushable info xs) (l : Links ι) : ¬ FullTest info l xs := by
  rintro ⟨l', v, hpushes, hends, hv⟩
  have hr := rings_of_pushes hp hpushes
  have hiff : (∀ i < info.nmemb, (!l'.listIsEmpty (info.table i)) = true) ↔
      ∀ i < info.nmemb, bucket info xs i ≠ [] := by
    refine forall₂_congr fun i hi => ?_
    rw [Bool.not_eq_true', ← Bool.not_eq_true, listIsEmpty_table hr hi]
  rcases scanBuckets_ends info (fun head => !l'.listIsEmpty head) 1 0 with hscan | ⟨-, hscan⟩
  · -- the return values are the other way round
    rw [if_congr hiff rfl rfl] at hscan
    obtain rfl := Except.ok.inj (hends.unique hscan)
    by_cases hall : ∀ i < info.nmemb, bucket info xs i ≠ []
    · rw [if_pos hall] at hv
      exact absurd (hv.2 hall) (by decide)
    · rw [if_neg hall] at hv
      exact hall (hv.1 rfl)
  · cases hends.unique hscan

theorem not_fullTest_parity : ¬ FullTest parity ⟨id, id⟩ [4, 3, 6] :=
  not_fullTest pushable_parity ⟨id, id⟩

/-- A table into which nothing was pushed is called full, and called empty. -/
theorem full_parity_nil : ∃ l, (pushes parity ⟨id, id⟩ []).Ends (.ok l) ∧
    (hashIsFull parity l).Ends (.ok 1) ∧ (hashIsEmpty parity l).Ends (.ok 1) ∧
    ¬ ∀ i < 2, bucket parity [] i ≠ [] :=
  ⟨_, ⟨4, rfl⟩, ⟨2, rfl⟩, ⟨4, rfl⟩, fun h => h 0 (by decide) rfl⟩

end HashTable

end DemoClass
