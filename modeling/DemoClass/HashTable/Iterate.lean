import DemoClass.HashTable.Find

/-!
# Lookup as an iterator

Runs of `hash_push` and `hash_find` on one table, from `hashtable_init` on.  Asked for
the same key again and again, `hash_find` is meant to return the matching nodes in the
order in which they were pushed, then `NULL`, then the first of them again.

It does so as long as a `cur` that compares equal to the key was left there by the
find just before, for the same key, and on a node (`AllResume`).  What is in its way
is the bucket head: a find that returns `NULL` leaves `cur` on it, and the next find
gives it to `hash_cmp` (`finds_go_round`).
-/

namespace DemoClass

namespace HashTable

open Links

/-- A call of `hash_push` or `hash_find`. -/
inductive Call (ι : Type)
  | push (node : ι)
  | find (key : ι)

/-- The links of the nodes and the static variable of `hash_find`. -/
structure Tab (ι : Type) where
  links : Links ι
  cur : Option ι

/-- `hash_cmp` is an equivalence on nodes, and equal nodes hash equally. -/
structure Hashtable.EqualKeys {ι : Type} (info : Hashtable ι) : Prop where
  refl : ∀ a ∉ info.heads, info.hashCmp a a = true
  symm : ∀ a ∉ info.heads, ∀ b ∉ info.heads, info.hashCmp a b = true → info.hashCmp b a = true
  trans : ∀ a ∉ info.heads, ∀ b ∉ info.heads, ∀ c ∉ info.heads, info.hashCmp a b = true →
    info.hashCmp b c = true → info.hashCmp a c = true
  hash_eq : ∀ a ∉ info.heads, ∀ b ∉ info.heads, info.hashCmp a b = true → info.hash a = info.hash b

/-- The nodes pushed, in their order. -/
def pushedOf {ι : Type} : List (Call ι) → List ι
  | [] => []
  | .push x :: calls => x :: pushedOf calls
  | .find _ :: calls => pushedOf calls

variable {ι : Type} [DecidableEq ι]

/-- The call. -/
def Call.run (info : Hashtable ι) (s : Tab ι) : Call ι → Comp Fault (Tab ι × List (Found ι))
  | .push x => pure ({ s with links := hashPush info s.links x }, [])
  | .find key => do
    let f ← hashFind info s.links s.cur key
    pure ({ s with cur := f.cur }, [f])

/-- The calls one after the other, with what the finds among them found. -/
def run (info : Hashtable ι) (s : Tab ι) : List (Call ι) → Comp Fault (Tab ι × List (Found ι))
  | [] => pure (s, [])
  | call :: calls => do
    let (s, fs) ← call.run info s
    let (s, fs') ← run info s calls
    pure (s, fs ++ fs')

/-- The state after `hashtable_init`, with the links that it left. -/
def start (l : Links ι) : Tab ι := ⟨l, none⟩

/-- Every node is pushed once, no list head is pushed, and no list head is a key. -/
structure Fresh (info : Hashtable ι) (calls : List (Call ι)) : Prop where
  nodup : (pushedOf calls).Nodup
  pushed : ∀ x ∈ pushedOf calls, x ∉ info.heads
  keys : ∀ key, .find key ∈ calls → key ∉ info.heads

/-- A `cur` that compares equal to the key is on a node, and the call before was a
find with the same key. -/
def Resumes (info : Hashtable ι) (calls : List (Call ι)) (cur : Option ι) (key : ι) : Prop :=
  ∀ c, cur = some c → info.hashCmp c key = true →
    c ∉ info.heads ∧ ∃ key', calls.getLast? = some (.find key') ∧ info.hashCmp key' key = true

/-- This is so at every find of the run. -/
def AllResume (info : Hashtable ι) (s : Tab ι) (calls : List (Call ι)) : Prop :=
  ∀ pre key post, calls = pre ++ .find key :: post → ∀ s' fs,
    (run info s pre).Ends (.ok (s', fs)) → Resumes info pre s'.cur key

/-- The matching nodes, in the order in which they were pushed. -/
def matching (info : Hashtable ι) (calls : List (Call ι)) (key : ι) : List ι :=
  (pushedOf calls).filter (info.hashCmp · key)

/-- In every maximal run of finds with the same key, the results are the matching
nodes one after the other, then `NULL`, then the first again. -/
def GoesRound (info : Hashtable ι) (s : Tab ι) (calls : List (Call ι)) : Prop :=
  ∀ (pre : List (Call ι)) (keys : List ι) (post : List (Call ι)),
    calls = pre ++ (keys.map .find ++ post) →
    (∀ a ∈ keys, ∀ b ∈ keys, info.hashCmp a b = true) →
    (∀ key', pre.getLast? = some (.find key') → ∀ key ∈ keys, info.hashCmp key' key = false) →
    ∃ s₁ fs₁ s₂ fs₂, (run info s pre).Ends (.ok (s₁, fs₁)) ∧
      (run info s₁ (keys.map .find)).Ends (.ok (s₂, fs₂)) ∧ ∀ key ∈ keys,
        fs₂.map (·.ret) = (List.range keys.length).map fun k =>
          (matching info pre key)[k % ((matching info pre key).length + 1)]?

/-- The find with the given key, after the calls, gives only pushed nodes to
`hash_cmp`. -/
def ComparesPushed (info : Hashtable ι) (s : Tab ι) (calls : List (Call ι)) (key : ι) : Prop :=
  ∃ s' fs f, (run info s calls).Ends (.ok (s', fs)) ∧
    (hashFind info s'.links s'.cur key).Ends (.ok f) ∧ ∀ a ∈ f.compared, a ∈ pushedOf calls

/-! ### Runs -/

variable {info : Hashtable ι} {s s' s₀ : Tab ι} {calls pre post : List (Call ι)} {key : ι}
  {pushed : List ι} {l l₀ : Links ι}

omit [DecidableEq ι] in
@[simp] lemma pushedOf_append (calls calls' : List (Call ι)) :
    pushedOf (calls ++ calls') = pushedOf calls ++ pushedOf calls' := by
  induction calls with
  | nil => rfl
  | cons call calls ih => cases call <;> simp [pushedOf, ih]

omit [DecidableEq ι] in
@[simp] lemma pushedOf_finds (keys : List ι) : pushedOf (keys.map .find) = [] := by
  induction keys with
  | nil => rfl
  | cons key keys ih => simpa [pushedOf] using ih

lemma run_cons_ends {call : Call ι} {fs fs' : List (Found ι)} {s₁ s₂ : Tab ι}
    (h : (call.run info s).Ends (.ok (s₁, fs))) (h' : (run info s₁ calls).Ends (.ok (s₂, fs'))) :
    (run info s (call :: calls)).Ends (.ok (s₂, fs ++ fs')) := by
  rw [run]
  exact h.bind (h'.bind (Comp.ends_pure.2 rfl))

lemma run_append_ends {fs fs' : List (Found ι)} {s₁ s₂ : Tab ι}
    (h : (run info s pre).Ends (.ok (s₁, fs))) (h' : (run info s₁ calls).Ends (.ok (s₂, fs'))) :
    (run info s (pre ++ calls)).Ends (.ok (s₂, fs ++ fs')) := by
  induction pre generalizing s fs with
  | nil =>
      obtain ⟨rfl, rfl⟩ : s₁ = s ∧ fs = [] := by simpa [run] using h
      exact h'
  | cons call pre ih =>
      rw [run, Comp.ends_bind_ok_iff] at h
      obtain ⟨⟨s₃, fs₃⟩, h₃, h⟩ := h
      rw [Comp.ends_bind_ok_iff] at h
      obtain ⟨⟨s₄, fs₄⟩, h₄, h⟩ := h
      obtain ⟨rfl, rfl⟩ : s₁ = s₄ ∧ fs = fs₃ ++ fs₄ := by simpa using h
      rw [List.append_assoc]
      exact run_cons_ends h₃ (ih h₄)

/-- A run that goes on with a find. -/
lemma run_find_ends {fs : List (Found ι)} {f : Found ι}
    (h : (run info s₀ pre).Ends (.ok (s, fs)))
    (hf : (hashFind info s.links s.cur key).Ends (.ok f)) :
    (run info s₀ (pre ++ [.find key])).Ends (.ok ({ s with cur := f.cur }, fs ++ [f])) := by
  have hcall : (run info s [.find key]).Ends (.ok ({ s with cur := f.cur }, [f] ++ [])) :=
    run_cons_ends (hf.bind (Comp.ends_pure.2 rfl)) (Comp.ends_pure.2 rfl)
  exact run_append_ends h hcall

omit [DecidableEq ι] in
/-- The keys of finds that stand together. -/
lemma Fresh.notMem_heads (hfresh : Fresh info calls) {keys : List ι}
    (hpre : calls = pre ++ (keys.map .find ++ post)) : ∀ b ∈ keys, b ∉ info.heads := by
  intro b hb
  refine hfresh.keys b ?_
  rw [hpre]
  exact List.mem_append_right _ (List.mem_append_left _ (List.mem_map_of_mem hb))

/-- The rings of the buckets hold the nodes pushed, and `cur` is on one of them or on a
list head. -/
structure Holds (info : Hashtable ι) (s : Tab ι) (pushed : List ι) : Prop where
  rings : s.links.Rings info.heads (info.seq pushed)
  cur : ∀ c, s.cur = some c → c ∈ info.heads ∨ c ∈ pushed
  nodes : ∀ x ∈ pushed, x ∉ info.heads

lemma holds_start (h : (hashtableInit info l₀).Ends (.ok l)) : Holds info (start l) [] :=
  ⟨rings_of_hashtableInit h, by simp [start], by simp⟩

lemma Holds.push {x : ι} (h : Holds info s pushed) (hx : x ∉ pushed) (hh : x ∉ info.heads) :
    Holds info { s with links := hashPush info s.links x } (pushed ++ [x]) := by
  refine ⟨?_, fun c hc => ?_, fun y hy => ?_⟩
  · refine (hashPush_rings h.rings (fun _ hmem => hmem) (fun _ _ => rfl)
      (Hashtable.outside hh hx)).congr_seq fun h' _ => ?_
    by_cases he : h' = info.headOf x
    · subst he
      rw [Function.update_self]
    · rw [Function.update_of_ne he, Hashtable.seq_push_of_ne he]
  · rcases h.cur c hc with hc | hc
    · exact Or.inl hc
    · exact Or.inr (List.mem_append_left _ hc)
  · rcases List.mem_append.1 hy with hy | hy
    · exact h.nodes y hy
    · rwa [List.mem_singleton.1 hy]

/-- The nodes that match the key are in its bucket. -/
lemma mem_bucket {x : ι} (hinfo : info.EqualKeys) (h : Holds info s pushed)
    (hkey : key ∉ info.heads) (hx : x ∈ pushed) (hmatch : info.hashCmp x key = true) :
    x ∈ info.seq pushed (info.headOf key) := by
  refine Hashtable.mem_seq.2 ⟨hx, ?_⟩
  rw [Hashtable.headOf, hinfo.hash_eq x (h.nodes x hx) key hkey hmatch]
  rfl

lemma filter_bucket (hinfo : info.EqualKeys) (h : Holds info s pushed) (hkey : key ∉ info.heads) :
    (info.seq pushed (info.headOf key)).filter (info.hashCmp · key) =
      pushed.filter (info.hashCmp · key) := by
  rw [Hashtable.seq, List.filter_filter]
  refine List.filter_congr fun x hx => ?_
  by_cases hmatch : info.hashCmp x key = true
  · simp [hmatch, (Hashtable.mem_seq.1 (mem_bucket hinfo h hkey hx hmatch)).2]
  · simp [hmatch]

/-- One find. -/
lemma Holds.find (hinfo : info.EqualKeys) (h : Holds info s pushed) (hkey : key ∉ info.heads)
    (hr : Resumes info calls s.cur key) : ∃ f, (hashFind info s.links s.cur key).Ends (.ok f) ∧
      f.ret = Cursor.next (info.hashCmp · key) (info.seq pushed (info.headOf key)) s.cur ∧
      f.cur = some (f.ret.getD (info.headOf key)) ∧ Holds info { s with cur := f.cur } pushed ∧
      ((∀ a ∈ f.compared, a ∈ pushed) ↔ ∀ c, s.cur = some c → c ∉ info.heads) := by
  have hcur : ∀ c, s.cur = some c → info.hashCmp c key = true →
      c ∈ info.seq pushed (info.headOf key) := by
    intro c hc hmatch
    -- a cursor that matches was left on a node, which is in the bucket
    have hnode := (hr c hc hmatch).1
    exact mem_bucket hinfo h hkey ((h.cur c hc).resolve_left hnode) hmatch
  obtain ⟨f, hf, hret, hfcur, hmem, hsub⟩ :=
    hashFind_ends (h.rings.ring _ (info.headOf_mem key)) hcur
  refine ⟨f, hf, hret, hfcur, ⟨h.rings, fun c hc => ?_, h.nodes⟩, fun hp c hc hh => ?_,
    fun hnode a ha => ?_⟩
  · rw [hfcur] at hc
    obtain rfl : f.ret.getD (info.headOf key) = c := by simpa using hc
    cases hx : f.ret with
    | none => exact Or.inl (info.headOf_mem key)
    | some x =>
        have hx' := (Cursor.mem_of_next (hret.symm.trans hx)).1
        exact Or.inr (Hashtable.mem_seq.1 hx').1
  · exact h.nodes c (hp c (hmem c hc)) hh
  · rcases hsub a ha with hc | hc
    · exact (h.cur a hc).resolve_left (hnode a hc)
    · exact (Hashtable.mem_seq.1 hc).1

/-- Along a run, the rings hold the nodes pushed so far. -/
lemma holds_run (hinfo : info.EqualKeys) (hinit : (hashtableInit info l₀).Ends (.ok l))
    (hfresh : Fresh info calls) (hres : AllResume info (start l) calls)
    (hpre : calls = pre ++ post) :
    ∃ s fs, (run info (start l) pre).Ends (.ok (s, fs)) ∧ Holds info s (pushedOf pre) := by
  induction pre using List.reverseRecOn generalizing post with
  | nil => exact ⟨start l, [], Comp.ends_pure.2 rfl, holds_start hinit⟩
  | append_singleton pre call ih =>
      have hpre' : calls = pre ++ call :: post := by simpa using hpre
      obtain ⟨s, fs, hends, h⟩ := ih hpre'
      cases call with
      | push x =>
          have hn := hfresh.nodup
          rw [hpre', pushedOf_append, pushedOf] at hn
          have hx : x ∉ pushedOf pre := fun hmem =>
            (List.nodup_middle.1 hn).notMem (List.mem_append_left _ hmem)
          have hh : x ∉ info.heads := hfresh.pushed x (by simp [hpre', pushedOf])
          refine ⟨_, fs ++ ([] ++ []), run_append_ends hends
            (run_cons_ends (Comp.ends_pure.2 rfl) (Comp.ends_pure.2 rfl)), ?_⟩
          rw [pushedOf_append]
          exact h.push hx hh
      | find key =>
          have hkey : key ∉ info.heads := hfresh.keys key (by simp [hpre'])
          obtain ⟨f, hf, -, -, h', -⟩ := h.find hinfo hkey (hres pre key post hpre' s fs hends)
          refine ⟨{ s with cur := f.cur }, fs ++ [f], run_find_ends hends hf, ?_⟩
          simpa [pushedOf] using h'

omit [DecidableEq ι] in
/-- Keys that compare equal match the same nodes. -/
lemma match_congr {a key' : ι} (hinfo : info.EqualKeys) (ha : a ∉ info.heads)
    (hk : key ∉ info.heads) (hk' : key' ∉ info.heads) (h : info.hashCmp key key' = true) :
    info.hashCmp a key = info.hashCmp a key' := by
  rw [Bool.eq_iff_iff]
  constructor
  · exact fun hm => hinfo.trans a ha key hk key' hk' hm h
  · exact fun hm => hinfo.trans a ha key' hk' key hk hm (hinfo.symm key hk key' hk' h)

/-- After a find the cursor is where the next one, with a key that compares equal, expects
it on the round; when the find found nothing, that is the list head. -/
lemma Holds.onRound_succ {key' : ι} {f : Found ι} {k : ℕ} (hinfo : info.EqualKeys)
    (h : Holds info s pushed) (hkey : key ∉ info.heads) (hkey' : key' ∉ info.heads)
    (heq : info.hashCmp key key' = true)
    (hon : Cursor.OnRound (info.hashCmp · key) (info.seq pushed (info.headOf key)) k s.cur)
    (hret : f.ret = Cursor.next (info.hashCmp · key) (info.seq pushed (info.headOf key)) s.cur)
    (hcur : f.cur = some (f.ret.getD (info.headOf key)))
    (hhead : f.ret = none → info.hashCmp (info.headOf key) key' = false) :
    Cursor.OnRound (info.hashCmp · key') (info.seq pushed (info.headOf key')) (k + 1) f.cur := by
  have hn : (info.seq pushed (info.headOf key)).Nodup :=
    (List.nodup_cons.1 (h.rings.ring _ (info.headOf_mem key)).nodup).2
  have hsame : info.headOf key' = info.headOf key := by
    rw [Hashtable.headOf, Hashtable.headOf, hinfo.hash_eq key hkey key' hkey' heq]
  rw [hsame]
  refine hon.succ hn (fun a ha => ?_) (fun c hc => ?_) (fun hnone c hc => ?_)
  · exact match_congr hinfo (h.nodes a (Hashtable.mem_seq.1 ha).1) hkey hkey' heq
  · rw [hcur, hret, hc]
    rfl
  · rw [← hret] at hnone
    rw [hcur, hnone] at hc
    obtain rfl : info.headOf key = c := by simpa using hc
    exact hhead hnone

/-- Finds with the same key, one after the other, from the `k`-th result of a round
on. -/
lemma finds_ends (hinfo : info.EqualKeys) (hfresh : Fresh info calls)
    (hres : AllResume info (start l) calls) {keys ms : List ι} {fs : List (Found ι)} {k : ℕ}
    (hpre : calls = pre ++ (keys.map .find ++ post))
    (hends : (run info (start l) pre).Ends (.ok (s, fs))) (h : Holds info s pushed)
    (hsame : ∀ a ∈ keys, ∀ b ∈ keys, info.hashCmp a b = true)
    (hms : ∀ key ∈ keys, pushed.filter (info.hashCmp · key) = ms)
    (hround : ∀ key, keys.head? = some key →
      Cursor.OnRound (info.hashCmp · key) (info.seq pushed (info.headOf key)) k s.cur) :
    ∃ s' fs', (run info s (keys.map .find)).Ends (.ok (s', fs')) ∧
      fs'.map (·.ret) = (List.range' k keys.length).map fun j => ms[j % (ms.length + 1)]? := by
  induction keys generalizing pre s fs k with
  | nil => exact ⟨s, [], Comp.ends_pure.2 rfl, rfl⟩
  | cons key keys ih =>
      have hpre' : calls = pre ++ .find key :: (keys.map .find ++ post) := hpre
      have hkeys := hfresh.notMem_heads hpre
      have hkey := hkeys key List.mem_cons_self
      obtain ⟨f, hf, hret, hcur, h', -⟩ := h.find hinfo hkey (hres pre key _ hpre' s fs hends)
      have hn : (info.seq pushed (info.headOf key)).Nodup :=
        (List.nodup_cons.1 (h.rings.ring _ (info.headOf_mem key)).nodup).2
      have hbucket := (filter_bucket hinfo h hkey).trans (hms key List.mem_cons_self)
      have hon := hround key rfl
      have hrun := run_find_ends hends hf
      have hround' : ∀ key', keys.head? = some key' → Cursor.OnRound (info.hashCmp · key')
          (info.seq pushed (info.headOf key')) (k + 1) f.cur := by
        intro key' hk
        obtain ⟨keys', rfl⟩ := List.head?_eq_some_iff.1 hk
        have hmem : key' ∈ key :: key' :: keys' := by simp
        refine h.onRound_succ hinfo hkey (hkeys key' hmem) (hsame key List.mem_cons_self key' hmem)
          hon hret hcur fun hnone => ?_
        -- a list head that compared equal would not have been left by a find for this key
        have hres' := hres (pre ++ [.find key]) key' (keys'.map .find ++ post)
          (by simpa using hpre) _ _ hrun
        by_contra hmatch
        refine (hres' (info.headOf key) ?_ (by simpa using hmatch)).1 (info.headOf_mem key)
        rw [hcur, hnone]
        rfl
      obtain ⟨s', fs', hends', hrets⟩ := ih (by simpa using hpre) hrun h'
        (fun a ha b hb => hsame a (List.mem_cons_of_mem _ ha) b (List.mem_cons_of_mem _ hb))
        (fun b hb => hms b (List.mem_cons_of_mem _ hb)) hround'
      refine ⟨s', [f] ++ fs', run_cons_ends (hf.bind (Comp.ends_pure.2 rfl)) hends', ?_⟩
      -- the first result, then those of the other finds
      rw [List.length_cons, List.range'_succ, List.map_cons, ← hrets, ← hbucket,
        ← hon.next_eq hn, ← hret]
      rfl

/-- **Lookup as an iterator.**  In a run in which a `cur` that compares equal to the key
of a find was left on a node by the find before, for the same key, every call returns,
and the finds with one key go round the matching nodes.  A find gives nothing but
pushed nodes to `hash_cmp` exactly when `cur` is not on a list head. -/
theorem finds_go_round (info : Hashtable ι) (hinfo : info.EqualKeys) {l l₀ : Links ι}
    (hinit : (hashtableInit info l₀).Ends (.ok l)) (calls : List (Call ι))
    (hfresh : Fresh info calls) (hres : AllResume info (start l) calls) :
    (∃ s fs, (run info (start l) calls).Ends (.ok (s, fs))) ∧ GoesRound info (start l) calls ∧
      ∀ pre key post, calls = pre ++ .find key :: post →
        ∀ s fs, (run info (start l) pre).Ends (.ok (s, fs)) →
          (ComparesPushed info (start l) pre key ↔ ∀ c, s.cur = some c → c ∉ info.heads) := by
  refine ⟨?_, fun pre keys post hpre hsame hmax => ?_, fun pre key post hpre s fs hends => ?_⟩
  · obtain ⟨s, fs, hends, -⟩ := holds_run hinfo hinit hfresh hres (List.append_nil calls).symm
    exact ⟨s, fs, hends⟩
  · obtain ⟨s₁, fs₁, hends₁, h⟩ := holds_run hinfo hinit hfresh hres hpre
    have hkeys := hfresh.notMem_heads hpre
    have hmatching : ∀ a ∈ keys, ∀ b ∈ keys, matching info pre b = matching info pre a := by
      intro a ha b hb
      refine List.filter_congr fun x hx => ?_
      exact match_congr hinfo (h.nodes x hx) (hkeys b hb) (hkeys a ha) (hsame b hb a ha)
    -- the first of the finds starts a round
    have hround : ∀ key, keys.head? = some key → Cursor.OnRound (info.hashCmp · key)
        (info.seq (pushedOf pre) (info.headOf key)) 0 s₁.cur := by
      intro key hk
      obtain ⟨keys', rfl⟩ := List.head?_eq_some_iff.1 hk
      refine Cursor.onRound_zero fun c hc => ?_
      by_contra hmatch
      obtain ⟨-, key', hlast, heq⟩ := hres pre key (keys'.map Call.find ++ post) hpre s₁ fs₁ hends₁
        c hc
        (by simpa using hmatch)
      rw [hmax key' hlast key List.mem_cons_self] at heq
      exact Bool.false_ne_true heq
    cases keys with
    | nil => exact ⟨s₁, fs₁, s₁, [], hends₁, Comp.ends_pure.2 rfl, by simp⟩
    | cons key keys =>
        obtain ⟨s₂, fs₂, hends₂, hrets⟩ := finds_ends hinfo hfresh hres hpre hends₁ h hsame
          (fun b hb => hmatching key List.mem_cons_self b hb) hround
        refine ⟨s₁, fs₁, s₂, fs₂, hends₁, hends₂, fun b hb => ?_⟩
        rw [hrets, hmatching key List.mem_cons_self b hb, List.range_eq_range']
  · obtain ⟨s', fs', hends', h⟩ := holds_run hinfo hinit hfresh hres hpre
    obtain ⟨rfl, rfl⟩ : s = s' ∧ fs = fs' := by simpa using hends.unique hends'
    obtain ⟨f, hf, -, -, -, hiff⟩ := h.find hinfo (hfresh.keys key (by simp [hpre]))
      (hres pre key post hpre s fs hends)
    rw [← hiff]
    constructor
    · rintro ⟨s', fs', f', hends', hf', hsub⟩
      obtain ⟨rfl, rfl⟩ : s = s' ∧ fs = fs' := by simpa using hends.unique hends'
      obtain rfl : f = f' := by simpa using hf.unique hf'
      exact hsub
    · exact fun hsub => ⟨s, fs, f, hends, hf, hsub⟩

/-- Two buckets, nodes compared and hashed by their tens; the list heads are `0` and
`1`. -/
def tens : Hashtable ℕ where
  table i := i
  nmemb := 2
  hash x := x / 10
  hashCmp a b := a / 10 = b / 10
  pos := by decide
  inj _ _ _ _ h := h

lemma tens_equalKeys : tens.EqualKeys where
  refl _ _ := by simp [tens]
  symm _ _ _ _ h := by simpa [tens, eq_comm] using h
  trans _ _ _ _ _ _ h h' := by
    simp only [tens, decide_eq_true_eq] at h h' ⊢
    exact h.trans h'
  hash_eq _ _ _ _ h := by simpa [tens] using h

/-- A call more. -/
lemma AllResume.concat {call : Call ι} (h : AllResume info s pre)
    (hcall : ∀ key, call = .find key → ∀ s' fs, (run info s pre).Ends (.ok (s', fs)) →
      Resumes info pre s'.cur key) : AllResume info s (pre ++ [call]) := by
  intro pre' key post he
  rcases concat_eq_append_cons he with ⟨rfl, hlast⟩ | ⟨post', he'⟩
  · exact hcall key hlast
  · exact h pre' key post' he'

/-- The list heads after `hashtable_init`. -/
def tensLinks : Links ℕ := (⟨id, id⟩ : Links ℕ).initHeads [0, 1]

lemma hashtableInit_tens : (hashtableInit tens ⟨id, id⟩).Ends (.ok tensLinks) :=
  hashtableInit_ends (by decide) ⟨id, id⟩

/-- Two nodes that compare equal, and two finds for them. -/
theorem finds_go_round_tens :
    GoesRound tens (start tensLinks) [.push 15, .push 12, .find 11, .find 19] := by
  have hheads : ∀ x, 2 ≤ x → x ∉ tens.heads := by
    rintro x hx ⟨i, hi, he⟩
    have hi' : i < 2 := hi
    have he' : i = x := he
    omega
  refine (finds_go_round tens tens_equalKeys hashtableInit_tens
    [.push 15, .push 12, .find 11, .find 19] ⟨by decide, ?_, ?_⟩ ?_).2.1
  · exact fun x hx => hheads x (by simp [pushedOf] at hx; omega)
  · exact fun key hkey => hheads key (by simp at hkey; omega)
  · have h₂ : AllResume tens (start tensLinks) [.push 15, .push 12] := by
      intro pre key post he
      simp [List.cons_eq_append_iff] at he
    have h₃ : AllResume tens (start tensLinks) [.push 15, .push 12, .find 11] := by
      refine h₂.concat fun key _ s fs hrun c hc => ?_
      obtain ⟨s', hrun'⟩ : ∃ s', (run tens (start tensLinks) [.push 15, .push 12]).Ends
          (.ok (⟨s', none⟩, [])) := ⟨_, 2, rfl⟩
      have hs : s = ⟨s', none⟩ := (Prod.mk.inj (Except.ok.inj (hrun.unique hrun'))).1
      simp [hs] at hc
    refine h₃.concat fun key hkey s fs hrun c hc _ => ?_
    obtain ⟨s', hrun'⟩ : ∃ s', (run tens (start tensLinks) [.push 15, .push 12,
        .find 11]).Ends (.ok (⟨s', some 15⟩, [⟨some 15, some 15, [15]⟩])) := ⟨_, 5, rfl⟩
    have hs : s = ⟨s', some 15⟩ := (Prod.mk.inj (Except.ok.inj (hrun.unique hrun'))).1
    obtain rfl : 15 = c := by simpa [hs] using hc
    obtain rfl : key = 19 := by simpa using hkey.symm
    exact ⟨hheads 15 (by decide), 11, rfl, rfl⟩

/-- A find that finds nothing leaves `cur` on the list head, and the next find gives the
list head to `hash_cmp`. -/
theorem find_compares_head : tens.EqualKeys ∧ Fresh tens [.find 15, .find 15] ∧
    (hashtableInit tens ⟨id, id⟩).Ends (.ok tensLinks) ∧
    ¬ ComparesPushed tens (start tensLinks) [.find 15] 15 := by
  refine ⟨tens_equalKeys, ⟨by simp [pushedOf], by simp [pushedOf], ?_⟩, hashtableInit_tens, ?_⟩
  · intro key hkey
    obtain rfl : key = 15 := by simpa using hkey
    rintro ⟨i, hi, he⟩
    exact absurd (show i = 15 from he) (by have : i < 2 := hi; omega)
  · rintro ⟨s, fs, f, hrun, hf, hsub⟩
    have hrun' : (run tens (start tensLinks) [.find 15]).Ends
        (.ok (⟨tensLinks, some 1⟩, [⟨none, some 1, []⟩])) := ⟨2, rfl⟩
    obtain ⟨rfl, -⟩ : s = ⟨tensLinks, some 1⟩ ∧ fs = [⟨none, some 1, []⟩] := by
      simpa using hrun.unique hrun'
    have hf' : (hashFind tens tensLinks (some 1) 15).Ends (.ok ⟨none, some 1, [1]⟩) := ⟨2, rfl⟩
    obtain rfl : f = ⟨none, some 1, [1]⟩ := by simpa using hf.unique hf'
    simpa [pushedOf] using hsub 1 (by simp)

end HashTable

end DemoClass
