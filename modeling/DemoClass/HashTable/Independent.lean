import DemoClass.HashTable.Find

/-!
# Several hash tables and one cursor

Runs of `hashtable_init`, `hash_push`, `hash_find` and `hashtable_destroy` on any
number of tables, alive at the same time or one after the other.  The static variable
of `hash_find` is one for all of them.

A find does what it would do in the run of the calls on its own table when a cursor
that compares equal to the key, be it the one there is or the one the last find on the
table left, is the same in both and on a node of the bucket that is searched
(`Owns`).  A run in which every find is such is, table by table, the run of the calls
on the table alone (`finds_independent`).
-/

namespace DemoClass

namespace HashTable

open Links

/-- A call on one of several tables. -/
inductive SysCall (τ ι : Type)
  | init (t : τ)
  | push (t : τ) (node : ι)
  | find (t : τ) (key : ι)
  | destroy (t : τ)
  deriving DecidableEq

/-- The links of the nodes and the static variable of `hash_find`.  What the last find
on a table left in the variable is recorded in `last`, which no call reads. -/
structure Sys (τ ι : Type) where
  links : Links ι
  cur : Option ι
  last : τ → Option ι

namespace SysCall

variable {τ ι : Type}

/-- The table of the call. -/
def on : SysCall τ ι → τ
  | .init t => t
  | .push t _ => t
  | .find t _ => t
  | .destroy t => t

variable [DecidableEq ι] [DecidableEq τ]

/-- The call, with what it returned when it is a find. -/
def run (tab : τ → Hashtable ι) (s : Sys τ ι) :
    SysCall τ ι → Comp Fault (Sys τ ι × List (τ × Option ι))
  | .init t => do
    let l ← hashtableInit (tab t) s.links
    pure ({ s with links := l }, [])
  | .push t x => pure ({ s with links := hashPush (tab t) s.links x }, [])
  | .find t key => do
    let f ← hashFind (tab t) s.links s.cur key
    pure ({ s with cur := f.cur, last := Function.update s.last t f.cur }, [(t, f.ret)])
  | .destroy t => do
    let l ← hashtableDestroy (tab t) s.links
    pure ({ s with links := l }, [])

end SysCall

variable {τ ι : Type}

/-- The table has been initialised and not been destroyed. -/
def Live (calls : List (SysCall τ ι)) (t : τ) : Prop := .init t ∈ calls ∧ .destroy t ∉ calls

/-- The list heads of the tables in use. -/
def liveHeads (tab : τ → Hashtable ι) (calls : List (SysCall τ ι)) : Set ι :=
  {h | ∃ t, Live calls t ∧ h ∈ (tab t).heads}

variable [DecidableEq ι] [DecidableEq τ]

/-- The nodes pushed into the table, in their order. -/
def pushedOn (t : τ) : List (SysCall τ ι) → List ι
  | [] => []
  | .push t' x :: calls => if t' = t then x :: pushedOn t calls else pushedOn t calls
  | _ :: calls => pushedOn t calls

/-- The calls one after the other, with what the finds among them returned. -/
def sysRun (tab : τ → Hashtable ι) (s : Sys τ ι) :
    List (SysCall τ ι) → Comp Fault (Sys τ ι × List (τ × Option ι))
  | [] => pure (s, [])
  | call :: calls => do
    let (s, out) ← call.run tab s
    let (s, outs) ← sysRun tab s calls
    pure (s, out ++ outs)

/-- `x` is in no table in use. -/
def Free (tab : τ → Hashtable ι) (calls : List (SysCall τ ι)) (x : ι) : Prop :=
  ∀ t, Live calls t → x ∉ (tab t).heads ∧ x ∉ pushedOn t calls

/-- A table is initialised once and in memory that is not in use, an `int` counts its
buckets, a node is pushed that is in no table, and only tables in use are searched and
destroyed. -/
def SysCall.Allowed (tab : τ → Hashtable ι) (calls : List (SysCall τ ι)) : SysCall τ ι → Prop
  | .init t => (∀ call ∈ calls, call.on ≠ t) ∧ (∀ h ∈ (tab t).heads, Free tab calls h) ∧
    (tab t).nmemb < intLimit
  | .push t x => Live calls t ∧ Free tab calls x
  | .find t _ => Live calls t
  | .destroy t => Live calls t

/-- Every call is allowed when its turn comes. -/
def AllCallsAllowed (tab : τ → Hashtable ι) (calls : List (SysCall τ ι)) : Prop :=
  ∀ pre call post, calls = pre ++ call :: post → call.Allowed tab pre

/-- A cursor that compares equal to the key, the present one or the one of the table, is
both and on a node of the bucket. -/
def Owns (tab : τ → Hashtable ι) (calls : List (SysCall τ ι)) (s : Sys τ ι) (t : τ) (key : ι) :
    Prop :=
  ∀ c, (tab t).hashCmp c key = true → s.cur = some c ∨ s.last t = some c →
    s.cur = s.last t ∧ c ∈ (tab t).seq (pushedOn t calls) ((tab t).headOf key)

/-- This is so at every find of the run. -/
def AllOwn (tab : τ → Hashtable ι) (s : Sys τ ι) (calls : List (SysCall τ ι)) : Prop :=
  ∀ pre t key post, calls = pre ++ .find t key :: post → ∀ s' outs,
    (sysRun tab s pre).Ends (.ok (s', outs)) → Owns tab pre s' t key

/-! ### The calls of one table -/

variable {tab : τ → Hashtable ι} {calls pre post : List (SysCall τ ι)} {call : SysCall τ ι}
  {t t' : τ} {x : ι}

omit [DecidableEq ι] in
@[simp] lemma pushedOn_append (t : τ) (calls calls' : List (SysCall τ ι)) :
    pushedOn t (calls ++ calls') = pushedOn t calls ++ pushedOn t calls' := by
  induction calls with
  | nil => rfl
  | cons call calls ih =>
      cases call with
      | push t' x =>
          by_cases h : t' = t
          · simp [pushedOn, h, ih]
          · simp [pushedOn, h, ih]
      | init | find | destroy => simpa [pushedOn] using ih

omit [DecidableEq ι] in
lemma pushedOn_singleton_of_ne (h : call.on ≠ t) : pushedOn t [call] = [] := by
  cases call with
  | push t' x => simp [pushedOn, show t' ≠ t from h]
  | init | find | destroy => rfl

omit [DecidableEq ι] in
lemma pushedOn_filter (t : τ) (calls : List (SysCall τ ι)) :
    pushedOn t (calls.filter (·.on = t)) = pushedOn t calls := by
  induction calls with
  | nil => rfl
  | cons call calls ih =>
      have hsplit : pushedOn t (call :: calls) = pushedOn t [call] ++ pushedOn t calls :=
        pushedOn_append t [call] calls
      by_cases h : call.on = t
      · rw [List.filter_cons_of_pos (by simpa using h), hsplit, ← ih]
        exact pushedOn_append t [call] _
      · rw [List.filter_cons_of_neg (by simpa using h), hsplit, pushedOn_singleton_of_ne h, ih]
        rfl

omit [DecidableEq ι] in
/-- The table is in use from its first call on. -/
lemma live_init (hop : (SysCall.init t).Allowed tab pre) :
    Live (pre ++ [.init t]) t' ↔ t' = t ∨ Live pre t' := by
  simp only [Live, List.mem_append, List.mem_singleton, SysCall.init.injEq, reduceCtorEq,
    or_false]
  constructor
  · rintro ⟨hi | rfl, hd⟩
    · exact Or.inr ⟨hi, hd⟩
    · exact Or.inl rfl
  · rintro (rfl | ⟨hi, hd⟩)
    · exact ⟨Or.inr rfl, fun hmem => hop.1 _ hmem rfl⟩
    · exact ⟨Or.inl hi, hd⟩

omit [DecidableEq ι] [DecidableEq τ] in
lemma live_push : Live (pre ++ [.push t x]) t' ↔ Live pre t' := by simp [Live]

omit [DecidableEq ι] [DecidableEq τ] in
lemma live_find : Live (pre ++ [.find t x]) t' ↔ Live pre t' := by simp [Live]

omit [DecidableEq ι] [DecidableEq τ] in
lemma live_destroy (h : Live (pre ++ [.destroy t]) t') : t' ≠ t ∧ Live pre t' := by
  refine ⟨fun he => h.2 (by simp [he]), ?_, fun hmem => h.2 (by simp [hmem])⟩
  simpa using h.1

omit [DecidableEq ι] in
lemma live_filter : Live (calls.filter (·.on = t)) t' ↔ t' = t ∧ Live calls t' := by
  simp only [Live, List.mem_filter, decide_eq_true_eq]
  constructor
  · rintro ⟨⟨hinit, rfl⟩, hd⟩
    exact ⟨rfl, hinit, fun hmem => hd ⟨hmem, rfl⟩⟩
  · rintro ⟨rfl, hinit, hd⟩
    exact ⟨⟨hinit, rfl⟩, fun hmem => hd hmem.1⟩

omit [DecidableEq ι] in
lemma Free.filter (h : Free tab calls x) : Free tab (calls.filter (·.on = t)) x := by
  intro t' ht'
  obtain ⟨rfl, hlive⟩ := live_filter.1 ht'
  rw [pushedOn_filter]
  exact h t' hlive

omit [DecidableEq ι] in
/-- What is allowed is allowed among the calls of the table alone. -/
lemma SysCall.Allowed.filter (h : call.Allowed tab calls) :
    call.Allowed tab (calls.filter (·.on = call.on)) := by
  cases call with
  | init t =>
      refine ⟨fun c hc => ?_, fun x hx => (h.2.1 x hx).filter, h.2.2⟩
      exact h.1 c (List.mem_of_mem_filter hc)
  | push t x => exact ⟨live_filter.2 ⟨rfl, h.1⟩, h.2.filter⟩
  | find t key => exact live_filter.2 ⟨rfl, h⟩
  | destroy t => exact live_filter.2 ⟨rfl, h⟩

/-! ### One call -/

lemma sysRun_cons_ends {s s₁ s₂ : Sys τ ι} {out outs : List (τ × Option ι)}
    (h : (call.run tab s).Ends (.ok (s₁, out))) (h' : (sysRun tab s₁ calls).Ends (.ok (s₂, outs))) :
    (sysRun tab s (call :: calls)).Ends (.ok (s₂, out ++ outs)) := by
  rw [sysRun]
  exact h.bind (h'.bind (Comp.ends_pure.2 rfl))

lemma sysRun_concat_ends {s s₁ s₂ : Sys τ ι} {out outs : List (τ × Option ι)}
    (h : (sysRun tab s pre).Ends (.ok (s₁, outs))) (h' : (call.run tab s₁).Ends (.ok (s₂, out))) :
    (sysRun tab s (pre ++ [call])).Ends (.ok (s₂, outs ++ out)) := by
  induction pre generalizing s outs with
  | nil =>
      obtain ⟨rfl, rfl⟩ : s₁ = s ∧ outs = [] := by simpa [sysRun] using h
      have hnil : (sysRun tab s₂ []).Ends (.ok (s₂, [])) := Comp.ends_pure.2 rfl
      simpa using sysRun_cons_ends h' hnil
  | cons first pre ih =>
      rw [sysRun, Comp.ends_bind_ok_iff] at h
      obtain ⟨⟨s₃, out₃⟩, h₃, h⟩ := h
      rw [Comp.ends_bind_ok_iff] at h
      obtain ⟨⟨s₄, outs₄⟩, h₄, h⟩ := h
      obtain ⟨rfl, rfl⟩ : s₁ = s₄ ∧ outs = out₃ ++ outs₄ := by simpa using h
      rw [List.append_assoc]
      exact sysRun_cons_ends h₃ (ih h₄)

/-- The lists of the tables in use hold the nodes pushed into them, and no list head
belongs to two tables in use. -/
structure SysHolds (tab : τ → Hashtable ι) (calls : List (SysCall τ ι)) (l : Links ι) : Prop where
  counted : ∀ t, Live calls t → (tab t).nmemb < intLimit
  disjoint : ∀ t t', Live calls t → Live calls t' → t ≠ t' → ∀ h ∈ (tab t).heads, h ∉ (tab t').heads
  rings : ∃ σ, l.Rings (liveHeads tab calls) σ ∧
    ∀ t, Live calls t → ∀ h ∈ (tab t).heads, σ h = (tab t).seq (pushedOn t calls) h

lemma sysHolds_nil (tab : τ → Hashtable ι) (l : Links ι) : SysHolds tab [] l := by
  have hlive : ∀ t, ¬ Live ([] : List (SysCall τ ι)) t := fun t h => by simpa using h.1
  refine ⟨fun t h => absurd h (hlive t), fun t _ h => absurd h (hlive t), fun _ => [], ?_,
    fun t h => absurd h (hlive t)⟩
  exact (rings_empty l _).mono fun h hh => absurd hh.choose_spec.1 (hlive _)

namespace SysHolds

variable {l : Links ι} {σ : ι → List ι}

/-- What is in no table in use is in none of the lists. -/
lemma outside (hσ : ∀ t, Live calls t → ∀ h ∈ (tab t).heads,
    σ h = (tab t).seq (pushedOn t calls) h) (hx : Free tab calls x) :
    Outside (liveHeads tab calls) σ x := by
  rintro h ⟨t, ht, hh⟩
  have hout := Hashtable.outside (hx t ht).1 (hx t ht).2 h hh
  rwa [hσ t ht h hh]

lemma init (h : SysHolds tab pre l) (hop : (SysCall.init t).Allowed tab pre) :
    ∃ l', (hashtableInit (tab t) l).Ends (.ok l') ∧ SysHolds tab (pre ++ [.init t]) l' := by
  obtain ⟨σ, hr, hσ⟩ := h.rings
  have hfree := hop.2.1
  have hcounted := hop.2.2
  obtain ⟨l', σ', hends, hr', hnew, hold⟩ := hashtableInit_rings hcounted hr
    fun x hx => outside hσ (hfree x hx)
  have hpushed : ∀ t', pushedOn t' (pre ++ [.init t]) = pushedOn t' pre := fun t' => by
    simp [pushedOn]
  -- nothing was pushed into the table before it was initialised
  have hempty : pushedOn t pre = [] := by
    have hf : pre.filter (·.on = t) = [] := by
      simpa [List.filter_eq_nil_iff] using hop.1
    rw [← pushedOn_filter, hf]
    rfl
  have hlive : ∀ {t'}, Live (pre ++ [.init t]) t' ↔ t' = t ∨ Live pre t' := live_init hop
  refine ⟨l', hends, fun t' ht' => ?_, fun t₁ t₂ h₁ h₂ hne x hx hx' => ?_, σ', hr'.mono ?_,
    fun t' ht' x hx => ?_⟩
  · rcases hlive.1 ht' with rfl | ht'
    · exact hcounted
    · exact h.counted t' ht'
  · rcases hlive.1 h₁ with rfl | hl₁ <;> rcases hlive.1 h₂ with rfl | hl₂
    · exact hne rfl
    · exact (hfree x hx t₂ hl₂).1 hx'
    · exact (hfree x hx' t₁ hl₁).1 hx
    · exact h.disjoint t₁ t₂ hl₁ hl₂ hne x hx hx'
  · rintro x ⟨t', ht', hx⟩
    rcases hlive.1 ht' with rfl | ht'
    · exact Or.inr hx
    · exact Or.inl ⟨t', ht', hx⟩
  · rw [hpushed]
    rcases hlive.1 ht' with rfl | ht'
    · rw [hnew x hx, hempty]
      rfl
    · have hne : x ∉ (tab t).heads := fun hmem => (hfree x hmem t' ht').1 hx
      rw [hold x hne, hσ t' ht' x hx]

lemma push (h : SysHolds tab pre l) (hop : (SysCall.push t x).Allowed tab pre) :
    SysHolds tab (pre ++ [.push t x]) (hashPush (tab t) l x) := by
  obtain ⟨σ, hr, hσ⟩ := h.rings
  have hH : (tab t).heads ⊆ liveHeads tab pre := fun y hy => ⟨t, hop.1, hy⟩
  have hr' := hashPush_rings hr hH (hσ t hop.1) (outside hσ hop.2)
  refine ⟨fun t' ht' => h.counted t' (live_push.1 ht'),
    fun t₁ t₂ h₁ h₂ => h.disjoint t₁ t₂ (live_push.1 h₁) (live_push.1 h₂), _, hr'.mono ?_,
    fun t' ht' y hy => ?_⟩
  · rintro y ⟨t', ht', hy⟩
    exact ⟨t', live_push.1 ht', hy⟩
  · have ht := live_push.1 ht'
    by_cases he : y = (tab t).headOf x
    · subst he
      -- only one table has this list head
      obtain rfl : t' = t := by
        by_contra hne
        exact h.disjoint t' t ht hop.1 hne _ hy ((tab t).headOf_mem x)
      rw [Function.update_self, pushedOn_append]
      simp [pushedOn]
    · rw [Function.update_of_ne he, hσ t' ht y hy, pushedOn_append]
      by_cases htt : t = t'
      · subst htt
        simp only [pushedOn, if_true]
        exact (Hashtable.seq_push_of_ne he).symm
      · simp [pushedOn, htt]

lemma destroy (h : SysHolds tab pre l) (hop : (SysCall.destroy t).Allowed tab pre) :
    ∃ l', (hashtableDestroy (tab t) l).Ends (.ok l') ∧ SysHolds tab (pre ++ [.destroy t]) l' := by
  obtain ⟨σ, hr, hσ⟩ := h.rings
  obtain ⟨l', σ', hends, hr', hold⟩ := hashtableDestroy_ends (h.counted t hop) hr
    fun y hy => ⟨t, hop, hy⟩
  refine ⟨l', hends, fun t' ht' => h.counted t' (live_destroy ht').2,
    fun t₁ t₂ h₁ h₂ => h.disjoint t₁ t₂ (live_destroy h₁).2 (live_destroy h₂).2, σ', hr'.mono ?_,
    fun t' ht' y hy => ?_⟩
  · rintro y ⟨t', ht', hy⟩
    exact ⟨t', (live_destroy ht').2, hy⟩
  · obtain ⟨hne, ht⟩ := live_destroy ht'
    rw [hold y (h.disjoint t' t ht hop hne y hy), hσ t' ht y hy, pushedOn_append]
    simp [pushedOn]

lemma find {key : ι} (h : SysHolds tab pre l) : SysHolds tab (pre ++ [.find t key]) l := by
  obtain ⟨σ, hr, hσ⟩ := h.rings
  refine ⟨fun t' ht' => h.counted t' (live_find.1 ht'),
    fun t₁ t₂ h₁ h₂ => h.disjoint t₁ t₂ (live_find.1 h₁) (live_find.1 h₂), σ, hr.mono ?_,
    fun t' ht' y hy => ?_⟩
  · rintro y ⟨t', ht', hy⟩
    exact ⟨t', live_find.1 ht', hy⟩
  · rw [hσ t' (live_find.1 ht') y hy, pushedOn_append]
    simp [pushedOn]

end SysHolds

/-! ### Runs -/

/-- Before any call: the static variable is `NULL`. -/
def sysStart (l : Links ι) : Sys τ ι := ⟨l, none, fun _ => none⟩

variable {s : Sys τ ι} {l : Links ι} {key : ι}

/-- A call other than a find. -/
lemma run_ends_of_ne (h : SysHolds tab pre s.links) (hop : call.Allowed tab pre)
    (hne : ∀ t key, call ≠ .find t key) :
    ∃ l', (call.run tab s).Ends (.ok ({ s with links := l' }, []))
      ∧ SysHolds tab (pre ++ [call]) l' := by
  cases call with
  | init t =>
      obtain ⟨l', hends, h'⟩ := h.init hop
      exact ⟨l', hends.bind (Comp.ends_pure.2 rfl), h'⟩
  | push t x => exact ⟨_, Comp.ends_pure.2 rfl, h.push hop⟩
  | find t key => exact absurd rfl (hne t key)
  | destroy t =>
      obtain ⟨l', hends, h'⟩ := h.destroy hop
      exact ⟨l', hends.bind (Comp.ends_pure.2 rfl), h'⟩

/-- A find whose cursor is in its own bucket when it compares equal. -/
lemma find_ends (h : SysHolds tab pre s.links) (ht : Live pre t)
    (hcur : ∀ c, s.cur = some c → (tab t).hashCmp c key = true →
      c ∈ (tab t).seq (pushedOn t pre) ((tab t).headOf key)) :
    ∃ f, (hashFind (tab t) s.links s.cur key).Ends (.ok f) ∧
      f.ret = Cursor.next ((tab t).hashCmp · key)
        ((tab t).seq (pushedOn t pre) ((tab t).headOf key)) s.cur ∧
      f.cur = some (f.ret.getD ((tab t).headOf key)) ∧
        ∀ x, f.ret = some x → x ∈ pushedOn t pre := by
  obtain ⟨σ, hr, hσ⟩ := h.rings
  have hring := hr.ring _ ⟨t, ht, (tab t).headOf_mem key⟩
  rw [hσ t ht _ ((tab t).headOf_mem key)] at hring
  obtain ⟨f, hf, hret, hfcur, -, -⟩ := hashFind_ends hring hcur
  exact ⟨f, hf, hret, hfcur, fun x hx =>
    (Hashtable.mem_seq.1 (Cursor.mem_of_next (hret.symm.trans hx)).1).1⟩

/-- Where one of the two cursors matches they are the same, so both find the same. -/
lemma Owns.next_eq (h : Owns tab pre s t key) :
    Cursor.next ((tab t).hashCmp · key) ((tab t).seq (pushedOn t pre) ((tab t).headOf key)) s.cur =
      Cursor.next ((tab t).hashCmp · key) ((tab t).seq (pushedOn t pre) ((tab t).headOf key))
        (s.last t) := by
  by_cases hc : ∃ c, (tab t).hashCmp c key = true ∧ (s.cur = some c ∨ s.last t = some c)
  · obtain ⟨c, hmatch, hc⟩ := hc
    rw [(h c hmatch hc).1]
  · rw [Cursor.next_of_off fun c hcur => ?_, Cursor.next_of_off fun c hlast => ?_]
    · by_contra hmatch
      exact hc ⟨c, by simpa using hmatch, Or.inr hlast⟩
    · by_contra hmatch
      exact hc ⟨c, by simpa using hmatch, Or.inl hcur⟩

/-- The run of the calls on the table alone stands where the table stands in the run of
all calls: what its finds returned is the same, and its cursor is where the last find
on the table left it. -/
structure Alone (tab : τ → Hashtable ι) (l : Links ι) (pre : List (SysCall τ ι)) (s : Sys τ ι)
    (outs : List (τ × Option ι)) (t : τ) (s' : Sys τ ι) : Prop where
  ends : (sysRun tab (sysStart l) (pre.filter (·.on = t))).Ends (.ok (s', outs.filter (·.1 = t)))
  holds : SysHolds tab (pre.filter (·.on = t)) s'.links
  cur : s'.cur = s.last t

/-- A call on another table. -/
lemma Alone.other {outs out : List (τ × Option ι)} {s s₁ s' : Sys τ ι}
    (h : Alone tab l pre s outs t s') (hne : call.on ≠ t) (hlast : s₁.last t = s.last t)
    (hout : ∀ o ∈ out, o.1 = call.on) : Alone tab l (pre ++ [call]) s₁ (outs ++ out) t s' := by
  have hf : (pre ++ [call]).filter (·.on = t) = pre.filter (·.on = t) := by
    rw [List.filter_append, List.filter_cons_of_neg (by simpa using hne), List.filter_nil,
      List.append_nil]
  have ho : (outs ++ out).filter (·.1 = t) = outs.filter (·.1 = t) := by
    have hnil : out.filter (·.1 = t) = [] := by
      simpa [List.filter_eq_nil_iff] using fun a b hab he => hne ((hout _ hab).symm.trans he)
    rw [List.filter_append, hnil, List.append_nil]
  refine ⟨?_, ?_, h.cur.trans hlast.symm⟩
  · rw [hf, ho]
    exact h.ends
  · rw [hf]
    exact h.holds

/-- A call on the table. -/
lemma Alone.own {outs out : List (τ × Option ι)} {s s₁ s' s₁' : Sys τ ι}
    (h : Alone tab l pre s outs call.on s') (hrun : (call.run tab s').Ends (.ok (s₁', out)))
    (hholds : SysHolds tab (pre.filter (·.on = call.on) ++ [call]) s₁'.links)
    (hcur : s₁'.cur = s₁.last call.on) (hout : ∀ o ∈ out, o.1 = call.on) :
    Alone tab l (pre ++ [call]) s₁ (outs ++ out) call.on s₁' := by
  have hf : (pre ++ [call]).filter (·.on = call.on) = pre.filter (·.on = call.on) ++ [call] := by
    rw [List.filter_append, List.filter_cons_of_pos (by simp), List.filter_nil]
  have ho : (outs ++ out).filter (·.1 = call.on) = outs.filter (·.1 = call.on) ++ out := by
    have hall : out.filter (·.1 = call.on) = out := by
      simpa [List.filter_eq_self] using fun a b hab => hout _ hab
    rw [List.filter_append, hall]
  refine ⟨?_, ?_, hcur⟩
  · rw [hf, ho]
    exact sysRun_concat_ends h.ends hrun
  · rw [hf]
    exact hholds

/-- One call, in the run of all calls and in the run of the calls on its table. -/
lemma step_alone {outs : List (τ × Option ι)} (h : SysHolds tab pre s.links)
    (halone : ∀ t, ∃ s', Alone tab l pre s outs t s') (hop : call.Allowed tab pre)
    (hown : ∀ t key, call = .find t key → Owns tab pre s t key) :
    ∃ s₁ out, (call.run tab s).Ends (.ok (s₁, out)) ∧ SysHolds tab (pre ++ [call]) s₁.links ∧
      ∀ t, ∃ s', Alone tab l (pre ++ [call]) s₁ (outs ++ out) t s' := by
  obtain ⟨s', hs'⟩ := halone call.on
  by_cases hfind : ∀ t key, call ≠ .find t key
  · obtain ⟨l₁, hends, h₁⟩ := run_ends_of_ne h hop hfind
    obtain ⟨l₁', hends', h₁'⟩ := run_ends_of_ne hs'.holds hop.filter hfind
    refine ⟨{ s with links := l₁ }, [], hends, h₁, fun t => ?_⟩
    by_cases ht : call.on = t
    · subst ht
      exact ⟨_, hs'.own hends' h₁' hs'.cur (by simp)⟩
    · obtain ⟨s'', hs''⟩ := halone t
      exact ⟨s'', hs''.other ht rfl (by simp)⟩
  · push Not at hfind
    obtain ⟨t, key, rfl⟩ := hfind
    have ho := hown t key rfl
    have hown' : Alone tab l pre s outs (SysCall.find t key).on s' := hs'
    change Alone tab l pre s outs t s' at hs'
    have hlive : Live pre t := hop
    have hlive' : Live (pre.filter (·.on = t)) t := live_filter.2 ⟨rfl, hlive⟩
    obtain ⟨f, hf, hret, hcur, -⟩ := find_ends h hlive fun c hc hm => (ho c hm (Or.inl hc)).2
    -- alone, the cursor is the one the last find on the table left
    have hcur' : ∀ c, s'.cur = some c → (tab t).hashCmp c key = true →
        c ∈ (tab t).seq (pushedOn t (pre.filter (·.on = t))) ((tab t).headOf key) := by
      intro c hc hm
      rw [pushedOn_filter]
      exact (ho c hm (Or.inr (hs'.cur.symm.trans hc))).2
    obtain ⟨f', hf', hret', hcurf', -⟩ := find_ends hs'.holds hlive' hcur'
    -- both finds go on from the same cursor, or from none that matches
    have hsame : f'.ret = f.ret := by
      rw [hret', hret, pushedOn_filter, ho.next_eq, ← show s'.cur = s.last t from hs'.cur]
    refine ⟨{ s with cur := f.cur, last := Function.update s.last t f.cur }, [(t, f.ret)],
      hf.bind (Comp.ends_pure.2 rfl), h.find, fun t' => ?_⟩
    by_cases ht : t = t'
    · subst ht
      refine ⟨{ s' with cur := f'.cur, last := Function.update s'.last t f'.cur },
        hown'.own (hf'.bind (Comp.ends_pure.2 ?_)) hs'.holds.find ?_ ?_⟩
      · rw [hsame]
      · show f'.cur = Function.update s.last t f.cur t
        rw [Function.update_self, hcurf', hcur, hsame]
      · simp [SysCall.on]
    · obtain ⟨s'', hs''⟩ := halone t'
      refine ⟨s'', hs''.other ht ?_ (by simp [SysCall.on])⟩
      show Function.update s.last t f.cur t' = s.last t'
      rw [Function.update_of_ne (Ne.symm ht)]

/-- A run, with the runs of the calls on each table alone. -/
lemma sysRun_alone (hops : AllCallsAllowed tab calls) (hown : AllOwn tab (sysStart l) calls)
    (hpre : calls = pre ++ post) : ∃ s outs, (sysRun tab (sysStart l) pre).Ends (.ok (s, outs)) ∧
      SysHolds tab pre s.links ∧ ∀ t, ∃ s', Alone tab l pre s outs t s' := by
  induction pre using List.reverseRecOn generalizing post with
  | nil =>
      refine ⟨sysStart l, [], Comp.ends_pure.2 rfl, sysHolds_nil tab l, fun t => ⟨sysStart l, ?_⟩⟩
      exact ⟨Comp.ends_pure.2 rfl, sysHolds_nil tab l, rfl⟩
  | append_singleton pre call ih =>
      have hpre' : calls = pre ++ call :: post := by simpa using hpre
      obtain ⟨s, outs, hends, h, halone⟩ := ih hpre'
      obtain ⟨s₁, out, hrun, h₁, halone₁⟩ := step_alone h halone (hops pre call post hpre')
        fun t key he => hown pre t key post (he ▸ hpre') s outs hends
      exact ⟨s₁, outs ++ out, sysRun_concat_ends hends hrun, h₁, halone₁⟩

omit [DecidableEq ι] in
lemma AllCallsAllowed.concat (h : AllCallsAllowed tab pre) (hop : call.Allowed tab pre) :
    AllCallsAllowed tab (pre ++ [call]) := by
  intro pre' call' post he
  rcases concat_eq_append_cons he with ⟨rfl, rfl⟩ | ⟨post', he'⟩
  · exact hop
  · exact h pre' call' post' he'

lemma AllOwn.concat (h : AllOwn tab s pre)
    (hown : ∀ t key, call = .find t key → ∀ s' outs, (sysRun tab s pre).Ends (.ok (s', outs)) →
      Owns tab pre s' t key) : AllOwn tab s (pre ++ [call]) := by
  intro pre' t key post he
  rcases concat_eq_append_cons he with ⟨rfl, hlast⟩ | ⟨post', he'⟩
  · exact hown t key hlast
  · exact h pre' t key post' he'

/-- Two tables of one bucket, with the list heads `0` and `1`; nodes are compared by
their tens. -/
def pair (t : Bool) : Hashtable ℕ where
  table _ := bif t then 1 else 0
  nmemb := 1
  hash _ := 0
  hashCmp a b := a / 10 = b / 10
  pos := by decide
  inj i hi j hj _ := by omega

lemma mem_heads_pair {t : Bool} {x : ℕ} : x ∈ (pair t).heads ↔ x = bif t then 1 else 0 := by
  constructor
  · rintro ⟨i, -, he⟩
    exact he.symm
  · rintro rfl
    exact ⟨0, Nat.zero_lt_one, rfl⟩

/-- Both tables are initialised and get a node each. -/
lemma allowed_pair {x y : ℕ} (hx : 2 ≤ x) (hy : 2 ≤ y) (hxy : x ≠ y) : AllCallsAllowed pair
    [.init false, .init true, .push false x, .push true y] := by
  have h₀ : AllCallsAllowed pair [] := fun _ _ _ he => by simp at he
  have h₁ : AllCallsAllowed pair [.init false] :=
    h₀.concat ⟨by simp, fun h _ t ht => by simp [Live] at ht, by decide⟩
  have h₂ : AllCallsAllowed pair [.init false, .init true] := by
    refine h₁.concat ⟨by simp [SysCall.on], fun h hh t ht => ?_, by decide⟩
    obtain rfl : t = false := by simpa [Live] using ht
    obtain rfl : h = 1 := mem_heads_pair.1 hh
    simp [mem_heads_pair, pushedOn]
  have h₃ : AllCallsAllowed pair [.init false, .init true, .push false x] := by
    refine h₂.concat ⟨by simp [Live], fun t _ => ?_⟩
    cases t <;> simp [mem_heads_pair, pushedOn] <;> omega
  refine h₃.concat ⟨by simp [Live], fun t _ => ?_⟩
  cases t <;> simp [mem_heads_pair, pushedOn] <;> omega

end HashTable

end DemoClass
