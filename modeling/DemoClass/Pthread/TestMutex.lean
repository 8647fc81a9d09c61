import DemoClass.Lib.Mutex
import DemoClass.Lib.Runs

/-!
# Two threads that count (`04test_mutex.c`)

`thr_demo` copies the counter, adds one to the copy, sleeps and writes it back; `thr_demo2`
increments the counter where it prints it.  Both do so in every round of their loops, under the
mutex.  Whatever the order of the steps is, no increment gets lost (`no_lost_update`).
-/

namespace DemoClass

namespace TestMutex

open Runs Mutex

/-- A `size_t` is below. -/
def sizeLimit : ℕ := 18446744073709551616

inductive Thread where
  | demo
  | demo2
deriving DecidableEq, Repr

/-- Where `thr_demo` is: at the test of its loop, or before a statement. -/
inductive DemoPc where
  | test
  | lock
  | load
  | incr
  | sleep
  | store
  | unlock
  | ended
deriving DecidableEq, Repr

/-- Where `thr_demo2` is. -/
inductive Demo2Pc where
  | test
  | lock
  | print
  | unlock
  | ended
deriving DecidableEq, Repr

/-- The rounds that the threads have still to go (`i`, `j`), the counter, the mutex, the copy `t`
of `thr_demo`, and where they are. -/
structure State where
  i : ℕ
  j : ℕ
  global : ℕ
  mutex : Option Thread
  t : ℕ
  demo : DemoPc
  demo2 : Demo2Pc
deriving DecidableEq

/-- `thr_demo` -/
def thrDemo (s : State) : Option (State × List ℕ) :=
  match s.demo with
  | .test => some ({ s with demo := if 0 < s.i then .lock else .ended }, [])
  | .lock =>
    if s.mutex = none then some ({ s with mutex := some .demo, demo := .load }, []) else none
  | .load => some ({ s with t := s.global, demo := .incr }, [])
  | .incr => some ({ s with t := (s.t + 1) % sizeLimit, demo := .sleep }, [])
  | .sleep => some ({ s with demo := .store }, [])
  | .store => some ({ s with global := s.t, demo := .unlock }, [])
  | .unlock => some ({ s with mutex := none, i := s.i - 1, demo := .test }, [])
  | .ended => none

/-- `thr_demo2`, with what it prints. -/
def thrDemo2 (s : State) : Option (State × List ℕ) :=
  match s.demo2 with
  | .test => some ({ s with demo2 := if 0 < s.j then .lock else .ended }, [])
  | .lock =>
    if s.mutex = none then some ({ s with mutex := some .demo2, demo2 := .print }, []) else none
  | .print =>
    some ({ s with global := (s.global + 1) % sizeLimit, demo2 := .unlock },
      [(s.global + 1) % sizeLimit])
  | .unlock => some ({ s with mutex := none, j := s.j - 1, demo2 := .test }, [])
  | .ended => none

/-- A step of one of the threads. -/
def step (s : State) : Thread → Option (State × List ℕ)
  | .demo => thrDemo s
  | .demo2 => thrDemo2 s

/-- The threads are created, with `p` and `c` rounds to go; both have 10 in the source. -/
def start (p c : ℕ) : State where
  i := p
  j := c
  global := 0
  mutex := none
  t := 0
  demo := .test
  demo2 := .test

/-- Both threads have ended. -/
def State.Finished (s : State) : Prop := s.demo = .ended ∧ s.demo2 = .ended

/-! ### What the threads rely on -/

/-- The increments that `thr_demo` has still to write. -/
def State.left (s : State) : ℕ :=
  match s.demo with
  | .unlock => s.i - 1
  | .ended => 0
  | _ => s.i

/-- The increments that `thr_demo2` has still to make. -/
def State.left2 (s : State) : ℕ :=
  match s.demo2 with
  | .unlock => s.j - 1
  | .ended => 0
  | _ => s.j

def DemoPc.holds : DemoPc → Bool
  | .load | .incr | .sleep | .store | .unlock => true
  | _ => false

def Demo2Pc.holds : Demo2Pc → Bool
  | .print | .unlock => true
  | _ => false

/-- The thread is at a place where it holds the mutex. -/
def State.holds (s : State) : Thread → Prop
  | .demo => s.demo.holds = true
  | .demo2 => s.demo2.holds = true

/-- What `thr_demo` knows of its copy, and that there is a round to go. -/
def CopyOk (s : State) : Prop :=
  match s.demo with
  | .test | .ended => True
  | .lock | .load | .unlock => 0 < s.i
  | .incr => 0 < s.i ∧ s.t = s.global
  | .sleep | .store => 0 < s.i ∧ s.t = (s.global + 1) % sizeLimit

/-- There is a round to go for `thr_demo2`. -/
def RoundOk (s : State) : Prop :=
  match s.demo2 with
  | .test | .ended => True
  | .lock | .print | .unlock => 0 < s.j

/-- The invariant: `m` increments are made, and the counter shows them. -/
structure Ok (p c : ℕ) (s : State) : Prop where
  guarded : Guarded s.mutex s.holds
  copy : CopyOk s
  round : RoundOk s
  le : s.left + s.left2 ≤ p + c
  counter : s.global = (p + c - (s.left + s.left2)) % sizeLimit

/-- The steps that are left. -/
def State.rank (s : State) : ℕ :=
  (match s.demo with
    | .test => 8 * s.i + 1
    | .lock => 8 * s.i
    | .load => 8 * s.i - 1
    | .incr => 8 * s.i - 2
    | .sleep => 8 * s.i - 3
    | .store => 8 * s.i - 4
    | .unlock => 8 * s.i - 5
    | .ended => 0) +
  match s.demo2 with
    | .test => 4 * s.j + 1
    | .lock => 4 * s.j
    | .print => 4 * s.j - 1
    | .unlock => 4 * s.j - 2
    | .ended => 0

variable {p c : ℕ} {s s' : State} {o : List ℕ}

lemma ok_start (p c : ℕ) : Ok p c (start p c) where
  guarded t := by cases t <;> simp [start, State.holds, DemoPc.holds, Demo2Pc.holds]
  copy := trivial
  round := trivial
  le := le_rfl
  counter := by simp [start, State.left, State.left2]

/-- Adding one to what a remainder is of. -/
lemma succ_mod {a m : ℕ} (h : a = m % sizeLimit) : (a + 1) % sizeLimit = (m + 1) % sizeLimit := by
  rw [h, Nat.mod_add_mod]

/-- The increments that are made. -/
def made (p c : ℕ) (s : State) : ℕ := p + c - (s.left + s.left2)

/-- What a step keeps, when it makes some increments. -/
structure Kept (p c : ℕ) (s s' : State) (k : ℕ) : Prop where
  ok : Ok p c s'
  rank : s'.rank + 1 ≤ s.rank
  made : made p c s' = made p c s + k

/-- A step that does not write to the counter. -/
lemma Ok.keep (h : Ok p c s) (hg : Guarded s'.mutex s'.holds) (hcopy : CopyOk s')
    (hround : RoundOk s') (hleft : s'.left + s'.left2 = s.left + s.left2)
    (hglobal : s'.global = s.global) (hrank : s'.rank + 1 ≤ s.rank) : Kept p c s s' 0 := by
  refine ⟨⟨hg, hcopy, hround, ?_, ?_⟩, hrank, ?_⟩
  · rw [hleft]
    exact h.le
  · rw [hleft, hglobal]
    exact h.counter
  · rw [made, made, hleft, Nat.add_zero]

/-- A step that adds one to the counter. -/
lemma Ok.count (h : Ok p c s) (hg : Guarded s'.mutex s'.holds) (hcopy : CopyOk s')
    (hround : RoundOk s') (hleft : s'.left + s'.left2 + 1 = s.left + s.left2)
    (hglobal : s'.global = (s.global + 1) % sizeLimit) (hrank : s'.rank + 1 ≤ s.rank) :
    Kept p c s s' 1 := by
  have hle := h.le
  have hmade : p + c - (s'.left + s'.left2) = p + c - (s.left + s.left2) + 1 := by omega
  refine ⟨⟨hg, hcopy, hround, by omega, ?_⟩, hrank, hmade⟩
  rw [hglobal, succ_mod h.counter, hmade]

/-- A step within the critical section or outside of it. -/
lemma Ok.guarded_keep (h : Ok p c s) (hmutex : s'.mutex = s.mutex)
    (hdemo : s'.demo.holds = s.demo.holds) (hdemo2 : s'.demo2.holds = s.demo2.holds) :
    Guarded s'.mutex s'.holds := by
  rw [hmutex]
  refine h.guarded.keep fun t => ?_
  cases t with
  | demo => simp [State.holds, hdemo]
  | demo2 => simp [State.holds, hdemo2]

/-- In a step of `thr_demo` the other thread stays where it is. -/
lemma holds_iff_of_demo (h : s'.demo2 = s.demo2) (t : Thread) (ht : t ≠ .demo) :
    s'.holds t ↔ s.holds t := by
  cases t with
  | demo => exact absurd rfl ht
  | demo2 => simp [State.holds, h]

lemma holds_iff_of_demo2 (h : s'.demo = s.demo) (t : Thread) (ht : t ≠ .demo2) :
    s'.holds t ↔ s.holds t := by
  cases t with
  | demo => simp [State.holds, h]
  | demo2 => exact absurd rfl ht

/-- What a step of `thr_demo` does. -/
lemma Ok.of_thrDemo (h : Ok p c s) (hs : thrDemo s = some (s', o)) :
    (∃ k, Kept p c s s' k) ∧ o = [] := by
  have hcopy := h.copy
  have hg := h.guarded
  unfold CopyOk at hcopy
  unfold thrDemo at hs
  cases hpc : s.demo with
  | test =>
      simp only [hpc] at hs
      obtain ⟨rfl, rfl⟩ := Prod.mk.inj (Option.some.inj hs)
      by_cases hi : 0 < s.i
      · rw [if_pos hi]
        refine ⟨⟨0, h.keep (h.guarded_keep rfl ?_ rfl) hi h.round ?_ rfl ?_⟩, rfl⟩
        · rw [hpc]
          rfl
        · simp [State.left, State.left2, hpc]
        · simp only [State.rank, hpc]
          omega
      · rw [if_neg hi]
        refine ⟨⟨0, h.keep (h.guarded_keep rfl ?_ rfl) trivial h.round ?_ rfl ?_⟩, rfl⟩
        · rw [hpc]
          rfl
        · simp only [State.left, State.left2, hpc]
          omega
        · simp only [State.rank, hpc]
          omega
  | lock =>
      simp only [hpc] at hs hcopy
      split at hs
      · next hfree =>
        obtain ⟨rfl, rfl⟩ := Prod.mk.inj (Option.some.inj hs)
        rw [hfree] at hg
        refine ⟨⟨0, h.keep (hg.lock rfl (holds_iff_of_demo rfl)) hcopy h.round ?_ rfl ?_⟩, rfl⟩
        · simp [State.left, State.left2, hpc]
        · simp only [State.rank, hpc]
          omega
      · cases hs
  | load =>
      simp only [hpc] at hs hcopy
      obtain ⟨rfl, rfl⟩ := Prod.mk.inj (Option.some.inj hs)
      refine ⟨⟨0, h.keep (h.guarded_keep rfl ?_ rfl) ⟨hcopy, rfl⟩ h.round ?_ rfl ?_⟩, rfl⟩
      · rw [hpc]
        rfl
      · simp [State.left, State.left2, hpc]
      · simp only [State.rank, hpc]
        omega
  | incr =>
      simp only [hpc] at hs hcopy
      obtain ⟨rfl, rfl⟩ := Prod.mk.inj (Option.some.inj hs)
      refine ⟨⟨0, h.keep (h.guarded_keep rfl ?_ rfl) ⟨hcopy.1, by rw [hcopy.2]⟩ h.round ?_ rfl ?_⟩,
        rfl⟩
      · rw [hpc]
        rfl
      · simp [State.left, State.left2, hpc]
      · simp only [State.rank, hpc]
        omega
  | sleep =>
      simp only [hpc] at hs hcopy
      obtain ⟨rfl, rfl⟩ := Prod.mk.inj (Option.some.inj hs)
      refine ⟨⟨0, h.keep (h.guarded_keep rfl ?_ rfl) hcopy h.round ?_ rfl ?_⟩, rfl⟩
      · rw [hpc]
        rfl
      · simp [State.left, State.left2, hpc]
      · simp only [State.rank, hpc]
        omega
  | store =>
      -- the copy is one more than the counter
      simp only [hpc] at hs hcopy
      obtain ⟨rfl, rfl⟩ := Prod.mk.inj (Option.some.inj hs)
      refine ⟨⟨1, h.count (h.guarded_keep rfl ?_ rfl) hcopy.1 h.round ?_ hcopy.2 ?_⟩, rfl⟩
      · rw [hpc]
        rfl
      · simp only [State.left, State.left2, hpc]
        omega
      · simp only [State.rank, hpc]
        omega
  | unlock =>
      simp only [hpc] at hs hcopy
      obtain ⟨rfl, rfl⟩ := Prod.mk.inj (Option.some.inj hs)
      refine ⟨⟨0, h.keep (hg.unlock (i := .demo) ?_ ?_ (holds_iff_of_demo rfl)) trivial h.round ?_
        rfl ?_⟩, rfl⟩
      · simp [State.holds, hpc, DemoPc.holds]
      · simp [State.holds, DemoPc.holds]
      · simp [State.left, State.left2, hpc]
      · simp only [State.rank, hpc]
        omega
  | ended =>
      simp only [hpc] at hs
      cases hs

/-- What a step of `thr_demo2` does: it prints the counter when it has made an increment. -/
lemma Ok.of_thrDemo2 (h : Ok p c s) (hs : thrDemo2 s = some (s', o)) :
    Kept p c s s' 0 ∧ o = [] ∨ Kept p c s s' 1 ∧ o = [(s.global + 1) % sizeLimit] := by
  have hround := h.round
  have hg := h.guarded
  unfold RoundOk at hround
  unfold thrDemo2 at hs
  cases hpc : s.demo2 with
  | test =>
      simp only [hpc] at hs
      obtain ⟨rfl, rfl⟩ := Prod.mk.inj (Option.some.inj hs)
      by_cases hj : 0 < s.j
      · rw [if_pos hj]
        refine Or.inl ⟨h.keep (h.guarded_keep rfl rfl ?_) h.copy hj ?_ rfl ?_, rfl⟩
        · rw [hpc]
          rfl
        · simp [State.left, State.left2, hpc]
        · simp only [State.rank, hpc]
          omega
      · rw [if_neg hj]
        refine Or.inl ⟨h.keep (h.guarded_keep rfl rfl ?_) h.copy trivial ?_ rfl ?_, rfl⟩
        · rw [hpc]
          rfl
        · simp only [State.left, State.left2, hpc]
          omega
        · simp only [State.rank, hpc]
          omega
  | lock =>
      simp only [hpc] at hs hround
      split at hs
      · next hfree =>
        obtain ⟨rfl, rfl⟩ := Prod.mk.inj (Option.some.inj hs)
        rw [hfree] at hg
        refine Or.inl ⟨h.keep (hg.lock rfl (holds_iff_of_demo2 rfl)) h.copy hround ?_ rfl ?_, rfl⟩
        · simp [State.left, State.left2, hpc]
        · simp only [State.rank, hpc]
          omega
      · cases hs
  | print =>
      simp only [hpc] at hs hround
      obtain ⟨rfl, rfl⟩ := Prod.mk.inj (Option.some.inj hs)
      -- `thr_demo` is not in its critical section, so it has no copy
      have hout : s.demo.holds = false := by
        by_contra hin
        have hholds : s.holds .demo := Bool.eq_true_of_not_eq_false hin
        cases hg.unique hholds (show s.holds .demo2 by simp [State.holds, hpc, Demo2Pc.holds])
      have hcopy := h.copy
      unfold CopyOk at hcopy
      refine Or.inr ⟨h.count (h.guarded_keep rfl rfl ?_) ?_ hround ?_ rfl ?_, rfl⟩
      · rw [hpc]
        rfl
      · unfold CopyOk
        cases hdemo : s.demo <;> simp_all [DemoPc.holds]
      · simp only [State.left, State.left2, hpc]
        omega
      · simp only [State.rank, hpc]
        omega
  | unlock =>
      simp only [hpc] at hs hround
      obtain ⟨rfl, rfl⟩ := Prod.mk.inj (Option.some.inj hs)
      refine Or.inl ⟨h.keep (hg.unlock (i := .demo2) ?_ ?_ (holds_iff_of_demo2 rfl)) h.copy trivial
        ?_ rfl ?_, rfl⟩
      · simp [State.holds, hpc, Demo2Pc.holds]
      · simp [State.holds, Demo2Pc.holds]
      · simp [State.left, State.left2, hpc]
      · simp only [State.rank, hpc]
        omega
  | ended =>
      simp only [hpc] at hs
      cases hs

/-- What a step of either thread does. -/
lemma Ok.of_step {a : Thread} (h : Ok p c s) (hs : step s a = some (s', o)) :
    ∃ k, Kept p c s s' k ∧ (o = [] ∨ k = 1 ∧ o = [(s.global + 1) % sizeLimit]) := by
  cases a with
  | demo =>
      obtain ⟨⟨k, hk⟩, ho⟩ := h.of_thrDemo hs
      exact ⟨k, hk, Or.inl ho⟩
  | demo2 =>
      rcases h.of_thrDemo2 hs with ⟨hk, ho⟩ | ⟨hk, ho⟩
      · exact ⟨0, hk, Or.inl ho⟩
      · exact ⟨1, hk, Or.inr ⟨rfl, ho⟩⟩

/-- The thread that holds the mutex, or any that has not ended when nobody does, takes a step. -/
lemma Ok.exists_step (h : Ok p c s) (hfin : ¬ s.Finished) :
    ∃ a s' o, step s a = some (s', o) ∧ Ok p c s' ∧ s'.rank < s.rank := by
  obtain ⟨a, r, hr⟩ : ∃ a r, step s a = some r := by
    by_cases hdemo : s.demo = .ended ∨ s.demo = .lock ∧ s.mutex ≠ none
    · -- `thr_demo` cannot go on, and does not hold the mutex
      have hout : ¬ s.holds .demo := by
        rcases hdemo with he | ⟨he, -⟩ <;> simp [State.holds, he, DemoPc.holds]
      have hfree : s.demo2.holds = false → s.mutex = none := by
        intro hout2
        refine h.guarded.owner_eq_none fun t => ?_
        cases t with
        | demo => exact hout
        | demo2 => simp [State.holds, hout2]
      refine ⟨.demo2, ?_⟩
      unfold step thrDemo2
      cases hpc : s.demo2 with
      | lock =>
          have hnone : s.mutex = none := hfree (by rw [hpc]; rfl)
          exact ⟨_, by simp only [hnone, if_true]; rfl⟩
      | ended =>
          rcases hdemo with he | ⟨-, hown⟩
          · exact absurd ⟨he, hpc⟩ hfin
          · exact absurd (hfree (by rw [hpc]; rfl)) hown
      | _ => exact ⟨_, rfl⟩
    · refine ⟨.demo, ?_⟩
      unfold step thrDemo
      cases hpc : s.demo with
      | lock =>
          have hfree : s.mutex = none := by
            by_contra hown
            exact hdemo (Or.inr ⟨hpc, hown⟩)
          exact ⟨_, by simp only [hfree, if_true]; rfl⟩
      | ended => exact absurd (Or.inl hpc) hdemo
      | _ => exact ⟨_, rfl⟩
  obtain ⟨k, hk, -⟩ := h.of_step hr
  exact ⟨a, r.1, r.2, hr, hk.ok, hk.rank⟩

/-- What is printed is the number of the increments made, as long as the counter does not wrap. -/
lemma Ok.printed {a : Thread} (h : Ok p c s) (hroom : p + c < sizeLimit)
    (hs : step s a = some (s', o)) : Ok p c s' ∧ made p c s ≤ made p c s' ∧
      o.Pairwise (· < ·) ∧ ∀ x ∈ o, made p c s < x ∧ x ≤ made p c s' := by
  obtain ⟨k, hk, ho⟩ := h.of_step hs
  have hmade := hk.made
  refine ⟨hk.ok, by omega, ?_⟩
  rcases ho with rfl | ⟨rfl, rfl⟩
  · exact ⟨.nil, by simp⟩
  · have hnext : made p c s' ≤ p + c := Nat.sub_le _ _
    have hprinted : (s.global + 1) % sizeLimit = made p c s + 1 := by
      rw [succ_mod h.counter]
      exact Nat.mod_eq_of_lt (show made p c s + 1 < sizeLimit by omega)
    refine ⟨List.pairwise_singleton _ _, fun x hx => ?_⟩
    obtain rfl := List.mem_singleton.1 hx
    omega

/-- **No increment gets lost.**  In every run of the two threads, in any order of their steps and
with any numbers of rounds: when both have ended, the counter is the number of all rounds; what is
printed gets larger and larger, as long as the counter does not wrap; the run has at most eight
steps for a round of the one thread and four for one of the other, and two more; and both threads
can still get to their ends. -/
theorem no_lost_update {as : List Thread} {os : List ℕ}
    (hrun : run step (start p c) as = some (s, os)) :
    (s.Finished → s.global = (p + c) % sizeLimit) ∧
      (p + c < sizeLimit → os.Pairwise (· < ·) ∧ ∀ x ∈ os, x ≤ p + c) ∧
      as.length ≤ 8 * p + 4 * c + 2 ∧ ∃ s', Reaches step s s' ∧ s'.Finished := by
  have hok : Ok p c s := Reaches.of_invariant (fun _ _ _ _ hok hs => by
    obtain ⟨k, hk, -⟩ := hok.of_step hs
    exact hk.ok) (ok_start p c) ⟨as, os, hrun⟩
  refine ⟨fun hfin => ?_, fun hroom => ?_, ?_, ?_⟩
  · have hcounter := hok.counter
    have hleft : s.left + s.left2 = 0 := by simp [State.left, State.left2, hfin.1, hfin.2]
    rwa [hleft, Nat.sub_zero] at hcounter
  · obtain ⟨hsorted, -, hbounds⟩ := run_increasing (made p c)
      (fun _ _ _ _ hI hs => hI.printed hroom hs) (ok_start p c) hrun
    have hle : made p c s ≤ p + c := Nat.sub_le _ _
    exact ⟨hsorted, fun x hx => (hbounds x hx).2.trans hle⟩
  · have hlength := length_run_le State.rank (fun _ => 0) (fun _ _ _ _ hI hs => by
      obtain ⟨k, hk, -⟩ := hI.of_step hs
      exact ⟨hk.ok, hk.rank⟩) (ok_start p c) hrun
    have hrank : (start p c).rank = 8 * p + 1 + (4 * c + 1) := rfl
    have hzero : (as.map fun _ => 0).sum = 0 := by simp
    omega
  · exact exists_reaches (I := Ok p c) State.rank (fun s hI hfin => hI.exists_step hfin) hok

/-- The two threads of the source: `thr_demo2` prints between two statements of `thr_demo`. -/
theorem no_lost_update_ten : ∃ s os, run step (start 10 10)
      [.demo2, .demo2, .demo2, .demo, .demo2, .demo, .demo, .demo, .demo, .demo, .demo, .demo2,
        .demo2, .demo2] = some (s, os) ∧ os = [1, 3] ∧
      ∃ s', Reaches step s s' ∧ s'.Finished := by
  refine ⟨_, _, rfl, rfl, ?_⟩
  have h := @no_lost_update 10 10 _ [.demo2, .demo2, .demo2, .demo, .demo2, .demo,
    .demo, .demo, .demo, .demo, .demo, .demo2, .demo2, .demo2] _ rfl
  exact h.2.2.2

end TestMutex

end DemoClass
