import DemoClass.Lib.Mutex
import DemoClass.Lib.Runs
import Mathlib.Algebra.Order.BigOperators.Group.Finset

/-!
# Processes and a semaphore (`semaphore.c`)

Any number of processes run the program at once.  Each of them sets the semaphore to 1, takes it,
sleeps, and gives it back; both operations are made with `SEM_UNDO`, so that the kernel takes back
at the end of a process what it has done to the semaphore (`semadj`), however it ends.  Setting the
semaphore makes the kernel forget what there was to take back.

So a process that comes while another sleeps lets itself in.  As long as this does not happen, one
process at most is between its `up_sem_p` and its `up_sem_v` (`exclusive_iff`), and no process
that is killed keeps the others out (`released`).
-/

namespace DemoClass

namespace SysV

open Runs Mutex

/-- Where a process is: before a call, at `up_sem_p` with a semaphore or with the -1 of
`up_sem_init`, or on its way out. -/
inductive Pc where
  | init
  | p (valid : Bool)
  | sleep
  | v
  | exit
  | ended
deriving DecidableEq

/-- What a call comes back with; or the process is killed. -/
inductive Answer where
  | done
  | interrupted
  | failed
  | killed
deriving DecidableEq

/-- The value of the semaphore, what is to be taken back for each process, and where they are. -/
structure State (n : ℕ) where
  semval : ℕ
  semadj : Fin n → ℤ
  pc : Fin n → Pc

variable {n : ℕ}

/-- The process goes on at `q`. -/
def State.goto (s : State n) (i : Fin n) (q : Pc) : State n :=
  { s with pc := Function.update s.pc i q }

/-- `semctl` with `SETVAL` -/
def State.setval (s : State n) (val : ℕ) : State n := { s with semval := val, semadj := fun _ => 0 }

/-- `semop` of one operation with `SEM_UNDO`, after which the process goes on at `q`. -/
def State.semop (s : State n) (i : Fin n) (sem_op : ℤ) (q : Pc) : State n :=
  { s.goto i q with
    semval := (s.semval + sem_op).toNat
    semadj := Function.update s.semadj i (s.semadj i - sem_op) }

/-- What the kernel does at the end of a process. -/
def State.undo (s : State n) (i : Fin n) : State n :=
  { s.goto i .ended with
    semval := (s.semval + s.semadj i).toNat
    semadj := Function.update s.semadj i 0 }

/-- `main`; `up_sem_p` and `up_sem_v` try again when they are interrupted. -/
def main (s : State n) (i : Fin n) (a : Answer) : Option (State n) :=
  match s.pc i, a with
  | .ended, _ => none
  | _, .killed => some (s.undo i)
  | .init, .done => some ((s.setval 1).goto i (.p true))
  | .init, .failed => some (s.goto i (.p false))
  | .p true, .done => if 0 < s.semval then some (s.semop i (-1) .sleep) else none
  | .p _, .interrupted => some s
  | .p _, .failed => some (s.goto i .exit)
  | .sleep, .done => some (s.goto i .v)
  | .v, .done => some (s.semop i 1 .exit)
  | .v, .interrupted => some s
  | .v, .failed => some (s.goto i .exit)
  | .exit, .done => some (s.undo i)
  | _, _ => none

/-- A step of one of the processes; nothing is observed. -/
def step (s : State n) (a : Fin n × Answer) : Option (State n × List Unit) :=
  (main s a.1 a.2).map fun s => (s, [])

/-- The semaphore has some value when the processes start. -/
def start (n val : ℕ) : State n where
  semval := val
  semadj _ := 0
  pc _ := .init

/-- The process has taken the semaphore and not given it back. -/
def Pc.inside : Pc → Bool
  | .sleep | .v => true
  | _ => false

/-- A process that is inside is alone, and nobody can follow. -/
def State.Exclusive (s : State n) : Prop :=
  ∀ i, (s.pc i).inside = true → s.semval = 0 ∧ ∀ j, (s.pc j).inside = true → j = i

/-- No process sets the semaphore while another one is inside. -/
def Alone (s : State n) (a : Fin n × Answer) : Prop :=
  s.pc a.1 = .init → a.2 = .done → ∀ j, (s.pc j).inside = false

instance (s : State n) (a : Fin n × Answer) : Decidable (Alone s a) :=
  inferInstanceAs (Decidable (s.pc a.1 = .init → a.2 = .done → ∀ j, (s.pc j).inside = false))

/-! ### What there is to take back -/

variable {s s' : State n} {i j : Fin n} {a : Answer} {q : Pc}

/-- What can be there to take back for a process. -/
def Pc.Undoes (q : Pc) (adj : ℤ) : Prop :=
  match q with
  | .sleep | .v => adj = 1
  | .exit => adj = 0 ∨ adj = 1
  | .init | .p _ | .ended => adj = 0

/-- Some process counts on the semaphore. -/
def State.Used (s : State n) : Prop := ∃ i, s.pc i = .p true ∨ s.semadj i = 1

/-- The invariant: the semaphore is free, or it will be given back. -/
structure Ok (s : State n) : Prop where
  undoes : ∀ i, (s.pc i).Undoes (s.semadj i)
  total : s.Used → s.semval + ∑ i, s.semadj i = 1

lemma ok_start (n val : ℕ) : Ok (start n val) where
  undoes _ := rfl
  total := by
    rintro ⟨i, hi | hi⟩ <;> simp [start] at hi

lemma Pc.Undoes.nonneg {adj : ℤ} (h : q.Undoes adj) : 0 ≤ adj := by
  cases q <;> simp only [Pc.Undoes] at h <;> omega

lemma Pc.Undoes.of_inside {adj : ℤ} (h : q.Undoes adj) (hq : q.inside = true) : adj = 1 := by
  cases q <;> first | exact h | simp [Pc.inside] at hq

namespace Ok

/-- Nothing is free, and nobody else has anything to give back. -/
lemma alone (h : Ok s) (hi : s.semadj i = 1) : s.semval = 0 ∧ ∀ j, j ≠ i → s.semadj j = 0 := by
  have htotal := h.total ⟨i, Or.inr hi⟩
  have hnonneg : ∀ j, 0 ≤ s.semadj j := fun j => (h.undoes j).nonneg
  have hsplit := Finset.add_sum_erase Finset.univ s.semadj (Finset.mem_univ i)
  have hrest : 0 ≤ ∑ j ∈ Finset.univ.erase i, s.semadj j := Finset.sum_nonneg fun j _ => hnonneg j
  refine ⟨by omega, fun j hj => ?_⟩
  have hle := Finset.single_le_sum (fun j _ => hnonneg j)
    (Finset.mem_erase.2 ⟨hj, Finset.mem_univ j⟩)
  have := hnonneg j
  omega

lemma exclusive (h : Ok s) : s.Exclusive := by
  intro i hi
  obtain ⟨hval, hothers⟩ := h.alone ((h.undoes i).of_inside hi)
  refine ⟨hval, fun j hj => ?_⟩
  by_contra hne
  have hzero := hothers j hne
  rw [(h.undoes j).of_inside hj] at hzero
  cases hzero

/-- A step that keeps what is free and to be taken back together. -/
lemma move (h : Ok s) {semval : ℕ} {adj : ℤ} (hq : q.Undoes adj)
    (hsum : (semval : ℤ) + adj = s.semval + s.semadj i)
    (hused : q = .p true ∨ adj = 1 → s.pc i = .p true ∨ s.semadj i = 1) :
    Ok ⟨semval, Function.update s.semadj i adj, Function.update s.pc i q⟩ where
  undoes j := by
    by_cases hj : j = i
    · subst hj
      simpa only [Function.update_self] using hq
    · simpa only [Function.update_of_ne hj] using h.undoes j
  total := by
    rintro ⟨j, hj⟩
    have hbefore : s.Used := by
      by_cases he : j = i
      · subst he
        simp only [Function.update_self] at hj
        exact ⟨j, hused hj⟩
      · simp only [Function.update_of_ne he] at hj
        exact ⟨j, hj⟩
    have htotal := h.total hbefore
    have hupdate := sum_update id s.semadj i adj
    simp only [id] at hupdate
    show (semval : ℤ) + ∑ j, Function.update s.semadj i adj j = 1
    omega

/-- A step that leaves the semaphore as it is. -/
lemma goto (h : Ok s) (hq : q.Undoes (s.semadj i)) (hused : q ≠ .p true) : Ok (s.goto i q) := by
  have hmove := @move _ _ _ _ h s.semval _ hq rfl fun hor => Or.inr (hor.resolve_left hused)
  rwa [Function.update_eq_self] at hmove

lemma undo (h : Ok s) (i : Fin n) : Ok (s.undo i) := by
  have hnonneg := (h.undoes i).nonneg
  refine h.move (q := .ended) rfl ?_ (by simp)
  omega

end Ok

/-- Setting the semaphore, when nobody is inside. -/
lemma ok_setval (hout : ∀ j, (s.pc j).inside = false) : Ok ((s.setval 1).goto i (.p true)) where
  undoes j := by
    by_cases hj : j = i
    · subst hj
      simp [State.goto, State.setval, Pc.Undoes]
    · show (Function.update s.pc i (.p true) j).Undoes 0
      rw [Function.update_of_ne hj]
      have hj' := hout j
      cases hpc : s.pc j <;> simp_all [Pc.Undoes, Pc.inside]
  total := by simp [State.goto, State.setval]

/-! ### One step -/

/-- A step keeps the invariant when nobody is inside while the semaphore is set. -/
lemma Ok.of_main (h : Ok s) (halone : Alone s (i, a)) (hs : main s i a = some s') : Ok s' := by
  have hundoes := h.undoes i
  unfold main at hs
  split at hs
  · cases hs
  · -- killed
    obtain rfl := Option.some.inj hs
    exact h.undo i
  · next hpc =>
    obtain rfl := Option.some.inj hs
    exact ok_setval (halone hpc rfl)
  · next hpc =>
    obtain rfl := Option.some.inj hs
    rw [hpc] at hundoes
    exact h.goto hundoes (by simp)
  · next hpc =>
    -- the semaphore is taken
    split_ifs at hs with hfree
    obtain rfl := Option.some.inj hs
    rw [hpc] at hundoes
    have hadj : s.semadj i = 0 := hundoes
    refine h.move (q := .sleep) ?_ ?_ fun _ => Or.inl hpc
    · show s.semadj i - -1 = 1
      omega
    · omega
  · obtain rfl := Option.some.inj hs
    exact h
  · next hpc =>
    obtain rfl := Option.some.inj hs
    rw [hpc] at hundoes
    exact h.goto (Or.inl hundoes) (by simp)
  · next hpc =>
    obtain rfl := Option.some.inj hs
    rw [hpc] at hundoes
    exact h.goto hundoes (by simp)
  · next hpc =>
    -- the semaphore is given back
    obtain rfl := Option.some.inj hs
    rw [hpc] at hundoes
    have hadj : s.semadj i = 1 := hundoes
    refine h.move (q := .exit) ?_ ?_ fun _ => Or.inr hadj
    · show s.semadj i - 1 = 0 ∨ s.semadj i - 1 = 1
      omega
    · omega
  · obtain rfl := Option.some.inj hs
    exact h
  · next hpc =>
    obtain rfl := Option.some.inj hs
    rw [hpc] at hundoes
    exact h.goto (Or.inr hundoes) (by simp)
  · obtain rfl := Option.some.inj hs
    exact h.undo i
  · cases hs

lemma main_of_step {t : Fin n × Answer} {o : List Unit} (hs : step s t = some (s', o)) :
    main s t.1 t.2 = some s' := by
  obtain ⟨s'', hmain, heq⟩ := Option.map_eq_some_iff.1 hs
  obtain ⟨rfl, -⟩ := Prod.mk.inj heq
  exact hmain

/-- Who sets the semaphore while another process is inside lets itself in. -/
lemma not_exclusive (hs : main s i a = some s') (halone : ¬ Alone s (i, a)) : ¬ s'.Exclusive := by
  simp only [Alone, Classical.not_imp, not_forall, Bool.not_eq_false] at halone
  obtain ⟨hpc, rfl, j, hj⟩ := halone
  simp only [main, hpc] at hs
  obtain rfl := Option.some.inj hs
  have hne : j ≠ i := by
    rintro rfl
    simp [hpc, Pc.inside] at hj
  intro hexcl
  have hinside : (((s.setval 1).goto i (.p true)).pc j).inside = true := by
    show (Function.update s.pc i (.p true) j).inside = true
    rwa [Function.update_of_ne hne]
  cases (hexcl j hinside).1

/-- **Mutual exclusion.**  Any number of processes, whatever the value of the semaphore was, any
order of their steps, with calls that fail and processes that are killed anywhere: whenever a
process is inside it is alone there and the semaphore is taken, exactly if no process has set the
semaphore while another one was inside. -/
theorem exclusive_iff {val : ℕ} {as : List (Fin n × Answer)} {os : List Unit}
    (hrun : run step (start n val) as = some (s, os)) :
    Always step State.Exclusive (start n val) as ↔ AllMeet step Alone (start n val) as := by
  refine always_iff_allMeet_of_invariant (J := Ok) (fun _ h => h.exclusive)
    (fun s t r h _ hs => ?_) (ok_start n val) (allMeet_true as _) hrun
  have hmain := main_of_step hs
  refine ⟨⟨fun hexcl => ?_, fun halone => (h.of_main halone hmain).exclusive⟩,
    fun halone => h.of_main halone hmain⟩
  by_contra halone
  exact not_exclusive hmain halone hexcl

/-- The second of two processes comes while the first one sleeps, and is let in. -/
theorem exclusive_iff_second :
    ¬ Always step State.Exclusive (start 2 0) [(0, .done), (0, .done), (1, .done), (1, .done)] := by
  intro h
  have hmeets := (@exclusive_iff 2 _ 0 [(0, .done), (0, .done), (1, .done), (1, .done)] _ rfl).1 h
  revert hmeets
  decide

/-- The steps by which nobody is killed. -/
def calls (s : State n) (a : Fin n × Answer) : Option (State n × List Unit) :=
  if a.2 = .killed then none else step s a

/-- The calls that a process has still to make. -/
def Pc.rank : Pc → ℕ
  | .init => 5
  | .p _ => 4
  | .sleep => 3
  | .v => 2
  | .exit => 1
  | .ended => 0

/-- The process `i` can go on to `q`, without being killed and without letting itself in. -/
def GoesOn (s : State n) (i : Fin n) (q : Pc) : Prop :=
  ∃ a s', a ≠ .killed ∧ Alone s (i, a) ∧ main s i a = some s' ∧ s'.pc = Function.update s.pc i q

/-- A process that has been at `up_sem_p`, or has failed before, goes on by itself. -/
lemma exists_goesOn (hinit : s.pc i ≠ .init) (hp : s.pc i ≠ .p true) (hended : s.pc i ≠ .ended) :
    ∃ q, GoesOn s i q ∧ q.rank < (s.pc i).rank := by
  have halone : ∀ a, Alone s (i, a) := fun a he => absurd he hinit
  cases hpc : s.pc i with
  | init => exact absurd hpc hinit
  | ended => exact absurd hpc hended
  | p valid =>
      cases valid with
      | true => exact absurd hpc hp
      | false =>
          refine ⟨.exit, ⟨.failed, s.goto i .exit, by simp, halone _, ?_, rfl⟩, by simp [Pc.rank]⟩
          simp only [main, hpc]
  | sleep =>
      refine ⟨.v, ⟨.done, s.goto i .v, by simp, halone _, ?_, rfl⟩, by simp [Pc.rank]⟩
      simp only [main, hpc]
  | v =>
      refine ⟨.exit, ⟨.done, s.semop i 1 .exit, by simp, halone _, ?_, rfl⟩, by simp [Pc.rank]⟩
      simp only [main, hpc]
  | exit =>
      refine ⟨.ended, ⟨.done, s.undo i, by simp, halone _, ?_, rfl⟩, by simp [Pc.rank]⟩
      simp only [main, hpc]

/-- When all others wait, have not begun, or have ended, the semaphore is free. -/
lemma Ok.goesOn_p (h : Ok s) (hplace : ∀ j, s.pc j = .init ∨ s.pc j = .p true ∨ s.pc j = .ended)
    (hpc : s.pc i = .p true) : GoesOn s i .sleep := by
  have hzero : ∀ j, s.semadj j = 0 := by
    intro j
    have hundoes := h.undoes j
    rcases hplace j with hj | hj | hj <;> rw [hj] at hundoes <;> exact hundoes
  have htotal := h.total ⟨i, Or.inl hpc⟩
  rw [Finset.sum_eq_zero fun j _ => hzero j] at htotal
  have hfree : 0 < s.semval := by omega
  refine ⟨.done, s.semop i (-1) .sleep, by simp, fun he => ?_, ?_, rfl⟩
  · rw [hpc] at he
    cases he
  · simp only [main, hpc]
    rw [if_pos hfree]

/-- Some process goes on as long as not all have ended. -/
lemma Ok.exists_goesOn (h : Ok s) (hfin : ¬ ∀ i, s.pc i = .ended) :
    ∃ i q, GoesOn s i q ∧ q.rank < (s.pc i).rank := by
  by_cases hleave : ∃ i, s.pc i ≠ .init ∧ s.pc i ≠ .p true ∧ s.pc i ≠ .ended
  · obtain ⟨i, hinit, hp, hended⟩ := hleave
    exact ⟨i, SysV.exists_goesOn hinit hp hended⟩
  · have hplace : ∀ i, s.pc i = .init ∨ s.pc i = .p true ∨ s.pc i = .ended := by
      intro i
      by_contra hne
      rw [not_or, not_or] at hne
      exact hleave ⟨i, hne⟩
    by_cases hwait : ∃ i, s.pc i = .p true
    · obtain ⟨i, hpc⟩ := hwait
      exact ⟨i, .sleep, h.goesOn_p hplace hpc, by simp [Pc.rank, hpc]⟩
    · -- nobody is inside, so the semaphore can be set
      obtain ⟨i, hi⟩ := not_forall.1 hfin
      have hinit : s.pc i = .init :=
        (hplace i).resolve_right fun hor => hor.elim (fun he => hwait ⟨i, he⟩) hi
      refine ⟨i, .p true, ⟨.done, (s.setval 1).goto i (.p true), by simp, fun _ _ j => ?_, ?_, rfl⟩,
        by simp [Pc.rank, hinit]⟩
      · rcases hplace j with hj | hj | hj <;> rw [hj] <;> rfl
      · simp only [main, hinit]

/-- **A process that is killed keeps nobody out.**  In a run where no process has set the semaphore
while another one was inside, wherever processes were killed or calls have failed: as soon as a
process waits for the semaphore, it is free or exactly one process gives it back, by its calls or by
its end; and the processes that are left can all get to their ends. -/
theorem released {val : ℕ} {as : List (Fin n × Answer)} {os : List Unit}
    (hrun : run step (start n val) as = some (s, os))
    (halone : AllMeet step Alone (start n val) as) :
    (∀ i, s.pc i = .p true → s.semval + ∑ j, s.semadj j = 1) ∧
      ∃ s', Reaches calls s s' ∧ ∀ i, s'.pc i = .ended := by
  have hok : Ok s := (run_of_invariant (I := Ok) (P := fun _ => True) (fun s t s' o h hC hs =>
    ⟨h.of_main hC (main_of_step hs), fun _ _ => trivial⟩) (ok_start n val) halone hrun).1
  refine ⟨fun i hi => hok.total ⟨i, Or.inl hi⟩, ?_⟩
  refine exists_reaches (fun s => ∑ i, (s.pc i).rank) (I := Ok) (fun s h hfin => ?_) hok
  obtain ⟨i, q, ⟨a, s', ha, hC, hmain, hpc⟩, hrank⟩ := h.exists_goesOn hfin
  refine ⟨(i, a), s', [], ?_, h.of_main hC hmain, ?_⟩
  · rw [calls, if_neg ha, step, hmain]
    rfl
  · have hsum := sum_update Pc.rank s.pc i q
    rw [hpc]
    omega

/-- One of two processes is killed while it sleeps, and the other one waits. -/
theorem released_two : ∃ s os,
    run step (start 2 0) [(0, .done), (1, .done), (0, .done), (0, .killed)] = some (s, os) ∧
      s.semval + ∑ j, s.semadj j = 1 := by
  refine ⟨_, _, rfl, ?_⟩
  exact (@released 2 _ 0 [(0, .done), (1, .done), (0, .done), (0, .killed)] _ rfl
    (by decide)).1 1 rfl

end SysV

end DemoClass
