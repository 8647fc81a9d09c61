import DemoClass.Lib.Mutex
import DemoClass.Lib.Runs
import Mathlib.Algebra.Order.BigOperators.Group.Finset

/-!
# Threads that read one file (`05test_homework.c`)

The threads take turns to read the next part of a file, under a mutex, and add what they have read
to `total_size`.  A `read` gives any part of what is left, up to the size of the buffer, and nothing
only at the end of the file; or it is interrupted and tried again, or it fails.  The sum is a `long`
and `total_size` an `int`, so a large file is counted modulo 2^32.

At the label `err` the mutex is given back by a thread that comes from `read` with it, and by one
that comes from `pthread_cond_signal` without it, which is undefined; a thread whose next step is
undefined takes none.
-/

namespace DemoClass

namespace ReadFile

open Runs Mutex

/-- `BUF_SIZE` -/
def bufSize : ℕ := 4096

/-- An `int` is below. -/
def intLimit : ℕ := 2147483648

/-- The conversion of a `long` to an `int`. -/
def toInt (n : ℤ) : ℤ := n.bmod 4294967296

/-- Where a thread is: before a call, before the addition to `total_size`, or at its end with what
it returns.  It comes to `err` from `read` or from `pthread_cond_signal`. -/
inductive Pc where
  | lock
  | read
  | add (nread : ℕ)
  | unlock
  | signal
  | leave
  | errRead
  | errSignal
  | ended (ret : ℤ)
deriving DecidableEq

/-- What a call comes back with: the number of bytes, or a failure. -/
inductive Answer where
  | done
  | got (nread : ℕ)
  | interrupted
  | failed
deriving DecidableEq

/-- The place in the file, what the threads share, and where they are. -/
structure State (n : ℕ) where
  offset : ℕ
  totalSize : ℤ
  rmutex : Option (Fin n)
  nread : Fin n → ℕ
  pc : Fin n → Pc

variable {n : ℕ}

/-- The thread goes on at `p`. -/
def State.goto (s : State n) (i : Fin n) (p : Pc) : State n :=
  { s with pc := Function.update s.pc i p }

/-- `thr_read_file`, on a file of `size` bytes. -/
def thrReadFile (size : ℕ) (s : State n) (i : Fin n) (a : Answer) : Option (State n) :=
  match s.pc i, a with
  | .lock, .done =>
    if s.rmutex = none then some { s.goto i .read with rmutex := some i } else none
  | .read, .got k =>
    if k ≤ bufSize ∧ s.offset + k ≤ size ∧ (k = 0 → s.offset = size) then
      some { s.goto i (if k = 0 then .leave else .add k) with
        offset := s.offset + k
        nread := Function.update s.nread i k }
    else none
  | .read, .interrupted => some s
  | .read, .failed => some (s.goto i .errRead)
  | .add k, .done => some { s.goto i .unlock with totalSize := toInt (s.totalSize + k) }
  | .unlock, .done => some { s.goto i .signal with rmutex := none }
  | .signal, .done => some (s.goto i .lock)
  | .signal, .failed => some (s.goto i .errSignal)
  | .leave, .done => some { s.goto i (.ended 0) with rmutex := none }
  | .errRead, .done => some { s.goto i (.ended (-1)) with rmutex := none }
  | _, _ => none

/-- A step of one of the threads; nothing is observed. -/
def step (size : ℕ) (s : State n) (a : Fin n × Answer) : Option (State n × List Unit) :=
  (thrReadFile size s a.1 a.2).map fun s => (s, [])

/-- `main` has created the threads. -/
def start (n : ℕ) : State n where
  offset := 0
  totalSize := 0
  rmutex := none
  nread _ := 0
  pc _ := .lock

/-- The places where a thread holds the mutex. -/
def Pc.holds : Pc → Bool
  | .read | .add _ | .unlock | .leave | .errRead => true
  | _ => false

/-- What was read and not yet added. -/
def Pc.pending : Pc → ℕ
  | .add k => k
  | _ => 0

/-- The steps that a thread has still to go when it reads nothing any more; one that has read
something is paid for by that. -/
def Pc.rank : Pc → ℕ
  | .lock => 3
  | .read => 2
  | .add _ => 6
  | .unlock => 5
  | .signal => 4
  | .leave | .errRead => 1
  | .errSignal | .ended _ => 0

/-- So many bytes were added, and the others that were read are still to be added. -/
structure Counted (s : State n) (added : ℕ) : Prop where
  offset : added + ∑ i, (s.pc i).pending = s.offset
  total : s.totalSize = toInt added

/-- What the threads rely on. -/
structure Ok (size : ℕ) (s : State n) : Prop where
  guarded : Guarded s.rmutex fun i => (s.pc i).holds = true
  counted : ∃ added, Counted s added
  le : s.offset ≤ size
  all_read : ∀ i, s.pc i = .leave ∨ s.pc i = .ended 0 → Counted s size

/-- What is left to be read, and to be done. -/
def measure (size : ℕ) (s : State n) : ℕ := 5 * (size - s.offset) + ∑ i, (s.pc i).rank

/-- An interrupted `read` is one more step. -/
def Answer.extra : Answer → ℕ
  | .interrupted => 1
  | _ => 0

variable {size : ℕ} {s s' : State n} {i : Fin n} {a : Answer} {p : Pc}

@[simp] lemma goto_offset (s : State n) (i : Fin n) (p : Pc) : (s.goto i p).offset = s.offset := rfl

@[simp] lemma goto_totalSize (s : State n) (i : Fin n) (p : Pc) :
    (s.goto i p).totalSize = s.totalSize := rfl

lemma toInt_add (m k : ℕ) : toInt (toInt m + k) = toInt (m + k : ℕ) := by
  rw [toInt, toInt, Int.bmod_add_bmod, ← Int.natCast_add]
  rfl

/-- Only what fits is converted to itself. -/
lemma toInt_eq_self_iff (m : ℕ) : toInt m = m ↔ m < intLimit := by
  have hlimit : intLimit = 2147483648 := rfl
  constructor
  · intro h
    have hlt := Int.bmod_lt (x := m) (m := 4294967296) (by decide)
    rw [toInt] at h
    omega
  · intro h
    exact Int.bmod_eq_of_le (by omega) (by omega)

/-- The thread `i` goes on at `p`, with these shared variables. -/
def State.move (s : State n) (i : Fin n) (p : Pc) (offset : ℕ) (totalSize : ℤ)
    (rmutex : Option (Fin n)) (nread : Fin n → ℕ) : State n :=
  ⟨offset, totalSize, rmutex, nread, Function.update s.pc i p⟩

lemma ok_start (n size : ℕ) : Ok size (start n) where
  guarded _ := by simp [start, Pc.holds]
  counted := ⟨0, by simp [start, Pc.pending], rfl⟩
  le := Nat.zero_le size
  all_read := by simp [start]

section Move

variable {offset d : ℕ} {totalSize : ℤ} {rmutex : Option (Fin n)} {nread : Fin n → ℕ}

lemma holds_update {j : Fin n} (hj : j ≠ i) :
    (Function.update s.pc i p j).holds = true ↔ (s.pc j).holds = true := by
  rw [Function.update_of_ne hj]

/-- A step adds `d` bytes, and those that it reads are to be added. -/
lemma Counted.move {m : ℕ} (h : Counted s m)
    (hsum : d + p.pending + s.offset = (s.pc i).pending + offset)
    (htotal : ∀ m : ℕ, s.totalSize = toInt m → totalSize = toInt (m + d : ℕ)) :
    Counted (s.move i p offset totalSize rmutex nread) (m + d) where
  offset := by
    have hpend := sum_update Pc.pending s.pc i p
    have hoffset := h.offset
    show m + d + ∑ j, (Function.update s.pc i p j).pending = offset
    omega
  total := htotal m h.total

/-- What a step has to keep: who has seen the end of the file has seen all of it added. -/
lemma Ok.move (h : Ok size s)
    (hg : Guarded rmutex fun j => (Function.update s.pc i p j).holds = true)
    (hsum : d + p.pending + s.offset = (s.pc i).pending + offset)
    (htotal : ∀ m : ℕ, s.totalSize = toInt m → totalSize = toInt (m + d : ℕ))
    (hle : offset ≤ size) (hend : p = .leave ∨ p = .ended 0 → Counted s size) :
    Ok size (s.move i p offset totalSize rmutex nread) where
  guarded := hg
  counted := by
    obtain ⟨m, hm⟩ := h.counted
    exact ⟨m + d, hm.move hsum htotal⟩
  le := hle
  all_read := by
    intro j hj
    have hsize : Counted s size := by
      by_cases he : j = i
      · subst he
        change Function.update s.pc j p j = .leave ∨ Function.update s.pc j p j = .ended 0 at hj
        rw [Function.update_self] at hj
        exact hend hj
      · change Function.update s.pc i p j = .leave ∨ Function.update s.pc i p j = .ended 0 at hj
        rw [Function.update_of_ne he] at hj
        exact h.all_read j hj
    -- there is no room for more
    have hmoved : Counted (s.move i p offset totalSize rmutex nread) (size + d) :=
      hsize.move hsum htotal
    have hoffset : size + d + _ = offset := hmoved.offset
    obtain rfl : d = 0 := by omega
    exact hmoved

/-- Going on without taking the mutex or giving it back. -/
lemma Ok.guarded_keep (h : Ok size s) (hp : p.holds = (s.pc i).holds) :
    Guarded s.rmutex fun j => (Function.update s.pc i p j).holds = true := by
  refine h.guarded.keep fun j => ?_
  by_cases hj : j = i
  · rw [hj, Function.update_self, hp]
  · exact holds_update hj

/-- Giving the mutex back. -/
lemma Ok.guarded_unlock (h : Ok size s) (hi : (s.pc i).holds = true) (hp : p.holds = false) :
    Guarded none fun j => (Function.update s.pc i p j).holds = true :=
  h.guarded.unlock hi (by simp [hp]) fun _ hj => holds_update hj

lemma measure_move (s : State n) (i : Fin n) (e : ℕ)
    (hm : 5 * (size - offset) + p.rank + 1 ≤ 5 * (size - s.offset) + (s.pc i).rank + e) :
    measure size (s.move i p offset totalSize rmutex nread) + 1 ≤ measure size s + e := by
  have hrank := sum_update Pc.rank s.pc i p
  show 5 * (size - offset) + ∑ j, (Function.update s.pc i p j).rank + 1 ≤
    5 * (size - s.offset) + ∑ j, (s.pc j).rank + e
  omega

end Move

namespace Ok

/-- A thread that holds the mutex, and has nothing to add, finds the sum of all that was read. -/
lemma counted_of_holds (h : Ok size s) (hi : (s.pc i).holds = true) (hp : (s.pc i).pending = 0) :
    Counted s s.offset := by
  have hzero : ∑ j, (s.pc j).pending = 0 := by
    refine Finset.sum_eq_zero fun j _ => ?_
    by_cases hj : j = i
    · rw [hj, hp]
    · cases hpc : s.pc j with
      | add k =>
          have hholds : (s.pc j).holds = true := by rw [hpc]; rfl
          exact absurd (h.guarded.unique hholds hi) hj
      | _ => rfl
  obtain ⟨m, hm⟩ := h.counted
  have hoffset := hm.offset
  obtain rfl : m = s.offset := by omega
  exact hm

/-- A step that leaves the shared variables as they are. -/
lemma goto (h : Ok size s) (hp : p.holds = (s.pc i).holds) (hpend : p.pending = (s.pc i).pending)
    (hend : p = .leave ∨ p = .ended 0 → Counted s size) (hrank : p.rank + 1 ≤ (s.pc i).rank) :
    Ok size (s.goto i p) ∧ measure size (s.goto i p) + 1 ≤ measure size s := by
  refine ⟨h.move (d := 0) (h.guarded_keep hp) ?_ (fun _ hm => hm) h.le hend,
    measure_move s i 0 ?_⟩
  · rw [hpend, zero_add]
  · omega

/-- A step that gives the mutex back. -/
lemma release (h : Ok size s) (hi : (s.pc i).holds = true) (hp : p.holds = false)
    (hpend : p.pending = (s.pc i).pending) (hend : p = .leave ∨ p = .ended 0 → Counted s size)
    (hrank : p.rank + 1 ≤ (s.pc i).rank) :
    Ok size { s.goto i p with rmutex := none } ∧
      measure size { s.goto i p with rmutex := none } + 1 ≤ measure size s := by
  refine ⟨h.move (d := 0) (h.guarded_unlock hi hp) ?_ (fun _ hm => hm) h.le hend,
    measure_move s i 0 ?_⟩
  · rw [hpend, goto_offset, zero_add]
  · rw [goto_offset]
    omega

/-- One step keeps the invariant, and takes something from the measure unless it is an interrupted
`read`. -/
lemma of_thrReadFile (h : Ok size s) (hs : thrReadFile size s i a = some s') :
    Ok size s' ∧ measure size s' + 1 ≤ measure size s + a.extra := by
  have hle := h.le
  unfold thrReadFile at hs
  split at hs
  · next hpc =>
    -- the mutex is taken
    split at hs
    · next hfree =>
      obtain rfl := Option.some.inj hs
      have hg := h.guarded
      rw [hfree] at hg
      refine ⟨h.move (d := 0) (hg.lock ?_ fun _ hj => holds_update hj) ?_ (fun _ hm => hm) hle
        (by simp), measure_move s i _ ?_⟩
      · rw [Function.update_self]
        rfl
      · simp [hpc, Pc.pending]
      · simp [hpc, Pc.rank, Answer.extra]
    · cases hs
  · next k hpc =>
    -- something is read, or the end of the file is there
    split at hs
    · next hk =>
      obtain ⟨-, hoffset, hzero⟩ := hk
      obtain rfl := Option.some.inj hs
      have hholds : (s.pc i).holds = true := by rw [hpc]; rfl
      by_cases hk0 : k = 0
      · subst hk0
        have hall : Counted s size := by
          rw [← hzero rfl]
          exact h.counted_of_holds hholds (by rw [hpc]; rfl)
        refine ⟨h.move (d := 0) (h.guarded_keep hholds.symm) ?_ (fun _ hm => hm) hoffset
          (fun _ => hall), measure_move s i _ ?_⟩
        · simp [hpc, Pc.pending]
        · simp [hpc, Pc.rank, Answer.extra]
      · simp only [hk0, if_false]
        refine ⟨h.move (d := 0) (h.guarded_keep hholds.symm) ?_ (fun _ hm => hm) hoffset (by simp),
          measure_move s i _ ?_⟩
        · simp only [hpc, Pc.pending]
          omega
        · simp only [hpc, Pc.rank, Answer.extra]
          omega
    · cases hs
  · -- the `read` is tried again
    obtain rfl := Option.some.inj hs
    exact ⟨h, le_rfl⟩
  · next hpc =>
    obtain rfl := Option.some.inj hs
    exact h.goto (by rw [hpc]; rfl) (by rw [hpc]; rfl) (by simp) (by simp [hpc, Pc.rank])
  · next k hpc =>
    -- what was read is added
    obtain rfl := Option.some.inj hs
    refine ⟨h.move (d := k) (h.guarded_keep ?_) ?_ (fun m hm => ?_) hle (by simp),
      measure_move s i _ ?_⟩
    · rw [hpc]
      rfl
    · simp [hpc, Pc.pending]
    · rw [hm, toInt_add]
    · simp [hpc, Pc.rank, Answer.extra]
  · next hpc =>
    obtain rfl := Option.some.inj hs
    exact h.release (by rw [hpc]; rfl) rfl (by rw [hpc]; rfl) (by simp) (by simp [hpc, Pc.rank])
  · next hpc =>
    obtain rfl := Option.some.inj hs
    exact h.goto (by rw [hpc]; rfl) (by rw [hpc]; rfl) (by simp) (by simp [hpc, Pc.rank])
  · next hpc =>
    obtain rfl := Option.some.inj hs
    exact h.goto (by rw [hpc]; rfl) (by rw [hpc]; rfl) (by simp) (by simp [hpc, Pc.rank])
  · next hpc =>
    obtain rfl := Option.some.inj hs
    exact h.release (by rw [hpc]; rfl) rfl (by rw [hpc]; rfl)
      (fun _ => h.all_read i (Or.inl hpc)) (by simp [hpc, Pc.rank])
  · next hpc =>
    obtain rfl := Option.some.inj hs
    exact h.release (by rw [hpc]; rfl) rfl (by rw [hpc]; rfl) (by simp) (by simp [hpc, Pc.rank])
  · cases hs

lemma of_step (h : Ok size s) {t : Fin n × Answer} {o : List Unit}
    (hs : step size s t = some (s', o)) :
    Ok size s' ∧ measure size s' + 1 ≤ measure size s + t.2.extra := by
  obtain ⟨s'', hmove, heq⟩ := Option.map_eq_some_iff.1 hs
  obtain ⟨rfl, -⟩ := Prod.mk.inj heq
  exact h.of_thrReadFile hmove

end Ok

lemma Ok.reaches (h : Reaches (step size) (start n) s) : Ok size s :=
  h.of_invariant (fun _ _ _ _ hok hs => (hok.of_step hs).1) (ok_start n size)

/-- **Every byte is counted once.**  Any number of threads reads a file, in any order of steps and
with any lengths of what a `read` gives.  At most one of them holds the mutex; `total_size` is what
was read so far, without what a thread has still to add, converted to an `int`; as soon as one of
them has returned 0, it is the size of the file, converted to an `int`.  And a run has at most five
steps for every byte, three for every thread, and the interrupted reads. -/
theorem total_size_right {as : List (Fin n × Answer)} {os : List Unit}
    (hrun : run (step size) (start n) as = some (s, os)) :
    (∀ i j, (s.pc i).holds = true → (s.pc j).holds = true → i = j) ∧
      (∃ added : ℕ, added + ∑ i, (s.pc i).pending = s.offset ∧ s.totalSize = toInt added) ∧
      s.offset ≤ size ∧ ((∃ i, s.pc i = .ended 0) → s.totalSize = toInt size) ∧
      as.length ≤ 5 * size + 3 * n + (as.map fun t => t.2.extra).sum := by
  have hok : Ok size s := Ok.reaches ⟨as, os, hrun⟩
  refine ⟨fun i j hi hj => hok.guarded.unique hi hj, ?_, hok.le, ?_, ?_⟩
  · obtain ⟨m, hm⟩ := hok.counted
    exact ⟨m, hm.offset, hm.total⟩
  · rintro ⟨i, hi⟩
    exact (hok.all_read i (Or.inr hi)).total
  · have hlength := length_run_le (measure size) (fun t : Fin n × Answer => t.2.extra)
      (fun _ _ _ _ h hs => h.of_step hs) (ok_start n size) hrun
    have hstart : measure size (start n) = 5 * size + 3 * n := by
      simp [measure, start, Pc.rank, mul_comm]
    omega

/-- One thread of four reads a file of ten bytes, and the next one starts with it. -/
theorem total_size_right_ten : ∃ s : State 4, ∃ os,
    run (step 10) (start 4) [(0, .done), (0, .interrupted), (0, .got 7), (0, .done), (0, .done),
      (1, .done), (1, .got 3)] = some (s, os) ∧
    ∃ added : ℕ, added + ∑ i, (s.pc i).pending = 10 ∧ s.totalSize = toInt added := by
  refine ⟨_, _, rfl, ?_⟩
  have h := @total_size_right 4 10 _ [(0, .done), (0, .interrupted), (0, .got 7), (0, .done),
    (0, .done), (1, .done), (1, .got 3)] _ rfl
  exact h.2.1

/-! ### Getting to the end -/

/-- All threads have returned. -/
def State.Finished (s : State n) : Prop := ∀ i, ∃ ret, s.pc i = .ended ret

/-- No `pthread_cond_signal` has failed. -/
def State.Signalled (s : State n) : Prop := ∀ i, s.pc i ≠ .errSignal

lemma Signalled.update {q : Fin n → Pc} (h : ∀ j, q j ≠ .errSignal) (hp : p ≠ .errSignal) :
    ∀ j, Function.update q i p j ≠ .errSignal := by
  intro j
  by_cases hj : j = i
  · subst hj
    rwa [Function.update_self]
  · rw [Function.update_of_ne hj]
    exact h j

/-- A thread that has not ended can take a step, when it holds the mutex or nobody does. -/
lemma Ok.exists_move (h : Ok size s) (hs : s.Signalled)
    (hi : ∀ ret, s.pc i ≠ .ended ret) (hfree : s.pc i = .lock → s.rmutex = none) :
    ∃ a s', thrReadFile size s i a = some s' ∧ a.extra = 0 ∧ s'.Signalled := by
  cases hpc : s.pc i with
  | lock =>
      refine ⟨.done, { s.goto i .read with rmutex := some i }, ?_, rfl, ?_⟩
      · simp [thrReadFile, hpc, hfree hpc]
      · exact Signalled.update hs (by simp)
  | read =>
      -- as much as the buffer takes
      let k := min bufSize (size - s.offset)
      have hle := h.le
      have hk : k ≤ bufSize ∧ s.offset + k ≤ size ∧ (k = 0 → s.offset = size) := by
        have hbuf : bufSize = 4096 := rfl
        simp only [k]
        omega
      refine ⟨.got k, { s.goto i (if k = 0 then .leave else .add k) with
        offset := s.offset + k, nread := Function.update s.nread i k }, ?_, rfl, ?_⟩
      · simp only [thrReadFile, hpc]
        rw [if_pos hk]
      · refine Signalled.update hs ?_
        split_ifs <;> simp
  | add k =>
      refine ⟨.done, { s.goto i .unlock with totalSize := toInt (s.totalSize + k) }, ?_, rfl,
        Signalled.update hs (by simp)⟩
      simp only [thrReadFile, hpc]
  | unlock =>
      refine ⟨.done, { s.goto i .signal with rmutex := none }, ?_, rfl,
        Signalled.update hs (by simp)⟩
      simp only [thrReadFile, hpc]
  | signal =>
      refine ⟨.done, s.goto i .lock, ?_, rfl, Signalled.update hs (by simp)⟩
      simp only [thrReadFile, hpc]
  | leave =>
      refine ⟨.done, { s.goto i (.ended 0) with rmutex := none }, ?_, rfl,
        Signalled.update hs (by simp)⟩
      simp only [thrReadFile, hpc]
  | errRead =>
      refine ⟨.done, { s.goto i (.ended (-1)) with rmutex := none }, ?_, rfl,
        Signalled.update hs (by simp)⟩
      simp only [thrReadFile, hpc]
  | errSignal => exact absurd hpc (hs i)
  | ended ret => exact absurd hpc (hi ret)

/-- Some thread can take a step that is not an interrupted `read`. -/
lemma Ok.exists_step (h : Ok size s) (hs : s.Signalled) (hfin : ¬ s.Finished) :
    ∃ t s' o, step size s t = some (s', o) ∧
      (Ok size s' ∧ s'.Signalled) ∧ measure size s' < measure size s := by
  obtain ⟨i, hi, hfree⟩ : ∃ i, (∀ ret, s.pc i ≠ .ended ret) ∧
      (s.pc i = .lock → s.rmutex = none) := by
    cases howner : s.rmutex with
    | some i =>
        -- the thread that holds it goes on
        have hholds := (h.guarded i).1 howner
        refine ⟨i, fun ret he => ?_, fun he => ?_⟩
        · simp [he, Pc.holds] at hholds
        · simp [he, Pc.holds] at hholds
    | none =>
        obtain ⟨i, hi⟩ := not_forall.1 hfin
        exact ⟨i, fun ret he => hi ⟨ret, he⟩, fun _ => rfl⟩
  obtain ⟨a, s', hmove, hextra, hs'⟩ := h.exists_move hs hi hfree
  obtain ⟨hok, hless⟩ := h.of_thrReadFile hmove
  refine ⟨(i, a), s', [], ?_, ⟨hok, hs'⟩, by omega⟩
  rw [step, hmove]
  rfl

/-- One thread alone reads byte by byte. -/
lemma reaches_bytes (n : ℕ) (m : ℕ) (hm : m ≤ size) :
    ∃ s : State (n + 1), Reaches (step size) (start (n + 1)) s ∧ s.offset = m ∧ s.rmutex = none ∧
      ∀ i, s.pc i = .lock := by
  induction m with
  | zero => exact ⟨start (n + 1), Reaches.refl _ _, rfl, rfl, fun _ => rfl⟩
  | succ m ih =>
      obtain ⟨s, hreach, hoffset, hfree, hpc⟩ := ih (by omega)
      have hread : 1 ≤ bufSize ∧ m + 1 ≤ size := ⟨by decide, hm⟩
      refine ⟨⟨m + 1, toInt (s.totalSize + 1), none, Function.update s.nread 0 1, s.pc⟩,
        hreach.trans ⟨[(0, .done), (0, .got 1), (0, .done), (0, .done), (0, .done)], [], ?_⟩,
        rfl, rfl, hpc⟩
      simp [run, step, thrReadFile, State.goto, hpc, hfree, hoffset, hread]

/-- One thread alone reads all of the file, and returns. -/
lemma reaches_ended (n size : ℕ) :
    ∃ s : State (n + 1), Reaches (step size) (start (n + 1)) s ∧ s.pc 0 = .ended 0 := by
  obtain ⟨s, hreach, hoffset, hfree, hpc⟩ := reaches_bytes n size le_rfl
  refine ⟨{ s.goto 0 (.ended 0) with nread := Function.update s.nread 0 0 },
    hreach.trans ⟨[(0, .done), (0, .got 0), (0, .done)], [], ?_⟩, Function.update_self 0 _ s.pc⟩
  simp [run, step, thrReadFile, State.goto, hpc, hfree, hoffset]

/-- **When the file gets read.**  From every state that is reached before a signal has failed, all
threads can get to their ends, however large the file is.  What they have counted when one of them
has seen the end is always the size of the file, exactly if that fits into an `int`. -/
theorem finishes_right_iff (n size : ℕ) :
    (∀ s : State (n + 1), Reaches (step size) (start (n + 1)) s → s.Signalled →
      ∃ s', Reaches (step size) s s' ∧ s'.Finished) ∧
    ((∀ s : State (n + 1), Reaches (step size) (start (n + 1)) s → (∃ i, s.pc i = .ended 0) →
      s.totalSize = size) ↔ size < intLimit) := by
  refine ⟨fun s hreach hs => ?_, fun h => ?_, fun hsize s hreach hend => ?_⟩
  · exact exists_reaches (measure size) (I := fun s => Ok size s ∧ s.Signalled)
      (fun s hI hfin => hI.1.exists_step hI.2 hfin) ⟨Ok.reaches hreach, hs⟩
  · obtain ⟨s, hreach, hend⟩ := reaches_ended n size
    have htotal := ((Ok.reaches hreach).all_read 0 (Or.inr hend)).total
    rw [← toInt_eq_self_iff, ← htotal]
    exact h s hreach ⟨0, hend⟩
  · obtain ⟨i, hi⟩ := hend
    rw [((Ok.reaches hreach).all_read i (Or.inr hi)).total, toInt_eq_self_iff]
    exact hsize

end ReadFile

end DemoClass
