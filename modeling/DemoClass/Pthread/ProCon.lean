import DemoClass.Lib.Runs
import Mathlib.Algebra.Order.Ring.Int
import Mathlib.Algebra.Order.Ring.Nat

/-!
# A producer and a consumer (`06test_pro_con.c`)

The two threads share `data`, a mutex and a condition variable.  A round of the producer adds one
to `data`; a round of the consumer waits until there is something, and takes all of it.  So the
producer may have ended while the consumer still has rounds to go, and then nobody signals the
condition any more: with two rounds of the consumer or more there is a schedule on which it waits
forever (`progress_iff`).

A signal wakes a thread that waits and is lost when none does; a thread that was woken takes the
mutex again before it goes on.  A thread whose next step is undefined takes none.
-/

namespace DemoClass

namespace ProCon

open Runs

/-- `DATA_MAX` -/
def dataMax : ℤ := 5

/-- `PRO_INIT_VAL` -/
def proInitVal : ℤ := dataMax / 2

/-- `CON_INIT_VAL` -/
def conInitVal : ℤ := dataMax - proInitVal

/-- An `int` is below. -/
def intLimit : ℤ := 2 ^ 31

inductive Thread where
  | producer
  | consumer
deriving DecidableEq, Repr

/-- Where the producer is: at the test of its loop, or before a call, or before `++data`. -/
inductive ProPc where
  | test
  | lock
  | produce
  | unlock
  | signal
  | sleep
  | ended
deriving DecidableEq, Repr

/-- Where the consumer is; in `pthread_cond_wait` it is waiting for a signal, or woken by one and
waiting for the mutex. -/
inductive ConPc where
  | test
  | lock
  | check
  | waiting
  | woken
  | drain
  | unlock
  | sleep
  | ended
deriving DecidableEq, Repr

/-- What is printed. -/
inductive Printed where
  | producter (data : ℤ)
  | consumer (data : ℤ)
deriving DecidableEq, Repr

/-- The rounds the producer (`i`) and the consumer (`j`) have still to go, what they share, and
where they are. -/
structure State where
  i : ℕ
  j : ℕ
  data : ℤ
  owner : Option Thread
  pro : ProPc
  con : ConPc
deriving DecidableEq

/-- `pro_handler` -/
def proHandler (s : State) : Option (State × List Printed) :=
  match s.pro with
  | .test => some ({ s with pro := if 0 < s.i then .lock else .ended }, [])
  | .lock =>
    if s.owner = none then some ({ s with owner := some .producer, pro := .produce }, []) else none
  | .produce =>
    if s.data + 1 < intLimit then
      some ({ s with data := s.data + 1, pro := .unlock }, [.producter (s.data + 1)])
    else none
  | .unlock => some ({ s with owner := none, pro := .signal }, [])
  | .signal =>
    some ({ s with con := if s.con = .waiting then .woken else s.con, pro := .sleep }, [])
  | .sleep => some ({ s with i := s.i - 1, pro := .test }, [])
  | .ended => none

/-- `con_handler` -/
def conHandler (s : State) : Option (State × List Printed) :=
  match s.con with
  | .test => some ({ s with con := if 0 < s.j then .lock else .ended }, [])
  | .lock =>
    if s.owner = none then some ({ s with owner := some .consumer, con := .check }, []) else none
  | .check =>
    -- `pthread_cond_wait` releases the mutex
    if s.data = 0 then some ({ s with owner := none, con := .waiting }, [])
    else some ({ s with con := .drain }, [])
  | .waiting => none
  | .woken =>
    if s.owner = none then some ({ s with owner := some .consumer, con := .check }, []) else none
  | .drain =>
    if 0 < s.data then some ({ s with data := s.data - 1 }, [.consumer (s.data - 1)])
    else some ({ s with con := .unlock }, [])
  | .unlock => some ({ s with owner := none, con := .sleep }, [])
  | .sleep => some ({ s with j := s.j - 1, con := .test }, [])
  | .ended => none

/-- A step of one of the threads. -/
def step (s : State) : Thread → Option (State × List Printed)
  | .producer => proHandler s
  | .consumer => conHandler s

/-- The threads are created, with `p` rounds of the producer and `c` of the consumer. -/
def start (p c : ℕ) : State where
  i := p
  j := c
  data := conInitVal
  owner := none
  pro := .test
  con := .test

/-- Both threads have ended. -/
def State.Finished (s : State) : Prop := s.pro = .ended ∧ s.con = .ended

/-- As long as a thread has not ended, one of them can take a step. -/
def Progress (p c : ℕ) : Prop :=
  ∀ s, Reaches step (start p c) s → ¬ s.Finished → ∃ t s' o, step s t = some (s', o)

variable {s s' : State} {p c : ℕ} {o : List Printed}

/-! ### One round of the consumer

Each thread has an assertion about what it can rely on at each place, and the steps of the other
one keep it: the producer only adds to `data`, and the consumer only takes from it. -/

/-- The places where the producer holds the mutex. -/
def ProPc.holds : ProPc → Bool
  | .produce | .unlock => true
  | _ => false

/-- The places where the consumer holds the mutex. -/
def ConPc.holds : ConPc → Bool
  | .check | .drain | .unlock => true
  | _ => false

/-- There is room for what the producer has still to add. -/
def ProOk (p : ℕ) (s : State) : Prop :=
  match s.pro with
  | .test => s.data + s.i ≤ conInitVal + p
  | .lock | .produce => 0 < s.i ∧ s.data + s.i ≤ conInitVal + p
  | .unlock | .signal | .sleep => 0 < s.i ∧ s.data + (s.i - 1) ≤ conInitVal + p
  | .ended => True

/-- There is something when the consumer comes to look for it, in its only round. -/
def ConOk (s : State) : Prop :=
  match s.con with
  | .test => s.j ≤ 1 ∧ (0 < s.j → 0 < s.data)
  | .lock | .check => s.j = 1 ∧ 0 < s.data
  | .drain | .unlock | .sleep => s.j = 1
  | .waiting | .woken => False
  | .ended => True

/-- The assertions of the threads, and who has the mutex. -/
structure Ok (p : ℕ) (s : State) : Prop where
  pro : ProOk p s
  con : ConOk s
  pro_holds : s.owner = some .producer ↔ s.pro.holds = true
  con_holds : s.owner = some .consumer ↔ s.con.holds = true

lemma ok_start (hc : c ≤ 1) : Ok p (start p c) :=
  ⟨le_refl (conInitVal + (p : ℤ)), ⟨hc, fun _ => show (0 : ℤ) < conInitVal by decide⟩,
    by simp [start, ProPc.holds], by simp [start, ConPc.holds]⟩

/-- The producer can rely on as much when there is less. -/
lemma ProOk.mono (h : ProOk p s) (hi : s'.i = s.i) (hpro : s'.pro = s.pro)
    (hdata : s'.data ≤ s.data) : ProOk p s' := by
  unfold ProOk at h ⊢
  rw [hi, hpro]
  cases hpc : s.pro <;> simp only [hpc] at h ⊢ <;> omega

/-- The consumer can rely on as much when there is more. -/
lemma ConOk.mono (h : ConOk s) (hj : s'.j = s.j) (hcon : s'.con = s.con)
    (hdata : s.data ≤ s'.data) : ConOk s' := by
  unfold ConOk at h ⊢
  rw [hj, hcon]
  cases hpc : s.con <;> simp only [hpc] at h ⊢ <;> omega

lemma Ok.of_proHandler (h : Ok p s) (hs : proHandler s = some (s', o)) : Ok p s' := by
  obtain ⟨hpro, hcon, hp, hc⟩ := h
  unfold ProOk at hpro
  unfold proHandler at hs
  cases hpc : s.pro with
  | test =>
      simp only [hpc] at hs hpro hp
      obtain ⟨rfl, -⟩ := Prod.mk.inj (Option.some.inj hs)
      refine ⟨?_, hcon, ?_, hc⟩
      · by_cases hi : 0 < s.i <;> simp [ProOk, hi, hpro]
      · by_cases hi : 0 < s.i <;> simpa [hi, ProPc.holds] using hp
  | lock =>
      simp only [hpc] at hs hpro hp
      split at hs
      · next hfree =>
        obtain ⟨rfl, -⟩ := Prod.mk.inj (Option.some.inj hs)
        refine ⟨hpro, hcon, by simp [ProPc.holds], ?_⟩
        rw [hfree] at hc
        simpa using hc
      · cases hs
  | produce =>
      simp only [hpc] at hs hpro hp
      split at hs
      · obtain ⟨rfl, -⟩ := Prod.mk.inj (Option.some.inj hs)
        refine ⟨?_, hcon.mono rfl rfl (by simp), by simpa [ProPc.holds] using hp, hc⟩
        simp only [ProOk]
        omega
      · cases hs
  | unlock =>
      simp only [hpc] at hs hpro hp
      obtain ⟨rfl, -⟩ := Prod.mk.inj (Option.some.inj hs)
      refine ⟨hpro, hcon, by simp [ProPc.holds], ?_⟩
      have howner : s.owner = some .producer := hp.2 rfl
      rw [howner] at hc
      simpa using hc
  | signal =>
      simp only [hpc] at hs hpro hp
      obtain ⟨rfl, -⟩ := Prod.mk.inj (Option.some.inj hs)
      -- nobody waits
      have hsame : (if s.con = .waiting then .woken else s.con) = s.con := by
        refine if_neg fun hw => ?_
        simp [ConOk, hw] at hcon
      refine ⟨hpro, hcon.mono rfl hsame le_rfl, hp, ?_⟩
      simpa only [hsame] using hc
  | sleep =>
      simp only [hpc] at hs hpro hp
      obtain ⟨rfl, -⟩ := Prod.mk.inj (Option.some.inj hs)
      refine ⟨?_, hcon, hp, hc⟩
      simp only [ProOk]
      omega
  | ended =>
      simp only [hpc] at hs
      cases hs

lemma Ok.of_conHandler (h : Ok p s) (hs : conHandler s = some (s', o)) : Ok p s' := by
  obtain ⟨hpro, hcon, hp, hc⟩ := h
  unfold ConOk at hcon
  unfold conHandler at hs
  cases hpc : s.con with
  | test =>
      simp only [hpc] at hs hcon hc
      obtain ⟨rfl, -⟩ := Prod.mk.inj (Option.some.inj hs)
      refine ⟨hpro, ?_, hp, ?_⟩
      · by_cases hj : 0 < s.j
        · simpa [ConOk, hj] using ⟨by omega, hcon.2 hj⟩
        · simp [ConOk, hj]
      · by_cases hj : 0 < s.j <;> simpa [hj, ConPc.holds] using hc
  | lock =>
      simp only [hpc] at hs hcon hc
      split at hs
      · next hfree =>
        obtain ⟨rfl, -⟩ := Prod.mk.inj (Option.some.inj hs)
        refine ⟨hpro, hcon, ?_, by simp [ConPc.holds]⟩
        rw [hfree] at hp
        simpa using hp
      · cases hs
  | check =>
      simp only [hpc] at hs hcon hc
      -- there is something, so the consumer does not wait
      rw [if_neg (by omega)] at hs
      obtain ⟨rfl, -⟩ := Prod.mk.inj (Option.some.inj hs)
      exact ⟨hpro, hcon.1, hp, hc⟩
  | waiting =>
      simp only [hpc] at hs
      cases hs
  | woken =>
      simp only [hpc] at hcon
  | drain =>
      simp only [hpc] at hs hcon hc
      split at hs
      · obtain ⟨rfl, -⟩ := Prod.mk.inj (Option.some.inj hs)
        exact ⟨hpro.mono rfl rfl (by simp), by simpa only [ConOk, hpc] using hcon, hp,
          by simpa only [hpc] using hc⟩
      · obtain ⟨rfl, -⟩ := Prod.mk.inj (Option.some.inj hs)
        exact ⟨hpro, hcon, hp, hc⟩
  | unlock =>
      simp only [hpc] at hs hcon hc
      obtain ⟨rfl, -⟩ := Prod.mk.inj (Option.some.inj hs)
      refine ⟨hpro, hcon, ?_, by simp [ConPc.holds]⟩
      have howner : s.owner = some .consumer := hc.2 rfl
      rw [howner] at hp
      simpa using hp
  | sleep =>
      simp only [hpc] at hs hcon hc
      obtain ⟨rfl, -⟩ := Prod.mk.inj (Option.some.inj hs)
      refine ⟨hpro, ?_, hp, hc⟩
      simp [ConOk, hcon]
  | ended =>
      simp only [hpc] at hs
      cases hs

lemma Ok.reaches (hc : c ≤ 1) (h : Reaches step (start p c) s) : Ok p s := by
  refine h.of_invariant (fun s t s' o hok hs => ?_) (ok_start hc)
  cases t with
  | producer => exact hok.of_proHandler hs
  | consumer => exact hok.of_conHandler hs

/-- The producer takes a step unless it has ended or the consumer has the mutex. -/
lemma Ok.exists_proHandler (h : Ok p s) (hp : conInitVal + p < intLimit) (hne : s.pro ≠ .ended)
    (howner : s.pro = .lock → s.owner ≠ some .consumer) : ∃ r, proHandler s = some r := by
  have hpro := h.pro
  unfold ProOk at hpro
  unfold proHandler
  cases hpc : s.pro with
  | lock =>
      have hfree : s.owner = none := by
        rcases ho : s.owner with _ | (_ | _)
        · rfl
        · have hholds := h.pro_holds.1 ho
          simp [hpc, ProPc.holds] at hholds
        · exact absurd ho (howner hpc)
      simp [hfree]
  | produce =>
      simp only [hpc] at hpro
      have hroom : s.data + 1 < intLimit := by omega
      simp [hroom]
  | ended => exact absurd hpc hne
  | _ => simp

/-- The consumer takes a step unless it has ended or the producer has the mutex. -/
lemma Ok.exists_conHandler (h : Ok p s) (hne : s.con ≠ .ended)
    (howner : s.con = .lock → s.owner ≠ some .producer) : ∃ r, conHandler s = some r := by
  have hcon := h.con
  unfold ConOk at hcon
  unfold conHandler
  cases hpc : s.con with
  | lock =>
      have hfree : s.owner = none := by
        rcases ho : s.owner with _ | (_ | _)
        · rfl
        · exact absurd ho (howner hpc)
        · have hholds := h.con_holds.1 ho
          simp [hpc, ConPc.holds] at hholds
      simp [hfree]
  | check =>
      simp only [hpc] at hcon
      have hsome : s.data ≠ 0 := by omega
      simp [hsome]
  | drain => by_cases hpos : 0 < s.data <;> simp [hpos]
  | waiting => simp [hpc] at hcon
  | woken => simp [hpc] at hcon
  | ended => exact absurd hpc hne
  | _ => simp

lemma progress_of_le_one (hc : c ≤ 1) (hp : conInitVal + p < intLimit) : Progress p c := by
  intro s hs hfin
  have hok := Ok.reaches hc hs
  by_cases hpro : s.pro ≠ .ended ∧ (s.pro = .lock → s.owner ≠ some .consumer)
  · obtain ⟨r, hr⟩ := hok.exists_proHandler hp hpro.1 hpro.2
    exact ⟨.producer, r.1, r.2, hr⟩
  · -- the producer has ended, or the consumer has the mutex; so the producer does not have it
    have hnot : s.owner ≠ some .producer := by
      intro ho
      have hholds := hok.pro_holds.1 ho
      refine hpro ⟨fun he => ?_, fun _ he => ?_⟩
      · simp [he, ProPc.holds] at hholds
      · rw [ho] at he
        cases he
    have hcon : s.con ≠ .ended := by
      intro he
      refine hpro ⟨fun hpe => hfin ⟨hpe, he⟩, fun _ ho => ?_⟩
      have hholds := hok.con_holds.1 ho
      simp [he, ConPc.holds] at hholds
    obtain ⟨r, hr⟩ := hok.exists_conHandler hcon fun _ => hnot
    exact ⟨.consumer, r.1, r.2, hr⟩

/-! ### More rounds, or too many

The producer runs first, as long as there is room. -/

/-- Between two rounds of the producer, before the consumer does anything. -/
def between (i c : ℕ) (d : ℤ) : State := ⟨i, c, d, none, .test, .test⟩

lemma reaches_between {d : ℤ} (n i : ℕ) (hroom : d + n < intLimit) :
    Reaches step (between (i + n) c d) (between i c (d + n)) := by
  induction n generalizing d with
  | zero => simpa using Reaches.refl step (between i c d)
  | succ n ih =>
      have hone : d + 1 < intLimit := by omega
      have hround : Reaches step (between (i + (n + 1)) c d) (between (i + n) c (d + 1)) := by
        refine ⟨List.replicate 6 .producer, [.producter (d + 1)], ?_⟩
        simp [List.replicate, run, step, proHandler, between, hone]
      have hrest := ih (d := d + 1) (by omega)
      rw [show d + 1 + (n : ℤ) = d + ((n + 1 : ℕ) : ℤ) by omega] at hrest
      exact hround.trans hrest

/-- The producer has ended, and the consumer takes what there is. -/
lemma reaches_drained (n : ℕ) : Reaches step ⟨0, c, n, some .consumer, .ended, .drain⟩
    ⟨0, c, 0, some .consumer, .ended, .drain⟩ := by
  induction n with
  | zero => exact Reaches.refl _ _
  | succ n ih =>
      refine Reaches.head (a := .consumer) (o := [.consumer (n : ℤ)]) ?_ ih
      simp [step, conHandler]

/-- The producer has ended, and the consumer waits in its second round. -/
lemma reaches_waiting (hc : 2 ≤ c) (hp : conInitVal + p < intLimit) :
    Reaches step (start p c) ⟨0, c - 1, 0, none, .ended, .waiting⟩ := by
  have hpro : Reaches step (start p c) (between 0 c (conInitVal + p)) := by
    have h := reaches_between (c := c) p 0 hp
    rwa [Nat.zero_add] at h
  have hstock : conInitVal + (p : ℤ) = ((p + 3 : ℕ) : ℤ) := by
    have hinit : conInitVal = 3 := by decide
    omega
  have htake : Reaches step (between 0 c (conInitVal + p))
      ⟨0, c, (p + 3 : ℕ), some .consumer, .ended, .drain⟩ := by
    refine ⟨[.producer, .consumer, .consumer, .consumer], [], ?_⟩
    have hpos : 0 < c := by omega
    have hne : ((p + 3 : ℕ) : ℤ) ≠ 0 := by omega
    simp only [run, step, proHandler, conHandler, between, hstock, hpos, hne, if_true, if_false,
      Nat.lt_irrefl, Option.bind_eq_bind, Option.bind_some, List.append_nil, pure]
  have hwait : Reaches step ⟨0, c, 0, some .consumer, .ended, .drain⟩
      ⟨0, c - 1, 0, none, .ended, .waiting⟩ := by
    refine ⟨List.replicate 6 .consumer, [], ?_⟩
    have hpos : 0 < c - 1 := by omega
    simp [List.replicate, run, step, conHandler, hpos]
  exact hpro.trans (htake.trans ((reaches_drained (p + 3)).trans hwait))

/-- Nobody signals the condition any more. -/
lemma not_progress_of_two_le (hc : 2 ≤ c) (hp : conInitVal + p < intLimit) : ¬ Progress p c := by
  intro h
  obtain ⟨t, s', o, hs⟩ := h _ (reaches_waiting hc hp) fun hfin => by cases hfin.2
  cases t <;> cases hs

/-- The producer is to add one where there is no room, and the consumer has ended, or comes for
the mutex. -/
lemma reaches_overflow (hp : intLimit ≤ conInitVal + p) : ∃ i con,
    (con = .ended ∨ con = .lock) ∧
      Reaches step (start p c) ⟨i, c, intLimit - 1, some .producer, .produce, con⟩ := by
  obtain ⟨n, i, hn, rfl⟩ : ∃ n i : ℕ, conInitVal + n = intLimit - 1 ∧ p = (i + 1) + n := by
    have hinit : conInitVal = 3 := by decide
    have hlimit : intLimit = 2147483648 := by decide
    exact ⟨2147483644, p - 2147483645, by omega, by omega⟩
  have hpro : Reaches step (start ((i + 1) + n) c) (between (i + 1) c (intLimit - 1)) := by
    have h := reaches_between (c := c) (d := conInitVal) n (i + 1) (by omega)
    rwa [hn] at h
  refine ⟨i + 1, if 0 < c then .lock else .ended, ?_, hpro.trans ?_⟩
  · by_cases hc : 0 < c <;> simp [hc]
  · refine ⟨[.producer, .producer, .consumer], [], ?_⟩
    simp [run, step, proHandler, conHandler, between]

/-- A producer that cannot go on does not give the mutex back. -/
lemma not_progress_of_overflow (hp : intLimit ≤ conInitVal + p) : ¬ Progress p c := by
  intro h
  obtain ⟨i, con, hcon, hreach⟩ := reaches_overflow (c := c) hp
  obtain ⟨t, s', o, hs⟩ := h _ hreach fun hfin => by cases hfin.1
  cases t with
  | producer => simp [step, proHandler] at hs
  | consumer => rcases hcon with rfl | rfl <;> cases hs

/-- Some thread can always take a step, until both have ended, exactly if the consumer has at most
one round and the `int` does not overflow. -/
theorem progress_iff (p c : ℕ) : Progress p c ↔ c ≤ 1 ∧ conInitVal + p < intLimit := by
  constructor
  · intro h
    have hp : conInitVal + p < intLimit := by
      by_contra hn
      exact not_progress_of_overflow (not_lt.1 hn) h
    refine ⟨?_, hp⟩
    by_contra hc
    exact not_progress_of_two_le (by omega) hp h
  · rintro ⟨hc, hp⟩
    exact progress_of_le_one hc hp

/-- As in `pro_handler` and `con_handler`. -/
theorem not_progress_hundred : ¬ Progress 100 100 :=
  not_progress_of_two_le (by decide) (by decide)

end ProCon

end DemoClass
