import DemoClass.EchoServer.Replies
import DemoClass.Lib.Runs

/-!
# Edge-triggered connections (`05Epoll_server/server.c`)

The server adds its connections with `EPOLLET`: one is put on the ready list when something
arrives, `epoll_wait` takes it from there, and the handler reads once, at most 4095 bytes.  What is
left then, or the end of the connection behind what was read, is not reported again.

A connection is awake when what waits on it will be reported.  All connections stay awake exactly
when every handler reads all there is (`awake_iff`); one that is asleep stays so, and open, until
more arrives (`asleep_stays`).
-/

namespace DemoClass

namespace EpollServer

open EchoServer Runs

/-- `BUF_SIZE` -/
def bufSize : ℕ := 4096

/-- `MAX_EVENTS` -/
def maxEvents : ℕ := 1000

/-- What has arrived on a connection and was not read: bytes, the end, or a reset. -/
structure Conn where
  unread : List Byte
  eof : Bool
  reset : Bool
deriving DecidableEq

/-- `EPOLLIN`, or `EPOLLERR` and `EPOLLHUP`, which are always reported. -/
def Conn.reportable (c : Conn) : Bool := !c.unread.isEmpty || c.eof || c.reset

/-- What the server should still be told about. -/
def Conn.Waiting (c : Conn) : Prop := c.reset = false ∧ (c.unread ≠ [] ∨ c.eof = true)

/-- What the network brings: bytes, the end of the connection, or a reset. -/
inductive Arrival where
  | bytes (bs : List Byte)
  | fin
  | rst

/-- Nothing comes behind a reset, and nothing else behind the end. -/
def Conn.arrive (c : Conn) : Arrival → Option Conn
  | .bytes bs =>
    if c.eof = false ∧ c.reset = false ∧ bs ≠ [] then some { c with unread := c.unread ++ bs }
    else none
  | .fin => if c.eof = false ∧ c.reset = false then some { c with eof := true } else none
  | .rst => if c.reset = false then some { c with unread := [], reset := true } else none

/-- `events[n].data.fd`, with the listening socket apart. -/
inductive Event where
  | listen
  | conn (fd : ℕ)
deriving DecidableEq

/-- Where `main` is: at the events that it has still to handle, with none at `epoll_wait`; or in
`handle_client`, behind the `recv`. -/
inductive Pc where
  | events (evs : List Event)
  | send (fd : ℕ) (evs : List Event)
  | exited
deriving DecidableEq

/-- The connections by their descriptors, those that were not accepted yet, and the ready list. -/
structure State where
  conn : ℕ → Option Conn
  backlog : List Conn
  ready : ℕ → Bool
  pc : Pc

/-- What happens: on a connection that was accepted or was not, or at a call of the server. -/
inductive Action where
  | connect
  | arrive (fd : ℕ) (a : Arrival)
  | early (i : ℕ) (a : Arrival)
  | epollWait (evs : Option (List Event))
  | accept (fd : Option ℕ)
  | recv
  | send

/-- The calls on connections. -/
inductive Call where
  | recv (fd : ℕ) (bs : List Byte)
  | close (fd : ℕ)
  | send (fd : ℕ)
deriving DecidableEq

def Call.fd : Call → ℕ
  | .recv fd _ => fd
  | .close fd => fd
  | .send fd => fd

def start : State := ⟨fun _ => none, [], fun _ => false, .events []⟩

/-- The events that were reported and not handled. -/
def State.batch (s : State) : List Event :=
  match s.pc with
  | .events evs => evs
  | .send _ evs => evs
  | .exited => []

/-- Something arrives, and the connection is put on the ready list. -/
def State.put (s : State) (fd : ℕ) (c : Conn) : State :=
  { s with conn := Function.update s.conn fd (some c), ready := Function.update s.ready fd true }

/-- The descriptors are closed with the process. -/
def State.exit (s : State) : State := ⟨fun _ => none, [], s.ready, .exited⟩

/-- A reported event: its connection was on the ready list. -/
def State.reports (s : State) : Event → Bool
  | .listen => !s.backlog.isEmpty
  | .conn fd => s.ready fd && ((s.conn fd).map Conn.reportable).getD false

/-- `recv` of `handle_client`, and the `close` behind it. -/
def handleClient (s : State) (fd : ℕ) (evs : List Event) : State × List Call :=
  match s.conn fd with
  | none => ({ s with pc := .send fd evs }, [])
  | some c =>
    if c.reset = false ∧ c.unread ≠ [] then
      ({ s with
        conn := Function.update s.conn fd (some { c with unread := c.unread.drop (bufSize - 1) })
        pc := .send fd evs }, [.recv fd (c.unread.take (bufSize - 1))])
    else if c.reset = false ∧ c.eof then
      ({ s with
        conn := Function.update s.conn fd none
        ready := Function.update s.ready fd false
        pc := .send fd evs }, [.recv fd [], .close fd])
    else ({ s with pc := .send fd evs }, [])

/-- A step of the clients and the network, or of `main`. -/
def step (s : State) : Action → Option (State × List Call)
  | .connect =>
    if s.pc ≠ .exited then some ({ s with backlog := s.backlog ++ [⟨[], false, false⟩] }, [])
    else none
  | .arrive fd a => ((s.conn fd).bind (·.arrive a)).map fun c => (s.put fd c, [])
  | .early i a =>
    ((s.backlog[i]?).bind (·.arrive a)).map fun c => ({ s with backlog := s.backlog.set i c }, [])
  | .epollWait evs =>
    if s.pc = .events [] then
      match evs with
      | none => some (s.exit, [])
      | some evs =>
        if evs ≠ [] ∧ evs.length ≤ maxEvents ∧ evs.Nodup ∧ ∀ e ∈ evs, s.reports e = true then
          some ({ s with
            ready := fun fd => if .conn fd ∈ evs then false else s.ready fd
            pc := .events evs }, [])
        else none
    else none
  | .accept fd =>
    match s.pc, s.backlog with
    | .events (.listen :: evs), c :: backlog =>
      match fd with
      | none => some (s.exit, [])
      | some fd =>
        if s.conn fd = none then
          some ({ s with
            conn := Function.update s.conn fd (some c)
            backlog := backlog
            ready := Function.update s.ready fd c.reportable
            pc := .events evs }, [])
        else none
    | _, _ => none
  | .recv =>
    match s.pc with
    | .events (.conn fd :: evs) => some (handleClient s fd evs)
    | _ => none
  | .send =>
    match s.pc with
    | .send fd evs =>
      -- `SIGPIPE`
      if ((s.conn fd).map Conn.reset).getD false then some (s.exit, [.send fd])
      else some ({ s with pc := .events evs }, [.send fd])
    | _ => none

/-- What a step does. -/
inductive Trans (s : State) : Action → State × List Call → Prop
  | connect (backlog : List Conn) : Trans s .connect ({ s with backlog := backlog }, [])
  | arrive {fd : ℕ} {a : Arrival} {c d : Conn} (hc : s.conn fd = some c)
      (ha : c.arrive a = some d) : Trans s (.arrive fd a) (s.put fd d, [])
  | early {i : ℕ} {a : Arrival} (backlog : List Conn) :
      Trans s (.early i a) ({ s with backlog := backlog }, [])
  | report {evs : List Event} (hpc : s.pc = .events []) (hn : evs.Nodup)
      (hall : ∀ e ∈ evs, s.reports e = true) :
      Trans s (.epollWait (some evs)) ({ s with
        ready := fun fd => if .conn fd ∈ evs then false else s.ready fd
        pc := .events evs }, [])
  | accept {fd : ℕ} {evs : List Event} {c : Conn} (backlog : List Conn)
      (hpc : s.pc = .events (.listen :: evs)) (hfree : s.conn fd = none) :
      Trans s (.accept (some fd)) ({ s with
        conn := Function.update s.conn fd (some c)
        backlog := backlog
        ready := Function.update s.ready fd c.reportable
        pc := .events evs }, [])
  | recv {fd : ℕ} {evs : List Event} (hpc : s.pc = .events (.conn fd :: evs)) :
      Trans s .recv (handleClient s fd evs)
  | send {fd : ℕ} {evs : List Event} (hpc : s.pc = .send fd evs) :
      Trans s .send ({ s with pc := .events evs }, [.send fd])
  | exit {a : Action} {os : List Call} (hos : ∀ x ∈ os, ∃ fd, x = .send fd) :
      Trans s a (s.exit, os)

variable {s s' : State} {a : Action} {r : State × List Call} {fd : ℕ} {evs : List Event} {c : Conn}

lemma trans_of_step (hs : step s a = some r) : Trans s a r := by
  cases a with
  | connect =>
      simp only [step, Option.ite_none_right_eq_some, Option.some.injEq] at hs
      obtain ⟨-, rfl⟩ := hs
      exact .connect _
  | arrive fd a =>
      obtain ⟨d, hd, rfl⟩ := Option.map_eq_some_iff.1 hs
      obtain ⟨c, hc, ha⟩ := Option.bind_eq_some_iff.1 hd
      exact .arrive hc ha
  | early i a =>
      obtain ⟨c, -, rfl⟩ := Option.map_eq_some_iff.1 hs
      exact .early _
  | epollWait evs =>
      simp only [step, Option.ite_none_right_eq_some] at hs
      obtain ⟨hpc, hs⟩ := hs
      cases evs with
      | none =>
          obtain rfl : (s.exit, []) = r := by simpa using hs
          exact .exit (List.forall_mem_nil _)
      | some evs =>
          simp only [Option.ite_none_right_eq_some, Option.some.injEq] at hs
          obtain ⟨⟨-, -, hn, hall⟩, rfl⟩ := hs
          exact .report hpc hn hall
  | accept fd =>
      simp only [step] at hs
      split at hs
      · next evs c backlog hpc hbacklog =>
          cases fd with
          | none =>
              obtain rfl : (s.exit, []) = r := by simpa using hs
              exact .exit (List.forall_mem_nil _)
          | some fd =>
              simp only [Option.ite_none_right_eq_some, Option.some.injEq] at hs
              obtain ⟨hfree, rfl⟩ := hs
              exact .accept backlog hpc hfree
      · simp at hs
  | recv =>
      simp only [step] at hs
      split at hs
      · next fd evs hpc =>
          obtain rfl := Option.some.inj hs
          exact .recv hpc
      · simp at hs
  | send =>
      simp only [step] at hs
      split at hs
      · next fd evs hpc =>
          split_ifs at hs with hreset
          · obtain rfl := Option.some.inj hs
            exact .exit fun x hx => ⟨fd, List.mem_singleton.1 hx⟩
          · obtain rfl := Option.some.inj hs
            exact .send hpc
      · simp at hs

/-! ### Awake and asleep -/

/-- What waits on the connection was reported or will be. -/
def State.AwakeAt (s : State) (fd : ℕ) : Prop :=
  ∀ c, s.conn fd = some c → c.Waiting → s.ready fd = true ∨ .conn fd ∈ s.batch

/-- What waits on any connection was reported or will be. -/
def State.Awake (s : State) : Prop := ∀ fd, s.AwakeAt fd

/-- A handler that reads bytes reads all there are, with the end not behind them; or more has
arrived since the event was reported. -/
def ReadsAll (s : State) : Action → Prop
  | .recv => ∀ fd evs c, s.pc = .events (.conn fd :: evs) → s.conn fd = some c →
      c.reset = false → c.unread ≠ [] →
      s.ready fd = true ∨ c.unread.length ≤ bufSize - 1 ∧ c.eof = false
  | _ => True

lemma Conn.Waiting.reportable (h : c.Waiting) : c.reportable = true := by
  rcases h.2 with h | h
  · simp [Conn.reportable, h]
  · simp [Conn.reportable, h]

lemma awake_exit (s : State) : s.exit.Awake := by
  intro fd c hc
  simp [State.exit] at hc

lemma State.Awake.put (h : s.Awake) (fd : ℕ) (c : Conn) : (s.put fd c).Awake := by
  intro x d hd hwait
  by_cases hx : x = fd
  · left
    simp [State.put, hx]
  · have hd' : s.conn x = some d := by simpa [State.put, hx] using hd
    rcases h x d hd' hwait with hready | hbatch
    · left
      simpa [State.put, hx] using hready
    · exact Or.inr hbatch

/-- `epoll_wait` takes from the ready list what it reports. -/
lemma State.Awake.report (h : s.Awake) (hpc : s.pc = .events []) :
    ({ s with
      ready := fun fd => if .conn fd ∈ evs then false else s.ready fd
      pc := .events evs } : State).Awake := by
  intro fd c hc hwait
  by_cases hmem : .conn fd ∈ evs
  · exact Or.inr hmem
  · left
    rcases h fd c hc hwait with hready | hbatch
    · simpa [hmem] using hready
    · simp [State.batch, hpc] at hbatch

lemma State.Awake.accept (h : s.Awake) (hpc : s.pc = .events (.listen :: evs))
    (backlog : List Conn) :
    ({ s with
      conn := Function.update s.conn fd (some c)
      backlog := backlog
      ready := Function.update s.ready fd c.reportable
      pc := .events evs } : State).Awake := by
  intro x d hd hwait
  by_cases hx : x = fd
  · subst hx
    obtain rfl : c = d := by simpa using hd
    left
    simpa using hwait.reportable
  · have hd' : s.conn x = some d := by simpa [hx] using hd
    rcases h x d hd' hwait with hready | hbatch
    · left
      simpa [hx] using hready
    · right
      simpa [State.batch, hpc] using hbatch

/-- All steps but a `recv` keep the connections awake. -/
lemma State.Awake.of_step (h : s.Awake) (hs : step s a = some r) (ha : a ≠ .recv) : r.1.Awake := by
  cases trans_of_step hs with
  | connect backlog => exact h
  | arrive hc harrive => exact h.put _ _
  | early backlog => exact h
  | report hpc hn hall => exact h.report hpc
  | accept backlog hpc hfree => exact h.accept hpc backlog
  | recv hpc => exact absurd rfl ha
  | send hpc =>
      intro x d hd hwait
      have hx := h x d hd hwait
      rwa [State.batch, hpc] at hx
  | exit hos => exact awake_exit s

/-- What a `recv` needs. -/
lemma awake_handleClient_iff (h : s.Awake) (hpc : s.pc = .events (.conn fd :: evs))
    (hn : .conn fd ∉ evs) : (handleClient s fd evs).1.Awake ↔
      ∀ c, s.conn fd = some c → c.reset = false → c.unread ≠ [] →
        s.ready fd = true ∨ c.unread.length ≤ bufSize - 1 ∧ c.eof = false := by
  -- the other connections
  have hother : ∀ x ≠ fd, ∀ d, s.conn x = some d → d.Waiting →
      s.ready x = true ∨ .conn x ∈ evs := by
    intro x hx d hd hwait
    have hx' := h x d hd hwait
    rw [State.batch, hpc] at hx'
    simpa [hx] using hx'
  cases hc : s.conn fd with
  | none =>
      refine iff_of_true ?_ (by simp)
      simp only [handleClient, hc]
      intro x d hd hwait
      refine hother x ?_ d hd hwait
      rintro rfl
      simp [hc] at hd
  | some c =>
      simp only [handleClient, hc, Option.some.injEq, forall_eq']
      by_cases hread : c.reset = false ∧ c.unread ≠ []
      · rw [if_pos hread]
        have hdrop : c.unread.drop (bufSize - 1) = [] ↔ c.unread.length ≤ bufSize - 1 :=
          List.drop_eq_nil_iff
        constructor
        · intro hawake _ _
          have hfd := hawake fd _ (Function.update_self fd _ s.conn)
          by_cases hwait : c.unread.drop (bufSize - 1) ≠ [] ∨ c.eof = true
          · left
            exact (hfd ⟨hread.1, hwait⟩).resolve_right hn
          · right
            rw [not_or, not_ne_iff, hdrop, Bool.not_eq_true] at hwait
            exact hwait
        · intro hall x d hd hwait
          by_cases hx : x = fd
          · subst hx
            left
            obtain rfl : { c with unread := c.unread.drop (bufSize - 1) } = d := by simpa using hd
            refine (hall hread.1 hread.2).resolve_right ?_
            rintro ⟨hlen, heof⟩
            rcases hwait.2 with hne | htrue
            · exact hne (hdrop.2 hlen)
            · exact absurd (heof.symm.trans htrue) (by simp)
          · exact hother x hx d (by simpa [hx] using hd) hwait
      · rw [if_neg hread]
        refine iff_of_true ?_ fun hreset hne => absurd ⟨hreset, hne⟩ hread
        split_ifs with heof
        · intro x d hd hwait
          by_cases hx : x = fd
          · simp [hx] at hd
          · rcases hother x hx d (by simpa [hx] using hd) hwait with hready | hmem
            · left
              simpa [hx] using hready
            · exact Or.inr hmem
        · intro x d hd hwait
          by_cases hx : x = fd
          · subst hx
            obtain rfl : c = d := Option.some.inj (hc.symm.trans hd)
            rcases hwait.2 with hne | htrue
            · exact absurd ⟨hwait.1, hne⟩ hread
            · exact absurd ⟨hwait.1, htrue⟩ heof
          · exact hother x hx d hd hwait

lemma batch_handleClient (s : State) (fd : ℕ) (evs : List Event) :
    (handleClient s fd evs).1.batch = evs := by
  unfold handleClient
  split
  · rfl
  · split_ifs <;> rfl

/-- No connection is reported twice at a time. -/
lemma batch_nodup_of_step (hs : step s a = some r) (hn : s.batch.Nodup) : r.1.batch.Nodup := by
  cases trans_of_step hs with
  | connect backlog => exact hn
  | arrive hc harrive => exact hn
  | early backlog => exact hn
  | report hpc hnodup hall => exact hnodup
  | accept backlog hpc hfree =>
      rw [State.batch, hpc] at hn
      exact (List.nodup_cons.1 hn).2
  | recv hpc =>
      rw [State.batch, hpc] at hn
      rw [batch_handleClient]
      exact (List.nodup_cons.1 hn).2
  | send hpc =>
      rw [State.batch, hpc] at hn
      exact hn
  | exit hos => exact List.nodup_nil

/-- Something waits on the connection, and nobody will be told. -/
def State.Asleep (s : State) (fd : ℕ) (c : Conn) : Prop :=
  s.conn fd = some c ∧ c.Waiting ∧ s.ready fd = false ∧ .conn fd ∉ s.batch

/-- Nothing more arrives on the connection; behind its end only a reset could. -/
def Quiet (fd : ℕ) (c : Conn) : Action → Prop
  | .arrive x b => x = fd → c.eof = true ∧ b ≠ .rst
  | _ => True

/-- The server reads from the connection or closes it. -/
def Call.Handles (fd : ℕ) : Call → Prop
  | .recv x _ => x = fd
  | .close x => x = fd
  | .send _ => False

lemma step_exit (s : State) (a : Action) : step s.exit a = none := by
  cases a <;> simp [step, State.exit]

/-- Behind the end of the connection only a reset arrives. -/
lemma Conn.arrive_of_eof {b : Arrival} {d : Conn} (heof : c.eof = true) (hb : b ≠ .rst) :
    c.arrive b ≠ some d := by
  cases b with
  | bytes bs => simp [Conn.arrive, heof]
  | fin => simp [Conn.arrive, heof]
  | rst => exact absurd rfl hb

/-- A `handle_client` for another connection leaves this one as it is. -/
lemma State.Asleep.handleClient (h : s.Asleep fd c) {x : ℕ}
    (hpc : s.pc = .events (.conn x :: evs)) :
    (handleClient s x evs).1.Asleep fd c ∧ ∀ y ∈ (handleClient s x evs).2, ¬ y.Handles fd := by
  obtain ⟨hc, hwait, hready, hbatch⟩ := h
  rw [State.batch, hpc] at hbatch
  have hx : fd ≠ x := by
    rintro rfl
    exact hbatch List.mem_cons_self
  have hevs : .conn fd ∉ evs := fun hmem => hbatch (List.mem_cons_of_mem _ hmem)
  unfold EpollServer.handleClient
  split
  · exact ⟨⟨hc, hwait, hready, hevs⟩, by simp⟩
  · next d hd =>
      split_ifs
      · refine ⟨⟨?_, hwait, hready, hevs⟩, by simp [Call.Handles, hx.symm]⟩
        simpa [hx] using hc
      · refine ⟨⟨?_, hwait, ?_, hevs⟩, by simp [Call.Handles, hx.symm]⟩
        · simpa [hx] using hc
        · simpa [hx] using hready
      · exact ⟨⟨hc, hwait, hready, hevs⟩, by simp⟩

/-- While nothing arrives, a step leaves the connection as it is. -/
lemma State.Asleep.of_step (h : s.Asleep fd c) (ha : Quiet fd c a) (hs : step s a = some r) :
    ((∃ t : State, r.1 = t.exit) ∨ r.1.Asleep fd c) ∧ ∀ x ∈ r.2, ¬ x.Handles fd := by
  have hasleep := h
  obtain ⟨hc, hwait, hready, hbatch⟩ := h
  cases trans_of_step hs with
  | connect backlog => exact ⟨Or.inr ⟨hc, hwait, hready, hbatch⟩, by simp⟩
  | @arrive x b e d he harrive =>
      have hx : fd ≠ x := by
        rintro rfl
        obtain ⟨heof, hrst⟩ := ha rfl
        obtain rfl : c = e := Option.some.inj (hc.symm.trans he)
        exact Conn.arrive_of_eof heof hrst harrive
      refine ⟨Or.inr ⟨?_, hwait, ?_, hbatch⟩, by simp⟩
      · simpa [State.put, hx] using hc
      · simpa [State.put, hx] using hready
  | early backlog => exact ⟨Or.inr ⟨hc, hwait, hready, hbatch⟩, by simp⟩
  | @report evs hpc hn hall =>
      -- only what is on the ready list is reported
      have hnot : .conn fd ∉ evs := by
        intro hmem
        have hreport := hall _ hmem
        simp [State.reports, hready] at hreport
      refine ⟨Or.inr ⟨hc, hwait, ?_, hnot⟩, by simp⟩
      simpa [hnot] using hready
  | @accept x evs d backlog hpc hfree =>
      rw [State.batch, hpc] at hbatch
      have hx : fd ≠ x := by
        rintro rfl
        simp [hc] at hfree
      refine ⟨Or.inr ⟨?_, hwait, ?_, fun hmem => hbatch (List.mem_cons_of_mem _ hmem)⟩, by simp⟩
      · simpa [hx] using hc
      · simpa [hx] using hready
  | recv hpc => exact ⟨Or.inr (hasleep.handleClient hpc).1, (hasleep.handleClient hpc).2⟩
  | send hpc =>
      rw [State.batch, hpc] at hbatch
      exact ⟨Or.inr ⟨hc, hwait, hready, hbatch⟩, by simp [Call.Handles]⟩
  | exit hos =>
      refine ⟨Or.inl ⟨s, rfl⟩, fun x hx => ?_⟩
      obtain ⟨y, rfl⟩ := hos x hx
      exact not_false

end EpollServer

end DemoClass
