import DemoClass.Lib.Runs
import DemoClass.Select.Server

/-!
# The select server (`03Tcp_select_enhanced/server.c`)

A run of the server goes from step to step: `main` polls and accepts, then it visits one
entry of the table after the other, with at most one call of `client_handler` each.

The handler updates the table when a client is at its end, but not when the connection
cannot be read; with a full table the loop over the entries `n <= ol_con` looks behind the
end of it; and an `fd_set` has no room for every descriptor.  `always_ok_iff` says that
nothing else spoils the table.
-/

namespace DemoClass

namespace Select

namespace TcpSelect

/-- `MAX_CLI_NUM` -/
def maxCliNum : ℕ := 20

/-- What `read` returns in the end, when it is repeated as long as it is interrupted. -/
inductive Read where
  | failed
  | eof
  | data (text : List Char)
deriving DecidableEq, Repr

/-- `client_handler`.  A negative descriptor cannot be read. -/
def clientHandler (read : Read) (s : Server) (conn_fd : ℤ) : Except Fault Server :=
  match if conn_fd < 0 then Read.failed else read with
  | .failed => .ok (s.close conn_fd)
  | .eof => do
    let s ← clearEntries false conn_fd s (s.ol_con + 1).toNat
    return ({ s with ol_con := s.ol_con - 1 } : Server).close conn_fd
  | .data text => .ok (s.call (.write conn_fd (text.map Char.toUpper)))

/-- Where `main` is: before `select`, in the service loop at an index, or beyond an access
outside the table or the set. -/
inductive Pc where
  | poll
  | service (i : ℕ)
  | undefined
deriving DecidableEq, Repr

structure Machine where
  srv : Server
  pc : Pc

/-- What the outside does in a step: the descriptors that are ready and the connection that
is accepted, or what becomes of the entry that is visited. -/
inductive Event where
  | poll (ready : ℤ → Bool) (conn_fd : Option ℤ)
  | visit (junk : Bool) (read : Read)

/-- A step of `main`. -/
def step (m : Machine) : Event → Option (Machine × List Empty)
  | .poll ready conn_fd =>
    match m.pc with
    | .poll =>
      match m.srv.poll maxCliNum ready conn_fd with
      | .ok (.inl s) => some (⟨s, .poll⟩, [])
      | .ok (.inr s) => some (⟨s, .service 0⟩, [])
      | .error _ => some (⟨m.srv, .undefined⟩, [])
    | _ => none
  | .visit junk read =>
    match m.pc with
    | .service i =>
      match serviceBody (clientHandler read) junk (m.srv, i) with
      | .ok (.inl (s, i)) => some (⟨s, .service i⟩, [])
      | .ok (.inr s) => some (⟨s, .poll⟩, [])
      | .error _ => some (⟨m.srv, .undefined⟩, [])
    | _ => none

/-- The server before its first round. -/
def init : Machine := ⟨start maxCliNum, .poll⟩

/-- `accept` returns a descriptor that is not open. -/
def Valid (m : Machine) : Event → Prop
  | .poll _ conn_fd => ∀ fd, conn_fd = some fd → 0 ≤ fd ∧ fd ∉ m.srv.conns
  | .visit _ _ => True

instance decidableValid (m : Machine) : ∀ e, Decidable (Valid m e)
  | .poll _ none => isTrue (by simp [Valid])
  | .poll _ (some fd) => decidable_of_iff (0 ≤ fd ∧ fd ∉ m.srv.conns) (by simp [Valid])
  | .visit _ _ => isTrue trivial

/-- No access was outside the table or the set, and the table and the count are those of the open
connections. -/
structure Ok (m : Machine) : Prop where
  defined : m.pc ≠ .undefined
  consistent : Consistent maxCliNum m.srv

/-- The descriptors fit into the set, and a connection that is handled can be read, and it is not
at its end while the table is full. -/
def Readable (m : Machine) : Event → Prop
  | .poll _ _ => ∀ fd ∈ m.srv.cli_fds, fd < fdSetSize
  | .visit _ read => ∀ i fd, m.pc = .service i → i < m.srv.ol_con → m.srv.cli_fds[i]? = some fd →
      fd < fdSetSize ∧ (0 ≤ fd → m.srv.rd_set fd = true →
        read ≠ .failed ∧ (read = .eof → m.srv.ol_con ≠ maxCliNum))

variable {s s' : Server} {m : Machine} {junk : Bool} {read : Read} {fd : ℤ} {i : ℕ}

/-! ### The handler -/

/-- A negative entry is closed in vain. -/
lemma clientHandler_of_neg (hfd : fd < 0) : clientHandler read s fd = .ok (s.close fd) := by
  simp [clientHandler, hfd]

/-- Closing a connection alone leaves its entry in the table. -/
lemma not_consistent_close (hfd : s.cli_fds[i]? = some fd) (hpos : 0 ≤ fd) :
    ¬ Consistent maxCliNum (s.close fd) := by
  intro hc
  have hmem : fd ∈ (s.close fd).cli_fds.filter isConn :=
    List.mem_filter.2 ⟨List.mem_of_getElem? hfd, by simpa [isConn] using hpos⟩
  have hopen := (hc.conns fd).2 hmem
  simp [Server.close] at hopen

/-- The handler of a connection keeps the table when the connection is readable, and only
then. -/
lemma clientHandler_iff (h : Consistent maxCliNum s) (hfd : s.cli_fds[i]? = some fd)
    (hpos : 0 ≤ fd) (hi : i < s.ol_con) :
    (∃ s', clientHandler read s fd = .ok s' ∧ Consistent maxCliNum s') ↔
      read ≠ .failed ∧ (read = .eof → s.ol_con ≠ maxCliNum) := by
  have hneg : ¬ fd < 0 := by omega
  cases read with
  | failed =>
      refine iff_of_false ?_ (by simp)
      rintro ⟨s', hs', hc⟩
      obtain rfl : s.close fd = s' := by simpa [clientHandler] using hs'
      exact not_consistent_close hfd hpos hc
  | eof =>
      obtain ⟨pre, post, hfds, hlen⟩ := Slots.exists_split hfd
      by_cases hfull : s.ol_con = maxCliNum
      · refine iff_of_false ?_ (by simp [hfull])
        rintro ⟨s', hs', -⟩
        have hclear : clearEntries false fd s (s.ol_con + 1).toNat = .error .outOfBounds :=
          h.clearEntries_full hfull
        rw [clientHandler, if_neg hneg, hclear] at hs'
        cases hs'
      · have hclear : clearEntries false fd s (s.ol_con + 1).toNat =
            .ok (s.cleared false fd pre post) :=
          h.clearEntries_eq hfds hpos (by omega) hfull
        refine iff_of_true ⟨({ s.cleared false fd pre post with
          ol_con := (s.cleared false fd pre post).ol_con - 1 } : Server).close fd, ?_, ?_⟩
          (by simp [hfull])
        · rw [clientHandler, if_neg hneg, hclear]
          rfl
        · refine h.leave hfds hpos ?_ ?_ fun x => ?_
          · simp [Server.close]
          · simp [Server.close]
          · simp [Server.close]
  | data text =>
      refine iff_of_true ⟨s.call (.write fd (text.map Char.toUpper)), ?_, ?_⟩ (by simp)
      · simp [clientHandler, hneg]
      · exact h.congr rfl rfl fun _ => Iff.rfl

/-! ### Steps and runs -/

/-- The handler of an entry keeps the table just when the entry is no connection, or one
that is readable. -/
lemma clientHandler_entry_iff (h : Consistent maxCliNum s) (hfd : s.cli_fds[i]? = some fd)
    (hi : i < s.ol_con) :
    (∃ s', clientHandler read s fd = .ok s' ∧ Consistent maxCliNum s') ↔
      (0 ≤ fd → read ≠ .failed ∧ (read = .eof → s.ol_con ≠ maxCliNum)) := by
  by_cases hpos : 0 ≤ fd
  · rw [clientHandler_iff h hfd hpos hi]
    exact ⟨fun hr _ => hr, fun hr => hr hpos⟩
  · refine iff_of_true ⟨s.close fd, clientHandler_of_neg (by omega), ?_⟩ fun hp => absurd hp hpos
    refine h.congr rfl rfl fun x => ?_
    have hne : x ∈ s.conns → x ≠ fd := by
      rintro hx rfl
      exact hpos (by simpa [isConn] using h.isConn_of_mem hx)
    simpa [Server.close] using hne

/-- The visit of an entry that the set has room for keeps the property just when the handler is
not called for a connection, or finds it readable. -/
lemma visit_ok_iff_of_room {r : Machine × List Empty} (h : Consistent maxCliNum s)
    (hi : i < s.ol_con) (hfd : s.cli_fds[i]? = some fd) (hroom : fd < fdSetSize)
    (hstep : step ⟨s, .service i⟩ (.visit junk read) = some r) :
    Ok r.1 ↔ (s.fdIsset junk fd = true → 0 ≤ fd →
      read ≠ .failed ∧ (read = .eof → s.ol_con ≠ maxCliNum)) := by
  by_cases hset : s.fdIsset junk fd = true
  · obtain ⟨t, ht⟩ : ∃ t, (s.call (.fdIsset fd)).call (.clientHandler fd) = t := ⟨_, rfl⟩
    have hentry : (∃ s', clientHandler read t fd = .ok s' ∧ Consistent maxCliNum s') ↔
        (0 ≤ fd → read ≠ .failed ∧ (read = .eof → s.ol_con ≠ maxCliNum)) := by
      rw [← ht]
      exact clientHandler_entry_iff (h.congr rfl rfl fun _ => Iff.rfl) hfd hi
    have hbody : serviceBody (clientHandler read) junk (s, i) =
        (clientHandler read t fd).map fun s' => .inl (s', i + 1) := by
      rw [serviceBody_handle hi hfd hroom hset, ht]
    constructor
    · intro hok _
      refine hentry.1 ?_
      rcases hh : clientHandler read t fd with e | s'
      · have hr : (⟨s, .undefined⟩, []) = r := by simpa [step, hbody, hh, Except.map] using hstep
        exact absurd (hr ▸ rfl) hok.defined
      · have hr : (⟨s', .service (i + 1)⟩, []) = r := by
          simpa [step, hbody, hh, Except.map] using hstep
        exact ⟨s', rfl, by simpa [← hr] using hok.consistent⟩
    · intro hread
      obtain ⟨s', hh, hs'⟩ := hentry.2 (hread hset)
      have hr : (⟨s', .service (i + 1)⟩, []) = r := by
        simpa [step, hbody, hh, Except.map] using hstep
      rw [← hr]
      exact ⟨by simp, hs'⟩
  · have hset' : s.fdIsset junk fd = false := by simpa using hset
    refine iff_of_true ?_ fun hs => absurd hs hset
    have hr : (⟨s.call (.fdIsset fd), .service (i + 1)⟩, []) = r := by
      simpa [step, serviceBody_skip hi hfd hroom hset'] using hstep
    rw [← hr]
    exact ⟨by simp, h.congr rfl rfl fun _ => Iff.rfl⟩

/-- The visit of an entry, which is undefined when the set has no room for it. -/
lemma visit_ok_iff {r : Machine × List Empty} (h : Consistent maxCliNum s) (hi : i < s.ol_con)
    (hfd : s.cli_fds[i]? = some fd) (hstep : step ⟨s, .service i⟩ (.visit junk read) = some r) :
    Ok r.1 ↔ fd < fdSetSize ∧ (s.fdIsset junk fd = true → 0 ≤ fd →
      read ≠ .failed ∧ (read = .eof → s.ol_con ≠ maxCliNum)) := by
  by_cases hroom : fd < fdSetSize
  · rw [visit_ok_iff_of_room h hi hfd hroom hstep]
    exact (and_iff_right hroom).symm
  · refine iff_of_false (fun hok => hok.defined ?_) fun hr => hroom hr.1
    have hr : (⟨s, .undefined⟩, []) = r := by
      simpa [step, serviceBody_outside hi hfd hroom] using hstep
    rw [← hr]

/-- Polling keeps the property just when the set has room for the descriptors. -/
lemma poll_ok_iff {ready : ℤ → Bool} {conn_fd : Option ℤ} {r : Machine × List Empty}
    (h : Consistent maxCliNum s) (hv : ∀ fd, conn_fd = some fd → 0 ≤ fd ∧ fd ∉ s.conns)
    (hstep : step ⟨s, .poll⟩ (.poll ready conn_fd) = some r) :
    Ok r.1 ↔ ∀ fd ∈ s.cli_fds, fd < fdSetSize := by
  by_cases hroom : ∀ fd ∈ s.cli_fds, fd < fdSetSize
  · refine iff_of_true ?_ hroom
    cases hquiet : s.quiet ready conn_fd with
    | true =>
        have hr : (⟨{ s with rd_set := fun _ => false }, .poll⟩, []) = r := by
          simpa [step, poll_quiet hroom hquiet] using hstep
        rw [← hr]
        exact ⟨by simp, h.congr rfl rfl fun _ => Iff.rfl⟩
    | false =>
        have hr : (⟨s.takeIn maxCliNum ready conn_fd, .service 0⟩, []) = r := by
          simpa [step, poll_takeIn hroom hquiet] using hstep
        rw [← hr]
        exact ⟨by simp, h.takeIn ready hv⟩
  · refine iff_of_false (fun hok => hok.defined ?_) hroom
    have hr : (⟨s, .undefined⟩, []) = r := by simpa [step, poll_outside hroom] using hstep
    rw [← hr]

/-- A step keeps the property just when what it handles is readable. -/
lemma step_ok_iff {e : Event} {r : Machine × List Empty} (h : Ok m) (hv : Valid m e)
    (hstep : step m e = some r) : Ok r.1 ↔ Readable m e := by
  obtain ⟨s, pc⟩ := m
  have hs : Consistent maxCliNum s := h.consistent
  cases e with
  | poll ready conn_fd =>
      cases pc with
      | service i => simp [step] at hstep
      | undefined => simp [step] at hstep
      | poll => exact poll_ok_iff hs hv hstep
  | visit junk read =>
      cases pc with
      | poll => simp [step] at hstep
      | undefined => simp [step] at hstep
      | service i =>
          by_cases hi : (i : ℤ) < s.ol_con
          · have hle := hs.ol_con_le
            have hlen := hs.length
            have hin : i < s.cli_fds.length := by omega
            obtain ⟨fd, hfd⟩ : ∃ fd, s.cli_fds[i]? = some fd :=
              ⟨s.cli_fds[i], List.getElem?_eq_getElem hin⟩
            have hisset : 0 ≤ fd → s.fdIsset junk fd = s.rd_set fd := by
              intro hpos
              rw [Server.fdIsset, if_neg (by omega)]
            rw [visit_ok_iff hs hi hfd hstep]
            constructor
            · rintro ⟨hroom, hread⟩ j x hj _ hx
              obtain rfl : i = j := by simpa using hj
              obtain rfl : fd = x := Option.some.inj (hfd.symm.trans hx)
              refine ⟨hroom, fun hpos hset => hread ?_ hpos⟩
              rwa [hisset hpos]
            · intro hread
              obtain ⟨hroom, hread⟩ := hread i fd rfl hi hfd
              refine ⟨hroom, fun hset hpos => hread hpos ?_⟩
              rwa [hisset hpos] at hset
          · -- the service loop is over
            refine iff_of_true ?_ fun j fd hj hlt => ?_
            · have hr : (⟨s, .poll⟩, []) = r := by simpa [step, serviceBody_done hi] using hstep
              rw [← hr]
              exact ⟨by simp, hs⟩
            · obtain rfl : i = j := by simpa using hj
              exact absurd hlt hi

/-- In a run whose `accept` returns descriptors that are not open, every state has the
property just when every connection that is handled is readable. -/
theorem always_ok_iff {es : List Event} {r : Machine × List Empty}
    (hv : Runs.AllMeet step Valid init es) (hrun : Runs.run step init es = some r) :
    Runs.Always step Ok init es ↔ Runs.AllMeet step Readable init es :=
  Runs.always_iff_allMeet (fun _ _ _ h hv hstep => step_ok_iff h hv hstep)
    ⟨by simp [init], consistent_start maxCliNum⟩ hv hrun

/-- A client that is accepted, sends a line and leaves. -/
theorem always_ok_iff_line :
    Runs.Always step Ok init [.poll (fun _ => false) (some 5), .visit false .eof, .visit false .eof,
      .poll (fun _ => true) none, .visit false (.data ['h', 'i']), .visit false .eof,
      .poll (fun _ => true) none, .visit false .eof, .visit false .eof] ↔
    Runs.AllMeet step Readable init [.poll (fun _ => false) (some 5), .visit false .eof,
      .visit false .eof, .poll (fun _ => true) none, .visit false (.data ['h', 'i']),
      .visit false .eof, .poll (fun _ => true) none, .visit false .eof, .visit false .eof] :=
  always_ok_iff (by decide) rfl

/-- A client that is accepted, and whose connection then cannot be read. -/
def unreadable : List Event :=
  [.poll (fun _ => false) (some 5), .visit false .eof, .visit false .eof,
    .poll (fun _ => true) none, .visit false .failed]

/-- Its descriptor is closed, and stays in the table. -/
theorem not_always_ok_unreadable :
    Runs.AllMeet step Valid init unreadable ∧ ¬ Runs.Always step Ok init unreadable := by
  refine ⟨by decide, fun h => ?_⟩
  have hok : Ok _ := h.last rfl
  have hopen := (hok.consistent.conns 5).2 (by decide)
  exact absurd hopen (by decide)

end TcpSelect

end Select

end DemoClass
